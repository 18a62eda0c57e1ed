import Pintail.Types.Value

/-! # Bound expressions and their values

A bound expression is evaluated against a row that labels each of its values. Conjunction and
disjunction follow three-valued logic, every other operator is `NULL` on a `NULL` operand, and
what an operator computes on other values is a parameter. The relations a predicate rejects are
those whose all-`NULL` row it never holds on.
-/

namespace Pintail.Exec

/-- A relation of a query: the catalog identity of its table and the name the query gives it. -/
structure TableKey where
  databaseId : ℕ
  tableId : ℕ
  relationName : String
  deriving DecidableEq, Repr

structure ColumnKey where
  table : TableKey
  columnId : ℕ
  deriving DecidableEq, Repr

/-- A column reference. An outer one is a constant of the enclosing query's current row. -/
structure BoundColumn where
  key : ColumnKey
  outer : Bool
  deriving DecidableEq, Repr

/-- A subquery: which one it is and the columns its own expressions name. -/
structure BoundQuery where
  id : ℕ
  columns : List ColumnKey
  deriving DecidableEq, Repr

structure ExprType where
  dataType : Option DataType
  nullable : Bool
  deriving DecidableEq, Repr

inductive UnaryOp
  | plus | minus | not
  deriving DecidableEq, Repr

inductive BinaryOp
  | add | subtract | multiply | divide | integerDivide | modulo
  | bitAnd | bitOr | bitXor | shiftLeft | shiftRight
  | equal | notEqual | less | lessOrEqual | greater | greaterOrEqual
  | and | or | xor
  deriving DecidableEq, Repr

def BinaryOp.isComparison : BinaryOp → Bool
  | .equal | .notEqual | .less | .lessOrEqual | .greater | .greaterOrEqual => true
  | _ => false

/-- The functions the optimizer tells apart; the others carry a number. -/
inductive ScalarFunction
  | cast (target : DataType)
  | like (negated : Bool) (escape : Option Char)
  | inList (negated : Bool)
  | between (negated : Bool)
  | other (id : ℕ)
  deriving DecidableEq, Repr

mutual

inductive BoundExpr
  | preparedIn (type : ExprType) (expr : BoundExpr) (membership : ℕ) (negated : Bool)
  | column (type : ExprType) (reference : BoundColumn)
  | groupKey (type : ExprType) (index : ℕ)
  | aggregate (type : ExprType) (index : ℕ)
  | window (type : ExprType) (index : ℕ)
  | literal (type : ExprType) (value : Value)
  | scalarSubquery (type : ExprType) (query : BoundQuery)
  | existsSubquery (type : ExprType) (query : BoundQuery) (negated : Bool)
  | inSubquery (type : ExprType) (expr : BoundExpr) (query : BoundQuery) (negated : Bool)
  | unary (type : ExprType) (op : UnaryOp) (expr : BoundExpr)
  | binary (type : ExprType) (op : BinaryOp) (left right : BoundExpr)
  | isNull (type : ExprType) (expr : BoundExpr) (negated : Bool)
  | scalar (type : ExprType) (function : ScalarFunction) (args : BoundArgs)
  deriving DecidableEq, Repr

inductive BoundArgs
  | nil
  | cons (head : BoundExpr) (tail : BoundArgs)
  deriving DecidableEq, Repr

end

mutual

@[simp] def BoundExpr.collectColumns : BoundExpr → List ColumnKey
  | .column _ reference => [reference.key]
  | .preparedIn _ expr _ _ | .unary _ _ expr | .isNull _ expr _ => expr.collectColumns
  | .binary _ _ left right => left.collectColumns ++ right.collectColumns
  | .scalar _ _ args => args.collectColumns
  | .inSubquery _ expr query _ => expr.collectColumns ++ query.columns
  | .scalarSubquery _ query | .existsSubquery _ query _ => query.columns
  | .literal _ _ | .groupKey _ _ | .aggregate _ _ | .window _ _ => []

@[simp] def BoundArgs.collectColumns : BoundArgs → List ColumnKey
  | .nil => []
  | .cons head tail => head.collectColumns ++ tail.collectColumns

end

def BoundExpr.referencedTables (expr : BoundExpr) : List TableKey :=
  (expr.collectColumns.map (·.table)).dedup

mutual

@[simp] def BoundExpr.containsSubquery : BoundExpr → Bool
  | .scalarSubquery _ _ | .existsSubquery _ _ _ | .inSubquery _ _ _ _ => true
  | .preparedIn _ expr _ _ | .unary _ _ expr | .isNull _ expr _ => expr.containsSubquery
  | .binary _ _ left right => left.containsSubquery || right.containsSubquery
  | .scalar _ _ args => args.containsSubquery
  | .column _ _ | .literal _ _ | .groupKey _ _ | .aggregate _ _ | .window _ _ => false

@[simp] def BoundArgs.containsSubquery : BoundArgs → Bool
  | .nil => false
  | .cons head tail => head.containsSubquery || tail.containsSubquery

end

/-- What a value of a row is read by: a column, or a place in an aggregation's output. -/
inductive Label
  | column (key : ColumnKey)
  | slot (index : ℕ)
  deriving DecidableEq, Repr

abbrev Row := List (Label × Value)

def Row.get (row : Row) (label : Label) : Value := (row.lookup label).getD .null

def Row.NullOn (table : TableKey) (row : Row) : Prop :=
  ∀ key value, (Label.column key, value) ∈ row → key.table = table → value = .null

mutual

/-- The labels a row is read at: an outer column is not among them. -/
@[simp] def BoundExpr.reads : BoundExpr → List Label
  | .column _ reference => if reference.outer then [] else [.column reference.key]
  | .groupKey _ index | .aggregate _ index => [.slot index]
  | .preparedIn _ expr _ _ | .unary _ _ expr | .isNull _ expr _ | .inSubquery _ expr _ _ =>
    expr.reads
  | .binary _ _ left right => left.reads ++ right.reads
  | .scalar _ _ args => args.reads
  | .literal _ _ | .window _ _ | .scalarSubquery _ _ | .existsSubquery _ _ _ => []

@[simp] def BoundArgs.reads : BoundArgs → List Label
  | .nil => []
  | .cons head tail => head.reads ++ tail.reads

end

def kleeneAnd : Option Bool → Option Bool → Option Bool
  | some false, _ | _, some false => some false
  | some true, some true => some true
  | _, _ => none

def kleeneOr : Option Bool → Option Bool → Option Bool
  | some true, _ | _, some true => some true
  | some false, some false => some false
  | _, _ => none

def ofTruth : Option Bool → Value
  | none => .null
  | some value => .boolean value

/-- What the operators compute. An operator sees its operands beside their values, for the types
and collations they declare, and the values of the columns below it, since exact decimals are
kept through nested operators. -/
structure Evaluation where
  truth : Value → Option Bool
  truth_null : truth .null = none
  truth_boolean : ∀ value, truth (.boolean value) = some value
  /-- The current row of the enclosing query. -/
  outer : ColumnKey → Value
  compare : BinaryOp → BoundExpr → BoundExpr → Value → Value → Value
  compare_equal_comm : ∀ left right v w,
    compare .equal left right v w = compare .equal right left w v
  arithmetic : BinaryOp → ExprType → BoundExpr → BoundExpr → List Value → Value → Value → Value
  unary : UnaryOp → ExprType → BoundExpr → List Value → Value → Value
  /-- Whether a value that is not `NULL` is a member of a prepared set. -/
  lookup : ℕ → Value → Option Bool
  /-- The comparison of a list membership or a range test over the given arguments. -/
  compareArgs : BinaryOp → BoundArgs → Value → Value → Value
  scalar : ScalarFunction → ExprType → BoundArgs → List Value → List Value → Value
  subquery : BoundExpr → Row → Value

def evaluateInList (equal : Value → Value → Value) (negated : Bool) : List Value → Value
  | [] => .null
  -- nothing is a member of an empty set, not even `NULL`
  | [_] => .boolean negated
  | .null :: _ => .null
  | subject :: candidates =>
    let found := candidates.map (equal subject)
    if .boolean true ∈ found then .boolean !negated
    else if .null ∈ found then .null
    else .boolean negated

def evaluateComparison (compare : Value → Value → Value) (left right : Value) : Value :=
  if left = .null ∨ right = .null then .null else compare left right

namespace Evaluation

variable (ev : Evaluation)

def logic (combine : Option Bool → Option Bool → Option Bool) (left right : Value) : Value :=
  ofTruth (combine (ev.truth left) (ev.truth right))

def evaluateBetween (compare : BinaryOp → Value → Value → Value) (negated : Bool) :
    List Value → Value
  | value :: lower :: upper :: _ =>
    ofTruth ((kleeneAnd
      (ev.truth (evaluateComparison (compare .greaterOrEqual) value lower))
      (ev.truth (evaluateComparison (compare .lessOrEqual) value upper))).map (· != negated))
  | _ => .null

def evaluateScalar (function : ScalarFunction) (type : ExprType) (args : BoundArgs)
    (columns values : List Value) : Value :=
  match function with
  | .inList negated =>
    evaluateInList (fun v w => evaluateComparison (ev.compareArgs .equal args) v w) negated values
  | .between negated => ev.evaluateBetween (ev.compareArgs · args) negated values
  | .cast _ | .like _ _ =>
    if .null ∈ values then .null else ev.scalar function type args columns values
  | .other _ => ev.scalar function type args columns values

def evaluateBinary (type : ExprType) (op : BinaryOp) (left right : BoundExpr)
    (columns : List Value) (v w : Value) : Value :=
  match op with
  | .and => ev.logic kleeneAnd v w
  | .or => ev.logic kleeneOr v w
  | op =>
    evaluateComparison
      (if op.isComparison then ev.compare op left right
        else ev.arithmetic op type left right columns) v w

mutual

@[simp] def eval (row : Row) : BoundExpr → Value
  | .preparedIn _ expr membership negated =>
    match eval row expr with
    | .null => .null
    | value => ofTruth ((ev.lookup membership value).map (· != negated))
  | .column _ reference =>
    if reference.outer then ev.outer reference.key else row.get (.column reference.key)
  | .groupKey _ index | .aggregate _ index => row.get (.slot index)
  -- lowered to a column before anything evaluates it
  | .window _ _ => .null
  | .literal _ value => value
  | .scalarSubquery type query => ev.subquery (.scalarSubquery type query) row
  | .existsSubquery type query negated => ev.subquery (.existsSubquery type query negated) row
  | .inSubquery type expr query negated => ev.subquery (.inSubquery type expr query negated) row
  | .unary type op expr =>
    match eval row expr with
    | .null => .null
    | value => ev.unary op type expr (expr.reads.map row.get) value
  | .binary type op left right =>
    ev.evaluateBinary type op left right ((left.reads ++ right.reads).map row.get)
      (eval row left) (eval row right)
  | .isNull _ expr negated => .boolean ((eval row expr == .null) != negated)
  | .scalar type function args =>
    ev.evaluateScalar function type args (args.reads.map row.get) (evalArgs row args)

@[simp] def evalArgs (row : Row) : BoundArgs → List Value
  | .nil => []
  | .cons head tail => eval row head :: evalArgs row tail

end

def keeps (expr : BoundExpr) (row : Row) : Bool := ev.truth (ev.eval row expr) == some true

def sample : Evaluation where
  truth
    | .null => none
    | .boolean value => some value
    | _ => some true
  truth_null := rfl
  truth_boolean _ := rfl
  outer _ := .null
  compare op _ _ v w := .boolean (if op = .equal then v == w else v != w)
  compare_equal_comm _ _ v w := by simp [Bool.beq_comm]
  arithmetic _ _ _ _ _ v _ := v
  unary _ _ _ _ v := v
  lookup _ _ := some false
  compareArgs _ _ v w := .boolean (v == w)
  scalar _ _ _ _ _ := .null
  subquery _ _ := .null

end Evaluation

def BoundExpr.conjunctsOf : BoundExpr → List BoundExpr
  -- the walk keeps a stack, so the right operand's conjuncts come first
  | .binary _ .and left right => right.conjunctsOf ++ left.conjunctsOf
  | expr => [expr]

def BoundExpr.orBranches : BoundExpr → List BoundExpr
  | .binary _ .or left right => left.orBranches ++ right.orBranches
  | expr => [expr]

def BoundExpr.andParts : BoundExpr → List BoundExpr
  | .binary _ .and left right => left.andParts ++ right.andParts
  | expr => [expr]

mutual

def BoundExpr.readsColumnsAndConstants : BoundExpr → Bool
  | .column _ _ | .literal _ _ => true
  | .binary _ op left right =>
    !(op == .and || op == .or) && left.readsColumnsAndConstants && right.readsColumnsAndConstants
  | .scalar _ (.cast _) args => args.readsColumnsAndConstants
  | _ => false

def BoundArgs.readsColumnsAndConstants : BoundArgs → Bool
  | .nil => true
  | .cons head tail => head.readsColumnsAndConstants && tail.readsColumnsAndConstants

end

/-- The same condition, or the same equality written the other way round. -/
def sameCondition (left right : BoundExpr) : Bool :=
  left == right ||
    match left, right with
    | .binary _ .equal a b, .binary _ .equal c d => a == d && b == c
    | _, _ => false

def BoundExpr.nullable : BoundExpr → Bool
  | .preparedIn type _ _ _ | .column type _ | .groupKey type _ | .aggregate type _
  | .window type _ | .literal type _ | .scalarSubquery type _ | .existsSubquery type _ _
  | .inSubquery type _ _ _ | .unary type _ _ | .binary type _ _ _ | .isNull type _ _
  | .scalar type _ _ => type.nullable

def joinExpr (op : BinaryOp) (left right : BoundExpr) : BoundExpr :=
  .binary ⟨some .boolean, left.nullable || right.nullable⟩ op left right

def andExpr : BoundExpr → BoundExpr → BoundExpr := joinExpr .and

/-- Combines the members of a list from the left; an empty list has no combination. -/
def reduce {α : Type*} (combine : α → α → α) : List α → Option α
  | [] => none
  | first :: rest => some (rest.foldl combine first)

def sharedOnce (shared : List BoundExpr) : List BoundExpr :=
  shared.foldl (fun kept condition =>
    if kept.any (sameCondition · condition) then kept else kept ++ [condition]) []

def sharedConditions (branches : List (List BoundExpr)) : List BoundExpr :=
  sharedOnce ((branches.headD []).filter fun candidate =>
    candidate.readsColumnsAndConstants &&
      branches.tail.all fun branch => branch.any (sameCondition · candidate))

def withoutShared (shared branch : List BoundExpr) : List BoundExpr :=
  branch.filter fun part => !shared.any (sameCondition · part)

/-- The conjuncts of a disjunction: the shared conditions, and what is left of its branches
unless a branch is the shared conditions alone. -/
def factorDisjunction (expr : BoundExpr) : List BoundExpr :=
  let branches := expr.orBranches.map BoundExpr.andParts
  let shared := sharedConditions branches
  let rests := branches.map (withoutShared shared)
  if shared.isEmpty then [expr]
  else if rests.any List.isEmpty then shared
  else shared ++ (reduce (joinExpr .or) (rests.filterMap (reduce andExpr))).toList

def BoundExpr.splitConjunction : BoundExpr → List BoundExpr
  | .binary _ .and left right => left.splitConjunction ++ right.splitConjunction
  | .binary type .or left right => factorDisjunction (.binary type .or left right)
  | expr => [expr]

/-- The relations whose all-`NULL` row makes an expression `NULL`. -/
def BoundExpr.nullPropagatingTables : BoundExpr → List TableKey
  | .column _ reference => if reference.outer then [] else [reference.key.table]
  | .unary _ _ expr => expr.nullPropagatingTables
  | .binary _ op left right =>
    if op = .and ∨ op = .or then
      left.nullPropagatingTables.filter (· ∈ right.nullPropagatingTables)
    else left.nullPropagatingTables ++ right.nullPropagatingTables
  | .scalar _ (.cast _) (.cons first _) => first.nullPropagatingTables
  | _ => []

/-- The relations whose all-`NULL` row makes a predicate `NULL` or false. -/
def BoundExpr.nullRejectedTables : BoundExpr → List TableKey
  | .binary _ .and left right => left.nullRejectedTables ++ right.nullRejectedTables
  | .binary _ .or left right => left.nullRejectedTables.filter (· ∈ right.nullRejectedTables)
  | .binary _ op left right =>
    if op.isComparison then left.nullPropagatingTables ++ right.nullPropagatingTables else []
  | .isNull _ expr true => expr.nullPropagatingTables
  -- `NULL NOT IN` an empty set is true, so only the positive test
  | .preparedIn _ expr _ false => expr.nullPropagatingTables
  | .scalar _ (.like _ _) (.cons first _) | .scalar _ (.inList _) (.cons first _)
  | .scalar _ (.between _) (.cons first _) => first.nullPropagatingTables
  | _ => []

end Pintail.Exec
