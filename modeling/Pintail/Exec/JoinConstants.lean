import Pintail.Exec.Collation
import Pintail.Exec.PushedRows

/-! # Constants carried across join equalities

A column that a filter below a join compares with a literal tells the column it is joined to. The
pass gathers the literals by column below each input, and adds the derived comparison to the scan
on the other side, where one scan only has the relation's key.
-/

namespace Pintail.Exec

/-- What a column reference carries of its declaration. -/
structure ColumnInfo where
  dataType : DataType
  nullable : Bool
  collation : Option Collation
  enumLabels : Option (List String)

def literalExpr (value : Value) : BoundExpr := .literal ⟨value.dataType, value = .null⟩ value

def joinEqualities (predicate : BoundExpr) : List (BoundColumn × BoundColumn) :=
  predicate.conjunctsOf.filterMap fun
    | .binary _ .equal (.column _ first) (.column _ second) => some (first, second)
    | _ => none

def propagatesInto : JoinKind → Bool × Bool
  | .inner => (true, true)
  | .left => (false, true)
  | .scalar | .semi | .anti | .cross => (false, false)

/-- A comparison with a literal. One with `NULL` is never true, and tells nothing. -/
def constantComparison : BoundExpr → Option (BoundColumn × Value)
  | .binary _ .equal (.column _ column) (.literal _ value)
  | .binary _ .equal (.literal _ value) (.column _ column) =>
    if value = .null then none else some (column, value)
  | _ => none

def recordConstants (predicate : BoundExpr) : List (ColumnKey × Value) :=
  predicate.conjunctsOf.filterMap fun conjunct =>
    (constantComparison conjunct).map fun found => (found.1.key, found.2)

def constantOf (constants : List (ColumnKey × Value)) (key : ColumnKey) : Option Value :=
  constants.reverse.lookup key

structure Derivation where
  intoLeft : Bool
  target : BoundColumn
  source : BoundColumn
  value : Value

/-- What one equality derives from the constants of the two inputs. -/
def derivationsOf (kind : JoinKind) (left right : List (ColumnKey × Value))
    (pair : BoundColumn × BoundColumn) : List Derivation :=
  let derive (intoLeft : Bool) (constants : List (ColumnKey × Value))
      (target source : BoundColumn) : List Derivation :=
    ((constantOf constants source.key).map fun value => ⟨intoLeft, target, source, value⟩).toList
  (if (propagatesInto kind).2 then
    derive false left pair.2 pair.1 ++ derive false left pair.1 pair.2 else []) ++
  (if (propagatesInto kind).1 then
    derive true right pair.2 pair.1 ++ derive true right pair.1 pair.2 else [])

section

variable (catalog : ColumnKey → ColumnInfo)

/-- Whether two columns have one type and collation, and no declared labels. -/
def comparesAlike (target source : BoundColumn) : Bool :=
  let target := catalog target.key
  let source := catalog source.key
  target.dataType = source.dataType && target.collation = source.collation &&
    target.enumLabels.isNone && source.enumLabels.isNone

def equalsLiteral (column : BoundColumn) (value : Value) : BoundExpr :=
  let info := catalog column.key
  .binary ⟨some .boolean, info.nullable⟩ .equal
    (.column ⟨some info.dataType, info.nullable⟩ column) (literalExpr value)

def Derivation.compatible (derivation : Derivation) : Bool :=
  comparesAlike catalog derivation.target derivation.source

def Derivation.predicate (derivation : Derivation) : BoundExpr :=
  equalsLiteral catalog derivation.target derivation.value

end

namespace LogicalPlan

variable {δ : Type}

def collectConstants : LogicalPlan δ → List (ColumnKey × Value)
  | .scan source => source.predicates.flatMap recordConstants
  | .filter input predicate => recordConstants predicate ++ input.collectConstants
  | .join left right kind _ =>
    left.collectConstants ++ if kind = .inner then right.collectConstants else []
  | .project input _ | .aggregate input _ _ | .window input _ _ | .distinct input _
  | .sort input _ _ | .limit input _ _ | .derived input _ => input.collectConstants
  | .empty | .oneRow | .crossJoin _ | .unionAll _ | .setOp _ _ _ _ | .recursive _ _ _ _ _ => []

mutual

@[simp] def countScans (table : TableKey) : LogicalPlan δ → ℕ
  | .scan source => if source.table = table then 1 else 0
  | .join left right _ _ => left.countScans table + right.countScans table
  | .filter input _ => input.countScans table
  | .crossJoin inputs => countScansAll table inputs
  | _ => 0

@[simp] def countScansAll (table : TableKey) : List (LogicalPlan δ) → ℕ
  | [] => 0
  | input :: inputs => input.countScans table + countScansAll table inputs

end

def Scan.addPredicate (source : Scan) (predicate : BoundExpr) : Scan :=
  if predicate ∈ source.predicates then source
  else { source with predicates := source.predicates ++ [predicate] }

mutual

@[simp] def addScanPredicate (table : TableKey) (predicate : BoundExpr) :
    LogicalPlan δ → LogicalPlan δ
  | .scan source =>
    if source.table = table then .scan (Scan.addPredicate source predicate) else .scan source
  | .join left right kind condition =>
    .join (left.addScanPredicate table predicate)
      (if kind = .inner ∨ kind = .left then right.addScanPredicate table predicate else right)
      kind condition
  | .filter input condition => .filter (input.addScanPredicate table predicate) condition
  | .crossJoin inputs => .crossJoin (addScanPredicateAll table predicate inputs)
  | plan => plan

@[simp] def addScanPredicateAll (table : TableKey) (predicate : BoundExpr) :
    List (LogicalPlan δ) → List (LogicalPlan δ)
  | [] => []
  | input :: inputs => input.addScanPredicate table predicate ::
      addScanPredicateAll table predicate inputs

end

variable (catalog : ColumnKey → ColumnInfo)

def deriveInto (plan : LogicalPlan δ) (derivation : Derivation) : LogicalPlan δ :=
  if ¬ derivation.compatible catalog then plan
  else if plan.countScans derivation.target.key.table ≠ 1 then plan
  else plan.addScanPredicate derivation.target.key.table (derivation.predicate catalog)

def derivations (left right : LogicalPlan δ) (kind : JoinKind) (predicate : BoundExpr) :
    List Derivation :=
  (joinEqualities predicate).flatMap
    (derivationsOf kind left.collectConstants right.collectConstants)

def deriveJoin (left right : LogicalPlan δ) (kind : JoinKind) (condition : Option BoundExpr) :
    LogicalPlan δ :=
  match condition with
  | none => .join left right kind none
  | some predicate =>
    let made := derivations left right kind predicate
    .join ((made.filter (·.intoLeft)).foldl (deriveInto catalog) left)
      ((made.filter (!·.intoLeft)).foldl (deriveInto catalog) right) kind (some predicate)

mutual

@[simp] def propagateJoinConstants : LogicalPlan δ → LogicalPlan δ
  | .empty => .empty
  | .oneRow => .oneRow
  | .scan source => .scan source
  | .derived input columns => .derived input.propagateJoinConstants columns
  | .crossJoin inputs => .crossJoin (propagateJoinConstantsAll inputs)
  | .unionAll inputs => .unionAll (propagateJoinConstantsAll inputs)
  | .setOp keepMatching all left right =>
    .setOp keepMatching all left.propagateJoinConstants right.propagateJoinConstants
  | .recursive database table details anchor member =>
    .recursive database table details anchor.propagateJoinConstants member.propagateJoinConstants
  | .join left right kind condition =>
    deriveJoin catalog left.propagateJoinConstants right.propagateJoinConstants kind condition
  | .filter input predicate => .filter input.propagateJoinConstants predicate
  | .aggregate input groupBy aggregates =>
    .aggregate input.propagateJoinConstants groupBy aggregates
  | .window input windows outputs => .window input.propagateJoinConstants windows outputs
  | .project input expressions => .project input.propagateJoinConstants expressions
  | .distinct input keyCollations => .distinct input.propagateJoinConstants keyCollations
  | .sort input keys trim => .sort input.propagateJoinConstants keys trim
  | .limit input offset count => .limit input.propagateJoinConstants offset count

@[simp] def propagateJoinConstantsAll : List (LogicalPlan δ) → List (LogicalPlan δ)
  | [] => []
  | input :: inputs => input.propagateJoinConstants :: propagateJoinConstantsAll inputs

end

end LogicalPlan

end Pintail.Exec
