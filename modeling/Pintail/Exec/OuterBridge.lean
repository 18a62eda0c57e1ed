import Pintail.Exec.Aggregates

/-! # Nesting the bridge of a chain of outer joins

A relation that a chain of `LEFT` joins passes through only to reach another one is joined to it
first, and the result is joined to the preserved side. Only aggregates that a repeated row and a
`NULL` do not change may read the chain then.
-/

namespace Pintail.Exec

open BoundExpr

/-- The number of `IF`, which `CASE` is bound to. -/
@[match_pattern] def ifFunction : ScalarFunction := .other 0

/-- Whether a function answers differently on two evaluations: the numbers are those of `RAND`,
`UUID`, `UUID_SHORT`, and of reads and assignments of user variables. -/
def ScalarFunction.isVolatile : ScalarFunction → Bool
  | .other id => 1 ≤ id && id ≤ 5
  | _ => false

mutual

@[simp] def BoundExpr.isVolatile : BoundExpr → Bool
  | .scalar _ function args => function.isVolatile || args.isVolatile
  | .preparedIn _ expr _ _ | .unary _ _ expr | .isNull _ expr _ => expr.isVolatile
  | .binary _ _ left right => left.isVolatile || right.isVolatile
  | .column _ _ | .literal _ _ => false
  | .groupKey _ _ | .aggregate _ _ | .window _ _ | .scalarSubquery _ _ | .existsSubquery _ _ _
  | .inSubquery _ _ _ _ => true

@[simp] def BoundArgs.isVolatile : BoundArgs → Bool
  | .nil => false
  | .cons head tail => head.isVolatile || tail.isVolatile

end

/-- Whether an expression is `NULL` whenever every given relation is. -/
def BoundExpr.nullWhen (tables : List TableKey) : BoundExpr → Bool
  | .literal _ value => value = .null
  | .column _ reference => !reference.outer && reference.key.table ∈ tables
  | .unary _ _ expr => expr.nullWhen tables
  | .binary _ op left right =>
    if op = .and ∨ op = .or then left.nullWhen tables && right.nullWhen tables
    else left.nullWhen tables || right.nullWhen tables
  | .scalar _ ifFunction (.cons _ (.cons value (.cons otherwise .nil))) =>
    value.nullWhen tables && otherwise.nullWhen tables
  | .scalar _ (.cast _) (.cons first _) => first.nullWhen tables
  | _ => false

def DataType.singleSpelling : DataType → Bool
  | .int8 | .int16 | .int32 | .int64 | .uint8 | .uint16 | .uint32 | .uint64 | .decimal _ _
  | .date32 | .dateTime64 _ => true
  | _ => false

/-- Whether a repeated row or one with a `NULL` leaves an aggregate as it is. -/
def BoundAggregate.ignoresRepeats (aggregate : BoundAggregate) : Bool :=
  aggregate.orderWithin.isEmpty && aggregate.separator.isNone && aggregate.expr.isSome &&
    match aggregate.function with
    | .count => aggregate.distinct
    | .minimum | .maximum =>
      (aggregate.expr.bind BoundExpr.dataType).any DataType.singleSpelling
    | _ => false

structure SpineJoin (δ : Type) where
  kind : JoinKind
  right : LogicalPlan δ
  condition : Option BoundExpr

def SpineJoin.tables {δ : Type} (link : SpineJoin δ) : List TableKey := link.right.planTables

namespace LogicalPlan

variable {δ : Type}

@[simp] def joinSpine : LogicalPlan δ → LogicalPlan δ × List (SpineJoin δ)
  | .join left right kind condition =>
    (left.joinSpine.1, left.joinSpine.2 ++ [⟨kind, right, condition⟩])
  | plan => (plan, [])

def joinAll (base : LogicalPlan δ) (joins : List (SpineJoin δ)) : LogicalPlan δ :=
  joins.foldl (fun left link => .join left link.right link.kind link.condition) base

def scanned : LogicalPlan δ → Option Scan
  | .project input _ | .filter input _ => input.scanned
  | .scan source => some source
  | _ => none

/-- Whether a conjunct equates a column of a relation with one of the relations reached. -/
def equatesKey (table : TableKey) (reached : List TableKey) (key : ℕ) : BoundExpr → Bool
  | .binary _ .equal (.column _ left) (.column _ right) =>
    [(left, right), (right, left)].any fun (own, other) =>
      !own.outer && !other.outer && own.key == ⟨table, key⟩ && other.key.table ∈ reached
  | _ => false

variable (keyColumnIds : TableKey → List ℕ)

/-- Whether the conjuncts equate every key column of the relation a plan scans with a column of the
relations reached. -/
def keyedFrom (plan : LogicalPlan δ) (conjuncts : List BoundExpr) (reached : List TableKey) :
    Bool :=
  plan.scanned.any fun source =>
    !(keyColumnIds source.table).isEmpty &&
      (keyColumnIds source.table).all fun key =>
        conjuncts.any (equatesKey source.table reached key)

/-- The relations that are `NULL` in a chain's rows when the given ones are. -/
def nulledBy (nulled : List TableKey) (joins : List (SpineJoin δ)) : List TableKey :=
  joins.foldl (fun nulled link =>
    if link.condition.any fun condition => condition.conjunctsOf.any fun conjunct =>
        conjunct.nullRejectedTables.any (· ∈ nulled)
    then nulled ++ link.tables else nulled) nulled

/-- Extends a bridge downwards from a target, over joins that are passed through only: the lowest
place reached, and the relations from there to the target. -/
def reachBridge (joins : List (SpineJoin δ)) (target : ℕ) (readOutside : List TableKey) :
    ℕ → List TableKey → ℕ × List TableKey
  | 0, reached => (0, reached)
  | index + 1, reached =>
    match joins[index]? with
    | none => (index + 1, reached)
    | some link =>
      if link.kind ≠ .left || link.tables.any (· ∈ readOutside) ||
          !((joins.take (target + 1)).drop (index + 1)).any fun later =>
            later.condition.any fun condition =>
              link.right.keyedFrom keyColumnIds condition.conjunctsOf reached
      then (index + 1, reached)
      else reachBridge joins target readOutside index (reached ++ link.tables)

/-- Whether every join has a condition of its own on the relations joined before it. -/
def linkedInside (inside : List TableKey) : List (SpineJoin δ) → Bool
  | [] => true
  | link :: rest =>
    let inside := inside ++ link.tables
    link.condition.any (fun condition => condition.conjunctsOf.any fun conjunct =>
      conjunct.referencedTables.all (· ∈ inside) &&
        conjunct.referencedTables.any (· ∈ link.tables)) &&
      linkedInside inside rest

/-- The bridge to a target, when it can be nested. -/
def bridgeTo (joins : List (SpineJoin δ)) (grouped : List TableKey)
    (aggregates : List BoundAggregate) (target : ℕ) : Option (ℕ × ℕ) := do
  let targetJoin ← joins[target]?
  let later := joins.drop (target + 1)
  let nulled := nulledBy targetJoin.tables later
  guard (aggregates.all fun aggregate => aggregate.expr.any (nullWhen nulled))
  let readOutside := grouped ++
    aggregates.flatMap (fun aggregate => aggregate.expr.toList.flatMap referencedTables)
    ++ later.flatMap fun link => link.condition.toList.flatMap referencedTables
  let (bridge, reached) :=
    reachBridge keyColumnIds joins target readOutside target targetJoin.tables
  let nest := (joins.take (target + 1)).drop bridge
  guard (bridge ≠ target)
  -- a grouping key read from the nest or after it would group rows the nest no longer builds
  guard (!(joins.drop bridge).any fun link => link.tables.any (· ∈ grouped))
  guard (!nest.any fun link => link.condition.all fun condition =>
    condition.containsSubquery || condition.isVolatile)
  guard (linkedInside ((nest.head?.map SpineJoin.tables).getD []) nest.tail)
  -- a target keyed on the bridge alone would only move the fan-out inside
  guard (targetJoin.condition.any fun condition => condition.conjunctsOf.any fun conjunct =>
    conjunct.referencedTables.any (· ∈ targetJoin.tables) &&
      !conjunct.referencedTables.all (· ∈ reached))
  return (bridge, target)

/-- The first bridging join and the target join's positions in the chain, when the aggregates above
it admit nesting the bridge. -/
def outerJoinBridge (input : LogicalPlan δ) (groupBy : List BoundExpr)
    (aggregates : List BoundAggregate) : Option (ℕ × ℕ) :=
  if aggregates.isEmpty || !aggregates.all BoundAggregate.ignoresRepeats then none
  else
    let joins := input.joinSpine.2
    let targets := (List.range' 1 (joins.length - 1)).reverse.takeWhile fun target =>
      (joins.drop target).all (·.kind = .left)
    targets.findSome?
      (bridgeTo keyColumnIds joins (groupBy.flatMap referencedTables) aggregates)

/-- The joins gathered into a nest, and the conjuncts that stay outside it. -/
structure Nest (δ : Type) where
  reached : List TableKey
  outer : List BoundExpr
  nested : Option (LogicalPlan δ)

/-- Joins one more relation to a nest, on the conjuncts that read the nest alone. -/
def Nest.add (nest : Nest δ) (link : SpineJoin δ) : Nest δ :=
  let reached := nest.reached ++ link.tables
  let conjuncts := (link.condition.map splitConjunction).getD []
  let inside (conjunct : BoundExpr) : Bool := conjunct.referencedTables.all (· ∈ reached)
  let inner := reduce andExpr (conjuncts.filter inside)
  { reached
    outer := nest.outer ++ conjuncts.filter fun conjunct => !inside conjunct
    nested := some <|
      match nest.nested with
      | none =>
        match inner with
        | none => link.right
        | some predicate => .filter link.right predicate
      | some left => .join left link.right .inner inner }

def nestBridge (plan : LogicalPlan δ) (bridge target : ℕ) : LogicalPlan δ :=
  let joins := plan.joinSpine.2
  let preserved := plan.joinSpine.1.joinAll (joins.take bridge)
  let nest := ((joins.take (target + 1)).drop bridge).foldl Nest.add ⟨[], [], none⟩
  match nest.nested with
  -- the bridge holds at least two joins
  | none => plan
  | some nested =>
    (LogicalPlan.join preserved nested .left (reduce andExpr nest.outer)).joinAll
      (joins.drop (target + 1))

end LogicalPlan

end Pintail.Exec
