import Pintail.Binder.Query

/-! # Aggregation below an inner join

When every aggregate of a grouped query over inner joins reads one relation, that relation is
folded first, by the columns the rest of the query reads from it, and the join meets one row for
each of its groups. Counts and sums are then added up and extremes stay extremes.
-/

namespace Pintail.Binder

open Exec

variable {δ : Type}

/-- A relation smaller than this gains too little to pay for its own fold. -/
def minimumRows : ℕ := 50000

def foldable (aggregate : BoundAggregate) : Bool :=
  let input := aggregate.expr.bind BoundExpr.dataType
  let summed : Option DataType → Bool
    | some .int64 | some .uint64 | some (.decimal _ _) => true
    | _ => false
  !(aggregate.distinct || !aggregate.orderWithin.isEmpty || aggregate.separator.isSome) &&
    match aggregate.function with
    | .count => true
    | .sum => summed (input.map DataType.storageType) && summed aggregate.dataType
    | .minimum | .maximum => byValue input
    | _ => false

/-- Decimal digits of an integer type as the argument of a sum. -/
def summedIntegerDigits : DataType → Option UInt8
  | .boolean => some 1
  | .int8 | .uint8 => some 3
  | .int16 | .uint16 => some 5
  | .int32 | .uint32 => some 10
  | .int64 => some 19
  | .uint64 => some 20
  | .year => some 4
  | _ => none

/-- The types the binder gives to counts, to sums of integers and to extremes. -/
structure Typed (aggregate : BoundAggregate) : Prop where
  count : aggregate.function = .count → aggregate.dataType = some .uint64
  sum : aggregate.function = .sum → ∀ digits,
    (aggregate.expr.bind BoundExpr.dataType).bind summedIntegerDigits = some digits →
      aggregate.dataType = some (.decimal (min (digits + 22) 65) 0)
  extreme : aggregate.function = .minimum ∨ aggregate.function = .maximum →
    aggregate.dataType = aggregate.expr.bind BoundExpr.dataType

def readColumn (relations : List (BoundTable δ)) (read : Option (BoundTable δ))
    (column : BoundColumn) : Option (Option (BoundTable δ)) := do
  let owner ← relations.find? (·.owns column)
  guard (!read.any fun table => !table.sameRelation owner)
  return some owner

def readAggregate (relations : List (BoundTable δ)) (read : Option (BoundTable δ))
    (aggregate : BoundAggregate) : Option (Option (BoundTable δ)) := do
  guard (foldable aggregate)
  match aggregate.expr with
  | none => return read
  | some expr => (← columnsOf expr).foldlM (readColumn relations) read

namespace BoundQuery

/-- The relation whose rows every aggregate reads, when the query's shape admits folding it
first. -/
def target (query : BoundQuery δ) : Option (BoundTable δ) := do
  guard (!query.groupBy.isEmpty && !query.aggregates.isEmpty && !query.composed)
  let [source] := query.sources | none
  guard (!source.joins.isEmpty &&
    !source.joins.any fun join => join.kind ≠ .inner || join.scalarAggregate)
  let target ← ← query.aggregates.foldlM (readAggregate source.relations) none
  let rows ← target.rowCount.or target.estimatedRows
  guard (target.input.isNone && minimumRows ≤ rows &&
    !source.relations.any fun table => !table.sameRelation target && rows < table.tableRows)
  return target

end BoundQuery

/-- The conjuncts that stay above the fold and those that move into it; one that also reads another
relation would need its rows. -/
def splitFilter (target : BoundTable δ) : List BoundExpr → Option (List BoundExpr × List BoundExpr)
  | [] => some ([], [])
  | part :: rest => do
    let columns ← columnsOf part
    let (kept, pushed) ← splitFilter target rest
    let folded := columns.countP target.owns
    if folded = 0 then return (part :: kept, pushed)
    else if folded = columns.length then return (kept, part :: pushed)
    else none

def addGrouped (target : BoundTable δ) (grouped : List BoundColumn) (expr : BoundExpr) :
    Option (List BoundColumn) := do
  return ((← columnsOf expr).filter target.owns).foldl (fun grouped column =>
    if grouped.any (·.key.columnId == column.key.columnId) then grouped else grouped ++ [column])
    grouped

def refold (aggregate : BoundAggregate) (column : BoundColumn) : BoundAggregate :=
  { aggregate with
    function := if aggregate.function = .count then .sum else aggregate.function
    expr := some (aggregateColumn aggregate column) }

def BoundJoin.rebind (target : BoundTable δ) (grouped : List BoundColumn) (derived : BoundTable δ)
    (join : BoundJoin δ) : BoundJoin δ :=
  { join with condition := join.condition.map (Binder.rebind target grouped derived) }

def BoundFrom.replace (target derived : BoundTable δ) (source : BoundFrom δ) : BoundFrom δ :=
  if source.base.sameRelation target then { source with base := derived }
  else
    { source with
      joins := source.joins.zipIdx.map fun (join, index) =>
        if source.joins.findIdx? (·.table.sameRelation target) = some index then
          { join with table := derived }
        else join }

namespace BoundQuery

variable (catalog : ColumnKey → DataType × Bool) (embed : BoundAggregate → δ) (tableId : ℕ)

def foldTarget (query : BoundQuery δ) (target : BoundTable δ) : Option (BoundQuery δ) := do
  guard (query.projection.all readsOnlySlots && query.having.all readsOnlySlots)
  let [source] := query.sources | none
  let (kept, pushed) ← splitFilter target (query.filter.toList.flatMap BoundExpr.andParts)
  let outside := kept ++ query.groupBy ++ source.joins.filterMap (·.condition)
  let grouped ← outside.foldlM (addGrouped target) []
  guard (!grouped.isEmpty && grouped.all fun column => byValue (some (catalog column.key).1))
  -- grouped by its whole key, a relation would not get smaller
  guard (target.keyColumnIds.isEmpty || !target.keyColumnIds.all fun id =>
    grouped.any (·.key.columnId == id))
  let fold := foldQuery catalog target (reduce andExpr pushed) grouped query.aggregates
  let derived : BoundTable δ :=
    { bindDerivedTable embed tableId target.key.relationName fold with
      estimatedRows := target.rowCount.or target.estimatedRows }
  let rebound := rebind target grouped derived
  return { query with
    aggregates := query.aggregates.zipIdx.map fun (aggregate, index) =>
      refold aggregate (derived.column (grouped.length + index))
    groupBy := query.groupBy.map rebound
    filter := reduce andExpr (kept.map rebound)
    sources := [BoundFrom.replace target derived
      { source with joins := source.joins.map (BoundJoin.rebind target grouped derived) }]
    tables := query.tables.map fun table => if table.sameRelation target then derived else table }

/-- Folds the aggregated relation below the joins, when the shape allows it and the relation is
large enough to repay the fold. -/
def preAggregate (query : BoundQuery δ) : BoundQuery δ :=
  (query.target.bind (query.foldTarget catalog embed tableId)).getD query

end BoundQuery

end Pintail.Binder
