import Mathlib.Algebra.BigOperators.Group.List.Basic
import Pintail.Exec.Plan
import Pintail.Support.Grouped

/-! # Aggregates and groups

An aggregation gives each group, in the order in which the groups first occur, its keys and the
values of its aggregates. Which key lists make one group, which values count as one, how values are
ordered and how exact numbers are read and written are parameters.
-/

namespace Pintail.Exec

inductive AggregateFunction
  | count | sum | average | minimum | maximum
  | groupConcat | jsonArrayAgg | jsonObjectAgg | anyValue
  | stdDev (sample : Bool) | variance (sample : Bool)
  | bitAnd | bitOr | bitXor
  deriving DecidableEq, Repr

structure BoundAggregate where
  function : AggregateFunction
  expr : Option BoundExpr
  distinct : Bool
  dataType : Option DataType
  nullable : Bool
  separator : Option String
  orderWithin : List (BoundExpr × Bool)

/-- How the values of groups are told apart, ordered, counted and added, over numbers of type `ν`,
and what the aggregates not spelled out here compute. -/
structure Aggregation (κ ν : Type) where
  /-- What makes the values of grouping expressions one group. -/
  groupKey : List BoundExpr → List Value → κ
  /-- What makes values one value of a distinct aggregate. -/
  distinctKey : Value → κ
  /-- The order of an extreme of the given type. -/
  less : Option DataType → Value → Value → Bool
  number : Value → ν
  total : Option DataType → ν → Value
  count : ℕ → Value
  mean : Option DataType → ν → ℕ → Value
  bits : Value → UInt64
  other : BoundAggregate → List Value → Value

namespace Aggregation

variable {κ ν : Type} [DecidableEq κ] [AddCommMonoid ν] (agg : Aggregation κ ν)

def extreme (before : Value → Value → Bool) : List Value → Value
  | [] => .null
  | first :: rest => rest.foldl (fun best value => if before value best then value else best) first

def summary (aggregate : BoundAggregate) (values : List Value) : Value :=
  let present := values.filter (· ≠ .null)
  let counted := if aggregate.distinct then Grouped.firsts agg.distinctKey present else present
  let sum := (counted.map agg.number).sum
  match aggregate.function with
  | .count => agg.count counted.length
  | .sum => if counted.isEmpty then .null else agg.total aggregate.dataType sum
  | .average =>
    if counted.isEmpty then .null else agg.mean aggregate.dataType sum counted.length
  | .minimum => extreme (agg.less aggregate.dataType) counted
  | .maximum => extreme (fun value best => agg.less aggregate.dataType best value) counted
  | .anyValue => counted.headD .null
  | .bitAnd => .uint64 ((counted.map agg.bits).foldl (· &&& ·) (-1))
  | .bitOr => .uint64 ((counted.map agg.bits).foldl (· ||| ·) 0)
  | .groupConcat | .jsonArrayAgg | .jsonObjectAgg => agg.other aggregate values
  | .stdDev _ | .variance _ | .bitXor => agg.other aggregate counted

variable (ev : Evaluation)

def valuesOf (aggregate : BoundAggregate) (rows : List Row) : List Value :=
  match aggregate.expr with
  | none => rows.map fun _ => .boolean true
  | some expr => rows.map fun row => ev.eval row expr

def keysOf (groupBy : List BoundExpr) (row : Row) : List Value := groupBy.map (ev.eval row)

def summaries (aggregates : List BoundAggregate) (rows : List Row) : List Value :=
  aggregates.map fun aggregate => agg.summary aggregate (valuesOf ev aggregate rows)

/-- The output of an aggregation. One without keys has a single group, which may be empty. -/
def aggregateRows (groupBy : List BoundExpr) (aggregates : List BoundAggregate)
    (rows : List Row) : List (List Value) :=
  if groupBy.isEmpty then [agg.summaries ev aggregates rows]
  else (Grouped.groupsOf (fun row => agg.groupKey groupBy (keysOf ev groupBy row)) rows).map
    fun (first, members) => keysOf ev groupBy first ++ agg.summaries ev aggregates members

end Aggregation

def BoundExpr.dataType : BoundExpr → Option DataType
  | .preparedIn type _ _ _ | .column type _ | .groupKey type _ | .aggregate type _
  | .window type _ | .literal type _ | .scalarSubquery type _ | .existsSubquery type _ _
  | .inSubquery type _ _ _ | .unary type _ _ | .binary type _ _ _ | .isNull type _ _
  | .scalar type _ _ => type.dataType

end Pintail.Exec
