import Pintail.Exec.OuterBridge

/-! # Bound grouped queries

A bound query joins the relations of one source in order, filters the rows, groups and aggregates
them, filters the groups and projects them. Rewrites that fold a relation before the joins put a
derived table in its place: they look for the columns an expression reads and rebind those of the
folded relation. The rows here are those before duplicates are removed and the result is ordered
and cut.
-/

namespace Pintail.Binder

open Exec

variable {δ : Type}

structure TableColumn where
  columnId : ℕ
  nullable : Bool

/-- A relation of a query: a stored table, or a query planned on its own. -/
structure BoundTable (δ : Type) where
  key : TableKey
  columns : List TableColumn
  keyColumnIds : List ℕ
  rowCount : Option ℕ
  estimatedRows : Option ℕ
  input : Option (LogicalPlan δ)

namespace BoundTable

def columnIds (table : BoundTable δ) : List ℕ := table.columns.map (·.columnId)

def column (table : BoundTable δ) (index : ℕ) : BoundColumn :=
  ⟨⟨table.key, table.columnIds.getD index 0⟩, false⟩

def tableRows (table : BoundTable δ) : ℕ := (table.rowCount.or table.estimatedRows).getD 0

def owns (table : BoundTable δ) (column : BoundColumn) : Bool :=
  !column.outer && column.key.table == table.key

def sameRelation (left right : BoundTable δ) : Bool := left.key == right.key

def relationPlan (table : BoundTable δ) : LogicalPlan δ :=
  match table.input with
  | some input => .derived input (table.columnIds.map fun id => ⟨⟨table.key, id⟩, false⟩)
  | none => .scan ⟨table.key, table.columnIds, false, table.columnIds, [], none, false⟩

end BoundTable

structure BoundJoin (δ : Type) where
  /-- Whether the join was lowered from a scalar aggregate subquery. -/
  scalarAggregate : Bool
  kind : JoinKind
  table : BoundTable δ
  condition : Option BoundExpr

structure BoundFrom (δ : Type) where
  base : BoundTable δ
  joins : List (BoundJoin δ)

structure BoundQuery (δ : Type) where
  sources : List (BoundFrom δ)
  tables : List (BoundTable δ)
  projection : List BoundExpr
  filter : Option BoundExpr
  groupBy : List BoundExpr
  aggregates : List BoundAggregate
  having : Option BoundExpr
  /-- Whether the query has windows, `DISTINCT`, a recursion or set operations. -/
  composed : Bool

namespace BoundFrom

def relations (source : BoundFrom δ) : List (BoundTable δ) :=
  source.base :: source.joins.map (·.table)

def sourcePlan (source : BoundFrom δ) : LogicalPlan δ :=
  source.joins.foldl (fun left join => .join left join.table.relationPlan join.kind join.condition)
    source.base.relationPlan

end BoundFrom

namespace BoundQuery

def sourcePlan (query : BoundQuery δ) : LogicalPlan δ :=
  match query.sources with
  | [] => .oneRow
  | [source] => source.sourcePlan
  | sources => .crossJoin (sources.map BoundFrom.sourcePlan)

/-- The plan of a query; `embed` puts an aggregate among the operators' details. -/
def plan (embed : BoundAggregate → δ) (query : BoundQuery δ) : LogicalPlan δ :=
  let source := query.sourcePlan
  let filtered := query.filter.elim source (.filter source)
  let grouped :=
    if query.groupBy.isEmpty && query.aggregates.isEmpty then filtered
    else .aggregate filtered query.groupBy (query.aggregates.map embed)
  let kept := query.having.elim grouped (.filter grouped)
  .project kept query.projection

end BoundQuery

/-- The types whose equal values are the same value. -/
def byValue : Option DataType → Bool
  | some .boolean | some .int8 | some .int16 | some .int32 | some .int64 | some .uint8
  | some .uint16 | some .uint32 | some .uint64 | some (.decimal _ _) | some .date32
  | some (.dateTime64 _) => true
  | _ => false

mutual

/-- The columns an expression reads, unless it holds a subquery or a prepared set. -/
def columnsOf : BoundExpr → Option (List BoundColumn)
  | .column _ reference => some [reference]
  | .literal _ _ => some []
  | .unary _ _ expr | .isNull _ expr _ => columnsOf expr
  | .binary _ _ left right => do return (← columnsOf left) ++ (← columnsOf right)
  | .scalar _ _ args => columnsOfArgs args
  | .preparedIn _ _ _ _ | .groupKey _ _ | .aggregate _ _ | .window _ _ | .scalarSubquery _ _
  | .existsSubquery _ _ _ | .inSubquery _ _ _ _ => none

def columnsOfArgs : BoundArgs → Option (List BoundColumn)
  | .nil => some []
  | .cons head tail => do return (← columnsOf head) ++ (← columnsOfArgs tail)

end

mutual

/-- Whether an expression reads nothing but grouping slots, aggregate slots and constants. -/
def readsOnlySlots : BoundExpr → Bool
  | .groupKey _ _ | .aggregate _ _ | .literal _ _ => true
  | .unary _ _ expr | .isNull _ expr _ => readsOnlySlots expr
  | .binary _ _ left right => readsOnlySlots left && readsOnlySlots right
  | .scalar _ _ args => argsReadOnlySlots args
  | .column _ _ | .preparedIn _ _ _ _ | .window _ _ | .scalarSubquery _ _
  | .existsSubquery _ _ _ | .inSubquery _ _ _ _ => false

def argsReadOnlySlots : BoundArgs → Bool
  | .nil => true
  | .cons head tail => readsOnlySlots head && argsReadOnlySlots tail

end

mutual

@[simp] def mapColumns (f : BoundColumn → BoundColumn) : BoundExpr → BoundExpr
  | .column type reference => .column type (f reference)
  | .unary type op expr => .unary type op (mapColumns f expr)
  | .isNull type expr negated => .isNull type (mapColumns f expr) negated
  | .binary type op left right => .binary type op (mapColumns f left) (mapColumns f right)
  | .scalar type function args => .scalar type function (mapColumnsArgs f args)
  | expr => expr

@[simp] def mapColumnsArgs (f : BoundColumn → BoundColumn) : BoundArgs → BoundArgs
  | .nil => .nil
  | .cons head tail => .cons (mapColumns f head) (mapColumnsArgs f tail)

end

/-- The column of a derived table that stands for a column of the relation it folds. -/
def reboundColumn (target : BoundTable δ) (grouped : List BoundColumn) (derived : BoundTable δ)
    (column : BoundColumn) : BoundColumn :=
  if target.owns column then
    match grouped.findIdx? (·.key.columnId == column.key.columnId) with
    | some index => derived.column index
    | none => column
  else column

def rebind (target : BoundTable δ) (grouped : List BoundColumn) (derived : BoundTable δ) :
    BoundExpr → BoundExpr :=
  mapColumns (reboundColumn target grouped derived)

def foldQuery (catalog : ColumnKey → DataType × Bool) (target : BoundTable δ)
    (filter : Option BoundExpr) (grouped : List BoundColumn) (aggregates : List BoundAggregate) :
    BoundQuery δ where
  sources := [⟨target, []⟩]
  tables := [target]
  projection :=
    (grouped.zipIdx.map fun (column, index) =>
      .groupKey ⟨some (catalog column.key).1, (catalog column.key).2⟩ index) ++
    aggregates.zipIdx.map fun (aggregate, index) =>
      .aggregate ⟨aggregate.dataType, aggregate.nullable⟩ (grouped.length + index)
  filter
  groupBy := grouped.map fun column =>
    .column ⟨some (catalog column.key).1, (catalog column.key).2⟩ column
  aggregates
  having := none
  composed := false

def bindDerivedTable (embed : BoundAggregate → δ) (tableId : ℕ) (relationName : String)
    (input : BoundQuery δ) : BoundTable δ where
  key := ⟨2 ^ 64 - 1, tableId, relationName⟩
  columns := input.projection.zipIdx.map fun (expr, index) => ⟨index + 1, expr.nullable⟩
  keyColumnIds := []
  rowCount := none
  estimatedRows := none
  input := some (input.plan embed)

def aggregateColumn (aggregate : BoundAggregate) (column : BoundColumn) : BoundExpr :=
  .column ⟨some (aggregate.dataType.getD .utf8), aggregate.nullable⟩ column

end Pintail.Binder
