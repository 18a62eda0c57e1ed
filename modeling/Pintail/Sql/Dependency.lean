import Pintail.Binder.Query
import Pintail.Support.Saturate

/-! # Columns decided by the grouping keys

The binder accepts an ungrouped column of a grouped query when the grouping keys decide it. Which
they do is a closure: grouping columns, columns an equality of the `WHERE` clause or of an inner
join ties to decided ones, and all columns of a relation whose key is decided, where a key of an
outer join's optional side may also be pinned by the join's own equalities.
-/

namespace Pintail.Sql

open Binder

open Exec (BoundExpr BoundArgs BoundColumn TableKey JoinKind)

variable {δ : Type}

structure GroupedQuery (δ : Type) where
  groupBy : List BoundExpr
  sources : List (BoundFrom δ)
  filter : Option BoundExpr

/-- A column of a relation, by the lowered name of the relation. -/
abbrev DependencyKey := String × ℕ

def toAsciiLowercase (text : String) : String := text.map Char.toLower

def columnKey (column : BoundColumn) : DependencyKey :=
  (toAsciiLowercase column.key.table.relationName, column.key.columnId)

def relationKey (table : BoundTable δ) : String := toAsciiLowercase table.key.relationName

def GroupedQuery.tables (query : GroupedQuery δ) : List (BoundTable δ) :=
  query.sources.flatMap BoundFrom.relations

mutual

/-- The columns of an expression, unless it holds a subquery, a window or an aggregate. -/
def exprColumns : BoundExpr → Option (List BoundColumn)
  | .literal _ _ => some []
  | .column _ reference => some [reference]
  | .preparedIn _ expr _ _ | .unary _ _ expr | .isNull _ expr _ => exprColumns expr
  | .binary _ _ left right => do return (← exprColumns left) ++ (← exprColumns right)
  | .scalar _ _ args => argColumns args
  | .aggregate _ _ | .groupKey _ _ | .window _ _ | .scalarSubquery _ _ | .existsSubquery _ _ _
  | .inSubquery _ _ _ _ => none

def argColumns : BoundArgs → Option (List BoundColumn)
  | .nil => some []
  | .cons head tail => do return (← exprColumns head) ++ (← argColumns tail)

end

def conjuncts : BoundExpr → List BoundExpr
  | .binary _ .and left right => conjuncts left ++ conjuncts right
  | expr => [expr]

def equalities (expr : BoundExpr) : List (BoundExpr × BoundExpr) :=
  (conjuncts expr).filterMap fun
    | .binary _ .equal left right => some (left, right)
    | _ => none

def plainColumn : BoundExpr → Option BoundColumn
  | .column _ reference => if reference.outer then none else some reference
  | _ => none

/-- Whether an expression is fixed once the given columns are; columns of the excluded relation do
not count. -/
def decidedBy (expr : BoundExpr) (columns : Finset DependencyKey) (exclude : Option String) :
    Bool :=
  match exprColumns expr with
  | none => false
  | some referenced => referenced.all fun column =>
    column.outer || (exclude != some (columnKey column).1 && columnKey column ∈ columns)

def orientations (equality : BoundExpr × BoundExpr) : List (BoundExpr × BoundExpr) :=
  [equality, equality.swap]

/-- Whether an equality of an outer join's condition pins a column of the optional side. -/
def keyPinnedBy (column : DependencyKey) (equality : BoundExpr × BoundExpr)
    (columns : Finset DependencyKey) (relation : String) : Bool :=
  (orientations equality).any fun (side, other) =>
    (plainColumn side).any (columnKey · == column) && decidedBy other columns (some relation)

namespace GroupedQuery

variable (query : GroupedQuery δ)

def joins : List (BoundJoin δ) := query.sources.flatMap (·.joins)

def filters : List (BoundExpr × BoundExpr) :=
  query.filter.toList.flatMap equalities ++
    query.joins.flatMap fun join =>
      if join.kind = .inner then join.condition.toList.flatMap equalities else []

/-- The equalities of outer joins, with the relation that may be missing instead. -/
def outerEqualities : List (String × BoundExpr × BoundExpr) :=
  query.joins.flatMap fun join =>
    if join.kind = .left ∨ join.kind = .scalar then
      (join.condition.toList.flatMap equalities).map (relationKey join.table, ·)
    else []

def nullSupplied : List String :=
  (query.joins.filter fun join =>
    (join.kind = .left ∨ join.kind = .scalar) ∧ join.condition.isSome).map (relationKey ·.table)

def innerSide (table : BoundTable δ) : Bool := relationKey table ∈ query.nullSupplied

/-- Whether a key component of a relation is decided, or pinned by the join that supplies it. -/
def componentDetermined (columns : Finset DependencyKey) (table : BoundTable δ) (id : ℕ) : Bool :=
  match table.columns.find? (·.columnId == id) with
  | none => false
  | some column =>
    if (relationKey table, column.columnId) ∈ columns then
      !column.nullable || query.innerSide table
    else
      query.innerSide table && query.outerEqualities.any fun (joined, left, right) =>
        joined == relationKey table &&
          keyPinnedBy (relationKey table, column.columnId) (left, right) columns (relationKey table)

def tableDetermined (columns : Finset DependencyKey) (table : BoundTable δ) : Bool :=
  !table.keyColumnIds.isEmpty &&
    table.keyColumnIds.all (query.componentDetermined columns table)

def applyEquality (columns : Finset DependencyKey) (sides : BoundExpr × BoundExpr) :
    Finset DependencyKey :=
  match plainColumn sides.1 with
  | some column =>
    if decidedBy sides.2 columns none then insert (columnKey column) columns else columns
  | none => columns

def columnKeys (table : BoundTable δ) : Finset DependencyKey :=
  (table.columns.map fun column => (relationKey table, column.columnId)).toFinset

def applyTable (columns : Finset DependencyKey) (table : BoundTable δ) : Finset DependencyKey :=
  if query.tableDetermined columns table then columns ∪ columnKeys table else columns

def step (columns : Finset DependencyKey) : Finset DependencyKey :=
  query.tables.foldl query.applyTable
    ((query.filters.flatMap orientations).foldl applyEquality columns)

def groupColumns : Finset DependencyKey :=
  ((query.groupBy.filterMap plainColumn).map columnKey).toFinset

def candidates : Finset DependencyKey :=
  query.groupColumns ∪
    (((query.filters.flatMap orientations).filterMap (plainColumn ·.1)).map columnKey).toFinset ∪
    (query.tables.flatMap fun table =>
      table.columns.map fun column => (relationKey table, column.columnId)).toFinset

def determinedColumns : Finset DependencyKey :=
  saturate query.step (query.candidates.card + 1) query.groupColumns

def reports (column : BoundColumn) : Bool :=
  !column.outer && columnKey column ∈ query.determinedColumns

end GroupedQuery

end Pintail.Sql
