import Pintail.Exec.Expression

/-! # Logical plans

A logical plan is a tree of relational operators over scans. Its rows are the nested loops' rows
in their order, over the contents of the tables; what an aggregation, a window, a sort, a
deduplication or a fixpoint makes of the rows below it is a parameter.
-/

namespace Pintail.Exec

open Row

structure Scan where
  table : TableKey
  columns : List ℕ
  /-- Whether the bound table is a query rather than stored rows. -/
  hasInput : Bool
  projectedColumnIds : List ℕ
  predicates : List BoundExpr
  limit : Option ℕ
  /-- Whether the limit counts from the end of the key order. -/
  fromEnd : Bool

inductive JoinKind
  | inner | left | scalar | semi | anti | cross
  deriving DecidableEq, Repr

/-- A plan over operators whose details, such as aggregates and sort keys, have type `δ`. -/
inductive LogicalPlan (δ : Type)
  | empty
  | oneRow
  | scan (source : Scan)
  | derived (input : LogicalPlan δ) (columns : List BoundColumn)
  | crossJoin (inputs : List (LogicalPlan δ))
  | unionAll (inputs : List (LogicalPlan δ))
  | setOp (keepMatching all : Bool) (left right : LogicalPlan δ)
  | recursive (workingDatabase workingTable : ℕ) (details : δ) (anchor member : LogicalPlan δ)
  | join (left right : LogicalPlan δ) (kind : JoinKind) (condition : Option BoundExpr)
  | filter (input : LogicalPlan δ) (predicate : BoundExpr)
  | aggregate (input : LogicalPlan δ) (groupBy : List BoundExpr) (aggregates : List δ)
  | window (input : LogicalPlan δ) (windows : List δ) (outputs : List BoundColumn)
  | project (input : LogicalPlan δ) (expressions : List BoundExpr)
  | distinct (input : LogicalPlan δ) (keyCollations : δ)
  | sort (input : LogicalPlan δ) (keys : δ) (trim : ℕ)
  | limit (input : LogicalPlan δ) (offset count : ℕ)

open LogicalPlan

namespace LogicalPlan

variable {δ : Type}

mutual

@[simp] def planTables : LogicalPlan δ → List TableKey
  | .scan source => [source.table]
  | .derived _ columns => columns.map (·.key.table)
  | .crossJoin inputs | .unionAll inputs => planTablesAll inputs
  | .setOp _ _ left right | .join left right _ _ => left.planTables ++ right.planTables
  | .recursive _ _ _ anchor member => anchor.planTables ++ member.planTables
  | .window input _ _ | .filter input _ | .aggregate input _ _ | .project input _
  | .distinct input _ | .sort input _ _ | .limit input _ _ => input.planTables
  | .empty | .oneRow => []

@[simp] def planTablesAll : List (LogicalPlan δ) → List TableKey
  | [] => []
  | input :: inputs => input.planTables ++ planTablesAll inputs

end

mutual

@[simp] def containsTable (table : TableKey) : LogicalPlan δ → Bool
  | .scan source => source.table == table
  | .recursive _ _ _ anchor member =>
    anchor.containsTable table || member.containsTable table
  | .derived input columns =>
    columns.any (·.key.table == table) || input.containsTable table
  | .crossJoin inputs | .unionAll inputs => anyContainsTable table inputs
  | .setOp _ _ left right | .join left right _ _ =>
    left.containsTable table || right.containsTable table
  | .window input _ _ | .filter input _ | .aggregate input _ _ | .project input _
  | .distinct input _ | .sort input _ _ | .limit input _ _ => input.containsTable table
  | .empty | .oneRow => false

@[simp] def anyContainsTable (table : TableKey) : List (LogicalPlan δ) → Bool
  | [] => false
  | input :: inputs => input.containsTable table || anyContainsTable table inputs

end

def projectedLabel (index : ℕ) : BoundExpr → Label
  | .column _ reference => .column reference.key
  | _ => .column ⟨⟨2 ^ 64 - 1, 2 ^ 64 - 3, "<projection>"⟩, index⟩

mutual

@[simp] def layout : LogicalPlan δ → List Label
  | .empty | .oneRow => []
  | .scan source => source.projectedColumnIds.map fun id => .column ⟨source.table, id⟩
  | .derived _ columns => columns.map fun reference => .column reference.key
  | .crossJoin inputs => layoutAll inputs
  | .unionAll [] => []
  | .unionAll (input :: _) => input.layout
  | .setOp _ _ left _ => left.layout
  | .recursive _ _ _ anchor _ => anchor.layout
  | .join left _ .semi _ | .join left _ .anti _ => left.layout
  | .join left right _ _ => left.layout ++ right.layout
  | .filter input _ | .distinct input _ | .limit input _ _ => input.layout
  | .aggregate _ groupBy aggregates =>
    (List.range (groupBy.length + aggregates.length)).map .slot
  | .window input _ outputs =>
    input.layout ++ outputs.map fun reference => .column reference.key
  | .project _ expressions => expressions.zipIdx.map fun (expr, index) => projectedLabel index expr
  | .sort input _ trim => input.layout.take (input.layout.length - trim)

@[simp] def layoutAll : List (LogicalPlan δ) → List Label
  | [] => []
  | input :: inputs => input.layout ++ layoutAll inputs

end

end LogicalPlan

/-- The rows of each table, a row giving the value of each column id. -/
abbrev Database := ℕ → ℕ → List (ℕ → Value)

def Database.withTable (db : Database) (database table : ℕ) (stored : List (ℕ → Value)) :
    Database :=
  fun d t => if d = database ∧ t = table then stored else db d t

/-- What the operators that look at all their input make of it. -/
structure Operators (δ : Type) where
  setOp : Bool → Bool → List (List Value) → List (List Value) → List (List Value)
  recursive : δ → List (List Value) → (List (ℕ → Value) → List (List Value)) → List (List Value)
  aggregate : List BoundExpr → List δ → List Row → List (List Value)
  window : List δ → List Row → List (List Value)
  distinct : δ → List (List Value) → List (List Value)
  sort : δ → List (List Value) → List (List Value)

def Row.values (row : Row) : List Value := row.map (·.2)

def labelled (layout : List Label) (rows : List (List Value)) : List Row :=
  rows.map layout.zip

def nullRow (layout : List Label) : Row := layout.map (·, .null)

def Scan.rowOf (scan : Scan) (ids : List ℕ) (stored : ℕ → Value) : Row :=
  ids.map fun id => (.column ⟨scan.table, id⟩, stored id)

def Scan.cut (scan : Scan) (stored : List (ℕ → Value)) : List (ℕ → Value) :=
  match scan.limit with
  | none => stored
  | some count => if scan.fromEnd then stored.drop (stored.length - count) else stored.take count

section

variable (ev : Evaluation)

def Scan.rows (scan : Scan) (db : Database) : List Row :=
  (scan.cut ((db scan.table.databaseId scan.table.tableId).filter fun stored =>
    scan.predicates.all fun predicate => ev.keeps predicate (scan.rowOf scan.columns stored))).map
      (scan.rowOf scan.projectedColumnIds)

def holds (condition : Option BoundExpr) (row : Row) : Bool :=
  condition.all fun expr => ev.keeps expr row

/-- The output of a join for one left row. A scalar join whose left row has two matches fails;
where it does not fail it is a left join. -/
def joinOne (kind : JoinKind) (condition : Option BoundExpr) (right : List Row)
    (absent left : Row) : List Row :=
  let found := right.filter fun row => holds ev condition (left ++ row)
  match kind with
  | .inner | .cross => found.map (left ++ ·)
  | .left | .scalar => if found.isEmpty then [left ++ absent] else found.map (left ++ ·)
  | .semi => if found.isEmpty then [] else [left]
  | .anti => if found.isEmpty then [left] else []

def joinRows (kind : JoinKind) (condition : Option BoundExpr) (absent : Row)
    (left right : List Row) : List Row :=
  left.flatMap (joinOne ev kind condition right absent)

def productRows : List (List Row) → List Row
  | [] => [[]]
  | rows :: rest => rows.flatMap fun left => (productRows rest).map (left ++ ·)

variable {δ : Type} (ops : Operators δ)

mutual

@[simp] def LogicalPlan.rows (db : Database) : LogicalPlan δ → List Row
  | .empty => []
  | .oneRow => [[]]
  | .scan source => source.rows ev db
  | .derived input columns =>
    labelled (columns.map fun reference => .column reference.key)
      ((rows db input).map values)
  | .crossJoin inputs => productRows (rowsAll db inputs)
  | .unionAll inputs =>
    labelled (unionAll inputs).layout
      ((rowsAll db inputs).flatten.map values)
  | .setOp keepMatching all left right =>
    labelled left.layout (ops.setOp keepMatching all
      ((rows db left).map values) ((rows db right).map values))
  | .recursive database table details anchor member =>
    labelled anchor.layout (ops.recursive details ((rows db anchor).map values)
      fun delta => (rows (db.withTable database table delta) member).map values)
  | .join left right kind condition =>
    joinRows ev kind condition (nullRow right.layout)
      (rows db left) (rows db right)
  | .filter input predicate => (rows db input).filter (ev.keeps predicate)
  | .aggregate input groupBy aggregates =>
    labelled (aggregate input groupBy aggregates).layout
      (ops.aggregate groupBy aggregates (rows db input))
  | .window input windows outputs =>
    labelled (window input windows outputs).layout
      (ops.window windows (rows db input))
  | .project input expressions =>
    labelled (project input expressions).layout
      ((rows db input).map fun row => expressions.map (ev.eval row))
  | .distinct input keyCollations =>
    labelled input.layout
      (ops.distinct keyCollations ((rows db input).map values))
  | .sort input keys trim =>
    labelled (sort input keys trim).layout
      (ops.sort keys ((rows db input).map values))
  | .limit input offset count => ((rows db input).drop offset).take count

@[simp] def LogicalPlan.rowsAll (db : Database) : List (LogicalPlan δ) → List (List Row)
  | [] => []
  | input :: inputs => rows db input :: rowsAll db inputs

end

end

end Pintail.Exec
