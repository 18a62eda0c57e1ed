import Pintail.Exec.Plan
import Pintail.Exec.Predicates

/-! # Pushing predicates down

Predicates sink into the scans of the relations they read, and a left join whose missing rows a
predicate above it rejects becomes an inner join. On the plans the planner builds, the rewritten
plan has the rows of the given one.
-/

namespace Pintail.Exec

namespace LogicalPlan

variable {δ : Type}

def impliedBy (condition : Option BoundExpr) : List (List TableKey) :=
  condition.toList.flatMap fun expr => expr.conjunctsOf.map BoundExpr.nullRejectedTables

/-- What rejections do at a join: the kind it ends with and the rejections each input is given. -/
structure Sweep where
  kind : JoinKind
  left : List (List TableKey)
  right : List (List TableKey)

def sweep (exposed : List TableKey) (implied : List (List TableKey)) :
    JoinKind → List (List TableKey) → Sweep
  | kind, [] => ⟨kind, [], []⟩
  | kind, rejected :: rest =>
    if kind = .left ∧ ∃ table ∈ exposed, table ∈ rejected then
      -- the condition of the inner join rejects `NULL` rows in turn
      let next := sweep exposed implied .inner rest
      ⟨next.kind, implied ++ rejected :: next.left, implied ++ rejected :: next.right⟩
    else
      let next := sweep exposed implied kind rest
      ⟨next.kind, rejected :: next.left,
        if kind = .inner ∨ kind = .cross then rejected :: next.right else next.right⟩

mutual

/-- `reject_null_extension` for one set of relations after the other. -/
@[simp] def rejectAll : LogicalPlan δ → List (List TableKey) → LogicalPlan δ
  | .join left right kind condition, rejections =>
    let swept := sweep right.planTables (impliedBy condition) kind rejections
    .join (left.rejectAll swept.left) (right.rejectAll swept.right) swept.kind condition
  | .crossJoin inputs, rejections => .crossJoin (rejectInputs inputs rejections)
  | .filter input predicate, rejections => .filter (input.rejectAll rejections) predicate
  | plan, _ => plan

@[simp] def rejectInputs : List (LogicalPlan δ) → List (List TableKey) → List (LogicalPlan δ)
  | [], _ => []
  | input :: inputs, rejections => input.rejectAll rejections :: rejectInputs inputs rejections

end

mutual

@[simp] def pushAt (table : TableKey) (predicate : BoundExpr) : LogicalPlan δ → Option (LogicalPlan δ)
  | .scan source =>
    -- a recursion's working table replays rows that never see a scan's predicates
    if source.table = table ∧ ¬ (source.table.databaseId = 2 ^ 64 - 1 ∧ source.hasInput = false)
    then some (.scan { source with predicates := source.predicates ++ [predicate] })
    else none
  | .crossJoin inputs =>
    if (inputs.filter (containsTable table)).length = 1 then
      (pushIntoFirst table predicate inputs).map .crossJoin
    else none
  | .join left right kind condition =>
    match left.containsTable table, right.containsTable table with
    | true, false => (left.pushAt table predicate).map (.join · right kind condition)
    | false, true =>
      if kind = .inner ∨ kind = .cross then
        (right.pushAt table predicate).map (.join left · kind condition)
      else none
    | _, _ => none
  | _ => none

@[simp] def pushIntoFirst (table : TableKey) (predicate : BoundExpr) :
    List (LogicalPlan δ) → Option (List (LogicalPlan δ))
  | [] => none
  | input :: inputs =>
    if input.containsTable table then (input.pushAt table predicate).map (· :: inputs)
    else (pushIntoFirst table predicate inputs).map (input :: ·)

end

def pushConjunct (plan : LogicalPlan δ) (predicate : BoundExpr) : Option (LogicalPlan δ) :=
  if predicate.containsSubquery then none
  else
    match predicate.referencedTables with
    | [table] => plan.pushAt table predicate
    | _ => none

def pushConjuncts (input : LogicalPlan δ) : List BoundExpr → LogicalPlan δ × List BoundExpr
  | [] => (input, [])
  | conjunct :: rest =>
    match input.pushConjunct conjunct with
    | some pushed => pushed.pushConjuncts rest
    | none => ((input.pushConjuncts rest).1, conjunct :: (input.pushConjuncts rest).2)

def filterBy (input : LogicalPlan δ) (residual : List BoundExpr) : LogicalPlan δ :=
  match reduce andExpr residual with
  | none => input
  | some predicate => .filter input predicate

/-- A filter over an input whose own predicates are pushed already. -/
def pushFilter (input : LogicalPlan δ) (predicate : BoundExpr) : LogicalPlan δ :=
  let pushed := (input.rejectAll (impliedBy (some predicate))).pushConjuncts
    predicate.splitConjunction
  pushed.1.filterBy pushed.2

/-- A join of inputs whose own predicates are pushed already: the condition of an inner or semi
join drops the rows it cannot match. -/
def pushJoin (left right : LogicalPlan δ) (kind : JoinKind) (condition : Option BoundExpr) :
    LogicalPlan δ :=
  let implied := impliedBy condition
  .join (left.rejectAll (if kind = .inner ∨ kind = .semi then implied else []))
    (right.rejectAll (if kind = .inner then implied else [])) kind condition

mutual

@[simp] def pushPredicates : LogicalPlan δ → LogicalPlan δ
  | .empty => .empty
  | .oneRow => .oneRow
  | .scan source => .scan source
  | .derived input columns => .derived input.pushPredicates columns
  | .crossJoin inputs => .crossJoin (pushPredicatesAll inputs)
  | .unionAll inputs => .unionAll (pushPredicatesAll inputs)
  | .setOp keepMatching all left right =>
    .setOp keepMatching all left.pushPredicates right.pushPredicates
  | .recursive database table details anchor member =>
    .recursive database table details anchor.pushPredicates member.pushPredicates
  | .join left right kind condition =>
    left.pushPredicates.pushJoin right.pushPredicates kind condition
  | .filter input predicate => input.pushPredicates.pushFilter predicate
  | .project input expressions => .project input.pushPredicates expressions
  | .aggregate input groupBy aggregates => .aggregate input.pushPredicates groupBy aggregates
  | .distinct input keyCollations => .distinct input.pushPredicates keyCollations
  | .window input windows outputs => .window input.pushPredicates windows outputs
  | .sort input keys trim => .sort input.pushPredicates keys trim
  | .limit input offset count => .limit input.pushPredicates offset count

@[simp] def pushPredicatesAll : List (LogicalPlan δ) → List (LogicalPlan δ)
  | [] => []
  | input :: inputs => input.pushPredicates :: pushPredicatesAll inputs

end

end LogicalPlan

end Pintail.Exec
