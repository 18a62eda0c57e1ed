import Pintail.Exec.Plan

/-! # Parts of a plan

A rewrite pass goes through a plan from its inputs up. The inputs of a node, and inductions over
them: a predicate sinks through joins, products and filters only, and a product is the join of its
first input with the product of the others.
-/

namespace Pintail.Exec.LogicalPlan

open List

variable {δ : Type}

def children : LogicalPlan δ → List (LogicalPlan δ)
  | .empty | .oneRow | .scan _ => []
  | .crossJoin inputs | .unionAll inputs => inputs
  | .setOp _ _ left right | .recursive _ _ _ left right | .join left right _ _ => [left, right]
  | .derived input _ | .filter input _ | .aggregate input _ _ | .window input _ _
  | .project input _ | .distinct input _ | .sort input _ _ | .limit input _ _ => [input]

def mapChildren (f : LogicalPlan δ → LogicalPlan δ) : LogicalPlan δ → LogicalPlan δ
  | .empty => .empty
  | .oneRow => .oneRow
  | .scan source => .scan source
  | .derived input columns => .derived (f input) columns
  | .crossJoin inputs => .crossJoin (inputs.map f)
  | .unionAll inputs => .unionAll (inputs.map f)
  | .setOp keepMatching all left right => .setOp keepMatching all (f left) (f right)
  | .recursive database table details anchor member =>
    .recursive database table details (f anchor) (f member)
  | .join left right kind condition => .join (f left) (f right) kind condition
  | .filter input predicate => .filter (f input) predicate
  | .aggregate input groupBy aggregates => .aggregate (f input) groupBy aggregates
  | .window input windows outputs => .window (f input) windows outputs
  | .project input expressions => .project (f input) expressions
  | .distinct input keyCollations => .distinct (f input) keyCollations
  | .sort input keys trim => .sort (f input) keys trim
  | .limit input offset count => .limit (f input) offset count

mutual

variable {P : LogicalPlan δ → Prop}

/-- Induction over the inputs of a node. -/
theorem of_children
    (h : ∀ plan, (∀ child ∈ plan.children, P child) → P plan) : ∀ plan : LogicalPlan δ, P plan
  | .empty => h _ nofun
  | .oneRow => h _ nofun
  | .scan _ => h _ nofun
  | .crossJoin inputs => h _ (forall_of_children h inputs)
  | .unionAll inputs => h _ (forall_of_children h inputs)
  | .setOp _ _ left right | .recursive _ _ _ left right | .join left right _ _ =>
    h _ (forall_mem_cons.mpr
      ⟨of_children h left, forall_mem_singleton.mpr (of_children h right)⟩)
  | .derived input _ | .filter input _ | .aggregate input _ _ | .window input _ _
  | .project input _ | .distinct input _ | .sort input _ _ | .limit input _ _ =>
    h _ (forall_mem_singleton.mpr (of_children h input))

theorem forall_of_children (h : ∀ plan, (∀ child ∈ plan.children, P child) → P plan) :
    ∀ inputs : List (LogicalPlan δ), ∀ child ∈ inputs, P child 
  | [] => nofun
  | input :: inputs =>
    forall_mem_cons.mpr ⟨of_children h input, forall_of_children h inputs⟩

end

def joins : LogicalPlan δ → Bool
  | .join _ _ _ _ | .crossJoin _ | .filter _ _ => true
  | _ => false

/-- Induction over the inputs of a node, those of a product one by one. -/
theorem of_joins {P : LogicalPlan δ → Prop} (nil : P (.crossJoin []))
    (cons : ∀ input inputs, P input → P (.crossJoin inputs) → P (.crossJoin (input :: inputs)))
    (join : ∀ left right kind condition, P left → P right → P (.join left right kind condition))
    (filter : ∀ input predicate, P input → P (.filter input predicate))
    (other : ∀ plan, plan.joins = false → (∀ child ∈ plan.children, P child) → P plan)
    (plan : LogicalPlan δ) : P plan := by
  refine of_children (fun plan ih => ?_) plan
  cases plan with
  | crossJoin inputs =>
    simp only [children] at ih
    induction inputs with
    | nil => exact nil
    | cons input inputs ihs =>
      rw [forall_mem_cons] at ih
      exact cons input inputs ih.1 (ihs ih.2)
  | join left right kind condition =>
    exact join _ _ _ _ (ih left mem_cons_self) (ih right (by simp [children]))
  | filter input predicate => exact filter _ _ (ih input (mem_singleton_self _))
  | _ => exact other _ rfl ih

/-- A plan is part of another: the plan itself, or part of one of its inputs. -/
inductive Subplan : LogicalPlan δ → LogicalPlan δ → Prop
  | refl (plan : LogicalPlan δ) : Subplan plan plan
  | child {sub input plan : LogicalPlan δ} (hinput : input ∈ plan.children)
      (h : Subplan sub input) : Subplan sub plan

variable {plan : LogicalPlan δ}

theorem forall_subplan_iff {Q : LogicalPlan δ → Prop} :
    (∀ sub, Subplan sub plan → Q sub) ↔
      Q plan ∧ ∀ child ∈ plan.children, ∀ sub, Subplan sub child → Q sub := by
  constructor
  · intro h
    exact ⟨h plan (.refl plan), fun child hchild sub hsub => h sub (.child hchild hsub)⟩
  · rintro ⟨hself, hchildren⟩ sub hsub
    cases hsub with
    | refl => exact hself
    | child hinput h => exact hchildren _ hinput sub h

end Pintail.Exec.LogicalPlan
