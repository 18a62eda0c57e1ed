import Pintail.Binder.Refolded
import Pintail.Support.Except

/-! # Grouping rows whose partial aggregates are known

The rows of a query stand beside the rows of the folded relation they come from, and those of the
rewritten query beside the groups of that relation. Grouped by the same keys, both give the same
values: a group of the one holds the members of the folded groups in the other.
-/

namespace Pintail.Binder

open Exec List Grouped Aggregation

variable {ev : Evaluation}

def valueOf (ev : Evaluation) (aggregate : BoundAggregate) (row : Row) : Value :=
  aggregate.expr.elim (.boolean true) (ev.eval row)

theorem valuesOf_eq_map (aggregate : BoundAggregate) (rows : List Row) :
    valuesOf ev aggregate rows = rows.map (valueOf ev aggregate) := by
  unfold valuesOf valueOf
  cases aggregate.expr <;> rfl

section Groups

variable {κ ν : Type} [DecidableEq κ] [AddCommMonoid ν] {agg : Aggregation κ ν}
  {groupBy groupBy' : List BoundExpr} {aggregates : List BoundAggregate}

def refoldAll (aggregates : List BoundAggregate) (column : ℕ → BoundColumn) : List BoundAggregate :=
  aggregates.zipIdx.map fun (aggregate, index) => refold aggregate (column index)

variable {π : Type*} {κ' : Type} [DecidableEq κ'] {outer : List π} {inner : List Row}
  {key : Row → κ'} {block : π → Row → List (List Value)} {column : ℕ → BoundColumn}
  {rows rows' : List Row}

/-- A row of the query beside its grouping values and the row of the folded relation in it. -/
def OfMember (ev : Evaluation) (groupBy : List BoundExpr) (aggregates : List BoundAggregate)
    (row : Row) (item : List Value × Row) : Prop :=
  keysOf ev groupBy row = item.1 ∧
    ∀ aggregate ∈ aggregates, valueOf ev aggregate row = valueOf ev aggregate item.2

/-- A row of the rewritten query beside its grouping values and the folded group in it. -/
def OfGroup (agg : Aggregation κ ν) (ev : Evaluation) (groupBy : List BoundExpr)
    (aggregates : List BoundAggregate) (column : ℕ → BoundColumn) (row : Row)
    (item : List Value × List Row) : Prop :=
  keysOf ev groupBy row = item.1 ∧ ∀ entry ∈ aggregates.zipIdx,
    valueOf ev (refold entry.1 (column entry.2)) row =
      agg.summary entry.1 (item.2.map (valueOf ev entry.1))

theorem summaries_refoldAll (hexact : Exact agg) (hfold : ∀ a ∈ aggregates, foldable a = true)
    (htyped : ∀ a ∈ aggregates, Typed a)
    {members : List (List Value × Row)} {groups : List (List Value × List Row)}
    (hmembers : List.Forall₂ (OfMember ev groupBy aggregates) rows members)
    (hgroups : List.Forall₂ (OfGroup agg ev groupBy' aggregates column) rows' groups)
    (hne : groups ≠ []) (hperm : (members.map Prod.snd).Perm (groups.flatMap Prod.snd)) :
    agg.summaries ev (refoldAll aggregates column) rows' = agg.summaries ev aggregates rows := by
  unfold summaries refoldAll
  rw [map_map]
  nth_rewrite 2 [← zipIdx_map_fst 0 aggregates]
  rw [map_map]
  apply map_congr_left
  intro entry hentry
  obtain ⟨aggregate, index⟩ := entry
  have hmem : aggregate ∈ aggregates := fst_mem_of_mem_zipIdx hentry
  have hvalues : rows.map (valueOf ev aggregate) =
      (members.map Prod.snd).map (valueOf ev aggregate) := by
    rw [← forall₂_eq_eq_eq, forall₂_map_left_iff, map_map, forall₂_map_right_iff]
    exact hmembers.imp fun row item h => h.2 aggregate hmem
  have hvalues' : rows'.map (valueOf ev (refold aggregate (column index))) =
      (groups.map fun item => item.2.map (valueOf ev aggregate)).map (agg.summary aggregate) := by
    rw [← forall₂_eq_eq_eq, forall₂_map_left_iff, map_map, forall₂_map_right_iff]
    exact hgroups.imp fun row item h => h.2 _ hentry
  simp only [Function.comp_def, valuesOf_eq_map, hvalues, hvalues']
  refine summary_refold hexact (hfold _ hmem) (htyped _ hmem) _ ?_ (by simpa using hne)
  have hflat := hperm.map (valueOf ev aggregate)
  rw [map_flatMap] at hflat
  exact hflat

theorem aggregateRows_spread (hexact : Exact agg) (hfold : ∀ a ∈ aggregates, foldable a = true)
    (htyped : ∀ a ∈ aggregates, Typed a) (hgroupBy : groupBy ≠ [])
    (hlength : groupBy'.length = groupBy.length)
    (hname : agg.groupKey groupBy' = agg.groupKey groupBy)
    (hblock : ∀ p ∈ outer, ∀ x ∈ inner, ∀ y ∈ inner, key x = key y → block p x = block p y)
    (hmembers : List.Forall₂ (OfMember ev groupBy aggregates) rows
      (spread outer inner block))
    (hgroups : List.Forall₂ (OfGroup agg ev groupBy' aggregates column) rows'
      (spreadGroups outer inner key block)) :
    agg.aggregateRows ev groupBy' (refoldAll aggregates column) rows' =
      agg.aggregateRows ev groupBy aggregates rows := by
  have hgroupBy' : groupBy' ≠ [] := by
    rw [← length_pos_iff, hlength]
    exact length_pos_of_ne_nil hgroupBy
  have hspread := forall₂_groupsOf_spread hblock (agg.groupKey groupBy)
  have hleft : List.Forall₂ (fun g g' => OfMember ev groupBy aggregates g.1 g'.1 ∧
        List.Forall₂ (OfMember ev groupBy aggregates) g.2 g'.2)
      (groupsOf (fun row => agg.groupKey groupBy (keysOf ev groupBy row)) rows)
      (groupsOf (fun item => agg.groupKey groupBy item.1)
        (spread outer inner block)) :=
    forall₂_groupsOf_of_forall₂ (fun row item h => by simp only [h.1]) hmembers
  have hright : List.Forall₂ (fun g g' => OfGroup agg ev groupBy' aggregates column g.1 g'.1 ∧
        List.Forall₂ (OfGroup agg ev groupBy' aggregates column) g.2 g'.2)
      (groupsOf (fun row => agg.groupKey groupBy' (keysOf ev groupBy' row))
        rows')
      (groupsOf (fun item => agg.groupKey groupBy item.1)
        (spreadGroups outer inner key block)) :=
    forall₂_groupsOf_of_forall₂ (fun row item h => by simp only [h.1, hname]) hgroups
  have hnonempty := (forall₂_and_left _ _).mpr
    ⟨fun g hg => ne_nil_of_groupsOf hg, hright⟩
  unfold aggregateRows
  simp only [List.isEmpty_iff, hgroupBy, hgroupBy', if_false]
  rw [← List.forall₂_eq_eq_eq, List.forall₂_map_left_iff, List.forall₂_map_right_iff]
  apply hnonempty.trans_of (hspread.flip.comp hleft.flip)
  rintro ⟨first', members'⟩ ⟨item', items'⟩ ⟨first, members⟩ ⟨hne, hfirst', hmembers'⟩
    ⟨⟨item, items⟩, ⟨hkeys, hperm⟩, hfirst, hmembers⟩
  have hitems : items' ≠ [] := by
    intro hnil
    exact hne (length_eq_zero_iff.mp (by simpa [hnil] using hmembers'.length_eq))
  rw [hfirst'.1, hfirst.1, hkeys,
    summaries_refoldAll hexact hfold htyped hmembers hmembers' hitems hperm]

end Groups

end Pintail.Binder
