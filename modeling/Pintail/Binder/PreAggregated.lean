import Mathlib.Algebra.BigOperators.Ring.Finset
import Mathlib.Data.List.Lex
import Std.Data.String.ToInt
import Pintail.Binder.FoldedRows
import Pintail.Exec.BridgedGroups

/-! # The groups of a query whose relation is folded first

The rows of a query whose aggregated relation is folded below the joins are those of the query
itself, except that each folded group counts once. The groups have the same values, and so has
everything above them.
-/

namespace Pintail.Binder

open Exec List BoundJoin LogicalPlan BoundFrom Evaluation BoundTable Grouped Aggregation
open Option hiding all_eq_true filter_filter map_id map_map

variable {δ : Type} {ev : Evaluation} {ops : Operators δ} {db : Database}

section Groups

variable {κ ν : Type} [DecidableEq κ] [AddCommMonoid ν] {agg : Aggregation κ ν}
  {embed : BoundAggregate → δ} {catalog : ColumnKey → DataType × Bool}
  {target derived : BoundTable δ} {grouped : List BoundColumn} {aggregates : List BoundAggregate}
  {groupBy kept pushed : List BoundExpr} {before after : List (BoundJoin δ)}
  {condition : Option BoundExpr}

/-- The columns of a derived table in which a fold's aggregates stand. -/
def summaryColumn (derived : BoundTable δ) (grouped : List BoundColumn) (index : ℕ) : BoundColumn :=
  derived.column (grouped.length + index)

/-- What a rewrite that folds a relation of a chain of inner joins sees to. -/
structure Foldable (target derived : BoundTable δ) (catalog : ColumnKey → DataType × Bool)
    (grouped : List BoundColumn) (aggregates : List BoundAggregate)
    (groupBy kept pushed : List BoundExpr) (before after : List (BoundJoin δ))
    (condition : Option BoundExpr) : Prop where
  byValue : ∀ c ∈ grouped, Binder.byValue (some (catalog c.key).1) = true
  owned : ∀ c ∈ grouped, target.owns c = true
  before : ∀ join ∈ before, Foreign target derived grouped join
  after : ∀ join ∈ after, Foreign target derived grouped join
  condition : ∀ expr ∈ condition, Movable target derived grouped expr
  groupBy : ∀ expr ∈ groupBy, Movable target derived grouped expr
  kept : ∀ expr ∈ kept, Movable target derived grouped expr
  pushed : ∀ expr ∈ pushed, ReadsTarget target expr
  aggregates : ∀ aggregate ∈ aggregates, ∀ expr ∈ aggregate.expr, ReadsTarget target expr

variable (h : Foldable target derived catalog grouped aggregates groupBy kept pushed before after
  condition) {first other : Row} {keep : Row → Bool}

include h

theorem Foldable.within_first (hfirst : first ∈ extendAll ev ops db (before.map link) []) :
    ∃ tables, first.Within tables ∧ target.key ∉ tables ∧ derived.key ∉ tables := by
  obtain ⟨extra, rfl, hextra⟩ := exists_of_joins hfirst
  refine ⟨before.map (·.table.key), hextra, fun hmem => ?_, fun hmem => ?_⟩
  · obtain ⟨join, hjoin, heq⟩ := mem_map.mp hmem
    exact (h.before join hjoin).ne_target (by simp [heq])
  · obtain ⟨join, hjoin, heq⟩ := mem_map.mp hmem
    exact (h.before join hjoin).ne_derived (by simp [heq])

theorem Foldable.eval_of_blockRows {row : Row}
    (hfirst : first ∈ extendAll ev ops db (before.map link) [])
    (hrow : row ∈ blockRows ev ops db condition (after.map link) keep (first ++ other))
    {expr : BoundExpr} (hexpr : ReadsTarget target expr) :
    ev.eval row expr = ev.eval other expr := by
  obtain ⟨tables, hwithin, htarget, -⟩ := h.within_first hfirst
  unfold blockRows at hrow
  split at hrow
  · obtain ⟨extra, rfl, hextra⟩ := exists_of_joins (mem_of_mem_filter hrow)
    apply hexpr.eval hwithin htarget hextra
    intro hmem
    obtain ⟨join, hjoin, heq⟩ := mem_map.mp hmem
    exact (h.after join hjoin).ne_target (by simp [heq])
  · simp at hrow

theorem Foldable.filter_rows :
    (extendAll ev ops db (before.map link ++
        ⟨.inner, target.relationPlan, condition⟩ :: after.map link) []).filter
          (fun row => kept.all (ev.keeps · row) && pushed.all (ev.keeps · row)) =
      (extendAll ev ops db (before.map link) []).flatMap fun first =>
        ((target.relationPlan.rows ev ops db).filter
          (holds ev (reduce andExpr pushed))).flatMap fun other =>
            blockRows ev ops db condition (after.map link)
              (fun row => kept.all (ev.keeps · row)) (first ++ other) := by
  rw [filter_extendAll _ _ rfl]
  apply flatMap_congr
  intro first hfirst
  rw [flatMap_filter_eq]
  apply flatMap_congr
  intro other _
  rw [holds_reduce]
  -- the conjuncts moved into the fold look at the relation's row alone
  have hpushed : ∀ row ∈ blockRows ev ops db condition (after.map link) (fun _ => true)
      (first ++ other), pushed.all (ev.keeps · row) = pushed.all (ev.keeps · other) := by
    intro row hrow
    apply all_congr_of_mem
    intro expr hexpr
    rw [keeps, keeps, h.eval_of_blockRows hfirst hrow (h.pushed expr hexpr)]
  unfold blockRows at hpushed ⊢
  split
  · rename_i hholds
    simp only [hholds, if_true, filter_true] at hpushed
    rw [← filter_filter, filter_congr hpushed]
    cases pushed.all (ev.keeps · other) <;> simp
  · simp

variable {group : Row × List Row}

theorem Foldable.forall₂_blockRows (hgroups : GroupsByValue agg)
    (hev : Respects ev (reboundColumn target grouped derived))
    (hcolumns : derived.columnIds = (range (grouped.length + aggregates.length)).map (· + 1))
    (hfirst : first ∈ extendAll ev ops db (before.map link) [])
    (hother : other ∈ target.relationPlan.rows ev ops db)
    (hkey : foldKey agg ev catalog grouped other = foldKey agg ev catalog grouped group.1) :
    List.Forall₂ (Alike target derived grouped)
      (blockRows ev ops db condition (after.map link)
        (fun row => kept.all (ev.keeps · row)) (first ++ other))
      (blockRows ev ops db (condition.map (rebind target grouped derived))
        (after.map fun join => (join.rebind target grouped derived).link)
        (fun row => (kept.map (rebind target grouped derived)).all (ev.keeps · row))
        (first ++ foldedRow agg ev catalog grouped aggregates derived.key group)) := by
  obtain ⟨tables, hwithin, htarget, hderived⟩ := h.within_first hfirst
  apply Binder.forall₂_blockRows hev h.after h.condition h.kept
  exact alike_foldedRow hgroups h.byValue h.owned hcolumns hwithin htarget hderived
    (within_rows hother) hkey

theorem Foldable.keysOf_rebind (hev : Respects ev (reboundColumn target grouped derived))
    {row row' : Row} (halike : Alike target derived grouped row row') :
    keysOf ev (groupBy.map (rebind target grouped derived)) row' = keysOf ev groupBy row := by
  unfold keysOf
  rw [map_map]
  exact map_congr_left fun expr hexpr => (h.groupBy expr hexpr).eval hev halike

theorem Foldable.valueOf_refold (hcolumns : derived.columnIds =
    (range (grouped.length + aggregates.length)).map (· + 1)) {row : Row}
    (hfirst : first ∈ extendAll ev ops db (before.map link) [])
    (hrow : row ∈ blockRows ev ops db (condition.map (rebind target grouped derived))
      (after.map fun join => (join.rebind target grouped derived).link) keep
      (first ++ foldedRow agg ev catalog grouped aggregates derived.key group))
    {entry : BoundAggregate × ℕ} (hentry : entry ∈ aggregates.zipIdx) :
    valueOf ev (refold entry.1 (summaryColumn derived grouped entry.2)) row =
      agg.summary entry.1 (group.2.map (valueOf ev entry.1)) := by
  obtain ⟨tables, hwithin, -, hderived⟩ := h.within_first hfirst
  have hvalue : valueOf ev (refold entry.1 (summaryColumn derived grouped entry.2)) row =
      row.get (.column (derived.column (grouped.length + entry.2)).key) := by
    simp [valueOf, refold, aggregateColumn, summaryColumn, column]
  have hjoins : (after.map fun join => (join.rebind target grouped derived).link) =
      (after.map (BoundJoin.rebind target grouped derived)).map link := by
    rw [map_map]
    rfl
  rw [hvalue, ← get_foldedRow_aggregate hcolumns hentry]
  unfold blockRows at hrow
  split at hrow
  · rw [hjoins] at hrow
    obtain ⟨extra, rfl, hextra⟩ := exists_of_joins (mem_of_mem_filter hrow)
    have hright : ∀ value, (Label.column (derived.column (grouped.length + entry.2)).key, value) ∉
        extra := by
      intro value hmem
      obtain ⟨rebound, hrebound, heq⟩ := mem_map.mp (hextra _ hmem)
      obtain ⟨join, hjoin, rfl⟩ := mem_map.mp hrebound
      exact (h.after join hjoin).ne_derived (mem_singleton.mpr heq.symm)
    have hleft : ∀ value, (Label.column (derived.column (grouped.length + entry.2)).key, value) ∉
        first := fun value hmem => hderived (hwithin _ hmem)
    rw [Row.get_append_left hright, Row.get_append_right hleft]
  · simp at hrow

theorem Foldable.aggregateRows (hops : Aggregates agg ev ops embed) (hexact : Exact agg)
    (hgroups : GroupsByValue agg) (hev : Respects ev (reboundColumn target grouped derived))
    (hname : agg.groupKey (groupBy.map (rebind target grouped derived)) = agg.groupKey groupBy)
    (hgroupBy : groupBy ≠ []) (hgrouped : grouped ≠ [])
    (hfold : ∀ a ∈ aggregates, foldable a = true) (htyped : ∀ a ∈ aggregates, Typed a)
    (hinput : derived.input =
      some ((foldQuery catalog target (reduce andExpr pushed) grouped aggregates).plan embed))
    (hcolumns : derived.columnIds =
      (range (grouped.length + aggregates.length)).map (· + 1)) :
    agg.aggregateRows ev (groupBy.map (rebind target grouped derived))
        (refoldAll aggregates (summaryColumn derived grouped)) ((extendAll ev ops db
          (before.map (fun join => (join.rebind target grouped derived).link) ++
            ⟨.inner, derived.relationPlan, condition.map (rebind target grouped derived)⟩ ::
            after.map fun join => (join.rebind target grouped derived).link) []).filter fun row =>
              (kept.map (rebind target grouped derived)).all (ev.keeps · row)) =
      agg.aggregateRows ev groupBy aggregates
        ((extendAll ev ops db (before.map link ++
          ⟨.inner, target.relationPlan, condition⟩ :: after.map link) []).filter fun row =>
            kept.all (ev.keeps · row) && pushed.all (ev.keeps · row)) := by
  have hself : Alike target derived grouped [] [] := ⟨fun _ _ _ => rfl, fun _ _ _ => rfl⟩
  have hbefore : extendAll ev ops db
      (before.map fun join => (join.rebind target grouped derived).link) [] =
        extendAll ev ops db (before.map link) [] := by
    rw [eq_comm, ← forall₂_eq_eq_eq]
    exact (forall₂_extendAll hev h.before hself).imp fun _ _ hsame => hsame.2 rfl
  rw [h.filter_rows, filter_extendAll _ _ rfl, hbefore,
    rows_folded hops hgrouped hinput hcolumns]
  simp only [flatMap_map]
  set outer := extendAll ev ops db (before.map link) []
  set inner := (target.relationPlan.rows ev ops db).filter (holds ev (reduce andExpr pushed))
  let rows := fun first other : Row => blockRows ev ops db condition (after.map link)
    (fun row => kept.all (ev.keeps · row)) (first ++ other)
  let rows' := fun (first : Row) (group : Row × List Row) =>
    blockRows ev ops db (condition.map (rebind target grouped derived))
      (after.map fun join => (join.rebind target grouped derived).link)
      (fun row => (kept.map (rebind target grouped derived)).all (ev.keeps · row))
      (first ++ foldedRow agg ev catalog grouped aggregates derived.key group)
  let block := fun first other => (rows first other).map (keysOf ev groupBy)
  have halike : ∀ first ∈ outer, ∀ other ∈ inner, ∀ group : Row × List Row,
      foldKey agg ev catalog grouped other = foldKey agg ev catalog grouped group.1 →
      List.Forall₂ (Alike target derived grouped) (rows first other) (rows' first group) :=
    fun first hfirst other hother group hkey =>
      h.forall₂_blockRows hgroups hev hcolumns hfirst (mem_of_mem_filter hother) hkey
  have hkeys : ∀ first ∈ outer, ∀ other ∈ inner, ∀ group : Row × List Row,
      foldKey agg ev catalog grouped other = foldKey agg ev catalog grouped group.1 →
      block first other = (rows' first group).map
        (keysOf ev (groupBy.map (rebind target grouped derived))) := by
    intro first hfirst other hother group hkey
    rw [← forall₂_eq_eq_eq, forall₂_map_left_iff, forall₂_map_right_iff]
    exact (halike first hfirst other hother group hkey).imp fun row row' hrow =>
      (h.keysOf_rebind hev hrow).symm
  have hmembers : List.Forall₂ (OfMember ev groupBy aggregates)
      (outer.flatMap fun first => inner.flatMap (rows first))
      (spread outer inner block) := by
    refine forall₂_flatMap_same fun first hfirst =>
      forall₂_flatMap_same fun other _ => ?_
    rw [map_map, forall₂_map_right_iff, forall₂_same]
    refine fun row hrow => ⟨rfl, fun aggregate haggregate => ?_⟩
    unfold valueOf
    cases hexpr : aggregate.expr with
    | none => rfl
    | some expr =>
      exact h.eval_of_blockRows hfirst hrow (h.aggregates aggregate haggregate expr hexpr)
  have hfolded : List.Forall₂ (OfGroup agg ev (groupBy.map (rebind target grouped derived))
        aggregates (summaryColumn derived grouped))
      (outer.flatMap fun first =>
        (groupsOf (foldKey agg ev catalog grouped) inner).flatMap (rows' first))
      (spreadGroups outer inner (foldKey agg ev catalog grouped) block) := by
    refine forall₂_flatMap_same fun first hfirst =>
      forall₂_flatMap_same fun group hgroup => ?_
    have hmem : group.1 ∈ inner := by
      obtain ⟨member, hmember, rfl⟩ := mem_map.mp hgroup
      exact (firsts_sublist _ _).mem hmember
    rw [hkeys first hfirst group.1 hmem group rfl, map_map, forall₂_map_right_iff, forall₂_same]
    exact fun row hrow => ⟨rfl, fun entry hentry => h.valueOf_refold hcolumns hfirst hrow hentry⟩
  refine aggregateRows_spread hexact hfold htyped hgroupBy (by simp) hname ?_ hmembers hfolded
  intro first hfirst x hx y hy hkey
  rw [hkeys first hfirst x hx (x, []) rfl, hkeys first hfirst y hy (x, []) hkey.symm]

end Groups

section Target

variable {relations : List (BoundTable δ)}

/-- The relation read so far owns every column seen so far. -/
def OwnsAll (relations : List (BoundTable δ)) (seen : List BoundColumn) :
    Option (BoundTable δ) → Prop
  | none => seen = []
  | some table => table ∈ relations ∧ ∀ c ∈ seen, table.owns c = true

variable {read read' : Option (BoundTable δ)} {seen : List BoundColumn}

theorem OwnsAll.readColumn (h : OwnsAll relations seen read) {column : BoundColumn}
    (hread : readColumn relations read column = some read') :
    OwnsAll relations (seen ++ [column]) read' := by
  simp only [Binder.readColumn, bind_eq_bind, bind_eq_some_iff, Option.pure_def,
    some.injEq] at hread
  obtain ⟨owner, howner, _, hsame, rfl⟩ := hread
  refine ⟨mem_of_find?_eq_some howner, fun c hc => ?_⟩
  rcases mem_append.mp hc with hc | hc
  · cases read with
    | none => simp [show seen = [] from h] at hc
    | some table =>
      have hsame : table.sameRelation owner = true := by simpa using hsame
      rw [owns, ← eq_of_beq hsame]
      exact h.2 c hc
  · rw [mem_singleton.mp hc]
    exact find?_some (p := fun table : BoundTable δ => table.owns column) howner

theorem OwnsAll.foldlM {columns seen : List BoundColumn} (h : OwnsAll relations seen read)
    (hread : columns.foldlM (Binder.readColumn relations) read = some read') :
    OwnsAll relations (seen ++ columns) read' := by
  induction columns generalizing seen read with
  | nil =>
    obtain rfl : read = read' := by simpa using hread
    simpa using h
  | cons column rest ih =>
    rw [foldlM_cons, bind_eq_bind, bind_eq_some_iff] at hread
    obtain ⟨middle, hmiddle, hrest⟩ := hread
    have := ih (h.readColumn hmiddle) hrest
    rwa [append_assoc] at this

def aggregateColumns (aggregates : List BoundAggregate) : List BoundColumn :=
  aggregates.flatMap fun aggregate => (aggregate.expr.bind columnsOf).getD []

theorem OwnsAll.aggregates {aggregates : List BoundAggregate} (h : OwnsAll relations seen read)
    (hread : aggregates.foldlM (readAggregate relations) read = some read') :
    OwnsAll relations (seen ++ aggregateColumns aggregates) read' ∧
      ∀ a ∈ aggregates, foldable a = true ∧ ∀ expr ∈ a.expr, (columnsOf expr).isSome := by
  induction aggregates generalizing seen read with
  | nil =>
    obtain rfl : read = read' := by simpa using hread
    simpa [aggregateColumns] using h
  | cons aggregate rest ih =>
    rw [foldlM_cons, bind_eq_bind, bind_eq_some_iff] at hread
    obtain ⟨middle, hmiddle, hrest⟩ := hread
    simp only [readAggregate, bind_eq_bind, bind_eq_some_iff, guard_eq_some'] at hmiddle
    obtain ⟨_, hfold, hmiddle⟩ := hmiddle
    have hstep : OwnsAll relations
        (seen ++ (aggregate.expr.bind columnsOf).getD []) middle ∧
          ∀ expr ∈ aggregate.expr, (columnsOf expr).isSome := by
      cases hexpr : aggregate.expr with
      | none =>
        obtain rfl : read = middle := by simpa [hexpr] using hmiddle
        simpa using h
      | some expr =>
        simp only [hexpr, bind_eq_some_iff] at hmiddle
        obtain ⟨columns, hcolumns, hmiddle⟩ := hmiddle
        have := h.foldlM hmiddle
        simpa [hcolumns] using this
    obtain ⟨howns, hall⟩ := ih hstep.1 hrest
    refine ⟨?_, forall_mem_cons.mpr ⟨⟨hfold, hstep.2⟩, hall⟩⟩
    simpa [aggregateColumns] using howns

theorem BoundQuery.of_target {query : BoundQuery δ} {target : BoundTable δ}
    (h : query.target = some target) : ∃ source, query.sources = [source] ∧
      query.groupBy ≠ [] ∧ (∀ join ∈ source.joins, join.kind = .inner) ∧
      target ∈ source.relations ∧ (∀ a ∈ query.aggregates, foldable a = true) ∧
      ∀ a ∈ query.aggregates, ∀ expr ∈ a.expr, ReadsTarget target expr := by
  unfold BoundQuery.target at h
  simp only [bind_eq_bind, bind_eq_some_iff, guard_eq_some', Bool.and_eq_true] at h
  obtain ⟨_, ⟨⟨hgroup, -⟩, -⟩, h⟩ := h
  split at h
  · rename_i source hsource
    simp only [bind_eq_some_iff, Option.pure_def, some.injEq] at h
    obtain ⟨_, hjoins, read, hread, found, rfl, rows, -, _, -, rfl⟩ := h
    have hstart : OwnsAll source.relations [] (none : Option (BoundTable δ)) := rfl
    obtain ⟨⟨hmem, howns⟩, hall⟩ := hstart.aggregates hread
    refine ⟨source, hsource, by simpa using hgroup, fun join hjoin => ?_, hmem,
      fun a ha => (hall a ha).1, fun a ha expr hexpr => ?_⟩
    · simp_all
    · obtain ⟨columns, hcolumns⟩ := isSome_iff_exists.mp ((hall a ha).2 expr hexpr)
      refine ⟨columns, hcolumns, fun c hc => howns c ?_⟩
      refine mem_flatMap.mpr ⟨a, ha, ?_⟩
      simpa [mem_def.mp hexpr, hcolumns] using hc
  · simp at h

variable {target derived : BoundTable δ} {grouped : List BoundColumn}

theorem splitFilter_cons {part : BoundExpr} {rest kept pushed : List BoundExpr}
    (h : splitFilter target (part :: rest) = some (kept, pushed)) :
    ∃ kept' pushed', splitFilter target rest = some (kept', pushed') ∧
      (kept = part :: kept' ∧ pushed = pushed' ∨
        kept = kept' ∧ pushed = part :: pushed' ∧ ReadsTarget target part) := by
  simp only [splitFilter, bind_eq_bind, bind_eq_some_iff] at h
  obtain ⟨columns, hcolumns, ⟨kept', pushed'⟩, hrest, h⟩ := h
  refine ⟨kept', pushed', hrest, ?_⟩
  split at h
  · left
    simpa [eq_comm] using h
  · split at h
    · rename_i hcount
      obtain ⟨rfl, rfl⟩ : kept' = kept ∧ part :: pushed' = pushed := by simpa using h
      exact .inr ⟨rfl, rfl, columns, hcolumns, countP_eq_length.mp hcount⟩
    · simp at h

variable {parts kept pushed : List BoundExpr}

theorem of_splitFilter (h : splitFilter target parts = some (kept, pushed)) :
    (∀ expr ∈ pushed, ReadsTarget target expr) ∧ ∀ expr ∈ kept, expr ∈ parts := by
  induction parts generalizing kept pushed with
  | nil =>
    obtain ⟨rfl, rfl⟩ : [] = kept ∧ [] = pushed := by simpa [splitFilter] using h
    simp
  | cons part rest ih =>
    obtain ⟨kept', pushed', hrest, ⟨rfl, rfl⟩ | ⟨rfl, rfl, hpart⟩⟩ := splitFilter_cons h
    · obtain ⟨hpushed, hkept⟩ := ih hrest
      exact ⟨hpushed, by simpa using fun expr hexpr => .inr (hkept expr hexpr)⟩
    · obtain ⟨hpushed, hkept⟩ := ih hrest
      exact ⟨forall_mem_cons.mpr ⟨hpart, hpushed⟩,
        fun expr hexpr => mem_cons_of_mem _ (hkept expr hexpr)⟩

theorem all_of_splitFilter (h : splitFilter target parts = some (kept, pushed)) (row : Row) :
    parts.all (ev.keeps · row) = (kept.all (ev.keeps · row) && pushed.all (ev.keeps · row)) := by
  induction parts generalizing kept pushed with
  | nil =>
    obtain ⟨rfl, rfl⟩ : [] = kept ∧ [] = pushed := by simpa [splitFilter] using h
    rfl
  | cons part rest ih =>
    obtain ⟨kept', pushed', hrest, ⟨rfl, rfl⟩ | ⟨rfl, rfl, -⟩⟩ := splitFilter_cons h
    · rw [all_cons, ih hrest, all_cons, Bool.and_assoc]
    · rw [all_cons, ih hrest, all_cons, Bool.and_left_comm]

/-- The target's columns an expression reads are among the grouped ones. -/
def Covers (target : BoundTable δ) (grouped : List BoundColumn) (expr : BoundExpr) : Prop :=
  ∃ columns, columnsOf expr = some columns ∧ ∀ c ∈ columns, target.owns c = true →
    grouped.any (·.key.columnId == c.key.columnId) = true

theorem foldl_addColumn {columns : List BoundColumn} :
    ∀ grouped : List BoundColumn, (∀ c ∈ grouped, target.owns c = true) →
      (∀ c ∈ columns, target.owns c = true) →
      ∃ added, columns.foldl (fun grouped column =>
          if grouped.any (·.key.columnId == column.key.columnId) then grouped
          else grouped ++ [column]) grouped = grouped ++ added ∧
        (∀ c ∈ grouped ++ added, target.owns c = true) ∧
        ∀ c ∈ columns, (grouped ++ added).any (·.key.columnId == c.key.columnId) = true := by
  induction columns with
  | nil => exact fun grouped hgrouped _ => ⟨[], by simp, by simpa using hgrouped, by simp⟩
  | cons column rest ih =>
    intro grouped hgrouped hcolumns
    obtain ⟨hcolumn, hrest⟩ := forall_mem_cons.mp hcolumns
    rw [foldl_cons]
    split
    · rename_i hheld
      obtain ⟨added, hfold, howns, hall⟩ := ih grouped hgrouped hrest
      refine ⟨added, hfold, howns, forall_mem_cons.mpr ⟨?_, hall⟩⟩
      rw [any_append, hheld, Bool.true_or]
    · obtain ⟨added, hfold, howns, hall⟩ := ih (grouped ++ [column])
        (forall_mem_append.mpr ⟨hgrouped, by simpa using hcolumn⟩) hrest
      refine ⟨column :: added, by simpa using hfold, by simpa using howns, ?_⟩
      refine forall_mem_cons.mpr ⟨by simp, by simpa using hall⟩

theorem of_addGrouped {exprs : List BoundExpr} {grouped' : List BoundColumn}
    (hgrouped : ∀ c ∈ grouped, target.owns c = true)
    (h : exprs.foldlM (addGrouped target) grouped = some grouped') :
    (∃ added, grouped' = grouped ++ added) ∧ (∀ c ∈ grouped', target.owns c = true) ∧
      ∀ expr ∈ exprs, Covers target grouped' expr := by
  induction exprs generalizing grouped with
  | nil =>
    obtain rfl : grouped = grouped' := by simpa using h
    exact ⟨⟨[], by simp⟩, hgrouped, by simp⟩
  | cons expr rest ih =>
    rw [foldlM_cons, bind_eq_bind, bind_eq_some_iff] at h
    obtain ⟨middle, hmiddle, hrest⟩ := h
    simp only [addGrouped, bind_eq_bind, bind_eq_some_iff, Option.pure_def, some.injEq] at hmiddle
    obtain ⟨columns, hcolumns, rfl⟩ := hmiddle
    obtain ⟨added, hfold, howns, hall⟩ := @foldl_addColumn _ target
      (columns.filter target.owns) grouped hgrouped fun c hc => (mem_filter.mp hc).2
    rw [hfold] at hrest
    obtain ⟨⟨more, rfl⟩, howns', hcovers⟩ := ih howns hrest
    refine ⟨⟨added ++ more, by simp⟩, howns', forall_mem_cons.mpr ⟨?_, hcovers⟩⟩
    refine ⟨columns, hcolumns, fun c hc hown => ?_⟩
    rw [any_append, hall c (mem_filter.mpr ⟨hc, hown⟩), Bool.true_or]

/-- The joins of a source, its first relation as a join with nothing before it. -/
def BoundFrom.entries (source : BoundFrom δ) : List (BoundJoin δ) :=
  ⟨false, .inner, source.base, none⟩ :: source.joins

theorem map_zipIdx_at {α : Type*} (f : α → α) (a : α) (before after : List α) :
    (before ++ a :: after).zipIdx.map (fun entry =>
      if some before.length = some entry.2 then f entry.1 else entry.1) =
        before ++ f a :: after := by
  apply ext_getElem?
  intro index
  rcases Nat.lt_trichotomy index before.length with hlt | rfl | hgt
  · simp [getElem?_append_left hlt, Function.comp_def, hlt.ne']
  · simp
  · obtain ⟨k, rfl⟩ := Nat.exists_eq_add_of_lt hgt
    simp [getElem?_append_right, Nat.add_assoc, Function.comp_def]

theorem BoundFrom.exists_replace {source : BoundFrom δ}
    (hnodup : (source.relations.map (·.key)).Nodup) (htarget : target ∈ source.relations) :
    ∃ before entry after, source.entries = before ++ entry :: after ∧ entry.table = target ∧
      (∀ join ∈ before ++ after, join.table.key ≠ target.key) ∧
      (replace target derived
        { source with joins := source.joins.map (BoundJoin.rebind target grouped derived) }).entries =
        before.map (BoundJoin.rebind target grouped derived) ++
          { entry.rebind target grouped derived with table := derived } ::
            after.map (BoundJoin.rebind target grouped derived) := by
  simp only [relations, map_cons, map_map, nodup_cons] at hnodup
  obtain ⟨hbase, hjoins⟩ := hnodup
  rcases mem_cons.mp htarget with rfl | htarget
  · refine ⟨[], _, source.joins, rfl, rfl, ?_, ?_⟩
    · intro join hjoin heq
      exact hbase (mem_map.mpr ⟨join, hjoin, heq⟩)
    · simp [replace, entries, sameRelation, BoundJoin.rebind]
  · obtain ⟨entry, hentry, rfl⟩ := mem_map.mp htarget
    have hne : source.base.sameRelation entry.table = false := by
      refine beq_false_of_ne fun heq => hbase ?_
      exact mem_map.mpr ⟨entry, hentry, heq.symm⟩
    obtain ⟨before, after, hsplit⟩ := append_of_mem hentry
    have hothers : ∀ join ∈ before ++ after, join.table.key ≠ entry.table.key := by
      rw [hsplit] at hjoins
      simp only [map_append, map_cons, nodup_append, nodup_cons] at hjoins
      intro join hjoin heq
      rcases mem_append.mp hjoin with hjoin | hjoin
      · exact hjoins.2.2 _ (mem_map_of_mem hjoin) _ mem_cons_self heq
      · exact hjoins.2.1.1 (mem_map.mpr ⟨join, hjoin, heq⟩)
    have hfind : (source.joins.map (BoundJoin.rebind entry.table grouped derived)).findIdx?
        (·.table.sameRelation entry.table) = some before.length := by
      have hnone : before.findIdx? (fun join => join.table.sameRelation entry.table) = none :=
        findIdx?_eq_none_iff.mpr fun join hjoin =>
          beq_false_of_ne (hothers join (mem_append_left _ hjoin))
      have hrebind : (source.joins.map (BoundJoin.rebind entry.table grouped derived)).findIdx?
          (·.table.sameRelation entry.table) =
            source.joins.findIdx? (·.table.sameRelation entry.table) := by
        rw [findIdx?_map]
        rfl
      rw [hrebind, hsplit, findIdx?_append, hnone]
      simp [findIdx?_cons, sameRelation]
    refine ⟨⟨false, .inner, source.base, none⟩ :: before, entry, after, ?_, rfl, ?_, ?_⟩
    · rw [entries, hsplit, cons_append]
    · intro join hjoin
      rcases mem_cons.mp hjoin with rfl | hjoin
      · exact ne_of_beq_false hne
      · exact hothers join hjoin
    · have hat := map_zipIdx_at (fun join : BoundJoin δ => { join with table := derived })
        (entry.rebind entry.table grouped derived)
        (before.map (BoundJoin.rebind entry.table grouped derived))
        (after.map (BoundJoin.rebind entry.table grouped derived))
      rw [length_map] at hat
      simp only [replace, hne, hfind]
      rw [hsplit, map_append, map_cons, hat]
      rfl

/-- The conditions and grouping expressions a query has outside its aggregates. -/
def BoundQuery.conditions (query : BoundQuery δ) (source : BoundFrom δ) : List BoundExpr :=
  query.filter.toList.flatMap BoundExpr.andParts ++ query.groupBy ++
    source.joins.filterMap (·.condition)

/-- What the binder sees to: the relations of a source differ, no relation has the id the next
derived table gets, a condition reads relations of the source or an outer query, and aggregates have
their types. -/
structure BoundQuery.WellBound (query : BoundQuery δ) (tableId : ℕ) : Prop where
  distinct : ∀ source ∈ query.sources, (source.relations.map (·.key)).Nodup
  fresh : ∀ source ∈ query.sources, ∀ table ∈ source.relations,
    ∀ name, table.key ≠ ⟨2 ^ 64 - 1, tableId, name⟩
  resolved : ∀ source ∈ query.sources, ∀ expr ∈ query.conditions source, ∀ columns,
    columnsOf expr = some columns → ∀ c ∈ columns,
      c.outer = true ∨ ∃ table ∈ source.relations, c.key.table = table.key
  typed : ∀ aggregate ∈ query.aggregates, Typed aggregate

theorem Covers.movable {expr : BoundExpr} (h : Covers target grouped expr)
    (hscoped : ∀ columns, columnsOf expr = some columns → ∀ c ∈ columns,
      c.outer = true ∨ c.key.table ≠ derived.key) : Movable target derived grouped expr := by
  obtain ⟨columns, hcolumns, hcovers⟩ := h
  refine ⟨columns, hcolumns, fun c hc => ?_⟩
  rcases hscoped columns hcolumns c hc with houter | hne
  · exact .inl houter
  · by_cases htable : c.key.table = target.key
    · cases houter : c.outer with
      | true => exact .inl houter
      | false =>
        have hown : target.owns c = true := by simp [owns, houter, htable]
        refine .inr (.inr ⟨hown, htable, ?_⟩)
        have hany := hcovers c hc hown
        rw [← findIdx?_isSome] at hany
        exact isSome_iff_exists.mp hany
    · exact .inr (.inl ⟨htable, hne⟩)

theorem holds_toList (condition : Option BoundExpr) (row : Row) :
    holds ev condition row =
      (condition.toList.flatMap BoundExpr.andParts).all (ev.keeps · row) := by
  cases condition with
  | none => rfl
  | some expr =>
    rw [toList_some, flatMap_singleton, Bool.eq_iff_iff, all_eq_true]
    exact (ev.isReading_keeps _).iff_andParts expr

end Target

/-- Rebinding columns compared by value to those of a new derived table changes neither what
operators compute nor what makes values one group. -/
def Rebinds {κ ν : Type} (agg : Aggregation κ ν) (ev : Evaluation)
    (catalog : ColumnKey → DataType × Bool) (tableId : ℕ) (δ : Type) : Prop :=
  ∀ (target derived : BoundTable δ) (grouped : List BoundColumn),
    (∃ name, derived.key = ⟨2 ^ 64 - 1, tableId, name⟩) →
    (∀ c ∈ grouped, byValue (some (catalog c.key).1) = true) →
    Respects ev (reboundColumn target grouped derived) ∧
      ∀ exprs : List BoundExpr,
        agg.groupKey (exprs.map (rebind target grouped derived)) = agg.groupKey exprs

namespace BoundQuery

variable {κ ν : Type} [DecidableEq κ] [AddCommMonoid ν] {agg : Aggregation κ ν}
  {embed : BoundAggregate → δ} {catalog : ColumnKey → DataType × Bool} {tableId : ℕ}
  {query : BoundQuery δ}

/-- A query and its form in which a derived table folds a relation below the joins. -/
structure FoldsBelow (query rewritten : BoundQuery δ) (catalog : ColumnKey → DataType × Bool)
    (target derived : BoundTable δ) (grouped : List BoundColumn) (kept pushed : List BoundExpr)
    (before after : List (BoundJoin δ)) (condition : Option BoundExpr) : Prop where
  projection : rewritten.projection = query.projection
  having : rewritten.having = query.having
  groupBy : rewritten.groupBy = query.groupBy.map (rebind target grouped derived)
  aggregates : rewritten.aggregates =
    refoldAll query.aggregates (summaryColumn derived grouped)
  split : splitFilter target (query.filter.toList.flatMap BoundExpr.andParts) = some (kept, pushed)
  filter : rewritten.filter = reduce andExpr (kept.map (rebind target grouped derived))
  links : ∃ source, query.sources = [source] ∧ source.links = before.map link ++
    ⟨.inner, target.relationPlan, condition⟩ :: after.map link
  rebound : ∃ source, rewritten.sources = [source] ∧ source.links =
    before.map (fun join => (join.rebind target grouped derived).link) ++
      ⟨.inner, derived.relationPlan, condition.map (rebind target grouped derived)⟩ ::
        after.map fun join => (join.rebind target grouped derived).link
  foldable : Foldable target derived catalog grouped query.aggregates query.groupBy kept pushed
    before after condition

/-- The derived table a rewrite puts in the place of the folded relation. -/
structure IsFold (catalog : ColumnKey → DataType × Bool) (embed : BoundAggregate → δ)
    (tableId : ℕ) (target derived : BoundTable δ) (grouped : List BoundColumn)
    (pushed : List BoundExpr) (aggregates : List BoundAggregate) : Prop where
  key : ∃ name, derived.key = ⟨2 ^ 64 - 1, tableId, name⟩
  input : derived.input =
    some ((foldQuery catalog target (reduce andExpr pushed) grouped aggregates).plan embed)
  columns : derived.columnIds = (range (grouped.length + aggregates.length)).map (· + 1)
  grouped : grouped ≠ []

variable {target : BoundTable δ} {rewritten : BoundQuery δ}

theorem of_foldTarget (hbound : query.WellBound tableId) (htarget : query.target = some target)
    (h : query.foldTarget catalog embed tableId target = some rewritten) :
    ∃ derived grouped kept pushed before after condition,
      IsFold catalog embed tableId target derived grouped pushed query.aggregates ∧
      FoldsBelow query rewritten catalog target derived grouped kept pushed before after
        condition := by
  obtain ⟨source, hsource, hgroupBy, hinner, hmem, hfoldable, hreads⟩ := of_target htarget
  have hin : source ∈ query.sources := by simp [hsource]
  simp only [foldTarget, hsource, bind_eq_bind, bind_eq_some_iff,
    guard_eq_some', Bool.and_eq_true, all_eq_true,
    Option.pure_def, some.injEq] at h
  obtain ⟨_, -, ⟨kept, pushed⟩, hsplit, grouped, hgrouped, _, ⟨hne, hvalue⟩, _, -, rfl⟩ := h
  obtain ⟨hpushed, hkept⟩ := of_splitFilter hsplit
  obtain ⟨-, howned, hcovers⟩ := of_addGrouped (by simp) hgrouped
  set derived : BoundTable δ :=
    { bindDerivedTable embed tableId target.key.relationName
        (foldQuery catalog target (reduce andExpr pushed) grouped query.aggregates) with
      estimatedRows := target.rowCount.or target.estimatedRows } with hderived
  have hfresh : ∀ table ∈ source.relations, derived.key ≠ table.key :=
    fun table htable heq => hbound.fresh source hin table htable _ heq.symm
  obtain ⟨before, entry, after, hentries, htable, hothers, hreplaced⟩ :=
    @exists_replace _ target derived grouped source (hbound.distinct source hin) hmem
  -- what stands outside the aggregates reads the relation at the grouped columns only
  have hmovable : ∀ expr ∈ kept ++ query.groupBy ++ source.joins.filterMap (·.condition),
      Movable target derived grouped expr := by
    intro expr hexpr
    apply (hcovers expr hexpr).movable
    intro columns hcolumns c hc
    have hcondition : expr ∈ query.conditions source := by
      simp only [conditions, mem_append] at hexpr ⊢
      exact hexpr.imp_left fun h => h.imp_left (hkept expr)
    apply (hbound.resolved source hin expr hcondition columns hcolumns c hc).imp_right
    rintro ⟨table, htable, heq⟩
    exact fun h => hfresh table htable (h.symm.trans heq)
  have hconditions : ∀ join ∈ source.entries, join.kind = .inner ∧
      join.table ∈ source.relations ∧
      ∀ expr ∈ join.condition, Movable target derived grouped expr := by
    intro join hjoin
    rcases mem_cons.mp hjoin with rfl | hjoin
    · exact ⟨rfl, mem_cons_self, by simp⟩
    · refine ⟨hinner join hjoin, mem_cons_of_mem _ (mem_map_of_mem hjoin), ?_⟩
      intro expr hexpr
      refine hmovable expr (mem_append_right _ ?_)
      exact mem_filterMap.mpr ⟨join, hjoin, hexpr⟩
  have hforeign : ∀ join ∈ before ++ after, Foreign target derived grouped join := by
    intro join hjoin
    have hjoin' : join ∈ source.entries := by
      rw [hentries]
      rcases mem_append.mp hjoin with hjoin | hjoin
      · exact mem_append_left _ hjoin
      · exact mem_append_right _ (mem_cons_of_mem _ hjoin)
    obtain ⟨hkind, hrelation, hcondition⟩ := hconditions join hjoin'
    refine ⟨hkind, ?_, ?_, hcondition⟩
    · simpa using (hothers join hjoin).symm
    · simpa using hfresh join.table hrelation
  obtain ⟨hkind, -, hcondition⟩ := hconditions entry (by simp [hentries])
  refine ⟨derived, grouped, kept, pushed, before, after, entry.condition,
    { key := ⟨_, rfl⟩
      input := rfl
      columns := by
        simp only [hderived, columnIds, bindDerivedTable, map_map]
        exact (map_zipIdx_snd _ (· + 1)).trans (by simp [foldQuery])
      grouped := by simpa using hne },
    { projection := rfl
      having := rfl
      groupBy := rfl
      aggregates := rfl
      split := hsplit
      filter := rfl
      links := ⟨source, hsource, ?_⟩
      rebound := ⟨_, rfl, ?_⟩
      foldable :=
        { byValue := hvalue
          owned := howned
          before := fun join hjoin => hforeign join (mem_append_left _ hjoin)
          after := fun join hjoin => hforeign join (mem_append_right _ hjoin)
          condition := hcondition
          groupBy := fun expr hexpr =>
            hmovable expr (mem_append_left _ (mem_append_right _ hexpr))
          kept := fun expr hexpr =>
            hmovable expr (mem_append_left _ (mem_append_left _ hexpr))
          pushed := hpushed
          aggregates := hreads } }⟩
  · have hmap : source.links = source.entries.map link := rfl
    rw [hmap, hentries, map_append, map_cons, link, hkind, htable]
  · apply (congrArg (map link) hreplaced).trans
    rw [map_append, map_cons, map_map, map_map]
    simp only [BoundJoin.rebind, hkind]
    rfl

theorem holds_filter {kept pushed : List BoundExpr}
    (h : splitFilter target (query.filter.toList.flatMap BoundExpr.andParts) =
      some (kept, pushed)) :
    holds ev query.filter = fun row =>
      kept.all (ev.keeps · row) && pushed.all (ev.keeps · row) :=
  funext fun row => (holds_toList _ row).trans (all_of_splitFilter h row)

theorem rows_foldTarget (hops : Aggregates agg ev ops embed) (hexact : Exact agg)
    (hgroups : GroupsByValue agg) (hrebinds : Rebinds agg ev catalog tableId δ)
    (hbound : query.WellBound tableId) (htarget : query.target = some target)
    (h : query.foldTarget catalog embed tableId target = some rewritten) :
    (rewritten.plan embed).rows ev ops db = (query.plan embed).rows ev ops db := by
  obtain ⟨-, -, hgroupBy, -, -, hfoldable, -⟩ := of_target htarget
  obtain ⟨derived, grouped, kept, pushed, before, after, condition, hfold, hbelow⟩ :=
    of_foldTarget hbound htarget h
  obtain ⟨source, hsource, hlinks⟩ := hbelow.links
  obtain ⟨source', hsource', hlinks'⟩ := hbelow.rebound
  obtain ⟨hev, hname⟩ := hrebinds target derived grouped hfold.key hbelow.foldable.byValue
  have hgroupBy' : rewritten.groupBy ≠ [] := by simpa [hbelow.groupBy] using hgroupBy
  have hfilter' : holds ev rewritten.filter =
      fun row => (kept.map (rebind target grouped derived)).all (ev.keeps · row) := by
    rw [hbelow.filter]
    exact funext fun row => holds_reduce _
  rw [rows_plan hops hsource hgroupBy, rows_plan hops hsource' hgroupBy', hlinks, hlinks',
    hfilter', holds_filter hbelow.split, hbelow.groupBy, hbelow.aggregates,
    hbelow.foldable.aggregateRows hops hexact hgroups hev (hname _) hgroupBy hfold.grouped
      hfoldable hbound.typed hfold.input hfold.columns]
  simp [output, hbelow.projection, hbelow.having, hbelow.groupBy, hbelow.aggregates, refoldAll]

/-- The rewrite leaves the rows of every query as they are. -/
theorem rows_preAggregate (agg : Aggregation κ ν) (ev : Evaluation) (ops : Operators δ)
    (embed : BoundAggregate → δ) (catalog : ColumnKey → DataType × Bool) (tableId : ℕ)
    (db : Database) (query : BoundQuery δ) (hops : Aggregates agg ev ops embed) (hexact : Exact agg)
    (hgroups : GroupsByValue agg) (hrebinds : Rebinds agg ev catalog tableId δ)
    (hbound : query.WellBound tableId) :
    ((query.preAggregate catalog embed tableId).plan embed).rows ev ops db =
      (query.plan embed).rows ev ops db := by
  unfold preAggregate
  cases hrewritten : query.target.bind (query.foldTarget catalog embed tableId) with
  | none => rfl
  | some rewritten =>
    obtain ⟨target, htarget, h⟩ := bind_eq_some_iff.mp hrewritten
    exact rows_foldTarget hops hexact hgroups hrebinds hbound htarget h

/-! A query that counts and adds up visits for each person. -/

open LogicalPlan in
def peopleTable : BoundTable BoundAggregate := ⟨people, [⟨1, false⟩], [1], some 10, none, none⟩

open LogicalPlan in
def visitsTable : BoundTable BoundAggregate :=
  ⟨visits, [⟨1, false⟩, ⟨2, true⟩, ⟨3, true⟩], [1], some 60000, none, none⟩

open LogicalPlan in
def visitTotals : BoundQuery BoundAggregate where
  sources := [⟨peopleTable, [⟨false, .inner, visitsTable, some visitsOf⟩]⟩]
  tables := [peopleTable, visitsTable]
  projection := [.groupKey ⟨some .int64, true⟩ 0, .aggregate ⟨some .uint64, false⟩ 1,
    .aggregate ⟨some (.decimal 41 0), true⟩ 2, .aggregate ⟨some .int64, true⟩ 3]
  filter := some (sampleEquals (tableColumn visits 3) (sampleLiteral 1))
  groupBy := [tableColumn people 1]
  aggregates := [⟨.count, none, false, some .uint64, false, none, []⟩,
    ⟨.sum, some (tableColumn visits 1), false, some (.decimal 41 0), true, none, []⟩,
    maximumOf visits]
  having := some (sampleEquals (.aggregate ⟨some .uint64, false⟩ 1)
    (.literal ⟨some .uint64, false⟩ (.uint64 2)))
  composed := false

def integerCatalog (_ : ColumnKey) : DataType × Bool := (.int64, true)

def groupingOperators (agg : Aggregation κ ν) (ev : Evaluation) : Operators BoundAggregate where
  setOp _ _ left _ := left
  recursive _ anchor _ := anchor
  aggregate := agg.aggregateRows ev
  window _ rows := rows.map Row.values
  distinct _ rows := rows
  sort _ rows := rows

def codes (text : String) : List ℤ := text.toList.map fun c => (c.toNat : ℤ)

theorem codes_inj {text other : String} : codes text = codes other ↔ text = other := by
  constructor
  · intro h
    have hchars : Function.Injective fun c : Char => (c.toNat : ℤ) := fun c d hcd =>
      Char.toNat_inj.mp (Int.ofNat.inj hcd)
    exact String.toList_inj.mp (map_injective_iff.mpr hchars h)
  · rintro rfl
    rfl

/-- A value as numbers, its kind first, so that integers are ordered as integers. -/
def parts : Value → List ℤ
  | .null => [0]
  | .boolean value => [1, value.toNat]
  | .int64 value => [2, value.toInt]
  | .uint64 value => [3, value.toNat]
  | .float64 bits => [4, bits.toNat]
  | .utf8 text => 5 :: codes text
  | .binary bytes => 6 :: bytes.map fun byte => (byte.toNat : ℤ)
  | .decimalAverage value =>
    7 :: value.units :: value.count.toNat :: value.scale.toNat :: codes value.label
  | .enum index label => 8 :: index.toNat :: codes label

theorem parts_injective : Function.Injective parts := by
  have hbytes : Function.Injective fun byte : UInt8 => (byte.toNat : ℤ) := fun b c h =>
    UInt8.toNat_inj.mp (Int.ofNat.inj h)
  have hflags : ∀ b c : Bool, b.toNat = c.toNat → b = c := by decide
  have hlists := map_injective_iff.mpr hbytes
  intro v w h
  cases v with
  | boolean flag =>
    cases w with
    | boolean other => simp [hflags flag other (by simpa [parts] using h)]
    | _ => simp [parts] at h
  | decimalAverage value =>
    cases value
    rcases w with _ | _ | _ | _ | _ | _ | _ | ⟨⟨⟩⟩ | _ <;>
      simp_all [parts, codes_inj, UInt64.toNat_inj, UInt8.toNat_inj]
  | _ => cases w <;>
    simp_all [parts, codes_inj, UInt64.toNat_inj, Int64.toInt_inj, hlists.eq_iff]

/-- Counts are unsigned integers and the sum of integers is a whole decimal, as the binder types
them. -/
def exactAggregation : Aggregation (List Value) ℤ where
  groupKey _ values := values
  distinctKey value := [value]
  less _ v w := decide (parts v < parts w)
  number
    | .int64 value => value.toInt
    | .uint64 value => value.toNat
    | .utf8 text => text.toInt?.getD 0
    | _ => 0
  total
    | some .uint64, sum => .uint64 (.ofInt sum)
    | _, sum => .utf8 sum.repr
  count n := .uint64 (.ofNat n)
  mean _ sum n := .utf8 (sum / n).repr
  bits _ := 0
  other _ _ := .null

theorem ofInt_sum_counts (counts : List ℕ) :
    UInt64.ofInt (counts.map fun n => ((UInt64.ofNat n).toNat : ℤ)).sum =
      UInt64.ofNat counts.sum := by
  induction counts with
  | nil => rfl
  | cons n counts ih =>
    have hn : UInt64.ofInt ((UInt64.ofNat n).toNat : ℤ) = UInt64.ofNat n := by
      have hword : (2 ^ 64 : ℤ) = ((2 ^ 64 : ℕ) : ℤ) := rfl
      rw [UInt64.ofInt, hword, ← Int.natCast_emod, Int.toNat_natCast,
        Nat.mod_eq_of_lt (UInt64.toNat_lt _), UInt64.ofNat_toNat]
    rw [map_cons, sum_cons, UInt64.ofInt_add, ih, sum_cons, UInt64.ofNat_add, hn]

theorem exact_exactAggregation : Exact exactAggregation where
  total_ne_null _ _ := by simp [exactAggregation]
  number_total _ sum := by simp [exactAggregation, Int.toInt?_repr]
  count_ne_null _ := by simp [exactAggregation]
  total_counts counts := congrArg Value.uint64 (ofInt_sum_counts counts)
  order type _ :=
    { irrefl := fun v => by simp [exactAggregation]
      trans := fun u v w huv hvw => by
        simp only [exactAggregation, decide_eq_true_eq] at huv hvw ⊢
        exact huv.trans hvw
      total := fun v w hvw hwv => by
        simp only [exactAggregation, decide_eq_false_iff_not, not_lt] at hvw hwv
        exact parts_injective (hwv.antisymm hvw) }

theorem wellBound_visitTotals : visitTotals.WellBound 7 where
  distinct := by
    intro source hsource
    obtain rfl := mem_singleton.mp hsource
    decide
  fresh := by
    intro source hsource table htable name
    obtain rfl := mem_singleton.mp hsource
    simp only [relations, map_cons, map_nil, mem_cons, not_mem_nil, or_false] at htable
    rcases htable with rfl | rfl <;> simp [peopleTable, visitsTable, people, visits]
  resolved := by
    intro source hsource expr hexpr columns hcolumns c hc
    obtain rfl := mem_singleton.mp hsource
    have hall : (visitTotals.conditions (visitTotals.sources.head (by simp [visitTotals]))).all
        (fun expr => ((columnsOf expr).getD []).all fun c =>
          [people, visits].contains c.key.table) = true := by
      decide +kernel
    have hread := all_eq_true.mp (all_eq_true.mp hall expr hexpr) c
      (by simpa [hcolumns] using hc)
    rcases mem_cons.mp (contains_iff_mem.mp hread) with heq | hread
    · exact .inr ⟨_, mem_cons_self, heq⟩
    · exact .inr ⟨_, mem_cons_of_mem _ (mem_singleton_self _), mem_singleton.mp hread⟩
  typed := by
    intro aggregate haggregate
    simp only [visitTotals, mem_cons, not_mem_nil, or_false] at haggregate
    rcases haggregate with rfl | rfl | rfl
    · constructor <;> simp
    · constructor <;> simp [tableColumn, BoundExpr.dataType, summedIntegerDigits]
      decide
    · constructor <;> simp [maximumOf, tableColumn, BoundExpr.dataType]

theorem rows_preAggregate_visits :
    ((visitTotals.preAggregate integerCatalog id 7).sources.map fun source =>
        source.relations.map (·.key)) = [[people, ⟨2 ^ 64 - 1, 7, "visits"⟩]] ∧
      (((visitTotals.preAggregate integerCatalog id 7).plan id).rows sample
          (groupingOperators exactAggregation sample) visitsDatabase).map Row.values =
        [[.int64 1, .uint64 2, .utf8 "3", .int64 2]] := by
  have hrewritten : ((visitTotals.preAggregate integerCatalog id 7).sources.map fun source =>
      source.relations.map (·.key)) = [[people, ⟨2 ^ 64 - 1, 7, "visits"⟩]] := by
    decide +kernel
  have hrows : ((visitTotals.plan id).rows sample (groupingOperators exactAggregation sample)
      visitsDatabase).map Row.values = [[.int64 1, .uint64 2, .utf8 "3", .int64 2]] := by
    decide +kernel
  rw [← hrows, rows_preAggregate exactAggregation sample (groupingOperators exactAggregation sample)
    id integerCatalog 7 visitsDatabase visitTotals _ exact_exactAggregation]
  · exact ⟨hrewritten, rfl⟩
  · exact fun _ _ _ _ _ _ h => h
  · exact fun _ _ _ _ _ => ⟨⟨fun _ _ _ _ _ => rfl, fun _ _ _ _ _ _ _ => rfl,
      fun _ _ _ _ _ => rfl, fun _ _ _ _ => rfl, fun _ _ _ _ _ => rfl⟩, fun _ => rfl⟩
  · exact wellBound_visitTotals
  · intro groupBy aggregates rows
    rw [map_id]
    rfl

end BoundQuery

end Pintail.Binder
