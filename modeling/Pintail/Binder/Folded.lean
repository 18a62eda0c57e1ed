import Pintail.Binder.Rebound

/-! # The rows of grouped queries and folded relations

The rows of a grouped query are read off its groups. The derived table of a fold has a row for each
group of the folded relation, which holds the grouped columns and the partial aggregates in order.
-/

namespace Pintail.Binder

open Exec List Aggregation

variable {δ : Type} {ev : Evaluation} {ops : Operators δ} {db : Database}

theorem get_zip {label : Label} {value : Value} : ∀ {labels : List Label} {values : List Value}
    {index : ℕ}, labels.Nodup → labels[index]? = some label → values[index]? = some value →
    Row.get (labels.zip values) label = value
  | first :: labels, head :: values, 0, _, hlabel, hvalue => by
    obtain rfl : first = label := by simpa using hlabel
    obtain rfl : head = value := by simpa using hvalue
    simp [Row.get]
  | first :: labels, head :: values, index + 1, hnodup, hlabel, hvalue => by
    obtain ⟨hnot, hnodup⟩ := nodup_cons.mp hnodup
    have hne : (label == first) = false := by
      refine beq_false_of_ne fun heq => hnot ?_
      exact heq ▸ mem_of_getElem? hlabel
    have hrest : Row.get (labels.zip values) label = value := get_zip hnodup hlabel hvalue
    simpa [Row.get, lookup_cons, hne] using hrest
  | [], _, _, _, hlabel, _ => by simp at hlabel
  | _ :: _, [], _, _, _, hvalue => by simp at hvalue

theorem nodup_slots (n : ℕ) : ((range n).map Label.slot).Nodup :=
  nodup_range.map fun _ _ h => Label.slot.inj h

def derivedLabels (key : TableKey) (n : ℕ) : List Label :=
  (range n).map fun index => .column ⟨key, index + 1⟩

theorem nodup_derivedLabels (key : TableKey) (n : ℕ) : (derivedLabels key n).Nodup :=
  nodup_range.map fun _ _ h => by
    simpa using h

theorem rows_elim_filter (condition : Option BoundExpr) (plan : LogicalPlan δ) :
    (condition.elim plan (.filter plan)).rows ev ops db =
      (plan.rows ev ops db).filter (holds ev condition) := by
  cases condition with
  | none => exact (filter_eq_self.mpr fun _ _ => rfl).symm
  | some predicate =>
    rfl

section Groups

variable {κ ν : Type} [DecidableEq κ] [AddCommMonoid ν] {agg : Aggregation κ ν}
  {embed : BoundAggregate → δ} {values : List Value}

theorem length_of_aggregateRows {groupBy : List BoundExpr} {aggregates : List BoundAggregate}
    {rows : List Row} (h : values ∈ agg.aggregateRows ev groupBy aggregates rows) :
    values.length = groupBy.length + aggregates.length := by
  unfold aggregateRows at h
  split at h
  · rename_i hempty
    obtain rfl := mem_singleton.mp h
    simp [summaries, isEmpty_iff.mp hempty]
  · obtain ⟨⟨first, members⟩, -, rfl⟩ := mem_map.mp h
    simp [keysOf, summaries]

def Aggregates (agg : Aggregation κ ν) (ev : Evaluation) (ops : Operators δ)
    (embed : BoundAggregate → δ) : Prop :=
  ∀ groupBy aggregates rows, ops.aggregate groupBy (aggregates.map embed) rows =
    agg.aggregateRows ev groupBy aggregates rows

def BoundQuery.output (ev : Evaluation) (query : BoundQuery δ) (groups : List (List Value)) :
    List Row :=
  labelled (query.projection.zipIdx.map fun (expr, index) => LogicalPlan.projectedLabel index expr)
    (((labelled ((range (query.groupBy.length + query.aggregates.length)).map .slot)
      groups).filter (holds ev query.having)).map fun row => query.projection.map (ev.eval row))

theorem BoundQuery.rows_plan (hops : Aggregates agg ev ops embed) {query : BoundQuery δ}
    {source : BoundFrom δ} (hsource : query.sources = [source]) (hgroup : query.groupBy ≠ []) :
    (query.plan embed).rows ev ops db = query.output ev
      (agg.aggregateRows ev query.groupBy query.aggregates
        ((extendAll ev ops db source.links []).filter (holds ev query.filter))) := by
  have hnonempty : (query.groupBy.isEmpty && query.aggregates.isEmpty) = false := by
    simp [hgroup]
  have hplan : query.sourcePlan = source.sourcePlan := by simp [sourcePlan, hsource]
  simp [plan, hnonempty, hplan, output, rows_elim_filter, hops _ _ _, source.rows_sourcePlan]

variable {catalog : ColumnKey → DataType × Bool} {target : BoundTable δ} {filter : Option BoundExpr}
  {grouped : List BoundColumn} {aggregates : List BoundAggregate} {n : ℕ}

theorem map_zipIdx_snd {α β : Type*} (l : List α) (f : ℕ → β) :
    l.zipIdx.map (fun entry => f entry.2) = (range l.length).map f := by
  rw [range_eq_range', ← zipIdx_map_snd 0 l, map_map]
  rfl

theorem map_projection_foldQuery (row : Row) :
    (foldQuery catalog target filter grouped aggregates).projection.map (ev.eval row) =
      (range (grouped.length + aggregates.length)).map fun index => row.get (.slot index) := by
  simp only [foldQuery, map_append, map_map, Function.comp_def, Evaluation.eval]
  rw [map_zipIdx_snd grouped fun index => row.get (.slot index),
    map_zipIdx_snd aggregates fun index => row.get (.slot (grouped.length + index)),
    range_add, map_append, map_map]
  rfl

theorem map_get_slots (hlength : values.length = n) :
    (range n).map (fun index =>
      Row.get (((range n).map Label.slot).zip values) (.slot index)) = values := by
  apply ext_getElem (by simp [hlength])
  intro index hindex hvalue
  simp only [length_map, length_range] at hindex
  rw [getElem_map]
  exact get_zip (nodup_slots n) (by simp [hindex]) (getElem?_eq_getElem hvalue)

theorem values_foldQuery (hops : Aggregates agg ev ops embed) (hgrouped : grouped ≠ []) :
    (((foldQuery catalog target filter grouped aggregates).plan embed).rows ev ops db).map
        Row.values =
      agg.aggregateRows ev (foldQuery catalog target filter grouped aggregates).groupBy aggregates
        ((target.relationPlan.rows ev ops db).filter (holds ev filter)) := by
  set query := foldQuery catalog target filter grouped aggregates with hquery
  have hgroupBy : query.groupBy ≠ [] := by
    simpa [hquery, foldQuery] using hgrouped
  have hlinks : extendAll ev ops db (BoundFrom.links ⟨target, []⟩) [] =
      target.relationPlan.rows ev ops db := by
    simp [BoundFrom.links, SpineJoin.outputs, joinOne, holds]
  have hrows := @BoundQuery.rows_plan _ _ _ db _ _ _ _ _ _ hops query ⟨target, []⟩ rfl hgroupBy
  rw [hlinks] at hrows
  rw [hrows, BoundQuery.output]
  have hlabels : query.groupBy.length + query.aggregates.length =
      grouped.length + aggregates.length := by simp [hquery, foldQuery]
  have hkeep : ∀ l : List Row, l.filter (holds ev query.having) = l :=
    fun l => filter_eq_self.mpr fun _ _ => rfl
  rw [hkeep, hlabels]
  simp only [labelled, map_map, Function.comp_def, hquery, map_projection_foldQuery]
  refine (map_congr_left fun values hmem => ?_).trans (map_id _)
  have hlength := length_of_aggregateRows hmem
  rw [hlabels] at hlength
  rw [map_get_slots hlength]
  apply map_snd_zip
  simp [foldQuery, hlength]

variable {derived : BoundTable δ}

theorem get_derived (hcolumns : derived.columnIds = (range n).map (· + 1)) {index : ℕ}
    {value : Value} (hindex : index < n) (hvalue : values[index]? = some value) :
    Row.get ((derivedLabels derived.key n).zip values) (.column (derived.column index).key) =
      value := by
  refine get_zip (nodup_derivedLabels _ _) ?_ hvalue
  simp [derivedLabels, BoundTable.column, hcolumns, hindex]

end Groups

end Pintail.Binder
