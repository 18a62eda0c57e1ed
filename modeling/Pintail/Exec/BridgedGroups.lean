import Mathlib.Data.List.TakeWhile
import Pintail.Exec.BridgedRows

/-! # The groups over a nested bridge

The rows that do not reach the target of a bridge hold nothing but `NULL` for the aggregates that
admit the nesting. Each preserved row keeps some row in either chain, and with it its group. So the
aggregation over the nest gives the groups and the values of the aggregation over the chain.
-/

namespace Pintail.Exec

open List Evaluation Aggregation BoundAggregate BoundExpr

namespace Aggregation

variable {κ ν : Type} [DecidableEq κ] [AddCommMonoid ν] {agg : Aggregation κ ν} {ev : Evaluation}
  {groupBy : List BoundExpr} {aggregates : List BoundAggregate}

def presentOf (ev : Evaluation) (expr : BoundExpr) (rows : List Row) : List Value :=
  (rows.map fun row => ev.eval row expr).filter (· ≠ .null)

theorem presentOf_flatMap (expr : BoundExpr) (rows : List Row) (f : Row → List Row) :
    presentOf ev expr (rows.flatMap f) = rows.flatMap fun row => presentOf ev expr (f row) := by
  simp [presentOf, map_flatMap, filter_flatMap]

variable {rows : List Row}

theorem presentOf_eq_nil {expr : BoundExpr} (h : ∀ row ∈ rows, ev.eval row expr = .null) :
    presentOf ev expr rows = [] := by
  apply filter_eq_nil_iff.mpr
  intro value hvalue
  obtain ⟨row, hrow, rfl⟩ := mem_map.mp hvalue
  simp [h row hrow]

variable {rows rows' : List Row}

theorem summary_congr {aggregate : BoundAggregate} (h : aggregate.ignoresRepeats = true)
    (hpresent : ∀ expr ∈ aggregate.expr, presentOf ev expr rows = presentOf ev expr rows') :
    agg.summary aggregate (valuesOf ev aggregate rows) =
      agg.summary aggregate (valuesOf ev aggregate rows') := by
  unfold ignoresRepeats at h
  cases hexpr : aggregate.expr with
  | none => simp [hexpr] at h
  | some expr =>
    have heq := hpresent expr hexpr
    unfold presentOf at heq
    unfold summary
    simp only [valuesOf, hexpr, heq]
    cases hfunction : aggregate.function with
    | count | minimum | maximum => rfl
    | _ => simp [hfunction] at h

/-- The rows that take the place of a row: there are some, with its grouping keys. -/
def Block (ev : Evaluation) (groupBy : List BoundExpr) (row : Row) (block : List Row) : Prop :=
  block ≠ [] ∧ ∀ row' ∈ block, keysOf ev groupBy row' = keysOf ev groupBy row

theorem aggregateRows_flatMap {f : Row → List Row}
    (hf : ∀ row ∈ rows, Block ev groupBy row (f row)) :
    agg.aggregateRows ev groupBy aggregates (rows.flatMap f) =
      if groupBy.isEmpty then [agg.summaries ev aggregates (rows.flatMap f)]
      else (Grouped.groupsOf (fun row => agg.groupKey groupBy (keysOf ev groupBy row)) rows).map
        fun (first, members) =>
          keysOf ev groupBy first ++ agg.summaries ev aggregates (members.flatMap f) := by
  unfold aggregateRows
  split
  · rfl
  · have hblocks : Grouped.Blocks (fun row => agg.groupKey groupBy (keysOf ev groupBy row))
        (fun row => agg.groupKey groupBy (keysOf ev groupBy row)) f rows :=
      fun row hrow => ⟨(hf row hrow).1, fun row' hrow' =>
        congrArg (agg.groupKey groupBy) ((hf row hrow).2 row' hrow')⟩
    have hpairs := Grouped.forall₂_groupsOf hblocks
    rw [← forall₂_eq_eq_eq, forall₂_map_left_iff, forall₂_map_right_iff]
    apply hpairs.imp
    rintro ⟨first, members⟩ ⟨first', members'⟩ ⟨⟨hmem, hrow⟩, hmembers⟩
    dsimp only at hmem hrow hmembers ⊢
    rw [(hf first' hrow).2 first hmem, hmembers]

/-- Two ways of extending rows give the same groups when each row keeps its keys, keeps some
extension, and the extensions show the aggregates the same values. -/
theorem aggregateRows_congr (h : aggregates.all ignoresRepeats = true) {f f' : Row → List Row}
    (hf : ∀ row ∈ rows, Block ev groupBy row (f row))
    (hf' : ∀ row ∈ rows, Block ev groupBy row (f' row))
    (hpresent : ∀ aggregate ∈ aggregates, ∀ expr ∈ aggregate.expr, ∀ row ∈ rows,
      presentOf ev expr (f row) = presentOf ev expr (f' row)) :
    agg.aggregateRows ev groupBy aggregates (rows.flatMap f) =
      agg.aggregateRows ev groupBy aggregates (rows.flatMap f') := by
  have hsummaries : ∀ members : List Row, (∀ row ∈ members, row ∈ rows) →
      agg.summaries ev aggregates (members.flatMap f) =
        agg.summaries ev aggregates (members.flatMap f') := by
    intro members hmembers
    refine map_congr_left fun aggregate haggregate =>
      summary_congr (all_eq_true.mp h aggregate haggregate) fun expr hexpr => ?_
    rw [presentOf_flatMap, presentOf_flatMap]
    exact flatMap_congr fun row hrow =>
      hpresent aggregate haggregate expr hexpr row (hmembers row hrow)
  rw [aggregateRows_flatMap hf, aggregateRows_flatMap hf', hsummaries rows fun _ h => h]
  split
  · rfl
  · apply map_congr_left
    intro g hg
    obtain ⟨first, members⟩ := g
    dsimp only
    rw [hsummaries members (Grouped.mem_of_groupsOf hg)]

end Aggregation

namespace LogicalPlan

variable {δ : Type} {keyColumnIds : TableKey → List ℕ}

theorem mem_planTables_of_scanned : ∀ {plan : LogicalPlan δ} {source : Scan},
    plan.scanned = some source → source.table ∈ plan.planTables
  | .scan other, source, h => by
    cases h
    simp
  | .project input _, source, h | .filter input _, source, h => by
    simp only [planTables]
    exact mem_planTables_of_scanned h

theorem rejects_of_keyedFrom {plan : LogicalPlan δ} {condition : BoundExpr}
    {reached : List TableKey}
    (h : plan.keyedFrom keyColumnIds condition.conjunctsOf reached = true) :
    ∃ table ∈ plan.planTables, Rejects (some condition) table := by
  obtain ⟨source, hsource, h⟩ := (Option.any_eq_true _ _).mp h
  obtain ⟨hne, hall⟩ := Bool.and_eq_true_iff.mp h
  refine ⟨source.table, mem_planTables_of_scanned hsource, condition, rfl, ?_⟩
  obtain ⟨key, hkey⟩ : ∃ key, key ∈ keyColumnIds source.table := by
    apply exists_mem_of_ne_nil _
    intro heq
    simp [heq] at hne
  obtain ⟨conjunct, hmem, hequates⟩ := any_eq_true.mp (all_eq_true.mp hall key hkey)
  refine ⟨conjunct, hmem, ?_⟩
  unfold equatesKey at hequates
  split at hequates
  · simp only [any_cons, any_nil, Bool.or_false, Bool.or_eq_true, Bool.and_eq_true,
      Bool.not_eq_true', beq_iff_eq] at hequates
    rcases hequates with ⟨⟨⟨hown, hother⟩, hkey⟩, -⟩ | ⟨⟨⟨hown, hother⟩, hkey⟩, -⟩
    · simp [nullRejectedTables, BinaryOp.isComparison, nullPropagatingTables, hown, hkey]
    · simp [nullRejectedTables, BinaryOp.isComparison, nullPropagatingTables, hown, hkey]
  · simp at hequates

variable {joins : List (SpineJoin δ)} {target : ℕ}

theorem reachBridge_spec {readOutside : List TableKey} (index : ℕ) (reached : List TableKey) :
    (reachBridge keyColumnIds joins target readOutside index reached).1 ≤ index ∧
    ∀ i link, (reachBridge keyColumnIds joins target readOutside index reached).1 ≤ i → i < index →
      joins[i]? = some link → link.kind = .left ∧ ∃ table ∈ link.tables,
        ∃ later ∈ (joins.take (target + 1)).drop (i + 1), Rejects later.condition table := by
  fun_induction reachBridge keyColumnIds joins target readOutside index reached with
  | case1 | case2 | case3 => exact ⟨Nat.le_refl _, fun i link hle hlt => absurd hlt (by omega)⟩
  | case4 index reached link hlink hpass ih =>
    simp only [Bool.or_eq_true, not_or, decide_eq_true_eq, not_not, Bool.not_eq_true,
      Bool.not_eq_false'] at hpass
    obtain ⟨⟨hkind, -⟩, hkeyed⟩ := hpass
    obtain ⟨hle, hspec⟩ := ih
    refine ⟨Nat.le_succ_of_le hle, fun i other hlow hlt hother => ?_⟩
    rcases Nat.lt_succ_iff_lt_or_eq.mp hlt with hlt | rfl
    · exact hspec i other hlow hlt hother
    · obtain rfl := Option.some.inj (hlink.symm.trans hother)
      obtain ⟨later, hlater, hany⟩ := any_eq_true.mp hkeyed
      obtain ⟨condition, hcondition, hkeyed⟩ := (Option.any_eq_true _ _).mp hany
      obtain ⟨table, htable, hrejects⟩ := rejects_of_keyedFrom hkeyed
      exact ⟨hkind, table, htable, later, hlater, hcondition ▸ hrejects⟩

theorem bridged_of_forall {target : SpineJoin δ} : ∀ {links : List (SpineJoin δ)},
    (∀ i link, links[i]? = some link → ∃ table ∈ link.tables,
      ∃ later ∈ (links ++ [target]).drop (i + 1), Rejects later.condition table) →
    Bridged target links
  | [], _ => trivial
  | link :: _, h =>
    ⟨h 0 link rfl, bridged_of_forall fun i other hother => h (i + 1) other hother⟩

/-- A chain of joins with a bridge that can be nested. -/
structure Admits (groupBy : List BoundExpr) (aggregates : List BoundAggregate)
    (links : List (SpineJoin δ)) (target : SpineJoin δ) (later : List (SpineJoin δ)) : Prop where
  kinds : ∀ link ∈ links ++ [target], link.kind = .left
  laterKinds : ∀ link ∈ later, link.kind = .left
  bridged : Bridged target links
  plain : ∀ link ∈ links ++ [target], ∀ expr ∈ link.condition, expr.containsSubquery = false
  ignores : aggregates.all ignoresRepeats = true
  nulls : ∀ aggregate ∈ aggregates, ∀ expr ∈ aggregate.expr,
    expr.nullWhen (nulledBy target.tables later) = true
  grouped : ∀ link ∈ (links ++ [target]) ++ later, ∀ table ∈ link.tables, ∀ expr ∈ groupBy,
    table ∉ expr.referencedTables

theorem drop_eq_append {α : Type*} (l : List α) {i j : ℕ} (h : i ≤ j) :
    l.drop i = (l.take j).drop i ++ l.drop j := by
  conv_lhs => rw [← take_append_drop j l, drop_append]
  rcases Nat.le_total i l.length with hi | hi
  · rw [length_take, Nat.sub_eq_zero_of_le (by omega), drop_zero]
  · rw [drop_eq_nil_of_le (Nat.le_trans hi h), drop_nil]

variable {aggregates : List BoundAggregate} {groupBy : List BoundExpr} {bridge : ℕ}

theorem admits_of_bridgeTo {place : ℕ} (hignores : aggregates.all ignoresRepeats = true)
    (hkinds : ∀ link ∈ joins.drop place, link.kind = .left)
    (h : bridgeTo keyColumnIds joins (groupBy.flatMap referencedTables) aggregates
      place = some (bridge, target)) :
    bridge ≤ target ∧ ∃ links targetJoin,
      (joins.take (target + 1)).drop bridge = links ++ [targetJoin] ∧
      Admits groupBy aggregates links targetJoin (joins.drop (target + 1)) := by
  simp only [bridgeTo, Option.bind_eq_bind, Option.bind_eq_some_iff] at h
  obtain ⟨targetJoin, htarget, _, hnulls, _, -, _, hgrouped, _, hplain, _, -, _, -, hpair⟩ := h
  rw [Option.guard_eq_some'] at hnulls hgrouped hplain
  generalize hreach : reachBridge keyColumnIds joins place _ place targetJoin.tables = found
    at hgrouped hplain hpair
  obtain ⟨hle, hspec⟩ := hreach ▸ reachBridge_spec place targetJoin.tables
  simp only [Option.pure_def, Option.some.injEq, Prod.mk.injEq] at hpair
  obtain ⟨rfl, rfl⟩ := hpair
  have hlength : place < joins.length := (List.getElem?_eq_some_iff.mp htarget).1
  -- the joins of the nest, from the bridge to the target
  have hnest : (joins.take (place + 1)).drop found.1 =
      (joins.take place).drop found.1 ++ [targetJoin] := by
    rw [take_add_one, htarget, drop_append_of_le_length (by simp; omega)]
    rfl
  refine ⟨hle, (joins.take place).drop found.1, targetJoin, hnest, ?_⟩
  have hmem : ∀ link ∈ (joins.take place).drop found.1, ∃ i, found.1 ≤ i ∧ i < place ∧
      joins[i]? = some link := by
    intro link hlink
    obtain ⟨i, hi, rfl⟩ := mem_iff_getElem.mp hlink
    rw [length_drop, length_take] at hi
    exact ⟨found.1 + i, by omega, by omega, by simp⟩
  constructor
  · intro link hlink
    rcases mem_append.mp hlink with hlink | hlink
    · obtain ⟨i, hlow, hlt, hjoin⟩ := hmem link hlink
      exact (hspec i link hlow hlt hjoin).1
    · apply hkinds link
      rw [mem_singleton.mp hlink, drop_eq_getElem_cons hlength]
      exact List.mem_cons.mpr (.inl (List.getElem?_eq_some_iff.mp htarget).2.symm)
  · intro link hlink
    apply hkinds link
    rw [drop_eq_getElem_cons hlength]
    exact mem_cons_of_mem _ hlink
  · apply bridged_of_forall
    intro i link hlink
    have hi := (List.getElem?_eq_some_iff.mp hlink).1
    rw [length_drop, length_take] at hi
    have hjoin : joins[found.1 + i]? = some link := by
      rwa [getElem?_drop, getElem?_take_of_lt (by omega)] at hlink
    rw [← hnest, drop_drop]
    exact (hspec (found.1 + i) link (by omega) (by omega) hjoin).2
  · intro link hlink expr hexpr
    rw [hnest, Bool.not_eq_true', any_eq_false] at hplain
    have hall := hplain link hlink
    rw [hexpr, Option.all_some, Bool.or_eq_true, not_or] at hall
    exact Bool.eq_false_iff.mpr hall.1
  · exact hignores
  · intro aggregate haggregate expr hexpr
    have hany := all_eq_true.mp hnulls aggregate haggregate
    rw [Option.mem_def] at hexpr
    simpa [hexpr] using hany
  · intro link hlink table htable expr hexpr hread
    rw [← hnest, ← drop_eq_append joins (Nat.le_succ_of_le hle)] at hlink
    rw [Bool.not_eq_true', any_eq_false] at hgrouped
    refine hgrouped link hlink (any_eq_true.mpr ⟨table, htable, ?_⟩)
    exact decide_eq_true (mem_flatMap.mpr ⟨expr, hexpr, hread⟩)

theorem admits_of_outerJoinBridge {input : LogicalPlan δ}
    (h : input.outerJoinBridge keyColumnIds groupBy aggregates = some (bridge, target)) :
    bridge ≤ target ∧ ∃ links targetJoin,
      (input.joinSpine.2.take (target + 1)).drop bridge = links ++ [targetJoin] ∧
      Admits groupBy aggregates links targetJoin (input.joinSpine.2.drop (target + 1)) := by
  unfold outerJoinBridge at h
  split at h
  · simp at h
  · rename_i hadmitted
    simp only [Bool.or_eq_true, Bool.not_eq_true', not_or, Bool.not_eq_false] at hadmitted
    obtain ⟨place, hplace, hto⟩ := exists_of_findSome?_eq_some h
    refine admits_of_bridgeTo hadmitted.2 (fun link hlink => ?_) hto
    have hkinds := mem_takeWhile_imp hplace
    exact of_decide_eq_true (all_eq_true.mp hkinds link hlink)

section Groups

variable {ev : Evaluation} {ops : Operators δ} {db : Database} {groupBy : List BoundExpr}
  {aggregates : List BoundAggregate} {links later : List (SpineJoin δ)} {target : SpineJoin δ}
  {seen : List TableKey} {row : Row}

variable (h : Admits groupBy aggregates links target later)

include h

theorem Admits.keysOf (hsub : ev.SubqueriesScoped) {extra : Row}
    (hextra : extra.Within (((links ++ [target]) ++ later).flatMap SpineJoin.tables)) :
    keysOf ev groupBy (row ++ extra) = keysOf ev groupBy row := by
  apply map_congr_left
  intro expr hexpr
  apply eval_append hsub hextra
  intro table htable
  obtain ⟨link, hlink, htable⟩ := mem_flatMap.mp htable
  exact h.grouped link hlink table htable expr hexpr

theorem Admits.block_chain (hsub : ev.SubqueriesScoped)
    (hspaced : Spaced seen ((links ++ [target]) ++ later)) :
    Aggregation.Block ev groupBy row
      (extendAll ev ops db ((links ++ [target]) ++ later) row) := by
  constructor
  · exact extendAll_ne_nil (forall_mem_append.mpr ⟨h.kinds, h.laterKinds⟩) row
  · intro row' hrow'
    obtain ⟨extra, rfl, hextra⟩ := exists_of_extendAll hspaced.shows hrow'
    exact h.keysOf hsub hextra

variable {nested : LogicalPlan δ} {nest : Nest δ}

theorem Admits.block_nest (hsub : ev.SubqueriesScoped)
    (hspaced : Spaced seen ((links ++ [target]) ++ later))
    (hnest : nest.Holds ev ops db seen (links ++ [target])) (hnested : nest.nested = some nested) :
    Aggregation.Block ev groupBy row ((joinOne ev .left (reduce andExpr nest.outer)
      (nested.rows ev ops db) (nullRow nested.layout) row).flatMap (extendAll ev ops db later)) := by
  constructor
  · refine flatMap_ne_nil ?_ (extendAll_ne_nil h.laterKinds)
    unfold joinOne
    dsimp only
    split
    · simp
    · rename_i hfound
      simpa using hfound
  · intro row' hrow'
    obtain ⟨middle, hmiddle, hrow'⟩ := mem_flatMap.mp hrow'
    obtain ⟨second, rfl, hsecond⟩ :=
      exists_of_extendAll (fun link hlink => hspaced.shows link (by simp [hlink])) hrow'
    obtain ⟨first, rfl, hfirst⟩ : ∃ extra, middle = row ++ extra ∧
        extra.Within ((links ++ [target]).flatMap SpineJoin.tables) := by
      rw [← hnest.reached]
      rcases exists_of_mem_joinOne hmiddle with ⟨hkind, -⟩ | ⟨-, other, hother, rfl⟩
      · simp at hkind
      · refine ⟨other, rfl, ?_⟩
        rcases hother with hother | rfl
        · exact hnest.within other (by simpa [Nest.rows, hnested] using hother)
        · exact hnest.within_nullRow hnested
    rw [append_assoc]
    apply h.keysOf hsub
    rw [flatMap_append]
    exact hfirst.append hsecond

variable {aggregate : BoundAggregate} {expr : BoundExpr}

theorem Admits.presentOf_eq_nil (hif : ev.NullResults) (hspaced : Spaced seen later)
    (hrow : row.Within seen) (htarget : target.tables ⊆ seen)
    (hnull : ∀ table ∈ target.tables, row.NullOn table) (haggregate : aggregate ∈ aggregates)
    (hexpr : expr ∈ aggregate.expr) :
    Aggregation.presentOf ev expr (extendAll ev ops db later row) = [] := by
  apply Aggregation.presentOf_eq_nil
  intro row' hrow'
  refine eval_of_nullWhen hif ?_ expr (h.nulls aggregate haggregate expr hexpr)
  exact nullOn_nulledBy hspaced h.laterKinds hrow htarget hnull hrow'

variable (hif : ev.NullResults) (hspaced : Spaced seen ((links ++ [target]) ++ later))
  (hrow : row.Within seen)

include hif hspaced hrow

theorem Admits.presentOf_chain (haggregate : aggregate ∈ aggregates)
    (hexpr : expr ∈ aggregate.expr) :
    presentOf ev expr (extendAll ev ops db ((links ++ [target]) ++ later) row) =
      (matchAll ev ops db (links ++ [target]) row).flatMap fun row =>
        presentOf ev expr (extendAll ev ops db later row) := by
  obtain ⟨hnest, hlater⟩ := spaced_append.mp hspaced
  rw [extendAll_append, presentOf_flatMap]
  apply flatMap_extendAll hnest h.kinds h.bridged hrow
  intro row' hrow' hnull
  obtain ⟨extra, rfl, hextra⟩ := exists_of_extendAll hnest.shows hrow'
  exact h.presentOf_eq_nil hif hlater (hrow.append hextra) (by simp) hnull haggregate hexpr

theorem Admits.presentOf_nest (hnest : nest.Holds ev ops db seen (links ++ [target]))
    (hnested : nest.nested = some nested) (haggregate : aggregate ∈ aggregates)
    (hexpr : expr ∈ aggregate.expr) :
    presentOf ev expr ((joinOne ev .left (reduce andExpr nest.outer)
        (nested.rows ev ops db) (nullRow nested.layout) row).flatMap (extendAll ev ops db later)) =
      (matchAll ev ops db (links ++ [target]) row).flatMap fun row =>
        presentOf ev expr (extendAll ev ops db later row) := by
  obtain ⟨hchain, hlater⟩ := spaced_append.mp hspaced
  rw [presentOf_flatMap, hnest.joinOne hnested hrow]
  split
  · rename_i hempty
    rw [isEmpty_iff.mp hempty, flatMap_singleton]
    have habsent := hnest.within_nullRow hnested
    rw [hnest.reached] at habsent
    refine h.presentOf_eq_nil hif hlater (hrow.append habsent) (by simp) ?_ haggregate hexpr
    intro table htable
    refine Row.nullOn_append.mpr ⟨hrow.nullOn fun hmem => ?_, nullOn_nullRow _ table⟩
    exact hchain.not_mem hmem target (by simp) htable
  · rfl

end Groups

def people : TableKey := ⟨1, 1, "people"⟩

def visits : TableKey := ⟨1, 2, "visits"⟩

def notes : TableKey := ⟨1, 3, "notes"⟩

def labels : TableKey := ⟨1, 4, "labels"⟩

def tableScan (table : TableKey) : LogicalPlan Unit :=
  .scan ⟨table, [1, 2, 3], false, [1, 2, 3], [], none, false⟩

def tableColumn (table : TableKey) (id : ℕ) : BoundExpr :=
  .column ⟨some .int64, true⟩ ⟨⟨table, id⟩, false⟩

def firstKey (_ : TableKey) : List ℕ := [1]

def visitsDatabase : Database
  | 1, 1 => [fun _ => .int64 1]
  | 1, 2 => [fun _ => .int64 1, fun id => if id = 1 then .int64 2 else .int64 1]
  | 1, 3 => [fun _ => .int64 1]
  | 1, 4 => [fun _ => .int64 5]
  | _, _ => []

def visitsOf : BoundExpr := sampleEquals (tableColumn visits 2) (tableColumn people 1)

def notesOf : BoundExpr :=
  andExpr (sampleEquals (tableColumn notes 2) (tableColumn visits 1))
    (sampleEquals (tableColumn notes 3) (tableColumn people 1))

def notesPlan (onVisit : BoundExpr) : LogicalPlan Unit :=
  .join (.join (tableScan people) (tableScan visits) .left (some onVisit)) (tableScan notes) .left
    (some notesOf)

def maximumOf (table : TableKey) : BoundAggregate :=
  ⟨.maximum, some (tableColumn table 1), false, some .int64, true, none, []⟩

def integerAggregation : Aggregation (List Value) ℤ where
  groupKey _ values := values
  distinctKey value := [value]
  less
    | _, .int64 v, .int64 w => v < w
    | _, _, _ => false
  number
    | .int64 v => v.toInt
    | .decimalAverage v => v.units
    | _ => 0
  total _ sum := .decimalAverage ⟨"", sum, 1, 0⟩
  count n := .decimalAverage ⟨"", n, 1, 0⟩
  mean _ sum n := .decimalAverage ⟨"", sum / n, 1, 4⟩
  bits _ := 0
  other _ _ := .null

theorem shows_tableScan (table : TableKey) : (tableScan table).Shows := by
  simp [Shows, tableScan, Label.Within]

theorem chained_notesPlan : (notesPlan visitsOf).Chained := by
  have hvisits : (tableScan people).Apart (tableScan visits) :=
    ⟨shows_tableScan _, shows_tableScan _, by
      simp [tableScan, people, visits]⟩
  have hnotes : (LogicalPlan.join (tableScan people) (tableScan visits) .left
      (some visitsOf)).Apart (tableScan notes) :=
    ⟨by simp [Shows, tableScan, Label.Within], shows_tableScan _, by
      simp [tableScan, people, visits, notes]⟩
  refine ⟨⟨trivial, hvisits, ?_⟩, hnotes, ?_⟩
  · rintro expr ⟨⟩
    exact ⟨rfl, by simp [visitsOf, sampleEquals, tableColumn, Label.Within, tableScan]⟩
  · rintro expr ⟨⟩
    exact ⟨rfl, by simp [notesOf, andExpr, joinExpr, sampleEquals, tableColumn, Label.Within,
      tableScan]⟩

/-- Labels joined where a note is missing, on a condition that seems to need one: a negated
membership in an empty list. -/
def unlistedLabels : LogicalPlan Unit :=
  .join (notesPlan visitsOf) (tableScan labels) .left (some (andExpr
    (.scalar ⟨some .boolean, true⟩ (.inList true) (.cons (tableColumn notes 1) .nil))
    (.isNull ⟨some .boolean, false⟩ (tableColumn notes 1) false)))

end LogicalPlan

end Pintail.Exec
