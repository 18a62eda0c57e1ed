import Pintail.Binder.Folded
import Pintail.Binder.PreAggregate

/-! # Aggregates of partial aggregates

Over values in blocks, a count is the sum of the blocks' counts, a sum the sum of their sums, and
an extreme the extreme of their extremes, when sums are exact and extremes are taken in an order in
which only a value itself is neither before nor after it.
-/

namespace Pintail.Binder

open Exec List Aggregation

structure StrictTotal (before : Value → Value → Bool) : Prop where
  irrefl : ∀ v, before v v = false
  trans : ∀ u v w, before u v = true → before v w = true → before u w = true
  total : ∀ v w, before v w = false → before w v = false → v = w

def IsFirst (before : Value → Value → Bool) (values : List Value) (value : Value) : Prop :=
  value ∈ values ∧ ∀ other ∈ values, before other value = false

section Extremes

variable {before : Value → Value → Bool}

theorem StrictTotal.flip (h : StrictTotal before) : StrictTotal fun v w => before w v where
  irrefl := h.irrefl
  trans u v w huv hvw := h.trans w v u hvw huv
  total v w hvw hwv := h.total v w hwv hvw

theorem StrictTotal.not_before_trans (h : StrictTotal before) {u v w : Value}
    (huv : before u v = false) (hvw : before v w = false) : before u w = false := by
  by_contra huw
  have huw : before u w = true := by simpa using huw
  cases hvu : before v u with
  | true =>
    have := h.trans v u w hvu huw
    simp [hvw] at this
  | false =>
    obtain rfl := h.total u v huv hvu
    simp [hvw] at huw

theorem isFirst_foldl (h : StrictTotal before) (rest : List Value) (best : Value) :
    IsFirst before (best :: rest)
      (rest.foldl (fun best value => if before value best then value else best) best) := by
  induction rest generalizing best with
  | nil => exact ⟨mem_singleton_self _, by simp [h.irrefl]⟩
  | cons value rest ih =>
    rw [foldl_cons]
    obtain ⟨better, hbetter, hmember, hbest, hvalue⟩ : ∃ better,
        (if before value best then value else best) = better ∧
          better ∈ [best, value] ∧ before best better = false ∧ before value better = false := by
      by_cases hbefore : before value best = true
      · refine ⟨value, if_pos hbefore, by simp, ?_, h.irrefl _⟩
        by_contra hafter
        have := h.trans _ _ _ hbefore (Bool.eq_true_of_not_eq_false hafter)
        simp [h.irrefl] at this
      · exact ⟨best, if_neg hbefore, by simp, h.irrefl _, by simpa using hbefore⟩
    rw [hbetter]
    obtain ⟨hmem, hfirst⟩ := ih better
    constructor
    · rcases mem_cons.mp hmem with heq | hmem
      · rw [heq]
        exact mem_cons.mpr ((mem_cons.mp hmember).imp_right fun h => by simp_all)
      · exact mem_cons_of_mem _ (mem_cons_of_mem _ hmem)
    · have hhead := hfirst _ mem_cons_self
      intro other hother
      rcases mem_cons.mp hother with rfl | hother
      · exact h.not_before_trans hbest hhead
      · rcases mem_cons.mp hother with rfl | hother
        · exact h.not_before_trans hvalue hhead
        · exact hfirst other (mem_cons_of_mem _ hother)

variable {values : List Value} {value : Value}

theorem isFirst_extreme (h : StrictTotal before) (hne : values ≠ []) :
    IsFirst before values (extreme before values) := by
  obtain ⟨first, rest, rfl⟩ := exists_cons_of_ne_nil hne
  exact isFirst_foldl h rest first

theorem IsFirst.eq_extreme (h : StrictTotal before)
    (hvalue : IsFirst before values value) : value = extreme before values := by
  have hextreme := isFirst_extreme h (ne_nil_of_mem hvalue.1)
  exact h.total _ _ (hextreme.2 _ hvalue.1) (hvalue.2 _ hextreme.1)

def present (values : List Value) : List Value := values.filter (· ≠ .null)

theorem mem_present : value ∈ present values ↔ value ∈ values ∧ value ≠ .null := by
  simp [present]

theorem extreme_of_present_nil (h : present values = []) :
    extreme before (present values) = .null := by
  rw [h, extreme]

theorem extreme_blocks (h : StrictTotal before) {blocks : List (List Value)}
    (hmem : ∀ v, v ∈ values ↔ ∃ block ∈ blocks, v ∈ block) :
    extreme before (present values) = extreme before
      (present (blocks.map fun block => extreme before (present block))) := by
  by_cases hnone : present values = []
  · -- every block is empty, and so is the list of their extremes
    have hblocks : present (blocks.map fun block =>
        extreme before (present block)) = [] := by
      apply eq_nil_iff_forall_not_mem.mpr
      intro v hv
      obtain ⟨hv, hnull⟩ := mem_present.mp hv
      obtain ⟨block, hblock, rfl⟩ := mem_map.mp hv
      refine hnull (extreme_of_present_nil ?_)
      apply eq_nil_iff_forall_not_mem.mpr
      intro w hw
      obtain ⟨hw, hw'⟩ := mem_present.mp hw
      have : w ∈ present values := mem_present.mpr ⟨(hmem w).mpr ⟨block, hblock, hw⟩, hw'⟩
      simp [hnone] at this
    rw [hnone, hblocks]
  · obtain ⟨hleast, hfirst⟩ := isFirst_extreme h hnone
    obtain ⟨hvalue, hnull⟩ := mem_present.mp hleast
    obtain ⟨block, hblock, hin⟩ := (hmem _).mp hvalue
    -- the least value is the least of its block
    have hinner : IsFirst before (present block)
        (extreme before (present values)) := by
      refine ⟨mem_present.mpr ⟨hin, hnull⟩, fun other hother => hfirst _ ?_⟩
      obtain ⟨hother, hother'⟩ := mem_present.mp hother
      exact mem_present.mpr ⟨(hmem _).mpr ⟨block, hblock, hother⟩, hother'⟩
    apply IsFirst.eq_extreme h
    constructor
    · refine mem_present.mpr ⟨mem_map.mpr ⟨block, hblock, ?_⟩, hnull⟩
      exact (hinner.eq_extreme h).symm
    · intro other hother
      obtain ⟨hother, hother'⟩ := mem_present.mp hother
      obtain ⟨inner, hinner, rfl⟩ := mem_map.mp hother
      have hne : present inner ≠ [] := fun hnil => hother' (extreme_of_present_nil hnil)
      obtain ⟨hextreme, hextreme'⟩ := mem_present.mp (isFirst_extreme h hne).1
      exact hfirst _ (mem_present.mpr ⟨(hmem _).mpr ⟨inner, hinner, hextreme⟩, hextreme'⟩)

end Extremes

section Summaries

variable {κ ν : Type} [AddCommMonoid ν] {agg : Aggregation κ ν}

/-- The total of integers, a whole decimal, is never null and reads as the sum it is of. Counts,
which are unsigned integers, add up to a count. Extremes of the types compared by value are taken in
an order that tells any two values apart. -/
structure Exact (agg : Aggregation κ ν) : Prop where
  total_ne_null : ∀ precision sum, agg.total (some (.decimal precision 0)) sum ≠ .null
  number_total : ∀ precision sum,
    agg.number (agg.total (some (.decimal precision 0)) sum) = sum
  count_ne_null : ∀ n, agg.count n ≠ .null
  total_counts : ∀ counts : List ℕ,
    agg.total (some .uint64) ((counts.map fun n => agg.number (agg.count n)).sum) =
      agg.count counts.sum
  order : ∀ type, byValue type = true → StrictTotal (agg.less type)

theorem present_flatten (blocks : List (List Value)) :
    present blocks.flatten = blocks.flatMap present := by
  simp only [present, filter_flatten]
  rfl

variable {values : List Value} {blocks : List (List Value)}

theorem present_eq_self (h : ∀ v ∈ values, v ≠ .null) : present values = values :=
  filter_eq_self.mpr fun v hv => by simp [h v hv]

theorem length_present_flatten (blocks : List (List Value)) :
    (present blocks.flatten).length = (blocks.map fun block => (present block).length).sum := by
  rw [present_flatten, length_flatMap]

def subtotal (agg : Aggregation κ ν) (type : Option DataType) (values : List Value) : Value :=
  if (present values).isEmpty then .null else agg.total type ((present values).map agg.number).sum

variable {type : Option DataType} {precision : UInt8}

theorem subtotal_eq_null (hexact : Exact agg) (htype : type = some (.decimal precision 0)) :
    subtotal agg type values = .null ↔ present values = [] := by
  subst htype
  by_cases h : present values = []
  · simp [subtotal, h]
  · simp [subtotal, hexact.total_ne_null]

theorem sum_subtotals (hexact : Exact agg) (htype : type = some (.decimal precision 0))
    (blocks : List (List Value)) :
    ((present (blocks.map (subtotal agg type))).map agg.number).sum =
      ((present blocks.flatten).map agg.number).sum := by
  induction blocks with
  | nil => rfl
  | cons block blocks ih =>
    have hright : present (block ++ blocks.flatten) = present block ++ present blocks.flatten :=
      filter_append ..
    rw [flatten_cons, map_cons, hright, map_append, sum_append, ← ih]
    by_cases hnil : present block = []
    · have hnull := (subtotal_eq_null hexact htype).mpr hnil
      rw [hnull, hnil, map_nil, sum_nil, zero_add]
      rfl
    · have hsome : subtotal agg type block =
          agg.total type ((present block).map agg.number).sum :=
        if_neg (by simpa using hnil)
      have hcons : ∀ rest, present (subtotal agg type block :: rest) =
          subtotal agg type block :: present rest := fun rest =>
        filter_cons_of_pos (by simpa using mt (subtotal_eq_null hexact htype).mp hnil)
      rw [hcons, map_cons, sum_cons, hsome, htype, hexact.number_total]

theorem subtotal_blocks (hexact : Exact agg) (htype : type = some (.decimal precision 0))
    (blocks : List (List Value)) :
    subtotal agg type (blocks.map (subtotal agg type)) = subtotal agg type blocks.flatten := by
  have hempty : (present (blocks.map (subtotal agg type))).isEmpty =
      (present blocks.flatten).isEmpty := by
    rw [Bool.eq_iff_iff, List.isEmpty_iff, present_flatten, eq_nil_iff_forall_not_mem]
    simp [mem_present, subtotal_eq_null hexact htype]
  rw [subtotal, hempty, sum_subtotals hexact htype]
  rfl

theorem subtotal_counts (hexact : Exact agg) (hne : blocks ≠ []) :
    subtotal agg (some .uint64) (blocks.map fun block => agg.count (present block).length) =
      agg.count (present blocks.flatten).length := by
  have hpresent : present (blocks.map fun block => agg.count (present block).length) =
      blocks.map fun block => agg.count (present block).length := by
    apply present_eq_self
    intro v hv
    obtain ⟨block, -, rfl⟩ := mem_map.mp hv
    exact hexact.count_ne_null _
  have hsum := hexact.total_counts (blocks.map fun block => (present block).length)
  rw [map_map] at hsum
  rw [subtotal, hpresent, if_neg (by simpa using hne), map_map, length_present_flatten]
  exact hsum

variable [DecidableEq κ] {aggregate : BoundAggregate}

theorem foldable_cases (h : foldable aggregate = true) :
    aggregate.distinct = false ∧ (aggregate.function = .count ∨
      aggregate.function = .sum ∧ (∃ digits,
        (aggregate.expr.bind BoundExpr.dataType).bind summedIntegerDigits = some digits) ∨
      (aggregate.function = .minimum ∨ aggregate.function = .maximum) ∧
        byValue (aggregate.expr.bind BoundExpr.dataType) = true) := by
  unfold foldable at h
  simp only [Bool.and_eq_true, Bool.not_eq_true', Bool.or_eq_false_iff] at h
  obtain ⟨⟨⟨hdistinct, -⟩, -⟩, h⟩ := h
  refine ⟨hdistinct, ?_⟩
  cases hfunction : aggregate.function with
  | sum =>
    -- a decimal is stored as a text, so that only integers are summed
    rw [hfunction, Bool.and_eq_true] at h
    refine .inr (.inl ⟨rfl, ?_⟩)
    cases hinput : aggregate.expr.bind BoundExpr.dataType with
    | none => simp [hinput] at h
    | some type => cases type <;> simp_all [DataType.storageType, summedIntegerDigits]
  | _ => simp_all

theorem summary_refold_self (column : BoundColumn) (h : aggregate.function = .sum ∨
    aggregate.function = .minimum ∨ aggregate.function = .maximum) :
    agg.summary (refold aggregate column) = agg.summary aggregate := by
  funext values
  rcases h with h | h | h <;> simp [summary, refold, h]

theorem summary_refold (hexact : Exact agg) (hfold : foldable aggregate = true)
    (htyped : Typed aggregate) (column : BoundColumn)
    (hperm : values.Perm blocks.flatten) (hne : blocks ≠ []) :
    agg.summary (refold aggregate column) (blocks.map (agg.summary aggregate)) =
      agg.summary aggregate values := by
  have hpresent : (present values).Perm (present blocks.flatten) := hperm.filter _
  have hmem : ∀ v, v ∈ values ↔ ∃ block ∈ blocks, v ∈ block := by
    intro v
    rw [hperm.mem_iff, mem_flatten]
  obtain ⟨hdistinct, hfunction | ⟨hfunction, digits, hdigits⟩ | ⟨hfunction, hvalue⟩⟩ :=
    foldable_cases hfold
  · have hsummary : agg.summary aggregate = fun block => agg.count (present block).length := by
      funext block
      simp [summary, hfunction, hdistinct, present]
    have hrefold : agg.summary (refold aggregate column) = subtotal agg (some .uint64) := by
      funext block
      simp [summary, refold, hfunction, hdistinct, present, subtotal, htyped.count hfunction]
    rw [hsummary, hrefold, subtotal_counts hexact hne, ← hpresent.length_eq]
  · have hsummary : agg.summary aggregate = subtotal agg aggregate.dataType := by
      funext block
      simp [summary, hfunction, hdistinct, present, subtotal]
    rw [summary_refold_self column (.inl hfunction), hsummary,
      subtotal_blocks hexact (htyped.sum hfunction digits hdigits), subtotal, subtotal,
      hpresent.isEmpty_eq, (hpresent.map _).sum_eq]
  · have horder := hexact.order _ hvalue
    rw [← htyped.extreme hfunction] at horder
    obtain ⟨before, hbefore, hsummary⟩ : ∃ before, StrictTotal before ∧
        agg.summary aggregate = fun block => extreme before (present block) := by
      rcases hfunction with hfunction | hfunction
      · refine ⟨_, horder, funext fun block => ?_⟩
        simp [summary, hfunction, hdistinct, present]
      · refine ⟨_, horder.flip, funext fun block => ?_⟩
        simp [summary, hfunction, hdistinct, present]
    rw [summary_refold_self column (.inr hfunction), hsummary]
    exact (extreme_blocks hbefore hmem).symm

end Summaries

end Pintail.Binder
