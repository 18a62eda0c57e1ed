import Mathlib.Data.List.TakeDrop
import Mathlib.Data.List.TakeWhile
import Mathlib.Order.MinMax
import Pintail.Versioned.Latest

/-! # Merging sorted streams

Streams sorted by key are merged by taking, at each step, every record of the least key at a head
and keeping the newest. The result holds one record for each key, in key order, and shows the same
newest records as the streams read one after another.
-/

namespace Pintail.Versioned

open List

variable {ρ κ ν : Type} [LinearOrder κ] [Versioned ρ κ ν]

def minimumHead (streams : List (List ρ)) : Option κ :=
  (streams.filterMap fun stream => stream.head?.map key).min?

def advance (streams : List (List ρ)) (minimum : κ) : List (List ρ) :=
  streams.map fun stream => stream.dropWhile fun r => key r = minimum

def Sorted (stream : List ρ) : Prop := stream.Pairwise fun r r' => key r ≤ key r'

instance (stream : List ρ) : Decidable (Sorted stream) := by
  unfold Sorted
  infer_instance

section Streams

variable {streams : List (List ρ)} {stream : List ρ} {m : κ} {r : ρ}

theorem length_advance_le (streams : List (List ρ)) (m : κ) :
    (advance streams m).flatten.length ≤ streams.flatten.length := by
  unfold advance
  induction streams with
  | nil => simp
  | cons s streams ih =>
    have := (dropWhile_sublist (l := s) fun r => decide (key r = m)).length_le
    simp only [map_cons, flatten_cons, length_append]
    omega

theorem minimumHead_mem (h : minimumHead streams = some m) :
    ∃ r rest, r :: rest ∈ streams ∧ key r = m := by
  obtain ⟨s, hs, hk⟩ := mem_filterMap.mp (min?_mem h)
  cases s with
  | nil => cases hk
  | cons r rest => exact ⟨r, rest, hs, Option.some.inj hk⟩

theorem length_advance_lt (h : minimumHead streams = some m) :
    (advance streams m).flatten.length < streams.flatten.length := by
  obtain ⟨r, rest, hs, hk⟩ := minimumHead_mem h
  obtain ⟨before, after, rfl⟩ := append_of_mem hs
  have hb := length_advance_le before m
  have ha := length_advance_le after m
  have hr := (dropWhile_sublist (l := rest) fun r => decide (key r = m)).length_le
  simp only [advance, map_append, map_cons, flatten_append, flatten_cons,
    length_append, dropWhile_cons, hk, decide_true, if_true, length_cons] at hb ha ⊢
  omega

theorem minimumHead_eq_none : minimumHead streams = none ↔ ∀ s ∈ streams, s = [] := by
  rw [minimumHead, min?_eq_none_iff, filterMap_eq_nil_iff]
  apply forall₂_congr
  intro s _
  cases s <;> simp

theorem minimumHead_le (hs : ∀ s ∈ streams, Sorted s) (h : minimumHead streams = some m)
    (hmem : stream ∈ streams) (hr : r ∈ stream) : m ≤ key r := by
  obtain ⟨-, hle⟩ := min?_eq_some_iff.mp h
  cases stream with
  | nil => cases hr
  | cons a rest =>
    have ha : m ≤ key a := hle _ (mem_filterMap.mpr ⟨a :: rest, hmem, rfl⟩)
    rcases mem_cons.mp hr with rfl | hr
    · exact ha
    · exact ha.trans (rel_of_pairwise_cons (hs _ hmem) hr)

theorem lt_of_mem_dropWhile (hs : Sorted stream) (hle : ∀ r ∈ stream, m ≤ key r)
    (hr : r ∈ stream.dropWhile fun r => key r = m) : m < key r := by
  induction stream with
  | nil => cases hr
  | cons a rest ih =>
    obtain ⟨ha, hs⟩ := pairwise_cons.mp hs
    rw [forall_mem_cons] at hle
    rw [dropWhile_cons] at hr
    split_ifs at hr with hk
    · exact ih hs hle.2 hr
    · have hlt : m < key a := lt_of_le_of_ne hle.1 fun he => hk (by simp [he])
      rcases mem_cons.mp hr with rfl | hr
      · exact hlt
      · exact hlt.trans_le (ha r hr)

theorem filter_takeWhile (hs : Sorted stream) (hle : ∀ r ∈ stream, m ≤ key r) :
    ((stream.takeWhile fun r => key r = m).filter fun r => key r = m) =
      stream.filter fun r => key r = m := by
  conv_rhs => rw [← takeWhile_append_dropWhile (p := fun r => decide (key r = m)) (l := stream)]
  rw [filter_append, self_eq_append_right, filter_eq_nil_iff]
  intro r hr
  simpa using (lt_of_mem_dropWhile hs hle hr).ne'

theorem lt_of_mem_advance (hs : ∀ s ∈ streams, Sorted s) (h : minimumHead streams = some m)
    (hr : r ∈ (advance streams m).flatten) : m < key r := by
  obtain ⟨s', hs', hr⟩ := mem_flatten.mp hr
  obtain ⟨s, hmem, rfl⟩ := mem_map.mp hs'
  exact lt_of_mem_dropWhile (hs s hmem) (fun r hr => minimumHead_le hs h hmem hr) hr

theorem mem_of_mem_advance (hr : r ∈ (advance streams m).flatten) : r ∈ streams.flatten := by
  obtain ⟨s', hs', hr⟩ := mem_flatten.mp hr
  obtain ⟨s, hmem, rfl⟩ := mem_map.mp hs'
  exact mem_flatten.mpr ⟨s, hmem, (dropWhile_sublist _).mem hr⟩

theorem sorted_advance (hs : ∀ s ∈ streams, Sorted s) (m : κ) :
    ∀ s ∈ advance streams m, Sorted s := by
  intro s' hs'
  obtain ⟨s, hmem, rfl⟩ := mem_map.mp hs'
  exact (hs s hmem).sublist (dropWhile_sublist _)

end Streams

section Merge

variable [LinearOrder ν]

def winner (streams : List (List ρ)) (minimum : κ) : Option ρ :=
  latest (streams.flatMap fun stream => stream.takeWhile fun r => key r = minimum) minimum

def mergeStreams (streams : List (List ρ)) : List ρ :=
  match _ : minimumHead streams with
  | none => []
  | some minimum =>
    match winner streams minimum with
    | none => []
    | some newest => newest :: mergeStreams (advance streams minimum)
termination_by streams.flatten.length
decreasing_by exact length_advance_lt ‹_›

variable {streams : List (List ρ)} {m k : κ} {r : ρ}

theorem latest_filter (rows : List ρ) (k : κ) :
    latest (rows.filter fun r => key r = k) k = latest rows k := by
  induction rows with
  | nil => rfl
  | cons r rows ih =>
    by_cases h : key r = k
    · rw [filter_cons_of_pos (by simpa using h), latest, latest, ih]
    · rw [filter_cons_of_neg (by simpa using h), latest, ih, if_neg h, none_pick]

/-- The newest record of a key depends only on the records of that key, in their order. -/
theorem latest_eq_of_filter {rows rows' : List ρ}
    (h : (rows.filter fun r => key r = k) = rows'.filter fun r => key r = k) :
    latest rows k = latest rows' k := by
  rw [← latest_filter rows, h, latest_filter]

theorem winner_eq_latest (hs : ∀ s ∈ streams, Sorted s) (h : minimumHead streams = some m) :
    winner streams m = latest streams.flatten m := by
  apply latest_eq_of_filter
  rw [filter_flatMap, filter_flatten, flatMap_def]
  congr 1
  apply map_congr_left
  intro s hmem
  exact filter_takeWhile (hs s hmem) fun r hr => minimumHead_le hs h hmem hr

theorem latest_advance (hk : k ≠ m) (streams : List (List ρ)) :
    latest (advance streams m).flatten k = latest streams.flatten k := by
  apply latest_eq_of_filter
  rw [advance, filter_flatten, filter_flatten, map_map]
  congr 1
  apply map_congr_left
  intro s _
  conv_rhs => rw [← takeWhile_append_dropWhile (p := fun r => decide (key r = m)) (l := s)]
  rw [filter_append, Function.comp_apply, self_eq_append_left, filter_eq_nil_iff]
  intro r hr hrk
  have hrm : key r = m := by simpa using mem_takeWhile_imp hr
  exact hk ((by simpa using hrk : key r = k) ▸ hrm)

theorem latest_mergeStreams (hs : ∀ s ∈ streams, Sorted s) (k : κ) :
    latest (mergeStreams streams) k = latest streams.flatten k := by
  fun_induction mergeStreams streams with
  | case1 streams h =>
    have hnil : streams.flatten = [] := flatten_eq_nil_iff.mpr (minimumHead_eq_none.mp h)
    rw [hnil]
  | case2 streams m h hw =>
    obtain ⟨r, rest, hmem, hkey⟩ := minimumHead_mem h
    rw [winner_eq_latest hs h, latest_eq_none] at hw
    exact absurd hkey (hw r (mem_flatten.mpr ⟨_, hmem, mem_cons_self⟩))
  | case3 streams m h newest hw ih =>
    rw [winner_eq_latest hs h] at hw
    rw [latest, ih (sorted_advance hs m), (IsLatest.of_latest hw).key_eq]
    split_ifs with hk
    · subst hk
      have hnone : latest (advance streams m).flatten m = none :=
        latest_eq_none.mpr fun r hr => (lt_of_mem_advance hs h hr).ne'
      rw [hnone, pick_none, hw]
    · rw [none_pick, latest_advance (Ne.symm hk)]

theorem mem_of_mem_mergeStreams (hs : ∀ s ∈ streams, Sorted s) (hr : r ∈ mergeStreams streams) :
    r ∈ streams.flatten := by
  fun_induction mergeStreams streams with
  | case1 => cases hr
  | case2 => cases hr
  | case3 streams m h newest hw ih =>
    rcases mem_cons.mp hr with rfl | hr
    · rw [winner_eq_latest hs h] at hw
      exact (IsLatest.of_latest hw).mem
    · exact mem_of_mem_advance (ih (sorted_advance hs m) hr)

theorem pairwise_mergeStreams (hs : ∀ s ∈ streams, Sorted s) :
    (mergeStreams streams).Pairwise fun r r' => key r < key r' := by
  fun_induction mergeStreams streams with
  | case1 => exact .nil
  | case2 => exact .nil
  | case3 streams m h newest hw ih =>
    refine pairwise_cons.mpr ⟨fun r hr => ?_, ih (sorted_advance hs m)⟩
    rw [(IsLatest.of_latest hw).key_eq]
    exact lt_of_mem_advance hs h (mem_of_mem_mergeStreams (sorted_advance hs m) hr)

theorem latest_filter_of_pairwise {rows : List ρ} (h : rows.Pairwise fun r r' => key r < key r')
    (p : ρ → Bool) (k : κ) : latest (rows.filter p) k = (latest rows k).filter p := by
  induction rows with
  | nil => rfl
  | cons r rows ih =>
    obtain ⟨hr, hrows⟩ := pairwise_cons.mp h
    rw [latest]
    by_cases hk : key r = k
    · have hrest : latest rows k = none :=
        latest_eq_none.mpr fun r' hr' he => (hr r' hr').ne (hk.trans he.symm)
      have hkept : latest (rows.filter p) k = none := by rw [ih hrows, hrest]; rfl
      rw [if_pos hk, hrest]
      cases hp : p r with
      | true => simp [latest, hk, hkept, Option.filter, hp]
      | false => simp [hp, hkept, Option.filter]
    · rw [if_neg hk, none_pick, ← ih hrows]
      cases hp : p r with
      | true => rw [filter_cons_of_pos hp, latest, if_neg hk, none_pick]
      | false => rw [filter_cons_of_neg (by simp [hp])]

section Replace

variable {input other output : List ρ} {t : ρ}

/-- A dropped deletion shows exactly where it alone hid an older live record held elsewhere. -/
theorem shown_drop_iff {held : Option ρ} (ht : latest input k = some t) (hdel : deleted t = true)
    (hdrop : latest output k = none) (hnew : ∀ r, latest other k = some r → version t < version r) :
    (pick (latest (other ++ output) k) held).filter (fun r => !deleted r) =
        (pick (latest (other ++ input) k) held).filter (fun r => !deleted r) ↔
      ¬ (latest other k = none ∧ ∃ r, held = some r ∧ deleted r = false ∧ version r < version t) := by
  cases hr : latest other k with
  | some r =>
    rw [latest_append, latest_append, hdrop, ht, hr]
    simp [pick, newer, not_le.mpr (hnew r hr)]
  | none =>
    rw [latest_append, latest_append, hdrop, ht, hr]
    cases held with
    | none => simp [Option.filter, hdel]
    | some r =>
      by_cases hv : version t ≤ version r
      · simp [pick, newer, hv]
      · cases hd : deleted r <;> simp [pick, newer, Option.filter, hv, hdel]

end Replace

end Merge

end Pintail.Versioned
