import Mathlib.Data.List.Induction
import Mathlib.Data.List.Sort
import Mathlib.Data.Prod.Lex
import Mathlib.Order.MinMax

/-! # Lists of merged intervals

A set of numbers kept as closed intervals, from the lowest up, with a gap after each. Adding an
interval sorts it in and joins what touches; it adds its numbers and leaves the list merged.
-/

namespace Pintail

open List

/-- A closed interval of numbers below the limit, none of them zero. -/
structure Interval (limit : ℕ) where
  start : ℕ
  stop : ℕ
  pos : 0 < start
  le : start ≤ stop
  lt : stop < limit

namespace Interval

variable {limit : ℕ}

def Contains (interval : Interval limit) (n : ℕ) : Prop := interval.start ≤ n ∧ n ≤ interval.stop

instance (interval : Interval limit) (n : ℕ) : Decidable (interval.Contains n) :=
  inferInstanceAs (Decidable (_ ∧ _))

/-- By start, and by end among equal starts. -/
def Precedes (left right : Interval limit) : Prop :=
  toLex (left.start, left.stop) ≤ toLex (right.start, right.stop)

instance : DecidableRel (Precedes : Interval limit → Interval limit → Prop) :=
  fun _ _ => inferInstanceAs (Decidable (_ ≤ _))

instance : Std.Total (Precedes : Interval limit → Interval limit → Prop) :=
  ⟨fun _ _ => le_total _ _⟩

instance : IsTrans (Interval limit) Precedes := ⟨fun _ _ _ => le_trans⟩

theorem Precedes.start_le {left right : Interval limit} (h : left.Precedes right) :
    left.start ≤ right.start := by
  rcases (Prod.Lex.le_iff.mp h) with h | h
  · exact h.le
  · exact h.1.le

/-- Nothing lies between the two; the number after the end saturates at the limit. -/
def Touches (previous interval : Interval limit) : Prop :=
  interval.start ≤ min (previous.stop + 1) (limit - 1)

instance : DecidableRel (Touches : Interval limit → Interval limit → Prop) :=
  fun _ _ => inferInstanceAs (Decidable (_ ≤ _))

variable {previous interval : Interval limit}

theorem touches_iff : previous.Touches interval ↔ interval.start ≤ previous.stop + 1 := by
  have hle := interval.le
  have hlt := interval.lt
  simp only [Touches]
  omega

def join (previous interval : Interval limit) : Interval limit where
  start := previous.start
  stop := max previous.stop interval.stop
  pos := previous.pos
  le := previous.le.trans (le_max_left _ _)
  lt := max_lt previous.lt interval.lt

theorem contains_join {n : ℕ}
    (hstart : previous.start ≤ interval.start) (h : previous.Touches interval) :
    (previous.join interval).Contains n ↔ previous.Contains n ∨ interval.Contains n := by
  rw [touches_iff] at h
  simp only [Contains, join]
  omega

end Interval

namespace Intervals

variable {limit : ℕ} {intervals merged : List (Interval limit)} {interval : Interval limit} {n : ℕ}

def Covers (intervals : List (Interval limit)) (n : ℕ) : Prop :=
  ∃ interval ∈ intervals, interval.Contains n

/-- Each interval ends before the next one, and a number lies between them. -/
def Merged (intervals : List (Interval limit)) : Prop :=
  intervals.Pairwise fun left right => left.stop + 1 < right.start

instance (intervals : List (Interval limit)) : Decidable (Merged intervals) :=
  inferInstanceAs (Decidable (List.Pairwise _ _))

/-- Put an interval behind the others, joined with the last one when it touches it. -/
def push (merged : List (Interval limit)) (interval : Interval limit) : List (Interval limit) :=
  match merged.getLast? with
  | none => merged ++ [interval]
  | some previous =>
    if previous.Touches interval then merged.dropLast ++ [previous.join interval]
    else merged ++ [interval]

def merge (intervals : List (Interval limit)) : List (Interval limit) := intervals.foldl push []

def add (intervals : List (Interval limit)) (interval : Interval limit) : List (Interval limit) :=
  merge ((intervals ++ [interval]).insertionSort Interval.Precedes)

@[simp] theorem covers_nil : ¬Covers ([] : List (Interval limit)) n := by simp [Covers]

variable {more : List (Interval limit)}

@[simp] theorem covers_append :
    Covers (intervals ++ more) n ↔ Covers intervals n ∨ Covers more n := by
  simp [Covers, or_and_right, exists_or]

@[simp] theorem covers_cons :
    Covers (interval :: intervals) n ↔ interval.Contains n ∨ Covers intervals n := by
  simp [Covers]

theorem covers_of_perm (h : intervals.Perm more) : Covers intervals n ↔ Covers more n := by
  simp only [Covers, h.mem_iff]

@[simp] theorem push_nil : push [] interval = [interval] := rfl

theorem push_concat (merged : List (Interval limit)) (previous interval : Interval limit) :
    push (merged ++ [previous]) interval =
      if previous.Touches interval then merged ++ [previous.join interval]
      else merged ++ [previous] ++ [interval] := by
  simp [push]

/-- What one more interval from the sorted list does. -/
theorem push_spec (h : Merged merged)
    (hstart : ∀ previous ∈ merged, previous.start ≤ interval.start) :
    Merged (push merged interval) ∧
      (∀ n, Covers (push merged interval) n ↔ Covers merged n ∨ interval.Contains n) ∧
      ∀ previous ∈ push merged interval, previous.start ≤ interval.start := by
  rcases eq_nil_or_concat merged with rfl | ⟨merged, previous, rfl⟩
  · exact ⟨pairwise_singleton _ _, by simp, by simp⟩
  rw [concat_eq_append] at *
  obtain ⟨hm, -, hlast⟩ := pairwise_append.mp h
  simp only [forall_mem_append, forall_mem_singleton] at hstart hlast
  obtain ⟨hstart, hprev⟩ := hstart
  rw [push_concat]
  split_ifs with ht
  · refine ⟨pairwise_append.mpr ⟨hm, pairwise_singleton _ _, ?_⟩, fun n => ?_, ?_⟩
    · simp only [forall_mem_singleton]
      exact hlast
    · simp [Interval.contains_join hprev ht, or_assoc]
    · simpa only [forall_mem_append, forall_mem_singleton] using ⟨hstart, hprev⟩
  · rw [Interval.touches_iff, not_le] at ht
    refine ⟨pairwise_append.mpr ⟨h, pairwise_singleton _ _, ?_⟩, fun n => by simp [or_assoc], ?_⟩
    · simp only [forall_mem_append, forall_mem_singleton]
      refine ⟨fun left hl => ?_, ht⟩
      have hgap := hlast left hl
      omega
    · simpa only [forall_mem_append, forall_mem_singleton] using ⟨⟨hstart, hprev⟩, le_rfl⟩

theorem foldl_push_spec (h : Merged merged) (hs : intervals.Pairwise Interval.Precedes)
    (hstart : ∀ previous ∈ merged, ∀ later ∈ intervals, previous.start ≤ later.start) :
    Merged (intervals.foldl push merged) ∧
      ∀ n, Covers (intervals.foldl push merged) n ↔ Covers merged n ∨ Covers intervals n := by
  induction intervals generalizing merged with
  | nil => exact ⟨h, by simp⟩
  | cons interval intervals ih =>
    obtain ⟨hfirst, hs⟩ := pairwise_cons.mp hs
    obtain ⟨hm, hc, hlater⟩ := push_spec h fun previous hp => hstart previous hp interval (by simp)
    obtain ⟨hm', hc'⟩ := ih hm hs fun previous hp later hl =>
      (hlater previous hp).trans (hfirst later hl).start_le
    refine ⟨hm', fun n => ?_⟩
    rw [foldl_cons, hc', hc, or_assoc, covers_cons]

theorem merged_merge (hs : intervals.Pairwise Interval.Precedes) : Merged (merge intervals) :=
  (foldl_push_spec .nil hs nofun).1

theorem merged_add : Merged (add intervals interval) :=
  merged_merge (pairwise_insertionSort _ _)

theorem covers_add :
    Covers (add intervals interval) n ↔ Covers intervals n ∨ interval.Contains n := by
  have hs : ((intervals ++ [interval]).insertionSort Interval.Precedes).Pairwise
      Interval.Precedes := pairwise_insertionSort _ _
  rw [add, merge, (foldl_push_spec .nil hs nofun).2, covers_of_perm (perm_insertionSort _ _)]
  simp

theorem Merged.precedes (h : Merged intervals) : intervals.Pairwise Interval.Precedes := by
  refine h.imp fun {left right} hgap => Prod.Lex.le_iff.mpr (.inl ?_)
  have := left.le
  change left.start < right.start
  omega

theorem add_of_merged (h : Merged (intervals ++ [interval])) :
    add intervals interval = intervals ++ [interval] := by
  rw [add, h.precedes.insertionSort_eq]
  induction intervals using reverseRecOn generalizing interval with
  | nil => rfl
  | append_singleton intervals previous ih =>
    obtain ⟨hm, -, hlast⟩ := pairwise_append.mp h
    have hgap := hlast previous (by simp) interval (by simp)
    rw [merge, foldl_append, ← merge, ih hm, foldl_cons, foldl_nil, push_concat,
      if_neg (by rw [Interval.touches_iff]; omega)]

theorem foldl_add_of_merged (h : Merged (merged ++ intervals)) :
    intervals.foldl add merged = merged ++ intervals := by
  induction intervals generalizing merged with
  | nil => simp
  | cons interval intervals ih =>
    have h' : Merged (merged ++ [interval] ++ intervals) := by simpa using h
    rw [foldl_cons, add_of_merged (pairwise_append.mp h').1, ih h']
    simp

end Intervals

@[ext] structure IntervalSet (limit : ℕ) where
  intervals : List (Interval limit)
  merged : Intervals.Merged intervals

namespace IntervalSet

variable {limit : ℕ}

open Intervals

def empty : IntervalSet limit := ⟨[], .nil⟩

def add (set : IntervalSet limit) (interval : Interval limit) : IntervalSet limit :=
  ⟨Intervals.add set.intervals interval, merged_add⟩

theorem covers_foldl_add (more : List (Interval limit)) (set : IntervalSet limit) (n : ℕ) :
    Covers (more.foldl add set).intervals n ↔ Covers set.intervals n ∨ Covers more n := by
  induction more generalizing set with
  | nil => simp
  | cons interval more ih =>
    rw [foldl_cons, ih, covers_cons, ← or_assoc]
    exact or_congr_left covers_add

theorem intervals_foldl_add (more : List (Interval limit)) (set : IntervalSet limit) :
    (more.foldl add set).intervals = more.foldl Intervals.add set.intervals := by
  induction more generalizing set with
  | nil => rfl
  | cons interval more ih => exact ih _

theorem foldl_add_intervals (set : IntervalSet limit) : set.intervals.foldl add empty = set := by
  ext1
  rw [intervals_foldl_add]
  exact foldl_add_of_merged (by simpa [empty] using set.merged)

end IntervalSet

end Pintail
