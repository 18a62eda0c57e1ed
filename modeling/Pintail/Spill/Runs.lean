import Mathlib
import Pintail.Support.Except

/-! # Merging sorted runs

A merge keeps the current record of each run and yields the least, of the first run on a tie. Passes
over adjacent runs reduce their number first. What comes out is sorted, and its records with keys of
one rank are those of the runs, in the order of the runs.
-/

namespace Pintail.Spill

open List

structure Head (κ π : Type) where
  key : κ
  payload : π

/-- A run under a merge: its current record, and what its reader has left. -/
structure Source (κ π : Type) where
  head : Option (Head κ π)
  reader : List π

section Weak

variable {κ : Type} {less : κ → κ → Bool} [IsStrictWeakOrder κ fun a b => less a b = true] {a b c : κ}

theorem less_trans (hab : less a b = true) (hbc : less b c = true) : less a c = true :=
  IsTrans.trans (r := fun a b => less a b = true) a b c hab hbc

theorem less_of_less (hab : less a b = true) (hcb : less c b = false) : less a c = true := by
  by_contra hac
  have hca : ¬ less c a = true := fun hca => by simp [less_trans hca hab] at hcb
  have hbc : ¬ less b c = true := fun hbc => hac (less_trans hab hbc)
  have hincomp := @IsStrictWeakOrder.incomp_trans κ (fun a b => less a b = true) _ a c b
  exact (hincomp ⟨hac, hca⟩ ⟨by simp [hcb], hbc⟩).1 hab

end Weak

section Merge

variable {κ π : Type} (decode : π → Except String κ) (less : κ → κ → Bool)

def readHead : List π → Except String (Source κ π)
  | [] => pure ⟨none, []⟩
  | payload :: reader => do
    let key ← decode payload
    pure ⟨some ⟨key, payload⟩, reader⟩

def better (winner : Option (ℕ × Head κ π)) (source : Source κ π) (index : ℕ) :
    Option (ℕ × Head κ π) :=
  match source.head, winner with
  | none, _ => winner
  | some candidate, none => some (index, candidate)
  | some candidate, some (_, current) =>
    if less candidate.key current.key then some (index, candidate) else winner

def winner (merge : List (Source κ π)) : Option (ℕ × Head κ π) :=
  merge.zipIdx.foldl (fun winner (source, index) => better less winner source index) none

def take (merge : List (Source κ π)) (index : ℕ) :
    Except String (Option (Head κ π) × List (Source κ π)) :=
  match merge[index]? with
  | none => pure (none, merge)
  | some source => do
    let replacement ← readHead decode source.reader
    pure (source.head, merge.set index replacement)

def next (merge : List (Source κ π)) : Except String (Option (Head κ π) × List (Source κ π)) :=
  match winner less merge with
  | none => pure (none, merge)
  | some (index, _) => take decode merge index

def pending (merge : List (Source κ π)) : ℕ :=
  (merge.map fun source => source.head.toList.length + source.reader.length).sum

variable {decode less} {merge merge' : List (Source κ π)}

theorem winner_append (merge : List (Source κ π)) (source : Source κ π) :
    winner less (merge ++ [source]) = better less (winner less merge) source merge.length := by
  simp [winner, zipIdx_append]

/-- The winner's record is below those of the runs in front, and not above those behind. -/
inductive Wins (less : κ → κ → Bool) : List (Source κ π) → Option (ℕ × Head κ π) → Prop
  | none (merge : List (Source κ π)) (h : ∀ source ∈ merge, source.head = none) : Wins less merge none
  | some (front : List (Source κ π)) (source : Source κ π) (back : List (Source κ π))
      {head : Head κ π} (hhead : source.head = some head)
      (hfront : ∀ s ∈ front, ∀ other ∈ s.head, less head.key other.key = true)
      (hback : ∀ s ∈ back, ∀ other ∈ s.head, less other.key head.key = false) :
      Wins less (front ++ source :: back) (some (front.length, head))

theorem wins_winner [IsStrictWeakOrder κ fun a b => less a b = true]
    (merge : List (Source κ π)) : Wins less merge (winner less merge) := by
  induction merge using reverseRecOn with
  | nil => exact .none _ nofun
  | append_singleton merge last ih =>
    rw [winner_append]
    cases hlast : last.head with
    | none =>
      simp only [better, hlast]
      generalize winner less merge = w at ih ⊢
      cases ih with
      | none _ h => exact .none _ (forall_mem_append.mpr ⟨h, by simpa using hlast⟩)
      | some front source back hhead hfront hback =>
        rw [append_assoc]
        exact .some front source (back ++ [last]) hhead hfront
          (forall_mem_append.mpr ⟨hback, by simp [hlast]⟩)
    | some candidate =>
      simp only [better, hlast]
      generalize winner less merge = w at ih ⊢
      cases ih with
      | none _ h => exact .some merge last [] hlast (fun s hs => by simp [h s hs]) nofun
      | @some front source back head hhead hfront hback =>
        dsimp only
        split_ifs with hless
        · refine .some _ last [] hlast (forall_mem_append.mpr ⟨fun s hs other hother =>
            less_trans hless (hfront s hs other hother), forall_mem_cons.mpr
            ⟨by simpa [hhead] using hless, fun s hs other hother =>
              less_of_less hless (hback s hs other hother)⟩⟩) nofun
        · rw [append_assoc]
          exact .some front source (back ++ [last]) hhead hfront
            (forall_mem_append.mpr ⟨hback, by simpa [hlast] using hless⟩)

theorem length_readHead {reader : List π} {source : Source κ π}
    (h : readHead decode reader = .ok source) :
    source.head.toList.length + source.reader.length = reader.length := by
  cases reader with
  | nil => cases h; rfl
  | cons payload reader =>
    obtain ⟨key, -, hsource⟩ := Except.bind_eq_ok.mp h
    cases hsource
    simp [Nat.add_comm]

theorem pending_lt_of_next {head : Head κ π}
    (h : next decode less merge = .ok (some head, merge')) : pending merge' < pending merge := by
  unfold next at h
  split at h
  · cases h
  · rename_i index _ _
    unfold take at h
    split at h
    · cases h
    · rename_i source hsource
      obtain ⟨replacement, hread, hset⟩ := Except.bind_eq_ok.mp h
      obtain ⟨hhead, rfl⟩ := Prod.mk.inj (Except.pure_eq_ok.mp hset)
      obtain ⟨hindex, rfl⟩ := List.getElem?_eq_some_iff.mp hsource
      have hsplit := congrArg pending (take_append_drop index merge)
      rw [drop_eq_getElem_cons hindex] at hsplit
      rw [← hsplit, set_eq_take_append_cons_drop, if_pos hindex]
      simp only [pending, map_append, map_cons, sum_append, sum_cons, hhead,
        length_readHead hread, Option.toList_some, length_singleton]
      omega

variable (decode less)

def drain (merge : List (Source κ π)) : Except String (List π) :=
  match _ : next decode less merge with
  | .error error => .error error
  | .ok (none, _) => .ok []
  | .ok (some head, merge') => (head.payload :: ·) <$> drain merge'
termination_by pending merge
decreasing_by exact pending_lt_of_next ‹_›

def mergeRuns (runs : List (List π)) : Except String (List π) := do
  let merge ← runs.mapM (readHead decode)
  drain decode less merge

/-- What takes the place of a group of adjacent runs: a single run stays as it is. -/
def mergeGroup : List (List π) → Except String (List π)
  | [run] => pure run
  | group => mergeRuns decode less group

def reducePass (fanIn : ℕ) : List (List π) → Except String (List (List π))
  | [] => pure []
  | run :: runs => do
    let merged ← mergeGroup decode less ((run :: runs).take (max fanIn 2))
    let reduced ← reducePass fanIn ((run :: runs).drop (max fanIn 2))
    pure (merged :: reduced)
termination_by runs => runs.length
decreasing_by
  rw [List.length_drop, List.length_cons]
  omega

variable {decode less}

theorem drain_of_next {head : Option (Head κ π)} (h : next decode less merge = .ok (head, merge')) :
    drain decode less merge =
      head.elim (.ok []) fun head => (head.payload :: ·) <$> drain decode less merge' := by
  rw [drain]
  split <;> rename_i hnext <;> cases hnext.symm.trans h <;> rfl

variable {fanIn : ℕ} {runs reduced : List (List π)}

theorem length_reducePass (h : reducePass decode less fanIn runs = .ok reduced) :
    2 * reduced.length ≤ runs.length + 1 := by
  induction runs using reducePass.induct fanIn generalizing reduced with
  | case1 =>
    rw [reducePass] at h
    cases h
    simp
  | case2 run runs ih =>
    rw [reducePass] at h
    obtain ⟨merged, -, h⟩ := Except.bind_eq_ok.mp h
    obtain ⟨rest, hrest, h⟩ := Except.bind_eq_ok.mp h
    cases h
    have hlength := ih hrest
    simp only [length_drop, length_cons] at hlength ⊢
    omega

variable (decode less)

/-- Passes over groups of adjacent runs, until no more than the fan-in are left. -/
def reduceRuns (fanIn : ℕ) (runs : List (List π)) : Except String (List (List π)) :=
  if _ : max fanIn 2 < runs.length then
    match _ : reducePass decode less fanIn runs with
    | .error error => .error error
    | .ok reduced => reduceRuns fanIn reduced
  else .ok runs
termination_by runs.length
decreasing_by
  have := length_reducePass ‹_›
  omega

end Merge

section Order

variable {κ π : Type} (less : κ → κ → Bool) (key : π → κ)

def Sorted (records : List π) : Prop :=
  records.Pairwise fun p q => less (key q) (key p) = false

/-- Whether the key of a record and a key are of one rank. -/
def alike (k : κ) (record : π) : Bool := !less k (key record) && !less (key record) k

/-- Two lists with the same records, where those of one rank stand in the same order. -/
def Stable (records records' : List π) : Prop :=
  ∀ k, records.filter (alike less key k) = records'.filter (alike less key k)

/-- A run under a merge, where its records decode to their keys. -/
def sourceOf (run : List π) : Source κ π := ⟨run.head?.map fun p => ⟨key p, p⟩, run.tail⟩

variable {less key} [IsStrictWeakOrder κ fun a b => less a b = true] {p q : π}
  {out out' run : List π} {front back : List (List π)}

theorem less_self (p : π) : less (key p) (key p) = false := by
  simpa using irrefl_of (fun a b => less a b = true) (key p)

theorem Stable.mem_iff (h : Stable less key out out') : p ∈ out ↔ p ∈ out' := by
  have hmem := congrArg (p ∈ ·) (h (key p))
  simpa [alike, less_self] using hmem

theorem Stable.perm (h : Stable less key out out') : out.Perm out' := by
  classical
  rw [perm_iff_count]
  intro p
  have hself : alike less key (key p) p = true := by simp [alike, less_self]
  rw [← count_filter hself, h, count_filter hself]

theorem Sorted.exists_head (h : Sorted less key run) (hq : q ∈ run) :
    ∃ first ∈ run.head?, less (key q) (key first) = false := by
  cases run with
  | nil => simp at hq
  | cons first run =>
    refine ⟨first, rfl, ?_⟩
    rcases mem_cons.mp hq with rfl | hq
    · exact less_self q
    · exact (pairwise_cons.mp h).1 q hq

theorem Sorted.cons_of_least (h : Sorted less key out) (hrun : Sorted less key (p :: run))
    (hstable : Stable less key out (front ++ run :: back).flatten)
    (hfront : ∀ q ∈ front.flatten, less (key p) (key q) = true)
    (hback : ∀ q ∈ back.flatten, less (key q) (key p) = false) : Sorted less key (p :: out) := by
  refine pairwise_cons.mpr ⟨fun q hq => ?_, h⟩
  have hq := hstable.mem_iff.mp hq
  simp only [flatten_append, flatten_cons, mem_append] at hq
  rcases hq with hq | hq | hq
  · by_contra hgt
    have hself := less_trans (hfront q hq) (by simpa using hgt)
    simp [less_self] at hself
  · exact (pairwise_cons.mp hrun).1 q hq
  · exact hback q hq

theorem Stable.cons_of_least (h : Stable less key out (front ++ run :: back).flatten)
    (hfront : ∀ q ∈ front.flatten, less (key p) (key q) = true) :
    Stable less key (p :: out) (front ++ (p :: run) :: back).flatten := by
  intro k
  have hk := h k
  simp only [flatten_append, flatten_cons, filter_append] at hk ⊢
  by_cases hp : alike less key k p = true
  · have hnone : front.flatten.filter (alike less key k) = [] := by
      rw [filter_eq_nil_iff]
      intro q hq halike
      simp only [alike, Bool.and_eq_true, Bool.not_eq_true'] at hp halike
      have hless := less_of_less (hfront q hq) halike.1
      simp [hp.2] at hless
    simp [hnone, nil_append, filter_cons_of_pos hp, hk, cons_append]
  · simp [filter_cons_of_neg hp, hk]

end Order

section Runs

variable {κ π : Type} {decode : π → Except String κ} {less : κ → κ → Bool} {key : π → κ}

/-- What a computation makes of sorted runs: their records in order, each rank in the order of the
runs. -/
def Merged (less : κ → κ → Bool) (key : π → κ) (result : Except String (List π))
    (runs : List (List π)) : Prop :=
  ∃ out, result = .ok out ∧ Sorted less key out ∧ Stable less key out runs.flatten

theorem readHead_eq {run : List π} (h : ∀ p ∈ run, decode p = .ok (key p)) :
    readHead decode run = .ok (sourceOf key run) := by
  cases run with
  | nil => rfl
  | cons p run => simp [readHead, h p, sourceOf]

variable [IsStrictWeakOrder κ fun a b => less a b = true] {runs : List (List π)} {fanIn : ℕ}
  (hdecode : ∀ p ∈ runs.flatten, decode p = .ok (key p))
  (hsorted : ∀ run ∈ runs, Sorted less key run)

include hdecode hsorted

theorem merged_drain : Merged less key (drain decode less (runs.map (sourceOf key))) runs := by
  -- Each round moves one record from the runs to the front of what comes out of the rest.
  induction hn : runs.flatten.length using Nat.strongRecOn generalizing runs with
  | ind n ih =>
    have hwins : Wins less (runs.map (sourceOf key)) _ := wins_winner _
    generalize hmerge : runs.map (sourceOf key) = merge at hwins
    generalize hwinner : winner less merge = w at hwins
    cases hwins with
    | none _ hall =>
      subst hmerge
      have hnil (run : List π) (hrun : run ∈ runs) : run = [] := by
        simpa [sourceOf] using hall _ (mem_map_of_mem hrun)
      have hnext : next decode less (runs.map (sourceOf key)) =
          .ok (none, runs.map (sourceOf key)) := by
        rw [next, hwinner]
        rfl
      refine ⟨[], drain_of_next hnext, List.Pairwise.nil, ?_⟩
      rw [flatten_eq_nil_iff.mpr hnil]
      exact fun k => rfl
    | some front source back hhead hfront hback =>
      obtain ⟨front, rest, rfl, rfl, hrest⟩ := map_eq_append_iff.mp hmerge
      obtain ⟨_ | ⟨p, run⟩, back, rfl, rfl, rfl⟩ := map_eq_cons_iff.mp hrest
      · cases hhead
      cases hhead
      rw [forall_mem_append, forall_mem_cons] at hsorted
      simp only [flatten_append, flatten_cons, cons_append, forall_mem_append,
        forall_mem_cons] at hdecode
      obtain ⟨out, hout, hsort, hstable⟩ := @ih _ (by simp [← hn]) (front ++ run :: back)
        (by simpa only [flatten_append, flatten_cons, forall_mem_append] using
          ⟨hdecode.1, hdecode.2.2⟩)
        (forall_mem_append.mpr ⟨hsorted.1, forall_mem_cons.mpr
          ⟨(pairwise_cons.mp hsorted.2.1).2, hsorted.2.2⟩⟩) rfl
      have hfront' (q : π) (hq : q ∈ front.flatten) : less (key p) (key q) = true := by
        obtain ⟨run', hrun', hq⟩ := mem_flatten.mp hq
        obtain ⟨first, hfirst, hle⟩ := (hsorted.1 run' hrun').exists_head hq
        exact less_of_less (hfront _ (mem_map_of_mem hrun') _ (Option.mem_map_of_mem _ hfirst))
          hle
      have hback' (q : π) (hq : q ∈ back.flatten) : less (key q) (key p) = false := by
        obtain ⟨run', hrun', hq⟩ := mem_flatten.mp hq
        obtain ⟨first, hfirst, hle⟩ := (hsorted.2.2 run' hrun').exists_head hq
        by_contra hlt
        have hless := less_of_less (by simpa using hlt) (hback _ (mem_map_of_mem hrun') _
          (Option.mem_map_of_mem _ hfirst))
        simp [hle] at hless
      refine ⟨p :: out, ?_, hsort.cons_of_least hsorted.2.1 hstable hfront' hback',
        hstable.cons_of_least hfront'⟩
      have hnext : next decode less ((front ++ (p :: run) :: back).map (sourceOf key)) =
          .ok (some ⟨key p, p⟩, (front ++ run :: back).map (sourceOf key)) := by
        rw [map_append, map_cons, next, hwinner]
        simp [take, sourceOf, readHead_eq hdecode.2.2.1]
      rw [← hmerge, drain_of_next hnext]
      exact Except.map_eq_ok.mpr ⟨out, hout, rfl⟩

theorem merged_mergeRuns : Merged less key (mergeRuns decode less runs) runs := by
  have hopen : runs.mapM (readHead decode) = .ok (runs.map (sourceOf key)) := by
    rw [Except.mapM_eq_ok, forall₂_map_right_iff, forall₂_same]
    intro run hrun
    exact readHead_eq fun p hp => hdecode p (mem_flatten_of_mem hrun hp)
  obtain ⟨out, hout, hmerged⟩ := merged_drain hdecode hsorted
  exact ⟨out, Except.bind_eq_ok.mpr ⟨_, hopen, hout⟩, hmerged⟩

theorem merged_mergeGroup : Merged less key (mergeGroup decode less runs) runs := by
  unfold mergeGroup
  split
  · rename_i run
    exact ⟨run, rfl, hsorted run (by simp), fun k => by simp⟩
  · exact merged_mergeRuns hdecode hsorted

theorem reducePass_eq_ok : ∃ reduced, reducePass decode less fanIn runs = .ok reduced ∧
    (∀ run ∈ reduced, Sorted less key run) ∧ Stable less key reduced.flatten runs.flatten := by
  induction runs using reducePass.induct fanIn with
  | case1 => exact ⟨[], by rw [reducePass]; rfl, nofun, fun k => rfl⟩
  | case2 run runs ih =>
    rw [reducePass]
    have hruns := take_append_drop (max fanIn 2) (run :: runs)
    rw [← hruns, flatten_append, forall_mem_append] at hdecode
    rw [← hruns, forall_mem_append] at hsorted
    obtain ⟨out, hout, hsort, hstable⟩ := merged_mergeGroup hdecode.1 hsorted.1
    obtain ⟨reduced, hreduced, hsorted', hstable'⟩ := ih hdecode.2 hsorted.2
    refine ⟨out :: reduced, Except.bind_eq_ok.mpr ⟨out, hout, Except.bind_eq_ok.mpr
      ⟨reduced, hreduced, rfl⟩⟩, forall_mem_cons.mpr ⟨hsort, hsorted'⟩, fun k => ?_⟩
    rw [flatten_cons, filter_append, hstable k, hstable' k, ← filter_append,
      ← flatten_append, hruns]

theorem reduceRuns_eq_ok (fanIn : ℕ) : ∃ reduced, reduceRuns decode less fanIn runs = .ok reduced ∧
    reduced.length ≤ max fanIn 2 ∧ (∀ run ∈ reduced, Sorted less key run) ∧
      Stable less key reduced.flatten runs.flatten := by
  induction hn : runs.length using Nat.strongRecOn generalizing runs with
  | ind n ih =>
    rw [reduceRuns]
    split_ifs with hmany
    · obtain ⟨reduced, hreduced, hsorted', hstable⟩ :=
        @reducePass_eq_ok _ _ _ _ _ _ _ fanIn hdecode hsorted
      have hlength := length_reducePass hreduced
      obtain ⟨last, hlast, hfew, hsorted'', hstable'⟩ := ih reduced.length (by omega)
        (fun p hp => hdecode p (hstable.mem_iff.mp hp)) hsorted' rfl
      refine ⟨last, ?_, hfew, hsorted'', fun k => (hstable' k).trans (hstable k)⟩
      split <;> rename_i heq <;> cases heq.symm.trans hreduced
      exact hlast
    · exact ⟨runs, rfl, by omega, hsorted, fun k => rfl⟩

/-- Reducing sorted runs ends, and the merge of what is left yields their records in order, none
lost or repeated, those of one rank in the order of the runs. -/
theorem mergeRuns_reduceRuns (fanIn : ℕ) :
    ∃ reduced out, reduceRuns decode less fanIn runs = .ok reduced ∧
      reduced.length ≤ max fanIn 2 ∧ mergeRuns decode less reduced = .ok out ∧
      Sorted less key out ∧ out.Perm runs.flatten ∧ Stable less key out runs.flatten := by
  obtain ⟨reduced, hreduced, hfew, hsorted', hstable⟩ := reduceRuns_eq_ok hdecode hsorted fanIn
  obtain ⟨out, hout, hsort, hstable'⟩ :=
    merged_mergeRuns (fun p hp => hdecode p (hstable.mem_iff.mp hp)) hsorted'
  have hall : Stable less key out runs.flatten := fun k => (hstable' k).trans (hstable k)
  exact ⟨reduced, out, hreduced, hfew, hout, hsort, hall.perm, hall⟩

end Runs

/-- Numbers ranked by their tens. -/
theorem mergeRuns_reduceRuns_tens : let less (a b : ℕ) : Bool := a < b
    let runs := [[1, 12], [11], [0, 10]]
    ∃ reduced out, reduceRuns (fun n => .ok (n / 10)) less 2 runs = .ok reduced ∧
      reduced.length ≤ max 2 2 ∧ mergeRuns (fun n => .ok (n / 10)) less reduced = .ok out ∧
      Sorted less (· / 10) out ∧ out.Perm runs.flatten ∧
      Stable less (· / 10) out runs.flatten := by
  intro less runs
  have : IsStrictWeakOrder ℕ fun a b => less a b = true := by
    refine { irrefl := ?_, trans := ?_, incomp_trans := ?_ } <;>
      simp only [less, decide_eq_true_eq] <;> omega
  exact mergeRuns_reduceRuns (fun n _ => rfl) (by simp [runs, Sorted, less]) 2

end Pintail.Spill
