import Mathlib.Tactic.Order

/-! # The newest version of a key

Records carry a key and a version, and a key may be stored many times. The newest record of a key
wins, the later one where two versions are equal, and a key whose newest record is a deletion is
absent. When equal keys and versions mean equal records, only the set of stored records matters.
-/

namespace Pintail

open List

/-- Records that carry the key they are stored under, a version, and whether they delete it. -/
class Versioned (ρ : Type) (κ ν : outParam Type) where
  key : ρ → κ
  version : ρ → ν
  deleted : ρ → Bool

namespace Versioned

variable {ρ κ ν : Type} [LinearOrder ν] [Versioned ρ κ ν]

/-- The newer of two records, the second where their versions are equal. -/
def newer (a b : ρ) : ρ := if version a ≤ version b then b else a

def pick : Option ρ → Option ρ → Option ρ
  | none, b => b
  | some a, none => some a
  | some a, some b => some (newer a b)

@[simp] theorem none_pick (b : Option ρ) : pick none b = b := rfl

@[simp] theorem pick_none (a : Option ρ) : pick a none = a := by cases a <;> rfl

theorem newer_assoc (a b c : ρ) : newer (newer a b) c = newer a (newer b c) := by
  unfold newer
  split_ifs with hab hbc hac hbc hac hac <;> first | rfl | (order)

theorem pick_assoc (a b c : Option ρ) : pick (pick a b) c = pick a (pick b c) := by
  cases a <;> cases b <;> cases c <;> simp [pick, newer_assoc]

theorem pick_self (a : Option ρ) : pick a a = a := by
  cases a <;> simp [pick, newer]

theorem pick_eq_some {a b : Option ρ} {r : ρ} (h : pick a b = some r) :
    a = some r ∨ b = some r := by
  cases a with
  | none => exact .inr h
  | some a =>
    cases b with
    | none => exact .inl h
    | some b =>
      simp only [pick, newer] at h
      split_ifs at h
      · exact .inr h
      · exact .inl h

theorem pick_map {ρ' : Type} [Versioned ρ' κ ν] {f : ρ → ρ'} (hv : ∀ r, version (f r) = version r)
    (a b : Option ρ) : (pick a b).map f = pick (a.map f) (b.map f) := by
  cases a <;> cases b <;> simp only [pick, Option.map_none, Option.map_some, newer, hv]
  split_ifs <;> rfl

section Latest

variable [DecidableEq κ]

/-- The newest record of a key, the last of them where versions are equal. -/
def latest : List ρ → κ → Option ρ
  | [], _ => none
  | r :: rows, k => pick (if key r = k then some r else none) (latest rows k)

/-- What a reader finds under a key: its newest record unless that deletes the key. -/
def shown (rows : List ρ) (k : κ) : Option ρ := (latest rows k).filter fun r => !deleted r

structure IsLatest (rows : List ρ) (k : κ) (r : ρ) : Prop where
  mem : r ∈ rows
  key_eq : key r = k
  version_le : ∀ r' ∈ rows, key r' = k → version r' ≤ version r

variable {rows rows' : List ρ} {k : κ} {r : ρ}

@[simp] theorem latest_nil (k : κ) : latest ([] : List ρ) k = none := rfl

theorem latest_append (rows rows' : List ρ) (k : κ) :
    latest (rows ++ rows') k = pick (latest rows k) (latest rows' k) := by
  induction rows with
  | nil => rfl
  | cons r rows ih => rw [cons_append, latest, latest, ih, pick_assoc]

theorem latest_eq_none : latest rows k = none ↔ ∀ r ∈ rows, key r ≠ k := by
  induction rows with
  | nil => simp
  | cons r rows ih =>
    rw [latest, forall_mem_cons, ← ih]
    by_cases h : key r = k
    · simp only [h]
      cases latest rows k <;> simp [pick]
    · simp [h]

theorem IsLatest.of_latest (h : latest rows k = some r) : IsLatest rows k r := by
  induction rows generalizing r with
  | nil => cases h
  | cons a rows ih =>
    rw [latest] at h
    cases hl : latest rows k with
    | none =>
      rw [hl, pick_none] at h
      split_ifs at h with ha
      cases h
      refine ⟨mem_cons_self, ha, forall_mem_cons.mpr ⟨fun _ => le_rfl, ?_⟩⟩
      exact fun r' hr' hk => absurd hk (latest_eq_none.mp hl r' hr')
    | some b =>
      obtain ⟨hmem, hkey, hle⟩ := ih hl
      rw [hl] at h
      split_ifs at h with ha
      · cases h
        unfold newer
        split_ifs with hab
        · exact ⟨mem_cons_of_mem _ hmem, hkey,
            forall_mem_cons.mpr ⟨fun _ => hab, hle⟩⟩
        · refine ⟨mem_cons_self, ha, forall_mem_cons.mpr ⟨fun _ => le_rfl, ?_⟩⟩
          exact fun r' hr' hk => (hle r' hr' hk).trans (not_le.mp hab).le
      · cases h
        exact ⟨mem_cons_of_mem _ hmem, hkey,
          forall_mem_cons.mpr ⟨fun hk => absurd hk ha, hle⟩⟩

theorem exists_latest (hr : r ∈ rows) (hk : key r = k) : ∃ r', latest rows k = some r' := by
  cases h : latest rows k with
  | none => exact absurd hk (latest_eq_none.mp h r hr)
  | some r' => exact ⟨r', rfl⟩

theorem shown_eq_some : shown rows k = some r ↔ latest rows k = some r ∧ deleted r = false := by
  simp [shown]

/-- Equal keys and versions mean equal records. -/
def Consistent (rows : List ρ) : Prop :=
  ∀ a ∈ rows, ∀ b ∈ rows, key a = key b → version a = version b → a = b

instance [DecidableEq ρ] : Decidable (Consistent rows) := by
  unfold Consistent
  infer_instance

omit [LinearOrder ν] [DecidableEq κ] in
theorem Consistent.mono (h : Consistent rows) (hs : ∀ r ∈ rows', r ∈ rows) : Consistent rows' :=
  fun a ha b hb => h a (hs a ha) b (hs b hb)

theorem IsLatest.eq_latest (hc : Consistent rows) (h : IsLatest rows k r) :
    latest rows k = some r := by
  obtain ⟨r', hr'⟩ := exists_latest h.mem h.key_eq
  obtain ⟨hmem, hkey, hle⟩ := IsLatest.of_latest hr'
  have hv : version r' = version r :=
    le_antisymm (h.version_le r' hmem hkey) (hle r h.mem h.key_eq)
  rw [hr', hc r' hmem r h.mem (hkey.trans h.key_eq.symm) hv]

theorem latest_congr (hc : Consistent rows) (h : ∀ r, key r = k → (r ∈ rows ↔ r ∈ rows')) :
    latest rows k = latest rows' k := by
  cases hl : latest rows' k with
  | none =>
    rw [latest_eq_none] at hl ⊢
    exact fun r hr hk => hl r ((h r hk).mp hr) hk
  | some r =>
    obtain ⟨hmem, hkey, hle⟩ := IsLatest.of_latest hl
    exact IsLatest.eq_latest hc ⟨(h r hkey).mpr hmem, hkey,
      fun r' hr' hk => hle r' ((h r' hk).mp hr') hk⟩

theorem latest_map {ρ' : Type} [Versioned ρ' κ ν] {f : ρ → ρ'} (hk : ∀ r, key (f r) = key r)
    (hv : ∀ r, version (f r) = version r) (rows : List ρ) (k : κ) :
    latest (rows.map f) k = (latest rows k).map f := by
  induction rows with
  | nil => rfl
  | cons r rows ih =>
    rw [map_cons, latest, latest, ih, hk, pick_map hv]
    split_ifs <;> rfl

end Latest

end Versioned

end Pintail
