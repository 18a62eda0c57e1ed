import Mathlib.Data.Finset.Card

/-! # Saturation of a finite set

A set is enlarged step by step until a step adds nothing. When every step stays within a finite
set, as many steps as that set has members end in a fixed point.
-/

namespace Pintail

variable {α : Type*} (step : Finset α → Finset α)

def saturate : ℕ → Finset α → Finset α
  | 0, s => s
  | fuel + 1, s => if (step s).card = s.card then step s else saturate fuel (step s)

variable {step}

variable {s : Finset α}

variable {P : Finset α → Prop}

theorem saturate_induct (hstep : ∀ s, P s → P (step s)) (fuel : ℕ) (h : P s) :
    P (saturate step fuel s) := by
  induction fuel generalizing s with
  | zero => exact h
  | succ fuel ih =>
    unfold saturate
    split
    · exact hstep s h
    · exact ih (hstep s h)

theorem subset_saturate (hgrows : ∀ s, s ⊆ step s) (fuel : ℕ) (s : Finset α) :
    s ⊆ saturate step fuel s :=
  saturate_induct (fun t ht => ht.trans (hgrows t)) fuel (Finset.Subset.refl s)

variable {u : Finset α}

theorem step_saturate (hgrows : ∀ s, s ⊆ step s) (hwithin : ∀ s ⊆ u, step s ⊆ u)
    {fuel : ℕ} (hs : s ⊆ u) (hfuel : u.card < s.card + fuel) :
    step (saturate step fuel s) = saturate step fuel s := by
  induction fuel generalizing s with
  | zero => exact absurd (Finset.card_le_card hs) (by omega)
  | succ fuel ih =>
    unfold saturate
    split
    · rename_i hcard
      have hfixed : step s = s := (Finset.eq_of_subset_of_card_le (hgrows s) hcard.le).symm
      rw [hfixed, hfixed]
    · rename_i hcard
      have hlt := lt_of_le_of_ne (Finset.card_le_card (hgrows s)) (Ne.symm hcard)
      exact ih (hwithin s hs) (by omega)

variable {β : Type*} {add : Finset α → β → Finset α} {l : List β}

theorem subset_foldl (hgrows : ∀ s, ∀ b ∈ l, s ⊆ add s b) (s : Finset α) : s ⊆ l.foldl add s :=
  l.foldlRecOn add (Finset.Subset.refl s) fun s' hs b hb => hs.trans (hgrows s' b hb)

theorem foldl_subset (hwithin : ∀ s ⊆ u, ∀ b ∈ l, add s b ⊆ u) (hs : s ⊆ u) :
    l.foldl add s ⊆ u := l.foldlRecOn (motive := (· ⊆ u)) add hs hwithin

theorem add_eq_of_foldl_eq (hgrows : ∀ s, ∀ b ∈ l, s ⊆ add s b) (h : l.foldl add s = s) :
    ∀ b ∈ l, add s b = s := by
  induction l with
  | nil => simp
  | cons b l ih =>
    simp only [List.forall_mem_cons] at hgrows
    have hfirst : add s b = s := by
      apply Finset.Subset.antisymm
      · conv_rhs => rw [← h]
        exact subset_foldl (fun s => (hgrows s).2) _
      · exact (hgrows s).1
    rw [List.foldl_cons, hfirst] at h
    exact List.forall_mem_cons.mpr ⟨hfirst, ih (fun s => (hgrows s).2) h⟩

end Pintail
