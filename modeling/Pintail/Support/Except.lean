import Mathlib.Data.List.Forall2

/-! # Successful computations

Inversion of successful runs in the `Except` monad: a sequence succeeds when each step does, and a
list is processed successfully when each of its items is.
-/

variable {α γ : Type} {R : α → γ → Prop} {as : List α} {cs : List γ} {c : γ}

theorem List.Forall₂.exists_of_mem_right
    (h : List.Forall₂ R as cs) (hc : c ∈ cs) : ∃ a ∈ as, R a c := by
  induction h with
  | nil => cases hc
  | @cons a c' as cs hac _ ih =>
    rcases mem_cons.mp hc with rfl | hc
    · exact ⟨a, mem_cons_self, hac⟩
    · obtain ⟨b, hb, hbc⟩ := ih hc
      exact ⟨b, mem_cons_of_mem _ hb, hbc⟩

theorem List.Forall₂.exists_of_mem_left
    (h : List.Forall₂ R as cs) {a : α} (ha : a ∈ as) : ∃ c ∈ cs, R a c :=
  h.flip.exists_of_mem_right ha

theorem List.Forall₂.trans_of {α β γ : Type*} {R : α → β → Prop} {S : β → γ → Prop}
    {T : α → γ → Prop} {as : List α} {bs : List β} {cs : List γ} (h : List.Forall₂ R as bs)
    (h' : List.Forall₂ S bs cs) (hT : ∀ {a b c}, R a b → S b c → T a c) : List.Forall₂ T as cs := by
  induction h generalizing cs with
  | nil =>
    cases h'
    exact .nil
  | cons hr _ ih =>
    cases h' with
    | cons hs h' => exact .cons (hT hr hs) (ih h')

theorem List.Forall₂.comp {α β γ : Type*} {R : α → β → Prop} {S : β → γ → Prop} {as : List α}
    {bs : List β} {cs : List γ} (h : List.Forall₂ R as bs) (h' : List.Forall₂ S bs cs) :
    List.Forall₂ (fun a c => ∃ b, R a b ∧ S b c) as cs :=
  h.trans_of h' fun {_ b _} hr hs => ⟨b, hr, hs⟩

theorem List.Forall₂.exists_getElem?_left (h : List.Forall₂ R as cs) {i : ℕ}
    (hc : cs[i]? = some c) : ∃ a, as[i]? = some a ∧ R a c := by
  induction h generalizing i with
  | nil => simp at hc
  | cons hr _ ih =>
    cases i with
    | zero =>
      cases hc
      exact ⟨_, rfl, hr⟩
    | succ i => exact ih hc

theorem Option.mapM_eq_some {f : α → Option γ} {items : List α} {results : List γ} :
    items.mapM f = some results ↔ List.Forall₂ (fun a c => f a = some c) items results := by
  induction items generalizing results with
  | nil => simp
  | cons a items ih =>
    simp only [List.mapM_cons, List.forall₂_cons_left_iff, Option.bind_eq_bind,
      Option.bind_eq_some_iff, Option.pure_def, Option.some.injEq]
    constructor
    · rintro ⟨c, hc, cs, hcs, rfl⟩
      exact ⟨c, cs, hc, ih.mp hcs, rfl⟩
    · rintro ⟨c, cs, hc, hcs, rfl⟩
      exact ⟨c, hc, cs, ih.mpr hcs, rfl⟩

namespace Except

open List

variable {ε α γ : Type} {x : Except ε α}

theorem exists_of_isOk (h : x.isOk = true) : ∃ a, x = .ok a := by
  cases x with
  | error e => cases h
  | ok a => exact ⟨a, rfl⟩

variable {f : α → Except ε γ} {a : α} {c : γ}

@[simp] theorem ok_bind : (Except.ok a >>= f) = f a := rfl

theorem bind_eq_ok : (x >>= f) = .ok c ↔ ∃ a, x = .ok a ∧ f a = .ok c := by
  cases x <;> simp [bind, Except.bind]

theorem map_eq_ok {f : α → γ} : (f <$> x) = .ok c ↔ ∃ a, x = .ok a ∧ f a = c := by
  cases x <;> simp

theorem map_eq_error {f : α → γ} {e : ε} : (f <$> x) = .error e ↔ x = .error e := by
  cases x <;> simp

theorem mapError_eq_ok {ε' : Type} {f : ε → ε'} : x.mapError f = .ok a ↔ x = .ok a := by
  cases x <;> simp [Except.mapError]

@[simp] theorem pure_eq_ok {b : α} : (pure a : Except ε α) = .ok b ↔ a = b := by
  simp [pure, Except.pure]

variable {items : List α} {results : List γ}

theorem mapM_eq_ok :
    items.mapM f = .ok results ↔ List.Forall₂ (fun a c => f a = .ok c) items results := by
  induction items generalizing results with
  | nil => rw [mapM_nil, pure_eq_ok, forall₂_nil_left_iff, eq_comm]
  | cons a items ih =>
    rw [mapM_cons, bind_eq_ok, forall₂_cons_left_iff]
    constructor
    · rintro ⟨c, hc, h⟩
      obtain ⟨cs, hcs, h⟩ := bind_eq_ok.mp h
      exact ⟨c, cs, hc, ih.mp hcs, (pure_eq_ok.mp h).symm⟩
    · rintro ⟨c, cs, hc, hcs, rfl⟩
      exact ⟨c, hc, bind_eq_ok.mpr ⟨cs, ih.mpr hcs, rfl⟩⟩

theorem forM_eq_ok {f : α → Except ε Unit} : items.forM f = .ok () ↔ ∀ a ∈ items, f a = .ok () := by
  induction items with
  | nil => simp
  | cons a items ih =>
    rw [forall_mem_cons, ← ih]
    change (f a >>= fun _ => items.forM f) = _ ↔ _
    rw [bind_eq_ok]
    constructor
    · rintro ⟨⟨⟩, ha, hi⟩
      exact ⟨ha, hi⟩
    · rintro ⟨ha, hi⟩
      exact ⟨(), ha, hi⟩

theorem mapM_eq_ok_iff_map (default : γ) :
    items.mapM f = .ok results ↔ (∀ a ∈ items, ∃ c, f a = .ok c) ∧
      results = items.map fun a => (f a).toOption.getD default := by
  rw [mapM_eq_ok]
  induction items generalizing results with
  | nil => simp
  | cons a items ih =>
    simp only [forall₂_cons_left_iff, ih, forall_mem_cons, map_cons]
    constructor
    · rintro ⟨c, cs, hc, ⟨hitems, rfl⟩, rfl⟩
      exact ⟨⟨⟨c, hc⟩, hitems⟩, by rw [hc]; rfl⟩
    · rintro ⟨⟨⟨c, hc⟩, hitems⟩, rfl⟩
      exact ⟨c, _, hc, ⟨hitems, rfl⟩, by rw [hc]; rfl⟩

theorem forall₂_of_mapM_eq_ok {R : γ → α → Prop} (h : items.mapM f = .ok results)
    (hR : ∀ a ∈ items, ∀ c, f a = .ok c → R c a) : List.Forall₂ R results items := by
  have hf := (forall₂_and_left (p := (· ∈ items)) _ _).mpr ⟨fun _ => id, mapM_eq_ok.mp h⟩
  exact (hf.imp fun a c hac => hR a hac.1 c hac.2).flip

end Except
