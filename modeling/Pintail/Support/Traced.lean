import Mathlib.Init

/-! # Computations with visible intermediate states

A computation changes a state and may fail; some of its changes are visible from outside at once.
Its outcome records every state an observer could have seen on the way, so a run that is cut short
stands at one of them. A computation that only takes steps of some kind keeps what those steps keep.
-/

namespace Pintail

open List

/-- The visible states a computation passed through, the state it left, and its result. -/
structure Outcome (σ ε α : Type) where
  visited : List σ
  final : σ
  result : Except ε α

/-- Computations on a state that may fail and whose visible changes are recorded. -/
def Traced (σ ε α : Type) : Type := σ → Outcome σ ε α

namespace Traced

variable {σ ε α γ : Type}

protected def pure (a : α) : Traced σ ε α := fun s => ⟨[], s, .ok a⟩

protected def bind (x : Traced σ ε α) (f : α → Traced σ ε γ) : Traced σ ε γ := fun s =>
  match x s with
  | ⟨visited, final, .error e⟩ => ⟨visited, final, .error e⟩
  | ⟨visited, final, .ok a⟩ =>
    let rest := f a final
    ⟨visited ++ rest.visited, rest.final, rest.result⟩

instance : Monad (Traced σ ε) where
  pure := Traced.pure
  bind := Traced.bind

def get : Traced σ ε σ := fun s => ⟨[], s, .ok s⟩

/-- A change only the computation itself can see. -/
def modify (f : σ → σ) : Traced σ ε Unit := fun s => ⟨[], f s, .ok ()⟩

/-- A change visible from outside as soon as it is made. -/
def publish (f : σ → σ) : Traced σ ε Unit := fun s => ⟨[f s], f s, .ok ()⟩

/-- States visible in passing, on the way to the next change. -/
def expose (f : σ → List σ) : Traced σ ε Unit := fun s => ⟨f s, s, .ok ()⟩

def fail (e : ε) : Traced σ ε α := fun s => ⟨[], s, .error e⟩

def lift : Except ε α → Traced σ ε α
  | .ok a => Traced.pure a
  | .error e => fail e

def void (x : Traced σ ε α) : Traced σ ε Unit := do
  let _ ← x
  pure ()

/-- The computation with its failure handed on as an answer. -/
def attempt (x : Traced σ ε α) : Traced σ ε (Except ε α) := fun s =>
  ⟨(x s).visited, (x s).final, .ok (x s).result⟩

def when (c : Bool) (x : Traced σ ε Unit) : Traced σ ε Unit := if c then x else pure ()

section Run

variable {s : σ}

@[simp] theorem run_pure (a : α) : (pure a : Traced σ ε α) s = ⟨[], s, .ok a⟩ := rfl

@[simp] theorem run_get : (get : Traced σ ε σ) s = ⟨[], s, .ok s⟩ := rfl

@[simp] theorem run_modify (f : σ → σ) : (modify f : Traced σ ε Unit) s = ⟨[], f s, .ok ()⟩ := rfl

@[simp] theorem run_publish (f : σ → σ) :
    (publish f : Traced σ ε Unit) s = ⟨[f s], f s, .ok ()⟩ := rfl

@[simp] theorem run_expose (f : σ → List σ) :
    (expose f : Traced σ ε Unit) s = ⟨f s, s, .ok ()⟩ := rfl

@[simp] theorem run_fail (e : ε) : (fail e : Traced σ ε α) s = ⟨[], s, .error e⟩ := rfl

@[simp] theorem run_lift (x : Except ε α) : (lift x : Traced σ ε α) s = ⟨[], s, x⟩ := by
  cases x <;> rfl

@[simp] theorem when_true (x : Traced σ ε Unit) : when true x = x := rfl

@[simp] theorem when_false (x : Traced σ ε Unit) : when false x = pure () := rfl

theorem run_bind (x : Traced σ ε α) (f : α → Traced σ ε γ) :
    (x >>= f) s = match x s with
      | ⟨visited, final, .error e⟩ => ⟨visited, final, .error e⟩
      | ⟨visited, final, .ok a⟩ =>
        ⟨visited ++ (f a final).visited, (f a final).final, (f a final).result⟩ := rfl

variable {f : α → Traced σ ε γ} {x : Traced σ ε α}

theorem run_bind_ok {visited : List σ} {final : σ} {a : α} (h : x s = ⟨visited, final, .ok a⟩) :
    (x >>= f) s = ⟨visited ++ (f a final).visited, (f a final).final, (f a final).result⟩ := by
  rw [run_bind, h]

theorem exists_of_bind_ok {c : γ} (h : ((x >>= f) s).result = .ok c) :
    ∃ a, (x s).result = .ok a ∧ (f a (x s).final).result = .ok c := by
  rw [run_bind] at h
  cases hx : x s with
  | mk visited final result =>
    rw [hx] at h
    cases result with
    | error e => cases h
    | ok a => exact ⟨a, rfl, h⟩

end Run

/-- Steps in a row: the states visible on the way, and the last. -/
inductive Chain (step : σ → List σ → σ → Prop) : σ → List σ → σ → Prop
  | refl (s : σ) : Chain step s [] s
  | cons {s s' s'' : σ} {visited rest : List σ} (h : step s visited s')
      (hrest : Chain step s' rest s'') : Chain step s (visited ++ rest) s''

/-- The computation takes steps only; a normal end meets `Q` and a failure `E`. -/
def Walks (step : σ → List σ → σ → Prop) (x : Traced σ ε α) (Q : α → σ → Prop) (E : ε → σ → Prop)
    (s : σ) : Prop :=
  Chain step s (x s).visited (x s).final ∧
    match (x s).result with
    | .ok a => Q a (x s).final
    | .error e => E e (x s).final

theorem Walks.of_ok {step : σ → List σ → σ → Prop} {x : Traced σ ε α} {Q : α → σ → Prop}
    {E : ε → σ → Prop} {s : σ} {a : α} (hx : Walks step x Q E s) (h : (x s).result = .ok a) :
    Q a (x s).final := by
  have hq := hx.2
  rwa [h] at hq

/-- A run that ends normally stood at a visible state with the property, the first one included. -/
def Passes (V : σ → Prop) (x : Traced σ ε α) (s : σ) : Prop :=
  ∀ a, (x s).result = .ok a → ∃ v ∈ s :: (x s).visited, V v

section Steps

variable {step : σ → List σ → σ → Prop} {s s' s'' : σ} {visited rest : List σ} {I V : σ → Prop}

theorem Chain.single (h : step s visited s') : Chain step s visited s' := by
  simpa using Chain.cons h (.refl s')

theorem Chain.append (h : Chain step s visited s') (h' : Chain step s' rest s'') :
    Chain step s (visited ++ rest) s'' := by
  induction h with
  | refl => exact h'
  | cons h _ ih =>
    rw [append_assoc]
    exact .cons h (ih h')

theorem Chain.mono {step' : σ → List σ → σ → Prop}
    (hstep : ∀ s visited s', step s visited s' → step' s visited s')
    (h : Chain step s visited s') : Chain step' s visited s' := by
  induction h with
  | refl s => exact .refl s
  | cons h _ ih => exact .cons (hstep _ _ _ h) ih

/-- What every step preserves holds at the end, and what it shows holds of every visible state. -/
theorem Chain.invariant
    (hstep : ∀ s visited s', step s visited s' → I s → (∀ v ∈ visited, V v) ∧ I s')
    (h : Chain step s visited s') (hI : I s) : (∀ v ∈ visited, V v) ∧ I s' := by
  induction h with
  | refl => exact ⟨nofun, hI⟩
  | cons h _ ih =>
    obtain ⟨hv, hI'⟩ := hstep _ _ _ h hI
    obtain ⟨hv', hI''⟩ := ih hI'
    refine ⟨fun v hmem => ?_, hI''⟩
    rcases mem_append.mp hmem with hmem | hmem
    · exact hv v hmem
    · exact hv' v hmem

theorem Chain.forall_visited (h : Chain (fun _ visited _ => ∀ v ∈ visited, V v)
    s visited s') : ∀ v ∈ visited, V v :=
  (h.invariant (I := fun _ => True) (fun _ _ _ hv _ => ⟨hv, trivial⟩) trivial).1

/-- What only visible changes bring about held of a visible state already. -/
theorem Chain.exists_visible
    (hstep : ∀ s visited s', step s visited s' → V s' → ∃ v ∈ s :: visited, V v)
    (h : Chain step s visited s') (hV : ∃ v ∈ s' :: rest, V v) :
    ∃ v ∈ s :: (visited ++ rest), V v := by
  induction h with
  | refl => exact hV
  | cons h _ ih =>
    obtain ⟨v, hv, hV⟩ := ih hV
    rw [append_assoc]
    rcases mem_cons.mp hv with rfl | hv
    · obtain ⟨v, hv, hV⟩ := hstep _ _ _ h hV
      exact ⟨v, (cons_sublist_cons.mpr (sublist_append_left _ _)).mem hv, hV⟩
    · exact ⟨v, mem_cons_of_mem _ (mem_append_right _ hv), hV⟩

/-- States follow each other in a transitive relation, up to a last one. -/
def Rising (R : σ → σ → Prop) (states : List σ) (last : σ) : Prop :=
  states.Pairwise R ∧ ∀ a ∈ states, R a last

variable {R : σ → σ → Prop}

theorem Rising.append (htrans : ∀ a b c, R a b → R b c → R a c) {states more : List σ} {last : σ}
    (h : Rising R states s) (h' : Rising R (s :: more) last) : Rising R (states ++ more) last := by
  obtain ⟨hp, hs⟩ := h
  obtain ⟨hp', hl⟩ := h'
  obtain ⟨hmore, hp'⟩ := pairwise_cons.mp hp'
  rw [forall_mem_cons] at hl
  refine ⟨pairwise_append.mpr ⟨hp, hp', fun a ha b hb => ?_⟩, fun a ha => ?_⟩
  · exact htrans _ _ _ (hs a ha) (hmore b hb)
  · rcases mem_append.mp ha with ha | ha
    · exact htrans _ _ _ (hs a ha) hl.1
    · exact hl.2 a ha

theorem Chain.rising (hrefl : ∀ s, R s s) (htrans : ∀ a b c, R a b → R b c → R a c)
    (hstep : ∀ s visited s', step s visited s' → I s → Rising R (s :: visited) s' ∧ I s')
    (h : Chain step s visited s') (hI : I s) : Rising R (s :: visited) s' := by
  induction h with
  | refl s => exact ⟨pairwise_singleton R s, by simpa using hrefl s⟩
  | cons h _ ih =>
    obtain ⟨hr, hI'⟩ := hstep _ _ _ h hI
    exact hr.append htrans (ih hI')

end Steps

section Rules

variable {step : σ → List σ → σ → Prop} {Q : α → σ → Prop} {E : ε → σ → Prop} {s : σ}

theorem walks_pure {a : α} (h : Q a s) : Walks step (pure a : Traced σ ε α) Q E s :=
  ⟨.refl s, h⟩

variable {x : Traced σ ε α} {f : α → Traced σ ε γ}

theorem walks_bind {Q : γ → σ → Prop}
    (h : Walks step x (fun a s' => Walks step (f a) Q E s') E s) : Walks step (x >>= f) Q E s := by
  obtain ⟨hv, hr⟩ := h
  unfold Walks
  rw [run_bind]
  rcases hx : x s with ⟨visited, final, e | a⟩
  · rw [hx] at hv hr
    exact ⟨hv, hr⟩
  · rw [hx] at hv hr
    exact ⟨hv.append hr.1, hr.2⟩

theorem walks_get {Q : σ → σ → Prop} (h : Q s s) : Walks step (get : Traced σ ε σ) Q E s :=
  ⟨.refl s, h⟩

theorem walks_modify {f : σ → σ} {Q : Unit → σ → Prop} (hstep : step s [] (f s)) (h : Q () (f s)) :
    Walks step (modify f : Traced σ ε Unit) Q E s := ⟨.single hstep, h⟩

theorem walks_publish {f : σ → σ} {Q : Unit → σ → Prop} (hstep : step s [f s] (f s))
    (h : Q () (f s)) : Walks step (publish f : Traced σ ε Unit) Q E s := ⟨.single hstep, h⟩

theorem walks_fail {e : ε} (h : E e s) : Walks step (fail e : Traced σ ε α) Q E s := ⟨.refl s, h⟩

theorem walks_lift {x : Except ε α} (hok : ∀ a, x = .ok a → Q a s)
    (herr : ∀ e, x = .error e → E e s) : Walks step (lift x : Traced σ ε α) Q E s := by
  cases x with
  | ok a => exact ⟨.refl s, hok a rfl⟩
  | error e => exact ⟨.refl s, herr e rfl⟩

theorem walks_ite {c : Prop} [Decidable c] {x y : Traced σ ε α} (ht : c → Walks step x Q E s)
    (hf : ¬ c → Walks step y Q E s) : Walks step (if c then x else y) Q E s := by
  by_cases h : c
  · rw [if_pos h]
    exact ht h
  · rw [if_neg h]
    exact hf h

theorem walks_when {c : Bool} {x : Traced σ ε Unit} {Q : Unit → σ → Prop}
    (ht : c = true → Walks step x Q E s) (hf : c = false → Q () s) :
    Walks step (when c x) Q E s := by
  cases c with
  | true => exact ht rfl
  | false => exact walks_pure (hf rfl)

variable {E' : ε → σ → Prop} {P : σ → Prop}

theorem walks_attempt {Q : Except ε α → σ → Prop}
    (h : Walks step x (fun a => Q (.ok a)) (fun e => Q (.error e)) s) :
    Walks step (attempt x) Q E' s := by
  obtain ⟨hv, hr⟩ := h
  refine ⟨hv, ?_⟩
  change Q (x s).result (x s).final
  generalize (x s).result = result at hr ⊢
  cases result <;> exact hr

theorem Walks.mono {Q' : α → σ → Prop} (h : Walks step x Q E s)
    (hQ : ∀ a s', Q a s' → Q' a s') (hE : ∀ e s', E e s' → E' e s') : Walks step x Q' E' s := by
  obtain ⟨hv, hr⟩ := h
  refine ⟨hv, ?_⟩
  generalize (x s).result = result at hr ⊢
  cases result with
  | ok a => exact hQ a _ hr
  | error e => exact hE e _ hr

theorem Walks.bind {Q' : γ → σ → Prop} (h : Walks step x Q E s)
    (hf : ∀ a s', Q a s' → Walks step (f a) Q' E s') : Walks step (x >>= f) Q' E s :=
  walks_bind (h.mono hf fun _ _ => id)

theorem Walks.void (h : Walks step x (fun _ s' => P s') E s) :
    Walks step (void x) (fun _ s' => P s') E s := h.bind fun _ _ hp => walks_pure hp

variable {step' : σ → List σ → σ → Prop}

theorem Walks.final (h : Walks step x (fun _ s' => P s') (fun _ s' => P s') s) : P (x s).final := by
  have hr := h.2
  generalize (x s).result = result at hr
  cases result <;> exact hr

theorem Walks.of_step (hstep : ∀ s visited s', step s visited s' → step' s visited s')
    (h : Walks step x Q E s) : Walks step' x Q E s := ⟨h.1.mono hstep, h.2⟩

theorem Walks.keep (hstep : ∀ s visited s', step s visited s' → P s → P s')
    (hP : P s) (h : Walks step x Q E s) :
    Walks step x (fun a s' => Q a s' ∧ P s') (fun e s' => E e s' ∧ P s') s := by
  obtain ⟨hv, hr⟩ := h
  have hend : P (x s).final :=
    (hv.invariant (V := fun _ => True) (fun s v s' hs hP => ⟨by simp, hstep s v s' hs hP⟩) hP).2
  refine ⟨hv, ?_⟩
  generalize (x s).result = result at hr ⊢
  cases result <;> exact ⟨hr, hend⟩

theorem Walks.whole
    (hstep : ∀ visited s', Chain step s visited s' → step' s visited s') (h : Walks step x Q E s) :
    Walks step' x (fun a s' => Q a s' ∧ ∃ visited, Chain step s visited s')
      (fun e s' => E e s' ∧ ∃ visited, Chain step s visited s') s := by
  obtain ⟨hv, hr⟩ := h
  refine ⟨.single (hstep _ _ hv), ?_⟩
  generalize (x s).result = result at hr ⊢
  cases result <;> exact ⟨hr, _, hv⟩

end Rules

section Passes

variable {step : σ → List σ → σ → Prop} {Q : α → σ → Prop} {E : ε → σ → Prop} {V : σ → Prop} {s : σ}
  {x : Traced σ ε α} {f : α → Traced σ ε γ}

theorem passes_of_left (h : Passes V x s) : Passes V (x >>= f) s := by
  intro c hc
  obtain ⟨a, ha, -⟩ := exists_of_bind_ok hc
  obtain ⟨v, hv, hV⟩ := h a ha
  refine ⟨v, (cons_sublist_cons.mpr ?_).mem hv, hV⟩
  rw [run_bind]
  rcases hx : x s with ⟨visited, final, e | a⟩
  · exact Sublist.refl _
  · exact sublist_append_left _ _

theorem passes_fail {e : ε} : Passes V (fail e : Traced σ ε α) s := nofun

theorem passes_get_bind {f : σ → Traced σ ε γ} (h : Passes V (f s) s) :
    Passes V (get >>= f) s := h

theorem passes_ite {c : Prop} [Decidable c] {x y : Traced σ ε α} (ht : c → Passes V x s)
    (hf : ¬ c → Passes V y s) : Passes V (if c then x else y) s := by
  by_cases h : c
  · rw [if_pos h]
    exact ht h
  · rw [if_neg h]
    exact hf h

variable (hstep : ∀ s visited s', step s visited s' → V s' → ∃ v ∈ s :: visited, V v)
include hstep

theorem Walks.passes (hx : Walks step x (fun _ s' => V s') E s) : Passes V x s := by
  intro a ha
  have hend : ∃ v ∈ [(x s).final], V v := ⟨_, mem_cons_self, hx.of_ok ha⟩
  have hV := hx.1.exists_visible hstep hend
  rwa [append_nil] at hV

theorem Walks.passes_bind (hx : Walks step x Q E s) (hf : ∀ a s', Q a s' → Passes V (f a) s') :
    Passes V (x >>= f) s := by
  intro c hc
  obtain ⟨a, ha, hc'⟩ := exists_of_bind_ok hc
  have hV := hx.1.exists_visible hstep (hf a _ (hx.of_ok ha) c hc')
  rw [run_bind]
  rcases hx' : x s with ⟨visited, final, e | b⟩
  · rw [hx'] at ha
    cases ha
  · rw [hx'] at ha hV
    cases ha
    exact hV

end Passes

end Traced

end Pintail
