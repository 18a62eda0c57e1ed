import Mathlib.Data.List.Forall2

/-! # Reading from the front of a byte string

A decoder consumes a front part of its input and leaves the rest. `Reads d bytes a` says that `d`
turns exactly `bytes` into `a` whatever follows them. Such facts compose along monadic code, so a
format is inverted by following the decoder.
-/

namespace Pintail.Bytes

variable {β ε α γ : Type}

/-- Computations on the unread input that may fail with an error of type `ε`. -/
abbrev Decode (β ε : Type) := StateT (List β) (Except ε)

def Decode.times (d : Decode β ε α) : ℕ → Decode β ε (List α)
  | 0 => pure []
  | n + 1 => do
    let a ← d
    let as ← times d n
    pure (a :: as)

/-- The decoder reads exactly `bytes` as `a`, whatever follows. -/
def Reads (d : Decode β ε α) (bytes : List β) (a : α) : Prop :=
  ∀ rest, d.run (bytes ++ rest) = .ok (a, rest)

variable {d : Decode β ε α} {bytes bytes' : List β} {a : α}

theorem Reads.pure (a : α) : Reads (Pure.pure a : Decode β ε α) [] a := fun _ => rfl

variable {f : α → Decode β ε γ} {c : γ}

theorem Reads.bind (h : Reads d bytes a)
    (h' : Reads (f a) bytes' c) : Reads (d >>= f) (bytes ++ bytes') c := by
  intro rest
  rw [List.append_assoc, StateT.run_bind, h]
  exact h' rest

theorem Reads.andThen (h : Reads d bytes a) (h' : Reads (f a) [] c) : Reads (d >>= f) bytes c := by
  simpa using h.bind h'

theorem Reads.run_bind (h : Reads d bytes a) (rest : List β) :
    (d >>= f).run (bytes ++ rest) = (f a).run rest := by
  rw [StateT.run_bind, h]
  rfl

theorem Reads.map {f : α → γ} (h : Reads d bytes a) :
    Reads (do let x ← d; Pure.pure (f x)) bytes (f a) :=
  h.andThen (Reads.pure (f a))

theorem Reads.lift {x : Except ε α} (h : x = .ok a) : Reads (liftM x : Decode β ε α) [] a := by
  subst h
  exact fun _ => rfl

theorem Reads.run (h : Reads d bytes a) : d.run bytes = .ok (a, []) := by
  simpa using h []

variable {chunks : List (List β)} {as : List α}

theorem Reads.times (h : List.Forall₂ (Reads d) chunks as) :
    Reads (d.times as.length) chunks.flatten as := by
  induction h with
  | nil => exact Reads.pure []
  | cons hr _ ih => exact hr.bind (ih.map (f := (_ :: ·)))

theorem length_mul_le_flatten {w : ℕ} (h : List.Forall₂ (fun c _ => w ≤ c.length) chunks as) :
    as.length * w ≤ chunks.flatten.length := by
  induction h with
  | nil => simp
  | cons hc _ ih =>
    rw [List.flatten_cons, List.length_append, List.length_cons, Nat.succ_mul]
    omega

end Pintail.Bytes
