import Pintail.Support.Except

/-! # Streams of self-delimiting frames

A framing recognises one complete frame at the front of a byte string, or reports that the bytes
end too early. Scanning whole frames followed by a torn tail folds over their contents, and every
cut of a frame stream is a stream of whole frames followed by a torn tail.
-/

namespace Pintail.Bytes

open List

variable {β π σ ε : Type}

/-- A recogniser of the frame at the front of a byte string; it always consumes something. -/
structure Framing (β π : Type) where
  next : List β → Option (π × List β)
  next_length : ∀ {bytes content rest}, next bytes = some (content, rest) →
    rest.length < bytes.length

namespace Framing

variable (F : Framing β π)

/-- Fold over the frames of a byte string up to the first incomplete one. -/
def scan (step : σ → π → Except ε σ) (s : σ) (bytes : List β) : Except ε σ :=
  match h : F.next bytes with
  | none => .ok s
  | some (content, rest) =>
    match step s content with
    | .error e => .error e
    | .ok s' =>
      have := F.next_length h
      scan step s' rest
termination_by bytes.length

/-- The bytes are one complete frame, whatever follows. -/
def Frame (bytes : List β) (content : π) : Prop :=
  ∀ rest, F.next (bytes ++ rest) = some (content, rest)

def Torn (bytes : List β) : Prop := F.next bytes = none

/-- Every way of stopping inside the bytes leaves an incomplete frame. -/
def Unsplit (bytes : List β) : Prop := ∀ n < bytes.length, F.Torn (bytes.take n)

variable {F}

variable {step : σ → π → Except ε σ} {s : σ} {bytes : List β}

theorem scan_torn (h : F.Torn bytes) : F.scan step s bytes = .ok s := by
  rw [scan]
  split
  · rfl
  · simp_all [Torn]

theorem scan_frame {rest : List β} {content : π} (h : F.Frame bytes content) :
    F.scan step s (bytes ++ rest) = step s content >>= fun s' => F.scan step s' rest := by
  rw [scan]
  split
  · simp_all [h rest]
  · rename_i content' rest' h'
    obtain ⟨rfl, rfl⟩ := Prod.mk.inj (Option.some.inj ((h rest).symm.trans h'))
    cases step s content <;> rfl

theorem scan_flatten {chunks : List (List β)} {contents : List π} {tail : List β}
    (h : List.Forall₂ F.Frame chunks contents) (ht : F.Torn tail) (s : σ) :
    F.scan step s (chunks.flatten ++ tail) = contents.foldlM step s := by
  induction h generalizing s with
  | nil => exact scan_torn ht
  | cons hf _ ih =>
    rw [flatten_cons, append_assoc, scan_frame hf]
    exact congrArg _ (funext ih)

end Framing

theorem exists_cut_flatten (chunks : List (List β)) {n : ℕ} (hn : n ≤ chunks.flatten.length) :
    ∃ k ≤ chunks.length, ∃ tail, chunks.flatten.take n = (chunks.take k).flatten ++ tail ∧
      (tail = [] ∧ k = chunks.length ∨
        ∃ c m, chunks[k]? = some c ∧ m < c.length ∧ tail = c.take m) := by
  induction chunks generalizing n with
  | nil => exact ⟨0, Nat.le_refl _, [], by simp, .inl ⟨rfl, rfl⟩⟩
  | cons c chunks ih =>
    by_cases hc : n < c.length
    · refine ⟨0, Nat.zero_le _, c.take n, ?_, .inr ⟨c, n, rfl, hc, rfl⟩⟩
      rw [flatten_cons, take_append_of_le_length (Nat.le_of_lt hc)]
      rfl
    · rw [flatten_cons, length_append] at hn
      obtain ⟨k, hk, tail, ht, hend⟩ := ih (n := n - c.length) (by omega)
      refine ⟨k + 1, by simpa using hk, tail, ?_, ?_⟩
      · rw [flatten_cons, take_append, take_of_length_le (by omega), ht,
          take_succ_cons, flatten_cons, append_assoc]
      · simpa using hend

end Pintail.Bytes
