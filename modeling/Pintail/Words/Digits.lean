import Mathlib

/-! # Numbers in text

Decimal numbers as a program reads them: a sign where the type has one, then at least one digit,
and no more than the type holds.
-/

namespace Pintail.Words

open Nat Option

def digit? (c : Char) : Option ℕ :=
  if '0' ≤ c ∧ c ≤ '9' then some (c.toNat - '0'.toNat) else none

/-- The number written in decimal digits, of which there is at least one. -/
def digits? : List Char → Option ℕ
  | [] => none
  | first :: rest => (first :: rest).foldlM (fun number c => (10 * number + ·) <$> digit? c) 0

/-- A number below the limit; a plus sign may stand before it. -/
def unsigned? (limit : ℕ) : List Char → Option ℕ
  | '+' :: rest => (digits? rest).filter (· < limit)
  | chars => (digits? chars).filter (· < limit)

/-- A number from minus the limit up to the limit, with or without a sign. -/
def signed? (limit : ℕ) : List Char → Option ℤ
  | '-' :: rest => ((digits? rest).filter (· ≤ limit)).map fun number => -(number : ℤ)
  | chars => (unsigned? limit chars).map fun number => (number : ℤ)

/-- Read decimal digits behind a number already read, up to the first character that spoils it. -/
def readDigits (limit : ℕ) : ℕ → List Char → Except String ℕ
  | number, [] => .ok number
  | number, c :: rest =>
    match digit? c with
    | none => .error "invalid digit found in string"
    | some digit =>
      if 10 * number + digit < limit then readDigits limit (10 * number + digit) rest
      else .error "number too large to fit in target type"

def parseUnsigned (limit : ℕ) : List Char → Except String ℕ
  | [] => .error "cannot parse integer from empty string"
  | ['+'] => .error "invalid digit found in string"
  | '+' :: rest => readDigits limit 0 rest
  | chars => readDigits limit 0 chars

theorem readDigits_append (limit number : ℕ) (chars more : List Char) :
    readDigits limit number (chars ++ more) =
      (readDigits limit number chars).bind fun number => readDigits limit number more := by
  induction chars generalizing number with
  | nil => rfl
  | cons c chars ih =>
    rw [List.cons_append, readDigits, readDigits]
    cases digit? c with
    | none => rfl
    | some digit =>
      dsimp only
      split_ifs
      · exact ih _
      · rfl

variable {n : ℕ} {limit n width value : ℕ} {chars : List Char}

theorem digit?_digitChar (h : n < 10) : digit? n.digitChar = some n := by
  have : ∀ n < 10, digit? (digitChar n) = some n := by decide
  exact this n h

theorem readDigits_toDigits (h : n < limit) : readDigits limit 0 (toDigits 10 n) = .ok n := by
  induction n using Nat.strongRecOn with
  | ind n ih =>
    rw [toDigits_eq_if (by decide)]
    split_ifs with hn
    · simp [readDigits, digit?_digitChar hn, h]
    · have hdiv : 10 * (n / 10) + n % 10 = n := div_add_mod n 10
      rw [readDigits_append, ih (n / 10) (by omega) (by omega)]
      simp [Except.bind, readDigits, digit?_digitChar (mod_lt n (by decide)), hdiv, h]

theorem parseUnsigned_toDigits (h : n < limit) : parseUnsigned limit (toDigits 10 n) = .ok n := by
  have hplus : '+' ∉ toDigits 10 n := fun hc =>
    absurd (isDigit_of_mem_toDigits (by decide) (by decide) hc) (by decide)
  rw [← readDigits_toDigits h]
  cases hd : toDigits 10 n with
  | nil => exact absurd hd toDigits_ne_nil
  | cons c rest =>
    have hc : c ≠ '+' := by
      rintro rfl
      exact hplus (hd ▸ List.mem_cons_self)
    cases rest <;> simp [parseUnsigned, hc]

def padded : ℕ → ℕ → List Char
  | 0, _ => []
  | width + 1, value => padded width (value / 10) ++ [digitChar (value % 10)]

@[simp] theorem length_padded (width value : ℕ) : (padded width value).length = width := by
  induction width generalizing value with
  | zero => rfl
  | succ width ih => simp [padded, ih]

theorem foldlM_padded (h : value < 10 ^ width) (number : ℕ) :
    (padded width value).foldlM (fun number c => (10 * number + ·) <$> digit? c) number =
      some (number * 10 ^ width + value) := by
  induction width generalizing value with
  | zero =>
    have : value = 0 := by simpa using h
    simp [padded, this]
  | succ width ih =>
    have hdiv : value / 10 < 10 ^ width := by
      omega
    rw [padded, List.foldlM_append, ih hdiv]
    simp only [bind_eq_bind, bind_some, List.foldlM_cons, List.foldlM_nil,
      digit?_digitChar (mod_lt value (by decide)), map_eq_map, map_some]
    simp only [pure_def, some.injEq]
    rw [pow_succ, ← mul_assoc]
    omega

theorem digits?_padded (hw : 0 < width) (h : value < 10 ^ width) :
    digits? (padded width value) = some value := by
  have hfold := foldlM_padded h 0
  rw [zero_mul, zero_add] at hfold
  cases hp : padded width value with
  | nil =>
    have := length_padded width value
    rw [hp] at this
    simp at this
    omega
  | cons first rest => rwa [hp] at hfold

theorem digit?_eq_some {c : Char} (h : digit? c = some n) : n < 10 ∧ c = n.digitChar := by
  unfold digit? at h
  split_ifs at h with hc
  cases h
  have h0 : 48 ≤ c.toNat := hc.1
  have h1 : c.toNat ≤ 57 := hc.2
  have hread : ∀ n ≤ 9, Char.ofNat (48 + n) = digitChar n := by decide
  refine ⟨by show c.toNat - 48 < 10; omega, ?_⟩
  show c = (c.toNat - 48).digitChar
  rw [← hread (c.toNat - 48) (by omega), Nat.add_sub_cancel' h0, Char.ofNat_toNat]

theorem foldlM_digits
    (h : chars.foldlM (fun number c => (10 * number + ·) <$> digit? c) 0 = some n) :
    n < 10 ^ chars.length ∧ chars = padded chars.length n := by
  induction chars using List.reverseRecOn generalizing n with
  | nil =>
    cases h
    exact ⟨by decide, rfl⟩
  | append_singleton chars c ih =>
    rw [List.foldlM_append] at h
    simp only [bind_eq_bind, bind_eq_some_iff, List.foldlM_cons, List.foldlM_nil,
      map_eq_map, map_eq_some_iff, pure_def, some.injEq] at h
    obtain ⟨m, hm, k, ⟨d, hd, rfl⟩, rfl⟩ := h
    obtain ⟨hlt, hchars⟩ := ih hm
    obtain ⟨hd10, rfl⟩ := digit?_eq_some hd
    rw [List.length_append, List.length_singleton, padded, show (10 * m + d) / 10 = m by omega,
      show (10 * m + d) % 10 = d by omega, ← hchars]
    exact ⟨by omega, rfl⟩

theorem digits?_eq_some (h : digits? chars = some n) :
    n < 10 ^ chars.length ∧ chars = padded chars.length n := by
  cases chars with
  | nil => cases h
  | cons c rest => exact foldlM_digits h

theorem padded_append_zeros (width value count : ℕ) :
    padded width value ++ List.replicate count '0' = padded (width + count) (value * 10 ^ count) := by
  induction count with
  | zero => simp
  | succ count ih =>
    rw [List.replicate_succ', ← List.append_assoc, ih, ← add_assoc, padded, pow_succ,
      ← Nat.mul_assoc, Nat.mul_div_cancel _ (by decide), Nat.mul_mod_left]
    rfl

end Pintail.Words
