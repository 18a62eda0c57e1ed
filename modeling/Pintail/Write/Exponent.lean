import Pintail.Words.Digits

/-! # Numbers with an exponent

A number with an exponent is written out by moving its point through its digits; the place of the
point is counted in 32 bits. The text denotes the number, unless that count overflows.
-/

namespace Pintail.Write

open List Words
open Option hiding max_eq_left

def maxShift : ℤ := 128

def wrapped (n : ℤ) : ℤ := n.bmod (2 ^ 32)

structure Mantissa where
  negative : Bool
  whole : List Char
  fraction : List Char

open Mantissa

namespace Mantissa

def split (negative : Bool) (digits : List Char) : Option Mantissa :=
  let whole := digits.takeWhile (· ≠ '.')
  let fraction := (digits.dropWhile (· ≠ '.')).tail
  if whole = [] ∧ fraction = [] then none
  else if (whole ++ fraction).all Char.isDigit then some ⟨negative, whole, fraction⟩
  else none

def read : List Char → Option Mantissa
  | '-' :: digits => split true digits
  | '+' :: digits => split false digits
  | digits => split false digits

def written (m : Mantissa) : List Char :=
  (if m.negative then ['-'] else []) ++ (m.whole ++ if m.fraction = [] then [] else '.' :: m.fraction)

end Mantissa

/-- Zeros are put behind the digits until they reach the point. -/
def padBehind (point : ℤ) (all : List Char) : Option (List Char) :=
  if 2 ^ 31 ≤ all.length then none
  else if all.length < point then padBehind point (all ++ ['0'])
  else some all
termination_by (point - all.length).toNat
decreasing_by rw [length_append, length_singleton]; omega

/-- Zeros are put before the digits until the point stands behind one. -/
def padBefore (point : ℤ) (all : List Char) : List Char × ℤ :=
  if point ≤ 0 then padBefore (point + 1) ('0' :: all) else (all, point)
termination_by (1 - point).toNat

def Mantissa.moved (m : Mantissa) (point : ℤ) : Option Mantissa := do
  let all ← padBehind point (m.whole ++ m.fraction)
  let (all, point) := padBefore point all
  some ⟨m.negative, all.take point.toNat, all.drop point.toNat⟩

def expandExponent (text : List Char) : Option (List Char) :=
  match text.dropWhile fun c => c ≠ 'e' ∧ c ≠ 'E' with
  | [] => none
  | _ :: exponent => do
    let exponent ← signed? (2 ^ 31) exponent
    if wrapped |exponent| > maxShift then none
    else
      let m ← read (text.takeWhile fun c => c ≠ 'e' ∧ c ≠ 'E')
      if 2 ^ 31 ≤ m.whole.length then none
      else (m.moved (wrapped (m.whole.length + exponent))).map written

namespace Mantissa

def digits (m : Mantissa) : List Char := m.whole ++ m.fraction

def value (m : Mantissa) : ℚ :=
  (if m.negative then -1 else 1) * Nat.ofDigitChars 10 m.digits 0 * 10 ^ (-m.fraction.length : ℤ)

structure Valid (m : Mantissa) : Prop where
  written : m.digits ≠ []
  isDigit : ∀ c ∈ m.digits, c.isDigit = true

variable {m : Mantissa}

theorem Valid.of_split {negative : Bool} {digits : List Char} (h : split negative digits = some m) :
    m.Valid := by
  simp only [split] at h
  split_ifs at h with hne hall
  cases h
  exact ⟨by simpa [Mantissa.digits] using hne, all_eq_true.mp hall⟩

theorem Valid.of_read {text : List Char} (h : read text = some m) : m.Valid := by
  unfold read at h
  split at h <;> exact .of_split h

theorem isDigit_ne {c : Char} (h : c.isDigit = true) :
    c ≠ '-' ∧ c ≠ '+' ∧ c ≠ '.' ∧ c ≠ 'e' ∧ c ≠ 'E' := by
  refine ⟨?_, ?_, ?_, ?_, ?_⟩ <;> rintro rfl <;> cases h

theorem Valid.split_written (h : m.Valid) (negative : Bool) :
    split negative (m.whole ++ if m.fraction = [] then [] else '.' :: m.fraction) =
      some ⟨negative, m.whole, m.fraction⟩ := by
  have hwhole : ∀ c ∈ m.whole, decide (c ≠ '.') = true := fun c hc =>
    decide_eq_true (isDigit_ne (h.isDigit c (mem_append_left _ hc))).2.2.1
  have hne : ¬ (m.whole = [] ∧ m.fraction = []) := by simpa [digits] using h.written
  have hall : (m.whole ++ m.fraction).all Char.isDigit = true := all_eq_true.mpr h.isDigit
  unfold split
  rw [takeWhile_append_of_pos hwhole, dropWhile_append_of_pos hwhole]
  split_ifs with hf
  · simp_all
  · simpa [hne] using hall

theorem Valid.read_written (h : m.Valid) (hw : m.whole ≠ []) : read m.written = some m := by
  obtain ⟨negative, whole, fraction⟩ := m
  unfold Mantissa.written
  cases negative with
  | true => exact h.split_written true
  | false =>
    obtain ⟨first, rest, rfl⟩ := exists_cons_of_ne_nil hw
    obtain ⟨hminus, hplus, -⟩ := isDigit_ne (h.isDigit first mem_cons_self)
    rw [← h.split_written false]
    simp [read, hminus, hplus]

theorem Valid.not_mem_written (h : m.Valid) : 'e' ∉ m.written ∧ 'E' ∉ m.written := by
  have hdigits : 'e' ∉ m.digits ∧ 'E' ∉ m.digits :=
    ⟨fun hc => absurd (h.isDigit _ hc) (by decide), fun hc => absurd (h.isDigit _ hc) (by decide)⟩
  unfold Mantissa.written
  split_ifs <;> simp_all [digits]

end Mantissa

theorem padBehind_eq_some {point : ℤ} {all out : List Char} :
    padBehind point all = some out → out = all ++ replicate (point - all.length).toNat '0' := by
  fun_induction padBehind point all with
  | case1 => nofun
  | case2 all _ hlt ih =>
    intro h
    rw [ih h, append_assoc, length_append, length_singleton, singleton_append, ← replicate_succ]
    congr 2
    push_cast
    omega
  | case3 all _ hle =>
    rintro ⟨⟩
    rw [Int.toNat_of_nonpos (by omega), replicate_zero, append_nil]

theorem padBefore_eq (point : ℤ) (all : List Char) :
    padBefore point all = (replicate (1 - point).toNat '0' ++ all, max point 1) := by
  fun_induction padBefore point all with
  | case1 point all hle ih =>
    rw [ih, show (1 - point).toNat = (1 - (point + 1)).toNat + 1 by omega, replicate_succ',
      append_assoc, singleton_append, max_eq_right (by omega), max_eq_right (by omega)]
  | case2 point all hgt =>
    rw [Int.toNat_of_nonpos (by omega), max_eq_left (by omega)]
    rfl

namespace Mantissa.Valid

variable {m m' : Mantissa} {point : ℤ}

theorem digits_moved (hm : m.Valid) (h : m.moved point = some m') :
    ∃ zeros more : ℕ, m'.negative = m.negative ∧ m'.whole ≠ [] ∧
      m'.digits = replicate zeros '0' ++ (m.digits ++ replicate more '0') ∧
      (m'.fraction.length : ℤ) = m.digits.length - point + more := by
  obtain ⟨all, hall, h⟩ := bind_eq_some_iff.mp h
  have hlen : 0 < m.digits.length := length_pos_iff.mpr hm.written
  obtain rfl := padBehind_eq_some hall
  rw [padBefore_eq] at h
  cases h
  refine ⟨(1 - point).toNat, (point - m.digits.length).toNat, rfl, ?_, take_append_drop _ _, ?_⟩
  · apply ne_nil_of_length_pos
    simp only [length_take, length_append, length_replicate, digits] at hlen ⊢
    omega
  · simp only [length_drop, length_append, length_replicate, digits] at hlen ⊢
    omega

/-- Moving the point multiplies the number by a power of ten. -/
theorem value_moved (hm : m.Valid) (h : m.moved point = some m') :
    m'.Valid ∧ m'.whole ≠ [] ∧ m'.value = m.value * 10 ^ (point - m.whole.length) := by
  obtain ⟨zeros, more, hneg, hwhole, hdigits, hlen⟩ := hm.digits_moved h
  refine ⟨⟨?_, fun c hc => ?_⟩, hwhole, ?_⟩
  · rw [hdigits]
    simp [hm.written]
  · simp only [hdigits, mem_append, mem_replicate] at hc
    rcases hc with ⟨-, rfl⟩ | hc | ⟨-, rfl⟩
    · rfl
    · exact hm.isDigit c hc
    · rfl
  · have hpow : (10 : ℚ) ^ more * 10 ^ (-m'.fraction.length : ℤ) =
        10 ^ (-m.fraction.length : ℤ) * 10 ^ (point - m.whole.length) := by
      rw [← zpow_natCast, ← zpow_add₀ (by norm_num), ← zpow_add₀ (by norm_num), hlen, digits,
        length_append]
      congr 1
      push_cast
      omega
    rw [value, value, hneg, hdigits, Nat.ofDigitChars_append,
      Nat.ofDigitChars_append, Nat.ofDigitChars_replicate_zero, Nat.ofDigitChars_replicate_zero,
      mul_zero]
    push_cast
    linear_combination ((if m.negative then -1 else 1) * Nat.ofDigitChars 10 m.digits 0 : ℚ) * hpow

end Mantissa.Valid

theorem neg_le_signed? {limit : ℕ} {text : List Char} {n : ℤ} (h : signed? limit text = some n) :
    -limit ≤ n := by
  unfold signed? at h
  split at h <;> simp [bind_eq_some_iff, filter_eq_some_iff] at h
  · obtain ⟨number, ⟨-, hle⟩, rfl⟩ := h
    omega
  · obtain ⟨number, -, rfl⟩ := h
    omega

theorem wrapped_eq_iff {n : ℤ} (h : -2 ^ 31 ≤ n) : wrapped n = n ↔ n < 2 ^ 31 := by
  constructor
  · intro heq
    have := @Int.bmod_lt n (2 ^ 32) (by decide)
    rw [wrapped] at heq
    omega
  · intro hlt
    exact Int.bmod_eq_of_le (by omega) (by omega)

/-- The text that comes out has no exponent, and it denotes the number exactly when the place of the
point does not overflow or the number is zero. -/
theorem expandExponent_exact_iff {text out : List Char} (h : expandExponent text = some out) :
    ∃ number marker exponent m shift, text = number ++ marker :: exponent ∧
      (marker = 'e' ∨ marker = 'E') ∧ read number = some m ∧
      signed? (2 ^ 31) exponent = some shift ∧ 'e' ∉ out ∧ 'E' ∉ out ∧
      ((read out).map value = some (m.value * 10 ^ shift) ↔
        m.whole.length + shift < 2 ^ 31 ∨ m.value = 0) := by
  unfold expandExponent at h
  split at h
  · cases h
  · rename_i marker exponent hdrop
    obtain ⟨shift, hshift, h⟩ := bind_eq_some_iff.mp h
    split_ifs at h
    obtain ⟨m, hm, h⟩ := bind_eq_some_iff.mp h
    split_ifs at h
    obtain ⟨m', hmoved, rfl⟩ := map_eq_some_iff.mp h
    obtain ⟨hvalid, hwhole, hvalue⟩ := (Mantissa.Valid.of_read hm).value_moved hmoved
    refine ⟨_, marker, exponent, m, shift, ?_, ?_, hm, hshift, hvalid.not_mem_written.1,
      hvalid.not_mem_written.2, ?_⟩
    · rw [← hdrop, takeWhile_append_dropWhile]
    · have hmarker := head?_dropWhile_not (fun c => decide (c ≠ 'e' ∧ c ≠ 'E')) text
      rw [hdrop] at hmarker
      simpa [or_iff_not_imp_left] using hmarker
    · have hlow := neg_le_signed? hshift
      rw [hvalid.read_written hwhole, map_some, some.injEq, hvalue,
        mul_eq_mul_left_iff, zpow_right_inj₀ (by norm_num) (by norm_num), sub_eq_iff_eq_add',
        wrapped_eq_iff (by omega)]

theorem expandExponent_exact_iff_hundredths : expandExponent "15e-2".toList = some "0.15".toList ∧
    (read "0.15".toList).map value = some (15 * 10 ^ (-2 : ℤ)) := by
  have h : expandExponent "15e-2".toList = some "0.15".toList := by
    change (moved ⟨false, ['1', '5'], []⟩ 0).map written = _
    simp [moved, padBehind, padBefore_eq, written]
  obtain ⟨number, marker, exponent, m, shift, htext, hmarker, hm, hshift, -, -, hexact⟩ :=
    expandExponent_exact_iff h
  obtain ⟨rfl, rfl⟩ : number = ['1', '5'] ∧ exponent = ['-', '2'] := by
    rcases number with _ | ⟨a, _ | ⟨b, _ | ⟨c, _ | ⟨d, _ | ⟨e, _ | ⟨f, number⟩⟩⟩⟩⟩⟩ <;>
      cases htext
    case cons.cons.nil => exact ⟨rfl, rfl⟩
    all_goals exact absurd hmarker (by decide)
  obtain rfl : ⟨false, ['1', '5'], []⟩ = m := Option.some.inj hm
  obtain rfl : -2 = shift := Option.some.inj hshift
  have hvalue : value ⟨false, ['1', '5'], []⟩ = 15 := by
    have hdigits : Nat.ofDigitChars 10 ['1', '5'] 0 = 15 := by decide
    simp [value, digits, hdigits]
  rw [hvalue] at hexact
  exact ⟨h, hexact.mpr (.inl (by decide))⟩

/-- One and 2147483646 zeros, to be multiplied by ten: the place of the point overflows. -/
theorem expandExponent_overflows : ∃ number m out, read number = some m ∧
    expandExponent (number ++ ['e', '1']) = some out ∧
    (read out).map value ≠ some (m.value * 10 ^ (1 : ℤ)) := by
  obtain ⟨n, hn⟩ : ∃ n : ℕ, n + 2 = 2 ^ 31 := ⟨2 ^ 31 - 2, rfl⟩
  let m : Mantissa := ⟨false, '1' :: replicate n '0', []⟩
  have hvalid : m.Valid := by
    refine ⟨cons_ne_nil _ _, fun c hc => ?_⟩
    simp only [digits, m, append_nil, mem_cons, mem_replicate] at hc
    rcases hc with rfl | ⟨-, rfl⟩ <;> rfl
  have hnone : ∀ c ∈ m.whole, decide (c ≠ 'e' ∧ c ≠ 'E') = true := fun c hc =>
    decide_eq_true (isDigit_ne (hvalid.isDigit c (mem_append_left _ hc))).2.2.2
  have hread : read m.whole = some m := by
    have h := hvalid.read_written (cons_ne_nil _ _)
    simpa [written, m] using h
  have hpoint : wrapped (m.whole.length + 1) = -2 ^ 31 := by
    rw [show (m.whole.length + 1 : ℤ) = 2 ^ 31 by simp [m]; omega]
    rfl
  obtain ⟨m', hmoved⟩ : ∃ m', m.moved (-2 ^ 31) = some m' := by
    have hlen : ¬ 2 ^ 31 ≤ (m.whole ++ m.fraction).length := by simp [m]; omega
    rw [moved, padBehind, if_neg hlen, if_neg (by omega), bind_eq_bind, bind_some, padBefore_eq]
    exact ⟨_, rfl⟩
  obtain ⟨hvalid', hwhole, hvalue⟩ := hvalid.value_moved hmoved
  refine ⟨m.whole, m, m'.written, hread, ?_, ?_⟩
  · have hlen : ¬ 2 ^ 31 ≤ m.whole.length := by simp [m]; omega
    have hone : signed? (2 ^ 31) ['1'] = some 1 := by decide
    rw [expandExponent, dropWhile_append_of_pos hnone, takeWhile_append_of_pos hnone]
    change (signed? (2 ^ 31) ['1']).bind _ = _
    rw [hone, bind_some, if_neg (by decide)]
    change (read (m.whole ++ [])).bind _ = _
    rw [append_nil, hread, bind_some, if_neg hlen, hpoint, hmoved]
    rfl
  · rw [hvalid'.read_written hwhole, map_some, ne_eq, some.injEq, hvalue,
      mul_eq_mul_left_iff, zpow_right_inj₀ (by norm_num) (by norm_num), not_or]
    refine ⟨by omega, ?_⟩
    simp [value, digits, m, Nat.ofDigitChars_cons]

end Pintail.Write
