import Mathlib.Data.Nat.Bitwise
import Mathlib.Tactic.IntervalCases
import Mathlib.Tactic.Positivity
import Pintail.Bytes.LittleEndian

/-! # Bits of byte strings

Bit `p` of a byte string is bit `p % 8` of its byte `p / 8`, which is bit `p` of the number the
string spells. Bits are marked one at a time, and a field of neighbouring bits is read through any
window of bytes that covers it.
-/

namespace Pintail.Bytes

open List Nat

def bitAt (bytes : List UInt8) (p : ℕ) : Bool :=
  bytes.getD (p / 8) 0 &&& (1 <<< UInt8.ofNat (p % 8)) != 0

def mark (bytes : List UInt8) (p : ℕ) : List UInt8 :=
  bytes.modify (p / 8) (· ||| 1 <<< UInt8.ofNat (p % 8))

/-- The number spelled by the `width` bits from bit `start` on. -/
def field (bytes : List UInt8) (start width : ℕ) : ℕ := leNat bytes / 2 ^ start % 2 ^ width

theorem toNat_one_shiftLeft_uint8 {k : ℕ} (hk : k < 8) :
    ((1 : UInt8) <<< UInt8.ofNat k).toNat = 2 ^ k := by
  interval_cases k <;> rfl

theorem testBit_leNat (bytes : List UInt8) (p : ℕ) :
    (leNat bytes).testBit p = (bytes.getD (p / 8) 0).toNat.testBit (p % 8) := by
  induction bytes generalizing p with
  | nil => simp
  | cons byte bytes ih =>
    have hbyte : byte.toNat < 2 ^ 8 := byte.toNat_lt
    rw [leNat, add_comm, Nat.testBit_two_pow_mul_add _ hbyte]
    by_cases hp : p < 8
    · rw [if_pos hp, Nat.div_eq_of_lt hp, Nat.mod_eq_of_lt hp]
      rfl
    · obtain ⟨q, rfl⟩ := Nat.exists_eq_add_of_le (Nat.le_of_not_lt hp)
      rw [if_neg hp, Nat.add_sub_cancel_left, ih, Nat.add_div_left q (by norm_num),
        Nat.add_mod_left, getD_cons_succ]

theorem bitAt_eq_testBit (bytes : List UInt8) (p : ℕ) :
    bitAt bytes p = (leNat bytes).testBit p := by
  have hp : p % 8 < 8 := mod_lt p (by norm_num)
  rw [testBit_leNat, bitAt, Bool.eq_iff_iff, bne_iff_ne, ne_eq, ← UInt8.toNat_inj,
    UInt8.toNat_and, toNat_one_shiftLeft_uint8 hp, and_two_pow]
  cases (bytes.getD (p / 8) 0).toNat.testBit (p % 8) <;> simp

@[simp] theorem length_mark (bytes : List UInt8) (p : ℕ) : (mark bytes p).length = bytes.length :=
  length_modify ..

variable {bytes : List UInt8} {start width : ℕ}

theorem testBit_leNat_mark {p : ℕ} (hp : p < 8 * bytes.length) (q : ℕ) :
    (leNat (mark bytes p)).testBit q = ((leNat bytes).testBit q || decide (q = p)) := by
  have hbyte : p / 8 < bytes.length := by omega
  rw [testBit_leNat, testBit_leNat, mark, getD_eq_getElem?_getD, getElem?_modify,
    getD_eq_getElem?_getD]
  by_cases hdiv : p / 8 = q / 8
  · have hq : q / 8 < bytes.length := hdiv ▸ hbyte
    rw [getElem?_eq_getElem hq]
    simp only [hdiv, if_true, Option.map_eq_map, Option.map_some, Option.getD_some,
      UInt8.toNat_or, toNat_one_shiftLeft_uint8 (mod_lt p (by norm_num : 0 < 8)),
      testBit_or, testBit_two_pow]
    congr 1
    rw [decide_eq_decide]
    exact ⟨fun hmod => (ext_div_mod hdiv hmod).symm, fun h => h ▸ rfl⟩
  · have hne : q ≠ p := fun h => hdiv (h ▸ rfl)
    simp [hdiv, hne]

theorem testBit_leNat_foldl_mark {positions : List ℕ} (h : ∀ p ∈ positions, p < 8 * bytes.length)
    (q : ℕ) :
    (leNat (positions.foldl mark bytes)).testBit q =
      ((leNat bytes).testBit q || decide (q ∈ positions)) := by
  induction positions generalizing bytes with
  | nil => simp
  | cons p positions ih =>
    have hp := h p mem_cons_self
    rw [foldl_cons, ih (fun r hr => by simpa using h r (mem_cons_of_mem p hr)),
      testBit_leNat_mark hp, Bool.or_assoc]
    congr 1
    rw [← Bool.decide_or, decide_eq_decide, mem_cons]

@[simp] theorem length_foldl_mark (bytes : List UInt8) (positions : List ℕ) :
    (positions.foldl mark bytes).length = bytes.length := by
  induction positions generalizing bytes with
  | nil => rfl
  | cons p positions ih => rw [foldl_cons, ih, length_mark]

@[simp] theorem leNat_zeros (k : ℕ) : leNat (List.replicate k 0) = 0 := by
  induction k with
  | zero => rfl
  | succ k ih => rw [replicate_succ, leNat, ih]; rfl

theorem leNat_append_zeros (bytes : List UInt8) (k : ℕ) :
    leNat (bytes ++ List.replicate k 0) = leNat bytes := by
  rw [leNat_append, leNat_zeros, mul_zero, add_zero]

theorem two_pow_eight_mul (k : ℕ) : 2 ^ (8 * k) = 256 ^ k := by rw [pow_mul]; rfl

theorem leNat_take_add_drop (bytes : List UInt8) (k : ℕ) :
    leNat (bytes.take k) + 2 ^ (8 * k) * leNat (bytes.drop k) = leNat bytes := by
  rw [two_pow_eight_mul]
  by_cases hk : k ≤ bytes.length
  · have h := leNat_append (bytes.take k) (bytes.drop k)
    rw [take_append_drop, length_take_of_le hk] at h
    exact h.symm
  · rw [take_of_length_le (by omega), drop_eq_nil_of_le (by omega), leNat, mul_zero, add_zero]

theorem leNat_take_lt (bytes : List UInt8) (k : ℕ) : leNat (bytes.take k) < 2 ^ (8 * k) := by
  rw [two_pow_eight_mul]
  exact (leNat_lt _).trans_le (Nat.pow_le_pow_right (by norm_num) (length_take_le k bytes))

theorem leNat_drop (bytes : List UInt8) (k : ℕ) :
    leNat (bytes.drop k) = leNat bytes / 2 ^ (8 * k) := by
  rw [← leNat_take_add_drop bytes k, add_mul_div_left _ _ (by positivity),
    div_eq_of_lt (leNat_take_lt bytes k), zero_add]

theorem leNat_take (bytes : List UInt8) (k : ℕ) :
    leNat (bytes.take k) = leNat bytes % 2 ^ (8 * k) := by
  conv_rhs => rw [← leNat_take_add_drop bytes k]
  rw [add_mul_mod_self_left, mod_eq_of_lt (leNat_take_lt bytes k)]

theorem field_lt (bytes : List UInt8) (start width : ℕ) : field bytes start width < 2 ^ width :=
  mod_lt _ (by positivity)

theorem testBit_field (bytes : List UInt8) (start width i : ℕ) :
    (field bytes start width).testBit i =
      (decide (i < width) && (leNat bytes).testBit (start + i)) := by
  rw [field, testBit_mod_two_pow, testBit_div_two_pow, add_comm i start]

theorem field_drop (bytes : List UInt8) (k start width : ℕ) :
    field (bytes.drop k) start width = field bytes (8 * k + start) width := by
  rw [field, field, leNat_drop, Nat.div_div_eq_div_mul, pow_add]

theorem field_take {k : ℕ} (h : start + width ≤ 8 * k) :
    field (bytes.take k) start width = field bytes start width := by
  apply eq_of_testBit_eq
  intro i
  rw [testBit_field, testBit_field, leNat_take]
  by_cases hi : i < width
  · have hlt : start + i < 8 * k := by omega
    simp [hlt]
  · simp [hi]

theorem field_append_zeros (bytes : List UInt8) (k start width : ℕ) :
    field (bytes ++ List.replicate k 0) start width = field bytes start width := by
  rw [field, field, leNat_append_zeros]

theorem field_window {j k : ℕ} (h : start + width ≤ 8 * k) :
    field ((bytes.drop j).take k) start width = field bytes (8 * j + start) width := by
  rw [field_take h, field_drop]

end Pintail.Bytes
