import Mathlib.Data.UInt
import Mathlib.Tactic.Ring

/-! # Little-endian words

A number is laid down as a fixed count of bytes, least significant first. Reading the bytes back
gives the number modulo the range of that width, so words of the width itself survive unchanged.
-/

namespace Pintail.Bytes

/-- The `w` low bytes of `n`, least significant first. -/
def leBytes : ℕ → ℕ → List UInt8
  | 0, _ => []
  | w + 1, n => UInt8.ofNat n :: leBytes w (n / 256)

/-- The number whose bytes, least significant first, are given. -/
@[simp] def leNat : List UInt8 → ℕ
  | [] => 0
  | b :: bytes => b.toNat + 256 * leNat bytes

@[simp] theorem length_leBytes (w n : ℕ) : (leBytes w n).length = w := by
  induction w generalizing n with
  | zero => rfl
  | succ w ih => simp [leBytes, ih]

theorem leNat_leBytes (w n : ℕ) : leNat (leBytes w n) = n % 256 ^ w := by
  induction w generalizing n with
  | zero => simp [leBytes, Nat.mod_one]
  | succ w ih =>
    have hb : (UInt8.ofNat n).toNat = n % 256 := by simp
    rw [leBytes, leNat, ih, hb, pow_succ', Nat.mod_mul]

theorem leNat_leBytes_of_lt {w n : ℕ} (h : n < 256 ^ w) : leNat (leBytes w n) = n := by
  rw [leNat_leBytes, Nat.mod_eq_of_lt h]

theorem leNat_append (a b : List UInt8) : leNat (a ++ b) = leNat a + 256 ^ a.length * leNat b := by
  induction a with
  | nil => simp
  | cons byte a ih =>
    rw [List.cons_append, leNat, leNat, ih, List.length_cons]
    ring

theorem leNat_replicate (k : ℕ) (byte : UInt8) :
    leNat (List.replicate k byte) * 255 = byte.toNat * (256 ^ k - 1) := by
  induction k with
  | zero => simp
  | succ k ih =>
    have hpos : 1 ≤ 256 ^ k := Nat.one_le_pow k 256 (by norm_num)
    obtain ⟨m, hm⟩ := Nat.exists_eq_add_of_le' hpos
    rw [List.replicate_succ, leNat, add_mul, mul_assoc, ih, pow_succ', hm]
    simp only [Nat.add_sub_cancel]
    rw [show 256 * (m + 1) - 1 = 256 * m + 255 by omega]
    ring

theorem leNat_lt (bytes : List UInt8) : leNat bytes < 256 ^ bytes.length := by
  induction bytes with
  | nil => simp
  | cons byte bytes ih =>
    have hb : byte.toNat < 256 := byte.toNat_lt
    rw [leNat, List.length_cons]
    omega

theorem getLast?_leBytes (w n : ℕ) :
    (leBytes (w + 1) n).getLast? = some (UInt8.ofNat (n / 256 ^ w)) := by
  induction w generalizing n with
  | zero => simp [leBytes]
  | succ w ih =>
    rw [leBytes, List.getLast?_cons, ih, Nat.div_div_eq_div_mul, pow_succ']
    rfl

def u32Bytes (v : UInt32) : List UInt8 := leBytes 4 v.toNat

def u64Bytes (v : UInt64) : List UInt8 := leBytes 8 v.toNat

def i64Bytes (v : Int64) : List UInt8 := u64Bytes v.toUInt64

@[simp] theorem length_u32Bytes (v : UInt32) : (u32Bytes v).length = 4 := length_leBytes 4 _
@[simp] theorem length_u64Bytes (v : UInt64) : (u64Bytes v).length = 8 := length_leBytes 8 _
@[simp] theorem length_i64Bytes (v : Int64) : (i64Bytes v).length = 8 := length_leBytes 8 _

@[simp] theorem ofNat_leNat_u32Bytes (v : UInt32) : UInt32.ofNat (leNat (u32Bytes v)) = v := by
  rw [u32Bytes, leNat_leBytes_of_lt (by simpa using v.toNat_lt), UInt32.ofNat_toNat]

@[simp] theorem ofNat_leNat_u64Bytes (v : UInt64) : UInt64.ofNat (leNat (u64Bytes v)) = v := by
  rw [u64Bytes, leNat_leBytes_of_lt (by simpa using v.toNat_lt), UInt64.ofNat_toNat]

end Pintail.Bytes
