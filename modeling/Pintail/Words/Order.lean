import Mathlib.Data.UInt

/-! # Machine words as linear orders

Fixed-width words compare through the numbers they denote. The linear orders here make the
general lemmas on maxima, minima and ordered maps available at word types, and checked addition
returns no value where the machine sum would wrap.
-/

namespace Pintail

/-- A linear order by the laws that hold of a type's own comparisons. -/
abbrev linearOrderOfLaws (α : Type) [LE α] [LT α] [DecidableLE α] [DecidableLT α] [DecidableEq α]
    [Std.IsLinearOrder α] [Std.LawfulOrderLT α] : LinearOrder α where
  le_refl := Std.le_refl
  le_trans _ _ _ := Std.le_trans
  le_antisymm _ _ := Std.le_antisymm
  le_total _ _ := Std.le_total
  lt_iff_le_not_ge _ _ := Std.lt_iff_le_and_not_ge
  toDecidableLE := inferInstance
  toDecidableEq := inferInstance
  toDecidableLT := inferInstance

instance instLinearOrderUInt8 : LinearOrder UInt8 := linearOrderOfLaws UInt8

instance instLinearOrderUInt16 : LinearOrder UInt16 := linearOrderOfLaws UInt16

instance instLinearOrderUInt32 : LinearOrder UInt32 := linearOrderOfLaws UInt32

instance instLinearOrderUInt64 : LinearOrder UInt64 := linearOrderOfLaws UInt64

instance instLinearOrderInt64 : LinearOrder Int64 := linearOrderOfLaws Int64

namespace Words

/-- The sum of two 64-bit words when it does not wrap. -/
def checkedAdd (a b : UInt64) : Option UInt64 :=
  if a.toNat + b.toNat < 2 ^ 64 then some (a + b) else none

theorem checkedAdd_eq_some {a b c : UInt64} :
    checkedAdd a b = some c ↔ c.toNat = a.toNat + b.toNat := by
  unfold checkedAdd
  split
  · rename_i h
    rw [Option.some.injEq, ← UInt64.toNat_inj, UInt64.toNat_add, Nat.mod_eq_of_lt h]
    exact eq_comm
  · have := c.toNat_lt
    simp only [reduceCtorEq, false_iff]
    omega

def next? (a : UInt32) : Option UInt32 := if a = 4294967295 then none else some (a + 1)

theorem lt_of_next? {a b : UInt32} (h : next? a = some b) : a < b := by
  unfold next? at h
  split at h
  · cases h
  · rename_i hne
    have hne' : a.toNat ≠ 4294967295 := fun he => hne (UInt32.toNat_inj.mp he)
    have := a.toNat_lt
    rw [← Option.some.inj h, UInt32.lt_iff_toNat_lt, UInt32.toNat_add]
    simp only [UInt32.toNat_one]
    omega

end Words

end Pintail
