import Mathlib.Data.Sum.Order
import Mathlib.Data.String.Basic
import Pintail.Types.Value
import Pintail.Words.Order

/-! # Keys and versioned rows

A primary key is a non-empty tuple of typed parts, ordered part by part. A stored row carries the
version that decides between two rows of one key, and a flag that makes it a tombstone.
-/

namespace Pintail

inductive KeyPart
  | int64 (value : Int64)
  | uint64 (value : UInt64)
  | utf8 (value : String)
  | binary (value : List UInt8)
  deriving DecidableEq, Repr

namespace KeyPart

/-- Parts of different types follow the order of their declaration. -/
def rank : KeyPart → Lex (Int64 ⊕ Lex (UInt64 ⊕ Lex (String ⊕ List UInt8)))
  | int64 value => toLex (.inl value)
  | uint64 value => toLex (.inr (toLex (.inl value)))
  | utf8 value => toLex (.inr (toLex (.inr (toLex (.inl value)))))
  | binary value => toLex (.inr (toLex (.inr (toLex (.inr value)))))

theorem rank_injective : Function.Injective rank := by
  intro a b h
  cases a <;> cases b <;> simp_all [rank]

instance : LinearOrder KeyPart := LinearOrder.lift' rank rank_injective

def heapBytes : KeyPart → ℕ
  | utf8 value => value.utf8ByteSize
  | binary value => value.length
  | int64 _ | uint64 _ => 0

end KeyPart

structure PrimaryKey where
  parts : List KeyPart
  nonempty : parts ≠ []
  deriving Repr

namespace PrimaryKey

theorem parts_injective : Function.Injective parts := by
  rintro ⟨a, _⟩ ⟨b, _⟩ h
  cases h; rfl

instance : LinearOrder PrimaryKey := LinearOrder.lift' parts parts_injective

def heapBytes (key : PrimaryKey) : ℕ := (key.parts.map KeyPart.heapBytes).sum

end PrimaryKey

structure StoredRow where
  key : PrimaryKey
  values : List Value
  version : UInt64
  deleted : Bool
  deriving DecidableEq, Repr

namespace StoredRow

/-- `size_of` on a 64-bit target, as is that of a value. -/
def sizeOfStoredRow : ℕ := 64

def sizeOfValue : ℕ := 32

def estimatedBytes (row : StoredRow) : ℕ :=
  sizeOfStoredRow + row.key.heapBytes + (row.values.map Value.heapBytes).sum +
    row.values.length * sizeOfValue

def durable (row : StoredRow) : StoredRow := { row with values := row.values.map Value.durable }

@[simp] theorem durable_values (row : StoredRow) :
    row.durable.values = row.values.map Value.durable := rfl

@[simp] theorem durable_durable (row : StoredRow) : row.durable.durable = row.durable := by
  simp [durable]

end StoredRow

end Pintail
