import Mathlib.Data.UInt

/-! # Scalar types and values

Logical column types share six physical carriers. A value is a nullable scalar of one of the
carriers; an `ENUM` cell and a decimal average are text that keeps more than it displays.
-/

namespace Pintail

inductive DataType
  | boolean
  | int8 | int16 | int32 | int64
  | uint8 | uint16 | uint32 | uint64
  | float32 | float64
  | decimal (precision scale : UInt8)
  | date32
  | dateTime64 (fsp : UInt8)
  | time64 (fsp : UInt8)
  | year
  | utf8
  | binary
  | json
  deriving DecidableEq, Repr

namespace DataType

/-- The physical carrier of a logical type. -/
def storageType : DataType → DataType
  | boolean => boolean
  | int8 | int16 | int32 | int64 => int64
  | uint8 | uint16 | uint32 | uint64 | year => uint64
  | float32 | float64 => float64
  | decimal _ _ | date32 | dateTime64 _ | time64 _ | utf8 | json => utf8
  | binary => binary

def isValid : DataType → Bool
  | decimal precision scale => 0 < precision && precision ≤ 65 && scale ≤ 30 && scale ≤ precision
  | dateTime64 fsp | time64 fsp => fsp ≤ 6
  | _ => true

/-- Whether a column of this type takes values of the given physical type. -/
def accepts (self physical : DataType) : Bool := self.storageType == physical

@[simp] theorem storageType_storageType (t : DataType) :
    t.storageType.storageType = t.storageType := by
  cases t <;> rfl

theorem accepts_storageType (t physical : DataType) :
    t.storageType.accepts physical = t.accepts physical := by
  simp [accepts]

end DataType

/-- A decimal average: the text it displays and the exact quotient behind it. -/
structure DecimalQuotient where
  label : String
  units : Int
  count : UInt64
  scale : UInt8
  deriving DecidableEq, Repr

/-- A nullable scalar. A float is its IEEE-754 bits. -/
inductive Value
  | null
  | boolean (value : Bool)
  | int64 (value : Int64)
  | uint64 (value : UInt64)
  | float64 (bits : UInt64)
  | utf8 (value : String)
  | binary (value : List UInt8)
  | decimalAverage (value : DecimalQuotient)
  | enum (index : UInt64) (label : String)
  deriving DecidableEq, Repr

namespace Value

def dataType : Value → Option DataType
  | null => none
  | boolean _ => some .boolean
  | int64 _ => some .int64
  | uint64 _ => some .uint64
  | float64 _ => some .float64
  | utf8 _ | enum _ _ | decimalAverage _ => some .utf8
  | binary _ => some .binary

/-- The form a value takes once written: text cells keep only their text. -/
def durable : Value → Value
  | decimalAverage value => utf8 value.label
  | enum _ label => utf8 label
  | value => value

@[simp] theorem durable_durable (v : Value) : v.durable.durable = v.durable := by
  cases v <;> rfl

@[simp] theorem dataType_durable (v : Value) : v.durable.dataType = v.dataType := by
  cases v <;> rfl

/-- Bytes of the boxed quotient of a decimal average. -/
def sizeOfDecimalQuotient : ℕ := 64

def heapBytes : Value → ℕ
  | utf8 value | enum _ value => value.utf8ByteSize
  | decimalAverage value => value.label.utf8ByteSize + sizeOfDecimalQuotient
  | binary value => value.length
  | _ => 0

end Value

end Pintail
