import Pintail.Store.Codec

/-! # Cells of a column block

A column of a segment holds cells of one logical type, some of them absent. A present cell is laid
down in the form of its type and read back by it.
-/

namespace Pintail.Blocks

open Bytes Decoder

inductive LogicalType
  | boolean
  | int64
  | uint64
  | float64
  | utf8
  | binary
  | primaryKey
  deriving DecidableEq, Repr

namespace LogicalType

def tag : LogicalType → UInt8
  | boolean => 0
  | int64 => 1
  | uint64 => 2
  | float64 => 3
  | utf8 => 4
  | binary => 5
  | primaryKey => 6

def decode : UInt8 → Except String LogicalType
  | 0 => .ok boolean
  | 1 => .ok int64
  | 2 => .ok uint64
  | 3 => .ok float64
  | 4 => .ok utf8
  | 5 => .ok binary
  | 6 => .ok primaryKey
  | tag => .error s!"unknown logical type {tag}"

@[simp] theorem decode_tag (logicalType : LogicalType) :
    decode logicalType.tag = .ok logicalType := by
  cases logicalType <;> rfl

end LogicalType

inductive Cell
  | null
  | boolean (value : Bool)
  | int64 (value : Int64)
  | uint64 (value : UInt64)
  | float64 (bits : UInt64)
  | utf8 (value : String)
  | binary (value : List UInt8)
  | key (value : PrimaryKey)
  deriving DecidableEq, Repr

namespace Cell

def logicalType : Cell → Option LogicalType
  | null => none
  | boolean _ => some .boolean
  | int64 _ => some .int64
  | uint64 _ => some .uint64
  | float64 _ => some .float64
  | utf8 _ => some .utf8
  | binary _ => some .binary
  | key _ => some .primaryKey

def Fits (logicalType : LogicalType) (cell : Cell) : Prop :=
  cell = null ∨ cell.logicalType = some logicalType

instance (logicalType : LogicalType) (cell : Cell) : Decidable (cell.Fits logicalType) :=
  inferInstanceAs (Decidable (_ ∨ _))

end Cell

def LogicalType.Types (logicalType : LogicalType) (cells : List Cell) : Prop :=
  ∀ cell ∈ cells, cell.logicalType = some logicalType

def encodeCell : Cell → Except StoreError (List UInt8)
  | .null => .ok []
  | .boolean value => .ok [if value then 1 else 0]
  | .int64 value => .ok (i64Bytes value)
  | .uint64 value | .float64 value => .ok (u64Bytes value)
  | .utf8 value => Encoder.utf8 value "UTF-8 block value"
  | .binary value => Encoder.bytes value "binary block value"
  | .key value => encodeKey value

def decodeCell : LogicalType → Decoder Cell
  | .boolean => do
    match ← u8 with
    | 0 => pure (.boolean false)
    | 1 => pure (.boolean true)
    | value => throw s!"invalid boolean value {value}"
  | .int64 => Cell.int64 <$> i64
  | .uint64 => Cell.uint64 <$> u64
  | .float64 => Cell.float64 <$> u64
  | .utf8 => Cell.utf8 <$> utf8 "UTF-8 block value"
  | .binary => Cell.binary <$> bytes
  | .primaryKey => Cell.key <$> decodeKey

section RoundTrip

variable {logicalType : LogicalType} {cell : Cell} {cells : List Cell} {out : List UInt8}
  {chunks : List (List UInt8)}

theorem reads_cell (ht : cell.logicalType = some logicalType) (h : encodeCell cell = .ok out) :
    Reads (decodeCell logicalType) out cell := by
  cases cell with
  | null => cases ht
  | boolean value =>
    cases ht
    cases h
    cases value
    · exact (reads_u8 0).bind (Reads.pure _)
    · exact (reads_u8 1).bind (Reads.pure _)
  | int64 value =>
    cases ht
    cases h
    exact (reads_i64 value).map
  | uint64 value | float64 value =>
    cases ht
    cases h
    exact (reads_u64 value).map
  | utf8 value =>
    cases ht
    exact (reads_utf8 h).map
  | binary value =>
    cases ht
    exact (reads_bytes h).map
  | key value =>
    cases ht
    exact (reads_key h).map

theorem reads_cells (ht : logicalType.Types cells) (h : cells.mapM encodeCell = .ok chunks) :
    Reads ((decodeCell logicalType).times cells.length) chunks.flatten cells :=
  Reads.times (Except.forall₂_of_mapM_eq_ok h fun cell hcell _ ho => reads_cell (ht cell hcell) ho)

def LogicalType.Prefixed (logicalType : LogicalType) : Prop :=
  logicalType = .utf8 ∨ logicalType = .binary

instance (logicalType : LogicalType) : Decidable logicalType.Prefixed :=
  inferInstanceAs (Decidable (_ ∨ _))

def Cell.contents : Cell → List UInt8
  | .utf8 value => value.toByteArray.data.toList
  | .binary value => value
  | _ => []

theorem reads_contents (hp : logicalType.Prefixed) (ht : cell.logicalType = some logicalType)
    (h : encodeCell cell = .ok out) : Reads bytes out cell.contents := by
  cases cell with
  | utf8 value => exact reads_bytes h
  | binary value => exact reads_bytes h
  | null => cases ht
  | boolean _ | int64 _ | uint64 _ | float64 _ | key _ =>
    cases ht
    rcases hp with hp | hp <;> cases hp

theorem reads_contents_times (hp : logicalType.Prefixed) (ht : logicalType.Types cells)
    (h : cells.mapM encodeCell = .ok chunks) :
    Reads (bytes.times cells.length) chunks.flatten (cells.map Cell.contents) := by
  have hf := Except.forall₂_of_mapM_eq_ok h fun cell hcell _ ho =>
    reads_contents hp (ht cell hcell) ho
  simpa using Reads.times (List.forall₂_map_right_iff.mpr hf)

end RoundTrip

end Pintail.Blocks
