import Pintail.Blocks.BitPacking
import Pintail.Blocks.Cell

/-! # Encodings of a block's present values

The writer picks a layout by the values of the block: runs for a single repeated value, a
dictionary for few distinct texts, packed deltas for ascending integers, packed offsets for other
integers and the plain values otherwise. Text columns keep one dictionary across their blocks
while it is small.
-/

namespace Pintail.Blocks

open Bytes Decoder UInt32

inductive Encoding
  | plain
  | dictionary
  | runLength
  | bitPacked
  | deltaBitPacked
  | narrowDictionary
  deriving DecidableEq, Repr

namespace Encoding

def tag : Encoding → UInt8
  | plain => 0
  | dictionary => 1
  | runLength => 2
  | bitPacked => 3
  | deltaBitPacked => 4
  | narrowDictionary => 5

def decode : UInt8 → Except String Encoding
  | 0 => .ok plain
  | 1 => .ok dictionary
  | 2 => .ok runLength
  | 3 => .ok bitPacked
  | 4 => .ok deltaBitPacked
  | 5 => .ok narrowDictionary
  | tag => .error s!"unknown block encoding {tag}"

@[simp] theorem decode_tag (encoding : Encoding) : decode encoding.tag = .ok encoding := by
  cases encoding <;> rfl

end Encoding

def isMonotonicInteger (logicalType : LogicalType) : List Cell → Bool
  | left :: right :: cells =>
    (match logicalType, left, right with
      | .uint64, .uint64 left, .uint64 right => decide (left ≤ right)
      | .int64, .int64 left, .int64 right => decide (left ≤ right)
      | _, _, _ => false) && isMonotonicInteger logicalType (right :: cells)
  | _ => decide (logicalType = .uint64 ∨ logicalType = .int64)

def selectEncoding (logicalType : LogicalType) (cells : List Cell) : Encoding :=
  if 1 < cells.length ∧ ∀ cell ∈ cells, some cell = cells.head? then .runLength
  else if logicalType.Prefixed ∧ 4 ≤ cells.length ∧ cells.dedup.length * 10 < cells.length then
    .dictionary
  else if 3 ≤ cells.length ∧ isMonotonicInteger logicalType cells then .deltaBitPacked
  else if logicalType = .boolean ∨ logicalType = .int64 ∨ logicalType = .uint64 then .bitPacked
  else .plain

def dictionaryPayload (entries : List Cell) (indices : List ℕ) :
    Except StoreError (List UInt8) := do
  let head ← Encoder.each entries "block dictionary" encodeCell
  pure (head ++ (indices.map fun index => u32Bytes (ofNat index)).flatten)

/-- Number the values by the first appearance of each, after the entries already there. -/
def numberCells (entries : List Cell) : List Cell → Except StoreError (List Cell × List ℕ)
  | [] => .ok (entries, [])
  | cell :: cells =>
    match entries.idxOf? cell with
    | some index => do
      let (entries, indices) ← numberCells entries cells
      pure (entries, index :: indices)
    | none =>
      if entries.length < 2 ^ 32 then do
        let index := entries.length
        let (entries, indices) ← numberCells (entries ++ [cell]) cells
        pure (entries, index :: indices)
      else .error (.formatLimit "dictionary exceeds u32::MAX")

def encodeDictionary (cells : List Cell) : Except StoreError (List UInt8) := do
  let (entries, indices) ← numberCells [] cells
  dictionaryPayload entries indices

def columnDictionaryEntries : ℕ := 1024

def columnDictionaryBytes : ℕ := 32 * 1024

/-- One text column's dictionary across the blocks of a segment; the code of a value is its place
among the entries. -/
structure ColumnDictionary where
  entries : List Cell
  bytes : ℕ
  closed : Bool

namespace ColumnDictionary

def empty : ColumnDictionary := ⟨[], 0, false⟩

def holdsAll (dictionary : ColumnDictionary) (cells : List Cell) : Bool :=
  !dictionary.closed && !cells.isEmpty && cells.all fun cell => dictionary.entries.contains cell

def isOpen (dictionary : ColumnDictionary) : Bool := !dictionary.closed

def bytesWith (dictionary : ColumnDictionary) : Cell → ℕ
  | .utf8 text => dictionary.bytes + text.utf8ByteSize
  | _ => dictionary.bytes

/-- Number the values of a block, or close the dictionary over the first one it has no room for. -/
def number (dictionary : ColumnDictionary) :
    List Cell → Except StoreError (Option (List ℕ) × ColumnDictionary)
  | [] => .ok (some [], dictionary)
  | cell :: cells =>
    match dictionary.entries.idxOf? cell with
    | some index => do
      let (indices, dictionary) ← number dictionary cells
      pure (indices.map (index :: ·), dictionary)
    | none =>
      let bytes := dictionary.bytesWith cell
      if columnDictionaryEntries ≤ dictionary.entries.length ∨ columnDictionaryBytes < bytes then
        .ok (none, { dictionary with bytes, closed := true })
      else if dictionary.entries.length < 2 ^ 32 then do
        let index := dictionary.entries.length
        let (indices, dictionary) ←
          number { dictionary with entries := dictionary.entries ++ [cell], bytes } cells
        pure (indices.map (index :: ·), dictionary)
      else .error (.formatLimit "dictionary exceeds u32::MAX")

def listed (indices : List ℕ) : ℕ := indices.foldl (fun listed index => max listed (index + 1)) 0

def encode (dictionary : ColumnDictionary) (cells : List Cell) :
    Except StoreError (Option (List UInt8) × ColumnDictionary) :=
  if dictionary.closed then .ok (none, dictionary)
  else do
    match ← dictionary.number cells with
    | (none, dictionary) => pure (none, dictionary)
    | (some indices, dictionary) =>
      let payload ← dictionaryPayload (dictionary.entries.take (listed indices)) indices
      pure (some payload, dictionary)

end ColumnDictionary

/-- An index cut to its low bytes, when the others are zero. -/
def narrowIndex (width : ℕ) (index : List UInt8) : Option (List UInt8) :=
  if (index.drop width).any (· ≠ 0) then none else some (index.take width)

/-- The bytes that name one of so many entries, when one or two of them do. -/
def indexWidth (entries : ℕ) : Option ℕ :=
  if entries ≤ 256 then some 1 else if entries ≤ 65536 then some 2 else none

/-- A dictionary payload with indexes as narrow as its entry count allows. -/
def narrowDictionaryPayload (wide : List UInt8) (valueCount : ℕ) : Option (List UInt8) := do
  let (entries, rest) ← ((toNat <$> u32).run wide).toOption
  let width ← indexWidth entries
  let (_, rest) ← ((bytes.times entries).run rest).toOption
  let head := wide.length - rest.length
  guard (valueCount * 4 < 2 ^ 64)
  let (indexes, rest) ← ((take (valueCount * 4)).run rest).toOption
  let _ ← (finish.run rest).toOption
  let narrow ← (List.range valueCount).mapM fun i =>
    narrowIndex width ((indexes.drop (i * 4)).take 4)
  pure (wide.take head ++ (UInt8.ofNat width :: narrow.flatten))

def dictionaryIndexWidth : Decoder ℕ := do
  match ← u8 with
  | 1 => pure 1
  | 2 => pure 2
  | width => throw s!"dictionary index width {width} is not one or two"

def dictionaryIndex : ℕ → Decoder ℕ
  | 1 => UInt8.toNat <$> u8
  | 2 => leNat <$> take 2
  | _ => toNat <$> u32

def decodeIndexed (dictionary : List Cell) (width : ℕ) : Decoder Cell := do
  let index ← dictionaryIndex width
  match dictionary[index]? with
  | some cell => pure cell
  | none => throw s!"dictionary index {index} is out of bounds"

def decodeDictionary (logicalType : LogicalType) (valueCount : ℕ) (narrow : Bool) :
    Decoder (List Cell) := do
  let count ← toNat <$> u32
  let dictionary ← (decodeCell logicalType).times count
  let width ← if narrow then dictionaryIndexWidth else pure 4
  (decodeIndexed dictionary width).times valueCount

def pushRun (runs : List (ℕ × Cell)) (cell : Cell) : Except StoreError (List (ℕ × Cell)) :=
  match runs.getLast? with
  | some (length, previous) =>
    if previous = cell then
      if length + 1 < 2 ^ 32 then .ok (runs.dropLast ++ [(length + 1, previous)])
      else .error (.formatLimit "run length exceeds u32::MAX")
    else .ok (runs ++ [(1, cell)])
  | none => .ok (runs ++ [(1, cell)])

def encodeRun (run : ℕ × Cell) : Except StoreError (List UInt8) := do
  let value ← encodeCell run.2
  pure (u32Bytes (ofNat run.1) ++ value)

def encodeRuns (cells : List Cell) : Except StoreError (List UInt8) := do
  let runs ← cells.foldlM pushRun []
  Encoder.each runs "run count" encodeRun

def decodeRunsFrom (logicalType : LogicalType) (valueCount : ℕ) :
    ℕ → List Cell → Decoder (List Cell)
  | 0, values => pure values
  | runCount + 1, values => do
    let length ← toNat <$> u32
    if length = 0 then throw "run length must be non-zero"
    let value ← decodeCell logicalType
    if valueCount < values.length + length then throw "run lengths exceed block value count"
    decodeRunsFrom logicalType valueCount runCount (values ++ List.replicate length value)

def decodeRuns (logicalType : LogicalType) (valueCount : ℕ) : Decoder (List Cell) := do
  let runCount ← toNat <$> u32
  let values ← decodeRunsFrom logicalType valueCount runCount []
  if values.length ≠ valueCount then
    throw s!"run lengths produce {values.length} values, expected {valueCount}"
  pure values

def toU64 (value : ℤ) : Option UInt64 :=
  if 0 ≤ value ∧ value < 2 ^ 64 then some (UInt64.ofNat value.toNat) else none

def toI64 (value : ℤ) : Option Int64 :=
  if -2 ^ 63 ≤ value ∧ value < 2 ^ 63 then some (Int64.ofInt value) else none

def checkedAdd (a b : ℤ) : Option ℤ :=
  if -2 ^ 127 ≤ a + b ∧ a + b < 2 ^ 127 then some (a + b) else none

def integerValue : LogicalType → Cell → Except String ℤ
  | .boolean, .boolean value => .ok (if value then 1 else 0)
  | .int64, .int64 value => .ok value.toInt
  | .uint64, .uint64 value => .ok value.toNat
  | _, _ => .error "bit-packed value does not match logical type"

def integerValues (logicalType : LogicalType) (cells : List Cell) : Except StoreError (List ℤ) :=
  cells.mapM fun cell => (integerValue logicalType cell).mapError StoreError.formatLimit

def orLimit {α : Type} (value : Option α) (reason : String) : Except StoreError α :=
  match value with
  | some value => .ok value
  | none => .error (.formatLimit reason)

def orReason {α : Type} (value : Option α) (reason : String) : Except String α :=
  match value with
  | some value => .ok value
  | none => .error reason

def normalizeIntegers (logicalType : LogicalType) (cells : List Cell) :
    Except StoreError (ℤ × List UInt64) := do
  let values ← integerValues logicalType cells
  let base := values.min?.getD 0
  let normalized ← values.mapM fun value =>
    orLimit (toU64 (value - base)) "integer range exceeds u64"
  pure (base, normalized)

def encodeIntegerBase (logicalType : LogicalType) (base : ℤ) : Except StoreError (List UInt8) :=
  match logicalType with
  | .boolean =>
    if 0 ≤ base ∧ base < 256 then .ok [UInt8.ofNat base.toNat]
    else .error (.formatLimit "boolean base does not fit u8")
  | .int64 => i64Bytes <$> orLimit (toI64 base) "signed base does not fit i64"
  | .uint64 => u64Bytes <$> orLimit (toU64 base) "unsigned base does not fit u64"
  | _ => .error (.formatLimit "logical type cannot be bit-packed")

def decodeIntegerBase : LogicalType → Decoder ℤ
  | .boolean => (fun base => (base.toNat : ℤ)) <$> u8
  | .int64 => Int64.toInt <$> i64
  | .uint64 => (fun base => (base.toNat : ℤ)) <$> u64
  | _ => throw "logical type cannot be bit-packed"

def integerFromI128 (logicalType : LogicalType) (value : ℤ) : Except String Cell :=
  match logicalType with
  | .boolean =>
    if value = 0 then .ok (.boolean false)
    else if value = 1 then .ok (.boolean true)
    else .error s!"invalid bit-packed boolean {value}"
  | .int64 => Cell.int64 <$> orReason (toI64 value) "bit-packed signed integer overflow"
  | .uint64 => Cell.uint64 <$> orReason (toU64 value) "bit-packed unsigned integer overflow"
  | _ => .error "logical type cannot be bit-packed"

def integerFromBase (logicalType : LogicalType) (base : ℤ) (normalized : UInt64) :
    Except String Cell := do
  let value ← orReason (checkedAdd base normalized.toNat) "bit-packed integer overflow"
  integerFromI128 logicalType value

def encodeBitPacked (logicalType : LogicalType) (cells : List Cell) :
    Except StoreError (List UInt8) := do
  let (base, normalized) ← normalizeIntegers logicalType cells
  let head ← encodeIntegerBase logicalType base
  let packed ← encodePacked normalized
  pure (head ++ packed)

def decodeBitPacked (avx2 : Bool) (logicalType : LogicalType) (valueCount : ℕ) :
    Decoder (List Cell) := do
  let base ← decodeIntegerBase logicalType
  let values ← unpack avx2 valueCount
  (values.mapM (integerFromBase logicalType base) : Except String (List Cell))

def deltas : List ℤ → Except StoreError (List UInt64)
  | left :: right :: values => do
    let delta ← orLimit (toU64 (right - left)) "integer delta exceeds u64"
    let rest ← deltas (right :: values)
    pure (delta :: rest)
  | _ => .ok []

def encodeDeltaBitPacked (logicalType : LogicalType) (cells : List Cell) :
    Except StoreError (List UInt8) := do
  let first ← orLimit cells.head? "delta block cannot be empty"
  let head ← encodeCell first
  let values ← integerValues logicalType cells
  let deltas ← deltas values
  let packed ← encodePacked deltas
  pure (head ++ packed)

def addDeltas (logicalType : LogicalType) (current : ℤ) :
    List UInt64 → Except String (List Cell)
  | [] => .ok []
  | delta :: deltas => do
    let current ← orReason (checkedAdd current delta.toNat) "integer delta overflow"
    let value ← integerFromI128 logicalType current
    let rest ← addDeltas logicalType current deltas
    pure (value :: rest)

def decodeDeltaBitPacked (avx2 : Bool) (logicalType : LogicalType) (valueCount : ℕ) :
    Decoder (List Cell) := do
  if valueCount = 0 then throw "delta block cannot be empty"
  let first ← decodeCell logicalType
  let current ← integerValue logicalType first
  let deltas ← unpack avx2 (valueCount - 1)
  let rest ← addDeltas logicalType current deltas
  pure (first :: rest)

def encodePayload (logicalType : LogicalType) (encoding : Encoding) (cells : List Cell) :
    Except StoreError (List UInt8) :=
  match encoding with
  | .plain => List.flatten <$> cells.mapM encodeCell
  -- the narrow form is made from the wide one by the block writer
  | .dictionary | .narrowDictionary => encodeDictionary cells
  | .runLength => encodeRuns cells
  | .bitPacked => encodeBitPacked logicalType cells
  | .deltaBitPacked => encodeDeltaBitPacked logicalType cells

def decodeValues (avx2 : Bool) (logicalType : LogicalType) (encoding : Encoding) (valueCount : ℕ) :
    Decoder (List Cell) :=
  match encoding with
  | .plain => (decodeCell logicalType).times valueCount
  | .dictionary => decodeDictionary logicalType valueCount false
  | .narrowDictionary => decodeDictionary logicalType valueCount true
  | .runLength => decodeRuns logicalType valueCount
  | .bitPacked => decodeBitPacked avx2 logicalType valueCount
  | .deltaBitPacked => decodeDeltaBitPacked avx2 logicalType valueCount

def decodeAll {α : Type} (decoder : Decoder α) (bytes : List UInt8) : Except String α := do
  let (result, rest) ← decoder.run bytes
  let _ ← finish.run rest
  pure result

def decodePayload (avx2 : Bool) (bytes : List UInt8) (logicalType : LogicalType)
    (encoding : Encoding) (valueCount : ℕ) : Except String (List Cell) :=
  decodeAll (decodeValues avx2 logicalType encoding valueCount) bytes

def saturate (n : ℕ) : ℕ := min n (2 ^ 64 - 1)

def runsHeap (valueCount : ℕ) : ℕ → ℕ → ℕ → Decoder (ℕ × ℕ)
  | 0, produced, heapBytes => pure (produced, heapBytes)
  | runCount + 1, produced, heapBytes => do
    let length ← toNat <$> u32
    if length = 0 then throw "run length must be non-zero"
    let produced := saturate (produced + length)
    if valueCount < produced then throw "run lengths exceed block value count"
    let text ← bytes
    runsHeap valueCount runCount produced
      (saturate (heapBytes + saturate (text.length * length)))

def textHeap (encoding : Encoding) (valueCount : ℕ) : Decoder ℕ :=
  match encoding with
  | .plain => do
    let texts ← bytes.times valueCount
    pure (texts.foldl (fun heapBytes text => saturate (heapBytes + text.length)) 0)
  | .dictionary | .narrowDictionary => do
    let count ← toNat <$> u32
    let texts ← bytes.times count
    let width ← if encoding = .narrowDictionary then dictionaryIndexWidth else pure 4
    let _ ← Decode.times (do
      let index ← dictionaryIndex width
      if count ≤ index then throw s!"dictionary index {index} is out of bounds") valueCount
    pure (saturate (texts.foldl (fun maximum text => max maximum text.length) 0 * valueCount))
  | .runLength => do
    let runCount ← toNat <$> u32
    let (produced, heapBytes) ← runsHeap valueCount runCount 0 0
    if produced ≠ valueCount then
      throw s!"run lengths produce {produced} values, expected {valueCount}"
    pure heapBytes
  | .bitPacked | .deltaBitPacked => throw "string block uses an integer encoding"

def decodedHeapUpperBound (bytes : List UInt8) (logicalType : LogicalType) (encoding : Encoding)
    (valueCount : ℕ) : Except String ℕ :=
  if logicalType.Prefixed then decodeAll (textHeap encoding valueCount) bytes
  else if logicalType = .primaryKey then
    let payloadBytes :=
      if encoding = .plain then saturate (bytes.length * 4)
      else saturate (bytes.length * valueCount)
    .ok (saturate (payloadBytes + saturate (valueCount * 64)))
  else .ok 0

end Pintail.Blocks
