import Pintail.Blocks.Frames
import Pintail.Store.ManifestFile

/-! # Blocks of a segment column

A block holds the cells of a stretch of rows: which of them are absent, the encoded and compressed
values of the others, and statistics that let a reader skip it. The writer seals it with a
checksum; the reader checks every length and count against the rest.
-/

namespace Pintail.Blocks

open Bytes Decoder List UInt32

def writtenFormatVersion : UInt8 := 8

def narrowDictionaryVersion : UInt8 := 7

def noNullsLength : ℕ := 8192

/-- The key that orders floats by sign, exponent and fraction. -/
def totalOrderKey (bits : UInt64) : Int64 :=
  let value := bits.toInt64
  value ^^^ ((value >>> 63).toUInt64 >>> 1).toInt64

def compareCells : Cell → Cell → Ordering
  | .boolean left, .boolean right => compare left right
  | .int64 left, .int64 right => compare left right
  | .uint64 left, .uint64 right => compare left right
  | .float64 left, .float64 right => compare (totalOrderKey left) (totalOrderKey right)
  | .utf8 left, .utf8 right => compare left right
  | .binary left, .binary right => compare left right
  | .key left, .key right => compare left right
  | _, _ => .eq

def minCell : List Cell → Option Cell
  | [] => none
  | cell :: cells => some <| cells.foldl
    (fun least cell => if compareCells least cell = .gt then cell else least) cell

def maxCell : List Cell → Option Cell
  | [] => none
  | cell :: cells => some <| cells.foldl
    (fun greatest cell => if compareCells greatest cell = .gt then greatest else cell) cell

def statBytes : Option Cell → Except StoreError (List UInt8)
  | some cell => encodeCell cell
  | none => .ok []

namespace Sketch

def empty : DistinctSketch := ⟨replicate sketchRegisters 0, length_replicate⟩

def raise (sketch : DistinctSketch) (index : ℕ) (rank : UInt8) : DistinctSketch where
  registers := sketch.registers.modify index (max · rank)
  length_eq := by rw [length_modify, sketch.length_eq]

def merge (sketch other : DistinctSketch) : DistinctSketch where
  registers := zipWith max sketch.registers other.registers
  length_eq := by rw [length_zipWith, sketch.length_eq, other.length_eq, min_self]

end Sketch

def hllRegisters (xxh3 : List UInt8 → UInt64) (encodedValues : List (List UInt8)) :
    DistinctSketch :=
  encodedValues.foldl
    (fun registers value =>
      let hash := xxh3 value
      Sketch.raise registers ((u64Bytes hash).headD 0 &&& 63).toNat
        (UInt8.ofNat (leadingZeros (hash >>> 6) - 5)))
    Sketch.empty

section Writing

variable (codecs : Codecs)

def presentCells (cells : List Cell) : List Cell := cells.filter (· ≠ .null)

def nullCount (cells : List Cell) : ℕ := cells.countP (· = .null)

def nullBitmap (cells : List Cell) : List UInt8 :=
  cells.zipIdx.foldl
    (fun bitmap entry => if entry.1 = .null then mark bitmap entry.2 else bitmap)
    (replicate (bytesFor cells.length) 0)

/-- A short block without absent cells stores no bitmap. -/
def storedNullBitmap (cells : List Cell) : List UInt8 :=
  if nullCount cells = 0 ∧ cells.length ≤ noNullsLength * 8 ∧
      narrowDictionaryVersion ≤ writtenFormatVersion then []
  else nullBitmap cells

/-- Code a text block against its column's dictionary where that pays. -/
def codeBlock (dictionary : Option ColumnDictionary) (encoding : Encoding) (cells : List Cell) :
    Except StoreError (Option (List UInt8) × Option ColumnDictionary) :=
  match dictionary with
  | some dictionary =>
    if encoding = .dictionary ∨ (encoding = .runLength ∧ dictionary.isOpen) ∨
        dictionary.holdsAll cells then do
      let (coded, dictionary) ← dictionary.encode cells
      pure (coded, some dictionary)
    else pure (none, some dictionary)
  | none => pure (none, none)

def narrowed (encoding : Encoding) (payload : List UInt8) (valueCount : ℕ) :
    Encoding × List UInt8 :=
  if encoding = .dictionary ∧ narrowDictionaryVersion ≤ writtenFormatVersion then
    match narrowDictionaryPayload payload valueCount with
    | some narrow => (.narrowDictionary, narrow)
    | none => (encoding, payload)
  else (encoding, payload)

def encodeBlock (logicalType : LogicalType) (dictionary : Option ColumnDictionary)
    (cells : List Cell) :
    Except StoreError ((Encoding × List UInt8) × Option ColumnDictionary) := do
  let encoding := selectEncoding logicalType cells
  let (coded, dictionary) ← codeBlock dictionary encoding cells
  match coded with
  | some payload => pure (narrowed .dictionary payload cells.length, dictionary)
  | none =>
    let payload ← encodePayload logicalType encoding cells
    pure (narrowed encoding payload cells.length, dictionary)

/-- Wide plain text is stored as frames, anything else whole. -/
def storePayload (logicalType : LogicalType) (encoding : Encoding) (compression : Compression)
    (blockHead payload : List UInt8) : Except StoreError (Compression × List UInt8) :=
  if logicalType = .utf8 ∧ encoding = .plain ∧ framedMinimumBytes ≤ payload.length ∧
      Compression.framedBlockVersion ≤ writtenFormatVersion then do
    let length ← Encoder.length payload.length "uncompressed block"
    compressFramedForStorage codecs compression
      (blockHead ++ (Compression.framed.tag :: length)) payload
  else compressBlockForStorage codecs compression payload

/-- Write one block; its sketch and the column's dictionary after it come back beside it. -/
def writeBlock (logicalType : LogicalType) (cells : List Cell) (compression : Compression)
    (dictionary : Option ColumnDictionary) :
    Except StoreError (List UInt8 × DistinctSketch × Option ColumnDictionary) := do
  let rowCount ← Encoder.length cells.length "block row count"
  let present := presentCells cells
  let encodedValues ← present.mapM encodeCell
  let bitmap ← Encoder.bytes (storedNullBitmap cells) "null bitmap"
  let ((encoding, payload), dictionary) ← encodeBlock logicalType dictionary present
  let blockHead := rowCount ++ (bitmap ++ [encoding.tag])
  let (stored, compressed) ← storePayload codecs logicalType encoding compression blockHead payload
  let uncompressedLength ← Encoder.length payload.length "uncompressed block"
  let compressed ← Encoder.bytes compressed "compressed block"
  let minimum ← statBytes (minCell present)
  let maximum ← statBytes (maxCell present)
  let minimum ← Encoder.bytes minimum "block minimum"
  let maximum ← Encoder.bytes maximum "block maximum"
  let sketch := hllRegisters codecs.xxh3 encodedValues
  let registers ← Encoder.bytes sketch.registers "block HLL sketch"
  let block := rowCount ++ (bitmap ++ ([encoding.tag] ++ ([stored.tag] ++ (uncompressedLength ++
    (compressed ++ (u32Bytes (ofNat (nullCount cells)) ++ (minimum ++ (maximum ++
      registers))))))))
  let sealed ← Encoder.bytes block "column block"
  pure (sealed ++ u64Bytes (codecs.xxh3 block), sketch, dictionary)

def chunks {α : Type} (size : ℕ) (rows : List α) : List (List α) :=
  if _h : rows ≠ [] ∧ 0 < size then rows.take size :: chunks size (rows.drop size) else []
termination_by rows.length
decreasing_by
  have := length_pos_iff.mpr _h.1
  rw [length_drop]
  omega

variable {α : Type} (cellFor : α → Except StoreError Cell)

def writeBlocks (logicalType : LogicalType) (compression : Compression) :
    List (List α) → Option ColumnDictionary → DistinctSketch →
      Except StoreError (List UInt8 × DistinctSketch)
  | [], _, sketch => .ok ([], sketch)
  | block :: blocks, dictionary, sketch => do
    let cells ← block.mapM cellFor
    let (bytes, registers, dictionary) ←
      writeBlock codecs logicalType cells compression dictionary
    let (rest, sketch) ←
      writeBlocks logicalType compression blocks dictionary (Sketch.merge sketch registers)
    pure (bytes ++ rest, sketch)

def writeColumn (id : UInt32) (logicalType : LogicalType) (rows : List α) (blockRows : ℕ)
    (compression : Compression) : Except StoreError (List UInt8 × DistinctSketch) := do
  let blockCount ← Encoder.length ((rows.length + blockRows - 1) / blockRows) "column block count"
  let dictionary := if logicalType = .utf8 then some ColumnDictionary.empty else none
  let (blocks, sketch) ← writeBlocks codecs cellFor logicalType compression
    (chunks blockRows rows) dictionary Sketch.empty
  pure (u32Bytes id ++ ([logicalType.tag] ++ (blockCount ++ blocks)), sketch)

end Writing

section Reading

/-- Reads of a segment; a failure names where the field starts. -/
abbrev Reader := Decode UInt8 StoreError

variable (codecs : Codecs) (avx2 : Bool)

/-- Fail at the current place of an input of the given length that starts at `base`. -/
def corruptHere {α : Type} (base length : ℕ) (reason : String) : Reader α := fun input =>
  .error (.corruptSegment (base + (length - input.length)) reason)

def here {α : Type} (base length : ℕ) (decoder : Decoder α) : Reader α := fun input =>
  match decoder.run input with
  | .ok result => .ok result
  | .error reason => corruptHere base length reason input

def popcount (byte : UInt8) : ℕ := (range 8).countP fun bit => byte.toNat.testBit bit

/-- Set bits among the rows that a bitmap covers; bits past the last row do not count. -/
def coveredNullCount (bitmap : List UInt8) (rowCount : ℕ) : ℕ :=
  let whole := min (rowCount / 8) bitmap.length
  let count := ((bitmap.take whole).map popcount).sum
  let covered := rowCount - whole * 8
  match covered, bitmap.drop whole with
  | covered + 1, bits :: _ =>
    let mask : UInt8 := if 8 ≤ covered + 1 then 255 else (1 <<< UInt8.ofNat (covered + 1)) - 1
    count + popcount (bits &&& mask)
  | _, _ => count

/-- A bitmap as readers index it: one left out stands for all rows present. -/
def presentNullBitmap (stored : List UInt8) (rowCount : ℕ) (formatVersion : UInt8) : List UInt8 :=
  if stored = [] ∧ narrowDictionaryVersion ≤ formatVersion ∧ bytesFor rowCount ≤ noNullsLength then
    replicate (bytesFor rowCount) 0
  else stored

structure ParsedBlock where
  rowCount : ℕ
  nullBitmap : List UInt8
  nullCount : ℕ
  encoding : Encoding
  compression : Compression
  uncompressedLength : ℕ
  compressed : List UInt8
  compressedOffset : ℕ
  minimum : List UInt8
  maximum : List UInt8

def parsePayload (blockOffset length : ℕ) (formatVersion : UInt8) : Reader ParsedBlock := do
  let rowCount ← here blockOffset length (toNat <$> u32)
  let stored ← here blockOffset length bytes
  let bitmap := presentNullBitmap stored rowCount formatVersion
  if bitmap.length ≠ bytesFor rowCount then
    corruptHere blockOffset length "invalid null bitmap length"
  let encoding ← here blockOffset length (do
    let tag ← u8
    Encoding.decode tag)
  let compression ← here blockOffset length (do
    let tag ← u8
    Compression.decode tag formatVersion)
  let uncompressedLength ← here blockOffset length (toNat <$> u32)
  let left ← get
  let compressedOffset := blockOffset + (length - left.length)
  let compressed ← here blockOffset length bytes
  if compression = .none ∧ compressed.length ≠ uncompressedLength then
    throw (.corruptSegment compressedOffset
      s!"raw block length is {compressed.length}, expected {uncompressedLength}")
  let declaredNulls ← here blockOffset length (toNat <$> u32)
  let minimum ← here blockOffset length bytes
  let maximum ← here blockOffset length bytes
  let hll ← here blockOffset length bytes
  if hll.length ≠ sketchRegisters then
    corruptHere blockOffset length "invalid HLL register count"
  let left ← get
  if left ≠ [] then
    throw (.corruptSegment blockOffset s!"{left.length} trailing bytes after record payload")
  let actualNulls := if stored = [] then 0 else coveredNullCount bitmap rowCount
  if actualNulls ≠ declaredNulls then
    throw (.corruptSegment blockOffset "null count mismatch")
  pure ⟨rowCount, bitmap, actualNulls, encoding, compression, uncompressedLength, compressed,
    compressedOffset, minimum, maximum⟩

def parseBlock (blockOffset : ℕ) (encoded : List UInt8) (formatVersion : UInt8) :
    Except StoreError ParsedBlock := do
  let (payload, rest) ← (here blockOffset encoded.length bytes).run encoded
  let (checksum, _) ← (here blockOffset encoded.length u64).run rest
  if codecs.xxh3 payload ≠ checksum then
    throw (.corruptSegment blockOffset "block checksum mismatch")
  let (parsed, _) ← (parsePayload blockOffset payload.length formatVersion).run payload
  pure parsed

def spliceNulls (bitmap : List UInt8) : List ℕ → List Cell → Except String (List Cell)
  | [], values => if values = [] then .ok [] else .error "encoding produced too many values"
  | row :: rows, values =>
    if bitAt bitmap row then (Cell.null :: ·) <$> spliceNulls bitmap rows values
    else
      match values with
      | value :: values => (value :: ·) <$> spliceNulls bitmap rows values
      | [] => .error "encoding produced too few values"

def decodeBlockPayload (parsed : ParsedBlock) (payload : List UInt8) (logicalType : LogicalType) :
    Except String (List Cell) := do
  let nonNullCount := parsed.rowCount - parsed.nullCount
  let _ ← decodedHeapUpperBound payload logicalType parsed.encoding nonNullCount
  let values ← decodePayload avx2 payload logicalType parsed.encoding nonNullCount
  if parsed.nullCount = 0 then
    if values.length ≠ parsed.rowCount then .error "encoding produced the wrong value count"
    else .ok values
  else spliceNulls parsed.nullBitmap (range parsed.rowCount) values

/-- What a parsed block decompresses to. A raw payload is decoded in place. -/
def decompressParsed (parsed : ParsedBlock) : Except String (List UInt8) :=
  if parsed.compression = .none then .ok parsed.compressed
  else decompressBlock codecs parsed.compression parsed.compressed parsed.uncompressedLength

def readBlock (blockOffset : ℕ) (encoded : List UInt8) (logicalType : LogicalType)
    (formatVersion : UInt8) : Except StoreError (List Cell) := do
  let parsed ← parseBlock codecs blockOffset encoded formatVersion
  let damaged := StoreError.corruptSegment parsed.compressedOffset
  let payload ← (decompressParsed codecs parsed).mapError damaged
  (decodeBlockPayload avx2 parsed payload logicalType).mapError damaged

def readFileBlock (length : ℕ) (logicalType : LogicalType) (formatVersion : UInt8) :
    Reader (List Cell) := do
  let left ← get
  let blockOffset := length - left.length
  let payloadLength ← here 0 length (toNat <$> u32)
  let payload ← here 0 length (take payloadLength)
  let checksum ← here 0 length u64
  let encoded := u32Bytes (ofNat payloadLength) ++ (payload ++ u64Bytes checksum)
  readBlock codecs avx2 blockOffset encoded logicalType formatVersion

def readFileColumn (length : ℕ) (formatVersion : UInt8) (expectedRows : ℕ) :
    Reader (UInt32 × LogicalType × List Cell) := do
  let id ← here 0 length u32
  let logicalType ← here 0 length (do
    let tag ← u8
    LogicalType.decode tag)
  let blockCount ← here 0 length (toNat <$> u32)
  let blocks ← (readFileBlock codecs avx2 length logicalType formatVersion).times blockCount
  let cells := blocks.flatten
  if cells.length ≠ expectedRows then
    corruptHere 0 length s!"column has {cells.length} rows, header declares {expectedRows}"
  pure (id, logicalType, cells)

end Reading

end Pintail.Blocks
