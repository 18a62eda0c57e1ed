import Mathlib.Data.Nat.Log
import Pintail.Bytes.Bits
import Pintail.Store.Codec

/-! # Bit-packed integers

The integers of a block are laid down with the bits of the widest of them, least significant bit
first. A payload is read in groups of sixty-four values by a kernel that suits the width and the
processor, and its last values one by one; every way of reading it gives the same numbers.
-/

namespace Pintail.Blocks

open Bytes List UInt64

def leadingZeros (value : UInt64) : ℕ := if value = 0 then 64 else 63 - value.toNat.log2

def bytesFor (bits : ℕ) : ℕ := (bits + 7) / 8

def pack (values : List UInt64) (width : UInt8) : Except StoreError (List UInt8) :=
  let totalBits := values.length * width.toNat
  if totalBits < 2 ^ 64 then
    .ok <| values.zipIdx.foldl
      (fun bytes entry =>
        (range width.toNat).foldl
          (fun bytes bit =>
            if entry.1 &&& (1 <<< ofNat bit) ≠ 0 then
              mark bytes (entry.2 * width.toNat + bit)
            else bytes)
          bytes)
      (replicate (bytesFor totalBits) 0)
  else .error (.formatLimit "bit-packed length overflow")

def packedWidth (values : List UInt64) : UInt8 :=
  UInt8.ofNat (64 - leadingZeros (values.max?.getD 0))

def encodePacked (values : List UInt64) : Except StoreError (List UInt8) := do
  let width := packedWidth values
  let packed ← pack values width
  let packed ← Encoder.bytes packed "bit-packed values"
  pure (width :: packed)

def widthMask (width : ℕ) : UInt64 :=
  if width = 64 then ofNat (2 ^ 64 - 1) else 1 <<< ofNat width - 1

def word (bytes : List UInt8) : UInt64 := ofNat (leNat bytes)

inductive Level
  | baseline
  | avx2
  deriving DecidableEq, Repr

def avx2Widest : ℕ := 57

/-- The kernel for a width on a processor that has or lacks the vector instructions. -/
def unpackLevel (avx2 : Bool) (width : ℕ) : Level :=
  if 1 ≤ width ∧ width ≤ avx2Widest ∧ avx2 then .avx2 else .baseline

/-- The assertions of a kernel; a failed one stops the process with its text. -/
def check (width : ℕ) (bytes : List UInt8) (values : ℕ) : Except String Unit :=
  if 64 < width then .error s!"bit width {width} exceeds 64"
  else
    let needed := bytesFor (values * width)
    if bytes.length < needed then
      .error s!"{values} values of {width} bits need {needed} bytes, payload holds {bytes.length}"
    else .ok ()

/-- The first `size` bytes, with zeros for those that are not there. -/
def padded (size : ℕ) (bytes : List UInt8) : List UInt8 :=
  bytes.take size ++ replicate (size - bytes.length) 0

def unpackPortable (width : ℕ) (bytes : List UInt8) (base : UInt64) (count : ℕ) : List UInt64 :=
  if width = 0 then replicate count base
  else (range count).map fun index =>
    let bit := index * width
    let window := padded 16 (bytes.drop (bit / 8))
    (ofNat (leNat window >>> (bit % 8)) &&& widthMask width) + base

/-- Where a half of a pair starts within the sixteen bytes of its lane. -/
def within (width pair half : ℕ) : ℕ := pair * 2 * width % 8 + half * width

def shuffles (width pair : ℕ) : List UInt8 :=
  (range 2).flatMap fun half =>
    (range 8).map fun byte => UInt8.ofNat (within width pair half / 8 + byte)

def shuffleEpi8 (lane shuffle : List UInt8) : List UInt8 :=
  shuffle.map fun index => if index < 128 then lane.getD (index.toNat % 16) 0 else 0

def pairOf (width : ℕ) (base : UInt64) (window : List UInt8) (pair : ℕ) : List UInt64 :=
  let lane := (window.drop (pair * 2 * width / 8)).take 16
  let placed := shuffleEpi8 lane (shuffles width pair)
  (range 2).map fun half =>
    (word ((placed.drop (half * 8)).take 8) >>> ofNat (within width pair half % 8) &&&
      widthMask width) + base

def directRuns (width : ℕ) (bytes : List UInt8) (count : ℕ) : ℕ :=
  if 64 ≤ bytes.length then min ((bytes.length - 64) / width + 1) (count / 8) else 0

/-- Runs of eight values, each from the sixty-four bytes at its start. -/
def unpackAvx2 (width : ℕ) (bytes : List UInt8) (base : UInt64) (count : ℕ) : List UInt64 :=
  (range ((count + 7) / 8)).flatMap fun index =>
    let rest := bytes.drop (index * width)
    let window := if index < directRuns width bytes count then rest.take 64 else padded 64 rest
    ((range 4).flatMap (pairOf width base window)).take (count - index * 8)

def unpackU64 (avx2 : Bool) (width : ℕ) (bytes : List UInt8) (base : UInt64) (count : ℕ) :
    Except String (List UInt64) := do
  check width bytes count
  match unpackLevel avx2 width with
  | .baseline => pure (unpackPortable width bytes base count)
  | .avx2 =>
    if width = 0 ∨ avx2Widest < width then pure (unpackPortable width bytes base count)
    else pure (unpackAvx2 width bytes base count)

def group : ℕ := 64

def vectoredGroups : ℕ := 8

def wholeChunk : ℕ := group * vectoredGroups

/-- The values from `done` on, a chunk for each call of the kernel. -/
def unpackWholeChunked (kernel : List UInt8 → ℕ → Except String (List UInt64)) (chunk : ℕ)
    (width : ℕ) (bytes : List UInt8) (valueCount done : ℕ) : Except String (List UInt64) :=
  if _h : done < valueCount ∧ 0 < chunk then do
    let held := min (valueCount - done) chunk
    let values ← kernel (bytes.drop (done * width / 8)) held
    let rest ← unpackWholeChunked kernel chunk width bytes valueCount (done + held)
    pure (values ++ rest)
  else pure []
termination_by valueCount - done

def unpackWhole (kernel : List UInt8 → ℕ → Except String (List UInt64)) (width : ℕ)
    (bytes : List UInt8) (valueCount : ℕ) : Except String (List UInt64) :=
  if wholeChunk ≤ valueCount then unpackWholeChunked kernel wholeChunk width bytes valueCount 0
  else unpackWholeChunked kernel group width bytes valueCount 0

def unpackGroupsVectored (avx2 : Bool) (width : ℕ) (bytes : List UInt8) (groups : ℕ) :
    Except String (List UInt64) :=
  if groups = 1 then unpackU64 avx2 width bytes 0 group
  else
    unpackWholeChunked (fun bytes => unpackU64 avx2 width bytes 0) wholeChunk width bytes
      (groups * group) 0

/-- A value of at most 32 bits lies in the eight bytes from the byte it starts in. -/
def unpackNarrowGroup (width : ℕ) (bytes : List UInt8) (index : ℕ) : List UInt64 :=
  let groupBytes := width * 8
  let rest := bytes.drop (index * groupBytes)
  let window :=
    if groupBytes + 8 ≤ rest.length then rest.take (groupBytes + 8)
    else rest.take groupBytes ++ replicate 8 0
  (range group).map fun value =>
    let bit := value % 8 * width
    let at' := value / 8 * width + bit / 8
    word ((window.drop at').take 8) >>> ofNat (bit % 8) &&& widthMask width

/-- A wider value lies in two neighbouring words of its group. -/
def unpackWideGroup (width : ℕ) (bytes : List UInt8) (index : ℕ) : List UInt64 :=
  let chunk := (bytes.drop (index * (width * 8))).take (width * 8)
  let words := (range width).map fun i => word ((chunk.drop (i * 8)).take 8)
  (range group).map fun value =>
    let bit := value * width
    let shift := bit % 64
    let low := words.getD (bit / 64) 0 >>> ofNat shift
    let high := (words.getD (bit / 64 + 1) 0 <<< 1) <<< ofNat (63 - shift)
    (low ||| high) &&& widthMask width

def unpackWholeGroups (avx2 : Bool) (width : ℕ) (bytes : List UInt8) (groups : ℕ) :
    Except String (List UInt64) :=
  if 0 < groups ∧ unpackLevel avx2 width ≠ .baseline then
    unpackGroupsVectored avx2 width bytes groups
  else if width = 0 then pure (replicate (groups * group) 0)
  else if width ≤ 32 then pure ((range groups).flatMap (unpackNarrowGroup width bytes))
  else pure ((range groups).flatMap (unpackWideGroup width bytes))

/-- The bits loaded ahead of the values taken from a payload. -/
structure BitReader where
  bytes : List UInt8
  cursor : ℕ
  accumulator : ℕ
  liveBits : ℕ

namespace BitReader

def new (bytes : List UInt8) : BitReader := ⟨bytes, 0, 0, 0⟩

/-- Load `size` bytes above the live bits of the 128-bit accumulator. -/
def load (reader : BitReader) (size : ℕ) : BitReader where
  bytes := reader.bytes
  cursor := reader.cursor + size
  accumulator := reader.accumulator |||
    (leNat ((reader.bytes.drop reader.cursor).take size) <<< reader.liveBits) % 2 ^ 128
  liveBits := reader.liveBits + 8 * size

def fill (width : ℕ) (reader : BitReader) : BitReader :=
  if reader.liveBits < width then
    if reader.cursor + 8 ≤ reader.bytes.length then fill width (reader.load 8)
    else if reader.cursor < reader.bytes.length then fill width (reader.load 1)
    else reader
  else reader
termination_by reader.bytes.length - reader.cursor
decreasing_by all_goals simp only [load]; omega

def read (width : ℕ) (reader : BitReader) : UInt64 × BitReader :=
  let filled := reader.fill width
  (ofNat filled.accumulator &&& widthMask width,
    { filled with
      accumulator := filled.accumulator >>> width
      liveBits := filled.liveBits - width })

def readTimes (width : ℕ) : ℕ → BitReader → List UInt64
  | 0, _ => []
  | count + 1, reader => (reader.read width).1 :: readTimes width count (reader.read width).2

end BitReader

section Unpacking

variable (avx2 : Bool)

def forEachUnpackedGroup (width : ℕ) (bytes : List UInt8) (valueCount : ℕ) :
    Except String (List UInt64) := do
  let wholeGroups := valueCount / group
  let values ← unpackWholeGroups avx2 width bytes wholeGroups
  let rest := valueCount - wholeGroups * group
  let consumed := wholeGroups * group * width / 8
  pure (values ++ (BitReader.new (bytes.drop consumed)).readTimes width rest)

def unpackHeader (valueCount : ℕ) : Decoder (ℕ × List UInt8) := do
  let width ← Decoder.u8
  if 64 < width then throw s!"invalid bit width {width}"
  let bytes ← Decoder.bytes
  let expectedBits := valueCount * width.toNat
  if 2 ^ 64 ≤ expectedBits then throw "bit-packed length overflow"
  if bytes.length ≠ bytesFor expectedBits then
    throw s!"bit-packed payload has {bytes.length} bytes, expected {bytesFor expectedBits}"
  pure (width.toNat, bytes)

def decodesWhole (width valueCount : ℕ) : Prop :=
  group ≤ valueCount ∧ unpackLevel avx2 width ≠ .baseline

instance (width valueCount : ℕ) : Decidable (decodesWhole avx2 width valueCount) :=
  inferInstanceAs (Decidable (_ ∧ _))

def unpackValues (width : ℕ) (bytes : List UInt8) (valueCount : ℕ) : Except String (List UInt64) :=
  if decodesWhole avx2 width valueCount then
    unpackWhole (fun bytes => unpackU64 avx2 width bytes 0) width bytes valueCount
  else forEachUnpackedGroup avx2 width bytes valueCount

def unpack (valueCount : ℕ) : Decoder (List UInt64) := do
  let (width, bytes) ← unpackHeader valueCount
  unpackValues avx2 width bytes valueCount

end Unpacking

end Pintail.Blocks
