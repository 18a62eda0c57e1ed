import Pintail.Store.Reopen

/-! # Manifest files

A manifest is written as one checksummed record: its counters, then one entry a segment with the
key bounds, the bloom filter and the optional statistics of its columns. The reader takes the
formats of four versions; what the writer lays down is read back unchanged.
-/

namespace Pintail

open Bytes Except Decoder

/-- A 128-bit signed integer in two's complement. -/
abbrev Int128 := BitVec 128

inductive NativeUnits
  | date
  | dateTime (fsp : UInt8)
  | decimal (scale : UInt8)
  deriving DecidableEq, Repr

/-- Totals and extremes of floats are kept by their bits. -/
inductive SmaSum
  | int (total : Int128)
  | float (total : UInt64)
  | decimalUnits (units : Int128) (scale : UInt8)

inductive SmaExtremes
  | int (min max : Int64)
  | uint (min max : UInt64)
  | float (min max : UInt64)
  | decimalUnits (min max : Int128) (scale : UInt8)
  | temporal (min max : Int64) (units : NativeUnits)

def sketchRegisters : ℕ := 64

structure DistinctSketch where
  registers : List UInt8
  length_eq : registers.length = sketchRegisters

structure ColumnSma where
  columnId : UInt32
  nonNull : UInt64
  sum : Option SmaSum
  extremes : Option SmaExtremes
  distinct : Option DistinctSketch

structure SegmentSmas where
  liveRows : UInt64
  tombstones : UInt64
  columns : List ColumnSma

structure SegmentFacts where
  id : UInt64
  fileName : String
  rowCount : UInt64
  minVersion : UInt64
  maxVersion : UInt64
  schemaFingerprint : UInt64
  minKey : PrimaryKey
  maxKey : PrimaryKey
  bloom : List UInt8
  uniqueKeys : Bool
  smas : Option SegmentSmas

structure ManifestFile where
  generation : UInt64
  schemaVersion : UInt32
  schemaFingerprint : UInt64
  keyMode : KeyMode
  flushedSequence : UInt64
  nextSegmentId : UInt64
  epoch : UInt64
  committedVersion : UInt64
  segments : List SegmentFacts

namespace ManifestFile

/-- `PTMAN` -/
def magic : List UInt8 := [0x50, 0x54, 0x4d, 0x41, 0x4e]

def formatVersion : UInt8 := 4

def encodeInt128 (value : Int128) : List UInt8 :=
  u64Bytes (UInt64.ofBitVec (value.setWidth 64)) ++
    u64Bytes (UInt64.ofBitVec ((value >>> 64).setWidth 64))

def encodeSum : Option SmaSum → List UInt8
  | none => [0]
  | some (.int total) => 1 :: encodeInt128 total
  | some (.float total) => 2 :: u64Bytes total
  | some (.decimalUnits units scale) => 3 :: (encodeInt128 units ++ [scale])

def encodeUnits : NativeUnits → Except StoreError (List UInt8)
  | .date => .ok [0]
  | .dateTime fsp => .ok [1, fsp]
  | .decimal _ => .error (.formatLimit "decimal extremes use the DecimalUnits form")

def encodeExtremes : Option SmaExtremes → Except StoreError (List UInt8)
  | none => .ok [0]
  | some (.int min max) => .ok (1 :: (i64Bytes min ++ i64Bytes max))
  | some (.uint min max) => .ok (2 :: (u64Bytes min ++ u64Bytes max))
  | some (.float min max) => .ok (3 :: (u64Bytes min ++ u64Bytes max))
  | some (.decimalUnits min max scale) =>
    .ok (4 :: (encodeInt128 min ++ (encodeInt128 max ++ [scale])))
  | some (.temporal min max units) =>
    (fun tail => 5 :: (i64Bytes min ++ (i64Bytes max ++ tail))) <$> encodeUnits units

def encodeSketch : Option DistinctSketch → List UInt8
  | none => [0]
  | some sketch => 1 :: sketch.registers

def encodeColumnSma (column : ColumnSma) : Except StoreError (List UInt8) := do
  let extremes ← encodeExtremes column.extremes
  pure (u32Bytes column.columnId ++ (u64Bytes column.nonNull ++ (encodeSum column.sum ++
    (extremes ++ encodeSketch column.distinct))))

def encodeSmas : Option SegmentSmas → Except StoreError (List UInt8)
  | none => .ok [0]
  | some smas => do
    let columns ← Encoder.each smas.columns "segment SMA column count" encodeColumnSma
    pure (1 :: (u64Bytes smas.liveRows ++ (u64Bytes smas.tombstones ++ columns)))

def encodeSegment (segment : SegmentFacts) : Except StoreError (List UInt8) := do
  let fileName ← Encoder.utf8 segment.fileName "segment file name"
  let minKey ← encodeKey segment.minKey
  let maxKey ← encodeKey segment.maxKey
  let bloom ← Encoder.bytes segment.bloom "segment primary-key bloom"
  let smas ← encodeSmas segment.smas
  pure (u64Bytes segment.id ++ (fileName ++ (u64Bytes segment.rowCount ++
    (u64Bytes segment.minVersion ++ (u64Bytes segment.maxVersion ++
    (u64Bytes segment.schemaFingerprint ++ (minKey ++ (maxKey ++ (bloom ++
    ([if segment.uniqueKeys then 1 else 0] ++ smas))))))))))

def encodeBody (file : ManifestFile) : Except StoreError (List UInt8) := do
  let segments ← Encoder.each file.segments "manifest segment count" encodeSegment
  pure (magic ++ ([formatVersion] ++ (u64Bytes file.generation ++
    (u32Bytes file.schemaVersion ++ (u64Bytes file.schemaFingerprint ++
    ([keyModeTag file.keyMode] ++ (u64Bytes file.flushedSequence ++
    (u64Bytes file.nextSegmentId ++ (u64Bytes file.epoch ++
    (u64Bytes file.committedVersion ++ segments))))))))))

def encode (xxh3 : List UInt8 → UInt64) (file : ManifestFile) : Except StoreError (List UInt8) := do
  let body ← encodeBody file
  pure (body ++ u64Bytes (xxh3 body))

section Reading

/-- Reads of a manifest whose fields end at `length`; a failure names where the field starts. -/
abbrev Reader := Decode UInt8 StoreError

variable (length : ℕ)

def corruptHere {α : Type} (reason : String) : Reader α := fun input =>
  .error (.corruptManifest (length - input.length) reason)

def field {α : Type} (decoder : Decoder α) : Reader α := fun input =>
  match decoder.run input with
  | .ok result => .ok result
  | .error reason => corruptHere length reason input

def decodeInt128 : Reader Int128 := do
  let low ← field length u64
  let high ← field length u64
  pure ((high.toBitVec.setWidth 128 <<< 64) ||| low.toBitVec.setWidth 128)

def decodeSum : Reader (Option SmaSum) := do
  match ← field length u8 with
  | 0 => pure none
  | 1 =>
    let total ← decodeInt128 length
    pure (some (.int total))
  | 2 =>
    let total ← field length u64
    pure (some (.float total))
  | 3 =>
    let units ← decodeInt128 length
    let scale ← field length u8
    pure (some (.decimalUnits units scale))
  | tag => corruptHere length s!"invalid SMA sum tag {tag}"

def decodeUnits : Reader NativeUnits := do
  match ← field length u8 with
  | 0 => pure .date
  | 1 =>
    let fsp ← field length u8
    pure (.dateTime fsp)
  | tag => corruptHere length s!"invalid temporal SMA unit tag {tag}"

def decodeExtremes : Reader (Option SmaExtremes) := do
  match ← field length u8 with
  | 0 => pure none
  | 1 =>
    let min ← field length i64
    let max ← field length i64
    pure (some (.int min max))
  | 2 =>
    let min ← field length u64
    let max ← field length u64
    pure (some (.uint min max))
  | 3 =>
    let min ← field length u64
    let max ← field length u64
    pure (some (.float min max))
  | 4 =>
    let min ← decodeInt128 length
    let max ← decodeInt128 length
    let scale ← field length u8
    pure (some (.decimalUnits min max scale))
  | 5 =>
    let min ← field length i64
    let max ← field length i64
    let units ← decodeUnits length
    pure (some (.temporal min max units))
  | tag => corruptHere length s!"invalid SMA extremes tag {tag}"

def decodeSketch : Reader (Option DistinctSketch) := do
  match ← field length u8 with
  | 0 => pure none
  | 1 =>
    let registers ← field length (take sketchRegisters)
    if h : registers.length = sketchRegisters then pure (some ⟨registers, h⟩)
    else corruptHere length "short distinct sketch"
  | tag => corruptHere length s!"invalid distinct sketch tag {tag}"

/-- A counted collection; the count alone is not checked against the bytes left. -/
def counted {α : Type} (decode : Reader α) : Reader (List α) := do
  let count ← field length (UInt32.toNat <$> u32)
  decode.times count

def decodeColumnSma (version : UInt8) : Reader ColumnSma := do
  let columnId ← field length u32
  let nonNull ← field length u64
  let sum ← decodeSum length
  let extremes ← decodeExtremes length
  let distinct ← if version ≥ 4 then decodeSketch length else pure none
  pure { columnId, nonNull, sum, extremes, distinct }

def decodeSmas (version : UInt8) : Reader (Option SegmentSmas) := do
  match ← field length u8 with
  | 0 => pure none
  | 1 =>
    let liveRows ← field length u64
    let tombstones ← field length u64
    let columns ← counted length (decodeColumnSma length version)
    pure (some { liveRows, tombstones, columns })
  | tag => corruptHere length s!"invalid SMA presence {tag}"

def decodeUnique : Reader Bool := do
  match ← field length u8 with
  | 0 => pure false
  | 1 => pure true
  | value => corruptHere length s!"invalid unique-key flag {value}"

def decodeSegment (version : UInt8) : Reader SegmentFacts := do
  let id ← field length u64
  let fileName ← field length (utf8 "segment file name")
  let rowCount ← field length u64
  let minVersion ← field length u64
  let maxVersion ← field length u64
  let schemaFingerprint ← field length u64
  let minKey ← field length decodeKey
  let maxKey ← field length decodeKey
  let bloom ← field length bytes
  let uniqueKeys ← decodeUnique length
  let smas ← if version ≥ 2 then decodeSmas length version else pure none
  pure { id, fileName, rowCount, minVersion, maxVersion, schemaFingerprint, minKey, maxKey, bloom,
         uniqueKeys, smas }

def decodeKeyMode : Reader KeyMode := do
  match ← field length u8 with
  | 0 => pure .primary
  | 1 => pure .unique
  | 2 => pure .appendRowId
  | tag => corruptHere length s!"unknown table key mode {tag}"

def decodeMagic : Reader Unit := do
  let head ← field length (take magic.length)
  if head ≠ magic then throw (.corruptManifest 0 "invalid magic")

def decodeVersion : Reader UInt8 := do
  let version ← field length u8
  if 1 ≤ version ∧ version ≤ formatVersion then pure version
  else corruptHere length "unsupported format version"

def decodeBody : Reader ManifestFile := do
  decodeMagic length
  let version ← decodeVersion length
  let generation ← field length u64
  let schemaVersion ← field length u32
  let schemaFingerprint ← field length u64
  let keyMode ← decodeKeyMode length
  let flushedSequence ← field length u64
  let nextSegmentId ← field length u64
  let epoch ← field length u64
  let committedVersion ← if version ≥ 3 then field length u64 else pure 0
  let segments ← counted length (decodeSegment length version)
  pure { generation, schemaVersion, schemaFingerprint, keyMode, flushedSequence, nextSegmentId,
         epoch, committedVersion, segments }

/-- Segment names are below the counter the next one is taken from. -/
def Followed (file : ManifestFile) : Prop :=
  file.nextSegmentId ≠ 0 ∧ ∀ segment ∈ file.segments, segment.id < file.nextSegmentId

instance (file : ManifestFile) : Decidable file.Followed := by
  unfold Followed
  infer_instance

def read (xxh3 : List UInt8 → UInt64) (bytes : List UInt8) : Except StoreError ManifestFile :=
  if bytes.length < magic.length + 1 + 8 then .error (.corruptManifest 0 "manifest is too short")
  else
    let length := bytes.length - 8
    let body := bytes.take length
    if xxh3 body ≠ UInt64.ofNat (leNat (bytes.drop length)) then
      .error (.corruptManifest length "checksum mismatch")
    else do
      let (file, rest) ← (decodeBody length).run body
      match finish.run rest with
      | .error reason => throw (.corruptManifest length reason)
      | .ok _ =>
        if file.Followed then pure file
        else throw (.corruptManifest 0 "next segment id does not follow published segments")

end Reading

section RoundTrip

variable {length : ℕ} {α : Type} {bytes : List UInt8}

theorem reads_field {decoder : Decoder α} {a : α}
    (h : Reads decoder bytes a) : Reads (field length decoder) bytes a := by
  intro rest
  change field length decoder (bytes ++ rest) = _
  rw [field, h rest]

theorem reads_tag (tag : UInt8) : Reads (field length u8) [tag] tag :=
  reads_field (reads_u8 tag)

theorem reads_word (v : UInt64) : Reads (field length u64) (u64Bytes v) v :=
  reads_field (reads_u64 v)

theorem int128_of_halves (value : Int128) :
    ((value >>> 64).setWidth 64).setWidth 128 <<< 64 ||| (value.setWidth 64).setWidth 128 =
      value := by
  ext i hi
  by_cases hlow : i < 64
  · simp [hlow, BitVec.getLsbD_eq_getElem hi]
  · have hhigh : i - 64 < 64 := by omega
    have hback : 64 + (i - 64) = i := by omega
    simp [hlow, hhigh, hback, BitVec.getLsbD_eq_getElem hi]

theorem reads_int128 (value : Int128) : Reads (decodeInt128 length) (encodeInt128 value) value := by
  have h : Reads (decodeInt128 length) (encodeInt128 value)
      (((value >>> 64).setWidth 64).setWidth 128 <<< 64 ||| (value.setWidth 64).setWidth 128) :=
    (reads_word _).bind (reads_word _).map
  rwa [int128_of_halves] at h

theorem reads_sum (sum : Option SmaSum) : Reads (decodeSum length) (encodeSum sum) sum := by
  match sum with
  | none => exact (reads_tag 0).bind (Reads.pure none)
  | some (.int total) => exact (reads_tag 1).bind (reads_int128 total).map
  | some (.float total) => exact (reads_tag 2).bind (reads_word total).map
  | some (.decimalUnits units scale) =>
    exact (reads_tag 3).bind ((reads_int128 units).bind (reads_tag scale).map)

variable {out : List UInt8}

theorem reads_units {units : NativeUnits} (h : encodeUnits units = .ok out) :
    Reads (decodeUnits length) out units := by
  cases units with
  | date =>
    cases h
    exact (reads_tag 0).bind (Reads.pure _)
  | dateTime fsp =>
    cases h
    exact (reads_tag 1).bind (reads_tag fsp).map
  | decimal scale => cases h

theorem reads_extremes {extremes : Option SmaExtremes} (h : encodeExtremes extremes = .ok out) :
    Reads (decodeExtremes length) out extremes := by
  have hi (v : Int64) : Reads (field length i64) (i64Bytes v) v :=
    reads_field (reads_i64 v)
  match extremes with
  | none =>
    cases h
    exact (reads_tag 0).bind (Reads.pure none)
  | some (.int min max) =>
    cases h
    exact (reads_tag 1).bind ((hi min).bind (hi max).map)
  | some (.uint min max) =>
    cases h
    exact (reads_tag 2).bind ((reads_word min).bind (reads_word max).map)
  | some (.float min max) =>
    cases h
    exact (reads_tag 3).bind ((reads_word min).bind (reads_word max).map)
  | some (.decimalUnits min max scale) =>
    cases h
    exact (reads_tag 4).bind ((reads_int128 min).bind ((reads_int128 max).bind (reads_tag scale).map))
  | some (.temporal min max units) =>
    obtain ⟨tail, ht, rfl⟩ := map_eq_ok.mp h
    exact (reads_tag 5).bind ((hi min).bind ((hi max).bind (reads_units ht).map))

theorem reads_sketch (sketch : Option DistinctSketch) :
    Reads (decodeSketch length) (encodeSketch sketch) sketch := by
  cases sketch with
  | none => exact (reads_tag 0).bind (Reads.pure none)
  | some sketch =>
    have ht : Reads (field length (take sketchRegisters)) sketch.registers
        sketch.registers := by
      rw [← sketch.length_eq]
      exact reads_field (reads_take sketch.registers)
    refine (reads_tag 1).bind (ht.andThen ?_)
    simp only [sketch.length_eq]
    exact Reads.pure _

theorem reads_counted {τ : Type} {decode : Reader τ} {items : List τ} {what : String}
    {enc : τ → Except StoreError (List UInt8)} (h : Encoder.each items what enc = .ok out)
    (hr : ∀ t ∈ items, ∀ chunk, enc t = .ok chunk → Reads decode chunk t) :
    Reads (counted length decode) out items := by
  obtain ⟨head, hl, h⟩ := bind_eq_ok.mp h
  obtain ⟨chunks, hc, h⟩ := bind_eq_ok.mp h
  cases h
  exact (reads_field (reads_length hl)).bind
    (Reads.times (forall₂_of_mapM_eq_ok hc hr))

theorem reads_columnSma {column : ColumnSma} (h : encodeColumnSma column = .ok out) :
    Reads (decodeColumnSma length formatVersion) out column := by
  obtain ⟨extremes, he, h⟩ := bind_eq_ok.mp h
  cases h
  exact (reads_field (reads_u32 _)).bind ((reads_word _).bind
    ((reads_sum _).bind ((reads_extremes he).bind (reads_sketch column.distinct).map)))

theorem reads_smas {smas : Option SegmentSmas} (h : encodeSmas smas = .ok out) :
    Reads (decodeSmas length formatVersion) out smas := by
  cases smas with
  | none =>
    cases h
    exact (reads_tag 0).bind (Reads.pure none)
  | some smas =>
    obtain ⟨columns, hc, h⟩ := bind_eq_ok.mp h
    cases h
    have hcolumns : Reads (counted length (decodeColumnSma length formatVersion)) columns
        smas.columns := reads_counted hc fun _ _ _ hf => reads_columnSma hf
    exact (reads_tag 1).bind ((reads_word _).bind
      ((reads_word _).bind hcolumns.map))

theorem reads_unique (unique : Bool) :
    Reads (decodeUnique length) [if unique then 1 else 0] unique := by
  cases unique
  · exact (reads_tag 0).bind (Reads.pure _)
  · exact (reads_tag 1).bind (Reads.pure _)

theorem reads_segment {segment : SegmentFacts} (h : encodeSegment segment = .ok out) :
    Reads (decodeSegment length formatVersion) out segment := by
  obtain ⟨fileName, hn, h⟩ := bind_eq_ok.mp h
  obtain ⟨minKey, hmin, h⟩ := bind_eq_ok.mp h
  obtain ⟨maxKey, hmax, h⟩ := bind_eq_ok.mp h
  obtain ⟨bloom, hb, h⟩ := bind_eq_ok.mp h
  obtain ⟨smas, hs, h⟩ := bind_eq_ok.mp h
  cases h
  have htail : Reads (do
      let smas ← decodeSmas length formatVersion
      pure { segment with smas : SegmentFacts }) smas segment := (reads_smas hs).map
  exact (reads_word _).bind ((reads_field (reads_utf8 hn)).bind ((reads_word _).bind
    ((reads_word _).bind ((reads_word _).bind ((reads_word _).bind
    ((reads_field (reads_key hmin)).bind ((reads_field (reads_key hmax)).bind
    ((reads_field (reads_bytes hb)).bind ((reads_unique _).bind htail)))))))))

theorem reads_keyMode (keyMode : KeyMode) :
    Reads (decodeKeyMode length) [keyModeTag keyMode] keyMode := by
  cases keyMode
  · exact (reads_tag 0).bind (Reads.pure _)
  · exact (reads_tag 1).bind (Reads.pure _)
  · exact (reads_tag 2).bind (Reads.pure _)

theorem reads_magic : Reads (decodeMagic length) magic () :=
  (reads_field (reads_take magic)).bind (Reads.pure ())

theorem reads_version : Reads (decodeVersion length) [formatVersion] formatVersion :=
  (reads_tag formatVersion).bind (Reads.pure formatVersion)

variable {file : ManifestFile}

theorem reads_body (h : encodeBody file = .ok out) : Reads (decodeBody length) out file := by
  obtain ⟨segments, hs, h⟩ := bind_eq_ok.mp h
  cases h
  have hsegments : Reads (counted length (decodeSegment length formatVersion)) segments
      file.segments := reads_counted hs fun _ _ _ hf => reads_segment hf
  exact reads_magic.bind (reads_version.bind ((reads_word _).bind
    ((reads_field (reads_u32 _)).bind ((reads_word _).bind ((reads_keyMode _).bind
    ((reads_word _).bind ((reads_word _).bind ((reads_word _).bind ((reads_word _).bind
    hsegments.map)))))))))

theorem length_le_of_encodeBody (h : encodeBody file = .ok out) :
    magic.length + 1 ≤ out.length := by
  obtain ⟨segments, -, h⟩ := bind_eq_ok.mp h
  cases h
  simp only [List.length_append, List.length_singleton]
  omega

theorem read_of_encode {xxh3 : List UInt8 → UInt64} {bytes : List UInt8}
    (h : file.encode xxh3 = .ok bytes) : read xxh3 bytes =
      if file.Followed then .ok file
      else .error (.corruptManifest 0 "next segment id does not follow published segments") := by
  obtain ⟨body, hb, h⟩ := bind_eq_ok.mp h
  cases h
  have hlong := length_le_of_encodeBody hb
  have hend : (body ++ u64Bytes (xxh3 body)).length - 8 = body.length := by simp
  have hrun : (decodeBody body.length).run body = .ok (file, []) := (reads_body hb).run
  unfold read
  rw [if_neg (by omega), hend]
  dsimp only
  rw [List.take_left, List.drop_left, ofNat_leNat_u64Bytes, if_neg (not_not.mpr rfl), hrun]
  rfl

/-- Reading the bytes of a manifest gives the manifest, with all statistics of its segments. -/
theorem read_encode {xxh3 : List UInt8 → UInt64} {bytes : List UInt8} (hf : file.Followed)
    (h : file.encode xxh3 = .ok bytes) : read xxh3 bytes = .ok file := by
  rw [read_of_encode h, if_pos hf]

/-- A table of one segment, with a decimal column and one that is always null. -/
def sampleFile : ManifestFile where
  generation := 3
  schemaVersion := 1
  schemaFingerprint := 77
  keyMode := .primary
  flushedSequence := 9
  nextSegmentId := 2
  epoch := 3
  committedVersion := 5
  segments := [{
    id := 1, fileName := "1", rowCount := 2, minVersion := 4, maxVersion := 5,
    schemaFingerprint := 77, minKey := ⟨[.int64 (-1)], by decide⟩,
    maxKey := ⟨[.utf8 "k"], by decide⟩, bloom := [0, 255], uniqueKeys := true,
    smas := some {
      liveRows := 2, tombstones := 0,
      columns := [
        { columnId := 2, nonNull := 2, sum := some (.decimalUnits (BitVec.ofInt 128 (-150)) 2),
          extremes := some (.decimalUnits (BitVec.ofInt 128 (-200)) 50 2), distinct := none },
        { columnId := 3, nonNull := 0, sum := none, extremes := none,
          distinct := some ⟨List.replicate 64 0, by decide⟩ }] } }]

theorem read_encode_sample : sampleFile.Followed ∧
    ∃ bytes, sampleFile.encode (fun _ => 1) = .ok bytes ∧
      read (fun _ => 1) bytes = .ok sampleFile :=
  ⟨by decide, _, rfl, read_encode (by decide) rfl⟩

end RoundTrip

end ManifestFile

/-- The entry of a manifest file that stands for a segment. -/
structure SegmentFacts.Describes (facts : SegmentFacts) (segment : Segment) : Prop where
  id_eq : facts.id.toNat = segment.id
  rowCount_eq : facts.rowCount.toNat = segment.rowCount
  minVersion_eq : facts.minVersion = segment.minVersion
  maxVersion_eq : facts.maxVersion = segment.maxVersion
  schemaFingerprint_eq : facts.schemaFingerprint = segment.schemaFingerprint
  minKey_eq : facts.minKey = segment.minKey
  maxKey_eq : facts.maxKey = segment.maxKey
  uniqueKeys_eq : facts.uniqueKeys = segment.uniqueKeys

/-- The file of a manifest: the same counters, and an entry for every segment. -/
structure ManifestFile.Describes (file : ManifestFile) (manifest : Manifest) : Prop where
  generation_eq : file.generation.toNat = manifest.generation
  schemaVersion_eq : file.schemaVersion = manifest.schemaVersion
  schemaFingerprint_eq : file.schemaFingerprint = manifest.schemaFingerprint
  keyMode_eq : file.keyMode = manifest.keyMode
  flushedSequence_eq : file.flushedSequence = manifest.flushedSequence
  nextSegmentId_eq : file.nextSegmentId.toNat = manifest.nextSegmentId
  epoch_eq : file.epoch.toNat = manifest.epoch
  committedVersion_eq : file.committedVersion = manifest.committedVersion
  segments : List.Forall₂ SegmentFacts.Describes file.segments manifest.segments

namespace ManifestFile

variable {manifest : Manifest} {file : ManifestFile}

theorem Describes.followed_iff (h : file.Describes manifest) :
    file.Followed ↔ ¬(manifest.nextSegmentId = 0 ∨
      ∃ segment ∈ manifest.segments, segment.id ≥ manifest.nextSegmentId) := by
  have hzero : file.nextSegmentId = 0 ↔ manifest.nextSegmentId = 0 := by
    rw [← h.nextSegmentId_eq, ← UInt64.toNat_inj]
    rfl
  have hlt {facts segment} (hd : SegmentFacts.Describes facts segment) :
      facts.id < file.nextSegmentId ↔ segment.id < manifest.nextSegmentId := by
    rw [UInt64.lt_iff_toNat_lt, h.nextSegmentId_eq, hd.id_eq]
  push Not
  rw [Followed, ne_eq, hzero]
  apply and_congr_right
  intro _
  constructor
  · intro hall segment hs
    obtain ⟨facts, hf, hd⟩ := h.segments.exists_of_mem_right hs
    exact (hlt hd).mp (hall facts hf)
  · intro hall facts hf
    obtain ⟨segment, hs, hd⟩ := h.segments.exists_of_mem_left hf
    exact (hlt hd).mpr (hall segment hs)

/-- The bytes of a manifest's file are refused when the manifest is, and otherwise read back. -/
theorem Describes.read_eq {xxh3 : List UInt8 → UInt64} {bytes : List UInt8}
    (h : file.Describes manifest) (hb : file.encode xxh3 = .ok bytes) :
    read xxh3 bytes = manifest.read.map fun _ => file := by
  rw [read_of_encode hb, Manifest.read, if_congr h.followed_iff rfl rfl, ite_not]
  split_ifs <;> rfl

end ManifestFile

end Pintail
