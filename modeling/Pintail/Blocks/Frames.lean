import Pintail.Blocks.Payload

/-! # Compressed blocks and frames

A payload is stored raw, compressed whole, or, when it is wide text, as frames of whole values that
are compressed one by one. Reading the stored bytes under their own tag gives the payload back.
-/

namespace Pintail.Blocks

open Bytes List Except
open Decoder hiding count

inductive Compression
  | none
  | lz4
  | zstd
  | adaptiveLz4
  | framed
  deriving DecidableEq, Repr

/-- The compression libraries and the hash. A decompressor writes into a buffer of the given size
and returns what it wrote; it undoes its compressor. -/
structure Codecs where
  lz4Compress : List UInt8 → List UInt8
  lz4DecompressInto : List UInt8 → ℕ → Except String (List UInt8)
  zstdCompress : List UInt8 → Except String (List UInt8)
  zstdDecompress : List UInt8 → ℕ → Except String (List UInt8)
  xxh3 : List UInt8 → UInt64
  lz4_inverse : ∀ bytes, lz4DecompressInto (lz4Compress bytes) bytes.length = .ok bytes
  zstd_inverse : ∀ bytes compressed, zstdCompress bytes = .ok compressed →
    zstdDecompress compressed bytes.length = .ok bytes

namespace Compression

def tag : Compression → UInt8
  | none => 0
  | lz4 => 1
  | zstd => 2
  | adaptiveLz4 => 3
  | framed => 4

def framedBlockVersion : UInt8 := 5

def decode (tag formatVersion : UInt8) : Except String Compression :=
  match tag with
  | 0 =>
    if 3 ≤ formatVersion then .ok none
    else .error s!"raw block compression requires format version 3, found {formatVersion}"
  | 1 => .ok lz4
  | 2 => .ok zstd
  | 4 =>
    if framedBlockVersion ≤ formatVersion then .ok framed
    else .error s!"unknown block compression {tag}"
  | tag => .error s!"unknown block compression {tag}"

/-- Compressions a stored block names. -/
def Stored (compression : Compression) : Prop := compression ≠ adaptiveLz4

theorem decode_tag {compression : Compression} (h : compression.Stored) {formatVersion : UInt8}
    (hv : framedBlockVersion ≤ formatVersion) :
    decode compression.tag formatVersion = .ok compression := by
  have h3 : 3 ≤ formatVersion := le_trans (by decide) hv
  cases compression with
  | none => simp [decode, tag, h3]
  | framed => simp [decode, tag, hv]
  | lz4 | zstd => rfl
  | adaptiveLz4 => exact absurd rfl h

end Compression

section Whole

variable (codecs : Codecs)

def materiallySmaller (uncompressed compressed : ℕ) : Prop :=
  0 < uncompressed ∧ saturate (compressed * 100) ≤ saturate (uncompressed * 95)

instance (uncompressed compressed : ℕ) : Decidable (materiallySmaller uncompressed compressed) :=
  inferInstanceAs (Decidable (_ ∧ _))

def compressBlockForStorage (compression : Compression) (bytes : List UInt8) :
    Except StoreError (Compression × List UInt8) :=
  match compression with
  | .none => .ok (.none, bytes)
  | .lz4 => .ok (.lz4, codecs.lz4Compress bytes)
  | .zstd =>
    match codecs.zstdCompress bytes with
    | .ok compressed => .ok (.zstd, compressed)
    | .error _ => .error (.io "compress zstd segment block")
  | .adaptiveLz4 =>
    let compressed := codecs.lz4Compress bytes
    if materiallySmaller bytes.length compressed.length then .ok (.lz4, compressed)
    else .ok (.none, bytes)
  | .framed => .error (.formatLimit "framed is a stored block layout, not a writer policy")

end Whole

section Splitting

def frameTargetBytes : ℕ := 64 * 1024

def framedMinimumBytes : ℕ := 4 * frameTargetBytes

def frameEntryBytes : ℕ := 4 + 4 + 1 + 4 + 8

variable {input value rest : List UInt8}

theorem run_take_eq_ok {n : ℕ} (h : (Decoder.take n).run input = .ok (value, rest)) :
    value.length = n ∧ input = value ++ rest := by
  change (if input.length < n then _ else _ : Except String (List UInt8 × List UInt8)) = _ at h
  split at h
  · cases h
  · cases h
    exact ⟨length_take_of_le (by omega), (take_append_drop n input).symm⟩

theorem run_bytes_eq_ok (h : Decoder.bytes.run input = .ok (value, rest)) :
    ∃ field, field.length = 4 ∧ input = field ++ (value ++ rest) := by
  obtain ⟨⟨length, input'⟩, hl, ht⟩ := bind_eq_ok.mp h
  obtain ⟨⟨_, _⟩, hl, hsame⟩ := map_eq_ok.mp hl
  obtain ⟨⟨field, input''⟩, hf, hl⟩ := bind_eq_ok.mp hl
  cases hl
  obtain ⟨-, rfl⟩ := Prod.mk.inj hsame
  obtain ⟨hlen, rfl⟩ := run_take_eq_ok hf
  obtain ⟨-, htail⟩ := run_take_eq_ok ht
  exact ⟨field, hlen, congrArg (field ++ ·) htail⟩

theorem length_lt_of_run_bytes (h : Decoder.bytes.run input = .ok (value, rest)) :
    rest.length < input.length := by
  obtain ⟨field, hf, rfl⟩ := run_bytes_eq_ok h
  simp only [length_append]
  omega

/-- Cut a payload of length-prefixed values into frames: how many values each holds, and its bytes.
`values` and `held` belong to the frame that is open. -/
def splitFrames (rest : List UInt8) (values : ℕ) (held : List UInt8) :
    Except String (List (ℕ × List UInt8)) :=
  if rest = [] then .ok (if 0 < values then [(values, held)] else [])
  else
    match h : Decoder.bytes.run rest with
    | .error reason => .error reason
    | .ok (_, rest') =>
      let held := held ++ rest.take (rest.length - rest'.length)
      if frameTargetBytes ≤ held.length then
        ((values + 1, held) :: ·) <$> splitFrames rest' 0 []
      else splitFrames rest' (values + 1) held
termination_by rest.length
decreasing_by all_goals exact length_lt_of_run_bytes h

end Splitting

section Framing

variable (codecs : Codecs)

/-- A frame as it is stored: its values and bytes, and the form they are kept in. -/
structure StoredFrame where
  values : ℕ
  raw : List UInt8
  codec : Compression
  stored : List UInt8

def storeFrame (policy : Compression) (raw : List UInt8) :
    Except StoreError (Compression × List UInt8) :=
  match policy with
  | .zstd => compressBlockForStorage codecs .zstd raw
  | .lz4 => .ok (.lz4, codecs.lz4Compress raw)
  | _ => compressBlockForStorage codecs .adaptiveLz4 raw

def compressFrame (policy : Compression) (frame : ℕ × List UInt8) :
    Except StoreError StoredFrame := do
  let (codec, stored) ← storeFrame codecs policy frame.2
  pure ⟨frame.1, frame.2, codec, stored⟩

def encodeFrameEntry (frame : StoredFrame) : Except StoreError (List UInt8) := do
  let valueCount ← Encoder.length frame.values "frame value count"
  let length ← Encoder.length frame.raw.length "frame length"
  let storedLength ← Encoder.length frame.stored.length "frame stored length"
  pure (valueCount ++ (length ++ (frame.codec.tag ::
    (storedLength ++ u64Bytes (codecs.xxh3 frame.stored)))))

def framedHeadDigest (blockHead directory : List UInt8) : UInt64 :=
  codecs.xxh3 (blockHead ++ directory)

def compressFramedForStorage (policy : Compression) (blockHead bytes : List UInt8) :
    Except StoreError (Compression × List UInt8) :=
  if policy = .none ∨ policy = .framed then compressBlockForStorage codecs policy bytes
  else do
    let frames ← (splitFrames bytes 0 []).mapError fun reason =>
      StoreError.formatLimit s!"plain payload: {reason}"
    let count ← Encoder.length frames.length "frame count"
    let frames ← frames.mapM (compressFrame codecs policy)
    let entries ← frames.mapM (encodeFrameEntry codecs)
    let directory := count ++ entries.flatten
    let digest := framedHeadDigest codecs blockHead directory
    let storedBlock := directory ++ (u64Bytes digest ++ (frames.map StoredFrame.stored).flatten)
    if policy = .adaptiveLz4 ∧ ¬ materiallySmaller bytes.length storedBlock.length then
      pure (.none, bytes)
    else pure (.framed, storedBlock)

structure FrameEntry where
  firstValue : ℕ
  valueCount : ℕ
  uncompressedLength : ℕ
  codec : Compression
  storedOffset : ℕ
  storedLength : ℕ
  checksum : UInt64

def checkedSum (a b : ℕ) (reason : String) : Except String ℕ :=
  if a + b < 2 ^ 64 then .ok (a + b) else .error reason

def decodeFrameCodec : Decoder Compression := do
  match ← u8 with
  | 0 => pure .none
  | 1 => pure .lz4
  | 2 => pure .zstd
  | tag => throw s!"unknown frame compression {tag}"

/-- The remaining entries of a directory, after the values, stored bytes and bytes before them. -/
def parseFrameEntries : ℕ → ℕ → ℕ → ℕ → Decoder (List FrameEntry × ℕ)
  | 0, _, _, total => pure ([], total)
  | count + 1, firstValue, storedOffset, total => do
    let valueCount ← UInt32.toNat <$> u32
    let length ← UInt32.toNat <$> u32
    let codec ← decodeFrameCodec
    let storedLength ← UInt32.toNat <$> u32
    let checksum ← u64
    if valueCount = 0 then throw "empty frame"
    let nextValue ← checkedSum firstValue valueCount "frame value count overflow"
    let nextOffset ← checkedSum storedOffset storedLength "frame stored length overflow"
    let total ← checkedSum total length "frame length overflow"
    let (entries, total) ← parseFrameEntries count nextValue nextOffset total
    pure (⟨firstValue, valueCount, length, codec, storedOffset, storedLength, checksum⟩ :: entries,
      total)

def parseFrameDirectory (directory : List UInt8) (uncompressedLength : ℕ) :
    Except String (List FrameEntry) := do
  let (entries, total) ← decodeAll (do
    let count ← Decoder.count frameEntryBytes
    parseFrameEntries count 0 0 0) directory
  if total ≠ uncompressedLength then
    .error s!"frames hold {total} bytes, block declares {uncompressedLength}"
  else .ok entries

def storedEnd (entries : List FrameEntry) : ℕ :=
  match entries.getLast? with
  | some entry => entry.storedOffset + entry.storedLength
  | none => 0

def parseFrames (bytes : List UInt8) (uncompressedLength : ℕ) :
    Except String (List (FrameEntry × List UInt8)) := do
  let (count, _) ← (Decoder.count frameEntryBytes).run bytes
  let directoryLength := 4 + count * frameEntryBytes
  if bytes.length < directoryLength then throw "frame directory is truncated"
  let entries ← parseFrameDirectory (bytes.take directoryLength) uncompressedLength
  if bytes.length < directoryLength + 8 then throw "frame directory digest is truncated"
  let data := bytes.drop (directoryLength + 8)
  if storedEnd entries ≠ data.length then
    throw s!"frames store {storedEnd entries} bytes, block holds {data.length}"
  pure (entries.map fun entry => (entry, (data.drop entry.storedOffset).take entry.storedLength))

/-- What a frame's stored bytes hold, for a destination of the size its entry names. -/
def decompressFrameInto (frame : FrameEntry × List UInt8) : Except String (List UInt8) := do
  let length := frame.1.uncompressedLength
  let written ← match frame.1.codec with
    | .none =>
      if frame.2.length ≠ length then .error "raw frame length differs from its directory"
      else .ok frame.2
    | .lz4 =>
      (codecs.lz4DecompressInto frame.2 length).mapError fun error =>
        s!"invalid LZ4 frame: {error}"
    | _ =>
      (codecs.zstdDecompress frame.2 length).mapError fun error => s!"invalid zstd frame: {error}"
  if written.length ≠ length then
    .error "frame decompressed to a length other than its directory's"
  else .ok written

def decompressBlock (compression : Compression) (bytes : List UInt8) (uncompressedLength : ℕ) :
    Except String (List UInt8) :=
  match compression with
  | .none =>
    if bytes.length ≠ uncompressedLength then
      .error s!"raw block length is {bytes.length}, expected {uncompressedLength}"
    else .ok bytes
  | .lz4 => do
    let written ← (codecs.lz4DecompressInto bytes uncompressedLength).mapError
      (fun error => s!"invalid LZ4 block: {error}")
    if written.length ≠ uncompressedLength then
      .error s!"invalid LZ4 block: {written.length} bytes, expected {uncompressedLength}"
    else .ok written
  | .zstd =>
    (codecs.zstdDecompress bytes uncompressedLength).mapError fun error =>
      s!"invalid zstd block: {error}"
  | .adaptiveLz4 => .error "adaptive LZ4 is a writer policy, not a stored compression"
  | .framed => do
    let frames ← parseFrames bytes uncompressedLength
    List.flatten <$> frames.mapM (decompressFrameInto codecs)

end Framing

section Correctness

variable {codecs : Codecs} {codec policy : Compression} {frame : StoredFrame} {out : List UInt8}

theorem splitFrames_spec {rest held : List UInt8} {values : ℕ} {frames : List (ℕ × List UInt8)}
    (h : splitFrames rest values held = .ok frames) (hheld : values = 0 → held = []) :
    (frames.map Prod.snd).flatten = held ++ rest ∧ ∀ frame ∈ frames, 0 < frame.1 := by
  have htaken {value rest rest'} (hrun : Decoder.bytes.run rest = .ok (value, rest')) :
      rest.take (rest.length - rest'.length) ++ rest' = rest := by
    obtain ⟨field, -, hsplit⟩ := run_bytes_eq_ok hrun
    rw [hsplit, ← append_assoc, length_append, Nat.add_sub_cancel, take_left]
  fun_induction splitFrames rest values held generalizing frames with
  | case1 values held =>
    cases h
    split
    · rename_i hpos
      simpa using hpos
    · simp [hheld (by omega)]
  | case2 => cases h
  | case3 rest values held _ _ rest' hrun =>
    rename_i ih
    obtain ⟨more, hmore, rfl⟩ := map_eq_ok.mp h
    obtain ⟨hflat, hpos⟩ := ih hmore fun _ => rfl
    refine ⟨?_, forall_mem_cons.mpr ⟨Nat.succ_pos values, hpos⟩⟩
    rw [map_cons, flatten_cons, hflat, nil_append, append_assoc, htaken hrun]
  | case4 rest values held _ _ rest' hrun =>
    rename_i ih
    obtain ⟨hflat, hpos⟩ := ih h fun h => absurd h (Nat.succ_ne_zero values)
    exact ⟨by rw [hflat, append_assoc, htaken hrun], hpos⟩

def Compression.Simple (compression : Compression) : Prop :=
  compression = .none ∨ compression = .lz4 ∨ compression = .zstd

/-- What a stored form of some bytes must satisfy to be read back. -/
structure Holds (codecs : Codecs) (codec : Compression) (stored raw : List UInt8) : Prop where
  simple : codec.Simple
  whole : decompressBlock codecs codec stored raw.length = .ok raw
  frame : ∀ entry : FrameEntry, entry.codec = codec → entry.uncompressedLength = raw.length →
    decompressFrameInto codecs (entry, stored) = .ok raw
  same : codec = .none → stored = raw

theorem Holds.spec {stored raw : List UInt8} (h : Holds codecs codec stored raw) : codec.Stored ∧
      decompressBlock codecs codec stored raw.length = .ok raw ∧ (codec = .none → stored = raw) := by
  refine ⟨?_, h.whole, h.same⟩
  rcases h.simple with rfl | rfl | rfl <;> intro h <;> cases h

theorem holds_none (raw : List UInt8) : Holds codecs .none raw raw where
  simple := .inl rfl
  whole := by simp [decompressBlock]
  frame := by
    intro entry hc hl
    simp [decompressFrameInto, hc, hl]
  same _ := rfl

theorem holds_lz4 (raw : List UInt8) : Holds codecs .lz4 (codecs.lz4Compress raw) raw where
  simple := .inr (.inl rfl)
  whole := by
    rw [decompressBlock, mapError_eq_ok.mpr (codecs.lz4_inverse raw)]
    simp
  frame := by
    intro entry hc hl
    simp only [decompressFrameInto, hc, hl]
    rw [mapError_eq_ok.mpr (codecs.lz4_inverse raw)]
    simp
  same := nofun

theorem holds_zstd {raw compressed : List UInt8} (h : codecs.zstdCompress raw = .ok compressed) :
    Holds codecs .zstd compressed raw where
  simple := .inr (.inr rfl)
  whole := by
    rw [decompressBlock, mapError_eq_ok.mpr (codecs.zstd_inverse _ _ h)]
  frame := by
    intro entry hc hl
    simp only [decompressFrameInto, hc, hl]
    rw [mapError_eq_ok.mpr (codecs.zstd_inverse _ _ h)]
    simp
  same := nofun

theorem holds_of_compressBlock {raw stored : List UInt8} :
    compressBlockForStorage codecs policy raw = .ok (codec, stored) →
      Holds codecs codec stored raw := by
  unfold compressBlockForStorage
  split
  · rintro ⟨⟩; exact holds_none raw
  · rintro ⟨⟩; exact holds_lz4 raw
  · split
    · rename_i hc
      rintro ⟨⟩; exact holds_zstd hc
    · nofun
  · dsimp only
    split
    · rintro ⟨⟩; exact holds_lz4 raw
    · rintro ⟨⟩; exact holds_none raw
  · nofun

theorem compressFrame_spec {frame : ℕ × List UInt8} {stored : StoredFrame}
    (h : compressFrame codecs policy frame = .ok stored) :
    stored.values = frame.1 ∧ stored.raw = frame.2 ∧
      Holds codecs stored.codec stored.stored stored.raw := by
  obtain ⟨⟨codec, bytes⟩, hc, h⟩ := bind_eq_ok.mp h
  cases h
  refine ⟨rfl, rfl, ?_⟩
  unfold storeFrame at hc
  split at hc
  · exact holds_of_compressBlock hc
  · cases hc
    exact holds_lz4 frame.2
  · exact holds_of_compressBlock hc

def entriesOf (xxh3 : List UInt8 → UInt64) : List StoredFrame → ℕ → ℕ → List FrameEntry
  | [], _, _ => []
  | frame :: frames, firstValue, storedOffset =>
    ⟨firstValue, frame.values, frame.raw.length, frame.codec, storedOffset, frame.stored.length,
      xxh3 frame.stored⟩ ::
      entriesOf xxh3 frames (firstValue + frame.values) (storedOffset + frame.stored.length)

theorem reads_frameCodec (h : codec.Simple) : Reads decodeFrameCodec [codec.tag] codec := by
  rcases h with rfl | rfl | rfl
  · exact (reads_u8 0).bind (Reads.pure _)
  · exact (reads_u8 1).bind (Reads.pure _)
  · exact (reads_u8 2).bind (Reads.pure _)

theorem checkedSum_eq_ok {a b : ℕ} {reason : String} (h : a + b < 2 ^ 64) :
    checkedSum a b reason = .ok (a + b) := by
  rw [checkedSum, if_pos h]

theorem encodeFrameEntry_eq_ok (h : encodeFrameEntry codecs frame = .ok out) :
    ∃ valueCount length storedLength,
      Encoder.length frame.values "frame value count" = .ok valueCount ∧
      Encoder.length frame.raw.length "frame length" = .ok length ∧
      Encoder.length frame.stored.length "frame stored length" = .ok storedLength ∧
      out = valueCount ++ (length ++ ([frame.codec.tag] ++
        (storedLength ++ u64Bytes (codecs.xxh3 frame.stored)))) := by
  obtain ⟨valueCount, hv, h⟩ := bind_eq_ok.mp h
  obtain ⟨length, hl, h⟩ := bind_eq_ok.mp h
  obtain ⟨storedLength, hs, h⟩ := bind_eq_ok.mp h
  exact ⟨valueCount, length, storedLength, hv, hl, hs, (pure_eq_ok.mp h).symm⟩

variable {frames : List StoredFrame}

/-- Entries read back with running sums that never overflow: there are fewer than `2 ^ 32` frames,
and each adds less than `2 ^ 32`. -/
theorem reads_frameEntries {chunks : List (List UInt8)} (hc : ∀ frame ∈ frames, frame.codec.Simple)
    (hv : ∀ frame ∈ frames, 0 < frame.values)
    (h : frames.mapM (encodeFrameEntry codecs) = .ok chunks) (firstValue storedOffset total : ℕ)
    (hfirst : firstValue + frames.length * 2 ^ 32 < 2 ^ 64)
    (hoffset : storedOffset + frames.length * 2 ^ 32 < 2 ^ 64)
    (htotal : total + frames.length * 2 ^ 32 < 2 ^ 64) :
    Reads (parseFrameEntries frames.length firstValue storedOffset total) chunks.flatten
      (entriesOf codecs.xxh3 frames firstValue storedOffset,
        total + (frames.map StoredFrame.raw).flatten.length) := by
  have hf := mapM_eq_ok.mp h
  clear h
  induction hf generalizing firstValue storedOffset total with
  | nil => exact Reads.pure _
  | @cons frame chunk frames chunks hframe _ ih =>
    obtain ⟨valueCount, length, storedLength, hvalues, hlength, hstored, rfl⟩ :=
      encodeFrameEntry_eq_ok hframe
    have hpos := hv frame mem_cons_self
    have hv32 := (length_eq_ok hvalues).1
    have hl32 := (length_eq_ok hlength).1
    have hs32 := (length_eq_ok hstored).1
    rw [length_cons] at hfirst hoffset htotal
    have hrest := ih (fun f hf => hc f (mem_cons_of_mem _ hf))
      (fun f hf => hv f (mem_cons_of_mem _ hf)) (firstValue + frame.values)
      (storedOffset + frame.stored.length) (total + frame.raw.length) (by omega) (by omega)
      (by omega)
    rw [flatten_cons, map_cons, flatten_cons, length_append, ← add_assoc]
    simp only [append_assoc]
    refine (Decoder.reads_length hvalues).bind ((Decoder.reads_length hlength).bind
      ((reads_frameCodec (hc frame mem_cons_self)).bind
        ((reads_length hstored).bind ((reads_u64 _).bind ?_))))
    simp only [hpos.ne']
    have hsum (a b : ℕ) (reason : String) (h : a + b < 2 ^ 64) :
        Reads (liftM (checkedSum a b reason) : Decoder ℕ) [] (a + b) :=
      Reads.lift (checkedSum_eq_ok h)
    apply (hsum firstValue frame.values _ (by omega)).bind
    apply (hsum storedOffset frame.stored.length _ (by omega)).bind
    apply (hsum total frame.raw.length _ (by omega)).bind
    exact hrest.map

theorem storedEnd_entriesOf (xxh3 : List UInt8 → UInt64) (firstValue storedOffset : ℕ)
    (h : frames = [] → storedOffset = 0) :
    storedEnd (entriesOf xxh3 frames firstValue storedOffset) =
      storedOffset + (frames.map StoredFrame.stored).flatten.length := by
  induction frames generalizing firstValue storedOffset with
  | nil => simp [entriesOf, storedEnd, h]
  | cons frame frames ih =>
    cases frames with
    | nil => simp [entriesOf, storedEnd]
    | cons next frames =>
      have hnext := ih (firstValue + frame.values) (storedOffset + frame.stored.length) nofun
      rw [map_cons, flatten_cons, length_append, ← add_assoc, ← hnext]
      simp [entriesOf, storedEnd]

theorem decompress_entries (hh : ∀ frame ∈ frames, Holds codecs frame.codec frame.stored frame.raw)
    {before data : List UInt8} (hdata : data = before ++ (frames.map StoredFrame.stored).flatten)
    (firstValue : ℕ) :
    ((entriesOf codecs.xxh3 frames firstValue before.length).map fun entry =>
        (entry, (data.drop entry.storedOffset).take entry.storedLength)).mapM
      (decompressFrameInto codecs) = .ok (frames.map StoredFrame.raw) := by
  induction frames generalizing before firstValue with
  | nil => rfl
  | cons frame frames ih =>
    have hslice : (data.drop before.length).take frame.stored.length = frame.stored := by
      rw [hdata, drop_left, map_cons, flatten_cons, take_left]
    have hdata' : data = (before ++ frame.stored) ++ (frames.map StoredFrame.stored).flatten := by
      rw [hdata, map_cons, flatten_cons, append_assoc]
    have hrest := ih (fun f hf => hh f (mem_cons_of_mem _ hf)) hdata'
      (firstValue + frame.values)
    rw [length_append] at hrest
    rw [entriesOf, map_cons, mapM_cons, hslice, (hh frame mem_cons_self).frame _ rfl rfl, hrest]
    rfl

theorem length_frameEntry
    (h : encodeFrameEntry codecs frame = .ok out) : out.length = frameEntryBytes := by
  obtain ⟨valueCount, length, storedLength, hv, hl, hs, rfl⟩ := encodeFrameEntry_eq_ok h
  simp [(length_eq_ok hv).2, (length_eq_ok hl).2, (length_eq_ok hs).2, frameEntryBytes]

/-- Frames laid out as a directory, its digest and their stored bytes. -/
structure FramesLaid (codecs : Codecs) (bytes : List UInt8) where
  frames : List StoredFrame
  holds : ∀ frame ∈ frames, Holds codecs frame.codec frame.stored frame.raw
  values_pos : ∀ frame ∈ frames, 0 < frame.values
  raw_eq : (frames.map StoredFrame.raw).flatten = bytes
  count : List UInt8
  count_eq : Encoder.length frames.length "frame count" = .ok count
  entries : List (List UInt8)
  entries_eq : frames.mapM (encodeFrameEntry codecs) = .ok entries
  digest : UInt64

namespace FramesLaid

variable {bytes : List UInt8} (laid : FramesLaid codecs bytes)

def stored : List UInt8 := laid.count ++ laid.entries.flatten ++
  (u64Bytes laid.digest ++ (laid.frames.map StoredFrame.stored).flatten)

theorem length_entries : laid.entries.flatten.length = laid.frames.length * frameEntryBytes := by
  have hf := forall₂_of_mapM_eq_ok laid.entries_eq fun _ _ _ ho => length_frameEntry ho
  generalize laid.frames = frames, laid.entries = entries at hf
  induction hf with
  | nil => simp
  | cons hlen _ ih =>
    rw [flatten_cons, length_append, hlen, ih, length_cons, Nat.succ_mul, add_comm]

theorem length_directory :
    (laid.count ++ laid.entries.flatten).length = 4 + laid.frames.length * frameEntryBytes := by
  rw [length_append, laid.length_entries, (length_eq_ok laid.count_eq).2, length_u32Bytes]

theorem parseFrameDirectory_eq :
    parseFrameDirectory (laid.count ++ laid.entries.flatten) bytes.length =
      .ok (entriesOf codecs.xxh3 laid.frames 0 0) := by
  have hlt := (length_eq_ok laid.count_eq).1
  have hentries := reads_frameEntries (fun frame hf => (laid.holds frame hf).simple)
    laid.values_pos laid.entries_eq 0 0 0 (by omega) (by omega) (by omega)
  rw [laid.raw_eq, zero_add] at hentries
  have hcount := run_count (by decide : 0 < frameEntryBytes) laid.count_eq
    laid.length_entries.ge
  have hrun : decodeAll (do
      let count ← Decoder.count frameEntryBytes
      parseFrameEntries count 0 0 0) (laid.count ++ laid.entries.flatten) =
      .ok (entriesOf codecs.xxh3 laid.frames 0 0, bytes.length) := by
    rw [decodeAll, StateT.run_bind, hcount]
    change (do
      let read ← (parseFrameEntries laid.frames.length 0 0 0).run laid.entries.flatten
      let _ ← finish.run read.2
      pure read.1 : Except String (List FrameEntry × ℕ)) = _
    rw [hentries.run]
    rfl
  rw [parseFrameDirectory, hrun]
  simp

theorem decompress_eq : decompressBlock codecs .framed laid.stored bytes.length = .ok bytes := by
  set data := (laid.frames.map StoredFrame.stored).flatten with hdata
  have hdirectory := laid.length_directory
  have hlen : laid.stored.length = 4 + laid.frames.length * frameEntryBytes + 8 + data.length := by
    rw [stored, length_append, hdirectory, length_append, length_u64Bytes, ← add_assoc]
  have hcount : (Decoder.count frameEntryBytes).run laid.stored =
      .ok (laid.frames.length, laid.entries.flatten ++ (u64Bytes laid.digest ++ data)) := by
    rw [stored, append_assoc]
    apply run_count (by decide) laid.count_eq
    rw [length_append, laid.length_entries]
    exact Nat.le_add_right _ _
  have htake : laid.stored.take (4 + laid.frames.length * frameEntryBytes) =
      laid.count ++ laid.entries.flatten := by
    rw [stored, take_left' hdirectory]
  have hdrop : laid.stored.drop (4 + laid.frames.length * frameEntryBytes + 8) = data := by
    rw [stored, ← append_assoc]
    exact drop_left' (by rw [length_append, hdirectory, length_u64Bytes])
  have hparse : parseFrames laid.stored bytes.length =
      .ok ((entriesOf codecs.xxh3 laid.frames 0 0).map fun entry =>
        (entry, (data.drop entry.storedOffset).take entry.storedLength)) := by
    have h1 : ¬ laid.stored.length < 4 + laid.frames.length * frameEntryBytes := by omega
    have h2 : ¬ laid.stored.length < 4 + laid.frames.length * frameEntryBytes + 8 := by omega
    simp only [parseFrames, hcount, ok_bind, h1, h2, htake,
      laid.parseFrameDirectory_eq, hdrop, storedEnd_entriesOf codecs.xxh3 0 0 fun _ => rfl, zero_add,
      ← hdata, ne_eq]
    rfl
  have hframes := decompress_entries laid.holds (nil_append data).symm 0
  rw [length_nil] at hframes
  rw [decompressBlock, hparse, ok_bind, hframes]
  exact congrArg Except.ok laid.raw_eq

end FramesLaid

theorem compressFramed_spec {blockHead bytes stored : List UInt8}
    (h : compressFramedForStorage codecs policy blockHead bytes = .ok (codec, stored)) :
    codec.Stored ∧ decompressBlock codecs codec stored bytes.length = .ok bytes ∧
      (codec = .none → stored = bytes) := by
  unfold compressFramedForStorage at h
  split at h
  · exact (holds_of_compressBlock h).spec
  · obtain ⟨split, hsplit, h⟩ := bind_eq_ok.mp h
    obtain ⟨count, hcount, h⟩ := bind_eq_ok.mp h
    obtain ⟨frames, hframes, h⟩ := bind_eq_ok.mp h
    obtain ⟨entries, hentries, h⟩ := bind_eq_ok.mp h
    obtain ⟨hflat, hpos⟩ := splitFrames_spec (mapError_eq_ok.mp hsplit) (fun _ => rfl)
    have hspec := forall₂_of_mapM_eq_ok hframes fun _ _ _ ho => compressFrame_spec ho
    have hraw : frames.map StoredFrame.raw = split.map Prod.snd := by
      have hf : List.Forall₂ (fun (stored : StoredFrame) frame => stored.raw = frame.2) frames
          split := hspec.imp fun _ _ hs => hs.2.1
      exact forall₂_eq_eq_eq ▸
        forall₂_map_left_iff.mpr (forall₂_map_right_iff.mpr hf)
    have hmem (stored : StoredFrame) (hs : stored ∈ frames) :
        0 < stored.values ∧ Holds codecs stored.codec stored.stored stored.raw := by
      obtain ⟨frame, hf, hv, -, hh⟩ := hspec.exists_of_mem_left hs
      exact ⟨hv ▸ hpos frame hf, hh⟩
    have hlen : frames.length = split.length := hspec.length_eq
    let laid : FramesLaid codecs bytes :=
      ⟨frames, fun f hf => (hmem f hf).2, fun f hf => (hmem f hf).1, by rw [hraw, hflat]; rfl,
        count, hlen ▸ hcount, entries, hentries,
        framedHeadDigest codecs blockHead (count ++ entries.flatten)⟩
    dsimp only at h
    split at h
    · cases h
      exact (holds_none bytes).spec
    · cases h
      exact ⟨nofun, laid.decompress_eq, nofun⟩

end Correctness

end Pintail.Blocks
