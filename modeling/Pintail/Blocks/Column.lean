import Pintail.Blocks.Block

/-! # A written column is read back

Whatever encodings, dictionaries and compressions the writer chooses block by block, the reader of
the column finds its identifier, its type and every cell, absent ones included.
-/

namespace Pintail.Blocks

open Bytes List Except Decoder

variable {codecs : Codecs} {logicalType : LogicalType} {cells : List Cell}

section Nulls

theorem nullBitmap_eq (cells : List Cell) :
    nullBitmap cells = ((cells.zipIdx.filter fun entry => entry.1 = .null).map Prod.snd).foldl mark
      (replicate (bytesFor cells.length) 0) := by
  simp [nullBitmap, foldl_map, foldl_filter]

theorem length_nullBitmap (cells : List Cell) :
    (nullBitmap cells).length = bytesFor cells.length := by
  rw [nullBitmap_eq, length_foldl_mark, length_replicate]

theorem bitAt_nullBitmap (cells : List Cell) (row : ℕ) :
    bitAt (nullBitmap cells) row = decide (cells[row]? = some .null) := by
  have hmem (p : ℕ) :
      p ∈ (cells.zipIdx.filter fun entry => entry.1 = .null).map Prod.snd ↔
        cells[p]? = some .null := by
    simp only [mem_map, mem_filter, decide_eq_true_eq, Prod.exists, mem_zipIdx_iff_getElem?]
    constructor
    · rintro ⟨cell, q, ⟨hq, rfl⟩, rfl⟩
      exact hq
    · intro hp
      exact ⟨.null, p, ⟨hp, rfl⟩, rfl⟩
  have hbound (p : ℕ) (hp : p ∈ (cells.zipIdx.filter fun entry => entry.1 = .null).map Prod.snd) :
      p < 8 * (replicate (bytesFor cells.length) (0 : UInt8)).length := by
    have hlt := (List.getElem?_eq_some_iff.mp ((hmem p).mp hp)).1
    rw [length_replicate, bytesFor]
    omega
  rw [bitAt_eq_testBit, nullBitmap_eq, testBit_leNat_foldl_mark hbound, leNat_zeros,
    Nat.zero_testBit, Bool.false_or, decide_eq_decide]
  exact hmem row

variable {bitmap : List UInt8}

theorem bitAt_getElem {q j : ℕ} (hq : q < bitmap.length) (hj : j < 8) :
    bitAt bitmap (8 * q + j) = (bitmap[q]).toNat.testBit j := by
  have hdiv : (8 * q + j) / 8 = q := by omega
  have hmod : (8 * q + j) % 8 = j := by omega
  rw [bitAt_eq_testBit, testBit_leNat, hdiv, hmod, getD_eq_getElem?_getD,
    getElem?_eq_getElem hq, Option.getD_some]

theorem sum_popcount {q : ℕ} (hq : q ≤ bitmap.length) :
    ((bitmap.take q).map popcount).sum = (range (8 * q)).countP (bitAt bitmap) := by
  induction q with
  | zero => simp
  | succ q ih =>
    have hbyte : popcount bitmap[q] = ((range 8).map (8 * q + ·)).countP (bitAt bitmap) := by
      rw [countP_map]
      apply countP_congr
      intro j hj
      rw [Function.comp_apply, bitAt_getElem hq (mem_range.mp hj)]
    rw [take_succ_eq_append_getElem hq, map_append, sum_append, ih (by omega),
      Nat.mul_succ, range_add, countP_append, ← hbyte]
    simp

theorem popcount_and_mask (byte : UInt8) {r : ℕ} (hr : r < 8) :
    popcount (byte &&& ((1 <<< UInt8.ofNat r) - 1)) =
      (range r).countP fun j => byte.toNat.testBit j := by
  have hmask : (((1 : UInt8) <<< UInt8.ofNat r) - 1).toNat = 2 ^ r - 1 := by
    interval_cases r <;> rfl
  obtain ⟨k, hk⟩ := Nat.exists_eq_add_of_le hr.le
  simp only [popcount, UInt8.toNat_and, hmask, Nat.testBit_and, Nat.testBit_two_pow_sub_one]
  have hhigh : ((range k).map (r + ·)).countP
      (fun j => byte.toNat.testBit j && decide (j < r)) = 0 := by
    simp
  rw [hk, range_add, countP_append, hhigh]
  exact countP_congr fun j hj => by simp [mem_range.mp hj]

theorem coveredNullCount_eq {n : ℕ} (h : bitmap.length = bytesFor n) :
    coveredNullCount bitmap n = (range n).countP (bitAt bitmap) := by
  have hwhole : min (n / 8) bitmap.length = n / 8 := by rw [h, bytesFor]; omega
  have hcovered : n - n / 8 * 8 = n % 8 := by omega
  have hq : n / 8 ≤ bitmap.length := by omega
  have hsplit : range n = range (8 * (n / 8)) ++
      (range (n % 8)).map (8 * (n / 8) + ·) := by
    rw [← range_add, Nat.div_add_mod]
  rw [hsplit, countP_append, ← sum_popcount hq]
  simp only [coveredNullCount, hwhole, hcovered]
  cases hc : n % 8 with
  | zero => simp
  | succ covered =>
    have hlt : n / 8 < bitmap.length := by rw [h, bytesFor]; omega
    rw [drop_eq_getElem_cons hlt]
    dsimp only
    rw [if_neg (by omega), popcount_and_mask _ (by omega), countP_map]
    congr 1
    apply countP_congr
    intro j hj
    have hj := mem_range.mp hj
    rw [Function.comp_apply, bitAt_getElem hlt (by omega)]

theorem coveredNullCount_nullBitmap (cells : List Cell) :
    coveredNullCount (nullBitmap cells) cells.length = nullCount cells := by
  have hcells : (range cells.length).map (cells[·]?) = cells.map some := by
    apply ext_getElem (by simp)
    intro i hi hi'
    simp
  rw [coveredNullCount_eq (length_nullBitmap cells)]
  calc (range cells.length).countP (bitAt (nullBitmap cells))
      = (range cells.length).countP ((fun cell => decide (cell = some .null)) ∘ (cells[·]?)) :=
        countP_congr fun row _ => by rw [bitAt_nullBitmap, Function.comp_apply]
    _ = (cells.map some).countP (fun cell => decide (cell = some .null)) := by
        rw [← hcells, countP_map]
    _ = nullCount cells := by
        rw [countP_map]
        exact countP_congr fun cell _ => by simp

theorem spliceNulls_eq {rows : List ℕ} {cells : List Cell}
    (h : List.Forall₂ (fun row cell => bitAt bitmap row = decide (cell = Cell.null)) rows cells) :
    spliceNulls bitmap rows (presentCells cells) = .ok cells := by
  induction h with
  | nil => rfl
  | @cons row cell rows cells hrow _ ih =>
    by_cases hnull : cell = .null
    · subst hnull
      have hskip : presentCells (.null :: cells) = presentCells cells := by simp [presentCells]
      unfold spliceNulls
      rw [hskip, if_pos (by rw [hrow]; rfl), ih]
      rfl
    · have htake : presentCells (cell :: cells) = cell :: presentCells cells := by
        simp [presentCells, hnull]
      unfold spliceNulls
      rw [htake, if_neg (by simp [hrow, hnull])]
      simp only [ih]
      rfl

theorem spliceNulls_nullBitmap (cells : List Cell) :
    spliceNulls (nullBitmap cells) (range cells.length) (presentCells cells) = .ok cells := by
  refine spliceNulls_eq (forall₂_iff_get.mpr ⟨by simp, fun i hi hi' => ?_⟩)
  rw [bitAt_nullBitmap]
  simp [getElem?_eq_getElem hi']

theorem presentCells_eq_self (h : nullCount cells = 0) : presentCells cells = cells := by
  rw [presentCells, filter_eq_self]
  intro cell hcell
  have := countP_eq_zero.mp h cell hcell
  simpa using this

theorem length_presentCells (cells : List Cell) :
    (presentCells cells).length = cells.length - nullCount cells := by
  have h := length_eq_countP_add_countP (fun cell => decide (cell = Cell.null)) (l := cells)
  simp only [presentCells, nullCount, ← countP_eq_length_filter, decide_eq_true_eq, ne_eq] at h ⊢
  omega

theorem logicalType_of_mem_present (ht : ∀ cell ∈ cells, cell.Fits logicalType) :
    logicalType.Types (presentCells cells) := by
  intro cell hcell
  obtain ⟨hmem, hne⟩ := mem_filter.mp hcell
  exact (ht cell hmem).resolve_left (by simpa using hne)

end Nulls

section Values

theorem prefixed_of_selectEncoding (h : selectEncoding logicalType cells = .dictionary) :
    logicalType.Prefixed := by
  unfold selectEncoding at h
  split_ifs at h with h1 h2
  exact h2.1

theorem selectEncoding_ne_narrow : selectEncoding logicalType cells ≠ .narrowDictionary := by
  unfold selectEncoding
  split_ifs <;> intro h <;> cases h

def Typed (logicalType : LogicalType) (dictionary : Option ColumnDictionary) : Prop :=
  ∀ d ∈ dictionary, logicalType.Prefixed ∧ logicalType.Types d.entries

theorem decodes_narrowed (avx2 : Bool) (hp : logicalType.Prefixed) {payload : List UInt8}
    (laid : Laid logicalType cells payload) :
    Decodes avx2 logicalType (narrowed .dictionary payload cells.length).1
      (narrowed .dictionary payload cells.length).2 cells := by
  have hversion : narrowDictionaryVersion ≤ writtenFormatVersion := by decide
  simp only [narrowed, hversion, and_self, if_true]
  split
  · rename_i narrow hn
    exact decodes_narrow avx2 hp laid hn
  · exact laid.decodes avx2

variable {dictionary dictionary' : Option ColumnDictionary} {encoding : Encoding}

theorem codeBlock_spec {coded : Option (List UInt8)}
    (ht : logicalType.Types cells) (hd : Typed logicalType dictionary)
    (h : codeBlock dictionary encoding cells = .ok (coded, dictionary')) :
    Typed logicalType dictionary' ∧ ∀ payload ∈ coded,
      logicalType.Prefixed ∧ Nonempty (Laid logicalType cells payload) := by
  unfold codeBlock at h
  split at h
  · rename_i d
    obtain ⟨hp, hentries⟩ := hd d rfl
    split at h
    · obtain ⟨⟨coded', d'⟩, he, h⟩ := bind_eq_ok.mp h
      cases h
      obtain ⟨htyped, hlaid⟩ := encode_spec ht hentries he
      refine ⟨?_, fun payload hpayload => ⟨hp, hlaid payload hpayload⟩⟩
      rintro _ ⟨⟩
      exact ⟨hp, htyped⟩
    · cases h
      exact ⟨hd, nofun⟩
  · cases h
    exact ⟨hd, nofun⟩

theorem encodeBlock_spec (avx2 : Bool)
    {encoded : Encoding × List UInt8} (hbound : cells.length < 2 ^ 64)
    (ht : logicalType.Types cells) (hd : Typed logicalType dictionary)
    (h : encodeBlock logicalType dictionary cells = .ok (encoded, dictionary')) :
    Decodes avx2 logicalType encoded.1 encoded.2 cells ∧ Typed logicalType dictionary' := by
  obtain ⟨⟨coded, d⟩, hc, h⟩ := bind_eq_ok.mp h
  obtain ⟨hd', hcoded⟩ := codeBlock_spec ht hd hc
  cases coded with
  | some payload =>
    cases h
    obtain ⟨hp, ⟨laid⟩⟩ := hcoded payload rfl
    exact ⟨decodes_narrowed avx2 hp laid, hd'⟩
  | none =>
    obtain ⟨payload, hpayload, h⟩ := bind_eq_ok.mp h
    cases h
    refine ⟨?_, hd'⟩
    by_cases hdict : selectEncoding logicalType cells = .dictionary
    · rw [hdict] at hpayload ⊢
      obtain ⟨laid⟩ := laid_of_encodeDictionary ht hpayload
      exact decodes_narrowed avx2 (prefixed_of_selectEncoding hdict) laid
    · have hsame : narrowed (selectEncoding logicalType cells) payload cells.length =
          (selectEncoding logicalType cells, payload) := by
        rw [narrowed, if_neg fun h => hdict h.1]
      rw [hsame]
      exact decodes_payload avx2 hbound selectEncoding_ne_narrow ht hpayload

theorem storePayload_spec {compression stored : Compression}
    {blockHead payload compressed : List UInt8}
    (h : storePayload codecs logicalType encoding compression blockHead payload =
      .ok (stored, compressed)) :
    stored.Stored ∧ decompressBlock codecs stored compressed payload.length = .ok payload ∧
      (stored = .none → compressed = payload) := by
  unfold storePayload at h
  split at h
  · obtain ⟨length, -, h⟩ := bind_eq_ok.mp h
    exact compressFramed_spec h
  · exact (holds_of_compressBlock h).spec

end Values

section Blocks

variable {base length : ℕ} {α : Type} {a : α} {payload : List UInt8}

theorem reads_here {decoder : Decoder α} {bytes : List UInt8}
    (h : Reads decoder bytes a) : Reads (here base length decoder) bytes a := by
  intro rest
  change here base length decoder (bytes ++ rest) = _
  rw [here, h rest]

theorem reads_tag {f : UInt8 → Except String α} {tag : UInt8}
    (h : f tag = .ok a) : Reads (do let tag ← u8; f tag : Decoder α) [tag] a :=
  (reads_u8 tag).andThen (Reads.lift h)

theorem run_get_bind {f : List UInt8 → Reader α} (input : List UInt8) :
    (get >>= f).run input = (f input).run input := rfl

theorem presentNullBitmap_stored (cells : List Cell) :
    (presentNullBitmap (storedNullBitmap cells) cells.length writtenFormatVersion).length =
        bytesFor cells.length ∧
      (if storedNullBitmap cells = [] then 0
        else coveredNullCount
          (presentNullBitmap (storedNullBitmap cells) cells.length writtenFormatVersion)
          cells.length) = nullCount cells ∧
      (nullCount cells ≠ 0 →
        presentNullBitmap (storedNullBitmap cells) cells.length writtenFormatVersion =
          nullBitmap cells) := by
  have hversion : narrowDictionaryVersion ≤ writtenFormatVersion := by decide
  by_cases homit : nullCount cells = 0 ∧ cells.length ≤ noNullsLength * 8 ∧
      narrowDictionaryVersion ≤ writtenFormatVersion
  · have hstored : storedNullBitmap cells = [] := by rw [storedNullBitmap, if_pos homit]
    have hfits : bytesFor cells.length ≤ noNullsLength := by
      unfold bytesFor noNullsLength at *
      omega
    have hpresent : presentNullBitmap [] cells.length writtenFormatVersion =
        replicate (bytesFor cells.length) 0 := by
      rw [presentNullBitmap, if_pos ⟨rfl, hversion, hfits⟩]
    rw [hstored, hpresent]
    exact ⟨length_replicate, homit.1.symm, fun h => absurd homit.1 h⟩
  · have hstored : storedNullBitmap cells = nullBitmap cells := by
      rw [storedNullBitmap, if_neg homit]
    have hne : nullBitmap cells ≠ [] := by
      intro hnil
      have hlen := length_nullBitmap cells
      have hzero : cells.length = 0 := by
        rw [hnil, length_nil, bytesFor] at hlen
        omega
      obtain rfl := length_eq_zero_iff.mp hzero
      exact homit ⟨rfl, Nat.zero_le _, hversion⟩
    have hpresent : presentNullBitmap (nullBitmap cells) cells.length writtenFormatVersion =
        nullBitmap cells := by
      rw [presentNullBitmap, if_neg fun h => hne h.1]
    rw [hstored, hpresent, if_neg hne]
    exact ⟨length_nullBitmap cells, coveredNullCount_nullBitmap cells, fun _ => rfl⟩

structure BlockFields (codecs : Codecs) (cells : List Cell) (encoding : Encoding)
    (stored : Compression) (payload compressed block : List UInt8) where
  rowCount : List UInt8
  rowCount_eq : Encoder.length cells.length "block row count" = .ok rowCount
  bitmap : List UInt8
  bitmap_eq : Encoder.bytes (storedNullBitmap cells) "null bitmap" = .ok bitmap
  payloadLength : List UInt8
  payloadLength_eq : Encoder.length payload.length "uncompressed block" = .ok payloadLength
  contents : List UInt8
  contents_eq : Encoder.bytes compressed "compressed block" = .ok contents
  minimum : List UInt8
  minimumField : List UInt8
  minimum_eq : Encoder.bytes minimum "block minimum" = .ok minimumField
  maximum : List UInt8
  maximumField : List UInt8
  maximum_eq : Encoder.bytes maximum "block maximum" = .ok maximumField
  sketch : DistinctSketch
  registers : List UInt8
  registers_eq : Encoder.bytes sketch.registers "block HLL sketch" = .ok registers
  block_eq : block = rowCount ++ (bitmap ++ ([encoding.tag] ++ ([stored.tag] ++ (payloadLength ++
    (contents ++ (u32Bytes (UInt32.ofNat (nullCount cells)) ++ (minimumField ++ (maximumField ++
      registers))))))))

theorem parsePayload_eq {encoding : Encoding} {stored : Compression} {compressed block : List UInt8}
    (fields : BlockFields codecs cells encoding stored payload compressed block)
    (hstored : stored.Stored) (hraw : stored = .none → compressed = payload)
    (blockOffset length : ℕ) :
    ∃ parsed, (parsePayload blockOffset length writtenFormatVersion).run block = .ok (parsed, []) ∧
      parsed.rowCount = cells.length ∧ parsed.nullCount = nullCount cells ∧
      (nullCount cells ≠ 0 → parsed.nullBitmap = nullBitmap cells) ∧
      parsed.encoding = encoding ∧ parsed.compression = stored ∧
      parsed.uncompressedLength = payload.length ∧ parsed.compressed = compressed := by
  obtain ⟨rowCount, hrows, bitmap, hbitmap, payloadLength, hpayload, contents, hcontents, minimum,
    minimumField, hmin, maximum, maximumField, hmax, sketch, registers, hregisters, rfl⟩ := fields
  obtain ⟨hlen, hnulls, hsame⟩ := presentNullBitmap_stored cells
  have hcount : nullCount cells < 2 ^ 32 :=
    (countP_le_length).trans_lt (length_eq_ok hrows).1
  have hrawLength : ¬ (stored = .none ∧ compressed.length ≠ payload.length) := by
    rintro ⟨hnone, hne⟩
    exact hne (congrArg List.length (hraw hnone))
  have hregs : ¬ sketch.registers.length ≠ sketchRegisters := not_not.mpr sketch.length_eq
  have hcompression : Reads (do
      let tag ← u8
      Compression.decode tag writtenFormatVersion : Decoder Compression) [stored.tag] stored :=
    reads_tag (f := fun tag => Compression.decode tag writtenFormatVersion)
      (Compression.decode_tag hstored (by decide))
  rw [parsePayload, (reads_here (reads_length hrows)).run_bind,
    (reads_here (reads_bytes hbitmap)).run_bind]
  simp only [hlen, ne_eq, not_true_eq_false, if_false]
  rw [(reads_here (reads_tag (Encoding.decode_tag encoding))).run_bind,
    (reads_here hcompression).run_bind, (reads_here (reads_length hpayload)).run_bind,
    run_get_bind,
    (reads_here (reads_bytes hcontents)).run_bind, if_neg hrawLength,
    (reads_here (reads_runLength hcount)).run_bind,
    (reads_here (reads_bytes hmin)).run_bind,
    (reads_here (reads_bytes hmax)).run_bind]
  rw [← append_nil registers, (reads_here (reads_bytes hregisters)).run_bind, if_neg hregs]
  simp only [hnulls]
  exact ⟨_, rfl, rfl, rfl, hsame, rfl, rfl, rfl, rfl⟩

variable {dictionary dictionary' : Option ColumnDictionary} {out : List UInt8}
  {compression : Compression} {sketch : DistinctSketch}

theorem writeBlock_eq_ok (h : writeBlock codecs logicalType cells compression dictionary =
      .ok (out, sketch, dictionary')) :
    ∃ encoding payload stored compressed block sealed head,
      encodeBlock logicalType dictionary (presentCells cells) =
        .ok ((encoding, payload), dictionary') ∧
      storePayload codecs logicalType encoding compression head payload =
        .ok (stored, compressed) ∧
      Nonempty (BlockFields codecs cells encoding stored payload compressed block) ∧
      Encoder.bytes block "column block" = .ok sealed ∧
      out = sealed ++ u64Bytes (codecs.xxh3 block) := by
  obtain ⟨rowCount, hrows, h⟩ := bind_eq_ok.mp h
  obtain ⟨encodedValues, -, h⟩ := bind_eq_ok.mp h
  obtain ⟨bitmap, hbitmap, h⟩ := bind_eq_ok.mp h
  obtain ⟨⟨⟨encoding, payload⟩, d⟩, hencode, h⟩ := bind_eq_ok.mp h
  obtain ⟨⟨stored, compressed⟩, hstore, h⟩ := bind_eq_ok.mp h
  obtain ⟨payloadLength, hpayload, h⟩ := bind_eq_ok.mp h
  obtain ⟨contents, hcontents, h⟩ := bind_eq_ok.mp h
  obtain ⟨minimum, -, h⟩ := bind_eq_ok.mp h
  obtain ⟨maximum, -, h⟩ := bind_eq_ok.mp h
  obtain ⟨minimumField, hmin, h⟩ := bind_eq_ok.mp h
  obtain ⟨maximumField, hmax, h⟩ := bind_eq_ok.mp h
  obtain ⟨registers, hregisters, h⟩ := bind_eq_ok.mp h
  obtain ⟨sealed, hsealed, h⟩ := bind_eq_ok.mp h
  obtain ⟨rfl, hrest⟩ := Prod.mk.inj (pure_eq_ok.mp h)
  obtain ⟨-, rfl⟩ := Prod.mk.inj hrest
  exact ⟨encoding, payload, stored, compressed, _, sealed, _, hencode, hstore,
    ⟨⟨rowCount, hrows, bitmap, hbitmap, payloadLength, hpayload, contents, hcontents, minimum,
      minimumField, hmin, maximum, maximumField, hmax, _, registers, hregisters, rfl⟩⟩, hsealed,
    rfl⟩

theorem decodeBlockPayload_eq {avx2 : Bool} {parsed : ParsedBlock}
    (hrows : parsed.rowCount = cells.length) (hnulls : parsed.nullCount = nullCount cells)
    (hbitmap : nullCount cells ≠ 0 → parsed.nullBitmap = nullBitmap cells)
    (h : Decodes avx2 logicalType parsed.encoding payload (presentCells cells)) :
    decodeBlockPayload avx2 parsed payload logicalType = .ok cells := by
  have hcount : parsed.rowCount - parsed.nullCount = (presentCells cells).length := by
    rw [hrows, hnulls, length_presentCells]
  obtain ⟨heap, hheap⟩ := decodedHeapUpperBound_ok h.heap
  have hvalues : decodePayload avx2 payload logicalType parsed.encoding
      (presentCells cells).length = .ok (presentCells cells) :=
    decodeAll_eq_ok h.values
  simp only [decodeBlockPayload, hcount, hheap, hvalues, ok_bind]
  split
  · rename_i hzero
    rw [hnulls] at hzero
    rw [presentCells_eq_self hzero, if_neg (not_not.mpr hrows.symm)]
  · rename_i hzero
    rw [hnulls] at hzero
    rw [hbitmap hzero, hrows, spliceNulls_nullBitmap]

theorem readBlock_eq (avx2 : Bool) (ht : ∀ cell ∈ cells, cell.Fits logicalType)
    (hd : Typed logicalType dictionary)
    (h : writeBlock codecs logicalType cells compression dictionary =
      .ok (out, sketch, dictionary')) :
    Typed logicalType dictionary' ∧ ∀ blockOffset,
      readBlock codecs avx2 blockOffset out logicalType writtenFormatVersion = .ok cells := by
  obtain ⟨encoding, payload, stored, compressed, block, sealed, head, hencode, hstore, ⟨fields⟩,
    hsealed, rfl⟩ := writeBlock_eq_ok h
  have hbound : (presentCells cells).length < 2 ^ 64 := by
    have := (length_eq_ok fields.rowCount_eq).1
    have := length_presentCells cells
    omega
  obtain ⟨hdecodes, hd'⟩ := encodeBlock_spec avx2 hbound (logicalType_of_mem_present ht) hd hencode
  obtain ⟨hstored, hdecompress, hraw⟩ := storePayload_spec hstore
  refine ⟨hd', fun blockOffset => ?_⟩
  obtain ⟨parsed, hparse, hrows, hnulls, hbitmap, rfl, rfl, hlength, rfl⟩ :=
    parsePayload_eq fields hstored hraw blockOffset block.length
  have hparsed : parseBlock codecs blockOffset (sealed ++ u64Bytes (codecs.xxh3 block))
      writtenFormatVersion = .ok parsed := by
    have hsum : Reads (here blockOffset (sealed ++ u64Bytes (codecs.xxh3 block)).length
        u64) (u64Bytes (codecs.xxh3 block)) (codecs.xxh3 block) :=
      reads_here (reads_u64 _)
    rw [parseBlock, reads_here (reads_bytes hsealed), ok_bind]
    dsimp only
    rw [hsum.run, ok_bind]
    rw [if_neg (not_not.mpr rfl), hparse]
    rfl
  have hpayload : decompressParsed codecs parsed = .ok payload := by
    unfold decompressParsed
    split
    · rename_i hnone
      rw [hraw hnone]
    · rw [hlength, hdecompress]
  rw [readBlock, hparsed, ok_bind]
  dsimp only
  rw [mapError_eq_ok.mpr hpayload, ok_bind,
    mapError_eq_ok.mpr (decodeBlockPayload_eq hrows hnulls hbitmap hdecodes)]

theorem reads_fileBlock (avx2 : Bool) (length : ℕ) (ht : ∀ cell ∈ cells, cell.Fits logicalType)
    (hd : Typed logicalType dictionary)
    (h : writeBlock codecs logicalType cells compression dictionary =
      .ok (out, sketch, dictionary')) :
    Typed logicalType dictionary' ∧
      Reads (readFileBlock codecs avx2 length logicalType writtenFormatVersion) out cells := by
  obtain ⟨hd', hread⟩ := readBlock_eq avx2 ht hd h
  refine ⟨hd', fun rest => ?_⟩
  obtain ⟨encoding, payload, stored, compressed, block, sealed, head, -, -, -, hsealed, rfl⟩ :=
    writeBlock_eq_ok h
  obtain ⟨field, hfield, hsealed⟩ := bind_eq_ok.mp hsealed
  cases hsealed
  rw [append_assoc, append_assoc] at *
  rw [readFileBlock, run_get_bind, (reads_here (reads_length hfield)).run_bind,
    (reads_here (reads_take block)).run_bind,
    (reads_here (reads_u64 (codecs.xxh3 block))).run_bind]
  dsimp only
  rw [← (length_eq_ok hfield).2, hread]
  rfl

end Blocks

section Columns

variable {α : Type} {size : ℕ}

theorem flatten_chunks (hs : 0 < size) (rows : List α) : (chunks size rows).flatten = rows := by
  fun_induction chunks size rows with
  | case1 rows h ih => rw [flatten_cons, ih, take_append_drop]
  | case2 rows h =>
    have hnil : rows = [] := by simpa [hs] using h
    rw [hnil]
    rfl

theorem length_chunks (hs : 0 < size) (rows : List α) :
    (chunks size rows).length = (rows.length + size - 1) / size := by
  fun_induction chunks size rows with
  | case1 rows h ih =>
    have hpos := length_pos_iff.mpr h.1
    rw [length_cons, ih, length_drop]
    rcases Nat.lt_or_ge size rows.length with hlt | hge
    · have hsplit : rows.length + size - 1 = rows.length - size + size - 1 + size := by omega
      rw [hsplit, Nat.add_div_right _ hs]
    · have hzero : rows.length - size + size - 1 < size := by omega
      have hone : rows.length + size - 1 = rows.length - 1 + size := by omega
      rw [Nat.div_eq_of_lt hzero, hone, Nat.add_div_right _ hs, Nat.div_eq_of_lt (by omega)]
  | case2 rows h =>
    have hnil : rows = [] := by simpa [hs] using h
    rw [hnil, length_nil, length_nil, Nat.div_eq_of_lt (by omega)]

variable {cellFor : α → Except StoreError Cell} {blocks : List (List α)}
  {sketch : DistinctSketch} {out : List UInt8} {cells : List Cell}

theorem reads_blocks (avx2 : Bool) (length : ℕ) {compression : Compression}
    {dictionary : Option ColumnDictionary} {sketch' : DistinctSketch} {cells : List (List Cell)}
    (hcells : blocks.mapM (·.mapM cellFor) = .ok cells)
    (ht : ∀ block ∈ cells, ∀ cell ∈ block, cell.Fits logicalType)
    (hd : Typed logicalType dictionary)
    (h : writeBlocks codecs cellFor logicalType compression blocks dictionary sketch =
      .ok (out, sketch')) :
    Reads ((readFileBlock codecs avx2 length logicalType writtenFormatVersion).times blocks.length)
      out cells := by
  have hf := mapM_eq_ok.mp hcells
  clear hcells
  induction hf generalizing dictionary sketch sketch' out with
  | nil =>
    cases h
    exact Reads.pure []
  | @cons rows block blocks cells hblock _ ih =>
    obtain ⟨written, hwritten, h⟩ := bind_eq_ok.mp h
    obtain rfl := Except.ok.inj (hblock.symm.trans hwritten)
    obtain ⟨⟨bytes, registers, dictionary'⟩, hwrite, h⟩ := bind_eq_ok.mp h
    obtain ⟨⟨rest, merged⟩, hrest, h⟩ := bind_eq_ok.mp h
    cases h
    obtain ⟨hd', hread⟩ := reads_fileBlock avx2 length (ht block mem_cons_self) hd hwrite
    exact hread.bind (ih (fun b hb => ht b (mem_cons_of_mem _ hb)) hd' hrest).map

theorem mapM_flatten (h : blocks.flatten.mapM cellFor = .ok cells) :
    ∃ parts, blocks.mapM (·.mapM cellFor) = .ok parts ∧ parts.flatten = cells := by
  induction blocks generalizing cells with
  | nil =>
    cases h
    exact ⟨[], rfl, rfl⟩
  | cons block blocks ih =>
    rw [flatten_cons, mapM_append] at h
    obtain ⟨first, hfirst, h⟩ := bind_eq_ok.mp h
    obtain ⟨rest, hrest, h⟩ := bind_eq_ok.mp h
    cases h
    obtain ⟨parts, hparts, rfl⟩ := ih hrest
    refine ⟨first :: parts, ?_, rfl⟩
    rw [mapM_cons, hfirst, hparts]
    rfl

/-- The column that the writer lays down, block by block, reads back as the same cells. -/
theorem reads_writeColumn (codecs : Codecs) (avx2 : Bool) (length : ℕ)
    (cellFor : α → Except StoreError Cell) (id : UInt32) (logicalType : LogicalType)
    (rows : List α) (blockRows : ℕ) (compression : Compression) {cells : List Cell}
    {out : List UInt8} {sketch : DistinctSketch} (hblock : 0 < blockRows)
    (hcells : rows.mapM cellFor = .ok cells) (ht : ∀ cell ∈ cells, cell.Fits logicalType)
    (h : writeColumn codecs cellFor id logicalType rows blockRows compression = .ok (out, sketch)) :
    Reads (readFileColumn codecs avx2 length writtenFormatVersion rows.length) out
      (id, logicalType, cells) := by
  obtain ⟨blockCount, hcount, h⟩ := bind_eq_ok.mp h
  obtain ⟨⟨blocks, merged⟩, hblocks, h⟩ := bind_eq_ok.mp h
  cases h
  rw [← length_chunks hblock] at hcount
  obtain ⟨parts, hparts, rfl⟩ := mapM_flatten (by rwa [flatten_chunks hblock])
  have hd : Typed logicalType
      (if logicalType = .utf8 then some ColumnDictionary.empty else none) := by
    intro d hd
    split at hd
    · rename_i hutf8
      cases hd
      exact ⟨.inl hutf8, fun cell hc => absurd hc not_mem_nil⟩
    · cases hd
  have hread := reads_blocks avx2 length hparts
    (fun block hb cell hc => ht cell (mem_flatten.mpr ⟨block, hb, hc⟩)) hd hblocks
  have hlen : parts.flatten.length = rows.length := (mapM_eq_ok.mp hcells).length_eq.symm
  refine (reads_here (reads_u32 id)).bind
    ((reads_here (reads_tag (LogicalType.decode_tag logicalType))).bind
      ((reads_here (reads_length hcount)).bind (hread.andThen ?_)))
  simp only [hlen, ne_eq]
  exact Reads.pure _

def plainCodecs : Codecs where
  lz4Compress bytes := bytes
  lz4DecompressInto bytes _ := .ok bytes
  zstdCompress bytes := .ok bytes
  zstdDecompress bytes _ := .ok bytes
  xxh3 bytes := UInt64.ofNat (leNat bytes)
  lz4_inverse _ := rfl
  zstd_inverse _ _ h := h.symm

def sampleCells : List Cell := [.int64 5, .null, .int64 (-3)]

theorem reads_writeColumn_two_blocks : ∃ out sketch,
    writeColumn plainCodecs .ok 7 .int64 sampleCells 2 .adaptiveLz4 = .ok (out, sketch) ∧
      Reads (readFileColumn plainCodecs true 0 writtenFormatVersion 3) out
        (7, .int64, sampleCells) := by
  have hok : (writeColumn plainCodecs .ok 7 .int64 sampleCells 2 .adaptiveLz4).isOk = true := by
    decide +kernel
  obtain ⟨⟨out, sketch⟩, h⟩ := exists_of_isOk hok
  exact ⟨out, sketch, h, reads_writeColumn plainCodecs true 0 .ok 7 .int64 sampleCells 2
    .adaptiveLz4 (by decide) rfl (by decide) h⟩

end Columns

end Pintail.Blocks
