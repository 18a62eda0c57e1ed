import Pintail.Store.Wal

/-! # Reopening a log

What the writer appended is what recovery finds. A file that holds complete records and then ends
inside the next one, at whatever byte, reopens to exactly the complete records.
-/

namespace Pintail

open Bytes List Except Decoder Column

/-- What a writer appends: the rows of one batch under the table's schema, or a commit. -/
inductive WalRecord
  | batch (sequence tableId : UInt64) (schema : TableSchema) (rows : List StoredRow)
  | commit (sequence version : UInt64)
  deriving DecidableEq, Repr

def Column.wal (column : Column) : WalColumn := ⟨column.id, column.dataType.storageType⟩

namespace WalRecord

def sequence : WalRecord → UInt64
  | batch sequence .. | commit sequence _ => sequence

def payload : WalRecord → Except StoreError (List UInt8)
  | batch sequence tableId schema rows => Wal.encodeBatch sequence tableId schema rows
  | commit sequence version => .ok (Wal.encodeCommit sequence version)

def size (record : WalRecord) : ℕ :=
  match record.payload with
  | .ok payload => 4 + payload.length + Wal.checksumLength
  | .error _ => 0

def Valid : WalRecord → Prop
  | batch _ _ schema rows => ∀ row ∈ rows, schema.validateRow row = .ok ()
  | commit _ _ => True

instance (record : WalRecord) : Decidable record.Valid := by
  cases record <;> unfold Valid <;> infer_instance

/-- The batch a record replays as; text cells come back as their text. -/
def recovered : WalRecord → Option RecoveredBatch
  | batch sequence tableId schema rows =>
    some ⟨sequence, tableId, schema.columns.map wal, rows.map StoredRow.durable⟩
  | commit _ _ => none

def IsCommit : WalRecord → Prop
  | batch .. => False
  | commit .. => True

@[simp] theorem isCommit_commit (sequence version : UInt64) :
    (commit sequence version).IsCommit := trivial

@[simp] theorem not_isCommit_batch (sequence tableId : UInt64) (schema : TableSchema)
    (rows : List StoredRow) : ¬ (batch sequence tableId schema rows).IsCommit := id

def bytes (xxh3 : List UInt8 → UInt64) (record : WalRecord) : List UInt8 :=
  match record.payload with
  | .ok payload => if payload.length > Wal.maxRecordLength then [] else Wal.record xxh3 payload
  | .error _ => []

/-- Try to append the record; a failure may leave part of it behind. -/
def attempt (xxh3 : List UInt8 → UInt64) (record : WalRecord) (fault : Option Wal.AppendFault)
    (file : List UInt8) : Except StoreError Unit × List UInt8 :=
  match record with
  | batch sequence tableId schema rows => Wal.append xxh3 sequence tableId schema rows fault file
  | commit sequence version => Wal.appendCommit xxh3 sequence version fault file

def append (xxh3 : List UInt8 → UInt64) (record : WalRecord) (file : List UInt8) :
    Except StoreError (List UInt8) :=
  let (result, file) := record.attempt xxh3 none file
  (fun _ => file) <$> result

end WalRecord

namespace Wal

variable {xxh3 : List UInt8 → UInt64} {n : ℕ}

def written (xxh3 : List UInt8 → UInt64) (records : List WalRecord) :
    Except StoreError (List UInt8) :=
  records.foldlM (fun file record => record.append xxh3 file) header

section Payloads

theorem decodeCommit_encodeCommit (sequence version : UInt64) :
    decodeCommit (encodeCommit sequence version) = some (sequence, version) := by
  have h : encodeCommit sequence version =
      u64Bytes sequence ++ (u64Bytes commitTableSentinel ++ (u64Bytes version ++ [])) := by
    simp [encodeCommit]
  rw [decodeCommit, h]
  simp only [(reads_u64 _).run_bind]
  rfl

theorem decodeDataType_encodeDataType (dataType : DataType) :
    decodeDataType (encodeDataType dataType) = .ok dataType.storageType := by
  cases dataType <;> rfl

theorem reads_column (column : Column) : Reads decodeColumn (encodeColumn column) column.wal := by
  apply (reads_u32 column.id).bind
  intro rest
  rw [(reads_u8 _).run_bind, decodeDataType_encodeDataType]
  rfl

theorem not_mismatch {column : Column} {value : Value} (h : TableSchema.Fits column value) :
    ¬ (value.dataType.any fun dataType => !column.wal.dataType.accepts dataType) = true := by
  unfold TableSchema.Fits at h
  cases hv : value.dataType with
  | none => simp
  | some actual =>
    rw [hv] at h
    simpa [wal, DataType.accepts_storageType] using h

variable {schema : TableSchema} {row : StoredRow}

theorem checkRow_durable (h : schema.validateRow row = .ok ()) :
    checkRow (schema.columns.map wal) row.durable = .ok row.durable := by
  have hf := TableSchema.validateRow_eq_ok.mp (TableSchema.validateRow_durable h)
  have hl : row.durable.values.length = (schema.columns.map wal).length := by
    rw [length_map, hf.length_eq]
  unfold checkRow
  rw [if_neg (not_not.mpr hl)]
  split
  · rename_i hfind
    have hz := mem_of_find?_eq_some hfind
    rw [zip_map_left] at hz
    obtain ⟨⟨column, value⟩, hmem, he⟩ := mem_map.mp hz
    cases he
    exact absurd (find?_some hfind) (not_mismatch (forall₂_zip hf hmem))
  · rfl

theorem reads_batchRow {out : List UInt8}
    (hv : schema.validateRow row = .ok ()) (h : encodeRow row = .ok out) :
    1 ≤ out.length ∧ Reads (decodeBatchRow (schema.columns.map wal)) out row.durable := by
  obtain ⟨hl, hr⟩ := reads_row h
  refine ⟨hl, fun rest => ?_⟩
  rw [decodeBatchRow, hr.run_bind, checkRow_durable hv]
  rfl

section Batch

variable {sequence tableId : UInt64} {schema : TableSchema} {rows : List StoredRow}
  {payload : List UInt8}

theorem decodeBatch_encodeBatch (hv : ∀ row ∈ rows, schema.validateRow row = .ok ())
    (h : encodeBatch sequence tableId schema rows = .ok payload) :
    decodeBatch.run payload = .ok (⟨sequence, tableId, schema.columns.map wal,
      rows.map StoredRow.durable⟩, []) := by
  obtain ⟨columnBytes, hc, h⟩ := bind_eq_ok.mp h
  obtain ⟨rowBytes, hr, h⟩ := bind_eq_ok.mp h
  cases h
  have hcs : Reads (each 5 decodeColumn) columnBytes (schema.columns.map wal) := by
    apply reads_each (by decide) hc
    intro column _ field hf
    cases hf
    exact ⟨by simp [encodeColumn], reads_column column⟩
  have hrs := reads_each Nat.one_pos hr fun row hrow _ hf => reads_batchRow (hv row hrow) hf
  rw [decodeBatch, (reads_u64 _).run_bind, (reads_u64 _).run_bind,
    (reads_u32 _).run_bind, hcs.run_bind, ← append_nil rowBytes, hrs.run_bind]
  rfl

theorem decodeCommit_encodeBatch (h : encodeBatch sequence tableId schema rows = .ok payload) :
    decodeCommit payload = none := by
  obtain ⟨columnBytes, hc, h⟩ := bind_eq_ok.mp h
  obtain ⟨rowBytes, hr, h⟩ := bind_eq_ok.mp h
  cases h
  have hl := Encoder.four_le_length_each hc
  have hl' := Encoder.four_le_length_each hr
  -- two words, a version and two counts are longer than a commit
  have h28 : 24 < (u64Bytes sequence ++ (u64Bytes tableId ++
      (u32Bytes schema.version ++ (columnBytes ++ rowBytes)))).length := by
    simp only [length_append, length_u64Bytes, length_u32Bytes]
    omega
  rw [decodeCommit, if_pos (by omega)]

end Batch

end Payloads

section Records

theorem framing_next : framing.next = nextRecord := rfl

theorem length_record (payload : List UInt8) :
    (record xxh3 payload).length = 4 + payload.length + checksumLength := by
  simp [record, checksumLength]
  omega

variable {payload : List UInt8} {replay : Replay} {r : WalRecord} {file : List UInt8}

theorem leNat_record_length (h : payload.length < 2 ^ 32) :
    leNat (u32Bytes (UInt32.ofNat payload.length)) = payload.length := by
  rw [u32Bytes, UInt32.toNat_ofNat_of_lt' (by simpa using h), leNat_leBytes_of_lt (by simpa using h)]

theorem nextRecord_append {head body : List UInt8} (h : head.length = 4) :
    nextRecord (head ++ body) =
      if body.length < leNat head + checksumLength then none
      else some ((body.take (leNat head),
        UInt64.ofNat (leNat ((body.drop (leNat head)).take checksumLength))),
        body.drop (leNat head + checksumLength)) := by
  have ht : (head ++ body).take 4 = head := take_left' h
  have hd : (head ++ body).drop 4 = body := drop_left' h
  simp only [nextRecord, ht, hd]
  exact if_neg (by simp [h])

theorem frame_record (h : payload.length < 2 ^ 32) :
    framing.Frame (record xxh3 payload) (payload, xxh3 payload) := by
  intro rest
  have hd : (payload ++ (u64Bytes (xxh3 payload) ++ rest)).drop payload.length =
      u64Bytes (xxh3 payload) ++ rest := drop_left
  have ht : (u64Bytes (xxh3 payload) ++ rest).take checksumLength = u64Bytes (xxh3 payload) :=
    take_left' (length_u64Bytes _)
  have hr : (u64Bytes (xxh3 payload) ++ rest).drop checksumLength = rest :=
    drop_left' (length_u64Bytes _)
  rw [framing_next, record, append_assoc, nextRecord_append (length_u32Bytes _), leNat_record_length h,
    append_assoc, if_neg (by simp [checksumLength]), ← drop_drop, hd, ht,
    take_left, ofNat_leNat_u64Bytes, hr]

theorem unsplit_record (h : payload.length < 2 ^ 32) : framing.Unsplit (record xxh3 payload) := by
  intro n hn
  rw [length_record] at hn
  rw [Framing.Torn, framing_next]
  by_cases h4 : n < 4
  · rw [nextRecord, if_pos (by rw [length_take]; omega)]
  · have hs : (record xxh3 payload).take n = u32Bytes (UInt32.ofNat payload.length) ++
        (payload ++ u64Bytes (xxh3 payload)).take (n - 4) := by
      rw [record, take_append, length_u32Bytes, take_of_length_le]
      rw [length_u32Bytes]
      omega
    rw [hs, nextRecord_append (length_u32Bytes _), leNat_record_length h, if_pos]
    rw [length_take]
    omega

theorem torn_nil : framing.Torn [] := rfl

def Replay.push (replay : Replay) (record : WalRecord) : Replay :=
  let position := replay.validLength + record.size
  let recovery := replay.recovery
  match record with
  | .batch .. =>
    ⟨⟨recovery.batches ++ record.recovered.toList, record.sequence, recovery.lastCommit⟩, position⟩
  | .commit sequence version =>
    let commit := ⟨recovery.batches.length, sequence, version, position⟩
    ⟨⟨recovery.batches, sequence, some commit⟩, position⟩

def Replay.start : Replay := ⟨⟨[], 0, none⟩, headerLength⟩

theorem replayRecord_payload (hp : r.payload = .ok payload)
    (hv : r.Valid) (hs : replay.recovery.lastSequence < r.sequence) :
    replayRecord xxh3 replay (payload, xxh3 payload) = .ok (replay.push r) := by
  have hsize : r.size = 4 + payload.length + checksumLength := by rw [WalRecord.size, hp]
  cases r with
  | batch sequence tableId schema rows =>
    simp only [replayRecord, Replay.push, hsize, decodeCommit_encodeBatch hp,
      decodeBatch_encodeBatch hv hp, ne_eq]
    exact if_neg (not_le.mpr hs)
  | commit sequence version =>
    cases hp
    simp only [replayRecord, decodeCommit_encodeCommit, ne_eq]
    exact if_neg (not_le.mpr hs)

@[simp] theorem push_lastSequence (replay : Replay) (r : WalRecord) :
    (replay.push r).recovery.lastSequence = r.sequence := by
  cases r <;> rfl

@[simp] theorem push_validLength (replay : Replay) (r : WalRecord) :
    (replay.push r).validLength = replay.validLength + r.size := by
  cases r <;> rfl

@[simp] theorem push_batches (replay : Replay) (r : WalRecord) :
    (replay.push r).recovery.batches = replay.recovery.batches ++ r.recovered.toList := by
  cases r <;> simp [Replay.push, WalRecord.recovered]

theorem append_eq_ok {file' : List UInt8} :
    r.append xxh3 file = .ok file' ↔ ∃ payload, r.payload = .ok payload ∧
      payload.length ≤ maxRecordLength ∧ file' = file ++ record xxh3 payload := by
  cases r with
  | batch sequence tableId schema rows =>
    simp only [WalRecord.append, WalRecord.attempt, append, WalRecord.payload]
    cases encodeBatch sequence tableId schema rows with
    | error e => simp
    | ok payload =>
      by_cases hl : payload.length > maxRecordLength
      · simp [appendEncoded, hl]
      · simp [appendEncoded, hl, writeRecord, not_lt.mp hl, eq_comm]
  | commit sequence version =>
    simp [WalRecord.append, WalRecord.attempt, appendCommit, WalRecord.payload, writeRecord,
      encodeCommit, maxRecordLength, eq_comm]

variable {records : List WalRecord}

theorem written_eq_ok :
    written xxh3 records = .ok file ↔ ∃ payloads,
      List.Forall₂ (fun r p => r.payload = .ok p) records payloads ∧
      (∀ p ∈ payloads, p.length ≤ maxRecordLength) ∧
      file = header ++ (payloads.map (record xxh3)).flatten := by
  unfold written
  generalize header = start
  induction records generalizing start with
  | nil =>
    rw [foldlM_nil, pure_eq_ok, eq_comm]
    simp
  | cons r records ih =>
    rw [foldlM_cons, bind_eq_ok]
    constructor
    · rintro ⟨next, hn, h⟩
      obtain ⟨payload, hp, hl, rfl⟩ := append_eq_ok.mp hn
      obtain ⟨payloads, hf, hls, rfl⟩ := (ih _).mp h
      exact ⟨payload :: payloads, .cons hp hf, forall_mem_cons.mpr ⟨hl, hls⟩, by simp⟩
    · rintro ⟨_, hc, hls, rfl⟩
      obtain ⟨payload, payloads, hp, hf, rfl⟩ := forall₂_cons_left_iff.mp hc
      rw [forall_mem_cons] at hls
      exact ⟨_, append_eq_ok.mpr ⟨payload, hp, hls.1, rfl⟩,
        (ih _).mpr ⟨payloads, hf, hls.2, by simp⟩⟩

theorem foldlM_replayRecord {payloads : List (List UInt8)}
    (hp : List.Forall₂ (fun r p => r.payload = .ok p) records payloads)
    (hv : ∀ r ∈ records, r.Valid) (hs : records.Pairwise fun r r' => r.sequence < r'.sequence)
    (h0 : ∀ r ∈ records, replay.recovery.lastSequence < r.sequence) :
    (payloads.map fun p => (p, xxh3 p)).foldlM (replayRecord xxh3) replay =
      .ok (records.foldl Replay.push replay) := by
  induction hp generalizing replay with
  | nil => rfl
  | @cons r p records payloads hp _ ih =>
    obtain ⟨hr, hs⟩ := pairwise_cons.mp hs
    rw [forall_mem_cons] at hv h0
    rw [map_cons, foldlM_cons, replayRecord_payload hp hv.1 h0.1]
    exact ih hv.2 hs (by simpa using hr)

theorem foldl_push_validLength (records : List WalRecord) (replay : Replay) :
    (records.foldl Replay.push replay).validLength =
      replay.validLength + (records.map WalRecord.size).sum := by
  induction records generalizing replay with
  | nil => rfl
  | cons r records ih =>
    rw [foldl_cons, ih, push_validLength, map_cons, sum_cons, Nat.add_assoc]

theorem foldl_push_batches (records : List WalRecord) (replay : Replay) :
    (records.foldl Replay.push replay).recovery.batches =
      replay.recovery.batches ++ records.filterMap WalRecord.recovered := by
  induction records generalizing replay with
  | nil => simp
  | cons r records ih =>
    rw [foldl_cons, ih, push_batches, append_assoc, filterMap_cons]
    cases r.recovered <;> rfl

def replayed (records : List WalRecord) : Replay := records.foldl Replay.push Replay.start

theorem length_written (h : written xxh3 records = .ok file) :
    file.length = (replayed records).validLength := by
  obtain ⟨payloads, hf, -, rfl⟩ := written_eq_ok.mp h
  rw [replayed, foldl_push_validLength, length_append]
  congr 1
  clear h
  induction hf with
  | nil => rfl
  | cons hp _ ih =>
    rw [map_cons, flatten_cons, length_append, ih, length_record, map_cons,
      sum_cons, WalRecord.size, hp]

end Records

theorem lt_of_le_maxRecordLength (h : n ≤ maxRecordLength) : n < 2 ^ 32 := by
  simp only [maxRecordLength] at h
  omega

theorem recover_header_append (truncate : Bool) (rest : List UInt8) :
    recover xxh3 truncate (header ++ rest) =
      (fun replay => (replay.recovery,
        if truncate then (header ++ rest).take replay.validLength else header ++ rest)) <$>
          framing.scan (replayRecord xxh3) Replay.start rest := by
  change (framing.scan _ Replay.start rest >>= _) = _
  cases framing.scan (replayRecord xxh3) Replay.start rest <;> rfl

variable {records : List WalRecord}

theorem recover_written {file tail : List UInt8} (truncate : Bool)
    (h : written xxh3 records = .ok file) (hv : ∀ r ∈ records, r.Valid)
    (hs : records.Pairwise fun r r' => r.sequence < r'.sequence)
    (h0 : ∀ r ∈ records, 0 < r.sequence) (ht : framing.Torn tail) :
    recover xxh3 truncate (file ++ tail) =
      .ok ((replayed records).recovery, if truncate then file else file ++ tail) := by
  have hl := length_written h
  obtain ⟨payloads, hf, hls, rfl⟩ := written_eq_ok.mp h
  have hframes : List.Forall₂ framing.Frame (payloads.map (record xxh3))
      (payloads.map fun p => (p, xxh3 p)) := by
    rw [forall₂_map_left_iff, forall₂_map_right_iff, forall₂_same]
    exact fun p hp => frame_record (lt_of_le_maxRecordLength (hls p hp))
  have hscan : framing.scan (replayRecord xxh3) Replay.start
      ((payloads.map (record xxh3)).flatten ++ tail) = .ok (replayed records) := by
    rw [Framing.scan_flatten hframes ht]
    exact foldlM_replayRecord hf hv hs h0
  rw [append_assoc, recover_header_append, hscan, ← append_assoc]
  simp only [Functor.map, Except.map, ← hl, take_left]

/-- The last commit among the records: the batches before it, its words, and where it ends. -/
def IsLastCommit (xxh3 : List UInt8 → UInt64) (records : List WalRecord) :
    Option WalCommit → Prop
  | none => ∀ r ∈ records, ¬ r.IsCommit
  | some { batches, sequence, version, endOffset } => ∃ before after,
      records = before ++ .commit sequence version :: after ∧ (∀ r ∈ after, ¬ r.IsCommit) ∧
      batches = (before.filterMap WalRecord.recovered).length ∧
      ∃ file, written xxh3 (before ++ [.commit sequence version]) = .ok file ∧
        endOffset = file.length

@[simp] theorem replayed_append_singleton (records : List WalRecord) (r : WalRecord) :
    replayed (records ++ [r]) = (replayed records).push r := by
  simp [replayed]

variable {file : List UInt8}

theorem written_append_singleton {r : WalRecord} :
    written xxh3 (records ++ [r]) = .ok file ↔
      ∃ file', written xxh3 records = .ok file' ∧ r.append xxh3 file' = .ok file := by
  simp [written, bind_eq_ok]

@[simp] theorem replayed_batches (records : List WalRecord) :
    (replayed records).recovery.batches = records.filterMap WalRecord.recovered := by
  rw [replayed, foldl_push_batches]
  rfl

theorem isLastCommit_replayed (h : written xxh3 records = .ok file) :
    IsLastCommit xxh3 records (replayed records).recovery.lastCommit := by
  induction records using reverseRecOn generalizing file with
  | nil => simp [replayed, Replay.start, IsLastCommit]
  | append_singleton records r ih =>
    have hl := length_written h
    obtain ⟨file', hf, ha⟩ := written_append_singleton.mp h
    rw [replayed_append_singleton] at hl ⊢
    cases r with
    | commit sequence version =>
      exact ⟨records, [], rfl, by simp, by rw [replayed_batches], file, h, hl.symm⟩
    | batch sequence tableId schema rows =>
      have hlast : ((replayed records).push (.batch sequence tableId schema rows)).recovery.lastCommit
          = (replayed records).recovery.lastCommit := rfl
      rw [hlast]
      have hc := ih hf
      revert hc
      rcases (replayed records).recovery.lastCommit with _ | commit
      · intro hc
        exact forall_mem_append.mpr ⟨hc, by simp⟩
      · rintro ⟨before, after, rfl, hafter, hb, hend⟩
        exact ⟨before, after ++ [.batch sequence tableId schema rows], by simp,
          forall_mem_append.mpr ⟨hafter, by simp⟩, hb, hend⟩

theorem exists_cut_written (h : written xxh3 records = .ok file) (hn : headerLength ≤ n)
    (hl : n ≤ file.length) :
    ∃ k ≤ records.length, ∃ left tail, written xxh3 (records.take k) = .ok left ∧
      file.take n = left ++ tail ∧ framing.Torn tail ∧
      ∀ r left', records[k]? = some r → r.append xxh3 left = .ok left' → n < left'.length := by
  obtain ⟨payloads, hf, hls, rfl⟩ := written_eq_ok.mp h
  have hh : header.length = headerLength := rfl
  rw [length_append] at hl
  obtain ⟨k, hk, tail, hcut, hend⟩ :=
    exists_cut_flatten (payloads.map (record xxh3)) (n := n - headerLength) (by omega)
  have hkr : k ≤ records.length := by rwa [length_map, ← hf.length_eq] at hk
  refine ⟨k, hkr, header ++ ((payloads.map (record xxh3)).take k).flatten, tail, ?_, ?_, ?_, ?_⟩
  · refine written_eq_ok.mpr ⟨payloads.take k, forall₂_take k hf, fun p hp => ?_, ?_⟩
    · exact hls p (mem_of_mem_take hp)
    · rw [map_take]
  · rw [take_append, take_of_length_le (by omega), hh, hcut, append_assoc]
  · rcases hend with ⟨rfl, -⟩ | ⟨c, m, hc, hm, rfl⟩
    · exact torn_nil
    · obtain ⟨p, hp, rfl⟩ := mem_map.mp (mem_of_getElem? hc)
      exact unsplit_record (lt_of_le_maxRecordLength (hls p hp)) m hm
  · intro r left' hr ha
    obtain ⟨payload, hpayload, -, rfl⟩ := append_eq_ok.mp ha
    rcases hend with ⟨-, hk⟩ | ⟨c, m, hc, hm, rfl⟩
    · rw [hk, length_map, ← hf.length_eq, getElem?_length] at hr
      cases hr
    · rw [getElem?_map, Option.map_eq_some_iff] at hc
      obtain ⟨p, hp, rfl⟩ := hc
      obtain ⟨hi, rfl⟩ := List.getElem?_eq_some_iff.mp hr
      obtain ⟨hj, rfl⟩ := List.getElem?_eq_some_iff.mp hp
      obtain rfl := Except.ok.inj (hpayload.symm.trans (hf.get hi hj))
      have hlen := congrArg List.length hcut
      rw [length_take, length_append, length_take_of_le hm.le] at hlen
      rw [length_append, length_append]
      simp only [get_eq_getElem] at hm ⊢
      omega

/-- Reopening a log cut at any byte after the header finds exactly the records before the cut, and
leaves the file ending with the last of them. -/
theorem open_take_written (xxh3 : List UInt8 → UInt64) {n : ℕ} (h : written xxh3 records = .ok file)
    (hv : ∀ r ∈ records, r.Valid) (hs : records.Pairwise fun r r' => r.sequence < r'.sequence)
    (h0 : ∀ r ∈ records, 0 < r.sequence) (hn : headerLength ≤ n) (hl : n ≤ file.length) :
    ∃ k ≤ records.length, ∃ recovery left,
      -- the first `k` records lie inside the cut and the next one does not
      written xxh3 (records.take k) = .ok left ∧ left.length ≤ n ∧
      (∀ r left', records[k]? = some r → r.append xxh3 left = .ok left' → n < left'.length) ∧
      Wal.open xxh3 (file.take n) = .ok (recovery, left) ∧
      recovery.batches = (records.take k).filterMap WalRecord.recovered ∧
      IsLastCommit xxh3 (records.take k) recovery.lastCommit := by
  obtain ⟨k, hk, left, tail, hw, hcut, htorn, hnext⟩ := exists_cut_written h hn hl
  have hne : file.take n ≠ [] := by
    intro he
    have := congrArg List.length he
    rw [length_take_of_le hl, length_nil, headerLength] at *
    omega
  refine ⟨k, hk, (replayed (records.take k)).recovery, left, hw, ?_, hnext, ?_, ?_, ?_⟩
  · have := congrArg List.length hcut
    rw [length_take_of_le hl, length_append] at this
    omega
  · rw [Wal.open, if_neg hne, hcut, recover_written true hw _ (hs.sublist (take_sublist k _))
      _ htorn]
    · rfl
    · exact fun r hr => hv r (mem_of_mem_take hr)
    · exact fun r hr => h0 r (mem_of_mem_take hr)
  · exact replayed_batches _
  · exact isLastCommit_replayed hw

/-- One batch with an `ENUM` cell, and its commit. -/
def nameSchema : TableSchema :=
  ⟨1, [⟨1, "name", .utf8, true, none⟩], .primary, by decide, by decide⟩

def sampleRecords : List WalRecord :=
  [.batch 1 0 nameSchema [⟨⟨[.uint64 7], by decide⟩, [.enum 1 "a"], 1, false⟩], .commit 2 1]

def sampleLog : List UInt8 := ((written (fun _ => 0) sampleRecords).toOption).getD []

/-- A cut inside the commit record leaves the batch. -/
theorem open_take_written_sample : ∃ k ≤ sampleRecords.length, ∃ recovery left,
    written (fun _ => 0) (sampleRecords.take k) = .ok left ∧
    Wal.open (fun _ => 0) (sampleLog.take 100) = .ok (recovery, left) := by
  have h : written (fun _ => 0) sampleRecords = .ok sampleLog := by decide +kernel
  obtain ⟨k, hk, recovery, left, hw, -, -, ho, -⟩ := open_take_written (fun _ => 0) (n := 100) h
    (by decide +kernel) (by decide) (by decide) (by decide) (by decide +kernel)
  exact ⟨k, hk, recovery, left, hw, ho⟩

end Wal

end Pintail
