import Pintail.Store.Moves

/-! # The files of a table and its handle

The manifest and the log of a table hold together what its handle shows: the segments, and the
batches of the log that the manifest does not cover. This is so between operations and at every
state visible inside one, whether a record is half written or a flush is half done.
-/

namespace Pintail

open Versioned Traced List Except StoredRow Memtable RecoveredBatch Wal TableSchema

/-- A log file holds the records, and after them bytes torn off a later one. -/
structure Wal.Holds (xxh3 : List UInt8 → UInt64) (records : List WalRecord) (tail : List UInt8)
    (file : List UInt8) : Prop where
  written : ∃ front, written xxh3 records = .ok front ∧ file = front ++ tail
  valid : ∀ r ∈ records, r.Valid
  ascending : records.Pairwise fun r r' => r.sequence < r'.sequence
  positive : ∀ r ∈ records, 0 < r.sequence
  torn : framing.Torn tail

def RecoveredBatch.adapted (schema : TableSchema) (batch : RecoveredBatch) :
    Except StoreError (List StoredRow) :=
  batch.rows.mapM (adaptRecoveredRow schema batch.columns)

/-- The batches of a table's own log that a manifest does not cover. -/
def pendingBatches (flushed : UInt64) (records : List WalRecord) : List RecoveredBatch :=
  (records.filterMap WalRecord.recovered).filter fun batch =>
    batch.tableId == 0 && batch.sequence > flushed

/-- A schema has the rows of a log that a manifest does not cover. -/
def Adapts (schema : TableSchema) (flushed : UInt64) (records : List WalRecord) : Prop :=
  ∀ batch ∈ pendingBatches flushed records, ∃ rows, batch.adapted schema = .ok rows

def pendingRows (schema : TableSchema) (flushed : UInt64) (records : List WalRecord) :
    List StoredRow :=
  (pendingBatches flushed records).flatMap fun batch => (batch.adapted schema).toOption.getD []

/-- The rows of a manifest, and those of a log it does not cover in their written form. -/
def diskRows (schema : TableSchema) (manifest : Manifest) (records : List WalRecord) :
    List StoredRow :=
  manifest.rowsUnder schema ++
    (pendingRows schema manifest.flushedSequence records).map durable

/-- The files hold the manifest and the records; a log not created yet holds none. -/
structure Disk.Holds (xxh3 : List UInt8 → UInt64) (schema : TableSchema) (manifest : Manifest)
    (records : List WalRecord) (tail : List UInt8) (disk : Disk) : Prop where
  manifest_eq : disk.manifest = some manifest ∨
    disk.manifest = none ∧ manifest = .empty xxh3 schema
  log : Wal.Holds xxh3 records tail (disk.wal.getD header)

/-- The generation of the manifest on disk; a table without one is at the start. -/
def Disk.generation (disk : Disk) : ℕ := disk.manifest.elim 0 Manifest.generation

namespace TableStore

/-- The files of an open table hold what its handle does. -/
structure Coherent (xxh3 : List UInt8 → UInt64) (records : List WalRecord) (store : TableStore) :
    Prop where
  holds : store.disk.Holds xxh3 store.schema store.manifest records []
  adapts : Adapts store.schema store.manifest.flushedSequence records
  log_isSome : store.disk.wal.isSome = true
  tableId_eq : store.tableId = 0
  owns_log : store.truncateWalOnFlush = true
  sequence_le : ∀ r ∈ records, r.sequence ≤ store.lastSequence
  flushed_le : store.manifest.flushedSequence ≤ store.lastSequence
  memtable_eq : ∀ k, store.memtable.rows[k]?.map durable =
    (latest (pendingRows store.schema store.manifest.flushedSequence records) k).map
      durable
  fits : ∀ row ∈ store.memtable.values, store.schema.validateRow row = .ok ()

/-- The files alone show what the table shows. -/
def Visible (xxh3 : List UInt8 → UInt64) (store : TableStore) : Prop :=
  ∃ records tail, store.disk.Holds xxh3 store.schema store.manifest records tail ∧
    Adapts store.schema store.manifest.flushedSequence records ∧
    ∀ k, Versioned.shown (diskRows store.schema store.manifest records) k = store.shown k

end TableStore

section Pending

variable {schema : TableSchema} {flushed : UInt64} {records records' : List WalRecord}
  {row : StoredRow}

@[simp] theorem pendingRows_nil : pendingRows schema flushed [] = [] := rfl

theorem pendingBatches_append : pendingBatches flushed (records ++ records') =
    pendingBatches flushed records ++ pendingBatches flushed records' := by
  simp [pendingBatches]

theorem pendingRows_append : pendingRows schema flushed (records ++ records') =
    pendingRows schema flushed records ++ pendingRows schema flushed records' := by
  rw [pendingRows, pendingBatches_append, flatMap_append]
  rfl

theorem adapts_append : Adapts schema flushed (records ++ records') ↔
    Adapts schema flushed records ∧ Adapts schema flushed records' := by
  unfold Adapts
  rw [pendingBatches_append, forall_mem_append]

theorem pendingBatches_of_le (h : ∀ r ∈ records, r.sequence ≤ flushed) :
    pendingBatches flushed records = [] := by
  apply filter_eq_nil_iff.mpr
  intro batch hb
  obtain ⟨r, hr, he⟩ := mem_filterMap.mp hb
  cases r with
  | batch sequence tableId schema rows =>
    cases he
    have hle : sequence ≤ flushed := h _ hr
    simpa using fun _ => hle
  | commit => cases he

theorem pendingRows_of_le (h : ∀ r ∈ records, r.sequence ≤ flushed) :
    pendingRows schema flushed records = [] := by
  rw [pendingRows, pendingBatches_of_le h, flatMap_nil]

theorem adapts_of_le (h : ∀ r ∈ records, r.sequence ≤ flushed) : Adapts schema flushed records := by
  rw [Adapts, pendingBatches_of_le h]
  nofun

theorem adaptRecoveredRow_self (h : schema.validateRow row = .ok ()) :
    adaptRecoveredRow schema (schema.columns.map Column.wal) row = .ok row := by
  have hl := (validateRow_eq_ok.mp h).length_eq
  have hvalues : schema.columns.mapM
      (adaptRecoveredValue (schema.columns.map Column.wal) row) = .ok row.values := by
    rw [mapM_eq_ok, forall₂_iff_zip]
    refine ⟨hl, fun {column value} hmem => ?_⟩
    simp only [adaptRecoveredValue, Segment.find?_zip_wal schema.ids_nodup hmem]
    exact if_neg (not_not.mpr rfl)
  rw [adaptRecoveredRow, if_neg (by simp [hl]), hvalues]
  simp only [bind, Except.bind, pure]
  rw [h]
  rfl

theorem validateRow_of_adaptRecoveredRow {wal : List WalColumn} {row' : StoredRow}
    (h : adaptRecoveredRow schema wal row = .ok row') : schema.validateRow row' = .ok () := by
  unfold adaptRecoveredRow at h
  split_ifs at h
  obtain ⟨values, -, h⟩ := bind_eq_ok.mp h
  obtain ⟨_, hv, he⟩ := bind_eq_ok.mp h
  cases he
  exact mapError_eq_ok.mp hv

section Batch

variable {sequence : UInt64} {rows : List StoredRow}

theorem adapted_batch (hv : ∀ row ∈ rows, schema.validateRow row = .ok ()) :
    adapted schema
      ⟨sequence, 0, schema.columns.map Column.wal, rows.map durable⟩ = .ok (rows.map durable) := by
  rw [adapted, mapM_eq_ok, forall₂_same, forall_mem_map]
  exact fun row hr => adaptRecoveredRow_self (validateRow_durable (hv row hr))

theorem pendingBatches_batch (h : flushed < sequence) :
    pendingBatches flushed [.batch sequence 0 schema rows] =
      [⟨sequence, 0, schema.columns.map Column.wal, rows.map durable⟩] := by
  simp [pendingBatches, WalRecord.recovered, h]

theorem pendingRows_batch (h : flushed < sequence)
    (hv : ∀ row ∈ rows, schema.validateRow row = .ok ()) :
    pendingRows schema flushed [.batch sequence 0 schema rows] = rows.map durable := by
  rw [pendingRows, pendingBatches_batch h, flatMap_singleton, adapted_batch hv]
  rfl

theorem adapts_batch (hv : ∀ row ∈ rows, schema.validateRow row = .ok ()) :
    Adapts schema flushed [.batch sequence 0 schema rows] := by
  by_cases h : flushed < sequence
  · rw [Adapts, pendingBatches_batch h]
    exact forall_mem_singleton.mpr ⟨_, adapted_batch hv⟩
  · exact adapts_of_le (by simpa [WalRecord.sequence] using h)

end Batch

theorem validateRow_of_mem_pendingRows
    (h : row ∈ pendingRows schema flushed records) : schema.validateRow row = .ok () := by
  obtain ⟨batch, -, hrow⟩ := mem_flatMap.mp h
  cases ha : batch.adapted schema with
  | error e =>
    rw [ha] at hrow
    cases hrow
  | ok rows =>
    rw [ha] at hrow
    obtain ⟨stored, -, he⟩ :=
      List.Forall₂.exists_of_mem_right (mapM_eq_ok.mp ha) hrow
    exact validateRow_of_adaptRecoveredRow he

theorem replayBatches_eq_ok {memtable : Memtable} :
    replayBatches schema 0 flushed (records.filterMap WalRecord.recovered) = .ok memtable ↔
      Adapts schema flushed records ∧
        memtable = empty.applyAll (pendingRows schema flushed records) := by
  change ((pendingBatches flushed records).mapM (adapted schema) >>= fun rows =>
    pure (empty.applyAll rows.flatten)) = .ok memtable ↔ _
  simp only [bind_eq_ok, mapM_eq_ok_iff_map []]
  constructor
  · rintro ⟨_, ⟨ha, rfl⟩, he⟩
    exact ⟨ha, (Except.ok.inj he).symm⟩
  · rintro ⟨ha, rfl⟩
    exact ⟨_, ⟨ha, rfl⟩, rfl⟩

theorem Adapts.of_pendingRows_eq_nil (schema' : TableSchema) (h : Adapts schema flushed records)
    (he : pendingRows schema flushed records = []) :
    Adapts schema' flushed records ∧ pendingRows schema' flushed records = [] := by
  have hnone : ∀ batch ∈ pendingBatches flushed records, batch.rows = [] := by
    intro batch hb
    obtain ⟨rows, hrows⟩ := h batch hb
    have hr := flatMap_eq_nil_iff.mp he batch hb
    rw [hrows] at hr
    obtain rfl : rows = [] := hr
    exact forall₂_nil_right_iff.mp (mapM_eq_ok.mp hrows)
  have hok : ∀ batch ∈ pendingBatches flushed records, batch.adapted schema' = .ok [] := by
    intro batch hb
    rw [adapted, hnone batch hb]
    rfl
  refine ⟨fun batch hb => ⟨[], hok batch hb⟩, flatMap_eq_nil_iff.mpr fun batch hb => ?_⟩
  rw [hok batch hb]
  rfl

end Pending

namespace Wal.Holds

variable {xxh3 : List UInt8 → UInt64} {records : List WalRecord} {tail file : List UInt8}
  {payload : List UInt8}

theorem fresh : Wal.Holds xxh3 [] [] header :=
  ⟨⟨header, rfl, by simp⟩, nofun, .nil, nofun, torn_nil⟩

theorem recover_eq (h : Wal.Holds xxh3 records tail file) (truncate : Bool) :
    ∃ left, recover xxh3 truncate file = .ok ((replayed records).recovery, left) := by
  obtain ⟨front, hw, rfl⟩ := h.written
  exact ⟨_, recover_written truncate hw h.valid h.ascending h.positive h.torn⟩

theorem append (h : Wal.Holds xxh3 records [] file) {r : WalRecord} (hp : r.payload = .ok payload)
    (hl : payload.length ≤ maxRecordLength) (hv : r.Valid)
    (hs : ∀ r' ∈ records, r'.sequence < r.sequence) (h0 : 0 < r.sequence) :
    Wal.Holds xxh3 (records ++ [r]) [] (file ++ record xxh3 payload) := by
  obtain ⟨front, hw, rfl⟩ := h.written
  refine ⟨⟨front ++ record xxh3 payload, ?_, by simp⟩, ?_, ?_, ?_, torn_nil⟩
  · exact written_append_singleton.mpr ⟨front, hw, append_eq_ok.mpr ⟨payload, hp, hl, rfl⟩⟩
  · exact forall_mem_append.mpr ⟨h.valid, by simpa using hv⟩
  · exact pairwise_append.mpr ⟨h.ascending, by simp, by simpa using hs⟩
  · exact forall_mem_append.mpr ⟨h.positive, by simpa using h0⟩

theorem append_take (h : Wal.Holds xxh3 records [] file) (hl : payload.length ≤ maxRecordLength)
    {n : ℕ} (hn : n < (record xxh3 payload).length) :
    Wal.Holds xxh3 records ((record xxh3 payload).take n) (file ++ (record xxh3 payload).take n) := by
  obtain ⟨front, hw, rfl⟩ := h.written
  exact ⟨⟨front, hw, by simp⟩, h.valid, h.ascending, h.positive,
    unsplit_record (lt_of_le_maxRecordLength hl) n hn⟩

theorem reset (h : Wal.Holds xxh3 records tail file) : Wal.Holds xxh3 [] [] (reset file) := by
  refine ⟨⟨header, rfl, ?_⟩, nofun, .nil, nofun, torn_nil⟩
  obtain ⟨front, hw, rfl⟩ := h.written
  obtain ⟨payloads, -, -, rfl⟩ := written_eq_ok.mp hw
  rw [append_assoc]
  exact take_left' rfl

end Wal.Holds

variable {xxh3 : List UInt8 → UInt64} {records : List WalRecord} {schema : TableSchema}
  {manifest : Manifest} {tail : List UInt8} {disk : Disk}

theorem Disk.Holds.load_eq {loaded : Manifest} (h : disk.Holds xxh3 schema manifest records tail)
    (hl : Manifest.load xxh3 schema disk.manifest = .ok loaded) : loaded = manifest := by
  rcases h.manifest_eq with hd | ⟨hd, hm⟩
  · rw [hd] at hl
    exact Manifest.load_some hl
  · rw [hd] at hl
    rw [hm]
    exact (Except.ok.inj hl).symm

theorem Disk.Holds.withManifest (h : disk.Holds xxh3 schema manifest records tail)
    (manifest' : Manifest) :
    Disk.Holds xxh3 schema manifest' records tail { disk with manifest := some manifest' } :=
  ⟨.inl rfl, h.log⟩

theorem Memtable.durable_applyAll {memtable : Memtable} {held rows : List StoredRow}
    {k : PrimaryKey} (h : memtable.rows[k]?.map durable = (latest held k).map durable) :
    (memtable.applyAll rows).rows[k]?.map durable =
      (latest (held ++ rows.map durable) k).map durable := by
  rw [getElem?_applyAll, latest_append, pick_map (f := durable) fun _ => rfl,
    pick_map (f := durable) fun _ => rfl, latest_map (f := durable) (fun _ =>
    rfl) fun _ => rfl, Option.map_map]
  congr 2
  exact funext fun row => (durable_durable row).symm

namespace TableStore

section Moves

variable {xxh3 : List UInt8 → UInt64} {records : List WalRecord} {s s' : TableStore} {world : World}
  {segment : Segment} {id : ℕ} {payload : List UInt8}

section Held

variable (h : s.Coherent xxh3 records)

include h

theorem Coherent.exists_log : ∃ file, s.disk.wal = some file ∧ Wal.Holds xxh3 records [] file := by
  obtain ⟨file, hf⟩ := Option.isSome_iff_exists.mp h.log_isSome
  have hlog := h.holds.log
  rw [hf] at hlog
  exact ⟨file, hf, hlog⟩

theorem Coherent.shown_eq (k : PrimaryKey) :
    Versioned.shown (diskRows s.schema s.manifest records) k = s.shown k := by
  rw [shown, rows, diskRows, Versioned.shown, Versioned.shown, latest_append, latest_append,
    latest_memtable,
    h.memtable_eq, latest_map (f := durable) (fun _ => rfl) fun _ => rfl]

theorem Coherent.generation_eq : s.disk.generation = s.manifest.generation := by
  unfold Disk.generation
  rcases h.holds.manifest_eq with he | ⟨he, hm⟩
  · rw [he]; rfl
  · rw [he, hm]; rfl

theorem Coherent.visible : s.Visible xxh3 :=
  ⟨records, [], h.holds, h.adapts, h.shown_eq⟩

theorem Coherent.congr (hd : s'.disk = s.disk) (hs : s'.schema = s.schema)
    (hm : s'.manifest = s.manifest) (ht : s'.memtable = s.memtable)
    (hl : s'.lastSequence = s.lastSequence) (hi : s'.tableId = s.tableId)
    (ho : s'.truncateWalOnFlush = s.truncateWalOnFlush) : s'.Coherent xxh3 records := by
  constructor
  · rw [hd, hs, hm]; exact h.holds
  · rw [hs, hm]; exact h.adapts
  · rw [hd]; exact h.log_isSome
  · rw [hi]; exact h.tableId_eq
  · rw [ho]; exact h.owns_log
  · rw [hl]; exact h.sequence_le
  · rw [hl, hm]; exact h.flushed_le
  · rw [ht, hs, hm]; exact h.memtable_eq
  · rw [ht, hs]; exact h.fits

theorem Coherent.withManifest (manifest : Manifest)
    (hf : manifest.flushedSequence = s.manifest.flushedSequence) :
    (s.withManifest manifest).Coherent xxh3 records where
  holds := ⟨.inl rfl, h.holds.log⟩
  adapts := by simpa [TableStore.withManifest, hf] using h.adapts
  log_isSome := h.log_isSome
  tableId_eq := h.tableId_eq
  owns_log := h.owns_log
  sequence_le := h.sequence_le
  flushed_le := by simpa [TableStore.withManifest, hf] using h.flushed_le
  memtable_eq := by simpa [TableStore.withManifest, hf] using h.memtable_eq
  fits := h.fits

theorem Coherent.length_values_of_fits :
    ∀ row ∈ s.memtable.values, row.values.length = s.schema.columns.length := fun row hr =>
  (validateRow_eq_ok.mp (h.fits row hr)).length_eq.symm

theorem Coherent.rowsUnder_flushed (hw : s.writeSegment world id s.memtable.values = .ok segment) :
    (s.withFlushed segment).manifest.rowsUnder s.schema =
      s.manifest.rowsUnder s.schema ++ s.memtable.values.map durable := by
  rw [← (Segment.written_of_write hw).rowsUnder_eq h.length_values_of_fits]
  simp [withFlushed, TableStore.withManifest, Manifest.flushed, Manifest.rowsUnder]

theorem Coherent.visible_withFlushed
    (hw : s.writeSegment world id s.memtable.values = .ok segment) :
    (s.withFlushed segment).Visible xxh3 := by
  refine ⟨records, [], ⟨.inl rfl, h.holds.log⟩, adapts_of_le h.sequence_le, fun k => ?_⟩
  change Versioned.shown ((s.withFlushed segment).manifest.rowsUnder s.schema ++
      (pendingRows s.schema s.lastSequence records).map durable) k =
    Versioned.shown ((s.withFlushed segment).manifest.rowsUnder s.schema ++
      s.memtable.values.map durable) k
  rw [pendingRows_of_le h.sequence_le, h.rowsUnder_flushed hw, map_nil, append_nil,
    Versioned.shown, Versioned.shown, latest_append, latest_append, latest_append, pick_assoc,
    pick_self]

theorem Coherent.afterFlush_eq (segment : Segment) :
    s.afterFlush segment = { s.withFlushed segment with memtable := .empty }.mapWal reset :=
  if_pos h.owns_log

theorem Coherent.afterFlush (segment : Segment) : (s.afterFlush segment).Coherent xxh3 [] := by
  rw [h.afterFlush_eq]
  obtain ⟨file, hf, hlog⟩ := h.exists_log
  refine ⟨⟨.inl rfl, ?_⟩, nofun, ?_, h.tableId_eq, h.owns_log, nofun, le_rfl, fun k => ?_,
    fun row hr => ?_⟩
  · simpa [mapWal, withFlushed, TableStore.withManifest, hf] using hlog.reset
  · simp [mapWal, withFlushed, TableStore.withManifest, hf]
  · simp [mapWal, empty]
  · simp [mapWal, mem_values, empty] at hr

theorem Coherent.visible_torn (hl : payload.length ≤ maxRecordLength) :
    ∀ v ∈ s.torn (record xxh3 payload), v.Visible xxh3 := by
  intro v hv
  obtain ⟨n, hn, rfl⟩ := mem_map.mp hv
  obtain ⟨file, hf, hlog⟩ := h.exists_log
  refine ⟨records, (record xxh3 payload).take n, ⟨h.holds.manifest_eq, ?_⟩, h.adapts,
    h.shown_eq⟩
  simpa [mapWal, hf] using hlog.append_take hl (mem_range.mp hn)

theorem Coherent.withRows {sequence : UInt64} {rows : List StoredRow}
    (hs : s.lastSequence < sequence) (hv : ∀ row ∈ rows, s.schema.validateRow row = .ok ())
    (hp : encodeBatch sequence s.tableId s.schema rows = .ok payload)
    (hl : payload.length ≤ maxRecordLength) :
    (s.withRows sequence (record xxh3 payload) rows).Coherent xxh3
      (records ++ [.batch sequence 0 s.schema rows]) := by
  rw [h.tableId_eq] at hp
  have hlt : ∀ r ∈ records, r.sequence < sequence := fun r hr => (h.sequence_le r hr).trans_lt hs
  obtain ⟨file, hf, hlog⟩ := h.exists_log
  refine ⟨⟨h.holds.manifest_eq, ?_⟩, adapts_append.mpr ⟨h.adapts, adapts_batch hv⟩, ?_, h.tableId_eq,
    h.owns_log, ?_, h.flushed_le.trans hs.le, fun k => ?_, fun row hr => ?_⟩
  · simpa [TableStore.withRows, mapWal, hf] using
      hlog.append (r := .batch sequence 0 s.schema rows) hp hl hv hlt (UInt64.zero_le.trans_lt hs)
  · simp [TableStore.withRows, mapWal, hf]
  · refine forall_mem_append.mpr ⟨fun r hr => (hlt r hr).le, ?_⟩
    simp [WalRecord.sequence, TableStore.withRows]
  · change ((s.memtable.applyAll rows).rows[k]?).map durable =
      (latest (pendingRows s.schema s.manifest.flushedSequence _) k).map durable
    rw [pendingRows_append, pendingRows_batch (h.flushed_le.trans_lt hs) hv]
    exact durable_applyAll (h.memtable_eq k)
  · rcases mem_of_mem_values_applyAll hr with hr | hr
    · exact h.fits row hr
    · exact hv row hr

end Held

/-- Every move leaves the files coherent with the handle, and shows them so on the way. -/
theorem Coherent.move {allows : TableStore → Growth → Prop} {visited : List TableStore}
    (hm : Move world allows s visited s') (h : s.Coherent world.xxh3 records) :
    (∀ v ∈ visited, v.Visible world.xxh3) ∧ ∃ records', s'.Coherent world.xxh3 records' := by
  -- most moves publish one manifest or none, and leave the log alone
  have hquiet : ∀ t : TableStore, t.Coherent world.xxh3 records →
      (∀ v ∈ [t], v.Visible world.xxh3) ∧ ∃ records', t.Coherent world.xxh3 records' := fun t ht =>
    ⟨by simpa using ht.visible, records, ht⟩
  cases hm with
  | ask | rowId | dropMerge | idTaken | staged | nothingNew | discarded =>
    refine ⟨by simp, records, ?_⟩
    exact h.congr rfl rfl rfl rfl rfl rfl rfl
  | spawn =>
    exact hquiet _ ((h.withManifest (s.manifest.reserve reservedSegmentIds) rfl).congr
      rfl rfl rfl rfl rfl rfl rfl)
  | @merged merge groups =>
    exact hquiet _ ((h.withManifest (s.manifest.merged merge.inputFiles groups.flatten) rfl).congr
      rfl rfl rfl rfl rfl rfl rfl)
  | @rewritten merge groups =>
    exact hquiet _ ((h.withManifest (s.manifest.rewritten (merge.inputFiles.zip groups)) rfl).congr
      rfl rfl rfl rfl rfl rfl rfl)
  | compacted => exact hquiet _ (h.withManifest _ rfl)
  | stagedIds =>
    exact hquiet _ ((h.withManifest (s.manifest.reserve stagedSegmentIds) rfl).congr
      rfl rfl rfl rfl rfl rfl rfl)
  | chunked => exact hquiet _ (h.withManifest _ rfl)
  | published =>
    exact hquiet _ ((h.withManifest s.withStagedPublished.manifest rfl).congr
      rfl rfl rfl rfl rfl rfl rfl)
  | @flush segment hne hw =>
    have hafter := h.afterFlush segment
    refine ⟨fun v hv => ?_, [], hafter⟩
    rw [duringFlush, if_pos h.owns_log] at hv
    rcases mem_cons.mp hv with rfl | hv
    · exact h.visible_withFlushed hw
    · rw [mem_singleton.mp hv]
      exact hafter.visible
  | written _ hs hv hp hl =>
    have hafter := h.withRows hs hv hp hl
    refine ⟨forall_mem_append.mpr ⟨h.visible_torn hl, ?_⟩, _, hafter⟩
    simpa using hafter.visible

end Moves

theorem Coherent.manifest_move {world : World} {allows : TableStore → Growth → Prop}
    {xxh3 : List UInt8 → UInt64} {records : List WalRecord} {s s' : TableStore}
    {visited : List TableStore} (hm : Move world allows s visited s')
    (h : s.Coherent xxh3 records) :
    (∀ v ∈ s' :: visited, v.disk.manifest = s.disk.manifest) ∨
      ∃ manifest, s.disk.generation < manifest.generation ∧
        ∀ v ∈ s' :: visited, v.disk.manifest = some manifest := by
  rw [h.generation_eq]
  have hnext : s.manifest.generation < s.manifest.generation + 1 := Nat.lt_succ_self _
  have hone : ∀ t : TableStore, s.manifest.generation < t.manifest.generation →
      t.disk.manifest = some t.manifest → ∃ manifest, s.manifest.generation < manifest.generation ∧
        ∀ v ∈ [t, t], v.disk.manifest = some manifest := fun t hlt ht =>
    ⟨t.manifest, hlt, by simpa using ht⟩
  cases hm with
  | ask | rowId | dropMerge | idTaken | staged | nothingNew | discarded =>
    refine .inl fun v hv => ?_
    obtain rfl := mem_singleton.mp hv
    rfl
  | spawn | merged | rewritten | compacted | stagedIds | chunked | published =>
    exact .inr (hone _ hnext rfl)
  | @flush segment =>
    refine .inr ⟨(s.withFlushed segment).manifest, hnext, ?_⟩
    have hafter : (s.afterFlush segment).disk.manifest = some (s.withFlushed segment).manifest := by
      rw [h.afterFlush_eq]
      rfl
    have hduring : (s.withFlushed segment).disk.manifest = some (s.withFlushed segment).manifest := rfl
    simp [duringFlush, hafter, hduring]
  | written =>
    refine .inl fun v hv => ?_
    simp only [torn, mem_cons, mem_append, mem_map, not_mem_nil, or_false] at hv
    rcases hv with rfl | ⟨n, -, rfl⟩ | rfl <;> rfl

end TableStore

end Pintail
