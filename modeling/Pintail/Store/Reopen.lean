import Mathlib.Data.List.DropRight
import Pintail.Store.Coherent

/-! # Reopening a table

An open finds what the files hold: the manifest without doubled segments, the log without its torn
tail and, on a table of local transactions, without what no commit record covers. The handle it
returns shows what those files hold, and every state of the files on the way holds it too.
-/

namespace Pintail

open Traced List Wal Memtable WalCommit WalRecord

instance : DecidablePred WalRecord.IsCommit
  | .batch .. => inferInstanceAs (Decidable False)
  | .commit .. => inferInstanceAs (Decidable True)

def committed (records : List WalRecord) : List WalRecord :=
  records.rdropWhile fun r => ¬ r.IsCommit

section Committed

variable {records : List WalRecord}

@[simp] theorem committed_append_commit (records : List WalRecord) (sequence version : UInt64) :
    committed (records ++ [.commit sequence version]) = records ++ [.commit sequence version] := by
  simp [committed]

@[simp] theorem committed_append_batch (records : List WalRecord) (sequence tableId : UInt64)
    (schema : TableSchema) (rows : List StoredRow) :
    committed (records ++ [.batch sequence tableId schema rows]) = committed records := by
  simp [committed]

theorem committed_sublist (records : List WalRecord) : (committed records).Sublist records :=
  (List.rdropWhile_prefix _ _).sublist

namespace Wal

theorem replayed_committed (records : List WalRecord) : let recovery := (replayed records).recovery
    let covered := recovery.lastCommit.elim 0 batches
    covered ≤ recovery.batches.length ∧
      (recovery.batches.length ≤ covered → committed records = records) ∧
      (replayed (committed records)).recovery = ⟨recovery.batches.take covered,
        recovery.lastCommit.elim 0 sequence, recovery.lastCommit⟩ ∧
      (replayed (committed records)).validLength =
        recovery.lastCommit.elim headerLength endOffset := by
  induction records using reverseRecOn with
  | nil => simp [replayed, Replay.start, committed]
  | append_singleton records r ih =>
    cases r with
    | commit sequence version =>
      simp [Replay.push]
    | batch sequence tableId schema rows =>
      obtain ⟨hle, -, hrec, hlen⟩ := ih
      rw [committed_append_batch, replayed_append_singleton]
      simp only [Replay.push, recovered, Option.toList_some, length_append,
        length_singleton] at hle hrec hlen ⊢
      refine ⟨by omega, fun hge => by omega, ?_, hlen⟩
      rw [hrec, take_append_of_le_length hle]

variable {xxh3 : List UInt8 → UInt64} {file tail : List UInt8}

theorem written_append {records more : List WalRecord}
    (h : written xxh3 (records ++ more) = .ok file) :
    ∃ front rest, written xxh3 records = .ok front ∧ file = front ++ rest := by
  induction more using reverseRecOn generalizing file with
  | nil => exact ⟨file, [], by simpa using h, by simp⟩
  | append_singleton more r ih =>
    rw [← append_assoc] at h
    obtain ⟨file', hf, ha⟩ := written_append_singleton.mp h
    obtain ⟨front, rest, hw, rfl⟩ := ih hf
    obtain ⟨payload, -, -, rfl⟩ := append_eq_ok.mp ha
    exact ⟨front, rest ++ record xxh3 payload, hw, by simp⟩

theorem Holds.committed (h : Wal.Holds xxh3 records [] file) :
    Wal.Holds xxh3 (Pintail.committed records) [] (truncateTo
      ((replayed records).recovery.lastCommit.elim headerLength endOffset) file) := by
  obtain ⟨front, hw, rfl⟩ := h.written
  obtain ⟨more, hmore⟩ := rdropWhile_prefix (fun r : WalRecord => decide (¬ r.IsCommit)) records
  change Pintail.committed records ++ more = records at hmore
  rw [← hmore] at hw
  obtain ⟨front', rest, hw', rfl⟩ := written_append hw
  have hsub := committed_sublist records
  obtain ⟨-, -, -, hlen⟩ := replayed_committed records
  refine ⟨⟨front', hw', ?_⟩, fun r hr => h.valid r (hsub.mem hr), h.ascending.sublist hsub,
    fun r hr => h.positive r (hsub.mem hr), torn_nil⟩
  rw [truncateTo, ← hlen, ← length_written hw', append_nil, append_nil, take_left]

theorem Holds.sequence_le (h : Wal.Holds xxh3 records tail file) :
    ∀ r ∈ records, r.sequence ≤ (replayed records).recovery.lastSequence := by
  have hs := h.ascending
  induction records using reverseRecOn with
  | nil => nofun
  | append_singleton records last ih =>
    rw [replayed_append_singleton, push_lastSequence]
    obtain ⟨-, -, hlast⟩ := pairwise_append.mp hs
    refine forall_mem_append.mpr ⟨fun r hr => (hlast r hr last (by simp)).le, by simp⟩

theorem lastSequence_le {bound : UInt64} (h : ∀ r ∈ records, r.sequence ≤ bound) :
    (replayed records).recovery.lastSequence ≤ bound := by
  rcases eq_nil_or_concat records with rfl | ⟨front, last, rfl⟩
  · exact UInt64.zero_le
  · rw [concat_eq_append, replayed_append_singleton, push_lastSequence]
    exact h last (by simp)

theorem Holds.open_eq {wal : Option (List UInt8)}
    (h : Wal.Holds xxh3 records tail (wal.getD header)) :
    ∃ left, Wal.open xxh3 (wal.getD []) = .ok ((replayed records).recovery, left) ∧
      Wal.Holds xxh3 records [] left := by
  obtain ⟨front, hw, hfile⟩ := h.written
  have hopen : Wal.open xxh3 (wal.getD []) = recover xxh3 true (wal.getD header) := by
    cases wal with
    | none => rfl
    | some file =>
      rw [Wal.open, if_neg]
      · rfl
      · rintro rfl
        obtain ⟨payloads, -, -, rfl⟩ := written_eq_ok.mp hw
        cases hfile
  refine ⟨front, ?_, ⟨front, hw, by simp⟩, h.valid, h.ascending, h.positive, torn_nil⟩
  rw [hopen, hfile, recover_written true hw h.valid h.ascending h.positive h.torn]
  rfl

end Wal

end Committed

/-- A property of what the files hold that the repairs of an open keep. -/
structure OpenKeeps (xxh3 : List UInt8 → UInt64) (schema : TableSchema) (options : StoreOptions)
    (K : Manifest → List WalRecord → Prop) : Prop where
  collapsed : ∀ manifest records, K manifest records → K manifest.collapsed records
  upgraded : ∀ manifest records, K manifest records → K (manifest.upgraded xxh3 schema) records
  committed : ∀ manifest records, options.transactional = true → K manifest records →
    K manifest (committed records)
  covered : ∀ manifest records, K manifest records →
    (∀ r ∈ records, r.sequence ≤ manifest.flushedSequence) → K manifest []

/-- Nothing stands in the way of an open of files that hold the manifest and the records. -/
structure Openable (xxh3 : List UInt8 → UInt64) (schema : TableSchema) (options : StoreOptions)
    (K : Manifest → List WalRecord → Prop) (disk : Disk) (records : List WalRecord) : Prop where
  valid : options.validate = .ok ()
  loads : ∃ manifest, Manifest.load xxh3 schema disk.manifest = .ok manifest ∧
    TableStore.checkSegments schema manifest = .ok ()
  complete : disk.manifest = none → ∀ batch ∈ records.filterMap recovered,
    batch.tableId = 0 → ∃ first ∈ records.filterMap recovered,
      first.tableId = 0 ∧ first.sequence ≤ 1
  adapts : ∀ manifest records, K manifest records → Adapts schema manifest.flushedSequence records
  numbered : ∀ manifest records, K manifest records → ∃ next, findNextAppendRowId manifest schema
    (empty.applyAll (pendingRows schema manifest.flushedSequence records)) = .ok next

namespace TableStore

section Open

variable {world : World} {schema : TableSchema} {options : StoreOptions}
  {K : Manifest → List WalRecord → Prop} {manifest : Manifest} {records : List WalRecord}
  {tail : List UInt8} {disk : Disk} {E : Prop}

/-- Every visible state of the files holds a manifest and records with the property. -/
abbrev HoldsOnly (xxh3 : List UInt8 → UInt64) (schema : TableSchema)
    (K : Manifest → List WalRecord → Prop) (_ : Disk) (visited : List Disk) (_ : Disk) : Prop :=
  ∀ d ∈ visited, ∃ manifest records tail, d.Holds xxh3 schema manifest records tail ∧
    K manifest records

theorem holds_mapWal {records' : List WalRecord} {f : List UInt8 → List UInt8}
    (h : disk.Holds world.xxh3 schema manifest records []) (hlog : disk.wal.isSome = true)
    (hf : ∀ file, Wal.Holds world.xxh3 records [] file → Wal.Holds world.xxh3 records' [] (f file)) :
    Disk.Holds world.xxh3 schema manifest records' [] { disk with wal := disk.wal.map f } := by
  obtain ⟨file, hfile⟩ := Option.isSome_iff_exists.mp hlog
  have hl := h.log
  rw [hfile] at hl
  refine ⟨h.manifest_eq, ?_⟩
  rw [hfile]
  exact hf file hl

theorem walks_openWal (h : disk.Holds world.xxh3 schema manifest records tail)
    (hk : K manifest records) :
    Walks (HoldsOnly world.xxh3 schema K) (openWal world)
      (fun recovery d => d.Holds world.xxh3 schema manifest records [] ∧ d.wal.isSome = true ∧
        d.manifest = disk.manifest ∧ recovery = (replayed records).recovery)
      (fun _ _ => E) disk := by
  obtain ⟨left, hopen, hleft⟩ := h.log.open_eq
  have hd : Disk.Holds world.xxh3 schema manifest records [] { disk with wal := some left } :=
    ⟨h.manifest_eq, hleft⟩
  refine walks_bind (walks_get (walks_bind ?_))
  rw [hopen]
  refine walks_lift (fun a ha => ?_) nofun
  cases ha
  exact walks_bind (walks_publish (forall_mem_singleton.mpr ⟨manifest, records, [], hd, hk⟩)
    (walks_pure ⟨hd, rfl, rfl, rfl⟩))

section Keeps

variable (hK : OpenKeeps world.xxh3 schema options K)
  (h : disk.Holds world.xxh3 schema manifest records []) (hk : K manifest records)

include hK h hk

theorem walks_collapseIdenticalSegments :
    Walks (HoldsOnly world.xxh3 schema K) (collapseIdenticalSegments manifest)
      (fun manifest' d => d.Holds world.xxh3 schema manifest' records [] ∧ d.wal = disk.wal ∧
        K manifest' records) (fun _ _ => E) disk := by
  unfold collapseIdenticalSegments
  split_ifs
  · exact walks_pure ⟨h, rfl, hk⟩
  · have hk' := hK.collapsed _ _ hk
    have hd := h.withManifest manifest.collapsed
    exact walks_bind (walks_publish (forall_mem_singleton.mpr ⟨_, _, _, hd, hk'⟩)
      (walks_pure ⟨hd, rfl, hk'⟩))

theorem walks_settleCommits (hlog : disk.wal.isSome = true) :
    Walks (HoldsOnly world.xxh3 schema K) (settleCommits options (replayed records).recovery)
      (fun recovery d => ∃ records', d.Holds world.xxh3 schema manifest records' [] ∧
        d.wal.isSome = true ∧ K manifest records' ∧
        recovery = (replayed records').recovery) (fun _ _ => E) disk := by
  unfold settleCommits
  split_ifs with ht
  · have hk' := hK.committed _ _ ht hk
    obtain ⟨-, hall, hrec, -⟩ := replayed_committed records
    unfold dropUncommitted
    dsimp only
    rw [← hrec]
    refine walks_bind (walks_when (fun _ => ?_) fun hno => walks_pure ?_)
    · have hd := holds_mapWal h hlog fun _ => Wal.Holds.committed
      exact walks_publish (forall_mem_singleton.mpr ⟨_, _, _, hd, hk'⟩)
        (walks_pure ⟨_, hd, by simp [hlog], hk', rfl⟩)
    · rw [hall (not_lt.mp (of_decide_eq_false hno))] at hk' ⊢
      exact ⟨records, h, hlog, hk', rfl⟩
  · exact walks_pure ⟨records, h, hlog, hk, rfl⟩

theorem walks_replayLog (hlog : disk.wal.isSome = true)
    (hE : ¬ Adapts schema manifest.flushedSequence records → E) :
    Walks (HoldsOnly world.xxh3 schema K)
      (replayLog 0 schema true manifest (replayed records).recovery)
      (fun memtable d => Adapts schema manifest.flushedSequence records ∧
        memtable = empty.applyAll (pendingRows schema manifest.flushedSequence records) ∧
        ∃ records', d.Holds world.xxh3 schema manifest records' [] ∧ d.wal.isSome = true ∧
          K manifest records' ∧ (records' = records ∨ records' = [] ∧
            ∀ r ∈ records, r.sequence ≤ manifest.flushedSequence)) (fun _ _ => E) disk := by
  unfold replayLog
  rw [replayed_batches]
  refine walks_bind (walks_lift (fun memtable hm => ?_) fun e he => hE fun ha => ?_)
  swap
  · rw [replayBatches_eq_ok.mpr ⟨ha, rfl⟩] at he
    cases he
  obtain ⟨ha, rfl⟩ := replayBatches_eq_ok.mp hm
  refine walks_bind (walks_when (fun hcovered => ?_) fun _ => walks_pure
    ⟨ha, rfl, records, h, hlog, hk, .inl rfl⟩)
  have hle : ∀ r ∈ records, r.sequence ≤ manifest.flushedSequence := by
    simp only [Bool.and_eq_true, decide_eq_true_eq] at hcovered
    exact fun r hr => (h.log.sequence_le r hr).trans hcovered.2
  have hk' := hK.covered _ _ hk hle
  have hd := holds_mapWal h hlog fun _ => Wal.Holds.reset
  exact walks_publish (forall_mem_singleton.mpr ⟨_, _, _, hd, hk'⟩)
    (walks_pure ⟨ha, rfl, [], hd, by simp [hlog], hk', .inr ⟨rfl, hle⟩⟩)

theorem walks_settleSchema {loaded : Manifest} :
    Walks (HoldsOnly world.xxh3 schema K) (settleSchema world loaded manifest schema)
      (fun manifest' d => d.Holds world.xxh3 schema manifest' records [] ∧ d.wal = disk.wal ∧
        (manifest' = manifest ∨ manifest' = manifest.upgraded world.xxh3 schema))
      (fun _ _ => E) disk := by
  unfold settleSchema publishSchemaUpgrade
  split_ifs
  · have hk' := hK.upgraded _ _ hk
    have hd := h.withManifest (manifest.upgraded world.xxh3 schema)
    exact walks_bind (walks_publish (forall_mem_singleton.mpr ⟨_, _, _, hd, hk'⟩)
      (walks_pure ⟨hd, rfl, .inr rfl⟩))
  · exact walks_pure ⟨h, rfl, .inl rfl⟩

omit h hk

theorem walks_recoverLog {disk0 : Disk} (h : disk.Holds world.xxh3 schema manifest records tail)
    (hd : disk0.manifest = disk.manifest) (hk : K manifest records) :
    Walks (HoldsOnly world.xxh3 schema K) (recoverLog world 0 options true manifest)
      (fun result d => ∃ records', d.Holds world.xxh3 schema result.1 records' [] ∧
        d.wal.isSome = true ∧ K result.1 records' ∧
        result.2 = (replayed records').recovery)
      (fun _ _ => ¬ Openable world.xxh3 schema options K disk0 records) disk := by
  apply (walks_openWal h hk).bind
  rintro _ d ⟨hd1, hlog, hman, rfl⟩
  refine walks_bind (walks_get (walks_bind (walks_lift (fun _ _ => ?_) fun e he ho => ?_)))
  · apply (walks_collapseIdenticalSegments hK hd1 hk).bind
    rintro manifest' d' ⟨hd2, hwal, hk2⟩
    rw [← hwal] at hlog
    apply (walks_settleCommits hK hd2 hk2 hlog).bind
    exact fun recovery d'' hd3 => walks_pure hd3
  · -- the check for a lost manifest only looks at whether the log starts at the first write
    unfold refuseALostManifest at he
    rw [hman, replayed_batches] at he
    simp only at he
    split_ifs at he with hsome hlost
    have hnone : disk0.manifest = none := by simpa [hd] using hsome
    cases hleast : (((records.filterMap recovered).filter fun batch =>
        batch.tableId == 0).map RecoveredBatch.sequence).min? with
    | none => simp [hleast] at hlost
    | some least =>
    rw [hleast, Option.any_some, decide_eq_true_eq] at hlost
    obtain ⟨hmem, hle⟩ := min?_eq_some_iff.mp hleast
    obtain ⟨batch, hbatch, -⟩ := mem_map.mp hmem
    rw [mem_filter] at hbatch
    obtain ⟨first, hfirst, hid, hone⟩ := ho.complete hnone batch hbatch.1 (by simpa using hbatch.2)
    have hmin := hle first.sequence (mem_map_of_mem (mem_filter.mpr ⟨hfirst, by simp [hid]⟩))
    exact absurd hlost (not_lt.mpr (hmin.trans hone))

end Keeps

/-- The version an open takes for the last committed or applied. -/
def openedVersion (options : StoreOptions) (manifest : Manifest) (records : List WalRecord) :
    UInt64 :=
  if options.transactional then
    max manifest.committedVersion
      ((replayed records).recovery.lastCommit.elim 0 WalCommit.version)
  else (manifest.segments.map Segment.maxVersion).foldl max manifest.committedVersion

structure Opened (xxh3 : List UInt8 → UInt64) (schema : TableSchema) (options : StoreOptions)
    (K : Manifest → List WalRecord → Prop) (store : TableStore) (records : List WalRecord) :
    Prop where
  coherent : store.Coherent xxh3 records
  keeps : K store.manifest records
  schema_eq : store.schema = schema
  options_eq : store.options = options
  background_eq : store.background = none
  staged_eq : store.staged = []
  stagedIds_eq : store.stagedIds = (0, 0)
  lastSequence_eq : store.lastSequence =
    max (replayed records).recovery.lastSequence store.manifest.flushedSequence
  memtable_eq : store.memtable =
    empty.applyAll (pendingRows schema store.manifest.flushedSequence records)
  nextAppendRowId_eq :
    findNextAppendRowId store.manifest schema store.memtable = .ok store.nextAppendRowId
  -- a log the manifest covers is cut back after its last commit has been read
  commitVersion_eq : ∃ before, K store.manifest before ∧
    (records = before ∨ records = [] ∧
      ∀ r ∈ before, r.sequence ≤ store.manifest.flushedSequence) ∧
    store.commitVersion = openedVersion options store.manifest before

theorem walks_open (hK : OpenKeeps world.xxh3 schema options K)
    (h : disk.Holds world.xxh3 schema manifest records tail) (hk : K manifest records) :
    Walks (HoldsOnly world.xxh3 schema K) (TableStore.open world schema options)
      (fun store d => store.disk = d ∧ ∃ records',
        Opened world.xxh3 schema options K store records')
      (fun _ _ => ¬ Openable world.xxh3 schema options K disk records) disk := by
  refine walks_bind (walks_lift (fun _ _ => ?_) fun e he ho => ?_)
  · refine walks_bind (walks_get (walks_bind (walks_lift (fun loaded hload => ?_) fun e he ho => ?_)))
    · have hm : loaded = manifest := h.load_eq hload
      subst hm
      refine walks_bind (walks_lift (fun _ _ => ?_) fun e he ho => ?_)
      · apply (walks_recoverLog hK h rfl hk).bind
        rintro ⟨manifest1, recovery⟩ d1 ⟨records1, hd1, hlog1, hk1, rfl⟩
        refine (walks_replayLog hK hd1 hk1 hlog1 fun hno ho =>
          hno (ho.adapts _ _ hk1)).bind ?_
        rintro memtable d2 ⟨hadapts, rfl, records2, hd2, hlog2, hk2, hrecords⟩
        apply (walks_settleSchema hK hd2 hk2).bind
        rintro manifest2 d3 ⟨hd3, hwal3, hmanifest⟩
        have hf : manifest2.flushedSequence = manifest1.flushedSequence := by
          rcases hmanifest with rfl | rfl <;> rfl
        have hk' : ∀ records, K manifest1 records → K manifest2 records := by
          rcases hmanifest with rfl | rfl
          · exact fun _ => id
          · exact fun _ => hK.upgraded _ _
        have hpending : pendingRows schema manifest1.flushedSequence records1 =
            pendingRows schema manifest1.flushedSequence records2 := by
          rcases hrecords with rfl | ⟨rfl, hle⟩
          · rfl
          · rw [pendingRows_of_le hle, pendingRows_nil]
        have hadapts2 : Adapts schema manifest2.flushedSequence records2 := by
          rw [hf]
          rcases hrecords with rfl | ⟨rfl, -⟩
          · exact hadapts
          · exact adapts_of_le nofun
        refine walks_bind (walks_lift (fun next hnext => ?_) fun e he ho => ?_)
        · have hlast : max (replayed records1).recovery.lastSequence manifest2.flushedSequence =
              max (replayed records2).recovery.lastSequence manifest2.flushedSequence := by
            rcases hrecords with rfl | ⟨rfl, hle⟩
            · rfl
            · rw [max_eq_right (lastSequence_le (hf ▸ hle))]
              exact (max_eq_right UInt64.zero_le).symm
          rw [hpending, ← hf] at hnext ⊢
          refine walks_bind (walks_get (walks_pure ⟨rfl, records2, ⟨?_, hk' _ hk2, rfl, rfl, rfl, rfl,
            rfl, hlast, rfl, hnext, records1, hk' _ hk1, hf ▸ hrecords, rfl⟩⟩))
          refine ⟨hd3, hadapts2, by rw [hwal3]; exact hlog2, rfl, rfl, fun r hr => ?_, le_max_right _ _,
            fun k => ?_, fun row hr => ?_⟩
          · exact (hd3.log.sequence_le r hr).trans ((le_max_left _ _).trans_eq hlast.symm)
          · rw [getElem?_applyAll]
            rfl
          · rcases mem_of_mem_values_applyAll hr with hr | hr
            · simp [mem_values, empty] at hr
            · exact validateRow_of_mem_pendingRows hr
        · obtain ⟨next, hnext⟩ := ho.numbered _ _ (hk' _ hk1)
          rw [hf, he] at hnext
          cases hnext
      · obtain ⟨m, hm, hc⟩ := ho.loads
        obtain rfl := Except.ok.inj (hload.symm.trans hm)
        rw [hc] at he
        cases he
    · obtain ⟨m, hm, -⟩ := ho.loads
      rw [hm] at he
      cases he
  · rw [ho.valid] at he
    cases he

end Open

end TableStore

end Pintail
