import Pintail.Store.Reopen

/-! # The steps of a commit

A commit writes its batch and then its commit record. Whatever part of a step reaches the file, the
log holds the records it held before, perhaps followed by the batch or by both, and perhaps by bytes
of the next. Only when both steps and the sync succeed are the rows applied.
-/

namespace Pintail

open Versioned Traced List

namespace Wal

variable {xxh3 : List UInt8 → UInt64} {records : List WalRecord} {file : List UInt8}

/-- What trying to append a record leaves behind: the record, nothing or torn bytes of it, or the
record although the append failed. -/
inductive Tried (xxh3 : List UInt8 → UInt64) (records : List WalRecord) (r : WalRecord)
    (fault : Option AppendFault) : Except StoreError Unit → List UInt8 → Prop
  | done {file : List UInt8} (h : Wal.Holds xxh3 (records ++ [r]) [] file) :
    Tried xxh3 records r fault (.ok ()) file
  | undone {file tail : List UInt8} (e : StoreError) (h : Wal.Holds xxh3 records tail file) :
    Tried xxh3 records r fault (.error e) file
  | kept {file : List UInt8} (e : StoreError) (h : Wal.Holds xxh3 (records ++ [r]) [] file)
    (hf : ∃ f, fault = some f ∧ f.rolledBack = false ∧ r.size ≤ f.written) :
    Tried xxh3 records r fault (.error e) file

section Attempt

variable {r : WalRecord} {fault : Option AppendFault}

theorem Holds.writeRecord (h : Wal.Holds xxh3 records [] file) (hv : r.Valid)
    (hs : ∀ r' ∈ records, r'.sequence < r.sequence) (h0 : 0 < r.sequence) {payload : List UInt8}
    (hp : r.payload = .ok payload) (hl : payload.length ≤ maxRecordLength) (what : String) :
    Tried xxh3 records r fault (writeRecord xxh3 what payload fault file).1
      (writeRecord xxh3 what payload fault file).2 := by
  have hwhole := h.append hp hl hv hs h0
  cases fault with
  | none => exact .done hwhole
  | some f =>
    rcases hr : f.rolledBack with _ | _
    · simp only [Wal.writeRecord, hr]
      by_cases hn : f.written < (record xxh3 payload).length
      · exact .undone _ (h.append_take hl hn)
      · rw [take_of_length_le (not_lt.mp hn)]
        refine .kept _ hwhole ⟨f, rfl, hr, ?_⟩
        rw [length_record] at hn
        simpa [WalRecord.size, hp] using hn
    · simp only [Wal.writeRecord, hr]
      exact .undone _ h

theorem Holds.attempt (h : Wal.Holds xxh3 records [] file) (hv : r.Valid)
    (hs : ∀ r' ∈ records, r'.sequence < r.sequence) (h0 : 0 < r.sequence) :
    Tried xxh3 records r fault (r.attempt xxh3 fault file).1 (r.attempt xxh3 fault file).2 := by
  cases r with
  | commit sequence version =>
    exact h.writeRecord hv hs h0 rfl (by simp [encodeCommit, maxRecordLength]) _
  | batch sequence tableId schema rows =>
    simp only [WalRecord.attempt, Wal.append]
    cases hp : encodeBatch sequence tableId schema rows with
    | error e => exact .undone e h
    | ok payload =>
      dsimp only [appendEncoded]
      split_ifs with hl
      · exact .undone _ h
      · exact h.writeRecord hv hs h0 hp (not_lt.mp hl) _

end Attempt

theorem Holds.append_take_bytes (h : Wal.Holds xxh3 records [] file) {r : WalRecord} {n : ℕ}
    (hn : n < (r.bytes xxh3).length) :
    ∃ tail, Wal.Holds xxh3 records tail (file ++ (r.bytes xxh3).take n) := by
  revert hn
  unfold WalRecord.bytes
  cases r.payload with
  | error e => exact fun hn => absurd hn (by simp)
  | ok payload =>
    dsimp only
    split_ifs with hl
    · exact fun hn => absurd hn (by simp)
    · exact fun hn => ⟨_, h.append_take (not_lt.mp hl) hn⟩

end Wal

namespace TableStore

def withLog (file : List UInt8) (store : TableStore) : TableStore :=
  { store with disk.wal := some file }

/-- The records of the batch of a commit; no rows make none. -/
def batchRecords (store : TableStore) (rows : List StoredRow) : List WalRecord :=
  if rows = [] then []
  else [.batch (store.lastSequence + 1) store.tableId store.schema (store.stamped rows)]

def commitRecord (store : TableStore) : WalRecord :=
  .commit (store.lastSequence + 1 + 1) (store.commitVersion + 1)

def transaction (store : TableStore) (rows : List StoredRow) : List WalRecord :=
  store.batchRecords rows ++ [store.commitRecord]

def afterCommit (file : List UInt8) (rows : List StoredRow) (store : TableStore) : TableStore :=
  (store.withLog file).withCommit (store.stamped rows) (store.lastSequence + 1 + 1)
    (store.commitVersion + 1)

/-- Some failure of a commit leaves its commit record in the log. -/
def CommitFaults.KeepCommit (faults : CommitFaults) : Prop :=
  faults.sync = true ∨ ∃ f, faults.commit = some f ∧ f.rolledBack = false ∧ 36 ≤ f.written

section Commit

variable {world : World} {s : TableStore} {records : List WalRecord} {file : List UInt8}
  {P : TableStore → Prop} {E : StoreError → TableStore → Prop}

theorem walks_logStep {r : WalRecord} {fault : Option Wal.AppendFault} (hf : s.disk.wal = some file)
    (h : Wal.Holds world.xxh3 records [] file) (hv : r.Valid)
    (hs : ∀ r' ∈ records, r'.sequence < r.sequence) (h0 : 0 < r.sequence)
    (hbefore : ∀ tail file', Wal.Holds world.xxh3 records tail file' → P (s.withLog file'))
    (hafter : ∀ file', Wal.Holds world.xxh3 (records ++ [r]) [] file' → P (s.withLog file'))
    (hundone : ∀ e tail file', Wal.Holds world.xxh3 records tail file' → E e (s.withLog file'))
    (hkept : ∀ e file', Wal.Holds world.xxh3 (records ++ [r]) [] file' →
      (∃ f, fault = some f ∧ f.rolledBack = false ∧ r.size ≤ f.written) → E e (s.withLog file')) :
    Walks (fun _ visited _ => ∀ v ∈ visited, P v) (logStep world.xxh3 r fault)
      (fun _ s' => ∃ file', s' = s.withLog file' ∧
        Wal.Holds world.xxh3 (records ++ [r]) [] file') E s := by
  have hrun : logStep world.xxh3 r fault s = ⟨s.torn (r.bytes world.xxh3) ++
      [s.withLog (r.attempt world.xxh3 fault file).2],
      s.withLog (r.attempt world.xxh3 fault file).2, (r.attempt world.xxh3 fault file).1⟩ := by
    simp [logStep, run_bind, hf, withLog]
  have htorn : ∀ v ∈ s.torn (r.bytes world.xxh3), P v := by
    intro v hv
    obtain ⟨n, hn, rfl⟩ := mem_map.mp hv
    obtain ⟨tail, ht⟩ := h.append_take_bytes (mem_range.mp hn)
    have he : s.mapWal (· ++ (r.bytes world.xxh3).take n) =
        s.withLog (file ++ (r.bytes world.xxh3).take n) := by
      simp [mapWal, withLog, hf]
    rw [he]
    exact hbefore tail _ ht
  unfold Walks
  rw [hrun]
  have htried : Wal.Tried world.xxh3 records r fault (r.attempt world.xxh3 fault file).1
      (r.attempt world.xxh3 fault file).2 := h.attempt hv hs h0
  revert htried
  generalize r.attempt world.xxh3 fault file = result
  obtain ⟨result, file'⟩ := result
  rintro (hdone | ⟨e, hundo⟩ | ⟨e, hkeep, hfault⟩)
  · exact ⟨.single (forall_mem_append.mpr ⟨htorn, by simpa using hafter _ hdone⟩), _, rfl, hdone⟩
  · exact ⟨.single (forall_mem_append.mpr ⟨htorn, by simpa using hbefore _ _ hundo⟩),
      hundone _ _ _ hundo⟩
  · exact ⟨.single (forall_mem_append.mpr ⟨htorn, by simpa using hafter _ hkeep⟩),
      hkept _ _ hkeep hfault⟩

theorem withLog_self (h : s.disk.wal = some file) : s.withLog file = s := by
  obtain ⟨⟨manifest, wal⟩, _⟩ := s
  obtain rfl : wal = some file := h
  rfl

/-- The state a failed commit leaves: the handle as it was, and in the log perhaps some of the
transaction. -/
def CommitFailed (xxh3 : List UInt8 → UInt64) (s : TableStore) (records : List WalRecord)
    (rows : List StoredRow) (faults : CommitFaults) (s' : TableStore) : Prop :=
  ∃ more tail file, s' = s.withLog file ∧ Wal.Holds xxh3 (records ++ more) tail file ∧
    more <+: s.transaction rows ∧ (more = s.transaction rows → faults.KeepCommit)

/-- What has to hold for a commit to reach its log steps. -/
structure CanCommit (s : TableStore) (rows : List StoredRow) : Prop where
  transactional : s.options.transactional = true
  version_ne : s.commitVersion ≠ maxRowId
  valid : ∀ row ∈ s.stamped rows, s.schema.validateRow row = .ok ()
  sequence_ne : s.lastSequence ≠ maxRowId
  commitSequence_ne : s.lastSequence + 1 ≠ maxRowId

theorem walks_flushAndAdvance : Walks (Upkeep world) (do
    let _ ← flush world
    advanceCompaction world) (fun _ _ => True) (fun _ s' => ¬ s'.Healthy) s :=
  walks_flush.bind fun _ _ _ => walks_advanceCompaction

section Steps

variable {rows : List StoredRow} {faults : CommitFaults}

theorem CanCommit.lt_sequence (h : s.CanCommit rows) : s.lastSequence < s.lastSequence + 1 :=
  UInt64.lt_add_one h.sequence_ne

theorem CanCommit.lt_commitSequence (h : s.CanCommit rows) :
    s.lastSequence + 1 < s.lastSequence + 1 + 1 := UInt64.lt_add_one h.commitSequence_ne

theorem batchRecords_prefix_transaction : s.batchRecords rows <+: s.transaction rows :=
  prefix_append _ _

theorem batchRecords_ne_transaction : s.batchRecords rows ≠ s.transaction rows := by
  simp [transaction]

theorem sequence_lt_of_mem_batchRecords (hc : s.Coherent world.xxh3 records)
    (hs : s.lastSequence < s.lastSequence + 1) {n : UInt64} (hn : s.lastSequence + 1 < n) :
    ∀ r ∈ records ++ s.batchRecords rows, r.sequence < n := by
  refine forall_mem_append.mpr ⟨fun r hr => ?_, fun r hr => ?_⟩
  · exact (hc.sequence_le r hr).trans_lt (hs.trans hn)
  · unfold batchRecords at hr
    split_ifs at hr
    · cases hr
    · rw [mem_singleton.mp hr]
      exact hn

variable (hc : s.Coherent world.xxh3 records)
  (hlog : ∀ more tail file, more <+: s.transaction rows →
    Wal.Holds world.xxh3 (records ++ more) tail file → P (s.withLog file))

include hc hlog

theorem walks_logBatch (hvalid : ∀ row ∈ s.stamped rows, s.schema.validateRow row = .ok ())
    (hs : s.lastSequence < s.lastSequence + 1) :
    Walks (fun _ visited _ => ∀ v ∈ visited, P v) (when (!(s.stamped rows).isEmpty)
        (logStep world.xxh3 (.batch (s.lastSequence + 1) s.tableId s.schema (s.stamped rows))
          faults.batch))
      (fun _ s' => ∃ file, s' = s.withLog file ∧
        Wal.Holds world.xxh3 (records ++ s.batchRecords rows) [] file)
      (fun _ s' => CommitFailed world.xxh3 s records rows faults s') s := by
  obtain ⟨file, hf, hheld⟩ := hc.exists_log
  refine walks_when (fun hne => ?_) fun he => ?_
  · have hrows : rows ≠ [] := by
      rintro rfl
      cases hne
    have hb : s.batchRecords rows =
        [.batch (s.lastSequence + 1) s.tableId s.schema (s.stamped rows)] := if_neg hrows
    rw [hb]
    have hpre : s.batchRecords rows <+: s.transaction rows := batchRecords_prefix_transaction
    have hnot : s.batchRecords rows ≠ s.transaction rows := batchRecords_ne_transaction
    rw [hb] at hpre hnot
    refine walks_logStep hf hheld hvalid (fun r hr => (hc.sequence_le r hr).trans_lt hs)
      (UInt64.zero_le.trans_lt hs) (fun tail file' h => ?_) (fun file' h => hlog _ _ _ hpre h)
      (fun e tail file' h => ?_) fun e file' h _ => ?_
    · exact hlog [] tail file' nil_prefix (by simpa using h)
    · exact ⟨[], tail, file', rfl, by simpa using h, nil_prefix, by simp [transaction]⟩
    · exact ⟨_, [], file', rfl, h, hpre, fun he => absurd he hnot⟩
  · have hrows : rows = [] := by simpa [stamped] using he
    refine ⟨file, (withLog_self hf).symm, ?_⟩
    simpa [batchRecords, hrows] using hheld

theorem walks_logCommit (hcan : s.CanCommit rows) {file : List UInt8}
    (hheld : Wal.Holds world.xxh3 (records ++ s.batchRecords rows) [] file) :
    Walks (fun _ visited _ => ∀ v ∈ visited, P v)
      (logStep world.xxh3 s.commitRecord faults.commit) (fun _ s' => ∃ file, s' = s.withLog file ∧
        Wal.Holds world.xxh3 (records ++ s.transaction rows) [] file)
      (fun _ s' => CommitFailed world.xxh3 s records rows faults s') (s.withLog file) := by
  have hwhole : records ++ s.batchRecords rows ++ [s.commitRecord] = records ++ s.transaction rows :=
    by rw [transaction, append_assoc]
  have hlt := hcan.lt_commitSequence
  have hwalk : Walks (fun _ visited _ => ∀ v ∈ visited, P v)
      (logStep world.xxh3 s.commitRecord faults.commit)
      (fun _ s' => ∃ file', s' = (s.withLog file).withLog file' ∧
        Wal.Holds world.xxh3 (records ++ s.batchRecords rows ++ [s.commitRecord]) [] file')
      (fun _ s' => CommitFailed world.xxh3 s records rows faults s') (s.withLog file) :=
    walks_logStep rfl hheld trivial
      (sequence_lt_of_mem_batchRecords hc hcan.lt_sequence hlt)
      (UInt64.zero_le.trans_lt (hcan.lt_sequence.trans hlt))
      (fun tail file' h => hlog _ _ _ batchRecords_prefix_transaction h)
      (fun file' h => hlog _ _ _ prefix_rfl (hwhole ▸ h))
      (fun e tail file' h => ⟨_, tail, file', rfl, h, batchRecords_prefix_transaction,
        fun he => absurd he batchRecords_ne_transaction⟩)
      (fun e file' h hfault => ⟨_, [], file', rfl, hwhole ▸ h, prefix_rfl, fun _ =>
        .inr hfault⟩)
  rw [hwhole] at hwalk
  exact hwalk

/-- A commit that succeeds has its transaction in the log and applied, and goes on with upkeep; one
that fails has left the handle alone, unless the upkeep failed. -/
theorem walks_commit (hup : ∀ file visited s', s.CanCommit rows →
      Wal.Holds world.xxh3 (records ++ s.transaction rows) [] file →
      Chain (Upkeep world) (s.afterCommit file rows) visited s' → ∀ v ∈ visited, P v) :
    Walks (fun _ visited _ => ∀ v ∈ visited, P v) (commit world faults rows)
      (fun _ s' => s.CanCommit rows ∧ ∃ file visited,
        Wal.Holds world.xxh3 (records ++ s.transaction rows) [] file ∧
        Chain (Upkeep world) (s.afterCommit file rows) visited s')
      (fun _ s' => CommitFailed world.xxh3 s records rows faults s' ∨
        ¬ s'.Healthy ∧ s.CanCommit rows ∧ ∃ file visited,
          Wal.Holds world.xxh3 (records ++ s.transaction rows) [] file ∧
          Chain (Upkeep world) (s.afterCommit file rows) visited s') s := by
  -- before the first log step a failure changes nothing
  have hquiet : CommitFailed world.xxh3 s records rows faults s := by
    obtain ⟨file, hf, hheld⟩ := hc.exists_log
    exact ⟨[], [], file, (withLog_self hf).symm, by simpa using hheld, nil_prefix,
      by simp [transaction]⟩
  refine walks_bind (walks_get (walks_ite (fun _ => walks_fail (.inl hquiet)) fun ht => ?_))
  replace ht : s.options.transactional = true := by simpa using ht
  refine walks_ite (fun _ => walks_fail (.inl hquiet)) fun hversion => ?_
  refine walks_bind (walks_validateRows.mono ?_ fun _ _ he => .inl (he ▸ hquiet))
  rintro _ s ⟨rfl, hvalid⟩
  refine walks_bind (walks_nextSequence.mono ?_ fun _ _ he => .inl (he ▸ hquiet))
  rintro _ s ⟨rfl, hsequence, rfl⟩
  refine walks_bind ((walks_logBatch hc hlog hvalid (UInt64.lt_add_one hsequence)).mono ?_
    fun _ _ => .inl)
  rintro _ _ ⟨file1, rfl, hheld1⟩
  refine walks_ite (fun _ => walks_fail (.inl ⟨_, [], file1, rfl, hheld1,
    batchRecords_prefix_transaction, fun he => absurd he batchRecords_ne_transaction⟩))
    fun hcommit => ?_
  have hcan : s.CanCommit rows := ⟨ht, hversion, hvalid, hsequence, hcommit⟩
  refine walks_bind ((walks_logCommit hc hlog hcan hheld1).mono ?_ fun _ _ => .inl)
  rintro _ _ ⟨file, rfl, hheld⟩
  refine walks_ite (fun hsync => walks_fail
    (.inl ⟨_, [], file, rfl, hheld, prefix_rfl, fun _ => .inl hsync⟩)) fun _ => ?_
  refine walks_bind ⟨.single (by simp), walks_bind (walks_get (walks_bind (walks_when (fun _ => ?_)
    fun _ => walks_pure ⟨hcan, file, [], hheld, .refl _⟩)))⟩
  refine (walks_flushAndAdvance.whole fun visited s' h => hup file visited s' hcan hheld h).mono
    (fun _ s' hs' => ?_) fun _ s' hs' => ?_
  · obtain ⟨-, visited, hchain⟩ := hs'
    exact walks_pure ⟨hcan, file, visited, hheld, hchain⟩
  · obtain ⟨hsick, visited, hchain⟩ := hs'
    exact .inr ⟨hsick, hcan, file, visited, hheld, hchain⟩

end Steps

variable {rows : List StoredRow} {flushed : UInt64}

theorem pendingRows_transaction (hid : s.tableId = 0) (h : flushed < s.lastSequence + 1)
    (hv : ∀ row ∈ s.stamped rows, s.schema.validateRow row = .ok ()) :
    pendingRows s.schema flushed (s.transaction rows) = (s.stamped rows).map StoredRow.durable := by
  have hcommit : pendingRows s.schema flushed [s.commitRecord] = [] := rfl
  rw [transaction, pendingRows_append, hcommit, append_nil, batchRecords, hid]
  split_ifs with hrows
  · simp [hrows, stamped]
  · exact pendingRows_batch h hv

theorem sequence_le_of_mem_transaction (hcan : s.CanCommit rows) :
    ∀ r ∈ s.transaction rows, r.sequence ≤ s.lastSequence + 1 + 1 := by
  refine forall_mem_append.mpr ⟨fun r hr => ?_, by simp [commitRecord, WalRecord.sequence]⟩
  unfold batchRecords at hr
  split_ifs at hr
  · cases hr
  · rw [mem_singleton.mp hr]
    exact hcan.lt_commitSequence.le

theorem adapts_transaction (hid : s.tableId = 0)
    (hv : ∀ row ∈ s.stamped rows, s.schema.validateRow row = .ok ()) :
    Adapts s.schema flushed (s.transaction rows) := by
  rw [transaction, batchRecords, hid, adapts_append]
  refine ⟨?_, nofun⟩
  split_ifs
  · nofun
  · exact adapts_batch hv

theorem Coherent.afterCommit {xxh3 : List UInt8 → UInt64} (hc : s.Coherent xxh3 records)
    (hcan : s.CanCommit rows) (hheld : Wal.Holds xxh3 (records ++ s.transaction rows) [] file) :
    (s.afterCommit file rows).Coherent xxh3 (records ++ s.transaction rows) := by
  have hlt : s.lastSequence < s.lastSequence + 1 + 1 :=
    hcan.lt_sequence.trans hcan.lt_commitSequence
  refine ⟨⟨hc.holds.manifest_eq, hheld⟩,
    adapts_append.mpr ⟨hc.adapts, adapts_transaction hc.tableId_eq hcan.valid⟩, rfl, hc.tableId_eq,
    hc.owns_log, ?_, hc.flushed_le.trans hlt.le, fun k => ?_, fun row hr => ?_⟩
  · exact forall_mem_append.mpr ⟨fun r hr => (hc.sequence_le r hr).trans hlt.le,
      sequence_le_of_mem_transaction hcan⟩
  · change ((s.memtable.applyAll (s.stamped rows)).rows[k]?).map StoredRow.durable =
      (latest (pendingRows s.schema s.manifest.flushedSequence _) k).map StoredRow.durable
    rw [pendingRows_append, pendingRows_transaction hc.tableId_eq
      (hc.flushed_le.trans_lt hcan.lt_sequence) hcan.valid]
    exact Memtable.durable_applyAll (hc.memtable_eq k)
  · rcases Memtable.mem_of_mem_values_applyAll hr with hr | hr
    · exact hc.fits row hr
    · exact hcan.valid row hr

end Commit

end TableStore

end Pintail
