import Pintail.Store.Coherent

/-! # Snapshots

A reader takes no lock. It loads the manifest, reads the log and loads the manifest again; if a new
one was published in between it starts over. What it sees in the end is the files as they stood when
it read the log.
-/

namespace Pintail

open Versioned Manifest Wal

/-- What a reader pins: a manifest, and the rows of the log the manifest does not cover. -/
structure TableSnapshot where
  schema : TableSchema
  manifest : Manifest
  memtable : Memtable

namespace TableSnapshot

def rows (snapshot : TableSnapshot) : List StoredRow :=
  snapshot.manifest.rowsUnder snapshot.schema ++ snapshot.memtable.values.map StoredRow.durable

def shown (snapshot : TableSnapshot) (key : PrimaryKey) : Option StoredRow :=
  Versioned.shown snapshot.rows key

section Open

variable (xxh3 : List UInt8 → UInt64) (schema : TableSchema)

/-- One attempt of an open, with the files as they stand at each of its looks; none if the manifest
moved. The last look is only taken when a segment does not verify. -/
def attempt (first log second last : Disk) : Except StoreError (Option TableSnapshot) := do
  let manifest ← load xxh3 schema first.manifest
  let recovery ← recoverReadOnly xxh3 log.wal
  let latest ← load xxh3 schema second.manifest
  if manifest.generation ≠ latest.generation ∨ manifest.epoch ≠ latest.epoch ∨
      manifest.flushedSequence ≠ latest.flushedSequence then .ok none
  else do
    let memtable ← replayBatches schema 0 manifest.flushedSequence recovery.batches
    match manifest.segments.forM (Segment.verify schema) with
    | .ok () => .ok (some ⟨schema, manifest, memtable⟩)
    | .error error => do
      let current ← load xxh3 schema last.manifest
      if current.generation ≠ manifest.generation ∨ current.epoch ≠ manifest.epoch then .ok none
      else .error error

def attemptAt (view : ℕ → Disk) (n : ℕ) : Except StoreError (Option TableSnapshot) :=
  attempt xxh3 schema (view n) (view (n + 1)) (view (n + 2)) (view (n + 3))

def openFrom (view : ℕ → Disk) : (attempts n : ℕ) → Except StoreError TableSnapshot
  | 0, _ => .error (.formatLimit "table manifest changed during eight reader-open attempts")
  | attempts + 1, n => do
    match ← attemptAt xxh3 schema view n with
    | some snapshot => .ok snapshot
    | none => openFrom view attempts (n + 4)

/-- Open a snapshot of a table whose files stand as `view` says at each look. -/
def «open» (view : ℕ → Disk) : Except StoreError TableSnapshot := openFrom xxh3 schema view 8 0

end Open

variable {xxh3 : List UInt8 → UInt64} {schema : TableSchema} {snapshot : TableSnapshot}
  {disk : Disk}

theorem exists_attempt_of_openFrom {view : ℕ → Disk} {attempts n : ℕ}
    (h : openFrom xxh3 schema view attempts n = .ok snapshot) :
    ∃ a < attempts, (∀ b < a, attemptAt xxh3 schema view (n + 4 * b) = .ok none) ∧
      attemptAt xxh3 schema view (n + 4 * a) = .ok (some snapshot) := by
  induction attempts generalizing n with
  | zero => cases h
  | succ attempts ih =>
    obtain ⟨result, hattempt, hrest⟩ := Except.bind_eq_ok.mp h
    cases result with
    | some found =>
      cases hrest
      exact ⟨0, Nat.succ_pos _, nofun, hattempt⟩
    | none =>
      obtain ⟨a, ha, hbefore, hfound⟩ := ih hrest
      refine ⟨a + 1, by omega, fun b hb => ?_, ?_⟩
      · cases b with
        | zero => exact hattempt
        | succ b =>
          rw [show n + 4 * (b + 1) = n + 4 + 4 * b by omega]
          exact hbefore b (by omega)
      · rwa [show n + 4 * (a + 1) = n + 4 + 4 * a by omega]

/-- The snapshot is what the files hold. -/
structure Reads (xxh3 : List UInt8 → UInt64) (schema : TableSchema) (disk : Disk)
    (snapshot : TableSnapshot) : Prop where
  schema_eq : snapshot.schema = schema
  load_eq : load xxh3 schema disk.manifest = .ok snapshot.manifest
  verify_eq : snapshot.manifest.segments.forM (Segment.verify schema) = .ok ()
  replay_eq : ∃ recovery, recoverReadOnly xxh3 disk.wal = .ok recovery ∧
    replayBatches schema 0 snapshot.manifest.flushedSequence recovery.batches =
      .ok snapshot.memtable

/-- An attempt that succeeds found one generation at its first and its second look, and the rows of
the log at the look in between. -/
theorem attempt_eq_some {first log second last : Disk}
    (h : attempt xxh3 schema first log second last = .ok (some snapshot)) :
    Reads xxh3 schema { log with manifest := first.manifest } snapshot ∧
      ∃ latest, load xxh3 schema second.manifest = .ok latest ∧
        snapshot.manifest.generation = latest.generation := by
  obtain ⟨manifest, hm, h⟩ := Except.bind_eq_ok.mp h
  obtain ⟨recovery, hr, h⟩ := Except.bind_eq_ok.mp h
  obtain ⟨latest, hl, h⟩ := Except.bind_eq_ok.mp h
  split_ifs at h with hmoved
  · cases h
  obtain ⟨memtable, ht, h⟩ := Except.bind_eq_ok.mp h
  split at h
  · rename_i hv
    obtain rfl := Option.some.inj (Except.ok.inj h)
    simp only [not_or, not_not] at hmoved
    exact ⟨⟨rfl, hm, hv, recovery, hr, ht⟩, latest, hl, hmoved.1⟩
  · obtain ⟨current, -, h⟩ := Except.bind_eq_ok.mp h
    split_ifs at h
    cases h

theorem Reads.open_eq (h : Reads xxh3 schema disk snapshot) :
    TableSnapshot.open xxh3 schema (fun _ => disk) = .ok snapshot := by
  obtain ⟨schema', manifest, memtable⟩ := snapshot
  obtain ⟨hs, hm, hv, recovery, hr, ht⟩ := h
  subst hs
  have hattempt : attemptAt xxh3 schema' (fun _ => disk) 0 =
      .ok (some ⟨schema', manifest, memtable⟩) := by
    simp [attemptAt, attempt, hm, hr, ht, hv, bind, Except.bind]
  rw [TableSnapshot.open, openFrom, hattempt]
  rfl

theorem Reads.of_open (h : TableSnapshot.open xxh3 schema (fun _ => disk) = .ok snapshot) :
    Reads xxh3 schema disk snapshot := by
  obtain ⟨a, -, -, ha⟩ := exists_attempt_of_openFrom h
  exact (attempt_eq_some ha).1

end TableSnapshot

/-- From one state of the files to a later one the manifest is the same, or of a later generation. -/
def Disk.Before (disk later : Disk) : Prop :=
  disk.manifest = later.manifest ∨ disk.generation < later.generation

namespace Disk

variable {a b c : Disk} {manifest : Manifest}

theorem generation_eq (h : a.manifest = b.manifest) : a.generation = b.generation := by
  unfold generation
  rw [h]

theorem generation_of_some (h : a.manifest = some manifest) :
    a.generation = manifest.generation := by
  unfold generation
  rw [h]
  rfl

theorem Before.refl (a : Disk) : a.Before a := .inl rfl

theorem Before.generation_le (h : a.Before b) : a.generation ≤ b.generation := by
  rcases h with h | h
  · exact (generation_eq h).le
  · exact h.le

theorem Before.trans (h : a.Before b) (h' : b.Before c) : a.Before c := by
  rcases h with h | h
  · rcases h' with h' | h'
    · exact .inl (h.trans h')
    · exact .inr ((generation_eq h).trans_lt h')
  · exact .inr (h.trans_le h'.generation_le)

theorem generation_of_load {xxh3 : List UInt8 → UInt64} {schema : TableSchema}
    (h : load xxh3 schema a.manifest = .ok manifest) :
    a.generation = manifest.generation := by
  cases hm : a.manifest with
  | none =>
    rw [hm] at h
    rw [generation, hm, ← Except.ok.inj h]
    rfl
  | some stored =>
    rw [hm] at h
    rw [generation_of_some hm, load_some h]

end Disk

theorem Wal.Holds.recoverReadOnly_eq {xxh3 : List UInt8 → UInt64} {records : List WalRecord}
    {tail : List UInt8} {wal : Option (List UInt8)}
    (h : Wal.Holds xxh3 records tail (wal.getD header)) :
    recoverReadOnly xxh3 wal = .ok (replayed records).recovery := by
  obtain ⟨left, hrec⟩ := h.recover_eq false
  cases wal with
  | some file =>
    exact Except.map_eq_ok.mpr ⟨_, hrec, rfl⟩
  | none =>
    have hfresh : Wal.Holds xxh3 [] [] header := Wal.Holds.fresh
    obtain ⟨_, hnone⟩ := hfresh.recover_eq false
    rw [← (Prod.mk.inj (Except.ok.inj (hnone.symm.trans hrec))).1]
    rfl

namespace TableSnapshot

variable {xxh3 : List UInt8 → UInt64} {schema : TableSchema} {snapshot : TableSnapshot}
  {disk : Disk} {manifest : Manifest} {records : List WalRecord} {tail : List UInt8}

/-- Whatever the writer does meanwhile, a snapshot is what the files held when its log was read. -/
theorem exists_reads_of_open {view : ℕ → Disk} (hview : ∀ i j, i ≤ j → (view i).Before (view j))
    (h : TableSnapshot.open xxh3 schema view = .ok snapshot) :
    ∃ a < 8, (∀ b < a, attemptAt xxh3 schema view (4 * b) = .ok none) ∧
      attemptAt xxh3 schema view (4 * a) = .ok (some snapshot) ∧
      Reads xxh3 schema (view (4 * a + 1)) snapshot := by
  obtain ⟨a, ha, hbefore, hfound⟩ := exists_attempt_of_openFrom h
  simp only [Nat.zero_add] at hbefore hfound
  refine ⟨a, ha, hbefore, hfound, ?_⟩
  obtain ⟨hreads, latest, hlatest, hgen⟩ := attempt_eq_some hfound
  have hsame : (view (4 * a)).manifest = (view (4 * a + 1)).manifest := by
    apply (hview (4 * a) (4 * a + 1) (by omega)).resolve_right
    intro hlt
    have hle := (hview (4 * a + 1) (4 * a + 2) (by omega)).generation_le
    rw [Disk.generation_of_load hlatest, ← hgen] at hle
    exact absurd (Disk.generation_of_load hreads.load_eq) (hlt.trans_le hle).ne
  rwa [hsame] at hreads

theorem Reads.manifest_eq (h : Reads xxh3 schema disk snapshot)
    (hd : disk.Holds xxh3 schema manifest records tail) : snapshot.manifest = manifest :=
  hd.load_eq h.load_eq

theorem Reads.shown_eq (h : Reads xxh3 schema disk snapshot)
    (hd : disk.Holds xxh3 schema manifest records tail) (k : PrimaryKey) :
    snapshot.shown k = Versioned.shown (diskRows schema manifest records) k := by
  obtain rfl := h.manifest_eq hd
  obtain ⟨recovery, hr, ht⟩ := h.replay_eq
  rw [hd.log.recoverReadOnly_eq] at hr
  rw [← Except.ok.inj hr, replayed_batches] at ht
  obtain ⟨-, hmem⟩ := replayBatches_eq_ok.mp ht
  rw [shown, rows, diskRows, h.schema_eq, Versioned.shown, Versioned.shown, latest_append,
    latest_append, TableStore.latest_memtable, hmem, Memtable.getElem?_applyAll,
    latest_map (f := StoredRow.durable) (fun _ => rfl) fun _ => rfl]
  rfl

end TableSnapshot

end Pintail
