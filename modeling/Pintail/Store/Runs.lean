import Pintail.Store.Commit

/-! # Runs of a table

Operations, process stops at any visible state and reopenings follow each other in any order.
However an open table was reached, its files hold what its handle shows.
-/

namespace Pintail

open Versioned Traced Wal TableStore

/-- What the writer of a table may do, apart from a change of schema and a start over. -/
inductive WriterStep
  | ingest (rows : List StoredRow)
  | ingestCdc (rows : List StoredRow)
  | ingestCdcInOrder (rows : List StoredRow)
  | stageCdc (rows : List StoredRow)
  | publishStaged
  | discardStaged
  | flush
  | compact
  | maintain
  | bulkIngestSnapshot (rows : List StoredRow)
  | bulkIngestSnapshotCovering (rows : List StoredRow) (covers : KeyRange)

def WriterStep.run (world : World) : WriterStep → Traced TableStore StoreError Unit
  | ingest rows => void (TableStore.ingest world rows)
  | ingestCdc rows => void (TableStore.ingestCdc world rows)
  | ingestCdcInOrder rows => void (TableStore.ingestCdcInOrder world rows)
  | stageCdc rows => TableStore.stageCdc world rows
  | publishStaged => void (TableStore.publishStaged world)
  | discardStaged => TableStore.discardStaged
  | flush => void (TableStore.flush world)
  | compact => void (TableStore.compact world)
  | maintain => void (TableStore.maintain world)
  | bulkIngestSnapshot rows => void (TableStore.bulkIngestSnapshot world rows)
  | bulkIngestSnapshotCovering rows covers =>
    void (TableStore.bulkIngestSnapshotCovering world rows covers)

/-- What may happen to an open table. -/
inductive TableStep
  | write (step : WriterStep)
  | commit (rows : List StoredRow)
  | evolveSchema (schema : TableSchema)
  | resetForResnapshot

def TableStore.CommitFaults.none : TableStore.CommitFaults := ⟨.none, .none, false⟩

def TableStep.run (world : World) : TableStep → Traced TableStore StoreError Unit
  | write step => step.run world
  | commit rows => void (TableStore.commit world .none rows)
  | evolveSchema schema => TableStore.evolveSchema world schema
  | resetForResnapshot => TableStore.resetForResnapshot world

/-- The process that has the table open, or the files it left when it stopped. -/
inductive Process
  | stopped (disk : Disk)
  | running (store : TableStore)

namespace Process

/-- A process may stop at any state of the files an operation or an open passes through. Only a
commit is not followed further when it fails. -/
inductive Step (world : World) : Process → Process → Prop
  | opened {disk : Disk} {schema : TableSchema} {options : StoreOptions} {s : TableStore}
    (h : (TableStore.open world schema options disk).result = .ok s) :
    Step world (.stopped disk) (.running s)
  | openStopped {disk d : Disk} {schema : TableSchema} {options : StoreOptions}
    (h : d ∈ (TableStore.open world schema options disk).visited) :
    Step world (.stopped disk) (.stopped d)
  | done {s : TableStore} (step : TableStep) (h : (step.run world s).result = .ok ()) :
    Step world (.running s) (.running (step.run world s).final)
  | refused {s : TableStore} (step : WriterStep) :
    Step world (.running s) (.running (step.run world s).final)
  | stopped {s v : TableStore} (step : TableStep) (h : v = s ∨ v ∈ (step.run world s).visited) :
    Step world (.running s) (.stopped v.disk)

/-- Some run of operations, stops and opens leads from an empty directory to the process. -/
def Reached (world : World) (process : Process) : Prop :=
  Relation.ReflTransGen (Step world) (.stopped ⟨none, none⟩) process

/-- The log is whole up to a torn tail, and an open handle has what the files hold. -/
def Sound (xxh3 : List UInt8 → UInt64) : Process → Prop
  | stopped disk => ∃ records tail, Wal.Holds xxh3 records tail (disk.wal.getD header)
  | running store => ∃ records, store.Coherent xxh3 records

end Process

namespace TableStore

section Steps

variable {world : World} {s : TableStore} {records : List WalRecord}

theorem walks_writerStep (step : WriterStep) :
    Walks (Move world fun _ _ => True) (step.run world) (fun _ _ => True) (fun _ _ => True) s := by
  have hi : ∀ schema staged rows, Intake world (fun _ _ => True) schema staged (fun _ => True)
      (fun _ => True) (fun _ => True) rows := fun _ _ _ => by constructor <;> simp
  have hup : ∀ {α : Type} {x : Traced TableStore StoreError α} {Q : α → TableStore → Prop}
      {E : StoreError → TableStore → Prop}, Walks (Upkeep world) x Q E s →
      Walks (Move world fun _ _ => True) (void x) (fun _ _ => True) (fun _ _ => True) s :=
    fun h => ((h.of_step fun _ _ _ => Upkeep.move).mono (fun _ _ _ => trivial)
      fun _ _ _ => trivial).void
  cases step with
  | ingest rows => exact (walks_ingest (fun _ _ _ => hi _ _ _) trivial fun _ => trivial).void
  | ingestCdc rows => exact (walks_ingestCdc (fun _ => hi _ _ _) trivial fun _ => trivial).void
  | ingestCdcInOrder rows =>
    exact (walks_bind (walks_get (walks_ingestCdc (fun _ => hi _ _ _) trivial fun _ => trivial))).void
  | stageCdc rows =>
    exact ((walks_stageCdc rfl (fun _ => hi _ _ _) trivial).of_step
      fun _ _ _ h => h.mono fun _ _ _ => trivial).mono (fun _ _ _ => trivial) fun _ _ => id
  | publishStaged =>
    exact (walks_publishStaged (fun _ _ _ _ _ => trivial) trivial (fun _ => trivial)
      (fun _ => trivial) fun _ => trivial).void
  | discardStaged => exact walks_modify (.discarded trivial) trivial
  | flush => exact hup walks_flush
  | compact => exact hup walks_compact
  | maintain => exact hup walks_maintain
  | bulkIngestSnapshot rows => exact (walks_ingestSnapshotChunk fun _ => trivial).void
  | bulkIngestSnapshotCovering rows covers =>
    apply Walks.void
    unfold bulkIngestSnapshotCovering
    split
    · exact walks_fail trivial
    · exact walks_ingestSnapshotChunk fun _ => trivial

variable {allows : TableStore → Growth → Prop}

theorem Coherent.chain {visited : List TableStore} {s' : TableStore}
    (hm : Chain (Move world allows) s visited s') (h : s.Coherent world.xxh3 records) :
    (∀ v ∈ visited, v.Visible world.xxh3) ∧ ∃ records', s'.Coherent world.xxh3 records' :=
  hm.invariant (I := fun s => ∃ records, s.Coherent world.xxh3 records)
    (fun _ _ _ hm ⟨_, h⟩ => h.move hm) ⟨records, h⟩

/-- The log of every visible state is whole up to a torn tail. -/
abbrev LogWhole (xxh3 : List UInt8 → UInt64) (_ : TableStore) (visited : List TableStore)
    (_ : TableStore) : Prop :=
  ∀ v ∈ visited, ∃ records tail, Wal.Holds xxh3 records tail (v.disk.wal.getD header)

theorem Visible.logWhole {xxh3 : List UInt8 → UInt64} (h : s.Visible xxh3) :
    ∃ records tail, Wal.Holds xxh3 records tail (s.disk.wal.getD header) := by
  obtain ⟨records, tail, hd, -⟩ := h
  exact ⟨records, tail, hd.log⟩

theorem Coherent.walks {α : Type} {x : Traced TableStore StoreError α} {Q : α → TableStore → Prop}
    {E : StoreError → TableStore → Prop} (h : s.Coherent world.xxh3 records)
    (hx : Walks (Move world allows) x Q E s) :
    Walks (LogWhole world.xxh3) x (fun a s' => Q a s' ∧ ∃ records', s'.Coherent world.xxh3 records')
      (fun _ s' => ∃ records', s'.Coherent world.xxh3 records') s := by
  refine (hx.whole fun visited s' hm v hv => ((h.chain hm).1 v hv).logWhole).mono ?_ ?_
  · rintro a s' ⟨hq, visited, hm⟩
    exact ⟨hq, (h.chain hm).2⟩
  · rintro e s' ⟨-, visited, hm⟩
    exact (h.chain hm).2

theorem Coherent.pendingRows_eq_nil (h : s.Coherent world.xxh3 records)
    (he : s.memtable.values = []) :
    pendingRows s.schema s.manifest.flushedSequence records = [] := by
  apply List.eq_nil_iff_forall_not_mem.mpr
  intro row hr
  have hk := h.memtable_eq row.key
  rw [← Memtable.latest_values, he, latest_nil, Option.map_none, eq_comm, Option.map_eq_none_iff,
    latest_eq_none] at hk
  exact hk row hr rfl

theorem walks_evolveSchema (h : s.Coherent world.xxh3 records) (schema : TableSchema) :
    Walks (LogWhole world.xxh3) (evolveSchema world schema)
      (fun _ s' => ∃ records', s'.Coherent world.xxh3 records') (fun _ _ => True) s := by
  refine walks_bind (walks_get (walks_ite (fun _ => walks_fail trivial) fun _ => ?_))
  apply walks_ite (fun _ => walks_fail trivial)
  intro _
  refine walks_bind ((h.walks walks_flush).mono ?_ fun _ _ _ => trivial)
  rintro _ s' ⟨hempty, records', hc⟩
  refine walks_bind (walks_get (walks_bind (walks_lift (fun _ _ => ?_) fun _ _ => trivial)))
  obtain ⟨hadapts, hpending⟩ :=
    Adapts.of_pendingRows_eq_nil schema hc.adapts (hc.pendingRows_eq_nil hempty)
  refine walks_publish (List.forall_mem_singleton.mpr ⟨records', [], hc.holds.log⟩) ⟨records', ?_⟩
  refine ⟨⟨.inl rfl, hc.holds.log⟩, hadapts, hc.log_isSome, hc.tableId_eq, hc.owns_log,
    hc.sequence_le, hc.flushed_le, fun k => ?_, fun row hr => ?_⟩
  · change s'.memtable.rows[k]?.map _ =
      (latest (pendingRows schema s'.manifest.flushedSequence records') k).map _
    rw [hpending, ← Memtable.latest_values, hempty]
  · change row ∈ s'.memtable.values at hr
    rw [hempty] at hr
    cases hr

def logCut (store : TableStore) : TableStore := store.withoutMerge.mapWal reset

def startedOver (xxh3 : List UInt8 → UInt64) (store : TableStore) : TableStore :=
  store.logCut.withManifest (store.manifest.emptied xxh3 store.schema)

/-- While a table starts over, the log goes first, then the manifest. -/
theorem run_resetForResnapshot : resetForResnapshot world s =
    ⟨[s.logCut, s.startedOver world.xxh3], { s.startedOver world.xxh3 with
      memtable := .empty
      lastSequence := 0
      nextAppendRowId := 1
      commitVersion := if s.options.transactional then s.commitVersion else 0 }, .ok ()⟩ := rfl

theorem Coherent.holds_logCut (h : s.Coherent world.xxh3 records) :
    s.logCut.disk.Holds world.xxh3 s.schema s.manifest [] [] := by
  obtain ⟨file, hf, hlog⟩ := h.exists_log
  refine ⟨h.holds.manifest_eq, ?_⟩
  change Wal.Holds world.xxh3 [] [] ((s.disk.wal.map reset).getD header)
  rw [hf]
  exact hlog.reset

theorem walks_resetForResnapshot (h : s.Coherent world.xxh3 records) :
    Walks (LogWhole world.xxh3) (resetForResnapshot world)
      (fun _ s' => ∃ records', s'.Coherent world.xxh3 records') (fun _ _ => True) s := by
  have hheld := h.holds_logCut.log
  unfold Walks
  rw [run_resetForResnapshot]
  refine ⟨.single ?_, [], ⟨.inl rfl, hheld⟩, nofun, ?_, h.tableId_eq, h.owns_log, nofun, le_rfl,
    fun k => ?_, fun row hr => ?_⟩
  · exact List.forall_mem_cons.mpr ⟨⟨[], [], hheld⟩, List.forall_mem_singleton.mpr ⟨[], [], hheld⟩⟩
  · exact Option.isSome_map.trans h.log_isSome
  · simp [Memtable.empty]
  · simp [Memtable.mem_values, Memtable.empty] at hr

theorem walks_commitStep (h : s.Coherent world.xxh3 records) (rows : List StoredRow) :
    Walks (LogWhole world.xxh3) (commit world .none rows)
      (fun _ s' => ∃ records', s'.Coherent world.xxh3 records') (fun _ _ => True) s := by
  refine (walks_commit (P := fun v => ∃ records tail,
    Wal.Holds world.xxh3 records tail (v.disk.wal.getD header)) h
    (fun more tail file _ hheld => ⟨_, tail, hheld⟩) fun file visited s' hcan hheld hm v hv =>
      (((h.afterCommit hcan hheld).chain hm).1 v hv).logWhole).mono ?_ fun _ _ _ => trivial
  rintro _ s' ⟨hcan, file, visited, hheld, hm⟩
  exact ((h.afterCommit hcan hheld).chain hm).2

theorem walks_tableStep (h : s.Coherent world.xxh3 records) (step : TableStep) :
    Walks (LogWhole world.xxh3) (step.run world)
      (fun _ s' => ∃ records', s'.Coherent world.xxh3 records') (fun _ _ => True) s := by
  cases step with
  | write step =>
    exact (h.walks (walks_writerStep step)).mono (fun _ _ hs => hs.2) fun _ _ _ => trivial
  | commit rows => exact (walks_commitStep h rows).void
  | evolveSchema schema => exact walks_evolveSchema h schema
  | resetForResnapshot => exact walks_resetForResnapshot h

end Steps

end TableStore

namespace TableStore

section Fresh

variable (world : World) (schema : TableSchema) {options : StoreOptions}

theorem run_openWal_fresh : openWal world ⟨none, none⟩ =
    ⟨[⟨none, some Wal.header⟩], ⟨none, some Wal.header⟩, .ok ⟨[], 0, none⟩⟩ := by
  have hheader : recover world.xxh3 true (header ++ []) =
      .ok ((replayed []).recovery, header) :=
    recover_written true rfl nofun .nil nofun torn_nil
  have hopen : Wal.open world.xxh3 [] = .ok (⟨[], 0, none⟩, Wal.header) := hheader
  simp [openWal, run_bind, hopen]

theorem run_recoverLog_fresh : recoverLog world 0 options true (.empty world.xxh3 schema)
    ⟨none, none⟩ = ⟨[⟨none, some header⟩], ⟨none, some header⟩,
      .ok (.empty world.xxh3 schema, ⟨[], 0, none⟩)⟩ := by
  unfold recoverLog settleCommits
  rw [run_bind_ok (run_openWal_fresh world)]
  cases options.transactional <;> rfl

theorem run_open_fresh (h : options.validate = .ok ()) :
    TableStore.open world schema options ⟨none, none⟩ =
      ⟨[⟨none, some header⟩], ⟨none, some header⟩, .ok (fresh world schema options)⟩ := by
  have hcheck : checkSegments schema (.empty world.xxh3 schema) = .ok () := rfl
  have hreplay : replayLog 0 schema true (.empty world.xxh3 schema) ⟨[], 0, none⟩
      ⟨none, some header⟩ = ⟨[], ⟨none, some header⟩, .ok .empty⟩ := rfl
  have hversion : ¬ (Manifest.empty world.xxh3 schema).schemaVersion < schema.version :=
    UInt32.lt_irrefl _
  have hsettle : settleSchema world (.empty world.xxh3 schema) (.empty world.xxh3 schema) schema
      ⟨none, some header⟩ = ⟨[], ⟨none, some header⟩, .ok (.empty world.xxh3 schema)⟩ := by
    rw [settleSchema, if_neg hversion]
    rfl
  have hnext : findNextAppendRowId (.empty world.xxh3 schema) schema .empty = .ok 1 := by
    unfold findNextAppendRowId
    split_ifs <;> rfl
  simp only [TableStore.open, openWithWal, run_bind, run_lift, run_get, h, Manifest.load, hcheck,
    run_recoverLog_fresh, hreplay, hsettle, hnext]
  cases options.transactional <;> rfl

end Fresh

end TableStore

namespace Process

variable {world : World} {p p' : Process} {options : StoreOptions}

theorem Sound.opening {schema : TableSchema} {disk : Disk} (h : Sound world.xxh3 (.stopped disk)) :
    Walks (TableStore.HoldsOnly world.xxh3 schema fun _ _ => True)
      (TableStore.open world schema options) (fun s d => s.disk = d ∧ ∃ records,
        TableStore.Opened world.xxh3 schema options (fun _ _ => True) s records)
      (fun _ _ => True) disk := by
  obtain ⟨records, tail, hlog⟩ := h
  have hd : disk.Holds world.xxh3 schema (disk.manifest.getD (.empty world.xxh3 schema)) records
      tail := by
    refine ⟨?_, hlog⟩
    cases disk.manifest with
    | none => exact .inr ⟨rfl, rfl⟩
    | some manifest => exact .inl rfl
  exact (walks_open (by constructor <;> simp) hd trivial).mono (fun _ _ => id)
    fun _ _ _ => trivial

theorem Sound.step (hs : Step world p p') (h : p.Sound world.xxh3) : p'.Sound world.xxh3 := by
  cases hs with
  | opened ho =>
    obtain ⟨-, hok⟩ := Sound.opening h
    rw [ho] at hok
    obtain ⟨-, records, hopened⟩ := hok
    exact ⟨records, hopened.coherent⟩
  | openStopped hd =>
    obtain ⟨_, records, tail, hheld, -⟩ := (Sound.opening h).1.forall_visited _ hd
    exact ⟨records, tail, hheld.log⟩
  | done step hok =>
    obtain ⟨records, hc⟩ := h
    obtain ⟨-, hr⟩ := walks_tableStep hc step
    rw [hok] at hr
    exact hr
  | @refused s step =>
    obtain ⟨records, hc⟩ := h
    exact (hc.chain (walks_writerStep step).1).2
  | @stopped s v step hv =>
    obtain ⟨records, hc⟩ := h
    rcases hv with rfl | hv
    · exact ⟨records, [], hc.holds.log⟩
    · exact (walks_tableStep hc step).1.forall_visited v hv

theorem Reached.sound (h : Reached world p) : p.Sound world.xxh3 := by
  induction h with
  | refl =>
    exact ⟨[], [], Wal.Holds.fresh⟩
  | tail _ hstep ih => exact ih.step hstep

theorem Reached.fresh (world : World) (schema : TableSchema) (h : options.validate = .ok ()) :
    Reached world (.running (TableStore.fresh world schema options)) := by
  have hopen : (TableStore.open world schema options ⟨none, none⟩).result =
      .ok (TableStore.fresh world schema options) := by
    rw [run_open_fresh world schema h]
  exact .single (.opened hopen)

theorem Reached.write {s : TableStore} (h : Reached world (.running s)) (steps : List WriterStep) :
    Reached world (.running (steps.foldl (fun s step => (step.run world s).final) s)) := by
  induction steps generalizing s with
  | nil => exact h
  | cons step steps ih => exact ih (h.tail (.refused step))

end Process

end Pintail
