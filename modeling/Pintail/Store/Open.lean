import Pintail.Store.Ingest

/-! # Opening and committing

Opening a table replays the log over its manifest. On a table of local transactions only what a
commit record covers is replayed, and the rest is cut from the log. A commit appends the rows, then
the commit record, and applies the rows once both are synchronized.
-/

namespace Pintail

open Traced

/-- A row of the log under the schema the table is opened with. -/
def adaptRecoveredValue (wal : List WalColumn) (row : StoredRow) (column : Column) :
    Except StoreError Value :=
  match (wal.zip row.values).find? fun (stored, _) => stored.id == column.id with
  | some (stored, value) =>
    if stored.dataType ≠ column.dataType.storageType then
      .error (.incompatibleSchema s!"column {column.name} ({column.id}) changed physical type")
    else .ok value
  | none =>
    match column.absentFill with
    | some fill => .ok fill
    | none =>
      if column.nullable then .ok .null
      else
        let absent := "is absent from an unflushed WAL row"
        .error (.incompatibleSchema s!"required column {column.name} ({column.id}) {absent}")

@[inherit_doc adaptRecoveredValue]
def adaptRecoveredRow (schema : TableSchema) (wal : List WalColumn) (row : StoredRow) :
    Except StoreError StoredRow :=
  if row.values.length ≠ wal.length then
    let recorded := s!"{wal.length} recorded columns"
    .error (.incompatibleSchema s!"WAL row has {row.values.length} values for {recorded}")
  else do
    let values ← schema.columns.mapM (adaptRecoveredValue wal row)
    let adapted := { row with values }
    (schema.validateRow adapted).mapError StoreError.schema
    pure adapted

def replayBatches (schema : TableSchema) (tableId flushed : UInt64) (batches : List RecoveredBatch) :
    Except StoreError Memtable := do
  let mine := batches.filter fun batch => batch.tableId == tableId && batch.sequence > flushed
  let rows ← mine.mapM fun batch => batch.rows.mapM (adaptRecoveredRow schema batch.columns)
  pure (Memtable.empty.applyAll rows.flatten)

/-- A log that does not start at the first write proves that a manifest existed. -/
def refuseALostManifest (disk : Disk) (truncateWalOnFlush : Bool) (recovery : Recovery)
    (tableId : UInt64) : Except StoreError Unit :=
  if !truncateWalOnFlush || disk.manifest.isSome then .ok ()
  else
    let mine := recovery.batches.filter fun batch => batch.tableId == tableId
    if (mine.map RecoveredBatch.sequence).min?.any fun first => first > 1 then
      let missing := "the manifest is missing but the write-ahead log starts after rows that were"
      .error (.corruptManifest 0 (missing ++ " already flushed"))
    else .ok ()

/-- Segments by their key span, row count and version span. -/
def spanLe (left right : Segment × ℕ) : Bool :=
  let span := fun (segment : Segment) =>
    toLex (segment.minKey, toLex (segment.maxKey, toLex (segment.rowCount,
      toLex (segment.minVersion, segment.maxVersion))))
  span left.1 ≤ span right.1

/-- The segments that are byte for byte the same as a later one, by index. -/
def identicalSegments (segments : List Segment) : List ℕ :=
  let order := segments.zipIdx.insertionSort fun left right => spanLe left right
  let pairs := (order.zip order.tail).filter fun (left, right) =>
    left.1.sameSpan right.1 && left.1.sameContents right.1
  pairs.map fun (left, _) => left.2

def Manifest.collapsed (manifest : Manifest) : Manifest :=
  { manifest.next with
    segments := Compaction.unselected manifest.segments (identicalSegments manifest.segments) }

def Manifest.upgraded (xxh3 : List UInt8 → UInt64) (schema : TableSchema) (manifest : Manifest) :
    Manifest :=
  { manifest.next with
    schemaVersion := schema.version
    schemaFingerprint := Pintail.schemaFingerprint xxh3 schema }

/-- The row number a keyless table's row is stored under. -/
def appendRowId (key : PrimaryKey) : Except StoreError UInt64 :=
  match key.parts with
  | [.uint64 id] => .ok id
  | _ => .error (.incompatibleSchema "append-rowid table contains a non-generated storage key")

def findNextAppendRowId (manifest : Manifest) (schema : TableSchema) (memtable : Memtable) :
    Except StoreError UInt64 :=
  if schema.keyMode ≠ .appendRowId then .ok 1
  else do
    let held ← memtable.values.mapM fun row => appendRowId row.key
    let stored ← manifest.segments.mapM fun segment => do
      let rows ← segment.read schema
      rows.mapM fun row => appendRowId row.key
    let maximum := (held ++ stored.flatten).foldl max 0
    if maximum = TableStore.maxRowId then .error .sequenceOverflow else .ok (maximum + 1)

namespace TableStore

section Open

variable (world : World)

def openWal : Traced Disk StoreError Recovery := do
  let disk ← get
  let (recovery, left) ← lift (Wal.open world.xxh3 (disk.wal.getD []))
  publish fun disk => { disk with wal := some left }
  pure recovery

def collapseIdenticalSegments (manifest : Manifest) : Traced Disk StoreError Manifest := do
  if (identicalSegments manifest.segments).isEmpty then pure manifest
  else do
    publish fun disk => { disk with manifest := some manifest.collapsed }
    pure manifest.collapsed

/-- Drop what no commit record covers, from the replay and from the log. -/
def dropUncommitted (recovery : Recovery) : Traced Disk StoreError Recovery := do
  let committed := recovery.lastCommit
  let batches := committed.elim 0 WalCommit.batches
  when (recovery.batches.length > batches) (publish fun disk => { disk with
    wal := disk.wal.map (Wal.truncateTo (committed.elim Wal.headerLength WalCommit.endOffset)) })
  pure { recovery with
    batches := recovery.batches.take batches
    lastSequence := committed.elim 0 WalCommit.sequence }

def publishSchemaUpgrade (manifest : Manifest) (schema : TableSchema) :
    Traced Disk StoreError Manifest := do
  let upgraded := manifest.upgraded world.xxh3 schema
  publish fun disk => { disk with manifest := some upgraded }
  pure upgraded

def settleCommits (options : StoreOptions) (recovery : Recovery) :
    Traced Disk StoreError Recovery :=
  if options.transactional then dropUncommitted recovery else pure recovery

def settleSchema (loaded manifest : Manifest) (schema : TableSchema) :
    Traced Disk StoreError Manifest :=
  if loaded.schemaVersion < schema.version then publishSchemaUpgrade world manifest schema
  else pure manifest

/-- Check the segments of a manifest; under a later schema each is read. -/
def checkSegments (schema : TableSchema) (manifest : Manifest) : Except StoreError Unit :=
  manifest.segments.forM fun segment =>
    if manifest.schemaVersion < schema.version then do
      let _ ← segment.read schema
    else segment.verify schema

/-- Recover the log, and settle what the manifest and the log hold. -/
def recoverLog (tableId : UInt64) (options : StoreOptions) (truncateWalOnFlush : Bool)
    (manifest : Manifest) : Traced Disk StoreError (Manifest × Recovery) := do
  let recovery ← openWal world
  let disk ← get
  lift (refuseALostManifest disk truncateWalOnFlush recovery tableId)
  let manifest ← collapseIdenticalSegments manifest
  let recovery ← settleCommits options recovery
  pure (manifest, recovery)

/-- Apply what the log holds beyond the manifest; a log the manifest covers is cut back. -/
def replayLog (tableId : UInt64) (schema : TableSchema) (truncateWalOnFlush : Bool)
    (manifest : Manifest) (recovery : Recovery) : Traced Disk StoreError Memtable := do
  let memtable ← lift (replayBatches schema tableId manifest.flushedSequence recovery.batches)
  when (truncateWalOnFlush && recovery.batches.any (fun batch => batch.tableId == tableId) &&
      recovery.lastSequence ≤ manifest.flushedSequence)
    (publish fun disk => { disk with wal := disk.wal.map Wal.reset })
  pure memtable

def openWithWal (tableId : UInt64) (schema : TableSchema) (options : StoreOptions)
    (truncateWalOnFlush : Bool) : Traced Disk StoreError TableStore := do
  lift options.validate
  let disk ← get
  let loaded ← lift (Manifest.load world.xxh3 schema disk.manifest)
  lift (checkSegments schema loaded)
  let (manifest, recovery) ← recoverLog world tableId options truncateWalOnFlush loaded
  let memtable ← replayLog tableId schema truncateWalOnFlush manifest recovery
  let manifest ← settleSchema world loaded manifest schema
  let nextAppendRowId ← lift (findNextAppendRowId manifest schema memtable)
  let commitVersion := if options.transactional then
      max manifest.committedVersion (recovery.lastCommit.elim 0 WalCommit.version)
    else (manifest.segments.map Segment.maxVersion).foldl max manifest.committedVersion
  let disk ← get
  pure {
    disk, schema, options, memtable, manifest
    lastSequence := max recovery.lastSequence manifest.flushedSequence
    commitVersion, nextAppendRowId, tableId, truncateWalOnFlush
    background := none
    staged := []
    stagedIds := (0, 0)
    asked := 0 }

/-- Open a table that owns its log. -/
def «open» (schema : TableSchema) (options : StoreOptions) : Traced Disk StoreError TableStore :=
  openWithWal world 0 schema options true

/-- The handle of a table opened in an empty directory. -/
def fresh (schema : TableSchema) (options : StoreOptions) : TableStore where
  disk := ⟨none, some Wal.header⟩
  schema := schema
  options := options
  memtable := .empty
  manifest := .empty world.xxh3 schema
  lastSequence := 0
  commitVersion := 0
  nextAppendRowId := 1
  tableId := 0
  truncateWalOnFlush := true
  background := none
  staged := []
  stagedIds := (0, 0)
  asked := 0

end Open

/-- Which of the three log steps of a commit fail, and how. -/
structure CommitFaults where
  batch : Option Wal.AppendFault
  commit : Option Wal.AppendFault
  sync : Bool

/-- The log step of a commit: what it did to the file stays, and its failure ends the commit. -/
def logStep (xxh3 : List UInt8 → UInt64) (record : WalRecord) (fault : Option Wal.AppendFault) :
    Traced TableStore StoreError Unit := do
  expose (torn (record.bytes xxh3))
  let store ← get
  let (result, file) := record.attempt xxh3 fault (store.disk.wal.getD [])
  publish fun store => { store with disk.wal := some file }
  lift result

def stamped (store : TableStore) (rows : List StoredRow) : List StoredRow :=
  rows.map fun row => { row with version := store.commitVersion + 1 }

/-- The transaction is applied, once it is in the log. -/
def withCommit (rows : List StoredRow) (commitSequence version : UInt64) (store : TableStore) :
    TableStore :=
  { store with
    memtable := store.memtable.applyAll rows
    lastSequence := commitSequence
    commitVersion := version }

/-- Commit one local transaction; answers the version its rows were stamped with. -/
def commit (world : World) (faults : CommitFaults) (rows : List StoredRow) :
    Traced TableStore StoreError UInt64 := do
  let store ← get
  if !store.options.transactional then
    fail (.formatLimit "commit requires a transactional store")
  else if store.commitVersion = maxRowId then fail .sequenceOverflow
  else do
    let version := store.commitVersion + 1
    let rows := store.stamped rows
    validateRows rows
    let sequence ← nextSequence
    when (!rows.isEmpty)
      (logStep world.xxh3 (.batch sequence store.tableId store.schema rows) faults.batch)
    if sequence = maxRowId then fail .sequenceOverflow
    else do
      let commitSequence := sequence + 1
      logStep world.xxh3 (.commit commitSequence version) faults.commit
      if faults.sync then fail (.io "sync WAL commit")
      else do
        modify (withCommit rows commitSequence version)
        let store ← get
        when (store.memtable.estimatedBytes ≥ store.options.memtableBytes) do
          let _ ← flush world
          advanceCompaction world
        pure version

end TableStore

end Pintail
