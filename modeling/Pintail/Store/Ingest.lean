import Pintail.Store.Table

/-! # Writing to a table

Rows reach a table through its log and memtable, or as segments written beside it and published in
one manifest swap: batches too large for the log, the pieces of a large source transaction, and the
chunks of a first copy.
-/

namespace Pintail

open Versioned Traced

structure IngestOutcome where
  sequence : UInt64
  acceptedRows : ℕ
  visibleRows : ℕ
  shouldFlush : Bool

structure BulkIngestOutcome where
  rowCount : ℕ
  segment : Option ℕ

/-- Whether a keyless table numbers the rows itself or keeps the numbers they come with. -/
inductive AppendKeyPolicy
  | generate
  | preserve

/-- Row bytes past which one batch is stored as segments rather than through the log. -/
def directIngestBytes : ℕ := 32 * 1024 * 1024

def stagedSegmentBytes : ℕ := 32 * 1024 * 1024

def stagedSegmentIds : ℕ := 1024

inductive KeyBound
  | unbounded
  | included (key : PrimaryKey)
  | excluded (key : PrimaryKey)

structure KeyRange where
  start : KeyBound
  stop : KeyBound

def KeyRange.contains (range : KeyRange) (key : PrimaryKey) : Bool :=
  (match range.start with
    | .unbounded => true
    | .included low => low ≤ key
    | .excluded low => low < key) &&
  (match range.stop with
    | .unbounded => true
    | .included high => key ≤ high
    | .excluded high => key < high)

/-- By key, and by version within a key. -/
def sortRows (rows : List StoredRow) : List StoredRow :=
  rows.insertionSort fun left right =>
    toLex (left.key, left.version) ≤ toLex (right.key, right.version)

/-- Of neighbouring rows with one key, the last. -/
def deduplicate (rows : List StoredRow) : List StoredRow :=
  rows.foldl (fun kept row =>
    if kept.getLast?.any fun previous => previous.key == row.key then kept.dropLast ++ [row]
    else kept ++ [row]) []

structure StagedPieces where
  pieces : List (List StoredRow)
  piece : List StoredRow
  bytes : ℕ

namespace StagedPieces

def take (state : StagedPieces) (row : StoredRow) : StagedPieces :=
  if state.piece.getLast?.any fun previous => previous.key == row.key then
    { state with piece := state.piece.dropLast ++ [row] }
  else if state.bytes ≥ stagedSegmentBytes then
    ⟨state.pieces ++ [state.piece], [row], row.estimatedBytes⟩
  else { state with piece := state.piece ++ [row], bytes := state.bytes + row.estimatedBytes }

end StagedPieces

/-- A batch cut into the rows of staged segments, one row for each key. -/
def stagedPieces (rows : List StoredRow) : List (List StoredRow) :=
  let state := (sortRows rows).foldl StagedPieces.take ⟨[], [], 0⟩
  state.pieces ++ [state.piece]

def Manifest.emptied (xxh3 : List UInt8 → UInt64) (schema : TableSchema)
    (manifest : Manifest) : Manifest :=
  { Manifest.empty xxh3 schema with
    generation := manifest.generation + 1
    epoch := manifest.epoch + 1
    nextSegmentId := manifest.nextSegmentId }

namespace TableStore

def maxRowId : UInt64 := 18446744073709551615

def rowIdKey (id : UInt64) : PrimaryKey := ⟨[.uint64 id], by simp⟩

/-- The highest row version this replicated table has applied, stored or not. -/
def appliedVersion (store : TableStore) : UInt64 :=
  max store.commitVersion (store.memtable.newestVersion.getD 0)

/-- What is left of a batch when the rows applied before are taken out. -/
def unapplied (store : TableStore) (rows : List StoredRow) : List StoredRow :=
  rows.filter fun row => row.version > store.appliedVersion

def validateRows (rows : List StoredRow) : Traced TableStore StoreError Unit := do
  let store ← get
  lift (rows.forM fun row => (store.schema.validateRow row).mapError StoreError.schema)

def generateAppendKeys : List StoredRow → Traced TableStore StoreError (List StoredRow)
  | [] => pure []
  | row :: rows => do
    let store ← get
    let id := store.nextAppendRowId
    if id = maxRowId then fail .sequenceOverflow
    else do
      modify fun store => { store with nextAppendRowId := id + 1 }
      let rows ← generateAppendKeys rows
      pure ({ row with key := rowIdKey id } :: rows)

def preserveAppendKeys : List StoredRow → Traced TableStore StoreError Unit
  | [] => pure ()
  | row :: rows =>
    match row.key.parts with
    | [.uint64 id] =>
      if id = 0 then fail (.formatLimit "CDC append key must be non-zero")
      else if id = maxRowId then fail .sequenceOverflow
      else do
        modify fun store => { store with nextAppendRowId := max store.nextAppendRowId (id + 1) }
        preserveAppendKeys rows
    | _ => fail (.formatLimit "CDC append key must contain one UInt64 component")

def visibleRows (memtable : Memtable) (rows : List StoredRow) : ℕ :=
  (rows.foldl (fun (table, count) row =>
    ((table.insert row).1, count + (table.insert row).2.toNat)) (memtable, 0)).2

/-- The log while a record reaches its end byte by byte. -/
def torn (record : List UInt8) (store : TableStore) : List TableStore :=
  (List.range record.length).map fun n => store.mapWal (· ++ record.take n)

def withRows (sequence : UInt64) (record : List UInt8) (rows : List StoredRow)
    (store : TableStore) : TableStore :=
  { store.mapWal (· ++ record) with
    memtable := store.memtable.applyAll rows, lastSequence := sequence }

/-- Append the record; nobody can look at the handle before its rows are in the memtable too. -/
def appendRows (xxh3 : List UInt8 → UInt64) (sequence : UInt64) (payload : List UInt8)
    (rows : List StoredRow) : Traced TableStore StoreError Unit := do
  let record := Wal.record xxh3 payload
  expose (torn record)
  publish (withRows sequence record rows)

def withStagedIds (store : TableStore) : TableStore :=
  { store.withManifest (store.manifest.reserve stagedSegmentIds) with
    stagedIds := (store.manifest.nextSegmentId, store.manifest.nextSegmentId + stagedSegmentIds) }

def withIdTaken (store : TableStore) : TableStore :=
  { store with stagedIds := (store.stagedIds.1 + 1, store.stagedIds.2) }

def unpublished (store : TableStore) : List Segment :=
  store.staged.filter fun segment => !store.manifest.segments.any fun held =>
    held.sameSpan segment && held.sameContents segment

def stagedVersion (store : TableStore) : UInt64 :=
  if store.options.transactional then store.commitVersion
  else (store.staged.map Segment.maxVersion).foldl max store.commitVersion

def withoutStaged (store : TableStore) : TableStore := { store with staged := [] }

def withStagedPublished (store : TableStore) : TableStore :=
  { store.withManifest { store.manifest.next with
      committedVersion := store.stagedVersion
      segments := store.manifest.segments ++ store.unpublished } with
    commitVersion := store.stagedVersion
    staged := [] }

section Operations

variable (world : World)

def stageSegment (rows : List StoredRow) : Traced TableStore StoreError Unit :=
  if rows.isEmpty then pure ()
  else do
    let store ← get
    when (store.stagedIds.1 = store.stagedIds.2) (publish withStagedIds)
    let store ← get
    modify withIdTaken
    let segment ← lift (store.writeSegment world store.stagedIds.1 rows)
    modify fun store => { store with staged := store.staged ++ [segment] }

def stageRows (rows : List StoredRow) : Traced TableStore StoreError Unit :=
  if rows.isEmpty then pure ()
  else do
    let store ← get
    -- nothing older may stay in the memtable once newer rows sit in segments
    when store.staged.isEmpty do
      let _ ← flush world
      pure ()
    (stagedPieces rows).forM (stageSegment world)

/-- Take the staged pieces into the table, in one manifest swap. -/
def joinStaged : Traced TableStore StoreError Unit := do
  let store ← get
  if store.unpublished.isEmpty then modify withoutStaged else publish withStagedPublished

def publishStaged : Traced TableStore StoreError ℕ := do
  let store ← get
  if store.staged.isEmpty then pure 0
  else do
    let segments := store.unpublished
    joinStaged
    when (!store.options.backgroundCompaction) do
      (List.replicate segments.length ()).forM fun _ => advanceCompaction world
    advanceCompaction world
    pure segments.length

/-- The record a batch is logged as; a table that owns its log can store a batch too large for it as
segments instead. -/
def logPayload (sequence : UInt64) (rows : List StoredRow) :
    Traced TableStore StoreError (Option (List UInt8)) := do
  let store ← get
  let direct := store.truncateWalOnFlush && !store.options.transactional
  if direct && (rows.map StoredRow.estimatedBytes).sum > directIngestBytes then pure none
  else do
    let payload ← lift (Wal.encodeBatch sequence store.tableId store.schema rows)
    if !direct || payload.length ≤ Wal.maxRecordLength then pure (some payload) else pure none

def ingestRows (sequence : UInt64) (rows : List StoredRow) :
    Traced TableStore StoreError IngestOutcome := do
  let store ← get
  match ← logPayload sequence rows with
  | none => do
    stageRows world rows
    let _ ← publishStaged world
    let store ← get
    pure ⟨store.lastSequence, rows.length, rows.length, false⟩
  | some payload =>
    -- only a shared log is handed a record it may refuse
    if payload.length > Wal.maxRecordLength then
      fail (.formatLimit (Wal.recordTooLong payload))
    else do
      appendRows world.xxh3 sequence payload rows
      let written ← get
      let shouldFlush := written.memtable.estimatedBytes ≥ written.options.memtableBytes
      when shouldFlush do
        let _ ← flush world
        advanceCompaction world
      pure ⟨sequence, rows.length, visibleRows store.memtable rows, shouldFlush⟩

def appendKeys (policy : AppendKeyPolicy) (rows : List StoredRow) :
    Traced TableStore StoreError (List StoredRow) := do
  let store ← get
  if store.schema.keyMode ≠ .appendRowId then pure rows
  else
    match policy with
    | .generate => generateAppendKeys rows
    | .preserve => do
      preserveAppendKeys rows
      pure rows

/-- A merge that finished since the last write is published now, and the next one started. -/
def catchUpCompaction : Traced TableStore StoreError Unit := do
  let store ← get
  when store.background.isSome do
    let published ← pollBackgroundMerge world
    when published (spawnBackgroundMerge world)

def ingestAtSequenceWithAppendPolicy (sequence : UInt64) (rows : List StoredRow)
    (policy : AppendKeyPolicy) : Traced TableStore StoreError IngestOutcome := do
  validateRows rows
  let store ← get
  if rows.isEmpty then pure ⟨store.lastSequence, 0, 0, false⟩
  else do
    let rows ← appendKeys policy rows
    if sequence ≤ store.lastSequence then
      fail (.formatLimit s!"WAL sequence {sequence} must follow {store.lastSequence}")
    else do
      catchUpCompaction world
      ingestRows world sequence rows

def nextSequence : Traced TableStore StoreError UInt64 := do
  let store ← get
  if store.lastSequence = maxRowId then fail .sequenceOverflow
  else pure (store.lastSequence + 1)

def ingest (rows : List StoredRow) : Traced TableStore StoreError IngestOutcome := do
  let sequence ← nextSequence
  ingestAtSequenceWithAppendPolicy world sequence rows .generate

def ingestCdc (rows : List StoredRow) : Traced TableStore StoreError IngestOutcome := do
  let sequence ← nextSequence
  ingestAtSequenceWithAppendPolicy world sequence rows .preserve

/-- Ingest a batch of a change stream that may be reading again what the table holds. -/
def ingestCdcInOrder (rows : List StoredRow) : Traced TableStore StoreError IngestOutcome := do
  let store ← get
  ingestCdc world (store.unapplied rows)

/-- Write part of a change batch as segments no reader sees yet. -/
def stageCdc (rows : List StoredRow) : Traced TableStore StoreError Unit := do
  let store ← get
  if !store.truncateWalOnFlush || store.options.transactional then
    fail (.formatLimit "staging requires a table that owns its log")
  else do
    let rows := store.unapplied rows
    validateRows rows
    when (store.schema.keyMode = .appendRowId) (preserveAppendKeys rows)
    stageRows world rows

def discardStaged : Traced TableStore StoreError Unit := modify withoutStaged

/-- Whether a segment is a first-copy chunk that lies inside the range. -/
def covered (covers : KeyRange) (segment : Segment) : Bool :=
  segment.maxVersion == 0 && segment.uniqueKeys && segment.tombstones == 0 &&
    covers.contains segment.minKey && covers.contains segment.maxKey

/-- The segments a chunk of the range retires, by name; one that holds the same bytes as the chunk
goes too. -/
def superseded (store : TableStore) (covers : Option KeyRange) (chunk : Option Segment) : List ℕ :=
  let retired := store.manifest.segments.filter fun segment =>
    covers.any (covered · segment) ||
      chunk.any fun chunk => segment.sameSpan chunk && segment.sameContents chunk
  retired.map Segment.id

def withRowIdsAfter (rows : List StoredRow) (store : TableStore) : TableStore :=
  { store with nextAppendRowId := rows.foldl (fun next row =>
      match row.key.parts with
      | [.uint64 id] => max next (if id = maxRowId then id else id + 1)
      | _ => next) store.nextAppendRowId }

/-- The rows of a chunk in key order, one for each key unless they are numbered. -/
def chunkRows (store : TableStore) (rows : List StoredRow) : List StoredRow :=
  if store.schema.keyMode = .appendRowId then sortRows rows else deduplicate (sortRows rows)

def withChunk (covers : Option KeyRange) (chunk : Option Segment) (store : TableStore) :
    TableStore :=
  let retired := store.superseded covers chunk
  store.withManifest { store.manifest.next with
    nextSegmentId := store.manifest.nextSegmentId + chunk.toList.length
    segments := (store.manifest.segments ++ chunk.toList).filter fun segment =>
      !retired.contains segment.id }

def writeChunk (store : TableStore) (rows : List StoredRow) : Except StoreError (Option Segment) :=
  if rows.isEmpty then .ok none
  else some <$> Segment.write world.xxh3 store.manifest.nextSegmentId store.schema rows
    store.options.blockRows .adaptiveLz4 true

/-- Publish one chunk of a first copy as a segment, past the log and the memtable. -/
def ingestSnapshotChunk (rows : List StoredRow) (covers : Option KeyRange) :
    Traced TableStore StoreError BulkIngestOutcome := do
  let store ← get
  if !store.memtable.values.isEmpty then
    fail (.formatLimit "direct snapshot ingest requires an empty memtable")
  else do
    lift (rows.forM fun row => do
      (store.schema.validateRow row).mapError StoreError.schema
      if row.deleted then
        throw (.formatLimit "direct snapshot ingest cannot contain tombstones"))
    if rows.isEmpty && (store.superseded covers none).isEmpty then pure ⟨0, none⟩
    else do
      when (store.schema.keyMode = .appendRowId) (modify (withRowIdsAfter (sortRows rows)))
      let rows := store.chunkRows rows
      let chunk ← lift (store.writeChunk world rows)
      publish (withChunk covers chunk)
      pure ⟨rows.length, chunk.map Segment.id⟩

def bulkIngestSnapshot (rows : List StoredRow) :
    Traced TableStore StoreError BulkIngestOutcome := ingestSnapshotChunk world rows none

/-- Publish a chunk that is the whole source content of a key range, and retire every earlier copy
inside the range. -/
def bulkIngestSnapshotCovering (rows : List StoredRow) (covers : KeyRange) :
    Traced TableStore StoreError BulkIngestOutcome :=
  match rows.find? fun row => !covers.contains row.key with
  | some row =>
    let outside := "lies outside the range the chunk covers"
    fail (.formatLimit s!"snapshot chunk row {repr row.key} {outside}")
  | none => ingestSnapshotChunk world rows (some covers)

def evolveSchema (schema : TableSchema) : Traced TableStore StoreError Unit := do
  let store ← get
  if schema.version ≤ store.schema.version then
    let advance := s!"must advance beyond {store.schema.version}"
    fail (.incompatibleSchema s!"schema version {schema.version} {advance}")
  else if schema.keyMode ≠ store.schema.keyMode then
    fail (.incompatibleSchema "physical key mode changed")
  else do
    let _ ← flush world
    let store ← get
    lift (store.manifest.segments.forM fun segment => do
      let _ ← segment.read schema)
    publish fun store =>
      { store.withManifest { store.manifest.next with
          schemaVersion := schema.version
          schemaFingerprint := schemaFingerprint world.xxh3 schema } with
        schema }

/-- Publish an empty table before a full copy starts over. -/
def resetForResnapshot : Traced TableStore StoreError Unit := do
  modify withoutMerge
  publish (mapWal Wal.reset)
  publish fun store => store.withManifest (store.manifest.emptied world.xxh3 store.schema)
  modify fun store =>
    { store with
      memtable := .empty
      lastSequence := 0
      nextAppendRowId := 1
      commitVersion := if store.options.transactional then store.commitVersion else 0 }

end Operations

end TableStore

end Pintail
