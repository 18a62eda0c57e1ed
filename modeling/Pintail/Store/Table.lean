import Pintail.Compaction.Merge
import Pintail.Support.Traced

/-! # The table store

The writer's handle of one table: the files readers and the next open see, and what the handle keeps
in memory. Rows wait in the memtable until a flush publishes them as a segment, and merges replace
segments in the background or in line.
-/

namespace Pintail

open Versioned Compaction Traced

/-- The files of a table; a segment file is the segment its manifest names. -/
structure Disk where
  manifest : Option Manifest
  wal : Option (List UInt8)
  deriving DecidableEq, Repr

/-- A merge on its own thread: what it reads is fixed when it starts, and so is what it writes. -/
structure BackgroundMerge where
  inputFiles : List ℕ
  outcome : Except StoreError (List (List Segment))
  /-- Set for the rewrite of old segments: the bytes it rewrites. -/
  upgrade : Option ℕ

/-- What the writer finds when it looks at a merge. -/
inductive MergeProgress
  | running
  | finished
  /-- Ended without a result: asked to yield, or lost. -/
  | stopped

/-- What the store asks of the world outside: a checksum function, the sizes of its files, and by
how often it asked before, the free space of the volume and the progress of its merges. -/
structure World where
  xxh3 : List UInt8 → UInt64
  fileSize : Segment → ℕ
  available : ℕ → ℕ
  merge : ℕ → MergeProgress

structure TableStore where
  disk : Disk
  schema : TableSchema
  options : StoreOptions
  memtable : Memtable
  manifest : Manifest
  lastSequence : UInt64
  /-- The highest committed transaction version, or the highest applied row version flushed. -/
  commitVersion : UInt64
  nextAppendRowId : UInt64
  tableId : UInt64
  truncateWalOnFlush : Bool
  background : Option BackgroundMerge
  staged : List Segment
  /-- The identifiers reserved for staging, from the first up to the second. -/
  stagedIds : ℕ × ℕ
  /-- How often the store asked about free space or a merge. -/
  asked : ℕ

structure FlushOutcome where
  rowCount : ℕ
  segment : Option ℕ

structure CompactionOutcome where
  inputSegments : ℕ
  outputRows : ℕ
  output : Option ℕ
  deferred : Option String

/-- Identifiers one background rewrite reserves. -/
def reservedSegmentIds : ℕ := 65536

namespace Manifest

def rowsUnder (schema : TableSchema) (manifest : Manifest) : List StoredRow :=
  manifest.segments.flatMap (Segment.rowsUnder schema)

def flushed (manifest : Manifest) (segment : Segment) (sequence version : UInt64) : Manifest :=
  { manifest.next with
    flushedSequence := sequence
    committedVersion := version
    nextSegmentId := manifest.nextSegmentId + 1
    segments := manifest.segments ++ [segment] }

/-- Set identifiers aside; no rows move, so the epoch stays. -/
def reserve (manifest : Manifest) (count : ℕ) : Manifest :=
  { manifest with
    generation := manifest.generation + 1
    nextSegmentId := manifest.nextSegmentId + count }

def compacted (manifest : Manifest) (indices : List ℕ) (outputs : List Segment) : Manifest :=
  { manifest.next with
    nextSegmentId := manifest.nextSegmentId + outputs.length
    segments := unselected manifest.segments indices ++ outputs }

/-- The outputs of a merge in place of its inputs, which go by name. -/
def merged (manifest : Manifest) (inputFiles : List ℕ) (outputs : List Segment) : Manifest :=
  { manifest.next with
    segments := manifest.segments.filter (fun segment => !inputFiles.contains segment.id) ++
      outputs }

/-- The outputs of a rewrite, each in its input's place; an input that left the table is skipped. -/
def rewritten (manifest : Manifest) (groups : List (ℕ × List Segment)) : Manifest :=
  { manifest.next with
    segments := groups.foldl (fun segments (file, outputs) =>
      match segments.findIdx? fun segment => segment.id == file with
      | some place => segments.take place ++ outputs ++ segments.drop (place + 1)
      | none => segments) manifest.segments }

end Manifest

namespace TableStore

def withManifest (store : TableStore) (manifest : Manifest) : TableStore :=
  { store with disk.manifest := some manifest, manifest }

def mapWal (f : List UInt8 → List UInt8) (store : TableStore) : TableStore :=
  { store with disk.wal := store.disk.wal.map f }

/-- All rows stored: those of the segments, then those of the memtable in their written form. -/
def rows (store : TableStore) : List StoredRow :=
  store.manifest.rowsUnder store.schema ++ store.memtable.values.map StoredRow.durable

def shown (store : TableStore) (key : PrimaryKey) : Option StoredRow :=
  Versioned.shown store.rows key

def inputs (store : TableStore) (plan : CompactionPlan) : List Segment :=
  selected store.manifest.segments plan.indices

def flushVersion (store : TableStore) : UInt64 :=
  if store.options.transactional then store.commitVersion
  else store.memtable.newestVersion.elim store.commitVersion (max store.commitVersion)

def withFlushed (segment : Segment) (store : TableStore) : TableStore :=
  { store.withManifest (store.manifest.flushed segment store.lastSequence store.flushVersion) with
    commitVersion := store.flushVersion }

def withMerge (merge : BackgroundMerge) (store : TableStore) : TableStore :=
  { store.withManifest (store.manifest.reserve reservedSegmentIds) with background := some merge }

def withoutMerge (store : TableStore) : TableStore := { store with background := none }

def askedAgain (store : TableStore) : TableStore := { store with asked := store.asked + 1 }

section Operations

variable (world : World)

def mergeOutputs (store : TableStore) (plan : CompactionPlan) (id : ℕ) :
    Except StoreError (List Segment) :=
  let segments := store.manifest.segments
  -- a merge of the whole table writes at the coldest tier
  let compression := if plan.indices.length = segments.length then .zstd else .adaptiveLz4
  runMerge world.xxh3 store.options plan.window (mergeDropsTombstones segments plan.indices)
    store.schema (store.inputs plan) compression id

def plan (store : TableStore) : Option CompactionPlan :=
  compactionPlan store.options world.fileSize store.schema store.manifest.segments

def backgroundMerge (store : TableStore) (plan : CompactionPlan) : BackgroundMerge where
  inputFiles := (store.inputs plan).map Segment.id
  outcome := (fun outputs => [outputs]) <$>
    store.mergeOutputs world plan store.manifest.nextSegmentId
  upgrade := none

def writeSegment (store : TableStore) (id : ℕ) (rows : List StoredRow) :
    Except StoreError Segment :=
  Segment.write world.xxh3 id store.schema rows store.options.blockRows .adaptiveLz4
    (rows.all fun row => !row.deleted)

def publishFlushed (rows : List StoredRow) : Traced TableStore StoreError ℕ := do
  let store ← get
  let segment ← lift (store.writeSegment world store.manifest.nextSegmentId rows)
  publish (withFlushed segment)
  pure segment.id

def flush : Traced TableStore StoreError FlushOutcome := do
  let store ← get
  let rows := store.memtable.values
  if rows.isEmpty then pure ⟨0, none⟩
  else do
    let segment ← publishFlushed world rows
    modify fun store => { store with memtable := .empty }
    when store.truncateWalOnFlush (publish (mapWal Wal.reset))
    pure ⟨rows.length, some segment⟩

/-- Whether the volume can hold a merge's output beside its inputs. -/
def mergeFitsOnDisk (plan : CompactionPlan) : Traced TableStore StoreError Bool := do
  let store ← get
  modify askedAgain
  pure (world.available store.asked ≥ plan.debtBytes + store.options.compactionDiskReserveBytes)

/-- Replace a finished merge's inputs by its outputs in a new manifest. The merge is taken off the
handle with it. -/
def publishMerge (merge : BackgroundMerge) (groups : List (List Segment)) :
    Traced TableStore StoreError Unit := do
  let store ← get
  let inputs := merge.inputFiles
  let retired := store.manifest.segments.filter fun segment => inputs.contains segment.id
  if merge.upgrade.isSome then
    if retired.isEmpty then modify withoutMerge
    else publish fun store =>
      (store.withManifest (store.manifest.rewritten (inputs.zip groups))).withoutMerge
  else publish fun store =>
    (store.withManifest (store.manifest.merged inputs groups.flatten)).withoutMerge

def pollBackgroundMerge : Traced TableStore StoreError Bool := do
  let store ← get
  match store.background with
  | none => pure false
  | some merge => do
    modify askedAgain
    match world.merge store.asked, merge.outcome with
    | .running, _ => pure false
    | .finished, .ok groups => do
      publishMerge merge groups
      pure true
    | _, _ => do
      modify withoutMerge
      pure false

def spawnBackgroundMerge : Traced TableStore StoreError Unit := do
  let store ← get
  match store.plan world with
  | none => pure ()
  | some plan => do
    let fits ← mergeFitsOnDisk world plan
    if fits then publish (withMerge (store.backgroundMerge world plan)) else pure ()

/-- Merge on the writer's own thread, unless a background merge is in flight. -/
def mergeInLine : Traced TableStore StoreError CompactionOutcome := do
  let store ← get
  if store.background.isSome then pure ⟨0, 0, none, some "a background merge is in flight"⟩
  else
    match store.plan world with
    | none => pure ⟨0, 0, none, none⟩
    | some plan => do
      let fits ← mergeFitsOnDisk world plan
      if fits then
        let outputs ← lift (store.mergeOutputs world plan store.manifest.nextSegmentId)
        publish (·.withManifest (store.manifest.compacted plan.indices outputs))
        pure ⟨plan.indices.length, (outputs.map Segment.rowCount).sum,
          outputs.head?.map Segment.id, none⟩
      else pure ⟨0, 0, none, some "free disk space cannot cover the planned merge"⟩

/-- One bounded merge on the writer's own thread; a finished background merge is published first. -/
def compact : Traced TableStore StoreError CompactionOutcome := do
  let store ← get
  when store.background.isSome do
    let _ ← pollBackgroundMerge world
    pure ()
  mergeInLine world

/-- Move compaction forward: publish a finished merge and start the next, or merge in line. -/
def advanceCompaction : Traced TableStore StoreError Unit := do
  let store ← get
  if store.options.backgroundCompaction then
    let _ ← pollBackgroundMerge world
    let store ← get
    when (store.background.isNone &&
        store.manifest.segments.length ≥ store.options.compactionFanIn)
      (spawnBackgroundMerge world)
  else
    when (store.manifest.segments.length ≥ store.options.compactionFanIn) do
      let _ ← compact world
      pure ()

/-- Move compaction forward when no write does; answers whether a merge is running. -/
def maintain : Traced TableStore StoreError Bool := do
  let store ← get
  if store.options.backgroundCompaction then
    let _ ← pollBackgroundMerge world
    let store ← get
    when store.background.isNone (spawnBackgroundMerge world)
    let store ← get
    pure store.background.isSome
  else
    let _ ← compact world
    pure false

end Operations

end TableStore

end Pintail
