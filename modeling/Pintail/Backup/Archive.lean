import Mathlib.Data.List.Sort
import Pintail.Support.Except
import Pintail.Support.Traced

/-! # Backups of a database

A backup uploads the pinned table manifests and segments, reuses the segments of its parent that
have not changed, publishes its own manifest last and is then listed as completed. A retention sweep
deletes what no kept backup refers to. Every call to the object store or to the metadata may fail.
-/

namespace Pintail.Backup

variable {δ : Type}

/-- An object key below the database's directory, in components. -/
inductive ObjectKey
  | backup (backupId : String)
  | tableManifest (backupId table : String)
  | segment (backupId table fileName : String)
  deriving DecidableEq, Repr

namespace ObjectKey

def backupId : ObjectKey → String
  | backup id => id
  | tableManifest id _ => id
  | segment id _ _ => id

def fileName : ObjectKey → String
  | backup _ => "backup.json"
  | tableManifest _ _ => "manifest.ptm"
  | segment _ _ name => name

def isBackup : ObjectKey → Bool
  | backup _ => true
  | _ => false

end ObjectKey

structure SourceSegment where
  fileName : String
  bytes : List UInt8

structure SourceTable where
  name : String
  directoryName : String
  manifest : List UInt8
  segments : List SourceSegment

/-- The tables a backup pins: each in a directory of its own, each file under a name of its own. -/
structure Pinned where
  tables : List SourceTable
  names : (tables.map SourceTable.name).Nodup
  directories : (tables.map SourceTable.directoryName).Nodup
  fileNames : ∀ table ∈ tables,
    ("manifest.ptm" :: table.segments.map SourceSegment.fileName).Nodup

def SourceTable.files (table : SourceTable) : List ((String × String) × List UInt8) :=
  ((table.directoryName, "manifest.ptm"), table.manifest) ::
    table.segments.map fun segment => ((table.directoryName, segment.fileName), segment.bytes)

def Pinned.files (pinned : Pinned) : List ((String × String) × List UInt8) :=
  pinned.tables.flatMap SourceTable.files

structure ObjectReference (δ : Type) where
  key : ObjectKey
  sha256 : δ
  bytes : ℕ
  sourceBackupId : String

structure BackupTable (δ : Type) where
  name : String
  directoryName : String
  manifest : ObjectReference δ
  segments : List (ObjectReference δ)

structure BackupManifest (δ : Type) where
  formatVersion : ℕ
  backupId : String
  parentId : Option String
  tables : List (BackupTable δ)

inductive Object (δ : Type)
  | file (bytes : List UInt8)
  | manifest (manifest : BackupManifest δ)

inductive Kind
  | full
  | incremental
  deriving DecidableEq, Repr

inductive Status
  | running
  | completed
  | error
  deriving DecidableEq, Repr

/-- A row of the backups table, with the tables its backup pinned beside it. -/
structure BackupRecord where
  id : String
  kind : Kind
  parentId : Option String
  status : Status
  startedAt : String
  pinned : Pinned

/-- The object store and the metadata of a database, with the identifiers given out so far. -/
structure Archive (δ : Type) where
  objects : ObjectKey → Option (Object δ)
  records : List BackupRecord
  taken : List String

inductive BackupError
  | unsafeComponent (label : String)
  | parentMismatch
  | parentMissing
  | parentUnexpected
  | missingObject (key : ObjectKey)
  | malformedManifest
  | unsupportedFormat (version : ℕ)
  | identity
  | tableExists (name : String)
  | duplicatePath
  | unexpectedSize (key : ObjectKey)
  | verification (key : ObjectKey)
  | failed
  | duplicateId (id : String)
  | notRunning (id : String)
  | stillReferenced (id : String)
  deriving DecidableEq, Repr

namespace Archive

def empty : Archive δ := ⟨fun _ => none, [], []⟩

def put (archive : Archive δ) (key : ObjectKey) (object : Object δ) : Archive δ :=
  { archive with objects := fun k => if k = key then some object else archive.objects k }

def delete (archive : Archive δ) (key : ObjectKey) : Archive δ :=
  { archive with objects := fun k => if k = key then none else archive.objects k }

end Archive

def backupFormatVersion : ℕ := 1

def unsafeComponent (component : String) : Bool :=
  component.isEmpty || component == "." || component == ".." ||
    component.toList.any fun c => c == '/' || c == Char.ofNat 92 ||
      decide (c.toNat < 32) || decide (127 ≤ c.toNat ∧ c.toNat < 160)

def validateComponent (component label : String) : Except BackupError Unit :=
  if unsafeComponent component then .error (.unsafeComponent label) else .ok ()

def validateParent (parentId : Option String) (parent : Option (BackupManifest δ)) :
    Except BackupError Unit :=
  match parentId, parent with
  | none, none => .ok ()
  | some id, some manifest => if manifest.backupId = id then .ok () else .error .parentMismatch
  | some _, none => .error .parentMissing
  | none, some _ => .error .parentUnexpected

def loadManifest (objects : ObjectKey → Option (Object δ)) (backupId : String) :
    Except BackupError (BackupManifest δ) := do
  validateComponent backupId "backup ID"
  match objects (.backup backupId) with
  | none => .error (.missingObject (.backup backupId))
  | some (.file _) => .error .malformedManifest
  | some (.manifest manifest) =>
    if manifest.formatVersion ≠ backupFormatVersion then
      .error (.unsupportedFormat manifest.formatVersion)
    else if manifest.backupId ≠ backupId then .error .identity
    else .ok manifest

def BackupTable.objectKeys (table : BackupTable δ) : List ObjectKey :=
  table.manifest.key :: table.segments.map ObjectReference.key

def manifestObjectKeys (manifest : BackupManifest δ) : List ObjectKey :=
  manifest.tables.flatMap BackupTable.objectKeys

/-- The segment of the parent under the same table and file name; the last one stands. -/
def inheritedSegment (parent : Option (BackupManifest δ)) (table fileName : String) :
    Option (ObjectReference δ) :=
  match parent with
  | none => none
  | some manifest =>
    ((manifest.tables.filter fun t => t.name = table).flatMap BackupTable.segments).reverse.find?
      fun reference => reference.key.fileName = fileName

section Restore

variable [DecidableEq δ] (sha256 : List UInt8 → δ)

def restoreObject (objects : ObjectKey → Option (Object δ)) (reference : ObjectReference δ) :
    Except BackupError (List UInt8) :=
  match objects reference.key with
  | none => .error (.missingObject reference.key)
  | some (.manifest _) => .error (.verification reference.key)
  | some (.file bytes) =>
    if bytes.length ≠ reference.bytes then .error (.unexpectedSize reference.key)
    else if sha256 bytes ≠ reference.sha256 then .error (.verification reference.key)
    else .ok bytes

def restoreTargets : List String → List (BackupTable δ) →
    Except BackupError (List (ObjectReference δ × String × String))
  | _, [] => .ok []
  | made, table :: tables => do
    validateComponent table.name "table name"
    validateComponent table.directoryName "table directory name"
    if table.directoryName ∈ made then .error (.tableExists table.name)
    else
      table.segments.forM fun segment => validateComponent segment.key.fileName "segment file name"
      let rest ← restoreTargets (table.directoryName :: made) tables
      .ok ((table.manifest, table.directoryName, "manifest.ptm") ::
        table.segments.map (fun segment => (segment, table.directoryName, segment.key.fileName)) ++
        rest)

/-- What a restore leaves on disk: directory, name and content of each file. -/
def restoreBackup (archive : Archive δ) (backupId : String) :
    Except BackupError (List ((String × String) × List UInt8)) := do
  let manifest ← loadManifest archive.objects backupId
  let targets ← restoreTargets [] manifest.tables
  if ¬ (targets.map Prod.snd).Nodup then .error .duplicatePath
  else targets.mapM fun target => do
    let bytes ← restoreObject sha256 archive.objects target.1
    .ok (target.2, bytes)

end Restore

/-- How a call ends: done, refused, or done while its caller hears of a failure. -/
inductive Reply
  | done
  | refused
  | lost

/-- An archive and how the calls still to come will end. -/
structure World (δ : Type) where
  archive : Archive δ
  replies : List Reply

open Traced

abbrev Task (δ α : Type) := Traced (World δ) BackupError α

def reply : Task δ Reply := do
  let world ← get
  modify fun w => { w with replies := w.replies.tail }
  pure (world.replies.headD .done)

def change (f : Archive δ → Archive δ) : Task δ Unit := do
  match ← reply with
  | .done => publish fun w => { w with archive := f w.archive }
  | .refused => fail .failed
  | .lost => do
    publish fun w => { w with archive := f w.archive }
    fail .failed

def observe : Task δ (Archive δ) := do
  match ← reply with
  | .done => do
    let world ← get
    pure world.archive
  | _ => fail .failed

section Create

variable [DecidableEq δ] (sha256 : List UInt8 → δ) (backupId : String)
  (parent : Option (BackupManifest δ))

def putBytes (key : ObjectKey) (bytes : List UInt8) : Task δ (ObjectReference δ) := do
  change fun archive => archive.put key (.file bytes)
  pure ⟨key, sha256 bytes, bytes.length, backupId⟩

def transferSegment (table : String) (segment : SourceSegment) : Task δ (ObjectReference δ) := do
  lift (validateComponent segment.fileName "segment file name")
  match inheritedSegment parent table segment.fileName with
  | some existing =>
    if sha256 segment.bytes = existing.sha256 ∧ segment.bytes.length = existing.bytes then
      pure existing
    else putBytes sha256 backupId (.segment backupId table segment.fileName) segment.bytes
  | none => putBytes sha256 backupId (.segment backupId table segment.fileName) segment.bytes

/-- Every transfer is carried out, also after one has failed. -/
def transferSegments (table : String) :
    List SourceSegment → Task δ (List (Except BackupError (ObjectReference δ)))
  | [] => pure []
  | segment :: segments => do
    let transfer ← attempt (transferSegment sha256 backupId parent table segment)
    let transfers ← transferSegments table segments
    pure (transfer :: transfers)

def createTable (table : SourceTable) : Task δ (BackupTable δ) := do
  lift (validateComponent table.name "table name")
  lift (validateComponent table.directoryName "table directory name")
  let manifest ← putBytes sha256 backupId (.tableManifest backupId table.name) table.manifest
  let transfers ← transferSegments sha256 backupId parent table.name table.segments
  let segments ← lift (transfers.mapM id)
  pure ⟨table.name, table.directoryName, manifest, segments⟩

def createTables : List SourceTable → Task δ (List (BackupTable δ))
  | [] => pure []
  | table :: tables => do
    let created ← createTable sha256 backupId parent table
    let rest ← createTables tables
    pure (created :: rest)

def createBackup (parentId : Option String) (tables : List SourceTable) : Task δ Unit := do
  lift (validateComponent backupId "backup ID")
  lift (validateParent parentId parent)
  let created ← createTables sha256 backupId parent tables
  let sorted := created.insertionSort fun a b => ¬ b.name < a.name
  change fun archive =>
    archive.put (.backup backupId) (.manifest ⟨backupFormatVersion, backupId, parentId, sorted⟩)

end Create

def completed (records : List BackupRecord) : List BackupRecord :=
  records.filter fun record => record.status = .completed

def latestCompletedBackup (records : List BackupRecord) : Option BackupRecord :=
  ((completed records).insertionSort fun a b =>
    b.startedAt < a.startedAt ∨ b.startedAt = a.startedAt ∧ ¬ a.id < b.id).head?

def backups (records : List BackupRecord) (limit : ℕ) : List BackupRecord :=
  (records.insertionSort fun a b =>
    b.startedAt < a.startedAt ∨ b.startedAt = a.startedAt ∧ ¬ b.id < a.id).take limit

namespace Archive

def startBackup (archive : Archive δ) (record : BackupRecord) : Archive δ :=
  { archive with records := archive.records ++ [record], taken := record.id :: archive.taken }

def finishBackup (archive : Archive δ) (id : String) (status : Status) : Archive δ :=
  { archive with records := archive.records.map fun record =>
      if record.id = id ∧ record.status = .running then { record with status } else record }

def deleteBackupRecord (archive : Archive δ) (id : String) : Archive δ :=
  { archive with records := archive.records.filter fun record =>
      ¬ (record.id = id ∧ record.status ≠ .running) }

end Archive

def startBackup (record : BackupRecord) : Task δ Unit := do
  let world ← get
  if record.id ∈ world.archive.records.map BackupRecord.id then fail (.duplicateId record.id)
  else change fun archive => archive.startBackup record

def finishBackup (id : String) (status : Status) : Task δ Unit := do
  let world ← get
  if world.archive.records.any fun record => record.id = id ∧ record.status = .running then
    change fun archive => archive.finishBackup id status
  else fail (.notRunning id)

/-- The parent's row may not go while a row names it. -/
def deleteBackupRecord (id : String) : Task δ Unit := do
  let world ← get
  if (world.archive.deleteBackupRecord id).records.any fun record => record.parentId = some id then
    fail (.stillReferenced id)
  else change fun archive => archive.deleteBackupRecord id

section Jobs

variable [DecidableEq δ] (sha256 : List UInt8 → δ)

def fetchManifest (backupId : String) : Task δ (BackupManifest δ) := do
  let archive ← observe
  lift (loadManifest archive.objects backupId)

def parentOf (kind : Kind) : Task δ (Option (String × BackupManifest δ)) :=
  match kind with
  | .full => pure none
  | .incremental => do
    let archive ← observe
    match latestCompletedBackup archive.records with
    | none => pure none
    | some record => do
      let manifest ← fetchManifest record.id
      pure (some (record.id, manifest))

def runBackupJob (backupId : String) (kind : Kind) (pinned : Pinned) : Task δ Unit := do
  let parent ← parentOf kind
  createBackup sha256 backupId (parent.map Prod.snd) (parent.map Prod.fst) pinned.tables

def backupJob (backupId startedAt : String) (forceFull : Bool) (pinned : Pinned) :
    Task δ Unit := do
  let archive ← observe
  let parent := latestCompletedBackup archive.records
  let kind := if forceFull || parent.isNone then Kind.full else .incremental
  let parentId := if kind = .incremental then parent.map BackupRecord.id else none
  startBackup ⟨backupId, kind, parentId, .running, startedAt, pinned⟩
  match ← attempt (runBackupJob sha256 backupId kind pinned) with
  | .ok _ => void (attempt (finishBackup backupId .completed))
  | .error _ => void (attempt (finishBackup backupId .error))

def climb (parents : String → Option String) : ℕ → List String → Option String → List String
  | 0, keep, _ => keep
  | _ + 1, keep, none => keep
  | fuel + 1, keep, some id =>
    if id ∈ keep then keep else climb parents fuel (id :: keep) (parents id)

def parentIn (listed : List BackupRecord) (id : String) : Option String :=
  (listed.reverse.find? fun record => record.id = id).bind BackupRecord.parentId

def kept (listed : List BackupRecord) (retain : ℕ) : List String :=
  (listed.take retain).foldl
    (fun keep record => climb (parentIn listed) (listed.length + 2) keep (some record.id)) []

def listedBackups (records : List BackupRecord) : List BackupRecord :=
  completed (backups records 100000)

def pruned (records : List BackupRecord) (retain : ℕ) : List BackupRecord :=
  (listedBackups records).filter fun record =>
    record.id ∉ kept (listedBackups records) retain

def retainedKeys : List String → Task δ (List ObjectKey)
  | [] => pure []
  | id :: ids => do
    let manifest ← fetchManifest id
    let keys ← retainedKeys ids
    pure (manifestObjectKeys manifest ++ keys)

def deleteObjects (retained : List ObjectKey) : List ObjectKey → Task δ Unit
  | [] => pure ()
  | key :: keys => do
    when (key ∉ retained) (change fun archive => archive.delete key)
    deleteObjects retained keys

def deleteBackup (retained : List ObjectKey) (backupId : String) : Task δ Unit := do
  let manifest ← fetchManifest backupId
  deleteObjects retained (manifestObjectKeys manifest)
  change fun archive => archive.delete (.backup backupId)

def pruneBackups (retained : List ObjectKey) : List BackupRecord → Task δ Unit
  | [] => pure ()
  | record :: records => do
    deleteBackup retained record.id
    deleteBackupRecord record.id
    pruneBackups retained records

def applyBackupRetention (retain : ℕ) : Task δ Unit := do
  if retain = 0 then pure ()
  else
    let archive ← observe
    if (listedBackups archive.records).length ≤ retain then pure ()
    else if (pruned archive.records retain).isEmpty then pure ()
    else
      let retained ← retainedKeys (kept (listedBackups archive.records) retain)
      pruneBackups retained (pruned archive.records retain)

inductive Job
  | backup (backupId startedAt : String) (forceFull : Bool) (pinned : Pinned)
  | sweep (retain : ℕ)

def Job.task : Job → Task δ Unit
  | .backup backupId startedAt forceFull pinned =>
    backupJob sha256 backupId startedAt forceFull pinned
  | .sweep retain => applyBackupRetention retain

/-- A job, how its calls end, and the visible state at which the process stops, if it does. -/
structure Attempt where
  job : Job
  replies : List Reply
  stop : Option ℕ

def Attempt.outcome (attempt : Attempt) (archive : Archive δ) :
    Outcome (World δ) BackupError Unit :=
  attempt.job.task sha256 ⟨archive, attempt.replies⟩

def Attempt.after (attempt : Attempt) (archive : Archive δ) : Archive δ :=
  match attempt.stop with
  | none => (attempt.outcome sha256 archive).final.archive
  | some n => (archive :: (attempt.outcome sha256 archive).visited.map World.archive).getD n
      (attempt.outcome sha256 archive).final.archive

def states : List Attempt → Archive δ → List (Archive δ)
  | [], archive => [archive]
  | attempt :: attempts, archive => archive :: states attempts (attempt.after sha256 archive)

end Jobs

end Pintail.Backup
