import Pintail.Store.Segment

/-! # Manifests

A manifest names the segments of a table and how far its log has been flushed into them. A new one
replaces the old in a single rename and carries the next generation.
-/

namespace Pintail

structure Manifest where
  generation : ℕ
  schemaVersion : UInt32
  schemaFingerprint : UInt64
  keyMode : KeyMode
  flushedSequence : UInt64
  nextSegmentId : ℕ
  epoch : ℕ
  committedVersion : UInt64
  segments : List Segment
  deriving DecidableEq, Repr

namespace Manifest

def empty (xxh3 : List UInt8 → UInt64) (schema : TableSchema) : Manifest where
  generation := 0
  schemaVersion := schema.version
  schemaFingerprint := Pintail.schemaFingerprint xxh3 schema
  keyMode := schema.keyMode
  flushedSequence := 0
  nextSegmentId := 1
  epoch := 0
  committedVersion := 0
  segments := []

/-- The check of a manifest's own content when it is read. -/
def read (manifest : Manifest) : Except StoreError Manifest :=
  if manifest.nextSegmentId = 0 ∨ ∃ segment ∈ manifest.segments, segment.id ≥ manifest.nextSegmentId
  then .error (.corruptManifest 0 "next segment id does not follow published segments")
  else .ok manifest

/-- The manifest a table at rest has under a schema. -/
def load (xxh3 : List UInt8 → UInt64) (schema : TableSchema) (file : Option Manifest) :
    Except StoreError Manifest :=
  match file with
  | none => .ok (empty xxh3 schema)
  | some stored => do
    let manifest ← stored.read
    let expected := Pintail.schemaFingerprint xxh3 schema
    if manifest.schemaVersion > schema.version then
      .error (.schemaMismatch schema.version manifest.schemaVersion)
    else if manifest.schemaVersion = schema.version ∧ manifest.schemaFingerprint ≠ expected then
      .error (.schemaFingerprintMismatch expected manifest.schemaFingerprint)
    else if manifest.keyMode ≠ schema.keyMode then
      .error (.incompatibleSchema "table key mode cannot change after data is created")
    else .ok manifest

/-- The manifest made from this one: the next generation, and the next epoch if rows moved. -/
def next (manifest : Manifest) : Manifest :=
  { manifest with generation := manifest.generation + 1, epoch := manifest.epoch + 1 }

theorem load_some {xxh3 : List UInt8 → UInt64} {schema : TableSchema} {stored manifest : Manifest}
    (h : load xxh3 schema (some stored) = .ok manifest) : manifest = stored := by
  obtain ⟨read, hr, h⟩ := Except.bind_eq_ok.mp h
  have hread : read = stored := by
    unfold Manifest.read at hr
    split_ifs at hr
    exact (Except.ok.inj hr).symm
  dsimp only at h
  split_ifs at h
  rw [← Except.ok.inj h, hread]

end Manifest

end Pintail
