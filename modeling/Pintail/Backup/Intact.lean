import Pintail.Backup.Archive
import Pintail.Support.Grouped

/-! # Intact backups

A backup is intact while its manifest and every object it refers to are in the store as they were
uploaded. An intact backup restores to the files that were pinned. Creating a backup makes it intact
and writes below its own identifier only, so it leaves every other backup intact.
-/

namespace Pintail.Backup

open List SourceTable Except Prod

variable {δ : Type} {sha256 : List UInt8 → δ} {P P' : ObjectKey → Prop}
  {objects objects' : ObjectKey → Option (Object δ)}

/-- The object under a reference is the file that was uploaded; its key is one of those meant. -/
structure Held (sha256 : List UInt8 → δ) (P : ObjectKey → Prop)
    (objects : ObjectKey → Option (Object δ)) (reference : ObjectReference δ)
    (bytes : List UInt8) : Prop where
  among : P reference.key
  part : reference.key.isBackup = false
  object : objects reference.key = some (.file bytes)
  digest : reference.sha256 = sha256 bytes
  size : reference.bytes = bytes.length

structure HeldSegment (sha256 : List UInt8 → δ) (P : ObjectKey → Prop)
    (objects : ObjectKey → Option (Object δ)) (reference : ObjectReference δ)
    (segment : SourceSegment) : Prop where
  held : Held sha256 P objects reference segment.bytes
  fileName : reference.key.fileName = segment.fileName
  safe : unsafeComponent segment.fileName = false

structure HeldTable (sha256 : List UInt8 → δ) (P : ObjectKey → Prop)
    (objects : ObjectKey → Option (Object δ)) (stored : BackupTable δ)
    (table : SourceTable) : Prop where
  name : stored.name = table.name
  directoryName : stored.directoryName = table.directoryName
  safeName : unsafeComponent table.name = false
  safeDirectory : unsafeComponent table.directoryName = false
  manifest : Held sha256 P objects stored.manifest table.manifest
  segments : List.Forall₂ (HeldSegment sha256 P objects) stored.segments table.segments

structure HeldBackup (sha256 : List UInt8 → δ) (P : ObjectKey → Prop)
    (objects : ObjectKey → Option (Object δ)) (id : String) (tables : List SourceTable)
    (manifest : BackupManifest δ) : Prop where
  among : P (.backup id)
  object : objects (.backup id) = some (.manifest manifest)
  safe : unsafeComponent id = false
  version : manifest.formatVersion = backupFormatVersion
  identity : manifest.backupId = id
  tables : ∃ listed : List SourceTable, listed.Perm tables ∧
    List.Forall₂ (HeldTable sha256 P objects) manifest.tables listed

def Intact (sha256 : List UInt8 → δ) (P : ObjectKey → Prop)
    (objects : ObjectKey → Option (Object δ)) (id : String) (tables : List SourceTable) : Prop :=
  ∃ manifest, HeldBackup sha256 P objects id tables manifest

section Carry

variable (hcarry : ∀ k object, P k → objects k = some object → P' k ∧ objects' k = some object)

include hcarry

variable {reference : ObjectReference δ}

theorem Held.carry {bytes : List UInt8}
    (h : Held sha256 P objects reference bytes) : Held sha256 P' objects' reference bytes := by
  obtain ⟨hP, hobject⟩ := hcarry _ _ h.among h.object
  exact ⟨hP, h.part, hobject, h.digest, h.size⟩

theorem HeldSegment.carry {segment : SourceSegment}
    (h : HeldSegment sha256 P objects reference segment) :
    HeldSegment sha256 P' objects' reference segment :=
  ⟨h.held.carry hcarry, h.fileName, h.safe⟩

theorem HeldTable.carry {stored : BackupTable δ} {table : SourceTable}
    (h : HeldTable sha256 P objects stored table) : HeldTable sha256 P' objects' stored table where
  name := h.name
  directoryName := h.directoryName
  safeName := h.safeName
  safeDirectory := h.safeDirectory
  manifest := h.manifest.carry hcarry
  segments := h.segments.imp fun _ _ hs => hs.carry hcarry

variable {tables : List SourceTable} {id : String}

theorem HeldBackup.carry {manifest : BackupManifest δ}
    (h : HeldBackup sha256 P objects id tables manifest) :
    HeldBackup sha256 P' objects' id tables manifest := by
  obtain ⟨hP, hobject⟩ := hcarry _ _ h.among h.object
  obtain ⟨listed, hperm, htables⟩ := h.tables
  exact ⟨hP, hobject, h.safe, h.version, h.identity, listed, hperm,
    htables.imp fun _ _ ht => ht.carry hcarry⟩

theorem Intact.carry
    (h : Intact sha256 P objects id tables) : Intact sha256 P' objects' id tables := by
  obtain ⟨manifest, h⟩ := h
  exact ⟨manifest, h.carry hcarry⟩

end Carry

theorem validateComponent_ok {component label : String} :
    validateComponent component label = .ok () ↔ unsafeComponent component = false := by
  unfold validateComponent
  split_ifs with h <;> simp [h]

variable {manifest : BackupManifest δ} {id : String}

theorem loadManifest_eq_ok :
    loadManifest objects id = .ok manifest ↔ unsafeComponent id = false ∧
      objects (.backup id) = some (.manifest manifest) ∧
      manifest.formatVersion = backupFormatVersion ∧ manifest.backupId = id := by
  unfold loadManifest
  rw [bind_eq_ok]
  constructor
  · rintro ⟨⟨⟩, hsafe, h⟩
    split at h
    · cases h
    · cases h
    · split_ifs at h with hversion hid
      cases h
      exact ⟨validateComponent_ok.mp hsafe, by assumption, not_not.mp hversion, not_not.mp hid⟩
  · rintro ⟨hsafe, hobject, hversion, hid⟩
    exact ⟨(), validateComponent_ok.mpr hsafe, by simp [hobject, hversion, hid]⟩

variable {tables : List SourceTable}

variable (h : HeldBackup sha256 P objects id tables manifest)

include h

theorem HeldBackup.load :
    loadManifest objects id = .ok manifest :=
  loadManifest_eq_ok.mpr ⟨h.safe, h.object, h.version, h.identity⟩

theorem HeldBackup.unique {loaded : BackupManifest δ}
    (hload : loadManifest objects id = .ok loaded) : loaded = manifest := by
  rw [h.load] at hload
  exact (ok.inj hload).symm

theorem HeldBackup.held_of_mem {key : ObjectKey} (hkey : key ∈ manifestObjectKeys manifest) :
    P key ∧ key.isBackup = false := by
  obtain ⟨listed, -, htables⟩ := h.tables
  obtain ⟨stored, hstored, hkey⟩ := mem_flatMap.mp hkey
  obtain ⟨table, -, htable⟩ := htables.exists_of_mem_left hstored
  rcases mem_cons.mp hkey with rfl | hkey
  · exact ⟨htable.manifest.among, htable.manifest.part⟩
  · obtain ⟨reference, hreference, rfl⟩ := mem_map.mp hkey
    obtain ⟨segment, -, hs⟩ := htable.segments.exists_of_mem_left hreference
    exact ⟨hs.held.among, hs.held.part⟩

theorem HeldBackup.of_objectKeys (hbackup : P' (.backup id))
    (hkeys : ∀ key ∈ manifestObjectKeys manifest, P' key) :
    HeldBackup sha256 P' objects id tables manifest := by
  obtain ⟨listed, hperm, htables⟩ := h.tables
  refine ⟨hbackup, h.object, h.safe, h.version, h.identity, listed, hperm, ?_⟩
  have hboth := (forall₂_and_left (p := (· ∈ manifest.tables)) _ _).mpr ⟨fun _ h => h, htables⟩
  apply hboth.imp
  rintro stored table ⟨hstored, htable⟩
  have hpart : ∀ key ∈ stored.objectKeys, P' key := fun key hkey =>
    hkeys key (mem_flatMap.mpr ⟨_, hstored, hkey⟩)
  refine ⟨htable.name, htable.directoryName, htable.safeName, htable.safeDirectory, ?_, ?_⟩
  · exact ⟨hpart _ mem_cons_self, htable.manifest.part, htable.manifest.object,
      htable.manifest.digest, htable.manifest.size⟩
  · refine forall₂_iff_get.mpr ⟨htable.segments.length_eq, fun j hj hj' => ?_⟩
    have hs := forall₂_iff_get.mp htable.segments |>.2 j hj hj'
    refine ⟨⟨hpart _ ?_, hs.held.part, hs.held.object, hs.held.digest, hs.held.size⟩,
      hs.fileName, hs.safe⟩
    exact mem_cons_of_mem _ (mem_map_of_mem (get_mem _ _))

omit h

section Restore

variable [DecidableEq δ]

def BackupTable.targets (table : BackupTable δ) : List (ObjectReference δ × String × String) :=
  (table.manifest, table.directoryName, "manifest.ptm") ::
    table.segments.map fun segment => (segment, table.directoryName, segment.key.fileName)

/-- A restore target stands for a pinned file: the same path, and the object in place. -/
def TargetOf (sha256 : List UInt8 → δ) (objects : ObjectKey → Option (Object δ))
    (target : ObjectReference δ × String × String) (file : (String × String) × List UInt8) : Prop :=
  target.2 = file.1 ∧ Held sha256 (fun _ => True) objects target.1 file.2

omit [DecidableEq δ] in
theorem HeldTable.targets {stored : BackupTable δ} {table : SourceTable}
    (h : HeldTable sha256 (fun _ => True) objects stored table) :
    List.Forall₂ (TargetOf sha256 objects) stored.targets table.files := by
  refine .cons ⟨by rw [h.directoryName], h.manifest⟩ ?_
  rw [forall₂_map_left_iff, forall₂_map_right_iff]
  refine h.segments.imp fun reference segment hs => ⟨?_, hs.held⟩
  simp [h.directoryName, hs.fileName]

variable {stored : List (BackupTable δ)} {listed : List SourceTable}

omit [DecidableEq δ] in
omit [DecidableEq δ] in
theorem restoreTargets_eq_ok (h : List.Forall₂ (HeldTable sha256 P objects) stored listed)
    {made : List String} (hnodup : (listed.map directoryName).Nodup)
    (hmade : ∀ table ∈ listed, table.directoryName ∉ made) :
    restoreTargets made stored = .ok (stored.flatMap BackupTable.targets) := by
  induction h generalizing made with
  | nil => rfl
  | @cons stored table _ listed htable _ ih =>
    rw [map_cons, nodup_cons] at hnodup
    have hnew : stored.directoryName ∉ made := by
      rw [htable.directoryName]
      exact hmade table mem_cons_self
    have hsegments : stored.segments.forM (fun segment =>
        validateComponent segment.key.fileName "segment file name") = .ok () := by
      rw [forM_eq_ok]
      intro reference hreference
      obtain ⟨segment, -, hs⟩ := htable.segments.exists_of_mem_left hreference
      rw [validateComponent_ok, hs.fileName]
      exact hs.safe
    have hrest := @ih (stored.directoryName :: made) hnodup.2 fun other hother => by
      rw [mem_cons, not_or]
      refine ⟨fun heq => hnodup.1 ?_, hmade other (mem_cons_of_mem _ hother)⟩
      rw [← htable.directoryName, ← heq]
      exact mem_map_of_mem hother
    have hname : validateComponent stored.name "table name" = .ok () := by
      rw [validateComponent_ok, htable.name]
      exact htable.safeName
    have hdirectory : validateComponent stored.directoryName "table directory name" = .ok () := by
      rw [validateComponent_ok, htable.directoryName]
      exact htable.safeDirectory
    simp only [restoreTargets, hname, hdirectory, hsegments, hrest, if_neg hnew]
    rfl

theorem nodup_files (pinned : Pinned) (hperm : listed.Perm pinned.tables) :
    ((listed.flatMap files).map fst).Nodup := by
  have hpaths : ∀ table : SourceTable, table.files.map fst =
      ("manifest.ptm" :: table.segments.map SourceSegment.fileName).map
        (Prod.mk table.directoryName) := fun table => by
    simp [files]
  rw [map_flatMap, nodup_flatMap]
  constructor
  · intro table htable
    rw [hpaths]
    exact (pinned.fileNames table (hperm.mem_iff.mp htable)).map (mk_right_injective _)
  · have hdirectories : (listed.map directoryName).Nodup :=
      (hperm.map _).nodup_iff.mpr pinned.directories
    refine (pairwise_map.mp hdirectories).imp fun {a b} hne => ?_
    intro path ha hb
    simp only [hpaths] at ha hb
    obtain ⟨_, -, rfl⟩ := mem_map.mp ha
    obtain ⟨_, -, heq⟩ := mem_map.mp hb
    exact hne (congrArg Prod.fst heq).symm

theorem restoreBackup_of_intact {archive : Archive δ} {id : String} {pinned : Pinned}
    (h : Intact sha256 (fun _ => True) archive.objects id pinned.tables) :
    ∃ files, restoreBackup sha256 archive id = .ok files ∧ files.Perm pinned.files := by
  obtain ⟨manifest, h⟩ := h
  obtain ⟨listed, hperm, htables⟩ := h.tables
  refine ⟨listed.flatMap files, ?_, hperm.flatMap_right _⟩
  have htargets : restoreTargets [] _ = .ok _ := restoreTargets_eq_ok htables
    ((hperm.map _).nodup_iff.mpr pinned.directories) fun _ _ => not_mem_nil
  have hof : List.Forall₂ (TargetOf sha256 archive.objects) _ _ :=
    List.rel_flatMap htables fun _ _ htable => htable.targets
  have hpaths : (manifest.tables.flatMap BackupTable.targets).map snd =
      (listed.flatMap files).map fst := by
    rw [← forall₂_eq_eq_eq, forall₂_map_left_iff, forall₂_map_right_iff]
    exact hof.imp fun _ _ ht => ht.1
  have hnodup : ((manifest.tables.flatMap BackupTable.targets).map snd).Nodup := by
    rw [hpaths]
    exact nodup_files pinned hperm
  simp only [restoreBackup, h.load, htargets, ok_bind, not_true_eq_false, if_false, hnodup]
  rw [mapM_eq_ok]
  apply hof.imp
  intro target file ht
  simp [restoreObject, ht.2.object, ht.2.size, ht.2.digest, ht.1]

end Restore

end Pintail.Backup
