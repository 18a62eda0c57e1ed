import Pintail.Backup.Created

/-! # Runs of backup jobs and retention sweeps

Between jobs every listed backup is intact. A backup job keeps that at each state it passes through.
A sweep keeps the backups it retains, but it deletes the objects of the others before their records:
one that does not get to its end leaves a listed backup that cannot be restored.
-/

namespace Pintail.Backup

open Traced List Archive

variable {δ : Type} {sha256 : List UInt8 → δ} {archive archive' : Archive δ} {id : String}

/-- Every object and every record belongs to a known backup. -/
structure Known (archive : Archive δ) : Prop where
  owned : ∀ key object, archive.objects key = some object → key.backupId ∈ archive.taken
  known : ∀ record ∈ archive.records, record.id ∈ archive.taken
  distinct : (archive.records.map BackupRecord.id).Nodup

/-- Every backup listed as completed is intact, and every object belongs to a known backup. -/
structure Sound (sha256 : List UInt8 → δ) (archive : Archive δ) : Prop extends Known archive where
  intact : ∀ record ∈ archive.records, record.status = .completed →
    Intact sha256 (fun _ => True) archive.objects record.id record.pinned.tables

/-- A backup is being made: its own record is running and the others are intact without its keys. -/
structure Underway (sha256 : List UInt8 → δ) (id : String) (pinned : Pinned) (archive : Archive δ) :
    Prop extends Known archive where
  others : ∀ record ∈ archive.records, record.status = .completed →
    Intact sha256 (fun k => k.backupId ≠ id) archive.objects record.id record.pinned.tables
  own : ∀ record ∈ archive.records, record.id = id →
    record.status = .running ∧ record.pinned = pinned
  taken : id ∈ archive.taken

namespace Underway

variable {pinned : Pinned} {status : Status}

theorem sound (h : Underway sha256 id pinned archive) : Sound sha256 archive where
  intact record hrecord hstatus :=
    (h.others record hrecord hstatus).carry fun _ _ _ hobject => ⟨trivial, hobject⟩
  toKnown := h.toKnown

theorem put (h : Underway sha256 id pinned archive) {key : ObjectKey} (object : Object δ)
    (hkey : key.backupId = id) : Underway sha256 id pinned (archive.put key object) where
  others record hrecord hstatus :=
    (h.others record hrecord hstatus).carry (carries_put (not_not.mpr hkey))
  own := h.own
  owned k found hfound := by
    by_cases hk : k = key
    · rw [hk, hkey]
      exact h.taken
    · rw [objects_put_of_ne hk] at hfound
      exact h.owned k found hfound
  known := h.known
  distinct := h.distinct
  taken := h.taken

theorem mem_finishBackup {record : BackupRecord}
    (hrecord : record ∈ (archive.finishBackup id status).records) :
    ∃ before ∈ archive.records, record.id = before.id ∧ record.pinned = before.pinned ∧
      (record = before ∨ before.id = id ∧ record.status = status) := by
  obtain ⟨before, hbefore, rfl⟩ := mem_map.mp hrecord
  refine ⟨before, hbefore, ?_⟩
  split_ifs with h
  · exact ⟨rfl, rfl, .inr ⟨h.1, rfl⟩⟩
  · exact ⟨rfl, rfl, .inl rfl⟩

theorem finishBackup (h : Underway sha256 id pinned archive) (hintact : status = .completed →
      Intact sha256 (fun _ => True) archive.objects id pinned.tables) :
    Sound sha256 (archive.finishBackup id status) where
  intact record hrecord hstatus := by
    obtain ⟨before, hbefore, hid, hpinned, rfl | ⟨hown, hnew⟩⟩ := mem_finishBackup hrecord
    · exact h.sound.intact record hbefore hstatus
    · rw [hid, hpinned, hown, (h.own before hbefore hown).2]
      exact hintact (hnew.symm.trans hstatus)
  owned := h.owned
  known record hrecord := by
    obtain ⟨before, hbefore, hid, -⟩ := mem_finishBackup hrecord
    rw [hid]
    exact h.known before hbefore
  distinct := by
    have hids : (archive.finishBackup id status).records.map BackupRecord.id =
        archive.records.map BackupRecord.id := by
      rw [Archive.finishBackup, map_map]
      apply map_congr_left
      intro record _
      rw [Function.comp_apply]
      split_ifs <;> rfl
    rw [hids]
    exact h.distinct

end Underway

theorem Sound.startBackup (h : Sound sha256 archive) {record : BackupRecord}
    (hfresh : record.id ∉ archive.taken) (hrunning : record.status = .running) :
    Underway sha256 record.id record.pinned (archive.startBackup record) where
  others other hother hstatus := by
    rcases mem_append.mp hother with hother | hother
    · refine (h.intact other hother hstatus).carry fun key object _ hobject => ⟨?_, hobject⟩
      rintro heq
      exact hfresh (heq ▸ h.owned key object hobject)
    · rw [mem_singleton.mp hother, hrunning] at hstatus
      cases hstatus
  own other hother hid := by
    rcases mem_append.mp hother with hother | hother
    · exact absurd (hid ▸ h.known other hother) hfresh
    · rw [mem_singleton.mp hother]
      exact ⟨hrunning, rfl⟩
  owned key object hobject := mem_cons_of_mem _ (h.owned key object hobject)
  known other hother := by
    rcases mem_append.mp hother with hother | hother
    · exact mem_cons_of_mem _ (h.known other hother)
    · rw [mem_singleton.mp hother]
      exact mem_cons_self
  distinct := by
    rw [Archive.startBackup, map_append, map_singleton, nodup_append_comm, singleton_append,
      nodup_cons]
    refine ⟨fun hmem => hfresh ?_, h.distinct⟩
    obtain ⟨other, hother, heq⟩ := mem_map.mp hmem
    exact heq ▸ h.known other hother
  taken := mem_cons_self

theorem mem_of_latestCompletedBackup {records : List BackupRecord} {record : BackupRecord}
    (h : latestCompletedBackup records = some record) :
    record ∈ records ∧ record.status = .completed := by
  have hmem := mem_of_mem_head? h
  rw [mem_insertionSort] at hmem
  obtain ⟨hmem, hstatus⟩ := mem_filter.mp hmem
  exact ⟨hmem, of_decide_eq_true hstatus⟩

section Jobs

variable [DecidableEq δ] {pinned : Pinned} {w : World δ}

omit [DecidableEq δ] in
theorem walks_parentOf {kind : Kind} (h : Underway sha256 id pinned w.archive) :
    Walks (Write fun k => k.backupId = id) (parentOf kind)
      (fun parent w' => w'.archive = w.archive ∧
        Inherits sha256 id (parent.map Prod.snd) w'.archive.objects)
      (fun _ _ => True) w := by
  cases kind with
  | full => exact walks_pure ⟨rfl, nofun⟩
  | incremental =>
    refine walks_bind (walks_observe .reply (fun rest => ?_) fun _ _ => trivial)
    cases hlatest : latestCompletedBackup w.archive.records with
    | none => exact walks_pure ⟨rfl, nofun⟩
    | some record =>
      obtain ⟨hrecord, hstatus⟩ := mem_of_latestCompletedBackup hlatest
      obtain ⟨manifest, hheld⟩ := h.others record hrecord hstatus
      refine walks_bind (walks_fetchManifest .reply (fun loaded rest hload => ?_)
        fun _ _ => trivial)
      obtain rfl := hheld.unique hload
      exact walks_pure ⟨rfl, .of_heldBackup hheld⟩

theorem walks_runBackupJob (hsha : Function.Injective sha256) {kind : Kind}
    (h : Underway sha256 id pinned w.archive) :
    Walks (Write fun k => k.backupId = id) (runBackupJob sha256 id kind pinned)
      (fun _ w' => Intact sha256 (fun _ => True) w'.archive.objects id pinned.tables)
      (fun _ _ => True) w := by
  refine walks_bind ((walks_parentOf h).mono ?_ fun _ _ _ => trivial)
  rintro parent w' ⟨-, hparent⟩
  exact walks_createBackup hsha hparent

def Shows (I : Archive δ → Prop) (_ : World δ) (visited : List (World δ)) (_ : World δ) : Prop :=
  ∀ w ∈ visited, I w.archive

omit [DecidableEq δ] in
theorem Shows.reply {I : Archive δ → Prop} (archive : Archive δ) (replies rest : List Reply) :
    Shows I ⟨archive, replies⟩ [] ⟨archive, rest⟩ := nofun

omit [DecidableEq δ] in
theorem walks_finishBackup {status : Status} (h : Underway sha256 id pinned w.archive)
    (hintact : status = .completed →
      Intact sha256 (fun _ => True) w.archive.objects id pinned.tables) :
    Walks (Shows (Sound sha256)) (void (attempt (finishBackup id status)))
      (fun _ w' => Sound sha256 w'.archive) (fun _ w' => Sound sha256 w'.archive) w := by
  have hdone := h.finishBackup hintact
  refine Walks.void (walks_attempt (walks_bind (walks_get (walks_ite (fun _ => ?_) fun _ => ?_))))
  · exact walks_change .reply (fun _ => forall_mem_singleton.mpr hdone) (fun _ => hdone)
      (fun _ _ => h.sound) fun _ _ => hdone
  · exact walks_fail h.sound

theorem walks_backupJob (hsha : Function.Injective sha256) {startedAt : String} {forceFull : Bool}
    (h : Sound sha256 w.archive) (hfresh : id ∉ w.archive.taken) :
    Walks (Shows (Sound sha256)) (backupJob sha256 id startedAt forceFull pinned)
      (fun _ w' => Sound sha256 w'.archive) (fun _ w' => Sound sha256 w'.archive) w := by
  refine walks_bind (walks_observe .reply (fun rest => ?_) fun _ _ => h)
  set kind := if forceFull || (latestCompletedBackup w.archive.records).isNone then Kind.full
    else .incremental
  set parentId := if kind = .incremental then
    (latestCompletedBackup w.archive.records).map BackupRecord.id else none
  have hstart : Underway sha256 id pinned
      (w.archive.startBackup ⟨id, kind, parentId, .running, startedAt, pinned⟩) :=
    @Sound.startBackup δ sha256 w.archive h ⟨id, kind, parentId, .running, startedAt, pinned⟩
      hfresh rfl
  refine walks_bind (walks_bind (walks_get (walks_ite (fun _ => walks_fail h) fun _ => ?_)))
  refine walks_change .reply (fun _ => forall_mem_singleton.mpr hstart.sound) (fun rest => ?_)
    (fun _ _ => h) fun _ _ => hstart.sound
  have hrun : Walks _ (runBackupJob sha256 id kind pinned) _ _ ⟨_, rest⟩ :=
    walks_runBackupJob hsha hstart
  have hunderway : ∀ (archive : Archive δ) (key : ObjectKey) (object : Object δ),
      key.backupId = id → Underway sha256 id pinned archive →
      Underway sha256 id pinned (archive.put key object) :=
    fun _ _ object hkey h => h.put object hkey
  have hkept := hrun.keep (P := fun w' => Underway sha256 id pinned w'.archive)
    (fun _ _ _ hstep h => (hstep.keeps hunderway h).2) hstart
  refine walks_bind (walks_attempt ((hkept.whole fun visited w' hchain v hv => ?_).mono ?_ ?_))
  · have hall := hchain.invariant (I := fun w => Underway sha256 id pinned w.archive)
      (V := fun w => Underway sha256 id pinned w.archive)
      (fun _ _ _ hstep h => hstep.keeps hunderway h) hstart
    exact (hall.1 v hv).sound
  · rintro _ w' ⟨⟨hintact, h⟩, -⟩
    exact walks_finishBackup h fun _ => hintact
  · rintro _ w' ⟨⟨-, h⟩, -⟩
    exact walks_finishBackup h nofun

end Jobs

/-- What a sweep may have done: records and objects are gone, but nothing a kept backup needs. -/
structure Trimmed (sha256 : List UInt8 → δ) (P : ObjectKey → Prop) (keep : List String)
    (archive archive' : Archive δ) : Prop where
  records : archive'.records.Sublist archive.records
  taken : archive'.taken = archive.taken
  objects : ∀ key object, archive'.objects key = some object → archive.objects key = some object
  spared : ∀ record ∈ archive.records, record.status = .completed → record.id ∈ keep →
    Intact sha256 P archive'.objects record.id record.pinned.tables

/-- The keys that a sweep must leave alone. -/
def Needed (retained : List ObjectKey) (keep : List String) : ObjectKey → Prop
  | .backup id => id ∈ keep
  | key => key ∈ retained

variable {retained : List ObjectKey} {keep : List String}

theorem needed_iff {key : ObjectKey}
    (h : key.isBackup = false) : Needed retained keep key ↔ key ∈ retained := by
  cases key with
  | backup _ => cases h
  | tableManifest _ _ => exact Iff.rfl
  | segment _ _ _ => exact Iff.rfl

namespace Trimmed

variable {P : ObjectKey → Prop} {keep : List String}

variable (h : Trimmed sha256 P keep archive archive')

include h

theorem weaken :
    Trimmed sha256 (fun _ => True) keep archive archive' where
  records := h.records
  taken := h.taken
  objects := h.objects
  spared record hrecord hstatus hkeep := (h.spared record hrecord hstatus hkeep).carry
    fun _ _ _ hobject => ⟨trivial, hobject⟩

theorem delete {key : ObjectKey} (hkey : ¬ P key) :
    Trimmed sha256 P keep archive (archive'.delete key) where
  records := h.records
  taken := h.taken
  objects k object hobject := by
    by_cases hk : k = key
    · simp [Archive.delete, hk] at hobject
    · exact h.objects k object (by simpa [Archive.delete, hk] using hobject)
  spared record hrecord hstatus hkeep := by
    refine (h.spared record hrecord hstatus hkeep).carry fun k object hP hobject => ⟨hP, ?_⟩
    have hk : k ≠ key := by
      rintro rfl
      exact hkey hP
    simpa [Archive.delete, hk] using hobject

theorem deleteBackupRecord :
    Trimmed sha256 P keep archive (archive'.deleteBackupRecord id) :=
  ⟨filter_sublist.trans h.records, h.taken, h.objects, h.spared⟩

theorem sound (hsound : Sound sha256 archive)
    (hintact : ∀ record ∈ archive'.records, record.status = .completed →
      Intact sha256 (fun _ => True) archive'.objects record.id record.pinned.tables) :
    Sound sha256 archive' where
  intact := hintact
  owned key object hobject := h.taken ▸ hsound.owned key object (h.objects key object hobject)
  known record hrecord := h.taken ▸ hsound.known record (h.records.mem hrecord)
  distinct := hsound.distinct.sublist (h.records.map _)

end Trimmed

theorem Sound.trimmed (h : Sound sha256 archive) (keep : List String) :
    Trimmed sha256 (fun _ => True) keep archive archive :=
  ⟨Sublist.refl _, rfl, fun _ _ h => h, fun record hrecord hstatus _ =>
    h.intact record hrecord hstatus⟩

theorem Sound.needed (h : Sound sha256 archive)
    (hretained : ∀ id ∈ keep, ∀ manifest, loadManifest archive.objects id = .ok manifest →
      manifestObjectKeys manifest ⊆ retained) :
    Trimmed sha256 (Needed retained keep) keep archive archive := by
  refine ⟨Sublist.refl _, rfl, fun _ _ h => h, fun record hrecord hstatus hkeep => ?_⟩
  obtain ⟨manifest, hheld⟩ := h.intact record hrecord hstatus
  refine ⟨manifest, hheld.of_objectKeys hkeep fun key hkey => ?_⟩
  rw [needed_iff (hheld.held_of_mem hkey).2]
  exact hretained record.id hkeep manifest hheld.load hkey

section Sweep

variable {retained : List ObjectKey} {keep : List String} {w : World δ}

/-- The manifests of a sound archive's completed backups name parts only. -/
def NamesParts (archive : Archive δ) (id : String) : Prop :=
  ∀ manifest, loadManifest archive.objects id = .ok manifest →
    ∀ key ∈ manifestObjectKeys manifest, key.isBackup = false

variable {record : BackupRecord}

theorem Sound.namesParts (h : Sound sha256 archive) (hrecord : record ∈ archive.records)
    (hstatus : record.status = .completed) : NamesParts archive record.id := by
  intro loaded hload key hkey
  obtain ⟨manifest, hheld⟩ := h.intact record hrecord hstatus
  obtain rfl := hheld.unique hload
  exact (hheld.held_of_mem hkey).2

theorem Trimmed.namesParts {P : ObjectKey → Prop} (h : Trimmed sha256 P keep archive archive')
    (hparts : NamesParts archive id) : NamesParts archive' id := by
  intro manifest hload
  obtain ⟨hsafe, hobject, hversion, hid⟩ := loadManifest_eq_ok.mp hload
  exact hparts manifest (loadManifest_eq_ok.mpr ⟨hsafe, h.objects _ _ hobject, hversion, hid⟩)

theorem walks_retainedKeys {I : Archive δ → Prop} {ids : List String} (hI : I w.archive) :
    Walks (Shows I) (retainedKeys ids)
      (fun keys w' => w'.archive = w.archive ∧ ∀ id ∈ ids, ∀ manifest,
        loadManifest w.archive.objects id = .ok manifest → manifestObjectKeys manifest ⊆ keys)
      (fun _ w' => I w'.archive) w := by
  induction ids generalizing w with
  | nil => exact walks_pure ⟨rfl, nofun⟩
  | cons id ids ih =>
    refine walks_bind (walks_fetchManifest Shows.reply (fun manifest rest hload => ?_)
      fun _ _ => hI)
    apply (ih (w := ⟨w.archive, rest⟩) hI).bind
    rintro keys w' ⟨hsame, hkeys⟩
    refine walks_pure ⟨hsame, forall_mem_cons.mpr ⟨?_, ?_⟩⟩
    · intro loaded hloaded
      obtain rfl := Except.ok.inj (hload.symm.trans hloaded)
      exact subset_append_left _ _
    · intro other hother loaded hloaded
      exact List.Subset.trans (hkeys other hother loaded hloaded) (subset_append_right _ _)

/-- Trimming goes on from a trimmed archive: a computation that only trims. -/
def Trims (sha256 : List UInt8 → δ) (retained : List ObjectKey) (keep : List String)
    (archive : Archive δ) (task : Task δ Unit) (w : World δ) : Prop :=
  Walks (Shows (Trimmed sha256 (Needed retained keep) keep archive)) task
    (fun _ w' => Trimmed sha256 (Needed retained keep) keep archive w'.archive)
    (fun _ w' => Trimmed sha256 (Needed retained keep) keep archive w'.archive) w

theorem trims_change {f : Archive δ → Archive δ}
    (h : Trimmed sha256 (Needed retained keep) keep archive w.archive)
    (hdone : Trimmed sha256 (Needed retained keep) keep archive (f w.archive)) :
    Trims sha256 retained keep archive (change f) w :=
  walks_change Shows.reply (fun _ => forall_mem_singleton.mpr hdone) (fun _ => hdone)
    (fun _ _ => h) fun _ _ => hdone

theorem Trims.bind {task next : Task δ Unit} (h : Trims sha256 retained keep archive task w)
    (hnext : ∀ w', Trimmed sha256 (Needed retained keep) keep archive w'.archive →
      Trims sha256 retained keep archive next w') :
    Trims sha256 retained keep archive (do task; next) w := Walks.bind h fun _ => hnext

theorem trims_deleteObjects {keys : List ObjectKey} (hparts : ∀ key ∈ keys, key.isBackup = false)
    (h : Trimmed sha256 (Needed retained keep) keep archive w.archive) :
    Trims sha256 retained keep archive (deleteObjects retained keys) w := by
  induction keys generalizing w with
  | nil => exact walks_pure h
  | cons key keys ih =>
    rw [forall_mem_cons] at hparts
    refine Trims.bind (walks_when (fun hnot => trims_change h (h.delete ?_)) fun _ => h)
      fun _ => ih hparts.2
    rw [needed_iff hparts.1]
    exact of_decide_eq_true hnot

theorem trims_deleteBackup (hparts : NamesParts w.archive id) (hid : id ∉ keep)
    (h : Trimmed sha256 (Needed retained keep) keep archive w.archive) :
    Trims sha256 retained keep archive (deleteBackup retained id) w := by
  refine walks_bind (walks_fetchManifest Shows.reply (fun manifest rest hload => ?_) fun _ _ => h)
  exact (trims_deleteObjects (w := ⟨w.archive, rest⟩) (hparts manifest hload) h).bind
    fun _ h' => trims_change h' (h'.delete hid)

theorem trims_deleteBackupRecord
    (h : Trimmed sha256 (Needed retained keep) keep archive w.archive) :
    Trims sha256 retained keep archive (deleteBackupRecord id) w := by
  refine walks_bind (walks_get (walks_ite (fun _ => walks_fail h) fun _ => ?_))
  exact trims_change h h.deleteBackupRecord

variable {records : List BackupRecord}

theorem trims_pruneBackups
    (hrecords : ∀ record ∈ records, record.id ∉ keep ∧ NamesParts archive record.id)
    (h : Trimmed sha256 (Needed retained keep) keep archive w.archive) :
    Trims sha256 retained keep archive (pruneBackups retained records) w := by
  induction records generalizing w with
  | nil => exact walks_pure h
  | cons record records ih =>
    rw [forall_mem_cons] at hrecords
    obtain ⟨⟨hid, hparts⟩, hrest⟩ := hrecords
    exact (trims_deleteBackup (h.namesParts hparts) hid h).bind fun _ h' =>
      (trims_deleteBackupRecord h').bind fun _ => ih hrest

theorem mem_listedBackups (h : record ∈ listedBackups records) :
    record ∈ records ∧ record.status = .completed := by
  obtain ⟨hmem, hstatus⟩ := mem_filter.mp h
  exact ⟨(mem_insertionSort _).mp (mem_of_mem_take hmem), of_decide_eq_true hstatus⟩

theorem listedBackups_of_mem (hlimit : records.length ≤ 100000) (hrecord : record ∈ records)
    (hstatus : record.status = .completed) : record ∈ listedBackups records := by
  refine mem_filter.mpr ⟨?_, decide_eq_true hstatus⟩
  rw [backups, take_of_length_le (by rw [length_insertionSort]; exact hlimit)]
  exact (mem_insertionSort _).mpr hrecord

theorem walks_applyBackupRetention {retain : ℕ} (hsound : Sound sha256 w.archive) :
    Walks
      (Shows (Trimmed sha256 (fun _ => True) (kept (listedBackups w.archive.records) retain)
        w.archive))
      (applyBackupRetention retain)
      (fun _ w' => Trimmed sha256 (fun _ => True) (kept (listedBackups w.archive.records) retain)
        w.archive w'.archive)
      (fun _ w' => Trimmed sha256 (fun _ => True) (kept (listedBackups w.archive.records) retain)
        w.archive w'.archive) w := by
  have hself := hsound.trimmed (kept (listedBackups w.archive.records) retain)
  refine walks_ite (fun _ => walks_pure hself) fun _ => ?_
  refine walks_bind (walks_observe Shows.reply (fun rest => ?_) fun _ _ => hself)
  refine walks_ite (fun _ => walks_pure hself) fun _ => ?_
  refine walks_ite (fun _ => walks_pure hself) fun _ => ?_
  apply (walks_retainedKeys (w := ⟨w.archive, rest⟩) hself).bind
  rintro retained w' ⟨hsame, hretained⟩
  have hpruned : ∀ record ∈ pruned w.archive.records retain,
      record.id ∉ kept (listedBackups w.archive.records) retain ∧
        NamesParts w.archive record.id := by
    intro record hrecord
    obtain ⟨hlisted, hnot⟩ := mem_filter.mp hrecord
    obtain ⟨hmem, hstatus⟩ := mem_listedBackups hlisted
    exact ⟨of_decide_eq_true hnot, hsound.namesParts hmem hstatus⟩
  have htrims := trims_pruneBackups (w := w') hpruned
    (by rw [hsame]; exact hsound.needed hretained)
  exact (htrims.of_step fun _ _ _ hshows v hv => (hshows v hv).weaken).mono
    (fun _ _ h => h.weaken) fun _ _ h => h.weaken

end Sweep

section Runs

variable [DecidableEq δ]

variable {attempt : Attempt}

theorem Attempt.after_of_walks {I : Archive δ → Prop} (hI : I archive)
    (h : Walks (Shows I) (attempt.job.task sha256) (fun _ w => I w.archive) (fun _ w => I w.archive)
      ⟨archive, attempt.replies⟩) : I (attempt.after sha256 archive) := by
  have hfinal : I (attempt.outcome sha256 archive).final.archive :=
    h.final (P := fun w : World δ => I w.archive)
  have hvisited : ∀ w ∈ (attempt.outcome sha256 archive).visited, I w.archive :=
    Chain.forall_visited (V := fun w : World δ => I w.archive) h.1
  unfold Attempt.after
  cases attempt.stop with
  | none => exact hfinal
  | some n =>
    dsimp only
    rw [getD_eq_getElem?_getD]
    cases hn : (archive :: (attempt.outcome sha256 archive).visited.map World.archive)[n]? with
    | none => exact hfinal
    | some found =>
      rcases mem_cons.mp (mem_of_getElem? hn) with rfl | hmem
      · exact hI
      · obtain ⟨w, hw, rfl⟩ := mem_map.mp hmem
        exact hvisited w hw

def Attempt.Fresh (attempt : Attempt) (archive : Archive δ) : Prop :=
  match attempt.job with
  | .backup backupId _ _ _ => backupId ∉ archive.taken
  | .sweep _ => True

instance (attempt : Attempt) (archive : Archive δ) : Decidable (attempt.Fresh archive) :=
  match attempt with
  | ⟨.backup _ _ _ _, _, _⟩ => inferInstanceAs (Decidable (_ ∉ _))
  | ⟨.sweep _, _, _⟩ => .isTrue trivial

/-- A sweep deletes nothing, or it also deletes the record of every backup it has selected, out of
a listing that shows them all. -/
def Attempt.Whole (sha256 : List UInt8 → δ) (attempt : Attempt) (archive : Archive δ) : Prop :=
  match attempt.job with
  | .backup _ _ _ _ => True
  | .sweep retain => (attempt.after sha256 archive).objects = archive.objects ∨
      archive.records.length ≤ 100000 ∧
        ∀ record ∈ pruned archive.records retain, record ∉ (attempt.after sha256 archive).records

/-- Every attempt meets a condition on the archive it starts from. -/
def Along (sha256 : List UInt8 → δ) (condition : Attempt → Archive δ → Prop) :
    List Attempt → Archive δ → Prop
  | [], _ => True
  | attempt :: attempts, archive =>
    condition attempt archive ∧ Along sha256 condition attempts (attempt.after sha256 archive)

theorem Sound.after (hsha : Function.Injective sha256) (h : Sound sha256 archive)
    (hfresh : attempt.Fresh archive) (hwhole : attempt.Whole sha256 archive) :
    Sound sha256 (attempt.after sha256 archive) := by
  obtain ⟨job, replies, stop⟩ := attempt
  cases job with
  | backup backupId startedAt forceFull pinned =>
    exact Attempt.after_of_walks h (walks_backupJob (w := ⟨archive, replies⟩) hsha h hfresh)
  | sweep retain =>
    have htrimmed : Trimmed sha256 (fun _ => True) (kept (listedBackups archive.records) retain)
        archive (Attempt.after sha256 ⟨.sweep retain, replies, stop⟩ archive) :=
      Attempt.after_of_walks (h.trimmed _)
        (walks_applyBackupRetention (w := ⟨archive, replies⟩) h)
    apply htrimmed.sound h
    intro record hrecord hstatus
    have hbefore := htrimmed.records.mem hrecord
    rcases hwhole with hsame | ⟨hlimit, hgone⟩
    · rw [hsame]
      exact h.intact record hbefore hstatus
    · apply htrimmed.spared record hbefore hstatus
      have hlisted := listedBackups_of_mem hlimit hbefore hstatus
      by_contra hnot
      exact hgone record (mem_filter.mpr ⟨hlisted, decide_eq_true hnot⟩) hrecord

end Runs

end Pintail.Backup
