import Pintail.Backup.Sweeps

/-! # Sweeps that get to their end

A sweep whose calls all succeed deletes the row of each backup that it has selected, if the rows that
name one of them as their parent go first. In a run of such sweeps and of backup jobs that may fail or
stop anywhere, every backup listed as completed can be restored.
-/

namespace Pintail.Backup

open Traced List Archive

variable {δ : Type} {sha256 : List UInt8 → δ} {archive : Archive δ} {w : World δ} {id : String}

/-- All calls still to come will succeed. -/
def World.Ready (w : World δ) : Prop := ∀ reply ∈ w.replies, reply = .done

/-- A computation that fails only where `E` says. -/
abbrev Ends {α : Type} (task : Task δ α) (Q : α → World δ → Prop) (E : World δ → Prop) :
    World δ → Prop :=
  Walks (fun _ _ _ => True) task Q fun _ => E

section Calls

theorem ends_reply (h : w.Ready) : Ends reply
    (fun answer w' => answer = .done ∧ w'.archive = w.archive ∧ w'.Ready) (fun _ => False) w := by
  refine walks_bind (walks_get (walks_bind (walks_modify trivial (walks_pure ⟨?_, rfl, ?_⟩))))
  · cases hreplies : w.replies with
    | nil => rfl
    | cons answer replies => exact h answer (by simp [hreplies])
  · exact fun answer hanswer => h answer (mem_of_mem_tail hanswer)

theorem ends_change {f : Archive δ → Archive δ} (h : w.Ready) : Ends (change f)
    (fun _ w' => w'.archive = f w.archive ∧ w'.Ready) (fun _ => False) w := by
  apply (ends_reply h).bind
  rintro _ w' ⟨rfl, hsame, hready⟩
  exact walks_publish trivial ⟨by rw [hsame], hready⟩

theorem ends_observe (h : w.Ready) : Ends observe
    (fun seen w' => seen = w.archive ∧ w'.archive = w.archive ∧ w'.Ready) (fun _ => False) w := by
  apply (ends_reply h).bind
  rintro _ w' ⟨rfl, hsame, hready⟩
  exact walks_bind (walks_get (walks_pure ⟨hsame, hsame, hready⟩))

theorem ends_fetchManifest (h : w.Ready) : Ends (fetchManifest id)
    (fun manifest w' => loadManifest w.archive.objects id = .ok manifest ∧ w'.archive = w.archive ∧
      w'.Ready)
    (fun w' => w'.archive = w.archive ∧ ∀ manifest, loadManifest w.archive.objects id ≠ .ok manifest)
    w := by
  refine walks_bind ((ends_observe h).mono ?_ fun _ _ => False.elim)
  rintro _ w' ⟨rfl, hsame, hready⟩
  refine walks_lift (fun manifest hload => ⟨hload, hsame, hready⟩) fun e he => ⟨hsame, ?_⟩
  rw [he]
  exact nofun

theorem ends_retainedKeys {ids : List String} (h : w.Ready) : Ends (retainedKeys ids)
    (fun _ w' => w'.archive = w.archive ∧ w'.Ready) (fun w' => w'.archive = w.archive) w := by
  induction ids generalizing w with
  | nil => exact walks_pure ⟨rfl, h⟩
  | cons id ids ih =>
    refine walks_bind ((ends_fetchManifest h).mono ?_ fun _ _ he => he.1)
    rintro manifest w' ⟨-, hsame, hready⟩
    rw [← hsame]
    exact (ih hready).bind fun _ _ hw => walks_pure hw

variable {retained : List ObjectKey}

theorem ends_deleteObjects {keys : List ObjectKey} (hparts : ∀ key ∈ keys, key.isBackup = false)
    (h : w.Ready) : Ends (deleteObjects retained keys)
    (fun _ w' => w'.archive.records = w.archive.records ∧
      (∀ id, w'.archive.objects (.backup id) = w.archive.objects (.backup id)) ∧ w'.Ready)
    (fun _ => False) w := by
  induction keys generalizing w with
  | nil => exact walks_pure ⟨rfl, fun _ => rfl, h⟩
  | cons key keys ih =>
    rw [forall_mem_cons] at hparts
    have hrest : ∀ w' : World δ, w'.archive.records = w.archive.records →
        (∀ id, w'.archive.objects (.backup id) = w.archive.objects (.backup id)) → w'.Ready →
        Ends (deleteObjects retained keys) (fun _ w' => w'.archive.records = w.archive.records ∧
          (∀ id, w'.archive.objects (.backup id) = w.archive.objects (.backup id)) ∧ w'.Ready)
          (fun _ => False) w' := by
      intro w' hrecords hobjects hready
      refine (ih hparts.2 hready).mono ?_ fun _ _ => id
      rintro _ w'' ⟨hrecords', hobjects', hready'⟩
      exact ⟨hrecords'.trans hrecords, fun id => (hobjects' id).trans (hobjects id), hready'⟩
    refine walks_bind (walks_when (fun _ => ?_) fun _ => hrest w rfl (fun _ => rfl) h)
    refine (ends_change h).mono ?_ fun _ _ => False.elim
    rintro _ w' ⟨hdeleted, hready⟩
    refine hrest w' (by rw [hdeleted]; rfl) (fun id => ?_) hready
    have hne : ObjectKey.backup id ≠ key := by
      rintro rfl
      cases hparts.1
    simp [hdeleted, Archive.delete, hne]

theorem ends_deleteBackup {manifest : BackupManifest δ}
    (hload : loadManifest w.archive.objects id = .ok manifest)
    (hparts : ∀ key ∈ manifestObjectKeys manifest, key.isBackup = false) (h : w.Ready) :
    Ends (deleteBackup retained id) (fun _ w' => w'.archive.records = w.archive.records ∧
      (∀ other ≠ id, w'.archive.objects (.backup other) = w.archive.objects (.backup other)) ∧
        w'.Ready) (fun _ => False) w := by
  apply walks_bind
  apply (ends_fetchManifest h).mono
  · rintro loaded w1 ⟨hloaded, hsame, hready⟩
    obtain rfl := Except.ok.inj (hload.symm.trans hloaded)
    apply (ends_deleteObjects hparts hready).bind
    rintro _ w2 ⟨hrecords, hobjects, hready⟩
    apply (ends_change hready).mono
    · rintro _ w3 ⟨hdeleted, hready⟩
      rw [hsame] at hrecords hobjects
      refine ⟨by rw [hdeleted]; exact hrecords, fun other hne => ?_, hready⟩
      rw [hdeleted, ← hobjects other]
      simp [Archive.delete, hne]
    · exact fun _ _ => False.elim
  · exact fun _ _ he => he.2 manifest hload

theorem ends_deleteBackupRecord (h : w.Ready)
    (hnone : ∀ record ∈ (w.archive.deleteBackupRecord id).records, record.parentId ≠ some id) :
    Ends (deleteBackupRecord id)
      (fun _ w' => w'.archive = w.archive.deleteBackupRecord id ∧ w'.Ready) (fun _ => False) w := by
  apply walks_bind
  apply walks_get
  apply walks_ite
  · intro hnamed
    obtain ⟨record, hrecord, hparent⟩ := any_eq_true.mp hnamed
    exact absurd (of_decide_eq_true hparent) (hnone record hrecord)
  · exact fun _ => ends_change h

end Calls

/-- Every row that names one of the backups as its parent is one of them, and goes before it. -/
structure Released (selected records : List BackupRecord) : Prop where
  named : ∀ record ∈ records, ∀ parent ∈ selected, record.parentId = some parent.id →
    record ∈ selected
  ordered : selected.Pairwise fun earlier later => later.parentId ≠ some earlier.id

/-- The backups that are still to be pruned: their manifests can be read and their rows deleted. -/
structure Prunable (selected : List BackupRecord) (archive : Archive δ) : Prop where
  loads : ∀ record ∈ selected, ∃ manifest, loadManifest archive.objects record.id = .ok manifest ∧
    ∀ key ∈ manifestObjectKeys manifest, key.isBackup = false
  distinct : (selected.map BackupRecord.id).Nodup
  settled : ∀ record ∈ selected, record.status ≠ .running
  released : Released selected archive.records

section Prune

variable {record : BackupRecord} {selected : List BackupRecord} {archive' : Archive δ}

theorem Prunable.not_mem (h : Prunable (record :: selected) archive) :
    record ∉ (archive.deleteBackupRecord record.id).records := by
  intro hmem
  have hkept := (mem_filter.mp hmem).2
  simp [h.settled record mem_cons_self] at hkept

theorem Prunable.parentId_ne (h : Prunable (record :: selected) archive) :
    ∀ other ∈ (archive.deleteBackupRecord record.id).records, other.parentId ≠ some record.id := by
  intro other hother hparent
  have hbefore := mem_of_mem_filter hother
  rcases mem_cons.mp (h.released.named other hbefore record mem_cons_self hparent) with rfl | hlater
  · exact h.not_mem hother
  · exact rel_of_pairwise_cons h.released.ordered hlater hparent

theorem Prunable.tail (h : Prunable (record :: selected) archive)
    (hrecords : archive'.records = (archive.deleteBackupRecord record.id).records)
    (hobjects : ∀ id ≠ record.id, archive'.objects (.backup id) = archive.objects (.backup id)) :
    Prunable selected archive' := by
  obtain ⟨hfirst, hdistinct⟩ := nodup_cons.mp h.distinct
  constructor
  · intro other hother
    obtain ⟨manifest, hload, hparts⟩ := h.loads other (mem_cons_of_mem _ hother)
    refine ⟨manifest, ?_, hparts⟩
    rw [loadManifest_eq_ok] at hload ⊢
    rwa [hobjects other.id fun heq => hfirst (heq ▸ mem_map_of_mem hother)]
  · exact hdistinct
  · exact fun other hother => h.settled other (mem_cons_of_mem _ hother)
  · constructor
    · intro other hother parent hparent hnamed
      rw [hrecords] at hother
      rcases mem_cons.mp (h.released.named other (mem_of_mem_filter hother) parent
        (mem_cons_of_mem _ hparent) hnamed) with rfl | hmem
      · exact absurd hother h.not_mem
      · exact hmem
    · exact (pairwise_cons.mp h.released.ordered).2

theorem ends_pruneBackups {retained : List ObjectKey} (h : Prunable selected w.archive)
    (hready : w.Ready) : Ends (pruneBackups retained selected)
      (fun _ w' => w'.archive.records ⊆ w.archive.records ∧
        ∀ record ∈ selected, record ∉ w'.archive.records) (fun _ => False) w := by
  induction selected generalizing w with
  | nil => exact walks_pure ⟨Subset.refl _, nofun⟩
  | cons record selected ih =>
    obtain ⟨manifest, hload, hparts⟩ := h.loads record mem_cons_self
    apply (ends_deleteBackup hload hparts hready).bind
    rintro _ w1 ⟨hrecords, hobjects, hready⟩
    have hdeleted : (w1.archive.deleteBackupRecord record.id).records =
        (w.archive.deleteBackupRecord record.id).records := by
      rw [Archive.deleteBackupRecord, hrecords]
      rfl
    apply (ends_deleteBackupRecord hready (hdeleted ▸ h.parentId_ne)).bind
    rintro _ w2 ⟨hsame, hready⟩
    have hrows : w2.archive.records = (w.archive.deleteBackupRecord record.id).records :=
      (congrArg Archive.records hsame).trans hdeleted
    have htail : Prunable selected w2.archive :=
      h.tail hrows fun id hne => by rw [hsame]; exact hobjects id hne
    apply (ih htail hready).mono
    · rintro _ w3 ⟨hsub, hgone⟩
      rw [hrows] at hsub
      refine ⟨fun other hother => mem_of_mem_filter (hsub hother), ?_⟩
      exact forall_mem_cons.mpr ⟨fun hmem => h.not_mem (hsub hmem), hgone⟩
    · exact fun _ _ => id

theorem Sound.prunable {retain : ℕ} (h : Sound sha256 archive)
    (hreleased : Released (pruned archive.records retain) archive.records) :
    Prunable (pruned archive.records retain) archive := by
  have hmem : ∀ record ∈ pruned archive.records retain,
      record ∈ archive.records ∧ record.status = .completed := fun record hrecord =>
    mem_listedBackups (mem_of_mem_filter hrecord)
  constructor
  · intro record hrecord
    obtain ⟨hlisted, hstatus⟩ := hmem record hrecord
    obtain ⟨manifest, hheld⟩ := h.intact record hlisted hstatus
    exact ⟨manifest, hheld.load, h.namesParts hlisted hstatus manifest hheld.load⟩
  · have hsorted : ((backups archive.records 100000).map BackupRecord.id).Nodup := by
      apply Nodup.sublist ((take_sublist _ _).map _)
      exact ((perm_insertionSort _ _).map _).nodup_iff.mpr h.distinct
    exact hsorted.sublist ((filter_sublist.trans filter_sublist).map _)
  · intro record hrecord
    rw [(hmem record hrecord).2]
    exact nofun
  · exact hreleased

theorem ends_applyBackupRetention {retain : ℕ} (h : Sound sha256 w.archive) (hready : w.Ready)
    (hreleased : Released (pruned w.archive.records retain) w.archive.records) :
    Ends (applyBackupRetention retain)
      (fun _ w' => w'.archive.objects = w.archive.objects ∨
        ∀ record ∈ pruned w.archive.records retain, record ∉ w'.archive.records)
      (fun w' => w'.archive.objects = w.archive.objects) w := by
  apply walks_ite
  · exact fun _ => walks_pure (.inl rfl)
  intro _
  apply walks_bind
  apply (ends_observe hready).mono _ fun _ _ => False.elim
  rintro _ w1 ⟨rfl, hsame, hready⟩
  rw [← hsame] at h hreleased ⊢
  apply walks_ite
  · exact fun _ => walks_pure (.inl rfl)
  intro _
  apply walks_ite
  · exact fun _ => walks_pure (.inl rfl)
  intro _
  apply walks_bind
  apply (ends_retainedKeys hready).mono _ fun _ _ he => congrArg Archive.objects he
  rintro retained w2 ⟨hsame, hready⟩
  rw [← hsame] at h hreleased ⊢
  exact (ends_pruneBackups (h.prunable hreleased) hready).mono (fun _ _ hw => .inr hw.2)
    fun _ _ => False.elim

theorem released_of_full {retain : ℕ} {records : List BackupRecord}
    (h : ∀ record ∈ records, record.parentId = none) :
    Released (pruned records retain) records := by
  have hnone : ∀ record ∈ pruned records retain, record.parentId = none := fun record hrecord =>
    h record (mem_listedBackups (mem_of_mem_filter hrecord)).1
  constructor
  · intro record hrecord parent _ hparent
    rw [h record hrecord] at hparent
    cases hparent
  · apply pairwise_of_forall_mem_list
    intro earlier _ later hlater hparent
    rw [hnone later hlater] at hparent
    cases hparent

theorem walks_nothingPruned {retain : ℕ} {replies : List Reply}
    (h : pruned archive.records retain = []) :
    Walks (Shows fun reached => reached.objects = archive.objects) (applyBackupRetention retain)
      (fun _ w' => w'.archive.objects = archive.objects)
      (fun _ w' => w'.archive.objects = archive.objects) ⟨archive, replies⟩ := by
  apply walks_ite
  · exact fun _ => walks_pure rfl
  intro _
  apply walks_bind
  apply walks_observe Shows.reply
  · intro rest
    rw [h]
    exact walks_ite (fun _ => walks_pure rfl) fun _ => walks_pure rfl
  · exact fun _ _ => rfl

end Prune

section Runs

variable [DecidableEq δ] {attempt : Attempt}

/-- A sweep that has nothing to prune, or runs to its end with calls that succeed, out of a listing
that shows all rows, and with no row left that names a pruned backup. -/
def Attempt.Smooth (attempt : Attempt) (archive : Archive δ) : Prop :=
  match attempt.job with
  | .backup _ _ _ _ => True
  | .sweep retain => pruned archive.records retain = [] ∨
      attempt.stop = none ∧ (∀ reply ∈ attempt.replies, reply = .done) ∧
        archive.records.length ≤ 100000 ∧
        Released (pruned archive.records retain) archive.records

theorem Sound.whole (h : Sound sha256 archive) (hsmooth : attempt.Smooth archive) :
    attempt.Whole sha256 archive := by
  obtain ⟨job, replies, stop⟩ := attempt
  cases job with
  | backup => trivial
  | sweep retain =>
    rcases hsmooth with hnone | ⟨rfl, hready, hlimit, hreleased⟩
    · left
      exact Attempt.after_of_walks (I := fun reached => reached.objects = archive.objects) rfl
        (walks_nothingPruned hnone)
    · have hends := ends_applyBackupRetention (w := ⟨archive, replies⟩) h hready hreleased
      have hfinal := (hends.mono (fun _ _ => id) fun _ _ => Or.inl).final
        (P := fun w' : World δ => w'.archive.objects = archive.objects ∨
          ∀ record ∈ pruned archive.records retain, record ∉ w'.archive.records)
      exact hfinal.imp_right fun hgone => ⟨hlimit, hgone⟩

theorem Sound.states (hsha : Function.Injective sha256) {attempts : List Attempt}
    (h : Sound sha256 archive) (hfresh : Along sha256 Attempt.Fresh attempts archive)
    (hsmooth : Along sha256 Attempt.Smooth attempts archive) :
    ∀ reached ∈ states sha256 attempts archive, Sound sha256 reached := by
  induction attempts generalizing archive with
  | nil => exact forall_mem_singleton.mpr h
  | cons attempt attempts ih =>
    refine forall_mem_cons.mpr ⟨h, ih ?_ hfresh.2 hsmooth.2⟩
    exact h.after hsha hfresh.1 (h.whole hsmooth.1)

omit [DecidableEq δ] in
theorem sound_empty : Sound sha256 (empty : Archive δ) := ⟨⟨nofun, nofun, nodup_nil⟩, nofun⟩

end Runs

def sampleTable : SourceTable := ⟨"t", "table-t", [1], [⟨"s", [2]⟩]⟩

def samplePinned : Pinned := ⟨[sampleTable], by decide, by decide, by decide⟩

def sampleAttempts (stop : Option ℕ) : List Attempt :=
  [⟨.backup "a" "1" true samplePinned, [], none⟩, ⟨.backup "b" "2" true samplePinned, [], none⟩,
    ⟨.sweep 1, [], stop⟩]

def sampleDigest (bytes : List UInt8) : List UInt8 := bytes

theorem injective_sampleDigest : Function.Injective sampleDigest := fun _ _ h => h

theorem fresh_sampleAttempts (stop : Option ℕ) :
    Along sampleDigest Attempt.Fresh (sampleAttempts stop) empty :=
  ⟨by decide, by decide +kernel, trivial, trivial⟩

end Pintail.Backup
