import Pintail.Backup.Intact

/-! # Creating a backup

A backup job writes below its own identifier only. The segments it takes over from its parent are
intact there, and the digest says that they are the pinned ones; so the backup is intact by the time
it is listed, and every other listed backup stays intact at each state on the way.
-/

namespace Pintail.Backup

open Traced List SourceSegment SourceTable

variable {δ : Type} {sha256 : List UInt8 → δ} {id : String} {w : World δ}

/-- A call ends, or an object is put under one of the given keys. -/
inductive Write (K : ObjectKey → Prop) : World δ → List (World δ) → World δ → Prop
  | reply (archive : Archive δ) (replies rest : List Reply) :
      Write K ⟨archive, replies⟩ [] ⟨archive, rest⟩
  | put (archive : Archive δ) (replies : List Reply) {key : ObjectKey} (object : Object δ)
      (hkey : K key) :
      Write K ⟨archive, replies⟩ [⟨archive.put key object, replies⟩]
        ⟨archive.put key object, replies⟩

namespace Write

variable {K K' : ObjectKey → Prop} {visited : List (World δ)} {w' : World δ}

theorem mono (hK : ∀ k, K k → K' k) (h : Write K w visited w') : Write K' w visited w' := by
  cases h with
  | reply archive replies rest => exact .reply archive replies rest
  | put archive replies object hkey => exact .put archive replies object (hK _ hkey)

variable {I : Archive δ → Prop}

theorem keeps (hput : ∀ archive key object, K key → I archive → I (archive.put key object))
    (h : Write K w visited w') (hI : I w.archive) :
    (∀ v ∈ visited, I v.archive) ∧ I w'.archive := by
  cases h with
  | reply archive replies rest => exact ⟨nofun, hI⟩
  | put archive replies object hkey =>
    have hI' := hput archive _ object hkey hI
    exact ⟨forall_mem_singleton.mpr hI', hI'⟩

variable {α : Type} {x : Task δ α} {Q : α → World δ → Prop} {E : BackupError → World δ → Prop}

theorem walks_mono (hK : ∀ k, K k → K' k) (h : Walks (Write K) x Q E w) :
    Walks (Write K') x Q E w := h.of_step fun _ _ _ hstep => hstep.mono hK

theorem walks_keep (hput : ∀ archive key object, K key → I archive → I (archive.put key object))
    (hK : ∀ k, K k → K' k) (h : Walks (Write K) x Q E w) (hI : I w.archive) :
    Walks (Write K') x (fun a w' => Q a w' ∧ I w'.archive) (fun e w' => E e w' ∧ I w'.archive) w :=
  walks_mono hK (h.keep (P := fun w' => I w'.archive)
    (fun _ _ _ hstep hI => (hstep.keeps hput hI).2) hI)

end Write

section Calls

variable {step : World δ → List (World δ) → World δ → Prop} {E : BackupError → World δ → Prop}
  (hreply : ∀ archive replies rest, step ⟨archive, replies⟩ [] ⟨archive, rest⟩)

include hreply

theorem walks_reply {Q : Reply → World δ → Prop}
    (h : ∀ answer rest, Q answer ⟨w.archive, rest⟩) : Walks step reply Q E w := by
  refine walks_bind (walks_get ?_)
  exact walks_bind (walks_modify (hreply _ _ _) (walks_pure (h _ _)))

theorem walks_observe {Q : Archive δ → World δ → Prop} (h : ∀ rest, Q w.archive ⟨w.archive, rest⟩)
    (herr : ∀ e rest, E e ⟨w.archive, rest⟩) : Walks step observe Q E w := by
  refine walks_bind (walks_reply hreply fun answer rest => ?_)
  cases answer with
  | done => exact walks_bind (walks_get (walks_pure (h rest)))
  | refused => exact walks_fail (herr _ rest)
  | lost => exact walks_fail (herr _ rest)

theorem walks_change {f : Archive δ → Archive δ} {Q : Unit → World δ → Prop}
    (hf : ∀ rest, step ⟨w.archive, rest⟩ [⟨f w.archive, rest⟩] ⟨f w.archive, rest⟩)
    (h : ∀ rest, Q () ⟨f w.archive, rest⟩) (hrefused : ∀ e rest, E e ⟨w.archive, rest⟩)
    (hlost : ∀ e rest, E e ⟨f w.archive, rest⟩) : Walks step (change f) Q E w := by
  refine walks_bind (walks_reply hreply fun answer rest => ?_)
  cases answer with
  | done => exact walks_publish (hf rest) (h rest)
  | refused => exact walks_fail (hrefused _ rest)
  | lost => exact walks_bind (walks_publish (hf rest) (walks_fail (hlost _ rest)))

theorem walks_fetchManifest {Q : BackupManifest δ → World δ → Prop}
    (h : ∀ manifest rest, loadManifest w.archive.objects id = .ok manifest →
      Q manifest ⟨w.archive, rest⟩)
    (herr : ∀ e rest, E e ⟨w.archive, rest⟩) : Walks step (fetchManifest id) Q E w := by
  refine walks_bind (walks_observe hreply (fun rest => ?_) herr)
  exact walks_lift (fun manifest hload => h manifest rest hload) fun e _ => herr e rest

end Calls

section Create

variable {parent : Option (BackupManifest δ)}

def ObjectKey.OfTable (id table : String) : ObjectKey → Prop
  | .backup _ => False
  | .tableManifest i t => i = id ∧ t = table
  | .segment i t _ => i = id ∧ t = table

variable {key : ObjectKey} {table : String}

theorem ObjectKey.OfTable.backupId (h : key.OfTable id table) : key.backupId = id := by
  cases key with
  | backup _ => exact h.elim
  | tableManifest _ _ => exact h.1
  | segment _ _ _ => exact h.1

theorem ObjectKey.OfTable.unique {table table' : String} (h : key.OfTable id table)
    (h' : key.OfTable id table') : table = table' := by
  cases key with
  | backup _ => exact h.elim
  | tableManifest _ _ => exact h.2.symm.trans h'.2
  | segment _ _ _ => exact h.2.symm.trans h'.2

/-- Each segment that may be taken over is in place, under another backup's key. -/
def Inherits (sha256 : List UInt8 → δ) (id : String) (parent : Option (BackupManifest δ))
    (objects : ObjectKey → Option (Object δ)) : Prop :=
  ∀ table fileName existing, inheritedSegment parent table fileName = some existing →
    ∃ bytes, Held sha256 (fun k => k.backupId ≠ id) objects existing bytes

variable {archive : Archive δ} {object : Object δ}

theorem objects_put_of_ne {key k : ObjectKey} (h : k ≠ key) :
    (archive.put key object).objects k = archive.objects k := if_neg h

theorem objects_put_self : (archive.put key object).objects key = some object := if_pos rfl

variable {P : ObjectKey → Prop}

theorem carries_put (h : ¬ P key) :
    ∀ k found, P k → archive.objects k = some found →
      P k ∧ (archive.put key object).objects k = some found := by
  intro k found hk hfound
  refine ⟨hk, ?_⟩
  rw [objects_put_of_ne, hfound]
  rintro rfl
  exact h hk

theorem Inherits.put (h : Inherits sha256 id parent archive.objects) (hkey : key.backupId = id) :
    Inherits sha256 id parent (archive.put key object).objects := by
  intro table fileName existing hexisting
  obtain ⟨bytes, hheld⟩ := h table fileName existing hexisting
  exact ⟨bytes, hheld.carry (carries_put (not_not.mpr hkey))⟩

theorem Inherits.walks_keep {α : Type} {x : Task δ α} {Q : α → World δ → Prop}
    {E : BackupError → World δ → Prop} {K K' : ObjectKey → Prop}
    (hparent : Inherits sha256 id parent w.archive.objects) (h : Walks (Write K) x Q E w)
    (hid : ∀ k, K k → k.backupId = id) (hK : ∀ k, K k → K' k) :
    Walks (Write K') x (fun a w' => Q a w' ∧ Inherits sha256 id parent w'.archive.objects)
      (fun e w' => E e w' ∧ Inherits sha256 id parent w'.archive.objects) w :=
  Write.walks_keep (I := fun a => Inherits sha256 id parent a.objects)
    (fun _ _ _ hkey hin => hin.put (hid _ hkey)) hK h hparent

variable {tables : List SourceTable}

theorem Inherits.of_heldBackup {manifest : BackupManifest δ} {parentId : String}
    {objects : ObjectKey → Option (Object δ)}
    (h : HeldBackup sha256 (fun k => k.backupId ≠ id) objects parentId tables manifest) :
    Inherits sha256 id (some manifest) objects := by
  intro table fileName existing hexisting
  have hmem := mem_of_find?_eq_some hexisting
  obtain ⟨stored, hstored, hmem⟩ := mem_flatMap.mp (mem_reverse.mp hmem)
  obtain ⟨listed, -, htables⟩ := h.tables
  obtain ⟨source, -, htable⟩ := htables.exists_of_mem_left (mem_of_mem_filter hstored)
  obtain ⟨segment, -, hs⟩ := htable.segments.exists_of_mem_left hmem
  exact ⟨segment.bytes, hs.held⟩

theorem fileName_of_inheritedSegment {table fileName : String} {existing : ObjectReference δ}
    (h : inheritedSegment parent table fileName = some existing) :
    existing.key.fileName = fileName := by
  cases parent with
  | none => cases h
  | some manifest =>
    have hname := find?_some h
    exact of_decide_eq_true hname

theorem walks_putBytes {bytes : List UInt8} (hP : P key) (hpart : key.isBackup = false) :
    Walks (Write (· = key)) (putBytes sha256 id key bytes)
      (fun reference w' => reference.key = key ∧ Held sha256 P w'.archive.objects reference bytes)
      (fun _ _ => True) w := by
  refine walks_bind (walks_change .reply (fun rest => .put _ rest _ rfl) (fun rest => ?_)
    (fun _ _ => trivial) fun _ _ => trivial)
  exact walks_pure ⟨rfl, hP, hpart, objects_put_self, rfl, rfl⟩

variable [DecidableEq δ]

def Reachable (id table : String) (names : List String) (key : ObjectKey) : Prop :=
  key.backupId ≠ id ∨ ∃ name ∈ names, key = .segment id table name

theorem Reachable.mono {names names' : List String} (hnames : names ⊆ names')
    (h : Reachable id table names key) : Reachable id table names' key := by
  rcases h with hne | ⟨name, hname, rfl⟩
  · exact .inl hne
  · exact .inr ⟨name, hnames hname, rfl⟩

variable (hsha : Function.Injective sha256) (hparent : Inherits sha256 id parent w.archive.objects)

include hsha hparent

theorem walks_transferSegment {segment : SourceSegment} :
    Walks (Write (· = .segment id table segment.fileName))
      (transferSegment sha256 id parent table segment)
      (fun reference w' => HeldSegment sha256 (Reachable id table [segment.fileName])
        w'.archive.objects reference segment)
      (fun _ _ => True) w := by
  refine walks_bind (walks_lift (fun _ hsafe => ?_) fun _ _ => trivial)
  rw [validateComponent_ok] at hsafe
  have hput : Walks (Write (· = .segment id table segment.fileName))
      (putBytes sha256 id (.segment id table segment.fileName) segment.bytes)
      (fun reference w' => HeldSegment sha256 (Reachable id table [segment.fileName])
        w'.archive.objects reference segment) (fun _ _ => True) w := by
    refine (walks_putBytes (P := Reachable id table [segment.fileName]) ?_ rfl).mono ?_ ?_
    · exact .inr ⟨_, mem_singleton_self _, rfl⟩
    · rintro reference w' ⟨hkey, hheld⟩
      exact ⟨hheld, by rw [hkey]; rfl, hsafe⟩
    · exact fun _ _ _ => trivial
  cases hexisting : inheritedSegment parent table segment.fileName with
  | none => exact hput
  | some existing =>
    refine walks_ite (fun hsame => walks_pure ?_) fun _ => hput
    obtain ⟨bytes, hheld⟩ := hparent _ _ _ hexisting
    have hbytes : bytes = segment.bytes := hsha (hheld.digest.symm.trans hsame.1.symm)
    rw [hbytes] at hheld
    exact ⟨hheld.carry fun _ _ hk hobject => ⟨.inl hk, hobject⟩,
      fileName_of_inheritedSegment hexisting, hsafe⟩

/-- A transfer that came through left its segment in place. -/
def HeldTransfer (sha256 : List UInt8 → δ) (P : ObjectKey → Prop)
    (objects : ObjectKey → Option (Object δ)) (transfer : Except BackupError (ObjectReference δ))
    (segment : SourceSegment) : Prop :=
  ∀ reference, transfer = .ok reference → HeldSegment sha256 P objects reference segment

theorem walks_transferSegments {segments : List SourceSegment}
    (hnodup : (segments.map fileName).Nodup) :
    Walks (Write fun k => ∃ name ∈ segments.map fileName, k = .segment id table name)
      (transferSegments sha256 id parent table segments)
      (fun transfers w' => List.Forall₂ (HeldTransfer sha256
        (Reachable id table (segments.map fileName)) w'.archive.objects)
        transfers segments)
      (fun _ _ => True) w := by
  induction segments generalizing w with
  | nil => exact walks_pure .nil
  | cons segment segments ih =>
    rw [map_cons, nodup_cons] at hnodup
    have hattempt : Walks
        (Write fun k => ∃ name ∈ segment.fileName :: segments.map fileName,
          k = .segment id table name)
        (attempt (transferSegment sha256 id parent table segment))
        (fun transfer w' => HeldTransfer sha256 (Reachable id table [segment.fileName])
          w'.archive.objects transfer segment ∧ Inherits sha256 id parent w'.archive.objects)
        (fun _ _ => True) w := by
      refine walks_attempt ((hparent.walks_keep (walks_transferSegment hsha hparent) ?_ ?_).mono
        ?_ ?_)
      · rintro k rfl
        rfl
      · rintro k rfl
        exact ⟨_, mem_cons_self, rfl⟩
      · rintro reference w' ⟨hheld, hin⟩
        refine ⟨?_, hin⟩
        rintro _ ⟨⟩
        exact hheld
      · rintro e w' ⟨-, hin⟩
        exact ⟨nofun, hin⟩
    refine walks_bind (hattempt.mono (fun transfer w' h => ?_) fun _ _ _ => trivial)
    obtain ⟨hheld, hin⟩ := h
    -- the other segments go under other names
    have hstay : ∀ (archive : Archive δ) (key : ObjectKey) (object : Object δ),
        (∃ name ∈ segments.map fileName, key = .segment id table name) →
        HeldTransfer sha256 (Reachable id table [segment.fileName]) archive.objects transfer
          segment →
        HeldTransfer sha256 (Reachable id table [segment.fileName])
          (archive.put key object).objects transfer segment := by
      rintro archive _ object ⟨name, hname, rfl⟩ hheld reference hok
      refine (hheld reference hok).carry (carries_put ?_)
      rintro (hne | ⟨other, hother, heq⟩)
      · exact hne rfl
      · rw [mem_singleton.mp hother] at heq
        injection heq with _ _ heq
        exact hnodup.1 (heq ▸ hname)
    refine walks_bind ((Write.walks_keep hstay ?_ (ih hin hnodup.2) hheld).mono ?_ ?_)
    · rintro k ⟨name, hname, rfl⟩
      exact ⟨name, mem_cons_of_mem _ hname, rfl⟩
    · rintro transfers w'' ⟨htransfers, hheld⟩
      refine walks_pure (.cons (fun reference hok => ?_) (htransfers.imp fun _ _ h reference hok =>
        ?_))
      · exact (hheld reference hok).carry fun _ _ hk hfound =>
          ⟨hk.mono (by simp), hfound⟩
      · exact (h reference hok).carry fun _ _ hk hfound =>
          ⟨hk.mono (subset_cons_self _ _), hfound⟩
    · exact fun _ _ _ => trivial

def Covered (id : String) (tables : List String) (key : ObjectKey) : Prop :=
  key.backupId ≠ id ∨ ∃ table ∈ tables, key.OfTable id table

theorem walks_createTable {table : SourceTable} (hnodup : (table.segments.map fileName).Nodup) :
    Walks (Write fun k => k.OfTable id table.name) (createTable sha256 id parent table)
      (fun stored w' => HeldTable sha256 (Covered id [table.name]) w'.archive.objects stored table)
      (fun _ _ => True) w := by
  refine walks_bind (walks_lift (fun _ hname => ?_) fun _ _ => trivial)
  refine walks_bind (walks_lift (fun _ hdirectory => ?_) fun _ _ => trivial)
  rw [validateComponent_ok] at hname hdirectory
  refine walks_bind ((hparent.walks_keep (walks_putBytes (P := (· = .tableManifest id table.name))
    rfl rfl) ?_ ?_).mono ?_ fun _ _ _ => trivial)
  · rintro k rfl
    rfl
  · rintro k rfl
    exact ⟨rfl, rfl⟩
  rintro manifest w' ⟨⟨-, hmanifest⟩, hin⟩
  refine walks_bind ((Write.walks_keep (I := fun a => Held sha256 (· = .tableManifest id table.name)
    a.objects manifest table.manifest) ?_ ?_ (walks_transferSegments hsha hin hnodup) hmanifest).mono
    ?_ fun _ _ _ => trivial)
  · rintro archive _ object ⟨name, -, rfl⟩ h
    exact h.carry (carries_put nofun)
  · rintro k ⟨name, -, rfl⟩
    exact ⟨rfl, rfl⟩
  rintro transfers w'' ⟨htransfers, hmanifest⟩
  refine walks_bind (walks_lift (fun segments hall => walks_pure ?_) fun _ _ => trivial)
  rw [Except.mapM_eq_ok] at hall
  refine ⟨rfl, rfl, hname, hdirectory, hmanifest.carry ?_, ?_⟩
  · rintro k found rfl hfound
    exact ⟨.inr ⟨_, mem_singleton_self _, rfl, rfl⟩, hfound⟩
  · apply hall.flip.trans_of htransfers
    intro reference transfer segment hok hheld
    apply (hheld reference hok).carry
    rintro k found (hne | ⟨name, -, rfl⟩) hfound
    · exact ⟨.inl hne, hfound⟩
    · exact ⟨.inr ⟨_, mem_singleton_self _, rfl, rfl⟩, hfound⟩

theorem walks_createTables (hnames : (tables.map name).Nodup)
    (hfiles : ∀ table ∈ tables, (table.segments.map fileName).Nodup) :
    Walks (Write fun k => ∃ table ∈ tables.map name, k.OfTable id table)
      (createTables sha256 id parent tables) (fun created w' => List.Forall₂ (HeldTable sha256
        (Covered id (tables.map name)) w'.archive.objects) created tables) (fun _ _ => True) w := by
  induction tables generalizing w with
  | nil => exact walks_pure .nil
  | cons table tables ih =>
    rw [map_cons, nodup_cons] at hnames
    rw [forall_mem_cons] at hfiles
    refine walks_bind ((hparent.walks_keep (walks_createTable hsha hparent hfiles.1)
      (fun _ => ObjectKey.OfTable.backupId) ?_).mono ?_ fun _ _ _ => trivial)
    · intro k hk
      exact ⟨_, mem_cons_self, hk⟩
    rintro stored w' ⟨htable, hin⟩
    have hstay : ∀ (archive : Archive δ) (key : ObjectKey) (object : Object δ),
        (∃ other ∈ tables.map name, key.OfTable id other) →
        HeldTable sha256 (Covered id [table.name]) archive.objects stored table →
        HeldTable sha256 (Covered id [table.name]) (archive.put key object).objects stored
          table := by
      rintro archive key object ⟨other, hother, hkey⟩ htable
      refine htable.carry (carries_put ?_)
      rintro (hne | ⟨name, hname, hof⟩)
      · exact hne hkey.backupId
      · rw [mem_singleton.mp hname] at hof
        exact hnames.1 (hof.unique hkey ▸ hother)
    refine walks_bind ((Write.walks_keep hstay ?_ (ih hin hnames.2 hfiles.2) htable).mono ?_
      fun _ _ _ => trivial)
    · rintro k ⟨other, hother, hk⟩
      exact ⟨other, mem_cons_of_mem _ hother, hk⟩
    rintro created w'' ⟨hcreated, htable⟩
    have hwider : ∀ names ⊆ (table :: tables).map name, ∀ k found,
        Covered id names k → w''.archive.objects k = some found →
        Covered id ((table :: tables).map name) k ∧
          w''.archive.objects k = some found := by
      rintro names hsub k found (hne | ⟨name, hname, hof⟩) hfound
      · exact ⟨.inl hne, hfound⟩
      · exact ⟨.inr ⟨name, hsub hname, hof⟩, hfound⟩
    exact walks_pure (.cons (htable.carry (hwider _ (by simp)))
      (hcreated.imp fun _ _ h => h.carry (hwider _ (subset_cons_self _ _))))

theorem walks_createBackup {pinned : Pinned} {parentId : Option String} :
    Walks (Write fun k => k.backupId = id) (createBackup sha256 id parent parentId pinned.tables)
      (fun _ w' => Intact sha256 (fun _ => True) w'.archive.objects id pinned.tables)
      (fun _ _ => True) w := by
  refine walks_bind (walks_lift (fun _ hsafe => ?_) fun _ _ => trivial)
  refine walks_bind (walks_lift (fun _ _ => ?_) fun _ _ => trivial)
  rw [validateComponent_ok] at hsafe
  have hcreate := walks_createTables hsha hparent pinned.names
    fun table htable => (nodup_cons.mp (pinned.fileNames table htable)).2
  refine walks_bind ((Write.walks_mono ?_ hcreate).mono ?_
    fun _ _ _ => trivial)
  · rintro k ⟨table, -, hk⟩
    exact hk.backupId
  intro created w' hcreated
  refine walks_change .reply (fun rest => .put _ rest _ rfl) (fun rest => ?_)
    (fun _ _ => trivial) fun _ _ => trivial
  refine ⟨_, trivial, objects_put_self, hsafe, rfl, rfl, ?_⟩
  have hsorted := perm_insertionSort (fun a b : BackupTable δ => ¬ b.name < a.name) created
  obtain ⟨listed, htables, hperm⟩ := perm_comp_forall₂ hsorted hcreated
  refine ⟨listed, hperm, htables.imp fun stored table htable => htable.carry ?_⟩
  rintro k found hk hfound
  refine ⟨trivial, ?_⟩
  rw [objects_put_of_ne, hfound]
  rintro rfl
  rcases hk with hne | ⟨table, -, hof⟩
  · exact hne rfl
  · exact hof

end Create

end Pintail.Backup
