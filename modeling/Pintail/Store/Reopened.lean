import Pintail.Store.Readers

/-! # What a reopened table shows

A writer may stop at any instant, and an open after it may stop half way through its repairs. The
open that completes shows what the table showed when its writer stopped: it drops torn bytes, and
of two equal segments the one that the other outranks.
-/

namespace Pintail

open List Versioned Traced Except

namespace Versioned

variable {α ρ κ ν : Type} [LinearOrder ν] [Versioned ρ κ ν] [DecidableEq κ] {k : κ}

theorem pick_latest_of_subset {rows rows' : List ρ} (h : rows' ⊆ rows) :
    pick (latest rows' k) (latest rows k) = latest rows k := by
  cases hl : latest rows' k with
  | none => rfl
  | some r' =>
    obtain ⟨hmem, hkey, -⟩ := IsLatest.of_latest hl
    obtain ⟨r, hr⟩ := exists_latest (h hmem) hkey
    rw [hr, pick, newer, if_pos ((IsLatest.of_latest hr).version_le r' (h hmem) hkey)]

/-- Leaving out items whose records are stored again behind them changes nothing. -/
theorem latest_without_copies {f : α → List ρ} {keep : α → Bool} {items : List α}
    (h : ∀ before item after, items = before ++ item :: after → keep item = false →
      ∃ copy ∈ after, f copy = f item) :
    latest ((items.filter keep).flatMap f) k = latest (items.flatMap f) k := by
  induction items with
  | nil => rfl
  | cons first items ih =>
    have hrest := ih fun before item after he => h (first :: before) item after (by rw [he]; rfl)
    rw [flatMap_cons, latest_append, ← hrest]
    cases hkeep : keep first with
    | true => rw [filter_cons_of_pos hkeep, flatMap_cons, latest_append]
    | false =>
      obtain ⟨copy, hcopy, he⟩ := h [] first items rfl hkeep
      rw [filter_cons_of_neg (by simp [hkeep]), hrest, ← he]
      exact (pick_latest_of_subset fun r hr => mem_flatMap.mpr ⟨copy, hcopy, hr⟩).symm

end Versioned

theorem sublist_of_mem_zip_tail {α : Type} {a b : α} {l : List α} (h : (a, b) ∈ l.zip l.tail) :
    [a, b] <+ l := by
  induction l with
  | nil => cases h
  | cons c l ih => cases l <;> grind

theorem not_sublist_swap {α : Type} {a b : α} {l : List α} (hn : l.Nodup) (h : [a, b] <+ l) :
    ¬ [b, a] <+ l := by
  induction l with
  | nil => cases h
  | cons c l ih => grind [cons_sublist_cons']

section Collapsed

variable {schema : TableSchema} {manifest : Manifest} {k : PrimaryKey}

/-- The sort that brings equal segments together is stable, so a segment that an open drops comes
again behind it. -/
theorem exists_copy_of_mem_identicalSegments {segments : List Segment} {pair : Segment × ℕ}
    {before after : List (Segment × ℕ)} (hsplit : segments.zipIdx = before ++ pair :: after)
    (hdropped : pair.2 ∈ identicalSegments segments) :
    ∃ copy ∈ after, copy.1.rowsUnder schema = pair.1.rowsUnder schema := by
  obtain ⟨⟨left, right⟩, hmem, hleft⟩ := mem_map.mp hdropped
  change left.2 = pair.2 at hleft
  rw [mem_filter, Bool.and_eq_true] at hmem
  obtain ⟨hmem, hspan, hsame⟩ := hmem
  have hnodup : (segments.zipIdx.insertionSort fun left right => spanLe left right).Nodup := by
    rw [(perm_insertionSort _ _).nodup_iff]
    exact .of_map Prod.snd (by simp [nodup_range'])
  have hsub := sublist_of_mem_zip_tail hmem
  have hheld : ∀ p ∈ [left, right], p ∈ segments.zipIdx := fun p hp =>
    (mem_insertionSort _).mp (hsub.subset hp)
  obtain rfl : left = pair := by
    have hpair : pair ∈ segments.zipIdx := by simp [hsplit]
    have hget := mem_zipIdx_iff_getElem?.mp (hheld left mem_cons_self)
    rw [hleft, mem_zipIdx_iff_getElem?.mp hpair] at hget
    exact Prod.ext (Option.some.inj hget).symm hleft
  have hright := hheld right (by simp)
  rw [hsplit, mem_append, mem_cons] at hright
  rcases hright with hbefore | rfl | hafter
  · have hswap : [right, left] <+ segments.zipIdx := by
      rw [hsplit]
      exact (singleton_sublist.mpr hbefore).append (singleton_sublist.mpr mem_cons_self)
    have hle : spanLe right left = true := by
      simp only [Segment.sameSpan, Bool.and_eq_true, beq_iff_eq] at hspan
      simp [spanLe, hspan]
    exact (not_sublist_swap hnodup hsub (pair_sublist_insertionSort hle hswap)).elim
  · exact (not_sublist_swap hnodup hsub hsub).elim
  · simp only [Segment.sameContents, Bool.and_eq_true, beq_iff_eq] at hsame
    exact ⟨right, hafter, by simp [Segment.rowsUnder, hsame]⟩

theorem latest_rowsUnder_collapsed :
    latest (manifest.collapsed.rowsUnder schema) k = latest (manifest.rowsUnder schema) k := by
  have hall : manifest.rowsUnder schema =
      manifest.segments.zipIdx.flatMap fun pair => pair.1.rowsUnder schema := by
    rw [Manifest.rowsUnder, ← flatMap_map Prod.fst, zipIdx_map_fst]
  rw [hall, Manifest.rowsUnder, Manifest.collapsed, Compaction.unselected, flatMap_map]
  exact latest_without_copies fun before pair after hsplit hdropped =>
    exists_copy_of_mem_identicalSegments hsplit (by simpa using hdropped)

end Collapsed

/-- The manifest and the records show the rows under their keys. -/
def Showing (schema : TableSchema) (rows : PrimaryKey → Option StoredRow) (manifest : Manifest)
    (records : List WalRecord) : Prop :=
  ∀ k, shown (diskRows schema manifest records) k = rows k

theorem openKeeps_showing (xxh3 : List UInt8 → UInt64) (schema : TableSchema)
    {options : StoreOptions} (h : options.transactional = false)
    (rows : PrimaryKey → Option StoredRow) :
    OpenKeeps xxh3 schema options (Showing schema rows) where
  collapsed manifest records hs k := by
    rw [← hs k, shown, shown, diskRows, diskRows, latest_append, latest_append,
      latest_rowsUnder_collapsed]
    rfl
  upgraded manifest records hs := hs
  committed manifest records ht := by simp [h] at ht
  covered manifest records hs hle k := by
    rw [← hs k, diskRows, diskRows, pendingRows_of_le hle, pendingRows_nil]

namespace TableStore

/-- The files hold what shows the rows. -/
def DiskShows (world : World) (schema : TableSchema) (rows : PrimaryKey → Option StoredRow)
    (disk : Disk) : Prop :=
  ∃ manifest records tail, disk.Holds world.xxh3 schema manifest records tail ∧
    Showing schema rows manifest records

/-- An open that stopped on the way left the files so. -/
def Interrupted (world : World) (schema : TableSchema) (disk left : Disk) : Prop :=
  ∃ options : StoreOptions, options.transactional = false ∧
    left ∈ (TableStore.open world schema options disk).visited

variable {world : World} {schema : TableSchema} {options : StoreOptions} {disk left : Disk}
  {rows : PrimaryKey → Option StoredRow}

theorem walks_open_shows (h : DiskShows world schema rows disk)
    (hreplicated : options.transactional = false) :
    Walks (HoldsOnly world.xxh3 schema (Showing schema rows)) (TableStore.open world schema options)
      (fun s _ => ∀ k, s.shown k = rows k) (fun _ _ => True) disk := by
  obtain ⟨manifest, records, tail, hd, hs⟩ := h
  refine (walks_open (openKeeps_showing _ _ hreplicated rows) hd hs).mono ?_ fun _ _ _ => trivial
  rintro s d ⟨-, records', ho⟩ k
  rw [← ho.coherent.shown_eq k, ho.schema_eq]
  exact ho.keeps k

theorem DiskShows.interrupted (h : DiskShows world schema rows disk)
    (hstops : Relation.ReflTransGen (Interrupted world schema) disk left) :
    DiskShows world schema rows left := by
  induction hstops with
  | refl => exact h
  | tail _ hstop ih =>
    obtain ⟨options, hreplicated, hleft⟩ := hstop
    exact (walks_open_shows ih hreplicated).1.forall_visited _ hleft

/-- Wherever the writer of a replicated table stops, and however often an open stops on the way, the
open that completes shows what the table showed when the writer stopped. -/
theorem open_shows_stopped {store v s : TableStore} (h : Process.Reached world (.running store))
    (steps : List WriterStep) (hv : v ∈ timeline world steps store)
    (hstops : Relation.ReflTransGen (Interrupted world store.schema) v.disk left)
    (hreplicated : options.transactional = false)
    (hopen : (TableStore.open world store.schema options left).result = .ok s) :
    ∀ k, s.shown k = v.shown k := by
  obtain ⟨records, hc⟩ := h.sound
  obtain ⟨⟨records', tail, hholds, -, hshown⟩, hschema, -⟩ := (hc.timeline steps).1 v hv
  rw [hschema] at hholds hshown
  have hdisk : DiskShows world store.schema v.shown v.disk := ⟨_, _, _, hholds, hshown⟩
  have hok := (walks_open_shows (hdisk.interrupted hstops) hreplicated).2
  rw [hopen] at hok
  exact hok

open TableSnapshot

/-- Inside a flush: the manifest names the new segment, and the log still holds its row. -/
def midFlush : TableStore :=
  (timeline sampleWorld [.flush] halfFlushed).get ⟨1, by decide +kernel⟩

/-- An open that stopped when it had cut the log. -/
def halfOpened : Disk :=
  (TableStore.open sampleWorld halfFlushed.schema .default midFlush.disk).visited.get
    ⟨1, by decide +kernel⟩

theorem open_shows_stopped_halfFlushed :
    midFlush.disk ≠ halfFlushed.disk ∧ halfOpened ≠ midFlush.disk ∧
      ∃ s, (TableStore.open sampleWorld halfFlushed.schema .default halfOpened).result = .ok s ∧
        ∀ k, s.shown k = midFlush.shown k := by
  obtain ⟨s, hs⟩ := exists_of_isOk (show (TableStore.open sampleWorld halfFlushed.schema .default
    halfOpened).result.isOk = true by decide +kernel)
  have hreached : Process.Reached sampleWorld (.running halfFlushed) :=
    (Process.Reached.fresh _ _ (by decide +kernel)).write halfFlushedSteps
  exact ⟨by decide +kernel, by decide +kernel, s, hs, open_shows_stopped hreached [.flush]
    (get_mem _ _) (.single ⟨.default, rfl, get_mem _ _⟩) rfl hs⟩

end TableStore

end Pintail
