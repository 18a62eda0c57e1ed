import Pintail.Store.Open

/-! # What a merge shows

A merge leaves every key its newest row, and may drop deletes. No segment left out of it holds an
older row of a key whose delete is dropped, but the memtable may: then the merge brings that row
back.
-/

namespace Pintail

open Versioned Compaction Traced List Segment StoredRow
open Option hiding filter_map

/-- The segments of a manifest are readable under the schema and have names of their own. -/
structure Manifest.Sound (schema : TableSchema) (manifest : Manifest) : Prop where
  wellFormed : ∀ segment ∈ manifest.segments, segment.WellFormed
  readable : ∀ segment ∈ manifest.segments,
    segment.read schema = .ok (segment.rowsUnder schema)
  ids_nodup : (manifest.segments.map Segment.id).Nodup

instance (schema : TableSchema) (manifest : Manifest) : Decidable (manifest.Sound schema) :=
  decidable_of_iff ((∀ segment ∈ manifest.segments, segment.WellFormed) ∧
      (∀ segment ∈ manifest.segments, segment.read schema = .ok (segment.rowsUnder schema)) ∧
      (manifest.segments.map Segment.id).Nodup)
    ⟨fun ⟨hw, hr, hn⟩ => ⟨hw, hr, hn⟩, fun h => ⟨h.wellFormed, h.readable, h.ids_nodup⟩⟩

namespace Compaction

section Dropped

variable {options : StoreOptions} {fileSize : Segment → ℕ} {schema : TableSchema}
  {segments : List Segment} {plan : CompactionPlan} {indices : List ℕ} {merged left : Segment}

theorem bounds_of_mergeDropsTombstones (h : mergeDropsTombstones segments indices = true)
    (hm : merged ∈ selected segments indices) (hl : left ∈ unselected segments indices) :
    (∃ low, low ≤ merged.minKey ∧ left.maxKey < low) ∨
      (∃ high, merged.maxKey ≤ high ∧ high < left.minKey) ∨ merged.maxVersion < left.minVersion := by
  simp only [mergeDropsTombstones] at h
  split at h
  · rename_i low high newest hlow hhigh hnewest
    obtain ⟨index, hi, hs⟩ := mem_unselected.mp hl
    have hall := all_eq_true.mp h (left, index) (mem_zipIdx_iff_getElem?.mpr hs)
    have hle := (min?_eq_some_iff.mp hlow).2 _ (mem_map_of_mem hm)
    have hge := (max?_eq_some_iff.mp hhigh).2 _ (mem_map_of_mem hm)
    have hv := (max?_eq_some_iff.mp hnewest).2 _ (mem_map_of_mem hm)
    simp only [Bool.or_eq_true, contains_eq_mem, decide_eq_true_eq, hi, false_or] at hall
    rcases hall with (hall | hall) | hall
    · exact .inl ⟨low, hle, hall⟩
    · exact .inr (.inl ⟨high, hge, hall⟩)
    · exact .inr (.inr (hv.trans_lt hall))
  · rename_i hnone
    have hne : selected segments indices ≠ [] := ne_nil_of_mem hm
    obtain ⟨low, hlow⟩ : ∃ low, ((selected segments indices).map minKey).min? = some low :=
      ne_none_iff_exists'.mp (by simpa using hne)
    obtain ⟨high, hhigh⟩ :
        ∃ high, ((selected segments indices).map maxKey).max? = some high :=
      ne_none_iff_exists'.mp (by simpa using hne)
    obtain ⟨newest, hnewest⟩ :
        ∃ newest, ((selected segments indices).map maxVersion).max? = some newest :=
      ne_none_iff_exists'.mp (by simpa using hne)
    exact (hnone low high newest hlow hhigh hnewest).elim

theorem version_lt_of_drops (hplan : compactionPlan options fileSize schema segments = some plan)
    (hwf : ∀ segment ∈ segments, segment.WellFormed) {t r : StoredRow}
    (hm : merged ∈ selected segments plan.indices) (ht : t ∈ merged.rows)
    (hl : left ∈ unselected segments plan.indices) (hr : r ∈ left.rows) (hk : r.key = t.key)
    (hd : drops plan.window (mergeDropsTombstones segments plan.indices) t.key = true) :
    t.version < r.version := by
  have hlwf := hwf left (mem_iff_selected_or_unselected.mpr (.inr hl))
  have hmwf := hwf merged (mem_iff_selected_or_unselected.mpr (.inl hm))
  have hlow := minKey_le hlwf.sorted hr
  have hhigh := le_maxKey hlwf.sorted hr
  unfold drops at hd
  split_ifs at hd with hw
  · -- a segment with a key in the window reaches it, and the plan takes every such segment
    obtain ⟨window, hw⟩ := isSome_iff_exists.mp hw
    obtain ⟨index, hi, hs⟩ := mem_unselected.mp hl
    refine absurd (mem_of_compactionPlan hplan hw hs ?_) hi
    rw [hw] at hd
    simp only [inMergeWindow, all_some, Bool.and_eq_true, Option.all_eq_true,
      decide_eq_true_eq, ← hk] at hd
    simp only [reaches, Bool.and_eq_true, Option.all_eq_true]
    exact ⟨fun low h => decide_eq_true ((hd.1 low h).trans hhigh),
      fun high h => decide_eq_true (hlow.trans_lt (hd.2 high h))⟩
  · have htlow := minKey_le hmwf.sorted ht
    have hthigh := le_maxKey hmwf.sorted ht
    rcases bounds_of_mergeDropsTombstones hd hm hl with ⟨low, hle, hlt⟩ | ⟨high, hle, hlt⟩ | hlt
    · order
    · order
    · have := le_maxVersion ht
      have := minVersion_le hr
      order

theorem unselected_eq_filter (hn : (segments.map Segment.id).Nodup) :
    unselected segments indices = segments.filter fun segment =>
      !((selected segments indices).map Segment.id).contains segment.id := by
  conv_rhs => rw [← zipIdx_map_fst 0 segments, filter_map]
  unfold unselected
  congr 1
  apply filter_congr
  rintro ⟨segment, index⟩ hmem
  have hs := mem_zipIdx_iff_getElem?.mp hmem
  -- names are distinct, so a segment is merged by name exactly when it is by index
  have hiff : index ∈ indices ↔ segment.id ∈ (selected segments indices).map Segment.id := by
    constructor
    · exact fun hi => mem_map_of_mem (mem_selected.mpr ⟨index, hi, hs⟩)
    · intro hid
      obtain ⟨other, hother, he⟩ := mem_map.mp hid
      obtain ⟨index', hi', hs'⟩ := mem_selected.mp hother
      have hlt : index' < (segments.map Segment.id).length := by
        rw [length_map]
        exact (List.getElem?_eq_some_iff.mp hs').1
      have heq : index' = index := (getElem?_inj hlt hn).mp (by simp [hs, hs', he])
      exact heq ▸ hi'
  simp [hiff]

end Dropped

end Compaction

namespace TableStore

variable {world : World} {store : TableStore} {plan : CompactionPlan} {outputs : List Segment}
  {id : ℕ} {k : PrimaryKey} {t r : StoredRow}

def inputRows (store : TableStore) (plan : CompactionPlan) : List StoredRow :=
  (store.inputs plan).flatMap (rowsUnder store.schema)

def otherRows (store : TableStore) (plan : CompactionPlan) : List StoredRow :=
  (unselected store.manifest.segments plan.indices).flatMap (rowsUnder store.schema)

def dropsDelete (store : TableStore) (plan : CompactionPlan) (key : PrimaryKey) : Bool :=
  drops plan.window (mergeDropsTombstones store.manifest.segments plan.indices) key

/-- The merge drops a delete of the key that hides an older row of the memtable, and no segment left
out of the merge holds the key. -/
def Uncovers (store : TableStore) (plan : CompactionPlan) (key : PrimaryKey) : Prop :=
  ∃ tombstone, latest (store.inputRows plan) key = some tombstone ∧ tombstone.deleted = true ∧
    store.dropsDelete plan key = true ∧ (∀ r ∈ store.otherRows plan, r.key ≠ key) ∧
    ∃ row, store.memtable.rows[key]? = some row ∧ row.deleted = false ∧
      row.version < tombstone.version

abbrev Outputs (store : TableStore) (plan : CompactionPlan) (outputs : List Segment) (id : ℕ) :
    Prop :=
  Merged plan.window (mergeDropsTombstones store.manifest.segments plan.indices) store.schema
    (store.inputs plan) outputs id

theorem latest_memtable (memtable : Memtable) (k : PrimaryKey) :
    latest (memtable.values.map durable) k = memtable.rows[k]?.map durable := by
  rw [latest_map (f := durable) (fun _ => rfl) (fun _ => rfl), Memtable.latest_values]

theorem mem_rowsUnder_iff (plan : CompactionPlan) :
    r ∈ store.manifest.rowsUnder store.schema ↔ r ∈ store.otherRows plan ++ store.inputRows plan := by
  simp only [Manifest.rowsUnder, otherRows, inputRows, mem_append, mem_flatMap]
  constructor
  · rintro ⟨segment, hseg, hr⟩
    rcases mem_iff_selected_or_unselected.mp hseg with hin | hout
    · exact .inr ⟨segment, hin, hr⟩
    · exact .inl ⟨segment, hout, hr⟩
  · rintro (⟨segment, hout, hr⟩ | ⟨segment, hin, hr⟩)
    · exact ⟨segment, mem_iff_selected_or_unselected.mpr (.inr hout), hr⟩
    · exact ⟨segment, mem_iff_selected_or_unselected.mpr (.inl hin), hr⟩

variable (hs : store.manifest.Sound store.schema)

include hs

theorem wellFormed_inputs :
    ∀ input ∈ store.inputs plan, input.WellFormed := fun input hi =>
  hs.wellFormed input (mem_iff_selected_or_unselected.mpr (.inl hi))

theorem version_lt_of_dropsDelete (hplan : store.plan world = some plan)
    (hd : store.dropsDelete plan t.key = true) (ht : t ∈ store.inputRows plan)
    (hr : r ∈ store.otherRows plan) (hk : r.key = t.key) :
    t.version < r.version := by
  obtain ⟨merged, hm, ht⟩ := mem_flatMap.mp ht
  obtain ⟨left, hl, hr⟩ := mem_flatMap.mp hr
  obtain ⟨t', ht', rfl⟩ := mem_map.mp ht
  obtain ⟨r', hr', rfl⟩ := mem_map.mp hr
  exact version_lt_of_drops (t := t') (r := r') hplan hs.wellFormed hm ht' hl hr' hk hd

theorem Outputs.latest_eq_or (hm : store.Outputs plan outputs id) (k : PrimaryKey) :
    latest (outputs.flatMap (rowsUnder store.schema)) k = latest (store.inputRows plan) k ∧
        (∀ t, latest (store.inputRows plan) k = some t → t.deleted = true →
          store.dropsDelete plan k = false) ∨
      ∃ t, latest (store.inputRows plan) k = some t ∧ t.deleted = true ∧
        store.dropsDelete plan k = true ∧
        latest (outputs.flatMap (rowsUnder store.schema)) k = none := by
  have hout := hm.latest_eq (wellFormed_inputs hs) k
  change _ = (latest (store.inputRows plan) k).filter _ at hout
  cases hin : latest (store.inputRows plan) k with
  | none => exact .inl ⟨by rw [hout, hin]; rfl, by simp⟩
  | some t =>
    have hkey : t.key = k := (IsLatest.of_latest hin).key_eq
    rw [hin, filter_some] at hout
    by_cases hdel : t.deleted = true ∧ store.dropsDelete plan k = true
    · refine .inr ⟨t, rfl, hdel.1, hdel.2, ?_⟩
      rw [hout]
      rw [dropsDelete, ← hkey] at hdel
      simp [keeps, hdel]
    · refine .inl ⟨?_, ?_⟩
      · rw [hout]
        rw [dropsDelete, ← hkey] at hdel
        simp only [keeps]
        by_contra hno
        exact hdel (by simpa [and_comm] using hno)
      · intro t' ht' hdel'
        cases ht'
        simpa [hdel'] using hdel

def mergedRows (store : TableStore) (plan : CompactionPlan) (outputs : List Segment) :
    List StoredRow :=
  (store.otherRows plan ++ outputs.flatMap (rowsUnder store.schema)) ++
    store.memtable.values.map durable

theorem shown_mergedRows_iff (hc : Consistent (store.manifest.rowsUnder store.schema))
    (hplan : store.plan world = some plan) (hm : store.Outputs plan outputs id) :
    Versioned.shown (store.mergedRows plan outputs) k = store.shown k ↔ ¬ store.Uncovers plan k := by
  have hstored : latest (store.manifest.rowsUnder store.schema) k =
      latest (store.otherRows plan ++ store.inputRows plan) k :=
    latest_congr hc fun r _ => mem_rowsUnder_iff plan
  rw [shown, Versioned.shown, Versioned.shown, mergedRows, rows, latest_append,
    latest_append (store.manifest.rowsUnder store.schema), hstored, latest_memtable]
  rcases Outputs.latest_eq_or hs hm k with ⟨hkeep, hnot⟩ | ⟨t, ht, hdel, hdrop, hnone⟩
  · rw [latest_append, latest_append, hkeep]
    apply iff_of_true rfl
    rintro ⟨t, ht, hdel, hdrop, -⟩
    rw [hnot t ht hdel] at hdrop
    cases hdrop
  · have htl := IsLatest.of_latest ht
    rw [shown_drop_iff ht hdel hnone fun r hr => ?_, latest_eq_none, not_iff_not]
    · simp only [Uncovers, ht, some.injEq, exists_eq_left', hdel, hdrop, true_and, map_eq_some_iff]
      refine and_congr_right fun _ => ⟨?_, ?_⟩
      · rintro ⟨_, ⟨row, hrow, rfl⟩, hlive, hlt⟩
        exact ⟨row, hrow, hlive, hlt⟩
      · rintro ⟨row, hrow, hlive, hlt⟩
        exact ⟨_, ⟨row, hrow, rfl⟩, hlive, hlt⟩
    · have hrl := IsLatest.of_latest hr
      refine version_lt_of_dropsDelete hs hplan ?_ htl.mem hrl.mem (hrl.key_eq.trans htl.key_eq.symm)
      rwa [show t.key = k from htl.key_eq]

theorem exists_mergeOutputs (world : World) (plan : CompactionPlan) (id : ℕ)
    (hv : store.options.Valid) :
    ∃ outputs, store.mergeOutputs world plan id = .ok outputs ∧
      store.Outputs plan outputs id := by
  have hread : ∀ input ∈ store.inputs plan,
      input.read store.schema = .ok (input.rowsUnder store.schema) := fun input hi =>
    hs.readable input (mem_iff_selected_or_unselected.mpr (.inl hi))
  obtain ⟨outputs, hout⟩ : ∃ outputs, store.mergeOutputs world plan id = .ok outputs :=
    exists_runMerge hv hread
  exact ⟨outputs, hout, merged_of_runMerge (wellFormed_inputs hs) hout⟩

omit hs

/-- A merge on its own thread, published as soon as it is done. -/
def mergeInBackground (world : World) : Traced TableStore StoreError Bool := do
  spawnBackgroundMerge world
  pollBackgroundMerge world

/-- A merge of a plan, in line or in the background, keeps what every key shows exactly if it does
not drop a delete that hides an older row of the memtable. -/
theorem merge_keeps_shown_iff (hv : store.options.Valid) (hs : store.manifest.Sound store.schema)
    (hc : Consistent store.rows) (hbg : store.background = none)
    (hplan : store.plan world = some plan)
    (hfits : plan.debtBytes + store.options.compactionDiskReserveBytes ≤
      world.available store.asked) (hdone : world.merge (store.asked + 1) = .finished) :
    ((∀ k, (compact world store).final.shown k = store.shown k) ↔ ∀ k, ¬ store.Uncovers plan k) ∧
      ((∀ k, (mergeInBackground world store).final.shown k = store.shown k) ↔
        ∀ k, ¬ store.Uncovers plan k) := by
  have hstored : Consistent (store.manifest.rowsUnder store.schema) :=
    hc.mono fun r hr => mem_append_left _ hr
  obtain ⟨outputs, hout, hm⟩ := exists_mergeOutputs hs world plan store.manifest.nextSegmentId hv
  constructor
  · have hfinal : (compact world store).final =
        store.askedAgain.withManifest (store.manifest.compacted plan.indices outputs) := by
      simp [compact, mergeInLine, mergeFitsOnDisk, run_bind, hbg, hplan, hfits, hout]
    apply forall_congr'
    intro k
    rw [hfinal, ← shown_mergedRows_iff hs hstored hplan hm]
    simp only [shown, rows, mergedRows, otherRows, withManifest, askedAgain,
      Manifest.rowsUnder, Manifest.compacted, flatMap_append]
  · have hfinal : (mergeInBackground world store).final =
        (store.askedAgain.askedAgain.withManifest ((store.manifest.reserve
          reservedSegmentIds).merged ((store.inputs plan).map Segment.id) outputs)).withoutMerge := by
      simp [mergeInBackground, spawnBackgroundMerge, pollBackgroundMerge, publishMerge,
        mergeFitsOnDisk, run_bind, hplan, hfits, hdone, hout, withManifest, withMerge, withoutMerge,
        askedAgain, backgroundMerge]
    apply forall_congr'
    intro k
    rw [hfinal, ← shown_mergedRows_iff hs hstored hplan hm]
    simp only [shown, rows, mergedRows, otherRows, withManifest, withoutMerge, askedAgain,
      Manifest.rowsUnder, Manifest.merged, Manifest.reserve, flatMap_append, inputs,
      unselected_eq_filter hs.ids_nodup]

def sampleSchema : TableSchema := Wal.nameSchema

/-- Plenty of space, and merges that are done when looked at. -/
def sampleWorld : World where
  xxh3 _ := 0
  fileSize _ := 1
  available _ := 2 ^ 40
  merge _ := .finished

def sampleKey : PrimaryKey := rowIdKey 7

/-- A flushed row and its flushed delete, and then the row again. -/
def writtenAgain (version : UInt64) : TableStore :=
  let run : Traced TableStore StoreError Unit := do
    let _ ← ingest sampleWorld [⟨sampleKey, [.utf8 "a"], 2, false⟩]
    let _ ← flush sampleWorld
    let _ ← ingest sampleWorld [⟨sampleKey, [.null], 5, true⟩]
    let _ ← flush sampleWorld
    let _ ← ingest sampleWorld [⟨sampleKey, [.utf8 "b"], version, false⟩]
  (run (fresh sampleWorld sampleSchema .default)).final

def sampleMerge : CompactionPlan := ⟨[0, 1], 2, none, false⟩

theorem merge_keeps_shown_iff_newRow :
    (writtenAgain 6).shown sampleKey = some ⟨sampleKey, [.utf8 "b"], 6, false⟩ ∧
      (∀ k, (compact sampleWorld (writtenAgain 6)).final.shown k = (writtenAgain 6).shown k) ∧
      ∀ k, (mergeInBackground sampleWorld (writtenAgain 6)).final.shown k =
        (writtenAgain 6).shown k := by
  have hnewer : ∀ row ∈ (writtenAgain 6).memtable.values,
      ∀ stored ∈ (writtenAgain 6).inputRows sampleMerge, stored.version ≤ row.version := by
    decide +kernel
  have hkept : ∀ k, ¬ (writtenAgain 6).Uncovers sampleMerge k := by
    rintro k ⟨tombstone, hlatest, -, -, -, row, hrow, -, hlt⟩
    rw [← Memtable.latest_values] at hrow
    exact hlt.not_ge (hnewer row (IsLatest.of_latest hrow).mem tombstone
      (IsLatest.of_latest hlatest).mem)
  have hiff := @merge_keeps_shown_iff sampleWorld (writtenAgain 6) sampleMerge
    (StoreOptions.valid_of_validate (by decide +kernel)) (by decide +kernel) (by decide +kernel) rfl
    (by decide +kernel) (by decide +kernel) rfl
  exact ⟨by decide +kernel, hiff.1.mpr hkept, hiff.2.mpr hkept⟩

/-- The row again, with a version between those of the two segments. -/
def lateRow : TableStore := writtenAgain 3

/-- Both merges of the two segments drop the delete, and the late row shows again. -/
theorem merge_shows_deleted_row : Consistent lateRow.rows ∧
    lateRow.shown sampleKey = none ∧
    (compact sampleWorld lateRow).final.shown sampleKey =
      some ⟨sampleKey, [.utf8 "b"], 3, false⟩ ∧
    (mergeInBackground sampleWorld lateRow).final.shown sampleKey =
      some ⟨sampleKey, [.utf8 "b"], 3, false⟩ := by
  decide +kernel

end TableStore

end Pintail
