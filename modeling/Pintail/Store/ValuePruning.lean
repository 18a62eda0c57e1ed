import Pintail.Store.Statistics

/-! # Skipping segments by value

A scan with bounds on values may skip a segment whose statistics no row within the bounds agrees
with, provided it shadows nothing that is still read: every other segment over its keys is newer
throughout, and so is every row of the memtable there. What the bounds let through is then the same.
-/

namespace Pintail

open Versioned List Memtable Segment IsLatest
open Bool hiding false_or

/-- Leaving out sources whose rows of a key are older than all that is kept changes what the key
shows at most when nothing of it is kept. -/
theorem Versioned.latest_flatMap_filter {α ρ κ ν : Type} [LinearOrder ν] [Versioned ρ κ ν]
    [DecidableEq κ] {k : κ} {p : α → Bool} {f : α → List ρ} {sources : List α} {tail : List ρ}
    (h : ∀ a ∈ sources, p a = false → ∀ r ∈ (sources.filter p).flatMap f ++ tail, key r = k →
      ∀ o ∈ f a, key o = k → version o < version r) :
    latest ((sources.filter p).flatMap f ++ tail) k = latest (sources.flatMap f ++ tail) k ∨
      latest ((sources.filter p).flatMap f ++ tail) k = none ∧
        ∃ a ∈ sources, p a = false ∧ ∃ o ∈ f a, latest (sources.flatMap f ++ tail) k = some o := by
  induction sources with
  | nil => exact .inl rfl
  | cons a sources ih =>
    rw [flatMap_cons, append_assoc, latest_append (f a)]
    by_cases ha : p a = true
    · simp only [filter_cons_of_pos ha, flatMap_cons, append_assoc] at h ⊢
      rw [latest_append (f a)]
      obtain heq | ⟨hnone, b, hb, hp, o, ho, hall⟩ := ih fun b hb hp r hr =>
        h b (mem_cons_of_mem _ hb) hp r (mem_append_right _ hr)
      · exact .inl (by rw [heq])
      · rw [hnone, hall]
        cases hr : latest (f a) k with
        | none => exact .inr ⟨rfl, b, mem_cons_of_mem _ hb, hp, o, ho, rfl⟩
        | some r =>
          have hlr := of_latest hr
          have hlt := h b (mem_cons_of_mem _ hb) hp r (mem_append_left _ hlr.mem)
            hlr.key_eq o ho (of_latest hall).key_eq
          exact .inl (congrArg some (if_neg hlt.not_ge)).symm
    · simp only [filter_cons_of_neg ha] at h ⊢
      have ih' := ih fun b hb => h b (mem_cons_of_mem _ hb)
      cases hd : latest (f a) k with
      | none =>
        apply ih'.imp_right
        rintro ⟨hnone, b, hb, hrest⟩
        exact ⟨hnone, b, mem_cons_of_mem _ hb, hrest⟩
      | some d =>
        have hld := of_latest hd
        have hown : ∃ b ∈ a :: sources, p b = false ∧ ∃ o ∈ f b, some d = some o :=
          ⟨a, mem_cons_self, by simpa using ha, d, hld.mem, rfl⟩
        obtain heq | ⟨hnone, b, hb, hp, o, ho, hall⟩ := ih'
        · rw [← heq]
          cases hr : latest ((sources.filter p).flatMap f ++ tail) k with
          | none => exact .inr ⟨rfl, hown⟩
          | some r =>
            have hlr := of_latest hr
            have hlt := h a mem_cons_self (by simpa using ha) r hlr.mem hlr.key_eq d hld.mem
              hld.key_eq
            exact .inl (congrArg some (if_pos hlt.le)).symm
        · rw [hall]
          refine .inr ⟨hnone, ?_⟩
          simp only [pick, newer]
          split_ifs
          · exact ⟨b, mem_cons_of_mem _ hb, hp, o, ho, rfl⟩
          · exact hown

def applyLatest (rows : Std.ExtTreeMap PrimaryKey StoredRow) (row : StoredRow) :
    Std.ExtTreeMap PrimaryKey StoredRow :=
  match rows[row.key]? with
  | some current => if row.version ≥ current.version then rows.insert row.key row else rows
  | none => rows.insert row.key row

/-- The newest row of each key, in key order, without the deleted ones. -/
def liveLatest (rows : List StoredRow) : List StoredRow :=
  ((rows.foldl applyLatest ∅).toList.map Prod.snd).filter fun row => !row.deleted

theorem getElem?_applyLatest (rows : Std.ExtTreeMap PrimaryKey StoredRow) (row : StoredRow)
    (k : PrimaryKey) :
    (applyLatest rows row)[k]? = pick rows[k]? (if row.key = k then some row else none) := by
  unfold applyLatest
  by_cases hk : row.key = k
  · subst hk
    cases hr : rows[row.key]? with
    | none => simp
    | some current =>
      by_cases hv : current.version ≤ row.version
      · simp [hv, pick, newer]
      · simp [hv, hr, pick, newer]
  · rw [if_neg hk, pick_none]
    split
    · split_ifs
      · simp [Std.ExtTreeMap.getElem?_insert, hk]
      · rfl
    · simp [Std.ExtTreeMap.getElem?_insert, hk]

theorem getElem?_foldl_applyLatest (table : Std.ExtTreeMap PrimaryKey StoredRow)
    (rows : List StoredRow) (k : PrimaryKey) :
    (rows.foldl applyLatest table)[k]? = pick table[k]? (latest rows k) := by
  induction rows generalizing table with
  | nil => simp
  | cons row rows ih =>
    rw [foldl_cons, ih, getElem?_applyLatest, pick_assoc]
    rfl

theorem foldl_applyLatest (rows : List StoredRow) :
    rows.foldl applyLatest ∅ = (empty.applyAll rows).rows := by
  apply Std.ExtTreeMap.ext_getElem?
  intro k
  rw [getElem?_foldl_applyLatest, getElem?_applyAll]
  rfl

theorem liveLatest_eq (rows : List StoredRow) :
    liveLatest rows = (empty.applyAll rows).values.filter fun row => !row.deleted := by
  rw [liveLatest, foldl_applyLatest, values]

theorem mem_liveLatest {rows : List StoredRow} {row : StoredRow} :
    row ∈ liveLatest rows ↔ shown rows row.key = some row := by
  rw [liveLatest_eq, mem_filter, mem_values, getElem?_applyAll, shown_eq_some]
  simp [empty]

theorem pairwise_liveLatest (rows : List StoredRow) :
    (liveLatest rows).Pairwise fun row row' => row.key < row'.key := by
  rw [liveLatest_eq]
  exact (pairwise_values _).filter _

theorem filter_liveLatest_congr {rows rows' : List StoredRow} {p : StoredRow → Bool}
    (h : ∀ k, (shown rows k).filter p = (shown rows' k).filter p) :
    (liveLatest rows).filter p = (liveLatest rows').filter p := by
  refine ((pairwise_liveLatest rows).filter p).eq_of_mem_iff
    ((pairwise_liveLatest rows').filter p) fun row => ?_
  have hrow := congrArg (· = some row) (h row.key)
  simp only [Option.filter_eq_some_iff] at hrow
  rw [mem_filter, mem_filter, mem_liveLatest, mem_liveLatest, hrow]

/-- A segment with the statistics of its rows, under the schema it was written with. -/
structure MeasuredSegment (measures : Measures) where
  segment : Segment
  written : TableSchema
  smas : Option SegmentSmas
  wellFormed : segment.WellFormed
  columns_eq : segment.columns = written.columns.map Column.wal
  length_lt : segment.rows.length < 2 ^ 64
  /-- The writer's promise behind the flag: one live row a key. -/
  unique : segment.uniqueKeys = true →
    segment.rows.Pairwise (fun row row' => row.key < row'.key) ∧ ∀ row ∈ segment.rows, !row.deleted
  smas_eq : ∀ recorded ∈ smas, ∃ sketches,
    recorded = computeSegmentSmas measures written segment.rows sketches

/-- A pinned table: its segments, and a memtable no row of which is older than its mark. -/
structure ScanSnapshot (measures : Measures) where
  schema : TableSchema
  segments : List (MeasuredSegment measures)
  memtable : Memtable
  oldest_le : ∀ row ∈ memtable.values, ∃ oldest ∈ memtable.oldestVersion, oldest ≤ row.version

theorem Memtable.oldest_le_applyAll (applied : List StoredRow) :
    ∀ row ∈ (empty.applyAll applied).values,
      ∃ oldest ∈ (empty.applyAll applied).oldestVersion, oldest ≤ row.version := by
  induction applied using reverseRecOn with
  | nil =>
    intro row hrow
    simp [mem_values, applyAll, empty] at hrow
  | append_singleton applied new ih =>
    have happend : empty.applyAll (applied ++ [new]) =
        (empty.applyAll applied).apply new := by simp [applyAll]
    rw [happend]
    set table := empty.applyAll applied
    have hput (n : ℕ) : ∀ row ∈ (table.put new n).values,
        ∃ oldest ∈ (table.put new n).oldestVersion, oldest ≤ row.version := by
      intro row hrow
      rw [mem_values, getElem?_put] at hrow
      refine ⟨_, rfl, ?_⟩
      split_ifs at hrow
      · cases hrow
        cases table.oldestVersion <;> simp
      · obtain ⟨oldest, holdest, hle⟩ := ih row (mem_values.mpr hrow)
        rw [Option.mem_def.mp holdest]
        exact (min_le_left _ _).trans hle
    unfold apply insert
    split
    · split_ifs
      · exact ih
      · exact hput _
    · exact hput _

def ScanSnapshot.pin {measures : Measures} (schema : TableSchema)
    (segments : List (MeasuredSegment measures)) (applied : List StoredRow) :
    ScanSnapshot measures :=
  ⟨schema, segments, empty.applyAll applied, oldest_le_applyAll applied⟩

namespace ScanSnapshot

variable {measures : Measures} (snapshot : ScanSnapshot measures)

def scanOf (segments : List (MeasuredSegment measures)) : Except StoreError (List StoredRow) := do
  let read ← segments.mapM fun measured => measured.segment.read snapshot.schema
  pure (liveLatest (read.flatten ++ snapshot.memtable.values))

/-- The single segment that can be read without comparing versions. -/
def direct? : Option (MeasuredSegment measures) :=
  match snapshot.segments with
  | [measured] =>
    if snapshot.memtable.values = [] ∧ measured.segment.uniqueKeys then some measured else none
  | _ => none

def scan : Except StoreError (List StoredRow) :=
  match snapshot.direct? with
  | some measured => do
    let rows ← measured.segment.read snapshot.schema
    pure (rows.filter fun row => !row.deleted)
  | none => snapshot.scanOf snapshot.segments

def memtableShadowed (segment : Segment) : Bool :=
  snapshot.memtable.oldestVersion.any (· ≤ segment.maxVersion) &&
    snapshot.memtable.values.any fun row =>
      segment.minKey ≤ row.key && row.key ≤ segment.maxKey && row.version ≤ segment.maxVersion

def valuePrunableSegments : List Bool :=
  snapshot.segments.zipIdx.map fun (measured, index) =>
    let segment := measured.segment
    (snapshot.segments.zipIdx.all fun (measured', index') =>
      let other := measured'.segment
      index' == index || other.maxKey < segment.minKey || other.minKey > segment.maxKey ||
        other.minVersion > segment.maxVersion) && !snapshot.memtableShadowed segment

def kept (bounds : List ColumnBounds) : List (MeasuredSegment measures) :=
  ((snapshot.segments.zip snapshot.valuePrunableSegments).filter fun (measured, prunable) =>
    !(prunable && smaDisjoint measured.smas bounds)).map Prod.fst

def scanPruned (bounds : List ColumnBounds) : Except StoreError (List StoredRow) :=
  snapshot.scanOf (snapshot.kept bounds)

/-- The value a row has in a column, `NULL` in one the table lacks. -/
def valueOf (row : StoredRow) (columnId : UInt32) : Value :=
  (((snapshot.schema.columns.zip row.values).find? fun (column, _) => column.id == columnId).map
    Prod.snd).getD .null

/-- Whether a row lies within a bound: never with `NULL`, and as `other` decides with a value that
is not of the family of the bound. -/
def within (other : ColumnBounds → Value → Bool) (row : StoredRow) (bound : ColumnBounds) : Bool :=
  let value := snapshot.valueOf row bound.columnId
  if value = .null then false
  else
    match bound.domain.reading measures value with
    | some n => bound.lower.all (· ≤ n) && bound.upper.all (n ≤ ·)
    | none => other bound value

def withinAll (other : ColumnBounds → Value → Bool) (bounds : List ColumnBounds)
    (row : StoredRow) : Bool :=
  bounds.all (snapshot.within other row)

def rowsOf (measured : MeasuredSegment measures) : List StoredRow :=
  measured.segment.rowsUnder snapshot.schema

/-- Every row a segment has for a key is older than any other of the key. -/
def ShadowsNothing (measured : MeasuredSegment measures)
    (others : List (MeasuredSegment measures)) : Prop :=
  ∀ row ∈ others.flatMap snapshot.rowsOf ++ snapshot.memtable.values,
    ∀ own ∈ snapshot.rowsOf measured, own.key = row.key → own.version < row.version

variable {snapshot}

theorem exists_row_of_mem_rowsOf {measured : MeasuredSegment measures} {row : StoredRow}
    (h : row ∈ snapshot.rowsOf measured) : ∃ stored ∈ measured.segment.rows,
      row = stored.project measured.segment.columns snapshot.schema := by
  obtain ⟨stored, hs, rfl⟩ := mem_map.mp h
  exact ⟨stored, hs, rfl⟩

theorem minKey_le_of_mem_rowsOf {measured : MeasuredSegment measures} {row : StoredRow}
    (h : row ∈ snapshot.rowsOf measured) : measured.segment.minKey ≤ row.key ∧
      row.key ≤ measured.segment.maxKey ∧ measured.segment.minVersion ≤ row.version ∧
      row.version ≤ measured.segment.maxVersion := by
  obtain ⟨stored, hs, rfl⟩ := exists_row_of_mem_rowsOf h
  have hmin := minKey_le measured.wellFormed.sorted hs
  have hmax := le_maxKey measured.wellFormed.sorted hs
  have hoverlap := @minVersion_le measured.segment stored hs
  have hnewest := @le_maxVersion measured.segment stored hs
  exact ⟨hmin, hmax, hoverlap, hnewest⟩

theorem shadowsNothing_of_prunable {i : ℕ} {measured : MeasuredSegment measures}
    {others : List (MeasuredSegment measures)} (hindex : snapshot.segments[i]? = some measured)
    (hprunable : snapshot.valuePrunableSegments[i]? = some true)
    (hothers : ∀ other ∈ others, ∃ j, snapshot.segments[j]? = some other ∧ j ≠ i) :
    snapshot.ShadowsNothing measured others := by
  simp only [valuePrunableSegments, getElem?_map, getElem?_zipIdx, hindex,
    Option.map_some, Option.some.injEq, and_eq_true, all_eq_true, Nat.zero_add] at hprunable
  obtain ⟨hnewer, hmemtable⟩ := hprunable
  intro row hrow own hown hkey
  obtain ⟨hmin, hmax, -, hle⟩ := minKey_le_of_mem_rowsOf hown
  rcases mem_append.mp hrow with hrow | hrow
  · obtain ⟨other, hother, hrow⟩ := mem_flatMap.mp hrow
    obtain ⟨j, hj, hne⟩ := hothers other hother
    obtain ⟨hmin', hmax', hge, -⟩ := minKey_le_of_mem_rowsOf hrow
    have happly := hnewer (other, j) (mem_zipIdx_iff_getElem?.mpr hj)
    simp only [or_eq_true, beq_iff_eq, hne, decide_eq_true_eq, false_or] at happly
    rcases happly with (hbelow | habove) | hnewer
    · exact absurd (hmax'.trans_lt hbelow) (by rw [← hkey]; exact hmin.not_gt)
    · exact absurd (habove.trans_le hmin') (by rw [← hkey]; exact hmax.not_gt)
    · exact hle.trans_lt (hnewer.trans_le hge)
  · by_contra hnot
    have hold : row.version ≤ measured.segment.maxVersion := (not_lt.mp hnot).trans hle
    obtain ⟨oldest, holdest, hbound⟩ := snapshot.oldest_le row hrow
    have hshadowed : snapshot.memtableShadowed measured.segment = true := by
      rw [memtableShadowed, Option.mem_def.mp holdest, Option.any_some, and_eq_true,
        decide_eq_true_eq, any_eq_true]
      refine ⟨hbound.trans hold, row, hrow, ?_⟩
      rw [hkey] at hmin hmax
      simp [hmin, hmax, hold]
    simp [hshadowed] at hmemtable

variable {other : ColumnBounds → Value → Bool} {bounds : List ColumnBounds} {bound : ColumnBounds}

theorem find?_zip_map {α β : Type} (p : α → Bool) (f : α → β) (items : List α) :
    (items.zip (items.map f)).find? (fun (a, _) => p a) = (items.find? p).map fun a => (a, f a) := by
  induction items with
  | nil => rfl
  | cons a items ih =>
    by_cases ha : p a = true
    · simp [ha]
    · simp [ha, ih]

theorem valueOf_eq (columns : List WalColumn) (stored : StoredRow) (id : UInt32) :
    snapshot.valueOf (stored.project columns snapshot.schema) id =
      ((snapshot.schema.columns.find? fun column => column.id == id).map
        (projectValue columns stored.values)).getD .null := by
  have hfind := find?_zip_map (fun column : Column => column.id == id)
    (projectValue columns stored.values) snapshot.schema.columns
  rw [valueOf, StoredRow.project, hfind, Option.map_map]
  rfl

theorem valueOf_project {measured : MeasuredSegment measures} {stored : StoredRow}
    (hstored : stored ∈ measured.segment.rows) {column : Column} {index : ℕ}
    (hcolumn : measured.written.columns[index]? = some column) :
    snapshot.valueOf (stored.project measured.segment.columns snapshot.schema) column.id = .null ∨
      snapshot.valueOf (stored.project measured.segment.columns snapshot.schema) column.id =
        stored.values.getD index .null := by
  rw [valueOf_eq]
  cases hfind : snapshot.schema.columns.find? fun c => c.id == column.id with
  | none => exact .inl rfl
  | some current =>
    refine .inr ?_
    have hid : current.id = column.id := by simpa using find?_some hfind
    have hwidth : stored.values.length = measured.written.columns.length := by
      rw [measured.wellFormed.width stored hstored, measured.columns_eq, length_map]
    obtain ⟨hindex, hget⟩ := List.getElem?_eq_some_iff.mp hcolumn
    have hvalue : stored.values[index]? = some (stored.values.getD index .null) := by
      rw [getD_eq_getElem?_getD, getElem?_eq_getElem (hwidth ▸ hindex), Option.getD_some]
    have hmem : (column, stored.values.getD index .null) ∈
        measured.written.columns.zip stored.values := by
      refine mem_iff_getElem?.mpr ⟨index, ?_⟩
      rw [getElem?_zip_eq_some]
      exact ⟨hcolumn, hvalue⟩
    simp only [Option.map_some, Option.getD_some, projectValue, measured.columns_eq, hid]
    rw [find?_zip_wal measured.written.ids_nodup hmem]

theorem within_null {row : StoredRow} (h : snapshot.valueOf row bound.columnId = .null) :
    snapshot.within other row bound = false := by
  rw [within, h]
  rfl

theorem within_missed {row : StoredRow} {range : Int × Int} {n : Int}
    (hread : bound.domain.reading measures (snapshot.valueOf row bound.columnId) = some n)
    (hlo : range.1 ≤ n) (hhi : n ≤ range.2) (hmiss : bound.misses range = true) :
    snapshot.within other row bound = false := by
  have hout : (bound.lower.all (· ≤ n) && bound.upper.all (n ≤ ·)) = false := by
    rcases or_eq_true_iff.mp hmiss with hlower | hupper
    · obtain ⟨lower, hl, hlt⟩ := (Option.any_eq_true ..).mp hlower
      have hlt' : n < lower := hhi.trans_lt (by simpa using hlt)
      simp [hl, hlt'.not_ge]
    · obtain ⟨upper, hu, hlt⟩ := (Option.any_eq_true ..).mp hupper
      have hlt' : upper < n := (show upper < range.1 by simpa using hlt).trans_le hlo
      simp [hu, hlt'.not_ge]
  simp only [within]
  split_ifs
  · rfl
  · rw [hread]
    exact hout

theorem eq_zero_of_ofNat {n : ℕ} (h : UInt64.ofNat n = 0) (hn : n < 2 ^ 64) : n = 0 := by
  have := congrArg UInt64.toNat h
  rw [UInt64.toNat_ofNat_of_lt' hn] at this
  simpa using this

theorem not_withinAll_of_disjoint {measured : MeasuredSegment measures}
    (h : smaDisjoint measured.smas bounds = true) {row : StoredRow}
    (hrow : row ∈ snapshot.rowsOf measured) :
    row.deleted = false ∧ snapshot.withinAll other bounds row = false := by
  obtain ⟨stored, hstored, rfl⟩ := exists_row_of_mem_rowsOf hrow
  cases hsmas : measured.smas with
  | none => simp [hsmas, smaDisjoint] at h
  | some recorded =>
    obtain ⟨sketches, rfl⟩ := measured.smas_eq recorded hsmas
    simp only [smaDisjoint, hsmas, and_eq_true, beq_iff_eq, any_eq_true] at h
    obtain ⟨htombstones, bound, hbound, hcolumn⟩ := h
    have hlive : stored.deleted = false := by
      have hcount := eq_zero_of_ofNat htombstones
        (countP_le_length.trans_lt measured.length_lt)
      simpa using countP_eq_zero.mp hcount stored hstored
    refine ⟨hlive, ?_⟩
    rw [withinAll, all_eq_false]
    refine ⟨bound, hbound, ?_⟩
    rw [not_eq_true]
    split at hcolumn
    · cases hcolumn
    · rename_i sma hfind
      have hid : sma.columnId = bound.columnId := by simpa using find?_some hfind
      obtain ⟨⟨column, index⟩, hmem, rfl⟩ := mem_map.mp (mem_of_find?_eq_some hfind)
      have hget := mem_zipIdx_iff_getElem?.mp hmem
      replace hid : column.id = bound.columnId := hid
      have hvalues := @Tally.holds_foldl measures column.dataType
        (liveValues measured.segment.rows index)
      have hvalue : stored.values.getD index .null ∈ liveValues measured.segment.rows index :=
        mem_map.mpr ⟨stored, mem_filter.mpr ⟨hstored, by simp [hlive]⟩, rfl⟩
      have hproject := @valueOf_project _ snapshot measured stored hstored column index hget
      rw [hid] at hproject
      rcases hproject with hproject | hproject
      · exact within_null hproject
      · by_cases hnull : stored.values.getD index .null = .null
        · exact within_null (hproject.trans hnull)
        · rcases or_eq_true_iff.mp hcolumn with hnone | hextremes
          · have hzero := (and_eq_true_iff.mp hnone).1
            have hcount := eq_zero_of_ofNat (beq_iff_eq.mp hzero) (by
              rw [hvalues.count]
              exact (countP_le_length.trans (by simp [liveValues, length_filter_le])).trans_lt
                measured.length_lt)
            rw [hvalues.count, countP_eq_zero] at hcount
            exact absurd (hcount _ hvalue) (by simpa using hnull)
          · obtain ⟨range, hrange, hmiss⟩ := (Option.any_eq_true ..).mp hextremes
            obtain ⟨extremes, hextremes, hrange⟩ := Option.bind_eq_some_iff.mp hrange
            obtain ⟨n, hread, hlo, hhi⟩ := hvalues.range hextremes hrange hvalue hnull
            exact within_missed (by rwa [hproject]) hlo hhi hmiss

variable (snapshot)

def flagged : List (MeasuredSegment measures × Bool) :=
  snapshot.segments.zip snapshot.valuePrunableSegments

theorem map_fst_flagged : snapshot.flagged.map Prod.fst = snapshot.segments :=
  map_fst_zip (by simp [valuePrunableSegments])

theorem flatMap_rowsOf_segments : snapshot.segments.flatMap snapshot.rowsOf =
    snapshot.flagged.flatMap fun pair => snapshot.rowsOf pair.1 := by
  conv_lhs => rw [← map_fst_flagged, flatMap_map]

variable {snapshot}

def skipped (bounds : List ColumnBounds) (pair : MeasuredSegment measures × Bool) : Bool :=
  pair.2 && smaDisjoint pair.1.smas bounds

theorem kept_eq : snapshot.kept bounds =
    (snapshot.flagged.filter fun pair => !skipped bounds pair).map Prod.fst := rfl

theorem shadowsNothing_kept {pair : MeasuredSegment measures × Bool}
    (hpair : pair ∈ snapshot.flagged) (hskipped : skipped bounds pair = true) :
    snapshot.ShadowsNothing pair.1 (snapshot.kept bounds) := by
  obtain ⟨i, hi⟩ := mem_iff_getElem?.mp hpair
  obtain ⟨hindex, hprunable⟩ := getElem?_zip_eq_some.mp hi
  rw [(and_eq_true_iff.mp hskipped).1] at hprunable
  apply shadowsNothing_of_prunable hindex hprunable
  intro other hother
  rw [kept_eq] at hother
  obtain ⟨pair', hpair', rfl⟩ := mem_map.mp hother
  obtain ⟨hmem, hkept⟩ := mem_filter.mp hpair'
  obtain ⟨j, hj⟩ := mem_iff_getElem?.mp hmem
  refine ⟨j, (getElem?_zip_eq_some.mp hj).1, ?_⟩
  rintro rfl
  obtain rfl := Option.some.inj (hi.symm.trans hj)
  simp [hskipped] at hkept

theorem filter_shown_kept (k : PrimaryKey) :
    (shown ((snapshot.kept bounds).flatMap snapshot.rowsOf ++ snapshot.memtable.values) k).filter
        (snapshot.withinAll other bounds) =
      (shown (snapshot.segments.flatMap snapshot.rowsOf ++ snapshot.memtable.values) k).filter
        (snapshot.withinAll other bounds) := by
  have holder (pair : MeasuredSegment measures × Bool) (hpair : pair ∈ snapshot.flagged)
      (hskip : (!skipped bounds pair) = false) (row : StoredRow)
      (hrow : row ∈ (snapshot.flagged.filter fun pair => !skipped bounds pair).flatMap
        (fun pair => snapshot.rowsOf pair.1) ++ snapshot.memtable.values)
      (hk : key row = k) (o : StoredRow) (ho : o ∈ snapshot.rowsOf pair.1)
      (hok : key o = k) : version o < version row := by
    refine shadowsNothing_kept hpair (by simpa using hskip) row ?_ o ho
      (Eq.trans hok hk.symm)
    rwa [kept_eq, flatMap_map]
  rw [kept_eq, flatMap_map, flatMap_rowsOf_segments, shown, shown]
  obtain heq | ⟨hnone, pair, -, hskip, o, ho, hall⟩ := latest_flatMap_filter holder
  · rw [heq]
  · simp only [skipped, not_eq_false', and_eq_true] at hskip
    obtain ⟨hlive, hout⟩ := @not_withinAll_of_disjoint _ snapshot other bounds pair.1 hskip.2 o ho
    simp [hnone, hall, Option.filter, hlive, hout]

variable {rows : List StoredRow}

theorem liveLatest_of_pairwise (h : rows.Pairwise fun row row' => row.key < row'.key) :
    liveLatest rows = rows.filter fun row => !row.deleted := by
  have hnodup : (rows.map StoredRow.key).Nodup := pairwise_map.mpr (h.imp ne_of_lt)
  have hunique (row row' : StoredRow) (hr : row ∈ rows) (hr' : row' ∈ rows)
      (hk : row.key = row'.key) : row = row' := inj_on_of_nodup_map hnodup hr hr' hk
  apply (pairwise_liveLatest rows).eq_of_mem_iff (h.filter _)
  intro row
  rw [mem_liveLatest, shown_eq_some, mem_filter, not_eq_true']
  refine and_congr_left fun _ => ⟨fun hl => (of_latest hl).mem, fun hmem => ?_⟩
  refine eq_latest (fun a ha b hb hk _ => hunique a b ha hb hk) ⟨hmem, rfl, ?_⟩
  intro row' hr' hk
  rw [hunique row' row hr' hmem hk]

theorem scanOf_eq_ok {segments : List (MeasuredSegment measures)} :
    snapshot.scanOf segments = .ok rows ↔
      (∀ measured ∈ segments, measured.segment.read snapshot.schema = .ok (snapshot.rowsOf measured)) ∧
        liveLatest (segments.flatMap snapshot.rowsOf ++ snapshot.memtable.values) = rows := by
  have hmap : (∀ measured ∈ segments,
      measured.segment.read snapshot.schema = .ok (snapshot.rowsOf measured)) ↔
      segments.mapM (fun measured => measured.segment.read snapshot.schema) =
        .ok (segments.map snapshot.rowsOf) := by
    rw [Except.mapM_eq_ok, forall₂_map_right_iff, forall₂_same]
  rw [scanOf, Except.bind_eq_ok]
  constructor
  · rintro ⟨read, hread, hrows⟩
    have hlists : read = segments.map snapshot.rowsOf := by
      have hall : List.Forall₂ (· = ·) (segments.map snapshot.rowsOf) read :=
        forall₂_map_left_iff.mpr
          ((Except.mapM_eq_ok.mp hread).imp fun _ _ h => (read_eq_ok h).symm)
      rw [forall₂_eq_eq_eq] at hall
      exact hall.symm
    subst hlists
    exact ⟨hmap.mpr hread, by simpa [List.flatMap] using Except.pure_eq_ok.mp hrows⟩
  · rintro ⟨hread, rfl⟩
    exact ⟨_, hmap.mp hread, by simp [List.flatMap]⟩

theorem scan_eq : snapshot.scan = snapshot.scanOf snapshot.segments := by
  rw [scan]
  split
  · rename_i measured hdirect
    unfold direct? at hdirect
    split at hdirect
    · rename_i only hsegments
      split_ifs at hdirect with hcond
      obtain rfl := Option.some.inj hdirect
      obtain ⟨hempty, hunique⟩ := hcond
      rw [scanOf, hsegments, mapM_cons]
      cases hread : only.segment.read snapshot.schema with
      | error error => rfl
      | ok rows =>
        have hpairwise : rows.Pairwise fun row row' => row.key < row'.key := by
          rw [read_eq_ok hread, rowsUnder, pairwise_map]
          exact (only.unique hunique).1
        have hlive := liveLatest_of_pairwise hpairwise
        simp [hempty, hlive]
    · cases hdirect
  · rfl

/-- Skipping segments by value leaves what lies within the bounds unchanged. -/
theorem scanPruned_filter_eq (h : snapshot.scan = .ok rows) (bounds : List ColumnBounds)
    (other : ColumnBounds → Value → Bool) : ∃ kept, snapshot.scanPruned bounds = .ok kept ∧
      kept.filter (snapshot.withinAll other bounds) =
        rows.filter (snapshot.withinAll other bounds) := by
  rw [scan_eq, scanOf_eq_ok] at h
  obtain ⟨hread, rfl⟩ := h
  refine ⟨liveLatest ((snapshot.kept bounds).flatMap snapshot.rowsOf ++ snapshot.memtable.values),
    scanOf_eq_ok.mpr ⟨fun measured hmeasured => hread measured ?_, rfl⟩,
    filter_liveLatest_congr filter_shown_kept⟩
  obtain ⟨pair, hpair, rfl⟩ := mem_map.mp hmeasured
  exact (of_mem_zip (mem_filter.mp hpair).1).1

def sampleMeasures : Measures where
  parseDecimal _ _ := none
  parseExact _ _ := none
  addFloat a _ := a
  minFloat a _ := a
  maxFloat a _ := a
  isFinite _ := true

def numberSchema : TableSchema :=
  ⟨1, [⟨1, "number", .int64, true, none⟩], .primary, by decide, by decide⟩

def numberRow (key : UInt64) (value : Int64) (version : UInt64) : StoredRow :=
  ⟨TableStore.rowIdKey key, [.int64 value], version, false⟩

def numberSegment (id : ℕ) (row : StoredRow) : Segment where
  id := id
  schemaVersion := 1
  schemaFingerprint := 0
  columns := numberSchema.columns.map Column.wal
  rows := [row]
  blockRows := 1
  compression := .adaptiveLz4
  uniqueKeys := false
  nonempty := by simp

def measuredNumber (id : ℕ) (key : UInt64) (value : Int64) (version : UInt64) :
    MeasuredSegment sampleMeasures where
  segment := numberSegment id (numberRow key value version)
  written := numberSchema
  smas := some (computeSegmentSmas sampleMeasures numberSchema [numberRow key value version]
    fun _ => none)
  wellFormed := ⟨List.pairwise_singleton _ _, by simp [numberSegment, numberRow, StoredRow.durable,
    Value.durable], by simp [numberSegment, numberRow, numberSchema]⟩
  columns_eq := rfl
  length_lt := by simp [numberSegment]
  unique := by simp [numberSegment]
  smas_eq := by
    rintro recorded ⟨⟩
    exact ⟨fun _ => none, rfl⟩

def sampleSnapshot : ScanSnapshot sampleMeasures :=
  pin numberSchema [measuredNumber 1 7 5 1, measuredNumber 2 7 200 2] [numberRow 8 300 3]

def sampleBounds : List ColumnBounds := [⟨1, .int, some 100, none⟩]

theorem scanPruned_filter_eq_sample :
    (sampleSnapshot.kept sampleBounds).length = 1 ∧
    sampleSnapshot.scan = .ok [numberRow 7 200 2, numberRow 8 300 3] ∧
    ∃ kept, sampleSnapshot.scanPruned sampleBounds = .ok kept ∧
      kept.filter (sampleSnapshot.withinAll (fun _ _ => false) sampleBounds) =
        [numberRow 7 200 2, numberRow 8 300 3].filter
          (sampleSnapshot.withinAll (fun _ _ => false) sampleBounds) := by
  have hscan : sampleSnapshot.scan = .ok [numberRow 7 200 2, numberRow 8 300 3] := by
    decide +kernel
  exact ⟨by decide +kernel, hscan, scanPruned_filter_eq hscan sampleBounds _⟩

end ScanSnapshot

end Pintail
