import Std.Data.ExtTreeMap
import Pintail.Types.Row
import Pintail.Versioned.Merge

/-! # The memtable

Rows not yet in a segment are held in key order, the newest applied version of each key. Whatever
rows are applied in whatever order, the memtable holds for each key the newest of them.
-/

namespace Pintail

open Versioned Std.ExtTreeMap

instance : Versioned StoredRow PrimaryKey UInt64 where
  key := StoredRow.key
  version := StoredRow.version
  deleted := StoredRow.deleted

@[simp] theorem StoredRow.versioned_key (row : StoredRow) : Versioned.key row = row.key := rfl
@[simp] theorem StoredRow.versioned_version (row : StoredRow) :
    Versioned.version row = row.version := rfl
@[simp] theorem StoredRow.versioned_deleted (row : StoredRow) :
    Versioned.deleted row = row.deleted := rfl

instance instTransOrdPrimaryKey : Std.TransOrd PrimaryKey := inferInstance

instance : Std.LawfulEqOrd PrimaryKey where
  eq_of_compare := compare_eq_iff_eq.mp

structure Memtable where
  rows : Std.ExtTreeMap PrimaryKey StoredRow
  estimatedBytes : ℕ
  oldestVersion : Option UInt64
  newestVersion : Option UInt64
  key_eq : ∀ (key : PrimaryKey) (row : StoredRow), rows[key]? = some row → row.key = key
  version_le : ∀ (key : PrimaryKey) (row : StoredRow), rows[key]? = some row →
    ∃ newest ∈ newestVersion, row.version ≤ newest

namespace Memtable

def empty : Memtable where
  rows := ∅
  estimatedBytes := 0
  oldestVersion := none
  newestVersion := none
  key_eq := by simp
  version_le := by simp

def put (table : Memtable) (row : StoredRow) (previousBytes : ℕ) : Memtable where
  rows := table.rows.insert row.key row
  estimatedBytes := table.estimatedBytes - previousBytes + row.estimatedBytes
  oldestVersion := some (table.oldestVersion.elim row.version (min · row.version))
  newestVersion := some (table.newestVersion.elim row.version (max · row.version))
  key_eq := by
    intro key row' h
    rw [getElem?_insert] at h
    split at h
    · rename_i hk
      cases h
      exact compare_eq_iff_eq.mp hk
    · exact table.key_eq key row' h
  version_le := by
    intro key row' h
    refine ⟨_, rfl, ?_⟩
    rw [getElem?_insert] at h
    split at h
    · cases h
      cases table.newestVersion <;> simp
    · obtain ⟨newest, hn, hle⟩ := table.version_le key row' h
      rw [Option.mem_def.mp hn]
      exact hle.trans (le_max_left _ _)

/-- Apply a row unless a newer version of its key is held; answers whether it was applied. -/
def insert (table : Memtable) (row : StoredRow) : Memtable × Bool :=
  match table.rows[row.key]? with
  | some current =>
    if current.version > row.version then (table, false)
    else (table.put row current.estimatedBytes, true)
  | none => (table.put row 0, true)

def apply (table : Memtable) (row : StoredRow) : Memtable := (table.insert row).1

def applyAll (table : Memtable) (rows : List StoredRow) : Memtable := rows.foldl apply table

def values (table : Memtable) : List StoredRow := table.rows.toList.map Prod.snd

variable {table : Memtable} {row : StoredRow} {rows : List StoredRow} {k : PrimaryKey}

theorem getElem?_put (table : Memtable) (row : StoredRow) (n : ℕ) (k : PrimaryKey) :
    (table.put row n).rows[k]? = if row.key = k then some row else table.rows[k]? := by
  simp [put, getElem?_insert]

theorem getElem?_apply (table : Memtable) (row : StoredRow) (k : PrimaryKey) :
    (table.apply row).rows[k]? = pick table.rows[k]? (if row.key = k then some row else none) := by
  unfold apply insert
  by_cases hk : row.key = k
  · subst hk
    cases hr : table.rows[row.key]? with
    | none => simp [getElem?_put]
    | some current =>
      by_cases hv : current.version > row.version
      · simp [hv, hr, pick, newer]
      · simp [hv, getElem?_put, pick, newer]
  · rw [if_neg hk, pick_none]
    split
    · split_ifs
      · rfl
      · simp [getElem?_put, hk]
    · simp [getElem?_put, hk]

theorem getElem?_applyAll (table : Memtable) (rows : List StoredRow) (k : PrimaryKey) :
    (table.applyAll rows).rows[k]? = pick table.rows[k]? (latest rows k) := by
  induction rows generalizing table with
  | nil => simp [applyAll]
  | cons row rows ih =>
    rw [applyAll, List.foldl_cons, ← applyAll, ih, getElem?_apply, pick_assoc]
    rfl

theorem of_getElem?_applyAll (h : (table.applyAll rows).rows[k]? = some row) :
    table.rows[k]? = some row ∨ row ∈ rows := by
  rw [getElem?_applyAll] at h
  rcases pick_eq_some h with h | h
  · exact .inl h
  · exact .inr (IsLatest.of_latest h).mem

theorem newestVersion_apply (table : Memtable) (row : StoredRow) :
    (table.apply row).newestVersion =
      some (table.newestVersion.elim row.version (max · row.version)) := by
  unfold apply insert
  split
  · rename_i current hr
    split_ifs with hv
    · obtain ⟨newest, hn, hle⟩ := table.version_le _ _ hr
      rw [Option.mem_def.mp hn]
      exact congrArg some (max_eq_left (hv.le.trans hle)).symm
    · rfl
  · rfl

theorem mem_values : row ∈ table.values ↔ table.rows[row.key]? = some row := by
  rw [values, List.mem_map]
  constructor
  · rintro ⟨⟨key, row'⟩, hmem, rfl⟩
    have hr := mem_toList_iff_getElem?_eq_some.mp hmem
    rwa [table.key_eq key row' hr]
  · intro hr
    exact ⟨(row.key, row), mem_toList_iff_getElem?_eq_some.mpr hr, rfl⟩

theorem mem_of_mem_values_applyAll (h : row ∈ (table.applyAll rows).values) :
    row ∈ table.values ∨ row ∈ rows := by
  rw [mem_values] at h
  rcases of_getElem?_applyAll h with h | h
  · exact .inl (mem_values.mpr h)
  · exact .inr h

theorem pairwise_values (table : Memtable) :
    table.values.Pairwise fun row row' => row.key < row'.key := by
  have ho := ordered_keys_toList (t := table.rows)
  rw [values, List.pairwise_map]
  apply ho.imp_of_mem
  intro a b ha hb hlt
  rw [table.key_eq _ _ (mem_toList_iff_getElem?_eq_some.mp ha),
    table.key_eq _ _ (mem_toList_iff_getElem?_eq_some.mp hb)]
  exact compare_lt_iff_lt.mp hlt

theorem latest_values (table : Memtable) (k : PrimaryKey) :
    latest table.values k = table.rows[k]? := by
  cases hr : table.rows[k]? with
  | none =>
    apply latest_eq_none.mpr
    intro row hrow hk
    rw [mem_values] at hrow
    rw [← hk, StoredRow.versioned_key, hrow] at hr
    cases hr
  | some row =>
    have hk := table.key_eq k row hr
    have hmem : ∀ row' ∈ table.values, row'.key = k → row' = row := by
      intro row' hrow' hk'
      rw [mem_values, hk', hr] at hrow'
      exact (Option.some.inj hrow').symm
    obtain ⟨row', hl⟩ := exists_latest (mem_values.mpr (hk ▸ hr)) hk
    obtain ⟨hin, hkey, -⟩ := IsLatest.of_latest hl
    rw [hl, hmem row' hin hkey]

end Memtable

end Pintail
