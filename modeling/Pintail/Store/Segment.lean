import Pintail.Store.Memtable
import Pintail.Store.Recovery

/-! # Segments

A segment is an immutable sorted run of rows under the columns of the schema it was written with.
A later schema reads it by column identifier: a dropped column disappears, and a column the segment
lacks reads as its fill or `NULL`.
-/

namespace Pintail

open Versioned List StoredRow Column

section Fingerprint

open Bytes

def encodeSchemaDataType : DataType → List UInt8
  | .boolean => [0]
  | .int64 => [1]
  | .uint64 => [2]
  | .float64 => [3]
  | .utf8 => [4]
  | .binary => [5]
  | .int8 => [6]
  | .int16 => [7]
  | .int32 => [8]
  | .uint8 => [9]
  | .uint16 => [10]
  | .uint32 => [11]
  | .float32 => [12]
  | .decimal precision scale => [13, precision, scale]
  | .date32 => [14]
  | .dateTime64 fsp => [15, fsp]
  | .time64 fsp => [16, fsp]
  | .json => [17]
  | .year => [18]

def keyModeTag : KeyMode → UInt8
  | .primary => 0
  | .unique => 1
  | .appendRowId => 2

def schemaFingerprint (xxh3 : List UInt8 → UInt64) (schema : TableSchema) : UInt64 :=
  let column := fun (column : Column) =>
    u32Bytes column.id ++ encodeSchemaDataType column.dataType ++
      [if column.nullable then 1 else 0] ++ column.name.toByteArray.data.toList ++ [0]
  xxh3 (u32Bytes schema.version ++ [keyModeTag schema.keyMode] ++
    u32Bytes (UInt32.ofNat (min schema.columns.length 4294967295)) ++ schema.columns.flatMap column)

end Fingerprint

inductive Compression
  | adaptiveLz4
  | zstd
  deriving DecidableEq, Repr

/-- What a published segment holds. Its file name is made from its identifier. -/
structure Segment where
  id : ℕ
  schemaVersion : UInt32
  schemaFingerprint : UInt64
  columns : List WalColumn
  rows : List StoredRow
  blockRows : ℕ
  compression : Compression
  uniqueKeys : Bool
  nonempty : rows ≠ []
  deriving DecidableEq, Repr

/-- The value a stored row has for a column: its own, or what rows older than the column read. -/
def projectValue (columns : List WalColumn) (values : List Value) (column : Column) : Value :=
  match (columns.zip values).find? fun (stored, _) => stored.id == column.id with
  | some (_, value) => value
  | none => (column.absentFill.getD .null).durable

def StoredRow.project (columns : List WalColumn) (schema : TableSchema) (row : StoredRow) :
    StoredRow :=
  { row with values := schema.columns.map (projectValue columns row.values) }

namespace Segment

def write (xxh3 : List UInt8 → UInt64) (id : ℕ) (schema : TableSchema) (rows : List StoredRow)
    (blockRows : ℕ) (compression : Compression) (uniqueKeys : Bool) : Except StoreError Segment :=
  if h : rows = [] then .error (.formatLimit "cannot write an empty segment")
  else if blockRows = 0 then .error (.formatLimit "segment block row target must be non-zero")
  else .ok
    { id, schemaVersion := schema.version, schemaFingerprint := Pintail.schemaFingerprint xxh3 schema,
      columns := schema.columns.map wal, rows := rows.map durable, blockRows,
      compression, uniqueKeys, nonempty := by simpa using h }

def rowCount (segment : Segment) : ℕ := segment.rows.length

def minKey (segment : Segment) : PrimaryKey := (segment.rows.head segment.nonempty).key

def maxKey (segment : Segment) : PrimaryKey := (segment.rows.getLast segment.nonempty).key

def minVersion (segment : Segment) : UInt64 := (segment.rows.map version).min?.getD 0

def maxVersion (segment : Segment) : UInt64 := (segment.rows.map version).max?.getD 0

def tombstones (segment : Segment) : ℕ := segment.rows.countP deleted

def checkStored (schema : TableSchema) (stored : WalColumn) : Except StoreError Unit :=
  match schema.columns.find? fun column => column.id == stored.id with
  | none => .ok ()
  | some column =>
    if stored.dataType = column.dataType.storageType then .ok ()
    else .error (.incompatibleSchema s!"column {column.name} ({stored.id}) changed physical type")

def checkAbsent (segment : Segment) (column : Column) : Except StoreError Unit :=
  if segment.columns.any fun stored => stored.id == column.id then .ok ()
  else if column.nullable || column.absentFill.isSome then .ok ()
  else
    let absent := s!"is absent from schema version {segment.schemaVersion}"
    .error (.incompatibleSchema s!"required column {column.name} ({column.id}) {absent}")

def checkColumns (schema : TableSchema) (segment : Segment) : Except StoreError Unit := do
  segment.columns.forM (checkStored schema)
  schema.columns.forM segment.checkAbsent

def rowsUnder (schema : TableSchema) (segment : Segment) : List StoredRow :=
  segment.rows.map (project segment.columns schema)

def verify (schema : TableSchema) (segment : Segment) : Except StoreError Unit :=
  if segment.schemaVersion > schema.version then
    .error (.schemaMismatch schema.version segment.schemaVersion)
  else .ok ()

def read (schema : TableSchema) (segment : Segment) : Except StoreError (List StoredRow) := do
  segment.verify schema
  segment.checkColumns schema
  pure (segment.rowsUnder schema)

def sameSpan (left right : Segment) : Bool :=
  left.minKey == right.minKey && left.maxKey == right.maxKey && left.rowCount == right.rowCount &&
    left.minVersion == right.minVersion && left.maxVersion == right.maxVersion

/-- Whether two segment files hold the same bytes: everything but the name and the key flag, which
is kept in the manifest, goes into the file. -/
def sameContents (left right : Segment) : Bool :=
  left.schemaVersion == right.schemaVersion &&
    left.schemaFingerprint == right.schemaFingerprint && left.columns == right.columns &&
    left.rows == right.rows && left.blockRows == right.blockRows &&
    left.compression == right.compression

/-- What every writer of a segment ensures: rows in key order, in their written form and with one
value for each recorded column. -/
structure WellFormed (segment : Segment) : Prop where
  sorted : Sorted segment.rows
  durable : ∀ row ∈ segment.rows, row.durable = row
  width : ∀ row ∈ segment.rows, row.values.length = segment.columns.length

instance (segment : Segment) : Decidable segment.WellFormed :=
  decidable_of_iff (Sorted segment.rows ∧ (∀ row ∈ segment.rows, row.durable = row) ∧
      ∀ row ∈ segment.rows, row.values.length = segment.columns.length)
    ⟨fun ⟨hs, hd, hw⟩ => ⟨hs, hd, hw⟩, fun h => ⟨h.sorted, h.durable, h.width⟩⟩

section Project

variable {schema : TableSchema} {segment : Segment} {row : StoredRow}
  {values : List Value} {columns : List Column}

theorem find?_zip_wal {column : Column} {value : Value}
    (hn : (columns.map Column.id).Nodup) (hmem : (column, value) ∈ columns.zip values) :
    (((columns.map wal).zip values).find? fun (stored, _) => stored.id == column.id) =
      some (column.wal, value) := by
  induction columns generalizing values with
  | nil => cases hmem
  | cons first columns ih =>
    cases values with
    | nil => cases hmem
    | cons head values =>
      rw [map_cons, nodup_cons] at hn
      rcases mem_cons.mp hmem with he | hmem
      · cases he
        simp [wal]
      · have hne : first.id ≠ column.id := fun he =>
          hn.1 (he ▸ mem_map_of_mem (of_mem_zip hmem).1)
        rw [map_cons, zip_cons_cons, find?_cons_of_neg (by simpa [wal] using hne)]
        exact ih hn.2 hmem

theorem map_projectValue
    (hn : (columns.map Column.id).Nodup) (hl : values.length = columns.length) :
    columns.map (projectValue (columns.map wal) values) = values := by
  have hfst : (columns.zip values).map Prod.fst = columns := map_fst_zip hl.ge
  have hsnd : (columns.zip values).map Prod.snd = values := map_snd_zip hl.le
  calc columns.map (projectValue (columns.map wal) values)
      = (columns.zip values).map (projectValue (columns.map wal) values ∘ Prod.fst) := by
        rw [← map_map, hfst]
    _ = (columns.zip values).map Prod.snd := map_congr_left fun ⟨column, value⟩ hmem => by
        simp [Function.comp_apply, projectValue, find?_zip_wal hn hmem]
    _ = values := hsnd

theorem project_self (hl : row.values.length = schema.columns.length) :
    row.project (schema.columns.map Column.wal) schema = row := by
  rw [project, map_projectValue schema.ids_nodup hl]

variable {columns : List WalColumn}

theorem projectValue_durable (h : values.map Value.durable = values) (column : Column) :
    (projectValue columns values column).durable = projectValue columns values column := by
  unfold projectValue
  split
  · rename_i stored value hfind
    have hmem := (of_mem_zip (mem_of_find?_eq_some hfind)).2
    rw [← h] at hmem
    obtain ⟨value', -, rfl⟩ := mem_map.mp hmem
    exact Value.durable_durable value'
  · exact Value.durable_durable _

theorem project_durable (h : row.durable = row) :
    (row.project columns schema).durable = row.project columns schema := by
  have hv : row.values.map Value.durable = row.values := congrArg values h
  unfold durable project
  simp [projectValue_durable hv]

theorem WellFormed.durable_rowsUnder (h : segment.WellFormed)
    (hr : row ∈ segment.rowsUnder schema) : row.durable = row := by
  obtain ⟨stored, hs, rfl⟩ := mem_map.mp hr
  exact project_durable (h.durable stored hs)

theorem length_values_rowsUnder (hr : row ∈ segment.rowsUnder schema) :
    row.values.length = schema.columns.length := by
  obtain ⟨stored, -, rfl⟩ := mem_map.mp hr
  simp [project]

theorem WellFormed.sorted_rowsUnder (h : segment.WellFormed) (schema : TableSchema) :
    Sorted (segment.rowsUnder schema) := by
  unfold Sorted rowsUnder
  rw [pairwise_map]
  exact h.sorted

theorem minKey_le (hs : Sorted segment.rows) (hr : row ∈ segment.rows) :
    segment.minKey ≤ row.key := by
  have hsplit := cons_head_tail segment.nonempty
  rw [← hsplit] at hr hs
  rcases mem_cons.mp hr with rfl | hr
  · exact le_rfl
  · exact rel_of_pairwise_cons hs hr

theorem le_maxKey (hs : Sorted segment.rows) (hr : row ∈ segment.rows) :
    row.key ≤ segment.maxKey := by
  have hsplit := dropLast_append_getLast segment.nonempty
  unfold maxKey
  rw [← hsplit] at hr hs
  rcases mem_append.mp hr with hr | hr
  · exact (pairwise_append.mp hs).2.2 row hr _ (mem_singleton_self _)
  · rw [mem_singleton.mp hr]

theorem minVersion_le (hr : row ∈ segment.rows) : segment.minVersion ≤ row.version := by
  have hmem : row.version ∈ segment.rows.map version := mem_map_of_mem hr
  unfold minVersion
  cases hm : (segment.rows.map version).min? with
  | none => simp [min?_eq_none_iff.mp hm] at hmem
  | some least => exact (min?_eq_some_iff.mp hm).2 _ hmem

theorem le_maxVersion (hr : row ∈ segment.rows) : row.version ≤ segment.maxVersion := by
  have hmem : row.version ∈ segment.rows.map version := mem_map_of_mem hr
  unfold maxVersion
  cases hm : (segment.rows.map version).max? with
  | none => simp [max?_eq_none_iff.mp hm] at hmem
  | some most => exact (max?_eq_some_iff.mp hm).2 _ hmem

end Project

section Write

variable {xxh3 : List UInt8 → UInt64} {id blockRows : ℕ} {schema : TableSchema}
  {rows : List StoredRow} {compression : Compression} {uniqueKeys : Bool} {segment : Segment}

/-- The segment holds the rows under the columns of the schema. -/
structure Written (schema : TableSchema) (rows : List StoredRow) (segment : Segment) : Prop where
  version_eq : segment.schemaVersion = schema.version
  columns_eq : segment.columns = schema.columns.map wal
  rows_eq : segment.rows = rows.map durable

theorem exists_write (xxh3 : List UInt8 → UInt64) (id : ℕ) (schema : TableSchema) (hne : rows ≠ [])
    (hb : 0 < blockRows) (compression : Compression) (uniqueKeys : Bool) :
    ∃ segment, write xxh3 id schema rows blockRows compression uniqueKeys = .ok segment := by
  rw [write, dif_neg hne, if_neg (Nat.pos_iff_ne_zero.mp hb)]
  exact ⟨_, rfl⟩

theorem written_of_write
    (h : write xxh3 id schema rows blockRows compression uniqueKeys = .ok segment) :
    Written schema rows segment := by
  unfold write at h
  split_ifs at h
  cases h
  exact ⟨rfl, rfl, rfl⟩

theorem id_of_write (h : write xxh3 id schema rows blockRows compression uniqueKeys = .ok segment) :
    segment.id = id := by
  unfold write at h
  split_ifs at h
  cases h
  rfl

namespace Written

theorem wellFormed (h : Written schema rows segment) (hs : Sorted rows)
    (hw : ∀ row ∈ rows, row.values.length = schema.columns.length) : segment.WellFormed := by
  refine ⟨?_, ?_, ?_⟩
  · rw [h.rows_eq, Sorted, pairwise_map]
    exact hs
  · rw [h.rows_eq, forall_mem_map]
    exact fun row _ => durable_durable row
  · rw [h.rows_eq, forall_mem_map, h.columns_eq]
    exact fun row hr => by simpa using hw row hr

theorem rowsUnder_eq (h : Written schema rows segment)
    (hw : ∀ row ∈ rows, row.values.length = schema.columns.length) :
    segment.rowsUnder schema = rows.map durable := by
  rw [rowsUnder, h.rows_eq, h.columns_eq, map_map]
  apply map_congr_left
  intro row hr
  exact project_self (by simpa using hw row hr)

end Written

end Write

theorem read_eq_ok {schema : TableSchema} {segment : Segment} {rows : List StoredRow}
    (h : segment.read schema = .ok rows) : rows = segment.rowsUnder schema := by
  obtain ⟨_, -, h⟩ := Except.bind_eq_ok.mp h
  obtain ⟨_, -, h⟩ := Except.bind_eq_ok.mp h
  exact (Except.pure_eq_ok.mp h).symm

end Segment

end Pintail
