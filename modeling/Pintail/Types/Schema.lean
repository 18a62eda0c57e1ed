import Pintail.Types.Row

/-! # Table schemas

A schema lists the columns of a table in physical order under a version. A row fits it when it has
one value for every column, each `NULL` only where allowed and otherwise of the column's carrier.
-/

namespace Pintail

open List

inductive KeyMode
  | primary
  | unique
  | appendRowId
  deriving DecidableEq, Repr

structure Column where
  id : UInt32
  name : String
  dataType : DataType
  nullable : Bool
  /-- What a row stored before the column existed reads for it; `none` reads as `NULL`. -/
  absentFill : Option Value
  deriving DecidableEq, Repr

inductive SchemaError
  | emptySchema
  | emptyPrimaryKey
  | emptyColumnName
  | duplicateColumnId (id : UInt32)
  | reservedColumnId (id : UInt32)
  | duplicateColumnName (name : String)
  | invalidDataType (column : String) (dataType : DataType)
  | wrongArity (expected actual : ℕ)
  | nullInRequiredColumn (column : String)
  | wrongType (column : String) (expected actual : DataType)
  deriving DecidableEq, Repr

namespace TableSchema

def checkColumns (ids : List UInt32) (names : List String) : List Column → Except SchemaError Unit
  | [] => .ok ()
  | column :: columns =>
    if column.dataType.isValid = false then
      .error (.invalidDataType column.name column.dataType)
    else if column.name = "" then .error .emptyColumnName
    else if column.id ∈ ids then .error (.duplicateColumnId column.id)
    -- the top three identifiers belong to the storage system columns
    else if column.id ≥ 4294967293 then .error (.reservedColumnId column.id)
    else if column.name ∈ names then .error (.duplicateColumnName column.name)
    else checkColumns (column.id :: ids) (column.name :: names) columns

theorem checkColumns_ids {ids : List UInt32} {names : List String} {columns : List Column}
    (h : checkColumns ids names columns = .ok ()) :
    (columns.map Column.id).Nodup ∧ ∀ column ∈ columns, column.id ∉ ids := by
  induction columns generalizing ids names with
  | nil => simp
  | cons column columns ih =>
    simp only [checkColumns] at h
    split_ifs at h with _ _ hid
    obtain ⟨hn, ho⟩ := ih h
    refine ⟨?_, ?_⟩
    · rw [map_cons, nodup_cons]
      refine ⟨fun hm => ?_, hn⟩
      obtain ⟨other, hother, he⟩ := mem_map.mp hm
      exact ho other hother (he ▸ mem_cons_self)
    · intro other hother
      rcases mem_cons.mp hother with rfl | hother
      · exact hid
      · exact fun hm => ho other hother (mem_cons_of_mem _ hm)

end TableSchema

/-- A versioned list of columns, non-empty and with distinct stable identifiers. -/
structure TableSchema where
  version : UInt32
  columns : List Column
  keyMode : KeyMode
  nonempty : columns ≠ []
  ids_nodup : (columns.map Column.id).Nodup
  deriving DecidableEq, Repr

namespace TableSchema

def withKeyMode (version : UInt32) (columns : List Column) (keyMode : KeyMode) :
    Except SchemaError TableSchema :=
  if hn : columns = [] then .error .emptySchema
  else
    match h : checkColumns [] [] columns with
    | .ok () => .ok ⟨version, columns, keyMode, hn, (checkColumns_ids h).1⟩
    | .error e => .error e

def validateValue (column : Column) (value : Value) : Except SchemaError Unit :=
  match value.dataType with
  | none => if column.nullable then .ok () else .error (.nullInRequiredColumn column.name)
  | some actual =>
    if column.dataType.accepts actual then .ok ()
    else .error (.wrongType column.name column.dataType actual)

def validateValues : List Column → List Value → Except SchemaError Unit
  | column :: columns, value :: values => do
    validateValue column value
    validateValues columns values
  | _, _ => .ok ()

def validateRow (schema : TableSchema) (row : StoredRow) : Except SchemaError Unit :=
  if row.values.length ≠ schema.columns.length then
    .error (.wrongArity schema.columns.length row.values.length)
  else validateValues schema.columns row.values

/-- A value the column takes: `NULL` where allowed, or a value of its carrier. -/
def Fits (column : Column) (value : Value) : Prop :=
  match value.dataType with
  | none => column.nullable
  | some actual => column.dataType.accepts actual

variable {column : Column} {value : Value}

theorem validateValue_eq_ok : validateValue column value = .ok () ↔ Fits column value := by
  unfold validateValue Fits
  cases value.dataType with
  | none => cases column.nullable <;> simp
  | some actual => cases column.dataType.accepts actual <;> simp

theorem validateValues_eq_ok {columns : List Column} {values : List Value}
    (h : values.length = columns.length) :
    validateValues columns values = .ok () ↔ List.Forall₂ Fits columns values := by
  induction columns generalizing values with
  | nil =>
    obtain rfl := eq_nil_of_length_eq_zero h
    simp [validateValues]
  | cons column columns ih =>
    obtain ⟨value, values, rfl⟩ := exists_cons_of_length_eq_add_one h
    have hl : values.length = columns.length := by simpa using h
    rw [forall₂_cons, ← ih hl, ← validateValue_eq_ok, validateValues]
    cases validateValue column value <;> simp [bind, Except.bind]

variable {schema : TableSchema} {row : StoredRow}

theorem validateRow_eq_ok :
    schema.validateRow row = .ok () ↔ List.Forall₂ Fits schema.columns row.values := by
  unfold validateRow
  split
  · rename_i h
    simp only [reduceCtorEq, false_iff]
    exact fun hf => h hf.length_eq.symm
  · rename_i h
    exact validateValues_eq_ok (not_not.mp h)

@[simp] theorem fits_durable : Fits column value.durable ↔ Fits column value := by
  simp [Fits]

theorem validateRow_durable
    (h : schema.validateRow row = .ok ()) : schema.validateRow row.durable = .ok () := by
  rw [validateRow_eq_ok] at h ⊢
  simpa using h

end TableSchema

end Pintail
