import Pintail.Support.Except
import Pintail.Types.Schema

/-! # Source tables

A probe describes a source table by its columns and its key. Columns are found by name, whatever the
letter case. A refreshed description takes over the stable identifiers of the tracked one: a column
of a known name keeps its identifier, a new one continues from the highest that is in use.
-/

namespace Pintail

/-- Names are compared without regard to the case of ASCII letters. -/
def sameName (a b : String) : Bool := a.toList.map Char.toLower == b.toList.map Char.toLower

variable {a b : String}

theorem sameName_iff :
    sameName a b = true ↔ a.toList.map Char.toLower = b.toList.map Char.toLower := beq_iff_eq

@[simp] theorem sameName_self (a : String) : sameName a a = true := sameName_iff.mpr rfl

theorem sameName_comm : sameName a b = sameName b a := Bool.beq_comm

theorem sameName_congr (h : sameName a b = true) (c : String) : sameName a c = sameName b c := by
  rw [sameName, sameName, sameName_iff.mp h]

structure SourceColumn where
  id : UInt32
  name : String
  mysqlDataType : String
  mysqlColumnType : String
  pintailType : DataType
  nullable : Bool
  characterSet : Option String := none
  collation : Option String := none
  generatedStored : Bool := false
  generationExpression : String := ""
  generationCaptured : Bool := true
  extra : String := ""
  autoIncrement : Bool := false
  defaultValue : Option String := none
  defaultGenerated : Bool := false
  /-- Where the column stands in a row image of the source, counted from one. -/
  ordinal : UInt32
  /-- What the rows stored before the column joined the table read for it. -/
  absentFill : Option Value := none
  deriving DecidableEq, Repr

structure SourceKey where
  mode : KeyMode
  columns : List String
  deriving DecidableEq, Repr

structure SourceTable where
  name : String
  columns : List SourceColumn
  key : SourceKey
  /-- How many columns the source declares, the skipped ones included. -/
  sourceColumnCount : UInt32
  deriving DecidableEq, Repr

namespace SourceTable

def column? (table : SourceTable) (name : String) : Option SourceColumn :=
  table.columns.find? fun column => sameName column.name name

def hasColumn (table : SourceTable) (name : String) : Bool :=
  table.columns.any fun column => sameName column.name name

def highestId (columns : List SourceColumn) : UInt32 :=
  columns.foldr (fun column highest => max column.id highest) 0

variable {table : SourceTable} {name : String} {column : SourceColumn}

theorem hasColumn_iff : table.hasColumn name = true ↔ ∃ column ∈ table.columns,
    sameName column.name name = true := List.any_eq_true

theorem hasColumn_mono {result : SourceTable}
    (h : ∀ column ∈ table.columns, column ∈ result.columns) (ht : table.hasColumn name = true) :
    result.hasColumn name = true := by
  obtain ⟨column, hc, hsame⟩ := hasColumn_iff.mp ht
  exact hasColumn_iff.mpr ⟨column, h column hc, hsame⟩

theorem mem_of_column? (h : table.column? name = some column) : column ∈ table.columns :=
  List.mem_of_find?_eq_some h

theorem column?_isSome : (table.column? name).isSome = table.hasColumn name :=
  List.isSome_find? ..

theorem column?_eq_none : table.column? name = none ↔ table.hasColumn name = false := by
  rw [← column?_isSome, Option.isSome_eq_false_iff, Option.isNone_iff_eq_none]

theorem column?_congr {other : String} (h : sameName name other = true) :
    table.column? name = table.column? other := by
  have hf : (fun column : SourceColumn => sameName column.name name) =
      fun column => sameName column.name other := by
    funext column
    rw [sameName_comm, sameName_congr h, sameName_comm]
  rw [column?, column?, hf]

theorem le_highestId {columns : List SourceColumn} (h : column ∈ columns) :
    column.id ≤ highestId columns := by
  induction columns with
  | nil => cases h
  | cons first columns ih =>
    rcases List.mem_cons.mp h with rfl | h
    · exact le_max_left _ _
    · exact (ih h).trans (le_max_right _ _)

def tableSchemaWithVersion (table : SourceTable) (version : UInt32) :
    Except SchemaError TableSchema :=
  TableSchema.withKeyMode version
    (table.columns.map fun column =>
      { id := column.id
        name := column.name
        dataType := column.pintailType
        nullable := !table.key.columns.any fun key => sameName key column.name
        absentFill := column.absentFill })
    table.key.mode

end SourceTable

namespace Probe

/-- What the information schema of the source says of a column's type. -/
structure RawColumn where
  name : String
  dataType : String
  columnType : String
  numericPrecision : Option UInt8 := none
  numericScale : Option UInt8 := none
  datetimePrecision : Option UInt8 := none

structure TypeMapping where
  dataType : DataType
  warning : Option String := none

def mapMysqlType (column : RawColumn) : Except String TypeMapping :=
  let is := sameName column.dataType
  let declared := column.columnType.toList.map Char.toLower
  let unsigned := decide ("unsigned".toList <:+: declared)
  let integer (signed unsignedType : DataType) : Except String TypeMapping :=
    .ok { dataType := if unsigned then unsignedType else signed }
  if is "tinyint" then
    if "tinyint(1)".toList.isPrefixOf declared then .ok { dataType := .boolean }
    else integer .int8 .uint8
  else if is "smallint" then integer .int16 .uint16
  else if ["mediumint", "int", "integer"].any is then integer .int32 .uint32
  else if is "bigint" then integer .int64 .uint64
  else if ["decimal", "numeric"].any is then
    match column.numericPrecision with
    | some precision => .ok { dataType := .decimal precision (column.numericScale.getD 0) }
    | none => .error s!"decimal column {column.name} is missing precision"
  else if is "float" then .ok { dataType := .float32 }
  else if ["double", "real"].any is then .ok { dataType := .float64 }
  else if is "bit" then .ok { dataType := .uint64 }
  else if is "date" then .ok { dataType := .date32 }
  else if ["datetime", "timestamp"].any is then
    .ok { dataType := .dateTime64 (column.datetimePrecision.getD 0) }
  else if is "time" then .ok { dataType := .time64 (column.datetimePrecision.getD 0) }
  else if is "year" then .ok { dataType := .year }
  else if ["char", "varchar", "tinytext", "text", "mediumtext", "longtext", "enum", "set"].any is
    then .ok { dataType := .utf8 }
  else if ["binary", "varbinary", "tinyblob", "blob", "mediumblob", "longblob", "geometry", "point",
      "linestring", "polygon", "multipoint", "multilinestring", "multipolygon",
      "geometrycollection"].any is then .ok { dataType := .binary }
  else if is "json" then .ok { dataType := .json }
  else .ok
    { dataType := .utf8
      warning := some
        s!"unrecognized MySQL type {column.dataType.toLower} is stored as UTF-8 text" }

def Probed (column : SourceColumn) : Prop :=
  ∃ raw : RawColumn, raw.dataType = column.mysqlDataType ∧
    raw.columnType = column.mysqlColumnType ∧
    (mapMysqlType raw).map TypeMapping.dataType = .ok column.pintailType

def nativeDecimalMaxPrecision : UInt8 := 18

def isSignedInteger : DataType → Bool
  | .boolean | .int8 | .int16 | .int32 | .int64 => true
  | _ => false

def isUnsignedInteger : DataType → Bool
  | .uint8 | .uint16 | .uint32 | .uint64 => true
  | _ => false

def isFloat : DataType → Bool
  | .float32 | .float64 => true
  | _ => false

/-- Whether a declared type can change without touching the stored values. -/
def wideningCompatible (previous refreshed : DataType) : Bool :=
  previous == refreshed ||
    (isSignedInteger previous && isSignedInteger refreshed) ||
    (isUnsignedInteger previous && isUnsignedInteger refreshed) ||
    (isFloat previous && isFloat refreshed) ||
    match previous, refreshed with
    | .decimal precision scale, .decimal precision' scale' =>
      precision' ≥ precision && (scale == scale' ||
        scale' > scale && precision > nativeDecimalMaxPrecision &&
          precision'.toNat - scale'.toNat ≥ precision.toNat - scale.toNat)
    | _, _ => false

/-- Why a declaration cannot take over the rows stored under another one. -/
abbrev ColumnChange := SourceColumn → SourceColumn → Option String

section Stabilize

variable (judge : ColumnChange) (previous : SourceTable)

def adoptColumn (existing column : SourceColumn) : Except String SourceColumn :=
  if existing.pintailType ≠ column.pintailType &&
      !wideningCompatible existing.pintailType column.pintailType then
    .error s!"column {column.name} changed physical type"
  else
    match judge existing column with
    | some reason => .error reason
    | none => .ok { column with
        id := existing.id
        absentFill := column.absentFill <|> existing.absentFill }

def stabilizeColumns (next : UInt32) : List SourceColumn → Except String (List SourceColumn)
  | [] => .ok []
  | column :: columns =>
    match previous.column? column.name with
    | some existing => do
      let column ← adoptColumn judge existing column
      return column :: (← stabilizeColumns next columns)
    | none =>
      match Words.next? next with
      | none => .error "stable column ID space is exhausted"
      | some next => do return { column with id := next } :: (← stabilizeColumns next columns)

def sameKey (previous refreshed : SourceKey) : Bool :=
  previous.mode == refreshed.mode && previous.columns.length == refreshed.columns.length &&
    (previous.columns.zip refreshed.columns).all fun pair => sameName pair.1 pair.2

def stabilizeSourceTable (refreshed : SourceTable) : Except String SourceTable :=
  let refusal := "cannot adopt the source schema in place"
  if !sameKey previous.key refreshed.key then .error s!"{refusal}: the physical key changed"
  else
    match stabilizeColumns judge previous (SourceTable.highestId previous.columns)
        refreshed.columns with
    | .error reason => .error s!"{refusal}: {reason}"
    | .ok columns => .ok { refreshed with columns }

end Stabilize

/-- How a stabilized column stands to the refreshed one. -/
structure Stable (previous : SourceTable) (floor : UInt32) (column stable : SourceColumn) :
    Prop where
  name_eq : stable.name = column.name
  id_of_known : ∀ {existing}, previous.column? column.name = some existing →
    stable.id = existing.id
  lt_of_new : previous.hasColumn column.name = false → floor < stable.id

variable {judge : ColumnChange} {previous : SourceTable} {column stable : SourceColumn}

theorem Stable.mono {floor floor' : UInt32} (hle : floor ≤ floor')
    (h : Stable previous floor' column stable) : Stable previous floor column stable :=
  ⟨h.name_eq, h.id_of_known, fun hn => hle.trans_lt (h.lt_of_new hn)⟩

theorem stable_of_adoptColumn {existing : SourceColumn} {floor : UInt32}
    (hc : previous.column? column.name = some existing)
    (h : adoptColumn judge existing column = .ok stable) : Stable previous floor column stable := by
  unfold adoptColumn at h
  split at h
  · cases h
  · split at h
    · cases h
    · cases h
      refine ⟨rfl, fun {other} ho => ?_, fun hn => ?_⟩
      · rw [hc] at ho
        cases ho
        rfl
      · rw [SourceTable.column?_eq_none.mpr hn] at hc
        cases hc

theorem forall₂_stabilizeColumns {next : UInt32} {columns stable : List SourceColumn}
    (h : stabilizeColumns judge previous next columns = .ok stable) :
    List.Forall₂ (Stable previous next) columns stable := by
  fun_induction stabilizeColumns judge previous next columns generalizing stable with
  | case1 =>
    cases h
    exact .nil
  | case2 _ column columns existing hc ih =>
    obtain ⟨adopted, ha, h⟩ := Except.bind_eq_ok.mp h
    obtain ⟨rest, hr, h⟩ := Except.bind_eq_ok.mp h
    cases h
    exact .cons (stable_of_adoptColumn hc ha) (ih hr)
  | case3 => cases h
  | case4 _ column columns hc following hf ih =>
    obtain ⟨rest, hr, h⟩ := Except.bind_eq_ok.mp h
    cases h
    have hlt := Words.lt_of_next? hf
    refine .cons ⟨rfl, fun ho => ?_, fun _ => hlt⟩ ((ih hr).imp fun _ _ => .mono hlt.le)
    rw [hc] at ho
    cases ho

theorem of_stabilizeSourceTable {refreshed stable : SourceTable} :
    stabilizeSourceTable judge previous refreshed = .ok stable →
      List.Forall₂ (Stable previous (SourceTable.highestId previous.columns)) refreshed.columns
        stable.columns := by
  fun_cases stabilizeSourceTable judge previous refreshed with
  | case3 => rintro ⟨⟩; exact forall₂_stabilizeColumns ‹_›
  | _ => nofun

end Probe

end Pintail
