import Pintail.Bytes.LittleEndian
import Pintail.Cdc.Error
import Pintail.Probe.Source
import Pintail.Words.Digits

/-! # Decoding source values

A value of a row event arrives in the representation of the client library. It is adapted to the
declaration of its column, which knows the sign, the character set and the labels the event leaves
out, and then mapped to the stored value. The key of a row is made from the stored values of its
key columns.
-/

namespace Pintail

open Words Char

inductive ColumnType
  | tiny | short | int24 | long | longlong
  | float | double
  | varchar | varString | string
  | tinyBlob | mediumBlob | longBlob | blob | geometry
  | newDecimal
  | dateTime2 | timestamp2 | newDate
  | enum
  | other (code : UInt8)
  deriving DecidableEq, Repr

/-- A value as the client library hands it out; floats by their bits. -/
inductive MysqlValue
  | null
  | bytes (value : List UInt8)
  | int (value : Int64)
  | uint (value : UInt64)
  | float (bits : UInt32)
  | double (bits : UInt64)
  | date (year : UInt16) (month day hour minute second : UInt8) (micros : UInt32)
  | time (negative : Bool) (days : UInt32) (hours minutes seconds : UInt8) (micros : UInt32)
  deriving DecidableEq, Repr

namespace Cdc

/-- What the decoder is built on: the event reader of the client library with its conversion of a
read value, the calendar, the text of floats and labels of a declaration, and the mapping of the
types other than integers, text and bytes. -/
structure Libraries where
  deserialize : ColumnType → List UInt8 → Bool → List UInt8 →
    Except String (Except String MysqlValue × List UInt8)
  /-- Year, month, day, hour, minute and second of a time given in seconds since the epoch. -/
  civil : ℤ → Option (ℤ × ℕ × ℕ × ℕ × ℕ × ℕ)
  widen : UInt32 → UInt64
  declarationLabels : String → String → Option (List String)
  shown : MysqlValue → Option String
  floatText : UInt64 → String
  otherValue : String → SourceColumn → MysqlValue → Except String Value

def utf8Bytes (text : String) : List UInt8 := text.toByteArray.data.toList

def utf8? (bytes : List UInt8) : Option String := String.fromUTF8? ⟨bytes.toArray⟩

theorem utf8?_utf8Bytes (text : String) : utf8? (utf8Bytes text) = some text := by
  simp [utf8?, utf8Bytes, String.fromUTF8?, text.isValidUTF8, String.fromUTF8]

def latin1Extended : List ℕ :=
  [0x20ac, 0x81, 0x201a, 0x192, 0x201e, 0x2026, 0x2020, 0x2021, 0x2c6, 0x2030, 0x160, 0x2039, 0x152,
   0x8d, 0x17d, 0x8f, 0x90, 0x2018, 0x2019, 0x201c, 0x201d, 0x2022, 0x2013, 0x2014, 0x2dc, 0x2122,
   0x161, 0x203a, 0x153, 0x9d, 0x17e, 0x178]

def latin1Character (byte : UInt8) : Char :=
  if 0x80 ≤ byte ∧ byte ≤ 0x9f then ofNat (latin1Extended.getD (byte.toNat - 0x80) 0)
  else ofNat byte.toNat

def decodeLatin1 (bytes : List UInt8) : String := String.ofList (bytes.map latin1Character)

section Declarations

variable (column : SourceColumn)

/-- The words of a declaration are compared in lower case. -/
def isType (name : String) : Bool := sameName column.mysqlDataType name

def declaredUnsigned : Bool :=
  decide ("unsigned".toList <:+: column.mysqlColumnType.toList.map toLower)

def isTextual : Bool :=
  ["char", "varchar", "tinytext", "text", "mediumtext", "longtext", "enum", "set"].any
    (isType column)

def trimStart (chars : List Char) : List Char := chars.dropWhile isWhitespace

def trim (chars : List Char) : List Char := (trimStart chars).rdropWhile isWhitespace

def fixedBinaryWidth : Option ℕ :=
  if !isType column "binary" then none
  else
    let declared := (trim column.mysqlColumnType.toList).map toLower
    if "binary".toList.isPrefixOf declared then
      match trimStart (declared.drop "binary".length) with
      | [] => some 1
      | '(' :: rest => unsigned? (2 ^ 64) (trim (rest.takeWhile (· ≠ ')')))
      | _ => none
    else none

def padFixedBinary (bytes : List UInt8) (width : ℕ) : List UInt8 :=
  bytes ++ List.replicate (width - bytes.length) 0

def transcodeText (bytes : List UInt8) : Except CdcError String :=
  let unicode : Except CdcError String :=
    match utf8? bytes with
    | some text => .ok text
    | none => .error (.decode s!"<row>.{column.name}: invalid utf-8")
  match column.characterSet with
  | none => unicode
  | some set =>
    if ["utf8mb4", "utf8", "utf8mb3", "ascii"].any (sameName set) then unicode
    else if sameName set "latin1" then .ok (decodeLatin1 bytes)
    else .error (.decode s!"{column.name} uses unsupported binlog character set {set.toLower}")

end Declarations

section Adapting

variable (lib : Libraries) (column : SourceColumn)

def reinterpreted (value : Int64) : Option UInt64 :=
  let low (width : ℕ) : UInt64 := UInt64.ofNat (value.toUInt64.toNat % 256 ^ width)
  if isType column "tinyint" then some (low 1)
  else if isType column "smallint" then some (low 2)
  else if isType column "mediumint" then some (low 3)
  else if isType column "int" || isType column "integer" then some (low 4)
  else if isType column "bigint" then some (low 8)
  else none

def numericIndex : MysqlValue → Option ℕ
  | .int value => if 0 ≤ value.toInt then some value.toInt.toNat else none
  | .uint value => some value.toNat
  | .bytes value => do unsigned? (2 ^ 64) (← utf8? value).toList
  | _ => none

def setBits : MysqlValue → Option ℕ
  | .int value => if 0 ≤ value.toInt then some value.toInt.toNat else none
  | .uint value => some value.toNat
  | .bytes bytes => if bytes.length ≤ 8 then some (Bytes.leNat bytes) else none
  | _ => none

def declarationLabels (kind : String) : Except CdcError (List String) :=
  match lib.declarationLabels column.mysqlColumnType kind with
  | some labels => .ok labels
  | none => .error (.decode s!"cannot parse {kind} declaration {column.mysqlColumnType}")

def adaptEnum (value : MysqlValue) : Except CdcError MysqlValue :=
  match numericIndex value with
  | none => .error (.decode s!"<row>.{column.name} ENUM index is invalid")
  | some index => do
    let labels ← declarationLabels lib column "enum"
    if index = 0 then return .bytes (utf8Bytes "")
    match labels[index - 1]? with
    | some label => return .bytes (utf8Bytes label)
    | none =>
      throw (.decode s!"{column.name} ENUM index {index} exceeds {labels.length} labels")

def adaptSet (value : MysqlValue) : Except CdcError MysqlValue :=
  match setBits value with
  | none => .error (.decode s!"<row>.{column.name} SET bits are invalid")
  | some bits => do
    let labels ← declarationLabels lib column "set"
    if 64 < labels.length then throw (.decode s!"{column.name} SET declares more than 64 labels")
    let selected := labels.zipIdx.filterMap fun (label, index) =>
      if bits.testBit index then some label else none
    if labels.length < 64 ∧ bits >>> labels.length ≠ 0 then
      throw (.decode s!"{column.name} SET bits exceed {labels.length} declared labels")
    return .bytes (utf8Bytes (",".intercalate selected))

/-- The seconds and the six digits of fraction in a timestamp's text. -/
def adaptTimestamp (seconds : ℤ) (fraction : List Char) : Except CdcError MysqlValue :=
  if seconds = 0 then .ok (.date 0 0 0 0 0 0 0)
  else
    match lib.civil seconds with
    | none => .error (.decode s!"{column.name} TIMESTAMP is out of range")
    | some (year, month, day, hour, minute, second) => do
      let digits := fraction.take 6
      let micros ←
        if digits = [] then pure 0
        else
          match unsigned? (2 ^ 32) (digits ++ List.replicate (6 - digits.length) '0') with
          | some micros => pure micros
          | none => throw (.decode "invalid digit found in string")
      if year < 0 ∨ 65535 < year then
        throw (.decode "out of range integral type conversion attempted")
      return .date (UInt16.ofNat year.toNat) (UInt8.ofNat month) (UInt8.ofNat day)
        (UInt8.ofNat hour) (UInt8.ofNat minute) (UInt8.ofNat second) (UInt32.ofNat micros)

def timestampText? : MysqlValue → Option (ℤ × List Char)
  | .bytes bytes => do
    let raw := (← utf8? bytes).toList
    let seconds ← signed? (2 ^ 63) (raw.takeWhile (· ≠ '.'))
    return (seconds, (raw.dropWhile (· ≠ '.')).drop 1)
  | _ => none

/-- Text is handed on in UTF-8, and fixed-width bytes with their padding. -/
def adaptBytes (bytes : List UInt8) : Except CdcError MysqlValue :=
  if isTextual column then do
    let text ← transcodeText column bytes
    return .bytes (utf8Bytes text)
  else
    match fixedBinaryWidth column with
    | some width => .ok (.bytes (padFixedBinary bytes width))
    | none => .ok (.bytes bytes)

def adaptBinlogValue (value : MysqlValue) : Except CdcError MysqlValue :=
  let rest : Except CdcError MysqlValue :=
    if isType column "enum" then adaptEnum lib column value
    else if isType column "set" then adaptSet lib column value
    else
      match (if isType column "timestamp" then timestampText? value else none), value with
      | some (seconds, fraction), _ => adaptTimestamp lib column seconds fraction
      | none, .bytes bytes => adaptBytes column bytes
      | none, value => .ok value
  match value with
  | .null => .ok .null
  | .int read =>
    -- three bytes come widened without their sign
    if !declaredUnsigned column && isType column "mediumint" &&
        decide (0x800000 ≤ read.toInt ∧ read.toInt < 0x1000000) then
      .ok (.int (read - 0x1000000))
    else if declaredUnsigned column then
      match reinterpreted column read with
      | some bits => .ok (.uint bits)
      | none => rest
    else rest
  | _ => rest

end Adapting

section Mapping

variable (lib : Libraries)

def mysqlBool : MysqlValue → Option Bool
  | .int value => some (value ≠ 0)
  | .uint value => some (value ≠ 0)
  | .bytes [0x30] | .bytes [0] => some false
  | .bytes [0x31] | .bytes [1] => some true
  | .bytes bytes => do
    let number ← signed? (2 ^ 63) (← utf8? bytes).toList
    return number ≠ 0
  | _ => none

def mysqlI64 : MysqlValue → Option Int64
  | .int value => some value
  | .uint value => if value.toNat < 2 ^ 63 then some value.toInt64 else none
  | .bytes bytes => do
    let number ← signed? (2 ^ 63) (← utf8? bytes).toList
    return Int64.ofInt number
  | _ => none

def beNat (bytes : List UInt8) : ℕ := Bytes.leNat bytes.reverse

def mysqlU64 : MysqlValue → Option UInt64
  | .uint value => some value
  | .int value => if 0 ≤ value.toInt then some value.toUInt64 else none
  | .bytes bytes =>
    if bytes.length ≤ 8 ∧ ¬ bytes.all (fun byte => 0x30 ≤ byte && byte ≤ 0x39) then
      some (UInt64.ofNat (beNat bytes))
    else do
      let number ← unsigned? (2 ^ 64) (← utf8? bytes).toList
      return UInt64.ofNat number
  | _ => none

def mysqlText : MysqlValue → Option String
  | .bytes bytes => utf8? bytes
  | value => lib.shown value

def mysqlBytes : MysqlValue → Option (List UInt8)
  | .bytes bytes => some bytes
  | value => utf8Bytes <$> mysqlText lib value

def signedFits : DataType → ℤ → Bool
  | .int8, value => -2 ^ 7 ≤ value && value < 2 ^ 7
  | .int16, value => -2 ^ 15 ≤ value && value < 2 ^ 15
  | .int32, value => -2 ^ 31 ≤ value && value < 2 ^ 31
  | _, _ => true

def unsignedFits : DataType → ℕ → Bool
  | .uint8, value => value < 2 ^ 8
  | .uint16, value => value < 2 ^ 16
  | .uint32, value => value < 2 ^ 32
  | .year, value => value = 0 || 1901 ≤ value && value ≤ 2155
  | _, _ => true

variable (table : String) (column : SourceColumn)

def mappingError {α : Type} (reason : String) : Except String α :=
  .error s!"cannot map {table}.{column.name}: {reason}"

def mapMysqlValue (value : MysqlValue) : Except String Value :=
  if value = .null then .ok .null
  else
    match column.pintailType with
    | .boolean =>
      match mysqlBool value with
      | some value => .ok (.boolean value)
      | none => mappingError table column "expected a MySQL boolean/integer value"
    | .int8 | .int16 | .int32 | .int64 =>
      match mysqlI64 value with
      | some value =>
        if signedFits column.pintailType value.toInt then .ok (.int64 value)
        else mappingError table column "signed value exceeds the declared source width"
      | none => mappingError table column "expected a signed integer"
    | .uint8 | .uint16 | .uint32 | .uint64 | .year =>
      let read :=
        match isType column "bit", value with
        | true, .bytes bytes =>
          if bytes.length ≤ 8 then some (UInt64.ofNat (beNat bytes)) else none
        | _, value => mysqlU64 value
      match read with
      | some value =>
        if unsignedFits column.pintailType value.toNat then .ok (.uint64 value)
        else mappingError table column "unsigned value exceeds the declared source width"
      | none => mappingError table column "expected an unsigned integer"
    | .utf8 =>
      match mysqlText lib value with
      | some text =>
        if isType column "char" then
          .ok (.utf8 (String.ofList (text.toList.rdropWhile (· == ' '))))
        else .ok (.utf8 text)
      | none => mappingError table column "value is not valid UTF-8"
    | .binary =>
      match mysqlBytes lib value with
      | some bytes => .ok (.binary bytes)
      | none => mappingError table column "expected binary bytes"
    | _ => lib.otherValue table column value

def decodeValue (value : Except String MysqlValue) : Except CdcError Value :=
  match value with
  | .error reason => .error (.decode s!"{table}.{column.name}: {reason}")
  | .ok value => do
    let adapted ← adaptBinlogValue lib column value
    match mapMysqlValue lib table column adapted with
    | .ok value => return value
    | .error reason => throw (.decode reason)

end Mapping

inductive RowAlignment
  | positional
  | byName (imageToSchema : List (Option ℕ))

section Rows

variable (lib : Libraries) (table : SourceTable)

def alignedIndex (alignment : RowAlignment) (ordinal : ℕ) : Except CdcError (Option ℕ) :=
  match alignment with
  | .positional =>
    if table.columns.length ≤ ordinal then
      .error (.decode (s!"{table.name} row image column {ordinal} is beyond its " ++
        s!"{table.columns.length}-column schema"))
    else .ok (some ordinal)
  | .byName imageToSchema => .ok (imageToSchema.getD ordinal none)

def decodeCell (alignment : RowAlignment) (values : List Value)
    (cell : Except String MysqlValue × ℕ) : Except CdcError (List Value) := do
  let index ← alignedIndex table alignment cell.2
  match index.bind fun index => table.columns[index]?.map (index, ·) with
  | none => return values
  | some (index, column) =>
    let value ← decodeValue lib table.name column cell.1
    return values.set index value

/-- One row image in the column order of the schema; the columns it leaves out read as null. -/
def decodeRow (row : List (Except String MysqlValue)) (alignment : RowAlignment)
    (present : List ℕ) : Except CdcError (List Value) :=
  if row.length ≠ present.length then
    .error (.decode (s!"{table.name} row image carries {row.length} values for " ++
      s!"{present.length} present columns"))
  else (row.zip present).foldlM (decodeCell lib table alignment)
    (List.replicate table.columns.length .null)

def keyPart : Value → Option KeyPart
  | .null => none
  | .boolean value => some (.uint64 (if value then 1 else 0))
  | .int64 value => some (.int64 value)
  | .uint64 value => some (.uint64 value)
  | .float64 bits => some (.utf8 (lib.floatText bits))
  | .utf8 value | .enum _ value => some (.utf8 value)
  | .decimalAverage value => some (.utf8 value.label)
  | .binary value => some (.binary value)

def newKey (parts : List KeyPart) : Except CdcError PrimaryKey :=
  if h : parts = [] then .error (.schema .emptyPrimaryKey) else .ok ⟨parts, h⟩

def columnIndex (name : String) : Option ℕ :=
  table.columns.findIdx? fun column => sameName column.name name

def keyPartAt (values : List Value) (key : String) : Except CdcError KeyPart :=
  match columnIndex table key with
  | none =>
    .error (.decode s!"{table.name} key column {key} is absent from its probed schema")
  | some index =>
    match keyPart lib (values.getD index .null) with
    | some part => .ok part
    | none => .error (.decode s!"{table.name}.{key} key value is NULL")

def physicalKey (values : List Value) : Except CdcError PrimaryKey :=
  if table.key.mode = .appendRowId then
    .error (.decode s!"{table.name} has no stable source key")
  else do newKey (← table.key.columns.mapM (keyPartAt lib table values))

def insertKey (values : List Value) (version : UInt64) : Except CdcError PrimaryKey :=
  if table.key.mode = .appendRowId then newKey [.uint64 version]
  else physicalKey lib table values

end Rows

end Cdc

end Pintail
