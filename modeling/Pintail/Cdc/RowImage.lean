import Pintail.Bytes.Reads
import Pintail.Cdc.Decoder

/-! # Row images

A rows event is a run of row images, each a bitmap of its nulls followed by the values that are not
null. A plan resolves once how the bytes of every column of a table map are framed and read; what a
reader declines goes to the general decoder on the same bytes.
-/

namespace Pintail.Cdc

open Bytes List

def groupDigits : ℕ := 9

def partialGroupBytes (digits : ℕ) : ℕ := [0, 1, 1, 2, 2, 3, 3, 4, 4, 4].getD digits 0

def signedBigEndian (bytes : List UInt8) : ℤ :=
  let magnitude : ℤ := beNat bytes
  if bytes.head?.any (0x80 ≤ ·) then magnitude - 256 ^ bytes.length else magnitude

def digitsText (value width : ℕ) : List Char :=
  (range width).reverse.map fun position => Nat.digitChar (value / 10 ^ position % 10)

def numberText (value : ℕ) : List Char :=
  let width := ((range 10).findIdx? fun width => value < 10 ^ (width + 1)).getD 9 + 1
  digitsText value width

def decimalGroup (raw : List UInt8) (flip : UInt8) (position length digits : ℕ) : Option ℕ := do
  let bytes ← (range' position length).mapM fun index => do
    let byte := (← raw[index]?) ^^^ flip
    let byte := if index = 0 then byte ^^^ 0x80 else byte
    if index = position ∧ 0x80 ≤ byte then none else some byte
  let value := beNat bytes
  if value < 10 ^ digits then some value else none

def decimalGroups (raw : List UInt8) (flip : UInt8) :
    ℕ → List (ℕ × ℕ) → Option (List (ℕ × ℕ))
  | _, [] => some []
  | position, (length, digits) :: groups => do
    let value ← decimalGroup raw flip position length digits
    return (value, digits) :: (← decimalGroups raw flip (position + length) groups)

def integerText (started : Bool) : List (ℕ × ℕ) → List Char × Bool
  | [] => ([], started)
  | (value, _) :: groups =>
    if started then
      let (text, started) := integerText true groups
      (digitsText value groupDigits ++ text, started)
    else if value ≠ 0 then
      let (text, started) := integerText true groups
      (numberText value ++ text, started)
    else integerText false groups

def integerGroups (digits : ℕ) : List (ℕ × ℕ) :=
  let leading := digits % groupDigits
  (if 0 < leading then [(partialGroupBytes leading, leading)] else []) ++
    replicate (digits / groupDigits) (4, groupDigits)

def fractionGroups (scale : ℕ) : List (ℕ × ℕ) :=
  let trailing := scale % groupDigits
  replicate (scale / groupDigits) (4, groupDigits) ++
    (if 0 < trailing then [(partialGroupBytes trailing, trailing)] else [])

/-- The text of a packed decimal, none for a group out of the range of its digits. -/
def decimalText (raw : List UInt8) (precision scale : ℕ) : Option String := do
  let negative := (← raw.head?) < 0x80
  let flip : UInt8 := if negative then 0xff else 0
  let before := integerGroups (precision - scale)
  let integer ← decimalGroups raw flip 0 before
  let (text, started) := integerText false integer
  if !started && scale == 0 then return "0"
  let fraction ← decimalGroups raw flip (before.map Prod.fst).sum (fractionGroups scale)
  return String.ofList ((if negative then ['-'] else []) ++ (if started then text else ['0']) ++
    (if 0 < scale then ['.'] else []) ++
    fraction.flatMap fun (value, digits) => digitsText value digits)

def decimalSize (precision scale : ℕ) : ℕ :=
  let digits := precision - scale
  digits / groupDigits * 4 + partialGroupBytes (digits % groupDigits) +
    scale / groupDigits * 4 + partialGroupBytes (scale % groupDigits)

def fractionText (micros fsp : ℕ) : List Char :=
  if fsp = 0 then [] else '.' :: digitsText (micros / 10 ^ (6 - min fsp 6)) (min fsp 6)

def dateText (year month day : ℕ) : List Char :=
  digitsText year 4 ++ '-' :: digitsText month 2 ++ '-' :: digitsText day 2

def datetimeValue (year month day hour minute second micros fsp : ℕ) : Value :=
  if year = 0 ∧ month = 0 ∧ day = 0 then
    .utf8 (String.ofList ("0000-00-00 00:00:00".toList ++
      (if 0 < fsp then '.' :: replicate fsp '0' else [])))
  else if 9999 < year ∨ 12 < month ∨ 31 < day ∨ 24 ≤ hour ∨ 60 ≤ minute ∨ 60 ≤ second ∨
      1000000 ≤ micros then .null
  else
    .utf8 (String.ofList (dateText year month day ++ ' ' :: digitsText hour 2 ++
      ':' :: digitsText minute 2 ++ ':' :: digitsText second 2 ++ fractionText micros fsp))

def fractionBytes : UInt8 → ℕ
  | 1 | 2 => 1
  | 3 | 4 => 2
  | 5 | 6 => 3
  | _ => 0

def fractionMicros (bytes : List UInt8) : ℤ :=
  match bytes.length with
  | 1 => signedBigEndian bytes * 10000
  | 2 => signedBigEndian bytes * 100
  | 3 => signedBigEndian bytes
  | _ => 0

def packedDatetime (raw : List UInt8) (fsp : ℕ) : Option Value :=
  if raw.length < 5 then none
  else
    let whole : ℤ := beNat (raw.take 5) - 0x8000000000
    let packed := (whole * 2 ^ 24 + fractionMicros (raw.drop 5)).natAbs
    let clockAndDate := packed >>> 24
    let date := clockAndDate >>> 17
    let yearMonth := date >>> 5
    let clock := clockAndDate % 2 ^ 17
    some (datetimeValue (yearMonth / 13) (yearMonth % 13) (date % 2 ^ 5) (clock >>> 12)
      ((clock >>> 6) % 2 ^ 6) (clock % 2 ^ 6) (packed % 2 ^ 24) fsp)

def epochTimestamp (lib : Libraries) (raw : List UInt8) (fsp : ℕ) : Option Value :=
  if raw.length < 4 then none
  else
    let seconds := signedBigEndian (raw.take 4)
    let micros := fractionMicros (raw.drop 4)
    if micros < 0 ∨ 1000000 ≤ micros then none
    else if seconds = 0 then some (datetimeValue 0 0 0 0 0 0 0 fsp)
    else do
      let (year, month, day, hour, minute, second) ← lib.civil seconds
      if year < 0 ∨ 65535 < year then none
      else some (datetimeValue year.toNat month day hour minute second micros.toNat fsp)

def packedDate (raw : List UInt8) : Option Value :=
  let packed := leNat raw
  let year := packed >>> 9
  let month := (packed >>> 5) % 16
  let day := packed % 32
  if year = 0 ∧ month = 0 ∧ day = 0 then some (.utf8 "0000-00-00")
  else if 9999 < year ∨ 12 < month ∨ 31 < day then some .null
  else some (.utf8 (String.ofList (dateText year month day)))

/-- The integer type a stored integer is checked against. -/
inductive IntegerTarget
  | boolean
  | signed (dataType : DataType)
  | unsigned (dataType : DataType)
  deriving DecidableEq, Repr

/-- An integer as read: signed where it fits, otherwise kept unsigned. -/
inductive IntegerRead
  | signed (value : Int64)
  | unsigned (value : UInt64)
  deriving DecidableEq, Repr

/-- The eight bytes of a shorter integer, with its sign unless the table map says unsigned. -/
def widened (raw : List UInt8) (negative : Bool) : List UInt8 :=
  raw ++ replicate (8 - raw.length) (if negative then 0xff else 0)

def readInteger (raw : List UInt8) (unsignedInMap : Bool) (declaredWidth : Option ℕ) :
    IntegerRead :=
  let negative := !unsignedInMap && raw.getLast?.any (0x80 ≤ ·)
  let wide := widened raw negative
  let bits := UInt64.ofNat (leNat wide)
  let read : IntegerRead :=
    if negative || decide (bits.toNat < 2 ^ 63) then .signed bits.toInt64 else .unsigned bits
  match read, declaredWidth with
  -- a column declared unsigned takes the low bytes of a signed reading
  | .signed _, some width => .unsigned (UInt64.ofNat (leNat (wide.take width)))
  | read, _ => read

def integerValue (raw : List UInt8) (unsignedInMap : Bool) (declaredWidth : Option ℕ)
    (target : IntegerTarget) : Option Value :=
  let read := readInteger raw unsignedInMap declaredWidth
  match target with
  | .boolean => some (.boolean (read ≠ .signed 0 && read ≠ .unsigned 0))
  | .signed dataType => do
    let value ←
      match read with
      | .signed value => some value
      | .unsigned value => if value.toNat < 2 ^ 63 then some value.toInt64 else none
    if signedFits dataType value.toInt then some (.int64 value) else none
  | .unsigned dataType => do
    let value ←
      match read with
      | .signed value => if 0 ≤ value.toInt then some value.toUInt64 else none
      | .unsigned value => some value
    if unsignedFits dataType value.toNat then some (.uint64 value) else none

/-- How the bytes of one column become a stored value. -/
inductive Reader
  | integer (width : ℕ) (declaredWidth : Option ℕ) (target : IntegerTarget)
  | float
  | double
  | text (lengthBytes : ℕ)
  | binary (lengthBytes width : ℕ)
  | decimal (precision scale size : ℕ)
  | dateTime (fraction fsp : ℕ)
  | timestamp (fraction fsp : ℕ)
  | date
  | enum (width : ℕ) (labels : List String)
  | general
  deriving DecidableEq, Repr

/-- The bytes of the length before a value of this type; none where the table map does not say. -/
def lengthBytes (kind : ColumnType) (metadata : List UInt8) : Option ℕ :=
  match kind with
  | .varchar | .varString =>
    match metadata with
    | low :: high :: _ => some (if low.toNat + 256 * high.toNat < 256 then 1 else 2)
    | _ => none
  | .string =>
    match metadata with
    | first :: second :: _ =>
      let declared :=
        if first = 0 then second.toNat * 256
        else if first &&& 0x30 = 0x30 then second.toNat
        -- the two bits above a byte of length are folded into the type byte, inverted
        else second.toNat + ((first &&& 0x30) ^^^ 0x30).toNat * 16
      some (if declared < 256 then 1 else 2)
    | _ => none
  | .tinyBlob | .mediumBlob | .longBlob | .blob | .geometry =>
    match metadata with
    | bytes :: _ => if 1 ≤ bytes ∧ bytes ≤ 4 then some bytes.toNat else none
    | [] => none
  | _ => none

namespace Reader

variable (column : SourceColumn)

/-- The types whose stored value is derived from the declaration. -/
def special : Bool := isType column "enum" || isType column "set" || isType column "timestamp"

def declaredWidth : Option ℕ :=
  if !declaredUnsigned column then none
  else if isType column "tinyint" then some 1
  else if isType column "smallint" then some 2
  else if isType column "mediumint" then some 3
  else if isType column "int" || isType column "integer" then some 4
  else if isType column "bigint" then some 8
  else none

def integerTarget : DataType → Option IntegerTarget
  | .boolean => some .boolean
  | .int8 => some (.signed .int8)
  | .int16 => some (.signed .int16)
  | .int32 => some (.signed .int32)
  | .int64 => some (.signed .int64)
  | .uint8 => some (.unsigned .uint8)
  | .uint16 => some (.unsigned .uint16)
  | .uint32 => some (.unsigned .uint32)
  | .uint64 => some (.unsigned .uint64)
  | .year => some (.unsigned .year)
  | _ => none

def bytesReader (lengthBytes : ℕ) : Reader :=
  if special column then .general
  else
    let unicode := column.characterSet.all fun set =>
      ["utf8mb4", "utf8", "utf8mb3", "ascii"].any (sameName set)
    match isTextual column, column.pintailType with
    | true, .utf8 => if unicode then .text lengthBytes else .general
    | false, .binary => .binary lengthBytes ((fixedBinaryWidth column).getD 0)
    | _, _ => .general

def integerReader (kind : ColumnType) (unsigned : Bool) (width : ℕ) : Reader :=
  match integerTarget column.pintailType with
  | none => .general
  | some target =>
    if special column then .general
    -- three bytes carry their sign only by the declaration
    else if kind = .int24 ∧
        (!isType column "mediumint" ∨ unsigned ∧ (declaredWidth column).isNone) then .general
    else .integer width (declaredWidth column) target

def resolve (lib : Libraries) (kind : ColumnType) (metadata : List UInt8) (unsigned : Bool) :
    Reader :=
  match kind with
  | .tiny => integerReader column kind unsigned 1
  | .short => integerReader column kind unsigned 2
  | .int24 => integerReader column kind unsigned 3
  | .long => integerReader column kind unsigned 4
  | .longlong => integerReader column kind unsigned 8
  | .float | .double =>
    if !special column && (column.pintailType == .float32 || column.pintailType == .float64) then
      if kind = .float then .float else .double
    else .general
  | .varchar | .varString | .string | .tinyBlob | .mediumBlob | .longBlob | .blob | .geometry =>
    match lengthBytes kind metadata with
    | some bytes => bytesReader column bytes
    | none => .general
  | .newDecimal =>
    match metadata, column.pintailType with
    | precision :: scale :: _, .decimal _ _ =>
      if special column || isTextual column || precision < 1 || 65 < precision ||
          precision < scale then .general
      else .decimal precision.toNat scale.toNat (decimalSize precision.toNat scale.toNat)
    | _, _ => .general
  | .dateTime2 =>
    match metadata, column.pintailType with
    | precision :: _, .dateTime64 fsp =>
      if special column then .general else .dateTime (fractionBytes precision) fsp.toNat
    | _, _ => .general
  | .timestamp2 =>
    match metadata, column.pintailType with
    | precision :: _, .dateTime64 fsp =>
      if isType column "timestamp" then .timestamp (fractionBytes precision) fsp.toNat
      else .general
    | _, _ => .general
  | .newDate =>
    if !special column && column.pintailType == .date32 then .date else .general
  | .enum =>
    match metadata with
    | _ :: width :: _ =>
      if (width = 1 ∨ width = 2) ∧ isType column "enum" ∧ column.pintailType = .utf8 then
        match lib.declarationLabels column.mysqlColumnType "enum" with
        | some labels => .enum width.toNat labels
        | none => .general
      else .general
    | _ => .general
  | .other _ => .general

/-- The bytes of the next value, without those that only give its length. -/
inductive Framed
  | fixed (length : ℕ)
  | counted (lengthBytes : ℕ)
  | unframed

def framing : Reader → Framed
  | .integer width _ _ | .enum width _ => .fixed width
  | .float => .fixed 4
  | .double => .fixed 8
  | .decimal _ _ size => .fixed size
  | .dateTime fraction _ => .fixed (5 + fraction)
  | .timestamp fraction _ => .fixed (4 + fraction)
  | .date => .fixed 3
  | .text lengthBytes | .binary lengthBytes _ => .counted lengthBytes
  | .general => .unframed

/-- The stored value of a framed body, none to leave it to the general decoder. -/
def value (lib : Libraries) (reader : Reader) (body : List UInt8) (unsignedInMap : Bool) :
    Option Value :=
  match reader with
  | .integer _ declaredWidth target => integerValue body unsignedInMap declaredWidth target
  | .float => if body.length = 4 then some (.float64 (lib.widen (UInt32.ofNat (leNat body))))
    else none
  | .double => if body.length = 8 then some (.float64 (UInt64.ofNat (leNat body))) else none
  | .text _ => .utf8 <$> utf8? body
  | .binary _ width => some (.binary (padFixedBinary body width))
  | .decimal precision scale _ => .utf8 <$> decimalText body precision scale
  | .dateTime _ fsp => packedDatetime body fsp
  | .timestamp _ fsp => epochTimestamp lib body fsp
  | .date => packedDate body
  | .enum _ labels =>
    let index := leNat body
    if index = 0 then some (.utf8 "") else .utf8 <$> labels[index - 1]?
  | .general => none

end Reader

/-- Where the value at one ordinal of the table map goes. -/
inductive Placement
  | column (index : ℕ)
  | dropped
  | beyond
  deriving DecidableEq, Repr

structure PlanColumn where
  kind : ColumnType
  metadata : List UInt8
  unsigned : Bool
  placement : Placement
  reader : Reader
  deriving DecidableEq, Repr

/-- Reads of a row image; the error of the reading itself ends the event, the one in its result
refuses the row. -/
abbrev ImageReader := Decode UInt8 CdcError

def take (length : ℕ) (table : String) : ImageReader (List UInt8) := fun data =>
  if data.length < length then .error (.decode s!"{table} row image ends inside a value")
  else .ok (data.take length, data.drop length)

namespace PlanColumn

variable (lib : Libraries) (table : String) (target : Option SourceColumn)

def general (column : PlanColumn) : ImageReader (Except CdcError Value) := fun data =>
  match lib.deserialize column.kind column.metadata column.unsigned data with
  | .error reason => .error (.decode s!"{table} row image: {reason}")
  | .ok (value, rest) =>
    .ok (target.elim (.ok .null) fun source => decodeValue lib table source value, rest)

/-- What a framed value is stored as; one the reader declines is read once more from its bytes. -/
def framedValue (column : PlanColumn) (whole body : List UInt8) : Except CdcError Value :=
  if target.isNone then .ok .null
  else
    match column.reader.value lib body column.unsigned with
    | some value => .ok value
    | none =>
      match (column.general lib table target).run whole with
      | .ok (decoded, _) => decoded
      | .error error => .error error

def read (column : PlanColumn) : ImageReader (Except CdcError Value) :=
  match column.reader.framing with
  | .fixed length => do
    let body ← take length table
    pure (column.framedValue lib table target body body)
  | .counted lengthBytes => do
    let head ← take lengthBytes table
    let body ← take (leNat head) table
    pure (column.framedValue lib table target (head ++ body) body)
  | .unframed => column.general lib table target

end PlanColumn

/-- Everything about the row images of a table map that does not vary by row. -/
structure RowPlan where
  source : SourceTable
  columns : List PlanColumn
  key : List ℕ
  deriving DecidableEq, Repr

namespace RowPlan

def placementOf (table : SourceTable) (alignment : RowAlignment) (ordinal : ℕ) : Placement :=
  match alignment with
  | .positional => if ordinal < table.columns.length then .column ordinal else .beyond
  | .byName imageToSchema => (imageToSchema.getD ordinal none).elim .dropped .column

/-- A column that goes nowhere is only stepped over. -/
def readerAt (lib : Libraries) (table : SourceTable) (kind : ColumnType) (metadata : List UInt8)
    (unsigned : Bool) : Placement → Option Reader
  | .column index => do
    let column ← table.columns[index]?
    pure (Reader.resolve column lib kind metadata unsigned)
  | .dropped | .beyond => some .general

def planColumn (lib : Libraries) (table : SourceTable) (alignment : RowAlignment) :
    (ColumnType × List UInt8 × Bool) × ℕ → Option PlanColumn
  | ((kind, metadata, unsigned), ordinal) => do
    let placement := placementOf table alignment ordinal
    let reader ← readerAt lib table kind metadata unsigned placement
    pure { kind, metadata, unsigned, placement, reader }

def keyIndexes (table : SourceTable) : Option (List ℕ) :=
  if table.key.mode = .appendRowId then some []
  else table.key.columns.mapM (columnIndex table)

def forColumns (lib : Libraries) (table : SourceTable)
    (described : List (ColumnType × List UInt8 × Bool)) (alignment : RowAlignment) :
    Option RowPlan := do
  let columns ← described.zipIdx.mapM (planColumn lib table alignment)
  let key ← keyIndexes table
  pure { source := table, columns, key }

variable (lib : Libraries) (plan : RowPlan)

def isNull (nulls : List UInt8) (position : ℕ) : Bool :=
  (nulls.getD (position / 8) 0).toNat.testBit (position % 8)

def target (onlyKey : Bool) : Placement → Option ℕ
  | .column index => if !onlyKey || plan.key.contains index then some index else none
  | .dropped | .beyond => none

def beyondError (ordinal : ℕ) : CdcError :=
  .decode (s!"{plan.source.name} row image column {ordinal} is beyond its " ++
    s!"{plan.source.columns.length}-column schema")

/-- The first reason to refuse a row stays. -/
def refuse (refused : Option CdcError) (error : CdcError) : Option CdcError :=
  some (refused.getD error)

def readCells (onlyKey : Bool) (nulls : List UInt8) :
    ℕ → List ℕ → List Value → Option CdcError → ImageReader (List Value × Option CdcError)
  | _, [], values, refused => pure (values, refused)
  | position, ordinal :: present, values, refused =>
    match plan.columns[ordinal]? with
    | none => throw (.decode (s!"{plan.source.name} row image names column {ordinal} of a " ++
        s!"{plan.columns.length}-column table map"))
    | some column => do
      let refused := if column.placement = .beyond then refuse refused (plan.beyondError ordinal)
        else refused
      if isNull nulls position then readCells onlyKey nulls (position + 1) present values refused
      else
        let target := plan.target onlyKey column.placement
        let decoded ← column.read lib plan.source.name
          (target.bind fun index => plan.source.columns[index]?)
        match decoded, target with
        | .ok value, some index =>
          readCells onlyKey nulls (position + 1) present (values.set index value) refused
        | .ok _, none => readCells onlyKey nulls (position + 1) present values refused
        | .error error, _ =>
          readCells onlyKey nulls (position + 1) present values (refuse refused error)

def readImage (present : List ℕ) (onlyKey : Bool) :
    ImageReader (Except CdcError (List Value)) := do
  let nulls ← take ((present.length + 7) / 8) plan.source.name
  let (values, refused) ← plan.readCells lib onlyKey nulls 0 present
    (replicate plan.source.columns.length .null) none
  pure (match refused with
    | some error => .error error
    | none => .ok values)

def keyPartAt (values : List Value) (index : ℕ) : Except CdcError KeyPart :=
  match Cdc.keyPart lib (values.getD index .null) with
  | some part => .ok part
  | none =>
    let name := (plan.source.columns[index]?.map SourceColumn.name).getD ""
    .error (.decode s!"{plan.source.name}.{name} key value is NULL")

def keyOf (values : List Value) : Except CdcError PrimaryKey :=
  if plan.key = [] then .error (.decode s!"{plan.source.name} has no stable source key")
  else do newKey (← plan.key.mapM (plan.keyPartAt lib values))

end RowPlan

end Pintail.Cdc
