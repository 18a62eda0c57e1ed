import Pintail.Probe.Source
import Pintail.Words.Digits
import Pintail.Words.Text

/-! # Changes of a column's declaration

An `ALTER TABLE` rewrites every stored value the new declaration cannot hold and emits no row event
for it. Whether a new declaration can be adopted onto the rows already copied is decided from the
two declarations: from the family of the type, from how much it holds, and from its members.
-/

namespace Pintail

def lowercase (text : String) : List Char := text.toList.map Char.toLower

namespace Probe

/-- Where the reader of a member list stands. -/
inductive LabelState
  | start
  | spaces
  | inside (label : List Char)
  | escaped (label : List Char)
  | quoted (label : List Char)

def quote : Char := Char.ofNat 39

def backslash : Char := Char.ofNat 92

def readLabels : LabelState → List Char → Option (List String)
  | .start, [] => some []
  | .start, c :: rest => if c = quote then readLabels (.inside []) rest else none
  | .spaces, [] => some []
  | .spaces, c :: rest =>
    if c = ' ' then readLabels .spaces rest
    else if c = quote then readLabels (.inside []) rest else none
  | .inside _, [] => none
  | .inside label, c :: rest =>
    if c = backslash then readLabels (.escaped label) rest
    else if c = quote then readLabels (.quoted label) rest
    else readLabels (.inside (label ++ [c])) rest
  | .escaped _, [] => none
  | .escaped label, c :: rest => readLabels (.inside (label ++ [c])) rest
  | .quoted label, [] => some [String.ofList label]
  | .quoted label, c :: rest =>
    -- a doubled quote is an escaped quote, not the end
    if c = quote then readLabels (.inside (label ++ [quote])) rest
    else if c = ',' then (String.ofList label :: ·) <$> readLabels .spaces rest
    else none

def declarationLabels (columnType kind : String) : Option (List String) :=
  let declaration := Words.trimEnds columnType.toList
  let opening := kind.toList ++ ['(']
  if !opening.isPrefixOf (declaration.map Char.toLower) || declaration.getLast? != some ')' then
    none
  else
    (readLabels .start (declaration.drop opening.length).dropLast).filter (!·.isEmpty)

def declaredNumbers (columnType : List Char) : List ℕ :=
  match columnType.dropWhile (· ≠ '(') with
  | [] => []
  | _ :: inner =>
    if ')' ∈ inner then
      ((inner.takeWhile (· ≠ ')')).splitOn ',').filterMap fun part =>
        Words.unsigned? (2 ^ 64) (Words.trimEnds part)
    else []

inductive Family
  | signedInteger | unsignedInteger | decimal | float | double | bit
  | date | dateTime | timestamp | time | year
  | text | binary | enumeration | selection | json
  | other (dataType : String)
  deriving DecidableEq, Repr

def familyOf (dataType : String) (unsigned : Bool) : Family :=
  if dataType ∈ ["tinyint", "smallint", "mediumint", "int", "integer", "bigint", "bool",
      "boolean"] then if unsigned then .unsignedInteger else .signedInteger
  else if dataType ∈ ["decimal", "dec", "numeric", "fixed"] then .decimal
  else if dataType = "float" then .float
  else if dataType ∈ ["double", "double precision", "real"] then .double
  else if dataType = "bit" then .bit
  else if dataType = "date" then .date
  else if dataType = "datetime" then .dateTime
  else if dataType = "timestamp" then .timestamp
  else if dataType = "time" then .time
  else if dataType = "year" then .year
  else if dataType ∈ ["char", "varchar", "tinytext", "text", "mediumtext", "longtext"] then .text
  else if dataType ∈ ["binary", "varbinary", "tinyblob", "blob", "mediumblob", "longblob"] then
    .binary
  else if dataType = "enum" then .enumeration
  else if dataType = "set" then .selection
  else if dataType = "json" then .json
  else .other dataType

def integerBits (dataType : String) : Option ℕ :=
  if dataType ∈ ["bool", "boolean", "tinyint"] then some 8
  else if dataType = "smallint" then some 16
  else if dataType = "mediumint" then some 24
  else if dataType ∈ ["int", "integer"] then some 32
  else if dataType = "bigint" then some 64
  else none

def sizedBytes (dataType : String) : Option ℕ :=
  if dataType ∈ ["tinytext", "tinyblob"] then some 255
  else if dataType ∈ ["text", "blob"] then some 65535
  else if dataType ∈ ["mediumtext", "mediumblob"] then some 16777215
  else if dataType ∈ ["longtext", "longblob"] then some 4294967295
  else none

/-- The widest encoding of one character in a source character set. -/
def characterBytes (characterSet : Option String) : ℕ :=
  match characterSet.map fun set => String.ofList (lowercase set) with
  | none => 4
  | some set =>
    if set ∈ ["ascii", "latin1", "latin2", "latin5", "latin7", "binary", "cp1250", "cp1251",
        "cp1256", "cp1257", "cp850", "cp852", "cp866", "dec8", "greek", "hebrew", "hp8", "keybcs2",
        "koi8r", "koi8u", "macce", "macroman", "swe7", "tis620", "geostd8", "armscii8"] then 1
    else if set ∈ ["ucs2", "big5", "cp932", "euckr", "gb2312", "gbk", "sjis", "utf16le"] then 2
    else if set ∈ ["utf8", "utf8mb3", "ujis", "eucjpms"] then 3
    else 4

/-- The part of a declaration that decides whether a change to it rewrites stored values. -/
structure Declaration where
  family : Family
  capacity : Option ℕ
  numbers : List ℕ
  unsigned : Bool
  fixedWidth : Bool

end Probe

namespace SourceColumn

open Probe

variable (column : SourceColumn)

def dataType : String := String.ofList (lowercase column.mysqlDataType)

def numbers : List ℕ := declaredNumbers (lowercase column.mysqlColumnType)

def stringBytes : Option ℕ :=
  match sizedBytes column.dataType with
  | some bytes => some bytes
  | none => column.numbers.head?.map fun characters =>
    min (2 ^ 64 - 1) (characters *
      if column.dataType ∈ ["binary", "varbinary"] then 1 else characterBytes column.characterSet)

def spelledUnsigned : Bool := decide ("unsigned".toList <:+: lowercase column.mysqlColumnType)

def family : Family := familyOf column.dataType column.spelledUnsigned

def declaration : Declaration where
  family := column.family
  capacity :=
    match column.family with
    | .signedInteger | .unsignedInteger => integerBits column.dataType
    | .bit => some (column.numbers.headD 1)
    | .text | .binary => column.stringBytes
    | .dateTime | .timestamp | .time => some (column.numbers.headD 0)
    | _ => none
  numbers := column.numbers
  unsigned := column.spelledUnsigned &&
    column.family ∈ [.signedInteger, .unsignedInteger, .decimal, .float, .double]
  fixedWidth := column.dataType ∈ ["char", "binary"]

/-- Whether the column is generated and whether it is stored, by its expression and its extra. -/
def generatedFlags : Bool × Bool :=
  let extra := lowercase column.extra
  let stored := decide ("stored generated".toList <:+: extra)
  let generated := column.generationExpression ≠ "" ||
    decide ("virtual generated".toList <:+: extra) || stored
  (generated, generated && stored)

def virtualGenerated : Bool :=
  column.generatedFlags.1 && !column.generatedFlags.2 && !column.generatedStored

def isGenerated : Bool := column.generatedStored || column.virtualGenerated

end SourceColumn

namespace Probe

/-- What every stored value has to satisfy for a change to have rewritten none of them. -/
inductive StoredValueCheck
  | noNulls
  | integerWithin (minimum maximum : ℤ)
  | textFits (characters : Option ℕ) (bytes : ℕ)
  | binaryFits (bytes : ℕ)
  | labelsUnused (labels : List String)

def utf8Bytes (text : List Char) : ℕ := (text.map Char.utf8Size).sum

def StoredValueCheck.admits : StoredValueCheck → Value → Bool
  | .noNulls, value => value != .null
  | _, .null => true
  | .integerWithin minimum maximum, .int64 value => minimum ≤ value.toInt && value.toInt ≤ maximum
  | .integerWithin minimum maximum, .uint64 value =>
    minimum ≤ value.toNat && (value.toNat : ℤ) ≤ maximum
  | .integerWithin minimum maximum, .boolean flag =>
    minimum ≤ flag.toInt && flag.toInt ≤ maximum
  | .textFits characters bytes, .utf8 text =>
    utf8Bytes text.toList ≤ bytes && characters.all (text.toList.length ≤ ·)
  | .binaryFits bytes, .binary value => value.length ≤ bytes
  | .labelsUnused labels, .enum _ label => !labels.contains label
  | .labelsUnused labels, .utf8 label => !labels.contains label
  | _, _ => false

/-- What a change of declaration means for the values already stored. -/
structure Change where
  /-- Why the declaration alone cannot be adopted in place. -/
  reason : Option String
  /-- What the stored values have to satisfy, unless no reading of them can tell. -/
  checks : Option (List StoredValueCheck)

def Change.refuse (change : Change) (reason : String) (check : Option StoredValueCheck) :
    Change where
  reason := change.reason <|> some reason
  checks :=
    match check, change.checks with
    | some check, some checks => some (checks ++ [check])
    | _, _ => none

def narrowed (before after : Declaration) : Bool :=
  if before.family = .decimal then
    let digits (declaration : Declaration) : ℕ × ℕ :=
      let precision := declaration.numbers.headD 10
      let scale := declaration.numbers.getD 1 0
      (precision - scale, scale)
    (digits after).1 < (digits before).1 || (digits after).2 < (digits before).2
  else
    match before.capacity, after.capacity with
    | some before, some after => after < before
    | _, _ => false

section Judge

variable (previous refreshed : SourceColumn)

def generationChange : Option String :=
  if previous.isGenerated != refreshed.isGenerated then
    some (if refreshed.isGenerated then
        "became a generated column, so the source computed a value for every existing row"
      else
        "stopped being generated, so its values are no longer the ones the expression produced")
  else if !previous.isGenerated then none
  else if !previous.generationCaptured then
    some ("was recorded before generated expressions were read, so a change to this one " ++
      "cannot be ruled out")
  else if Words.trimEnds previous.generationExpression.toList ≠
      Words.trimEnds refreshed.generationExpression.toList then
    some "changed its generated expression, which recomputes every existing row"
  else none

/-- The character sets that encode no character longer than UTF-8 does. -/
def narrowSets : List (List Char) :=
  ["utf8mb4".toList, "utf8mb3".toList, "utf8".toList, "latin1".toList, "ascii".toList]

def fitsCheck : Option StoredValueCheck :=
  let after := refreshed.declaration
  match after.family with
  | .unsignedInteger => (after.capacity.filter (· ≤ 64)).map fun bits =>
    .integerWithin 0 (2 ^ bits - 1)
  | .signedInteger => (after.capacity.filter (· ≤ 64)).map fun bits =>
    .integerWithin (-2 ^ (bits - 1)) (2 ^ (bits - 1) - 1)
  | .text =>
    match refreshed.characterSet.map lowercase with
    | none => none
    | some set =>
      if previous.characterSet.map lowercase ≠ some set ∨ set ∉ narrowSets then none
      else if refreshed.dataType ∈ ["char", "varchar"] then
        after.numbers.head?.map fun characters => .textFits (some characters) (2 ^ 64 - 1)
      else after.capacity.map fun bytes => .textFits none bytes
  | .binary => after.capacity.map .binaryFits
  | _ => none

def labels (kind : String) : Option (List String × List String) := do
  return (← declarationLabels previous.mysqlColumnType kind,
    ← declarationLabels refreshed.mysqlColumnType kind)

/-- The rewrites a declaration permits that its capacity does not show. -/
def rewriteBeyondWidth : Option (String × Option StoredValueCheck) :=
  let column := s!"column {refreshed.name}"
  if !previous.declaration.fixedWidth && refreshed.declaration.fixedWidth then
    some (s!"{column} became the fixed-width {refreshed.mysqlColumnType}, which pads or strips " ++
      s!"every value {previous.mysqlColumnType} stored", none)
  else
    match previous.declaration.family with
    | .enumeration =>
      match labels previous refreshed "enum" with
      | none => some (s!"{column} declares an ENUM whose members cannot be read", none)
      | some (before, after) =>
        let lost := before.filter fun label => !after.contains label
        lost.head?.map fun first =>
          (s!"{column} no longer declares the ENUM member {first}, so the source replaced it " ++
            "with the empty label in every row holding it", some (.labelsUnused lost))
    | .selection =>
      match labels previous refreshed "set" with
      | none => some (s!"{column} declares a SET whose members cannot be read", none)
      | some (before, after) =>
        if before.isPrefixOf after then none
        else some (s!"{column} reordered or dropped SET members, which re-renders the values " ++
          "already stored", none)
    | .other _ =>
      if previous.mysqlColumnType ≠ refreshed.mysqlColumnType then
        some (s!"{column} changed from {previous.mysqlColumnType} to " ++
          s!"{refreshed.mysqlColumnType}, a type whose stored values this cannot reason about",
          none)
      else none
    | _ => none

def judgeColumnChange : Change :=
  let change : Change := ⟨none, some []⟩
  let column := s!"column {refreshed.name}"
  match generationChange previous refreshed with
  | some detail => change.refuse s!"{column} {detail}" none
  | none =>
    let change :=
      if previous.nullable && !refreshed.nullable then
        change.refuse s!"{column} became NOT NULL, which rewrites the NULLs already stored"
          (some .noNulls)
      else change
    let before := previous.declaration
    let after := refreshed.declaration
    if before.unsigned ≠ after.unsigned then
      change.refuse (s!"{column} changed signedness from {previous.mysqlColumnType} to " ++
        s!"{refreshed.mysqlColumnType}, which converts every negative value the source held to " ++
        "zero") none
    else if before.family ≠ after.family then
      change.refuse (s!"{column} changed from {previous.mysqlDataType} to " ++
        s!"{refreshed.mysqlDataType}, which converts every stored value") none
    else
      let change :=
        if narrowed before after then
          change.refuse (s!"{column} narrowed from {previous.mysqlColumnType} to " ++
            s!"{refreshed.mysqlColumnType}, which clips or truncates the values already stored")
            (fitsCheck previous refreshed)
        else change
      match rewriteBeyondWidth previous refreshed with
      | some (reason, check) => change.refuse reason check
      | none => change

end Judge

end Probe

end Pintail
