import Mathlib.Data.List.Forall2
import Pintail.Probe.Source
import Pintail.Words.Text
import Std.Data.String.ToInt

/-! # Binding an `INSERT`

A local `INSERT ... VALUES` is bound row by row: the values are typed against their columns, the key
is built from the key columns, and a key seen before in the statement is refused. Keys are told
apart by the text of error 1062, in which the parts are joined by a dash. Two keys have one text
exactly when their parts, cut at the dashes within them, give the same pieces.
-/

namespace Pintail.Write

open List Words

inductive WriteError
  | unsupported (message : String)
  | invalid (message : String)
  | tableExists (table : String)
  | unknownTable (table : String)
  | unknownColumn (column : String)
  | duplicateKey (key : String)
  | notNull (column : String)
  | dataTooLong (column : String) (row : ℕ)
  | incorrectStringValue (column : String) (row : ℕ)

/-- What a literal is worth in a column. -/
structure Typing (Expr : Type) where
  literalValue : Expr → SourceColumn → Except WriteError Value
  typedValue : String → SourceColumn → Except WriteError Value

/-- An `INSERT` as parsed; what is not supported stands for the error it gives. -/
structure Insert (Expr : Type) where
  features : Except WriteError Unit
  table : Except WriteError String
  columns : List (Except WriteError String)
  rows : Except WriteError (List (List Expr))

inductive Statement (Expr : Type)
  | insert (insert : Insert Expr)
  | other

structure InsertPlan where
  table : String
  rows : List StoredRow

/-- The length of a character of UTF-8 by its first byte, `0` where no longer one begins so. -/
def utf8Width (byte : UInt8) : ℕ :=
  if 0xc2 ≤ byte ∧ byte ≤ 0xdf then 2
  else if 0xe0 ≤ byte ∧ byte ≤ 0xef then 3
  else if 0xf0 ≤ byte ∧ byte ≤ 0xf4 then 4
  else 0

/-- Whether a byte may follow those of a character begun: the second excludes overlong forms,
surrogates and what lies beyond the last character. -/
def continues (begun : List UInt8) (byte : UInt8) : Bool :=
  if begun = [0xe0] then 0xa0 ≤ byte && byte ≤ 0xbf
  else if begun = [0xed] then 0x80 ≤ byte && byte ≤ 0x9f
  else if begun = [0xf0] then 0x90 ≤ byte && byte ≤ 0xbf
  else if begun = [0xf4] then 0x80 ≤ byte && byte ≤ 0x8f
  else 0x80 ≤ byte && byte ≤ 0xbf

def decodeChar (first : UInt8) (others : List UInt8) : Char :=
  Char.ofNat <| others.foldl (fun code byte => code * 64 + byte.toNat % 64)
    (first.toNat % 2 ^ (6 - others.length))

def replacement : Char := Char.ofNat 0xfffd

/-- The text a byte gives where no character is begun, and the character it begins. -/
def readFirst (byte : UInt8) : List Char × List UInt8 :=
  if byte < 0x80 then ([Char.ofNat byte.toNat], [])
  else if utf8Width byte = 0 then ([replacement], [])
  else ([], [byte])

/-- What cannot be continued gives one replacement character, and the byte is read anew. -/
def readByte (byte : UInt8) : List UInt8 → List Char × List UInt8
  | [] => readFirst byte
  | first :: others =>
    if continues (first :: others) byte then
      if others.length + 2 = utf8Width first then ([decodeChar first (others ++ [byte])], [])
      else ([], first :: others ++ [byte])
    else (replacement :: (readFirst byte).1, (readFirst byte).2)

/-- `String::from_utf8_lossy`, after the bytes of a character that is begun. -/
def fromUtf8Lossy (begun : List UInt8) : List UInt8 → List Char
  | [] => if begun = [] then [] else [replacement]
  | byte :: rest => (readByte byte begun).1 ++ fromUtf8Lossy (readByte byte begun).2 rest

def renderPart : KeyPart → String
  | .int64 value => toString value.toInt
  | .uint64 value => toString value.toNat
  | .utf8 text => text
  | .binary bytes => String.ofList (fromUtf8Lossy [] bytes)

def renderKey (key : PrimaryKey) : String := "-".intercalate (key.parts.map renderPart)

variable {Expr : Type} (typing : Typing Expr) (table : SourceTable)

def keyPart (name : String) : Value → Except WriteError KeyPart
  | .int64 value => .ok (.int64 value)
  | .uint64 value => .ok (.uint64 value)
  | .boolean value => .ok (.int64 (if value then 1 else 0))
  | .utf8 text => .ok (.utf8 text)
  | .binary bytes => .ok (.binary bytes)
  | other => .error (.invalid s!"column '{name}' cannot be part of a primary key as {repr other}")

def position (name : String) : Except WriteError ℕ :=
  match table.columns.findIdx? fun column => sameName column.name name with
  | some position => .ok position
  | none => .error (.unknownColumn name)

def primaryKey (values : List Value) : Except WriteError PrimaryKey := do
  let parts ← table.key.columns.mapM fun name => do
    let position ← position table name
    keyPart name (values.getD position .null)
  if h : parts = [] then .error (.invalid "a primary key cannot be empty")
  else .ok ⟨parts, h⟩

def defaultValues : Except WriteError (List Value) :=
  table.columns.mapM fun column =>
    match column.defaultValue with
    | none => .ok .null
    | some default => typing.typedValue default column

/-- An error of a character value names the row of the statement. -/
def atRow (ordinal : ℕ) : WriteError → WriteError
  | .dataTooLong column _ => .dataTooLong column (ordinal + 1)
  | .incorrectStringValue column _ => .incorrectStringValue column (ordinal + 1)
  | error => error

def placeValues (ordinal : ℕ) (values : List Value) :
    List (SourceColumn × Expr) → Except WriteError (List Value)
  | [] => .ok values
  | (column, expr) :: rest => do
    let position ← position table column.name
    let value ← (typing.literalValue expr column).mapError (atRow ordinal)
    placeValues ordinal (values.set position value) rest

def checkNotNull (values : List Value) : Except WriteError Unit :=
  (table.columns.zip values).forM fun (column, value) =>
    if !column.nullable && value = .null then .error (.notNull column.name) else .ok ()

def rowValues (named : List SourceColumn) (ordinal : ℕ) (row : List Expr) :
    Except WriteError (List Value) := do
  if row.length ≠ named.length then
    .error <| .invalid <| "Column count doesn't match value count: " ++
      s!"{named.length} columns, {row.length} values"
  else
    let values ← defaultValues typing table
    let values ← placeValues typing table ordinal values (named.zip row)
    checkNotNull table values
    return values

def rowIdKey (id : ℕ) : PrimaryKey := ⟨[.uint64 (UInt64.ofNat (min id (2 ^ 64 - 1)))], by simp⟩

/-- The rows from one ordinal on, after keys that were rendered before. -/
def bindRows (firstRowId : UInt64) (named : List SourceColumn) (ordinal : ℕ)
    (seenKeys : List String) : List (List Expr) → Except WriteError (List StoredRow)
  | [] => .ok []
  | row :: rest => do
    let values ← rowValues typing table named ordinal row
    if table.key.mode = .appendRowId then
      let rows ← bindRows firstRowId named (ordinal + 1) seenKeys rest
      return ⟨rowIdKey (firstRowId.toNat + ordinal), values, 0, false⟩ :: rows
    else
      let key ← primaryKey table values
      if renderKey key ∈ seenKeys then .error (.duplicateKey (renderKey key))
      else
        let rows ←
          bindRows firstRowId named (ordinal + 1) (seenKeys ++ [renderKey key]) rest
        return ⟨key, values, 0, false⟩ :: rows

def namedColumns (columns : List (Except WriteError String)) :
    Except WriteError (List SourceColumn) :=
  if columns.isEmpty then .ok table.columns
  else columns.mapM fun column => do
    let name ← column
    match table.column? name with
    | some column => .ok column
    | none => .error (.unknownColumn name)

def checkAutoIncrement (named : List SourceColumn) : Except WriteError Unit :=
  match table.columns.find? fun column =>
      sameName column.extra "auto_increment" &&
        !named.any fun chosen => sameName chosen.name column.name with
  | none => .ok ()
  | some column => .error <| .unsupported <| s!"column '{column.name}' is AUTO_INCREMENT; " ++
      "a local table needs its value supplied"

/-- The checks before the rows: the columns the statement names, and its rows. -/
def insertRows : Statement Expr → Except WriteError (List SourceColumn × List (List Expr))
  | .other => .error (.unsupported "only INSERT is supported here")
  | .insert insert => do
    insert.features
    let target ← insert.table
    if !sameName target table.name then .error (.unknownTable target)
    else
      let named ← namedColumns table insert.columns
      let rows ← insert.rows
      checkAutoIncrement table named
      return (named, rows)

def bindInsertFrom (statement : Statement Expr) (firstRowId : UInt64) :
    Except WriteError InsertPlan := do
  let (named, rows) ← insertRows table statement
  let rows ← bindRows typing table firstRowId named 0 [] rows
  return ⟨table.name, rows⟩

def rowKeys (named : List SourceColumn) (ordinal : ℕ) :
    List (List Expr) → Except WriteError (List PrimaryKey)
  | [] => .ok []
  | row :: rest => do
    let values ← rowValues typing table named ordinal row
    let key ← primaryKey table values
    return key :: (← rowKeys named (ordinal + 1) rest)

def insertKeys (statement : Statement Expr) : Except WriteError (List PrimaryKey) := do
  let (named, rows) ← insertRows table statement
  rowKeys typing table named 0 rows

section Pieces

/-- The text of a part, cut at its dashes. -/
def pieces (part : KeyPart) : List (List Char) := (renderPart part).toList.splitOn '-'

theorem pieces_ne_nil (part : KeyPart) : pieces part ≠ [] := splitOn_ne_nil _ _

def keyPieces (key : PrimaryKey) : List (List Char) := key.parts.flatMap pieces

theorem splitOn_renderKey (key : PrimaryKey) :
    (renderKey key).toList.splitOn '-' = keyPieces key := by
  have hparts : key.parts.map (String.toList ∘ renderPart) ≠ [] := by simpa using key.nonempty
  rw [renderKey, String.toList_intercalate, map_map]
  exact (splitOn_intercalate_eq_flatMap '-' hparts).trans (flatMap_map _ _ _)

theorem renderKey_eq_iff {key other : PrimaryKey} :
    renderKey key = renderKey other ↔ keyPieces key = keyPieces other := by
  rw [← splitOn_renderKey, ← splitOn_renderKey, (splitOn_injective '-').eq_iff, String.toList_inj]

def SameKind : KeyPart → KeyPart → Prop
  | .int64 _, .int64 _ | .uint64 _, .uint64 _ | .utf8 _, .utf8 _ | .binary _, .binary _ => True
  | _, _ => False

/-- Bytes beyond ASCII may be read alike. -/
def Readable : KeyPart → Prop
  | .binary bytes => ∀ byte ∈ bytes, byte < 0x80
  | _ => True

def Dashless : KeyPart → Prop
  | .utf8 text => '-' ∉ text.toList
  | .binary bytes => 0x2d ∉ bytes
  | _ => True

variable {part other : KeyPart} {rest rest' : List (List Char)}

theorem map_fromUtf8Lossy {bytes : List UInt8} (h : ∀ byte ∈ bytes, byte < 0x80) :
    (fromUtf8Lossy [] bytes).map (fun c => UInt8.ofNat c.toNat) = bytes := by
  induction bytes with
  | nil => rfl
  | cons byte rest ih =>
    have hcode : ∀ n < 0x80, (Char.ofNat n).toNat = n := by decide
    rw [forall_mem_cons] at h
    simp [fromUtf8Lossy, readByte, readFirst, h.1, ih h.2, hcode byte.toNat h.1]

theorem renderPart_injOn (hkind : SameKind part other) (hpart : Readable part)
    (hother : Readable other) (h : renderPart part = renderPart other) : part = other := by
  cases part <;> cases other <;> try exact hkind.elim
  case int64.int64 value value' =>
    have hread := Int.toInt?_repr value.toInt
    rw [show value.toInt.repr = value'.toInt.repr from h, Int.toInt?_repr] at hread
    rw [Int64.toInt_inj.mp (Option.some.inj hread)]
  case uint64.uint64 value value' =>
    rw [UInt64.toNat_inj.mp (Nat.repr_injective h)]
  case utf8.utf8 => exact congrArg _ h
  case binary.binary bytes bytes' =>
    have h : fromUtf8Lossy [] bytes = fromUtf8Lossy [] bytes' := String.ofList_injective h
    rw [← map_fromUtf8Lossy hpart, h, map_fromUtf8Lossy hother]

theorem dash_notMem_toDigits (n : ℕ) : '-' ∉ Nat.toDigits 10 n := by
  intro h
  exact absurd (Nat.isDigit_of_mem_toDigits (by decide) (by decide) h) (by decide)

theorem dash_notMem_renderPart (hread : Readable part) (hdash : Dashless part)
    (hkind : ∀ value, part ≠ .int64 value) : '-' ∉ (renderPart part).toList := by
  cases part with
  | int64 value => exact absurd rfl (hkind value)
  | uint64 value =>
    rw [show renderPart (.uint64 value) = value.toNat.repr from rfl, Nat.toList_repr]
    exact dash_notMem_toDigits _
  | utf8 text => exact hdash
  | binary bytes =>
    rw [renderPart, String.toList_ofList]
    intro h
    apply hdash
    rw [← map_fromUtf8Lossy hread]
    exact mem_map_of_mem h

def hasSign : KeyPart → Bool
  | .int64 _ => true
  | _ => false

/-- A part is one piece, but the sign of a number puts an empty one before its digits. -/
theorem length_pieces (hread : Readable part) (hdash : Dashless part) :
    (pieces part).length = if hasSign part ∧ (pieces part).head? = some [] then 2 else 1 := by
  have hone : ∀ n, splitOn '-' (Nat.toDigits 10 n) = [Nat.toDigits 10 n] := fun n =>
    splitOn_eq_singleton (dash_notMem_toDigits n)
  by_cases hkind : ∃ value, part = .int64 value
  · obtain ⟨value, rfl⟩ := hkind
    rw [pieces, show renderPart (.int64 value) = value.toInt.repr from rfl, Int.repr_eq_if]
    by_cases hsign : 0 ≤ value.toInt
    · simp [hsign, hone]
    · simp [hsign, hone, hasSign, splitOn_cons_eq_if_modifyHead]
  · simp only [not_exists] at hkind
    rw [pieces, splitOn_eq_singleton (dash_notMem_renderPart hread hdash hkind)]
    cases part with
    | int64 value => exact absurd rfl (hkind value)
    | _ => rfl

/-- The first part can be told from the pieces of a whole key. -/
theorem pieces_append_inj (hkind : SameKind part other) (hpart : Readable part ∧ Dashless part)
    (hother : Readable other ∧ Dashless other) (h : pieces part ++ rest = pieces other ++ rest') :
    part = other ∧ rest = rest' := by
  have hhead : (pieces part).head? = (pieces other).head? := by
    have hwhole := congrArg head? h
    rwa [head?_append_of_ne_nil _ (pieces_ne_nil part),
      head?_append_of_ne_nil _ (pieces_ne_nil other)] at hwhole
  have hsign : hasSign part = hasSign other := by
    cases part <;> cases other <;> first | rfl | exact hkind.elim
  have hlength : (pieces part).length = (pieces other).length := by
    rw [length_pieces hpart.1 hpart.2, length_pieces hother.1 hother.2, hhead, hsign]
  obtain ⟨hpieces, hrest⟩ := append_inj h hlength
  have htext := String.toList_inj.mp (splitOn_injective '-' hpieces)
  exact ⟨renderPart_injOn hkind hpart.1 hother.1 htext, hrest⟩

/-- A key whose parts can be told from its text: only the last may hold a dash. -/
def Plain : List KeyPart → Prop
  | [] => True
  | [part] => Readable part
  | part :: parts => (Readable part ∧ Dashless part) ∧ Plain parts

theorem eq_of_flatMap_pieces {parts others : List KeyPart} (hkinds : Forall₂ SameKind parts others)
    (hparts : Plain parts) (hothers : Plain others)
    (h : parts.flatMap pieces = others.flatMap pieces) : parts = others := by
  induction hkinds with
  | nil => rfl
  | @cons part other parts others hkind hkinds ih =>
    cases hkinds with
    | nil =>
      have hpieces : pieces part = pieces other := by simpa using h
      have htext := String.toList_inj.mp (splitOn_injective '-' hpieces)
      rw [renderPart_injOn hkind hparts hothers htext]
    | cons =>
      obtain ⟨rfl, hrest⟩ := pieces_append_inj hkind hparts.1 hothers.1 h
      rw [ih hparts.2 hothers.2 hrest]

end Pieces

section Duplicates

variable {typing : Typing Expr} {table : SourceTable} {firstRowId : UInt64}
  {named : List SourceColumn} {keys : List PrimaryKey}
  {ordinal : ℕ} {seen : List String} {statement : Statement Expr}

theorem bindRows_cons {row : List Expr} {rest : List (List Expr)}
    {values : List Value} {key : PrimaryKey} (hmode : table.key.mode ≠ .appendRowId)
    (hvalues : rowValues typing table named ordinal row = .ok values)
    (hkey : primaryKey table values = .ok key) :
    bindRows typing table firstRowId named ordinal seen (row :: rest) =
      if renderKey key ∈ seen then .error (.duplicateKey (renderKey key))
      else (⟨key, values, 0, false⟩ :: ·) <$> bindRows typing table firstRowId named (ordinal + 1)
        (seen ++ [renderKey key]) rest := by
  rw [bindRows, hvalues]
  simp only [bind, Except.bind, hkey, if_neg hmode]
  split
  · rfl
  · cases bindRows typing table firstRowId named (ordinal + 1) _ rest <;> rfl

theorem bindRows_refused_iff {rows : List (List Expr)} (hmode : table.key.mode ≠ .appendRowId)
    (hkeys : rowKeys typing table named ordinal rows = .ok keys) :
    (∃ text, bindRows typing table firstRowId named ordinal seen rows =
        .error (.duplicateKey text)) ↔
      ¬ ((keys.map renderKey).Nodup ∧ ∀ key ∈ keys, renderKey key ∉ seen) := by
  induction rows generalizing ordinal seen keys with
  | nil =>
    cases hkeys
    simp [bindRows]
  | cons row rest ih =>
    obtain ⟨values, hvalues, h⟩ := Except.bind_eq_ok.mp hkeys
    obtain ⟨key, hkey, h⟩ := Except.bind_eq_ok.mp h
    obtain ⟨others, hothers, h⟩ := Except.bind_eq_ok.mp h
    cases h
    rw [bindRows_cons hmode hvalues hkey]
    split
    · rename_i hseen
      apply iff_of_true ⟨_, rfl⟩
      intro h
      exact h.2 key mem_cons_self hseen
    · rename_i hseen
      simp only [Except.map_eq_error]
      rw [ih hothers, not_iff_not, map_cons, nodup_cons, forall_mem_cons]
      simp only [mem_append, mem_singleton, not_or, mem_map, not_exists, not_and]
      constructor
      · rintro ⟨hnodup, hnew⟩
        exact ⟨⟨fun other ho => (hnew other ho).2, hnodup⟩, hseen,
          fun other ho => (hnew other ho).1⟩
      · rintro ⟨⟨hnew, hnodup⟩, -, hold⟩
        exact ⟨hnodup, fun other ho => ⟨hold other ho, hnew other ho⟩⟩

theorem insert_refused_iff (hmode : table.key.mode ≠ .appendRowId)
    (hkeys : insertKeys typing table statement = .ok keys) :
    (∃ text, bindInsertFrom typing table statement firstRowId = .error (.duplicateKey text)) ↔
      ¬ (keys.map renderKey).Nodup := by
  obtain ⟨⟨named, rows⟩, hrows, hkeys⟩ := Except.bind_eq_ok.mp hkeys
  have hbind : bindInsertFrom typing table statement firstRowId =
      (⟨table.name, ·⟩) <$> bindRows typing table firstRowId named 0 [] rows := by
    rw [bindInsertFrom, hrows]
    rfl
  simp only [hbind, Except.map_eq_error]
  rw [bindRows_refused_iff hmode hkeys]
  simp

def Repeats (keys : List PrimaryKey) : Prop :=
  ∃ i j : ℕ, i < j ∧ ∃ key, keys[i]? = some key ∧ keys[j]? = some key

theorem repeats_iff : Repeats keys ↔ ¬ keys.Nodup := by
  rw [nodup_iff_getElem?_ne_getElem?]
  constructor
  · rintro ⟨i, j, hij, key, hi, hj⟩ hnodup
    exact hnodup i j hij (List.getElem?_eq_some_iff.mp hj).1 (hi.trans hj.symm)
  · intro h
    simp only [not_forall, not_not] at h
    obtain ⟨i, j, hij, hj, he⟩ := h
    have hget : keys[j]? = some keys[j] := getElem?_eq_getElem hj
    exact ⟨i, j, hij, keys[j], he.trans hget, hget⟩

theorem nodup_map_renderKey_iff : (keys.map renderKey).Nodup ↔
    keys.Pairwise fun key other => keyPieces key ≠ keyPieces other := by
  simp only [List.Nodup, pairwise_map, ne_eq, renderKey_eq_iff]

theorem nodup_of_keyPieces (h : keys.Pairwise fun key other => keyPieces key ≠ keyPieces other) :
    keys.Nodup :=
  h.imp fun hne he => hne (congrArg keyPieces he)

theorem keyPieces_ne_of_plain
    (hkinds : keys.Pairwise fun key other => Forall₂ SameKind key.parts other.parts)
    (hplain : ∀ key ∈ keys, Plain key.parts) (hnodup : keys.Nodup) :
    keys.Pairwise fun key other => keyPieces key ≠ keyPieces other := by
  refine (hkinds.and hnodup).imp_of_mem fun hkey hother h he => ?_
  apply h.2
  exact PrimaryKey.parts_injective (eq_of_flatMap_pieces h.1 (hplain _ hkey) (hplain _ hother) he)

/-- A statement whose values all bind is refused as a duplicate exactly when two of its rows have
equal keys, provided that some two have, or that no two keys give the same pieces where their parts
are cut at dashes. It is so where only the last part of a key may hold a dash. -/
theorem insert_refused_iff_repeats_iff (hmode : table.key.mode ≠ .appendRowId)
    (hkeys : insertKeys typing table statement = .ok keys) :
    (((∃ text, bindInsertFrom typing table statement firstRowId = .error (.duplicateKey text)) ↔
        Repeats keys) ↔
      Repeats keys ∨ keys.Pairwise fun key other => keyPieces key ≠ keyPieces other) ∧
    (keys.Pairwise (fun key other => Forall₂ SameKind key.parts other.parts) →
      (∀ key ∈ keys, Plain key.parts) →
      ((∃ text, bindInsertFrom typing table statement firstRowId = .error (.duplicateKey text)) ↔
        Repeats keys)) := by
  rw [insert_refused_iff hmode hkeys, repeats_iff, nodup_map_renderKey_iff]
  constructor
  · have hnodup := @nodup_of_keyPieces keys
    tauto
  · intro hkinds hplain
    rw [not_iff_not]
    exact ⟨nodup_of_keyPieces, keyPieces_ne_of_plain hkinds hplain⟩
end Duplicates

def textTyping : Typing String where
  literalValue text _ := .ok (.utf8 text)
  typedValue text _ := .ok (.utf8 text)

def textColumn (id : UInt32) (name : String) : SourceColumn where
  id := id
  name := name
  mysqlDataType := "varchar"
  mysqlColumnType := "varchar(20)"
  pintailType := .utf8
  nullable := false
  ordinal := id

def dashedTable : SourceTable where
  name := "t"
  columns := [textColumn 1 "a", textColumn 2 "b"]
  key := ⟨.primary, ["a", "b"]⟩
  sourceColumnCount := 2

/-- `INSERT INTO t VALUES ('a-b', 'c'), ('a', 'b-c')`. -/
def dashedInsert : Statement String :=
  .insert
    { features := .ok ()
      table := .ok "t"
      columns := []
      rows := .ok [["a-b", "c"], ["a", "b-c"]] }

def dashedKeys : List PrimaryKey :=
  [⟨[.utf8 "a-b", .utf8 "c"], by decide⟩, ⟨[.utf8 "a", .utf8 "b-c"], by decide⟩]

theorem insertKeys_dashed : insertKeys textTyping dashedTable dashedInsert = .ok dashedKeys := by
  rfl

/-- `INSERT INTO t VALUES ('a', 'b-c'), ('a', 'b')`. -/
def plainInsert : Statement String :=
  .insert
    { features := .ok ()
      table := .ok "t"
      columns := []
      rows := .ok [["a", "b-c"], ["a", "b"]] }

def plainKeys : List PrimaryKey :=
  [⟨[.utf8 "a", .utf8 "b-c"], by decide⟩, ⟨[.utf8 "a", .utf8 "b"], by decide⟩]

theorem insert_refused_iff_repeats_iff_plain :
    (¬ ∃ text, bindInsertFrom textTyping dashedTable plainInsert 1 =
        .error (.duplicateKey text)) ∧
      ¬ Repeats plainKeys ∧ plainKeys.Pairwise fun key other => keyPieces key ≠ keyPieces other := by
  have hiff := @insert_refused_iff_repeats_iff String textTyping dashedTable 1 plainKeys
    plainInsert (by decide) rfl
  have hrepeats : ¬ Repeats plainKeys := by
    rw [repeats_iff]
    decide
  have hrefused := hiff.2 (by simp [plainKeys, SameKind])
    (by simp [plainKeys, Plain, Readable, Dashless])
  exact ⟨fun h => hrepeats (hrefused.mp h), hrepeats, (hiff.1.mp hrefused).resolve_left hrepeats⟩

/-- Two different keys are refused as a duplicate, for both are rendered as `a-b-c`. -/
theorem insert_refuses_different_keys :
    insertKeys textTyping dashedTable dashedInsert = .ok dashedKeys ∧ ¬ Repeats dashedKeys ∧
      bindInsertFrom textTyping dashedTable dashedInsert 1 = .error (.duplicateKey "a-b-c") := by
  refine ⟨insertKeys_dashed, ?_, rfl⟩
  rw [repeats_iff]
  decide

end Pintail.Write
