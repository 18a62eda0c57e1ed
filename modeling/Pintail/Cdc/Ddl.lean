import Pintail.Cdc.Error
import Pintail.Words.Text

/-! # Schema statements of the stream

A replicated statement is classified by what it changes of the tracked tables. An alteration whose
clauses only rebuild or describe the table again is told by its text, before the SQL parser, since
that parser does not read all of these clauses.
-/

namespace Pintail.Cdc

open Words Char

inductive AlterKind
  | addOrDropColumns (added dropped : List (List Char))
  | renameColumns (pairs : List (List Char × List Char))
  | modifyColumns (names : List (List Char))
  /-- A change of indexes, constraints or table options, with no effect on the stored rows. -/
  | indexOnly
  | renameTable (newName : List Char)
  | requiresResnapshot

inductive DdlAction
  | alter (table : List Char) (kind : AlterKind)
  | truncate (table : List Char)
  | drop (table : List Char)
  | create (table : List Char)

structure ParsedDdl where
  actions : List DdlAction := []
  namesTrackedSchema : Bool := false

def apostrophe : Char := ofNat 39

def doubleQuote : Char := ofNat 34

def backquote : Char := ofNat 96

def isQuote (c : Char) : Bool := c == apostrophe || c == doubleQuote || c == backquote

def upperCase (text : List Char) : List Char := text.map toUpper

/-- What follows the first `n` bytes of a text, when they end with a character. -/
def dropBytes : ℕ → List Char → Option (List Char)
  | n, [] => if n = 0 then some [] else none
  | n, c :: text =>
    if n = 0 then some (c :: text)
    else if c.utf8Size ≤ n then dropBytes (n - c.utf8Size) text else none

def stripIfExists (rest : List Char) : List Char :=
  if "IF EXISTS".toList.isPrefixOf rest ∨ "if exists".toList.isPrefixOf rest then
    trimLeft (rest.drop "IF EXISTS".length)
  else rest

/-- The schema and table read so far, and the text after them, with backquotes open or not. -/
def readTable (schema : Option (List Char)) (name : List Char) (quoted : Bool) :
    List Char → Option (List Char) × List Char × List Char
  | [] => (schema, name, [])
  | c :: rest =>
    if c = backquote then
      if quoted ∧ rest.head? ≠ some '.' then (schema, name, rest)
      else readTable schema name (!quoted) rest
    else if c = '.' ∧ ¬ quoted then readTable (some name) [] quoted rest
    else if ¬ quoted ∧ (isWhiteSpace c ∨ c = '(') then (schema, name, c :: rest)
    else readTable schema (name ++ [c]) quoted rest

def alterTableParts (statement : List Char) :
    Option (Option (List Char) × List Char × List Char) := do
  let rest ← dropBytes "ALTER TABLE".length (trimLeft statement)
  let parts := readTable none [] false (stripIfExists (trimLeft rest))
  if parts.2.1 = [] then none else some parts

def alterTableTarget (statement : List Char) : Option (Option (List Char) × List Char) :=
  (alterTableParts statement).map fun parts => (parts.1, parts.2.1)

def rebuildOnlyClauses : List String :=
  ["FORCE", "ORDER BY", "ENGINE", "ROW_FORMAT", "AUTO_INCREMENT", "COMMENT", "ALGORITHM", "LOCK",
    "KEY_BLOCK_SIZE", "STATS_PERSISTENT", "STATS_AUTO_RECALC", "STATS_SAMPLE_PAGES",
    "AVG_ROW_LENGTH", "CHECKSUM", "DELAY_KEY_WRITE", "PACK_KEYS", "MAX_ROWS", "MIN_ROWS",
    "COMPRESSION", "ENCRYPTION", "DEFAULT CHARSET", "DEFAULT CHARACTER SET", "DEFAULT COLLATE",
    "CHARSET", "CHARACTER SET", "COLLATE"]

/-- The text cut at the commas outside quotes and parentheses. -/
def cutClauses (depth : ℤ) (quote : Option Char) (part : List Char) : List Char → List (List Char)
  | [] => [part]
  | c :: rest =>
    match quote with
    | some mark => cutClauses depth (if c = mark then none else some mark) (part ++ [c]) rest
    | none =>
      if isQuote c then cutClauses depth (some c) (part ++ [c]) rest
      else if c = '(' then cutClauses (depth + 1) none (part ++ [c]) rest
      else if c = ')' then cutClauses (depth - 1) none (part ++ [c]) rest
      else if c = ',' ∧ depth = 0 then part :: cutClauses depth none [] rest
      else cutClauses depth none (part ++ [c]) rest

def rebuildOnly (clause : List Char) : Bool :=
  rebuildOnlyClauses.any fun option =>
    option.toList.isPrefixOf clause &&
      ((clause.drop option.length).head?.all fun c => c ∈ [' ', '=', '\t', '\n'])

def beginsOrderBy (clause : List Char) : Bool := "ORDER BY".toList.isPrefixOf clause

def allRebuildOnly : List (List Char) → Bool
  | [] => true
  | part :: parts =>
    let clause := upperCase (trimEnds part)
    if rebuildOnly clause then beginsOrderBy clause || allRebuildOnly parts else false

def rebuildOnlyAlter (statement : List Char) : Bool :=
  match alterTableParts statement with
  | none => false
  | some (_, _, text) =>
    let clauses := trimEnds ((trimEnds text).rdropWhile (· == ';'))
    if clauses = [] then false else allRebuildOnly (cutClauses 0 none [] clauses)

def namesConversion (normalized : List Char) : Bool :=
  " CONVERT TO CHARACTER SET".toList <:+: normalized ∨ " CONVERT TO CHARSET".toList <:+: normalized

/-- Whether a statement is classified by its text alone, as one that changes no row. -/
def takesShortcut (statement : List Char) : Bool :=
  let normalized := upperCase (trimLeft statement)
  "ALTER TABLE".toList.isPrefixOf normalized &&
    (namesConversion normalized || rebuildOnlyAlter statement)

def isForeign (schema : Option (List Char)) (database : List Char) : Bool :=
  schema.any fun schema => schema.map toLower != database.map toLower

def shortcutDdl (statement database : List Char) : ParsedDdl :=
  match alterTableTarget statement with
  | none => {}
  | some (schema, table) =>
    if isForeign schema database then {}
    else { actions := [.alter table .indexOnly], namesTrackedSchema := schema.isSome }

def ddlVerbs : List String :=
  ["ALTER TABLE", "TRUNCATE ", "DROP TABLE", "CREATE TABLE", "CREATE TEMPORARY TABLE",
    "RENAME TABLE"]

/-- What a statement means for the tables of a database, where `classify` reads the statements
that need the SQL parser. -/
def parseDdl (classify : List Char → List Char → Except CdcError ParsedDdl)
    (statement database : List Char) : Except CdcError ParsedDdl :=
  let normalized := upperCase (trimLeft statement)
  if ¬ ddlVerbs.any fun verb => verb.toList.isPrefixOf normalized then .ok {}
  else if takesShortcut statement then .ok (shortcutDdl statement database)
  else classify statement database

end Pintail.Cdc
