import Pintail.Cdc.AlterText

/-! # Alterations told by their text

The text of an alteration gives back the table it names and, when no backslash escapes a quotation
mark, its clauses. An alteration that is taken for one of the metadata alone is one of these clauses
only, unless it names a conversion of the character set or places a clause after a reordering.
-/

namespace Pintail.Cdc

open Words List QuotedChar Option

inductive Identifier
  | word (name : List Char) (nonempty : name ≠ []) (chars : ∀ c ∈ name, isWordChar c = true)
    (unreserved : upperCase name ≠ "IF".toList)
  | backquoted (name : List (QuotedChar .back)) (nonempty : name ≠ [])

def QuotedChar.isDoubled {quote : Quote} : QuotedChar quote → Bool
  | doubled => true
  | _ => false

namespace Identifier

def text : Identifier → List Char
  | word name _ _ _ => name
  | backquoted name _ => backquote :: (name.flatMap QuotedChar.text ++ [backquote])

def doubles : Identifier → Bool
  | word _ _ _ _ => false
  | backquoted name _ => name.any isDoubled

def lead : Identifier → List Char
  | word name _ _ _ => name
  | backquoted name _ => (name.takeWhile fun c => !c.isDoubled).flatMap QuotedChar.text

def EndsBefore (rest : List Char) : Identifier → Prop
  | word _ _ _ _ => ∃ c, rest.head? = some c ∧ isWhiteSpace c = true
  | backquoted _ _ => ∀ c ∈ rest.head?, c ≠ '.' ∧ c ≠ backquote

end Identifier

structure TableName where
  schema : Option Identifier
  name : Identifier

namespace TableName

variable (table : TableName)

def text : List Char :=
  (table.schema.elim [] fun schema => schema.text ++ ['.']) ++ table.name.text

def doubles : Bool := table.schema.any Identifier.doubles || table.name.doubles

/-- The schema and the table that are read, when reading stops at a doubled backquote. -/
def read : Option (List Char) × List Char :=
  match table.schema with
  | none => (none, table.name.lead)
  | some schema => if schema.doubles then (none, schema.lead) else (some schema.lead, table.name.lead)

end TableName

def sectionsOf (clauses : List Clause) : List Section := clauses.flatMap Clause.sections

def clausesText (clauses : List Clause) : List Char :=
  [','].intercalate ((sectionsOf clauses).map Section.text)

/-- An alteration: a verb in any case, a table and clauses, with blanks between. -/
structure AlterStatement where
  margin : List Char
  verb : List Char
  gap : List Char
  table : TableName
  space : List Char
  clauses : List Clause
  semicolons : ℕ
  tail : List Char
  verb_eq : upperCase verb = "ALTER TABLE".toList
  margin_blank : ∀ c ∈ margin, isWhiteSpace c = true
  gap_blank : ∀ c ∈ gap, isWhiteSpace c = true
  space_blank : ∀ c ∈ space, isWhiteSpace c = true
  tail_blank : ∀ c ∈ tail, isWhiteSpace c = true
  nonempty : clauses ≠ []
  separated : table.name.EndsBefore (space ++ clausesText clauses)

namespace AlterStatement

variable (statement : AlterStatement)

def afterTable : List Char :=
  statement.space ++ (clausesText statement.clauses ++
    (replicate statement.semicolons ';' ++ statement.tail))

def text : List Char :=
  statement.margin ++ (statement.verb ++ (statement.gap ++
    (statement.table.text ++ statement.afterTable)))

def escapesMark : Bool := (sectionsOf statement.clauses).any Section.escapesMark

/-- The parts the text is cut into, a backslash being an ordinary character. -/
def parts : List (List Char) :=
  if statement.escapesMark then cutClauses 0 none [] (clausesText statement.clauses)
  else (sectionsOf statement.clauses).map Section.text

def namesConversion : Bool := Cdc.namesConversion (upperCase (trimLeft statement.text))

def Addresses (database : List Char) : Prop :=
  statement.table.read.2 ≠ [] ∧ isForeign statement.table.read.1 database = false

end AlterStatement

section Read

variable {schema : Option (List Char)} {name rest : List Char}

theorem readTable_word {word : List Char} (h : ∀ c ∈ word, isWordChar c = true) :
    readTable schema name false (word ++ rest) = readTable schema (name ++ word) false rest := by
  induction word generalizing name with
  | nil => simp
  | cons c word ih =>
    have hc := h c (by simp)
    have hblank := isWhiteSpace_of_isWordChar hc
    have hback : c ≠ backquote := by rintro rfl; exact absurd hc (by decide)
    have hdot : c ≠ '.' := by rintro rfl; exact absurd hc (by decide)
    have hopen : c ≠ '(' := by rintro rfl; exact absurd hc (by decide)
    simp [readTable, hback, hdot, hopen, hblank, ih fun d hd => h d (by simp [hd])]

theorem readTable_backquoted {body : List (QuotedChar .back)}
    (h : ∀ c ∈ body, isDoubled c = false) :
    readTable schema name true (body.flatMap text ++ rest) =
      readTable schema (name ++ body.flatMap text) true rest := by
  induction body generalizing name with
  | nil => simp
  | cons c body ih =>
    cases c with
    | plain c unmarked unescaping =>
      have hback : c ≠ backquote := unmarked
      simp [text, readTable, hback, ih fun d hd => h d (by simp [hd])]
    | doubled => exact absurd (h .doubled (by simp)) (by simp [isDoubled])
    | escaped c escapes => exact absurd escapes (by decide)

variable {identifier : Identifier}

theorem readTable_identifier (h : identifier.doubles = false) :
    readTable schema [] false (identifier.text ++ rest) =
      match identifier with
      | .word _ _ _ _ => readTable schema identifier.lead false rest
      | .backquoted _ _ => readTable schema identifier.lead true (backquote :: rest) := by
  cases identifier with
  | word name nonempty chars unreserved => exact readTable_word chars
  | backquoted name nonempty =>
    have hplain : ∀ c ∈ name, isDoubled c = false := by
      simpa [Identifier.doubles] using h
    have hall : name.takeWhile (fun c => !c.isDoubled) = name := by
      simpa using hplain
    have hopen : readTable schema [] false ((Identifier.backquoted name nonempty).text ++ rest) =
        readTable schema [] true (name.flatMap text ++ backquote :: rest) := by
      simp [Identifier.text, readTable]
    simp [hopen, readTable_backquoted hplain, Identifier.lead, hall]

theorem readTable_identifier_dot (h : identifier.doubles = false) :
    readTable schema [] false (identifier.text ++ '.' :: rest) =
      readTable (some identifier.lead) [] false rest := by
  rw [readTable_identifier h]
  cases identifier <;> simp [readTable, show ('.' : Char) ≠ backquote by decide]

theorem readTable_identifier_end (h : identifier.doubles = false)
    (hend : identifier.EndsBefore rest) :
    readTable schema [] false (identifier.text ++ rest) = (schema, identifier.lead, rest) := by
  rw [readTable_identifier h]
  cases identifier with
  | word name nonempty chars unreserved =>
    obtain ⟨c, hc, hblank⟩ := hend
    obtain ⟨rest, rfl⟩ := head?_eq_some_iff.mp hc
    have hback : c ≠ backquote := by rintro rfl; exact absurd hblank (by decide)
    have hdot : c ≠ '.' := by rintro rfl; exact absurd hblank (by decide)
    simp [readTable, hback, hdot, hblank]
  | backquoted name nonempty =>
    have hdot : rest.head? ≠ some '.' := fun hc => (hend _ hc).1 rfl
    simp [readTable, hdot]

theorem readTable_identifier_doubles (h : identifier.doubles = true) :
    ∃ junk, readTable schema [] false (identifier.text ++ rest) =
      (schema, identifier.lead, backquote :: junk) := by
  cases identifier with
  | word => simp [Identifier.doubles] at h
  | backquoted name nonempty =>
    obtain ⟨c, after, hdrop⟩ : ∃ c after, name.dropWhile (fun c => !c.isDoubled) = c :: after := by
      apply exists_cons_of_ne_nil
      intro hnil
      have hnone := dropWhile_eq_nil_iff.mp hnil
      obtain ⟨c, hc, hdoubled⟩ := any_eq_true.mp h
      simpa [hdoubled] using hnone c hc
    have hc : c = .doubled := by
      have hnot := head?_dropWhile_not (fun c : QuotedChar .back => !c.isDoubled) name
      rw [hdrop] at hnot
      cases c with
      | doubled => rfl
      | plain c unmarked unescaping => simp [isDoubled] at hnot
      | escaped c escapes => exact absurd escapes (by decide)
    subst hc
    have hname : name.flatMap text =
        (Identifier.backquoted name nonempty).lead ++
          backquote :: backquote :: after.flatMap QuotedChar.text := by
      conv_lhs => rw [← @takeWhile_append_dropWhile _ (fun c => !c.isDoubled) name, hdrop]
      simp [Identifier.lead, QuotedChar.text, Quote.mark]
    have hopen : readTable schema [] false ((Identifier.backquoted name nonempty).text ++ rest) =
        readTable schema [] true ((Identifier.backquoted name nonempty).lead ++
          backquote :: backquote :: (after.flatMap text ++ backquote :: rest)) := by
      simp [Identifier.text, readTable, hname]
    have hplain : ∀ c ∈ name.takeWhile (fun c => !c.isDoubled), isDoubled c = false :=
      fun c hc => by simpa using mem_takeWhile_imp hc
    rw [hopen]
    simp only [Identifier.lead]
    rw [readTable_backquoted hplain]
    simp [readTable, show backquote ≠ '.' by decide]

variable {table : TableName}

theorem readTable_table (h : table.doubles = false) (hend : table.name.EndsBefore rest) :
    readTable none [] false (table.text ++ rest) = (table.read.1, table.read.2, rest) := by
  obtain ⟨hschema, hname⟩ := Bool.or_eq_false_iff.mp h
  obtain ⟨schema, name⟩ := table
  cases schema with
  | none => simpa [TableName.text, TableName.read] using readTable_identifier_end hname hend
  | some schema =>
    replace hschema : schema.doubles = false := hschema
    simp only [TableName.text, elim_some, append_assoc, cons_append]
    rw [readTable_identifier_dot hschema]
    erw [readTable_identifier_end hname hend]
    simp [TableName.read, hschema]

theorem readTable_table_doubles (h : table.doubles = true) :
    ∃ junk, readTable none [] false (table.text ++ rest) =
      (table.read.1, table.read.2, backquote :: junk) := by
  obtain ⟨schema, name⟩ := table
  cases schema with
  | none => exact readTable_identifier_doubles h
  | some schema =>
    simp only [TableName.text, elim_some, append_assoc, cons_append]
    cases hschema : schema.doubles with
    | true =>
      simpa [TableName.read, hschema] using
        @readTable_identifier_doubles none ('.' :: (name.text ++ rest)) schema hschema
    | false =>
      have hname : name.doubles = true := by
        simpa [TableName.doubles, hschema] using h
      rw [readTable_identifier_dot hschema]
      simpa [TableName.read, hschema] using
        @readTable_identifier_doubles (some schema.lead) rest name hname

end Read

theorem dropBytes_append {front rest : List Char} (h : ∀ c ∈ front, c.utf8Size = 1) :
    dropBytes front.length (front ++ rest) = some rest := by
  induction front with
  | nil => cases rest <;> rfl
  | cons c front ih =>
    have hc := h c (by simp)
    simp [dropBytes, hc, ih fun d hd => h d (by simp [hd])]

theorem utf8Size_of_verb {verb : List Char} (h : upperCase verb = "ALTER TABLE".toList) {c : Char}
    (hc : c ∈ verb) : c.utf8Size = 1 := by
  have hmem : c.toUpper ∈ "ALTER TABLE".toList := h ▸ mem_map_of_mem hc
  obtain hself | ⟨n, hlow, hhigh, rfl⟩ := toUpper_eq_self_or c
  · rw [hself] at hmem
    have hsizes : "ALTER TABLE".toList.all (·.utf8Size == 1) = true := by decide
    exact beq_iff_eq.mp (all_eq_true.mp hsizes c hmem)
  · interval_cases n <;> rfl

variable {identifier : Identifier} {table : TableName}

theorem takeWhile_identifier {rest : List Char}
    (h : ∀ c ∈ rest.head?, isWordChar c = false ∨ identifier.text.head? = some backquote) :
    upperCase ((identifier.text ++ rest).takeWhile isWordChar) ≠ "IF".toList := by
  cases identifier with
  | word name nonempty chars unreserved =>
    have hback : name.head? ≠ some backquote := by
      intro hhead
      exact absurd (chars backquote (mem_of_mem_head? hhead)) (by decide)
    have hrest : rest.takeWhile isWordChar = [] := by
      cases rest with
      | nil => rfl
      | cons c rest =>
        have hc := (h c rfl).resolve_right hback
        rw [takeWhile_cons_of_neg (by simp [hc])]
    rw [Identifier.text, takeWhile_append_of_pos chars, hrest, append_nil]
    exact unreserved
  | backquoted name nonempty =>
    rw [Identifier.text, cons_append, takeWhile_cons_of_neg (by decide)]
    decide

theorem takeWhile_table {rest : List Char} (hend : table.name.EndsBefore rest) :
    upperCase ((table.text ++ rest).takeWhile isWordChar) ≠ "IF".toList := by
  obtain ⟨schema, name⟩ := table
  cases schema with
  | some schema =>
    have hdot : isWordChar '.' = false := by decide
    have hnot := @takeWhile_identifier schema ('.' :: (name.text ++ rest)) (by simp [hdot])
    simpa [TableName.text] using hnot
  | none =>
    apply takeWhile_identifier
    intro c hc
    cases name with
    | word name nonempty chars unreserved =>
      obtain ⟨d, hd, hblank⟩ := hend
      obtain rfl : d = c := some.inj (hd.symm.trans hc)
      exact .inl (by simp [isWordChar, hblank])
    | backquoted name nonempty => exact .inr rfl

theorem stripIfExists_table {rest : List Char} (hend : table.name.EndsBefore rest) :
    stripIfExists (table.text ++ rest) = table.text ++ rest := by
  have hnot := takeWhile_table hend
  rw [stripIfExists, if_neg]
  rintro (hif | hif)
  · obtain ⟨after, hafter⟩ := isPrefixOf_iff_prefix.mp hif
    rw [← hafter] at hnot
    exact hnot rfl
  · obtain ⟨after, hafter⟩ := isPrefixOf_iff_prefix.mp hif
    rw [← hafter] at hnot
    exact hnot rfl

variable {text : List Char}

theorem trimLeft_eq_self {c : Char} (h : isWhiteSpace c = false) :
    trimLeft (c :: text) = c :: text := by
  rw [trimLeft, dropWhile_cons_of_neg (by simp [h])]

theorem trimLeft_identifier (identifier : Identifier) (rest : List Char) :
    trimLeft (identifier.text ++ rest) = identifier.text ++ rest := by
  cases identifier with
  | word name nonempty chars unreserved =>
    cases name with
    | nil => exact absurd rfl nonempty
    | cons c name => exact trimLeft_eq_self (isWhiteSpace_of_isWordChar (chars c (by simp)))
  | backquoted name nonempty => exact trimLeft_eq_self (by decide)

theorem trimLeft_table (table : TableName) (rest : List Char) :
    trimLeft (table.text ++ rest) = table.text ++ rest := by
  obtain ⟨schema, name⟩ := table
  cases schema with
  | none => exact trimLeft_identifier name rest
  | some schema =>
    simpa [TableName.text] using trimLeft_identifier schema ('.' :: (name.text ++ rest))

theorem Identifier.EndsBefore.append {rest more : List Char} (h : identifier.EndsBefore rest)
    (hmore : ∀ c ∈ more.head?, c ≠ '.' ∧ c ≠ backquote) : identifier.EndsBefore (rest ++ more) := by
  cases identifier with
  | word name nonempty chars unreserved =>
    obtain ⟨c, hc, hblank⟩ := h
    exact ⟨c, by rw [head?_append, hc]; rfl, hblank⟩
  | backquoted name nonempty =>
    intro c hc
    cases rest with
    | nil => exact hmore c hc
    | cons d rest => exact h c hc

namespace AlterStatement

variable (statement : AlterStatement)

theorem endsBefore : statement.table.name.EndsBefore statement.afterTable := by
  rw [afterTable, ← append_assoc]
  apply statement.separated.append
  intro c hc
  rcases mem_append.mp (mem_of_mem_head? hc) with hsemi | htail
  · rw [eq_of_mem_replicate hsemi]
    decide
  · have hblank := statement.tail_blank c htail
    constructor
    · rintro rfl
      exact absurd hblank (by decide)
    · rintro rfl
      exact absurd hblank (by decide)

theorem trimLeft_text : trimLeft statement.text =
    statement.verb ++ (statement.gap ++ (statement.table.text ++ statement.afterTable)) := by
  obtain ⟨c, verb, hverb, hc, -⟩ := map_eq_cons_iff.mp statement.verb_eq
  have hword : isWordChar c = true := by
    rw [← isWordChar_toUpper, hc]
    rfl
  rw [text, trimLeft_append statement.margin_blank, hverb]
  exact trimLeft_eq_self (isWhiteSpace_of_isWordChar hword)

theorem dropBytes_text : dropBytes "ALTER TABLE".length (trimLeft statement.text) =
    some (statement.gap ++ (statement.table.text ++ statement.afterTable)) := by
  have hlength : "ALTER TABLE".length = statement.verb.length := by
    rw [← String.length_toList, ← statement.verb_eq, upperCase, length_map]
  rw [trimLeft_text, hlength]
  exact dropBytes_append fun c hc => utf8Size_of_verb statement.verb_eq hc

theorem alterTableParts_eq :
    alterTableParts statement.text =
      let parts := readTable none [] false (statement.table.text ++ statement.afterTable)
      if parts.2.1 = [] then none else some parts := by
  rw [alterTableParts, dropBytes_text, bind_eq_bind, bind_some,
    trimLeft_append statement.gap_blank, trimLeft_table,
    stripIfExists_table statement.endsBefore]

theorem alterTableParts_text (h : statement.table.doubles = false) :
    alterTableParts statement.text = if statement.table.read.2 = [] then none
      else some (statement.table.read.1, statement.table.read.2, statement.afterTable) := by
  rw [alterTableParts_eq, readTable_table h statement.endsBefore]

theorem alterTableParts_text_doubles (h : statement.table.doubles = true) :
    ∃ junk, alterTableParts statement.text = if statement.table.read.2 = [] then none
      else some (statement.table.read.1, statement.table.read.2, backquote :: junk) := by
  obtain ⟨junk, hjunk⟩ := @readTable_table_doubles statement.afterTable _ h
  exact ⟨junk, by rw [alterTableParts_eq, hjunk]⟩

theorem alterTableTarget_text :
    alterTableTarget statement.text = if statement.table.read.2 = [] then none
      else some statement.table.read := by
  cases h : statement.table.doubles with
  | false =>
    rw [alterTableTarget, alterTableParts_text _ h]
    split_ifs <;> rfl
  | true =>
    obtain ⟨junk, hjunk⟩ := alterTableParts_text_doubles _ h
    rw [alterTableTarget, hjunk]
    split_ifs <;> rfl

theorem mem_actions_shortcutDdl {database : List Char} :
    (∃ table, .alter table .indexOnly ∈ (shortcutDdl statement.text database).actions) ↔
      statement.Addresses database := by
  rw [shortcutDdl, alterTableTarget_text, Addresses]
  split_ifs with hname
  · simp [hname]
  · cases hforeign : isForeign statement.table.read.1 database <;> simp [hname, hforeign]

end AlterStatement

def Unterminated (text : List Char) : Prop :=
  ∀ front back, text = front ++ ';' :: back → ∃ c ∈ back, isWhiteSpace c = false

theorem unterminated_nil : Unterminated [] := by
  intro front back h
  simp at h

theorem Unterminated.append {text text' : List Char} (h : Unterminated text)
    (h' : Unterminated text') : Unterminated (text ++ text') := by
  intro front back heq
  rcases append_eq_append_iff.mp heq with ⟨mid, -, htext'⟩ | ⟨mid, htext, hback⟩
  · exact h' mid back htext'
  · cases mid with
    | nil => exact h' [] back (by simpa using hback.symm)
    | cons c mid =>
      obtain ⟨rfl, rfl⟩ := cons.inj hback
      obtain ⟨d, hd, hblank⟩ := h front mid htext
      exact ⟨d, by simp [hd], hblank⟩

theorem unterminated_concat {c : Char} (hc : c ≠ ';') (hblank : isWhiteSpace c = false)
    (text : List Char) : Unterminated (text ++ [c]) := by
  intro front back heq
  rcases eq_nil_or_concat back with rfl | ⟨back, d, rfl⟩
  · exact absurd (append_inj_right' heq rfl) (by simpa using hc)
  · rw [concat_eq_append, ← cons_append, ← append_assoc] at heq
    obtain rfl : c = d := by simpa using append_inj_right' heq rfl
    exact ⟨c, by simp, hblank⟩

theorem unterminated_singleton {c : Char} (hc : c ≠ ';') : Unterminated [c] := by
  intro front back heq
  cases front with
  | nil => exact absurd (cons.inj heq).1 hc
  | cons d front => simp at heq

theorem unterminated_token (token : Token) : Unterminated token.text := by
  cases token with
  | char c plain =>
    apply unterminated_singleton
    rintro rfl
    exact absurd plain (by decide)
  | quoted quote body =>
    refine unterminated_concat ?_ ?_ _
    · cases quote <;> decide
    · cases quote <;> decide
  | opening => exact unterminated_singleton (by decide)
  | closing => exact unterminated_singleton (by decide)
  | comma => exact unterminated_singleton (by decide)

theorem unterminated_flatMap (tokens : List Token) : Unterminated (tokens.flatMap Token.text) := by
  induction tokens with
  | nil => exact unterminated_nil
  | cons token tokens ih => exact (unterminated_token token).append ih

theorem unterminated_clausesText (clauses : List Clause) : Unterminated (clausesText clauses) := by
  rw [clausesText]
  induction sectionsOf clauses with
  | nil => exact unterminated_nil
  | cons first sections ih =>
    cases sections with
    | nil => simpa [Section.text] using unterminated_flatMap first.tokens
    | cons second sections =>
      rw [map_cons, map_cons, intercalate_cons_cons]
      exact ((unterminated_flatMap first.tokens).append
        (unterminated_singleton (by decide))).append ih

theorem trimEnds_trimLeft (text : List Char) : trimEnds (trimLeft text) = trimEnds text := by
  rw [trimEnds, trimLeft, dropWhile_idempotent, trimEnds]

theorem trimEnds_trimEnds (text : List Char) : trimEnds (trimEnds text) = trimEnds text := by
  obtain ⟨front, back, htext, hfront, hback⟩ := exists_eq_append_trimEnds text
  conv_rhs => rw [htext, trimEnds_append_right hback, trimEnds_append_left hfront]

theorem trimEnds_rdropWhile_semicolon (h : Unterminated text) (n : ℕ) :
    trimEnds ((trimEnds (text ++ replicate n ';')).rdropWhile (· == ';')) = trimEnds text := by
  cases n with
  | zero =>
    obtain ⟨front, back, htext, -, hback⟩ := exists_eq_append_trimEnds text
    rw [replicate_zero, append_nil, rdropWhile_eq_self, trimEnds_trimEnds]
    intro hlast
    obtain ⟨start, hstart⟩ := getLast?_eq_some_iff.mp hlast
    rw [hstart] at htext
    obtain ⟨c, hc, hblank⟩ := h (front ++ start) back (by simpa using htext)
    simp [hback c hc] at hblank
  | succ n =>
    have hleft : trimEnds (text ++ replicate (n + 1) ';') =
        trimLeft text ++ replicate (n + 1) ';' := by
      have hdrop : (text ++ replicate (n + 1) ';').dropWhile isWhiteSpace =
          trimLeft text ++ replicate (n + 1) ';' := by
        rw [dropWhile_append, trimLeft]
        split_ifs with hempty
        · rw [isEmpty_iff.mp hempty, nil_append, replicate_succ, dropWhile_cons_of_neg (by decide)]
        · rfl
      rw [trimEnds, hdrop, replicate_succ', ← append_assoc, rdropWhile_concat_neg _ _ _ (by decide)]
    rw [hleft, rdropWhile_append_of_pos fun c hc => by simp [eq_of_mem_replicate hc],
      rdropWhile_eq_self, trimEnds_trimLeft]
    intro hlast
    obtain ⟨start, hstart⟩ := getLast?_eq_some_iff.mp hlast
    obtain ⟨c, hc, -⟩ := h (text.takeWhile isWhiteSpace ++ start) [] (by
      rw [append_assoc, ← hstart, trimLeft, takeWhile_append_dropWhile])
    simp at hc

theorem exists_cutClauses_eq_cons (c : Char) (depth : ℤ) {quote : Option Char}
    (hquote : quote.all isQuote) (part text : List Char) :
    ∃ front parts, cutClauses depth quote (c :: part) text = (c :: front) :: parts := by
  induction text generalizing depth quote part with
  | nil => exact ⟨part, [], rfl⟩
  | cons d text ih =>
    obtain ⟨depth', quote', hquote', hjoin⟩ | hend := cutClauses_cons depth hquote d
    · rw [hjoin]
      exact ih depth' hquote' _
    · exact ⟨part, _, hend _ _⟩

theorem exists_rdropWhile_cons {p : Char → Bool} {c : Char} (h : p c = false) (text : List Char) :
    ∃ rest, (c :: text).rdropWhile p = c :: rest := by
  induction text using reverseRecOn with
  | nil => exact ⟨[], by simp [h]⟩
  | append_singleton text d ih =>
    by_cases hd : p d = true
    · rwa [← cons_append, rdropWhile_concat_pos _ _ _ hd]
    · exact ⟨text ++ [d], by rw [← cons_append, rdropWhile_concat_neg _ _ _ hd]⟩

theorem exists_trimEnds_cons {c : Char} (h : isWhiteSpace c = false) (text : List Char) :
    ∃ rest, trimEnds (c :: text) = c :: rest := by
  rw [trimEnds, dropWhile_cons_of_neg (by simp [h])]
  exact exists_rdropWhile_cons h text

namespace AlterStatement

variable (statement : AlterStatement)

theorem allRebuildOnly_cutClauses :
    allRebuildOnly (cutClauses 0 none [] (trimEnds (clausesText statement.clauses))) =
      allRebuildOnly statement.parts := by
  rw [allRebuildOnly_map_trimEnds (map_trimEnds_cutClauses_trimEnds _), parts]
  split_ifs with hescapes
  · rfl
  · rw [clausesText, cutClauses_intercalate _ (Bool.eq_false_iff.mpr hescapes)]
    obtain ⟨clause, clauses, hclauses⟩ := exists_cons_of_ne_nil statement.nonempty
    simp [sectionsOf, hclauses, Clause.sections]

theorem rebuildOnlyAlter_text (h : statement.table.doubles = false) :
    rebuildOnlyAlter statement.text =
      (decide (statement.table.read.2 ≠ []) && allRebuildOnly statement.parts) := by
  have hkept : trimEnds ((trimEnds statement.afterTable).rdropWhile (· == ';')) =
      trimEnds (clausesText statement.clauses) := by
    rw [afterTable, trimEnds_append_left statement.space_blank, ← append_assoc,
      trimEnds_append_right statement.tail_blank,
      trimEnds_rdropWhile_semicolon (unterminated_clausesText _)]
  rw [rebuildOnlyAlter, alterTableParts_text _ h]
  by_cases hname : statement.table.read.2 = []
  · simp [hname]
  · simp only [hname, if_false, hkept, ne_eq, ← allRebuildOnly_cutClauses]
    split_ifs with hempty
    · rw [hempty]
      rfl
    · rfl

theorem rebuildOnlyAlter_text_doubles (h : statement.table.doubles = true) :
    rebuildOnlyAlter statement.text = false := by
  obtain ⟨junk, hjunk⟩ := statement.alterTableParts_text_doubles h
  have hblank : isWhiteSpace backquote = false := by decide
  obtain ⟨rest, hrest⟩ := exists_trimEnds_cons hblank junk
  obtain ⟨rest', hrest'⟩ := @exists_rdropWhile_cons (· == ';') backquote (by decide) rest
  obtain ⟨kept, hkept⟩ := exists_trimEnds_cons hblank rest'
  obtain ⟨front, parts, hparts⟩ :=
    @exists_cutClauses_eq_cons backquote 0 (some backquote) rfl [] kept
  obtain ⟨front', hfront'⟩ := exists_trimEnds_cons hblank front
  have hcut : cutClauses 0 none [] (backquote :: kept) =
      cutClauses 0 (some backquote) [backquote] kept := by
    simp [cutClauses, show isQuote backquote = true from rfl]
  rw [rebuildOnlyAlter, hjunk]
  split_ifs with hname
  · rfl
  · simp only [hrest, hrest', hkept, hcut, hparts, allRebuildOnly, hfront']
    rfl

theorem isPrefixOf_normalized :
    "ALTER TABLE".toList.isPrefixOf (upperCase (trimLeft statement.text)) = true := by
  rw [List.isPrefixOf_iff_prefix, trimLeft_text, upperCase, map_append, ← upperCase,
    statement.verb_eq]
  exact prefix_append _ _

theorem takesShortcut_text : takesShortcut statement.text =
    (statement.namesConversion || rebuildOnlyAlter statement.text) := by
  simp only [takesShortcut, isPrefixOf_normalized, Bool.true_and, namesConversion]

theorem parseDdl_text (classify : List Char → List Char → Except CdcError ParsedDdl)
    (database : List Char) (h : takesShortcut statement.text = true) :
    parseDdl classify statement.text database = .ok (shortcutDdl statement.text database) := by
  have hverb : (ddlVerbs.any fun verb =>
      verb.toList.isPrefixOf (upperCase (trimLeft statement.text))) = true :=
    any_eq_true.mpr ⟨"ALTER TABLE", by decide, statement.isPrefixOf_normalized⟩
  simp [parseDdl, hverb, h, not_true_eq_false]

theorem takesShortcut_eq_true_iff (haddressed : statement.table.read.2 ≠ []) :
    takesShortcut statement.text = true ↔
      (statement.namesConversion = true ∨
        statement.table.doubles = false ∧ ¬ StopsRebuild statement.parts) := by
  rw [takesShortcut_text]
  cases h : statement.table.doubles with
  | true => simp [rebuildOnlyAlter_text_doubles _ h]
  | false => simp [rebuildOnlyAlter_text _ h, haddressed, ← allRebuildOnly_eq_false_iff]

/-- Whether an alteration that the shortcut takes for one without effect on the stored rows has
clauses of that kind only. -/
def Sound (classify : List Char → List Char → Except CdcError ParsedDdl) (database : List Char) :
    Prop :=
  takesShortcut statement.text = true → ∀ parsed table,
    parseDdl classify statement.text database = .ok parsed →
      .alter table .indexOnly ∈ parsed.actions → ∀ clause ∈ statement.clauses, clause.Metadata

theorem sound_iff (classify : List Char → List Char → Except CdcError ParsedDdl)
    (database : List Char) : statement.Sound classify database ↔
      ((∀ clause ∈ statement.clauses, clause.Metadata) ∨ ¬ statement.Addresses database ∨
        takesShortcut statement.text = false) := by
  constructor
  · intro hsound
    by_contra hcontra
    push Not at hcontra
    obtain ⟨⟨clause, hclause, hmetadata⟩, haddresses, hshortcut⟩ := hcontra
    rw [ne_eq, Bool.not_eq_false] at hshortcut
    obtain ⟨table, htable⟩ := statement.mem_actions_shortcutDdl.mpr haddresses
    exact hmetadata (hsound hshortcut _ table (statement.parseDdl_text classify database hshortcut)
      htable clause hclause)
  · rintro (hall | haddresses | hshortcut) htaken parsed table hparsed htable clause hclause
    · exact hall clause hclause
    · rw [statement.parseDdl_text classify database htaken] at hparsed
      cases hparsed
      exact absurd (statement.mem_actions_shortcutDdl.mp ⟨table, htable⟩) haddresses
    · simp [hshortcut] at htaken

end AlterStatement

def OrderedLast (clauses : List Clause) : Prop :=
  ∀ before clause after, clauses = before ++ clause :: after → after ≠ [] →
    leads ["ORDER", "BY"] clause.first.text = false

theorem metadata_of_allRebuildOnly {clauses : List Clause} (hlast : OrderedLast clauses)
    (h : allRebuildOnly ((sectionsOf clauses).map Section.text) = true) :
    ∀ clause ∈ clauses, clause.Metadata := by
  induction clauses with
  | nil => simp
  | cons clause clauses ih =>
    have hfirst : rebuildOnly (upperCase (trimEnds clause.first.text)) = true := by
      by_contra hnot
      simp [sectionsOf, Clause.sections, allRebuildOnly, hnot] at h
    have hrest : ∀ clause' ∈ clauses, clause'.Metadata := by
      cases clauses with
      | nil => simp
      | cons next clauses =>
        have horder := hlast [] clause (next :: clauses) rfl (by simp)
        have hmore : clause.more = [] := by
          by_contra hmore
          simp [clause.ordering hmore] at horder
        have hbegins : beginsOrderBy (upperCase (trimEnds clause.first.text)) = false := by
          by_contra hbegins
          simp [leads_orderBy hfirst (by simpa using hbegins)] at horder
        refine ih (fun before clause' after heq => hlast (clause :: before) clause' after ?_) ?_
        · rw [heq, cons_append]
        · simpa [sectionsOf, Clause.sections, hmore, allRebuildOnly, hfirst, hbegins] using h
    intro clause' hclause'
    rcases mem_cons.mp hclause' with rfl | hclause'
    · exact Clause.metadata_of_rebuildOnly hfirst
    · exact hrest clause' hclause'

/-- The shortcut takes an alteration for one of the metadata alone wrongly exactly when it names a
conversion beside another clause, or when each part up to a reordering begins with an option. -/
theorem alterShortcut_sound_iff (classify : List Char → List Char → Except CdcError ParsedDdl)
    (statement : AlterStatement) (database : List Char) :
    (statement.Sound classify database ↔
      ((∀ clause ∈ statement.clauses, clause.Metadata) ∨ ¬ statement.Addresses database ∨
        statement.namesConversion = false ∧
          (statement.table.doubles = true ∨ StopsRebuild statement.parts))) ∧
    (statement.namesConversion = false → statement.escapesMark = false →
      OrderedLast statement.clauses → statement.Sound classify database) := by
  have hiff : statement.Sound classify database ↔
      ((∀ clause ∈ statement.clauses, clause.Metadata) ∨ ¬ statement.Addresses database ∨
        statement.namesConversion = false ∧
          (statement.table.doubles = true ∨ StopsRebuild statement.parts)) := by
    rw [statement.sound_iff]
    by_cases haddresses : statement.Addresses database
    · have hshortcut := statement.takesShortcut_eq_true_iff haddresses.1
      have hnot : takesShortcut statement.text = false ↔ statement.namesConversion = false ∧
          (statement.table.doubles = true ∨ StopsRebuild statement.parts) := by
        rw [← Bool.not_eq_true, hshortcut, not_or, Bool.not_eq_true, not_and_or, Bool.not_eq_false,
          not_not]
      rw [hnot]
    · simp [haddresses]
  refine ⟨hiff, fun hconversion hescapes hlast => hiff.mpr ?_⟩
  by_cases hstops : StopsRebuild statement.parts
  · exact .inr (.inr ⟨hconversion, .inr hstops⟩)
  · refine .inl (metadata_of_allRebuildOnly hlast ?_)
    rw [← allRebuildOnly_eq_false_iff, Bool.not_eq_false] at hstops
    rwa [AlterStatement.parts, hescapes] at hstops

def spelled (text : String) : List Token :=
  text.toList.filterMap fun c => if h : isPlain c = true then some (.char c h) else none

def sampleTable : TableName where
  schema := none
  name := .word ['t'] (by decide) (forall_mem_singleton.mpr rfl) (by decide)

def addsColumn : Clause where
  first := ⟨spelled " ADD COLUMN b INT", by decide⟩

def convertsAndAdds : AlterStatement where
  margin := []
  verb := "ALTER TABLE".toList
  gap := [' ']
  table := sampleTable
  space := [' ']
  clauses := [⟨⟨spelled "CONVERT TO CHARACTER SET utf8mb4", by decide⟩, [], by simp⟩, addsColumn]
  semicolons := 0
  tail := []
  verb_eq := by decide
  margin_blank := by simp
  gap_blank := forall_mem_singleton.mpr rfl
  space_blank := forall_mem_singleton.mpr rfl
  tail_blank := by simp
  nonempty := by decide
  separated := ⟨' ', by decide, by decide⟩

/-- A comment that ends in an escaped apostrophe beside a new column. -/
def commentsAndAdds : AlterStatement :=
  { convertsAndAdds with
    clauses := [⟨⟨spelled "COMMENT " ++ [.quoted .single [.escaped apostrophe rfl]], by decide⟩, [],
      by simp⟩, addsColumn]
    nonempty := by decide
    separated := ⟨' ', by decide, by decide⟩ }

def enginesAndAdds : AlterStatement :=
  { convertsAndAdds with
    clauses := [⟨⟨spelled "ENGINE=InnoDB", by decide⟩, [], by simp⟩, addsColumn]
    nonempty := by decide
    separated := ⟨' ', by decide, by decide⟩ }

theorem alterShortcut_sound_iff_engine :
    enginesAndAdds.text = "ALTER TABLE t ENGINE=InnoDB, ADD COLUMN b INT".toList ∧
      enginesAndAdds.Sound (fun _ _ => .ok {}) "app".toList := by
  have hlast : OrderedLast enginesAndAdds.clauses := by
    intro before clause after h hafter
    rcases before with _ | ⟨_, _ | _⟩
    · cases h
      decide +kernel
    · cases h
      exact absurd rfl hafter
    · simp [enginesAndAdds] at h
  exact ⟨by decide +kernel, (alterShortcut_sound_iff _ _ _).2 (by decide +kernel)
    (by decide +kernel) hlast⟩

theorem alterShortcut_swallows_addColumn :
    (convertsAndAdds.text =
        "ALTER TABLE t CONVERT TO CHARACTER SET utf8mb4, ADD COLUMN b INT".toList ∧
      ¬ convertsAndAdds.Sound (fun _ _ => .ok {}) "app".toList) ∧
    (commentsAndAdds.text = "ALTER TABLE t COMMENT '\\'', ADD COLUMN b INT".toList ∧
      ¬ commentsAndAdds.Sound (fun _ _ => .ok {}) "app".toList) := by
  refine ⟨⟨by decide +kernel, ?_⟩, by decide +kernel, ?_⟩
  · rw [AlterStatement.sound_iff, AlterStatement.Addresses]
    decide +kernel
  · rw [AlterStatement.sound_iff, AlterStatement.Addresses]
    decide +kernel

end Pintail.Cdc
