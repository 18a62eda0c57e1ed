import Mathlib
import Pintail.Cdc.Ddl

/-! # The text of an alteration

An alteration is written as the name of a table and clauses with commas between them. Quoted text
and parentheses may hold commas of their own, so a clause is a list of tokens whose parentheses
close; only a reordering lists its columns with commas outside parentheses.
-/

namespace Pintail.Cdc

open Words List
open Bool hiding not_or

inductive Quote
  | single
  | double
  | back

def backslash : Char := Char.ofNat 92

namespace Quote

def mark : Quote → Char
  | single => apostrophe
  | double => doubleQuote
  | back => backquote

/-- Whether a backslash in the quoted text escapes the character after it. -/
def escapes : Quote → Bool
  | back => false
  | _ => true

theorem isQuote_mark (quote : Quote) : isQuote quote.mark = true := by
  cases quote <;> rfl

theorem backslash_ne_mark (quote : Quote) : backslash ≠ quote.mark := by
  cases quote <;> decide

end Quote

/-- A character of a quoted text as it is written. -/
inductive QuotedChar (quote : Quote)
  | plain (c : Char) (unmarked : c ≠ quote.mark) (unescaping : quote.escapes = true → c ≠ backslash)
  | doubled
  | escaped (c : Char) (escapes : quote.escapes = true)

namespace QuotedChar

variable {quote : Quote}

def text : QuotedChar quote → List Char
  | plain c _ _ => [c]
  | doubled => [quote.mark, quote.mark]
  | escaped c _ => [backslash, c]

/-- A quotation mark that a backslash keeps from closing its quoted text. -/
def escapesMark : QuotedChar quote → Bool
  | escaped c _ => c == quote.mark
  | _ => false

end QuotedChar

def isPlain (c : Char) : Bool := !isQuote c && c ∉ ['(', ')', ',', ';']

inductive Token
  | char (c : Char) (plain : isPlain c = true)
  | quoted (quote : Quote) (body : List (QuotedChar quote))
  | opening
  | closing
  | comma

open Token

namespace Token

def text : Token → List Char
  | char c _ => [c]
  | quoted quote body => quote.mark :: body.flatMap QuotedChar.text ++ [quote.mark]
  | opening => ['(']
  | closing => [')']
  | comma => [',']

def escapesMark : Token → Bool
  | quoted _ body => body.any QuotedChar.escapesMark
  | _ => false

/-- Whether the parentheses open in `depth` are closed by the tokens, with no comma outside. -/
def closes : ℕ → List Token → Bool
  | depth, [] => depth == 0
  | depth, opening :: tokens => closes (depth + 1) tokens
  | 0, closing :: _ => false
  | depth + 1, closing :: tokens => closes depth tokens
  | depth, comma :: tokens => depth != 0 && closes depth tokens
  | depth, _ :: tokens => closes depth tokens

end Token

/-- A text without commas outside quotes and parentheses. -/
structure Section where
  tokens : List Token
  closes : closes 0 tokens = true

namespace Section

variable (part : Section)

def text : List Char := part.tokens.flatMap Token.text

def escapesMark : Bool := part.tokens.any Token.escapesMark

end Section

def isWordChar (c : Char) : Bool :=
  !isWhiteSpace c && (c.isAlphanum || c == '_' || c == '$' || 128 ≤ c.toNat)

/-- Whether a text begins with the given words, in any case and with any blanks before each. -/
def leads : List String → List Char → Bool
  | [], _ => true
  | word :: words, text =>
    upperCase ((trimLeft text).takeWhile isWordChar) == word.toList &&
      leads words ((trimLeft text).dropWhile isWordChar)

/-- A clause of an alteration; the columns a reordering lists after its first are in `more`. -/
structure Clause where
  first : Section
  more : List Section := []
  ordering : more ≠ [] → leads ["ORDER", "BY"] first.text = true := by simp

namespace Clause

variable (clause : Clause)

def sections : List Section := clause.first :: clause.more

def rebuildWords : List (List String) :=
  [["FORCE"], ["ORDER", "BY"], ["ALGORITHM"], ["LOCK"]]

def optionWords : List (List String) :=
  [["ENGINE"], ["ROW_FORMAT"], ["AUTO_INCREMENT"], ["COMMENT"], ["KEY_BLOCK_SIZE"],
    ["STATS_PERSISTENT"], ["STATS_AUTO_RECALC"], ["STATS_SAMPLE_PAGES"], ["AVG_ROW_LENGTH"],
    ["CHECKSUM"], ["DELAY_KEY_WRITE"], ["PACK_KEYS"], ["MAX_ROWS"], ["MIN_ROWS"], ["COMPRESSION"],
    ["ENCRYPTION"], ["DEFAULT", "CHARSET"], ["DEFAULT", "CHARACTER", "SET"],
    ["DEFAULT", "COLLATE"], ["CHARSET"], ["CHARACTER", "SET"], ["COLLATE"], ["AUTOEXTEND_SIZE"],
    ["CONNECTION"], ["DATA", "DIRECTORY"], ["INDEX", "DIRECTORY"], ["ENGINE_ATTRIBUTE"],
    ["SECONDARY_ENGINE_ATTRIBUTE"], ["INSERT_METHOD"], ["PASSWORD"], ["START", "TRANSACTION"],
    ["TABLESPACE"], ["UNION"]]

def conversionWords : List (List String) :=
  [["CONVERT", "TO", "CHARACTER", "SET"], ["CONVERT", "TO", "CHARSET"]]

/-- A clause that rebuilds the table, sets an option of it or converts its character set. -/
def Metadata : Prop :=
  ∃ words ∈ rebuildWords ++ optionWords ++ conversionWords, leads words clause.first.text = true

instance : Decidable clause.Metadata := by unfold Metadata; infer_instance

end Clause

section Cut

variable {depth : ℤ} {part rest : List Char} {c : Char}

theorem cutClauses_quoted {quote : Quote} {body : List (QuotedChar quote)}
    (h : body.any QuotedChar.escapesMark = false) :
    cutClauses depth (some quote.mark) part
        (body.flatMap QuotedChar.text ++ quote.mark :: rest) =
      cutClauses depth none (part ++ body.flatMap QuotedChar.text ++ [quote.mark]) rest := by
  induction body generalizing part with
  | nil => simp [cutClauses]
  | cons c body ih =>
    rw [any_cons, or_eq_false_iff] at h
    obtain ⟨hc, hbody⟩ := h
    cases c with
    | plain c unmarked unescaping =>
      simp [QuotedChar.text, cutClauses, unmarked, ih hbody]
    | doubled =>
      simp [QuotedChar.text, cutClauses, quote.isQuote_mark, ih hbody]
    | escaped c escapes =>
      have hc' : c ≠ quote.mark := by simpa [QuotedChar.escapesMark] using hc
      simp [QuotedChar.text, cutClauses, quote.backslash_ne_mark, hc', ih hbody]

theorem cutClauses_plain (h : isPlain c = true) :
    cutClauses depth none part (c :: rest) = cutClauses depth none (part ++ [c]) rest := by
  simp only [isPlain, mem_cons, not_or, and_eq_true, not_eq_true', decide_eq_true_eq] at h
  obtain ⟨hquote, hopen, hclose, hcomma, -⟩ := h
  simp [cutClauses, hquote, hopen, hclose, hcomma]

theorem cutClauses_tokens {tokens : List Token} {open_ : ℕ} (hcloses : closes open_ tokens)
    (h : tokens.any escapesMark = false) :
    cutClauses open_ none part (tokens.flatMap text ++ rest) =
      cutClauses 0 none (part ++ tokens.flatMap text) rest := by
  induction tokens generalizing open_ part with
  | nil =>
    obtain rfl : open_ = 0 := by simpa [closes] using hcloses
    simp
  | cons token tokens ih =>
    rw [any_cons, or_eq_false_iff] at h
    obtain ⟨htoken, htokens⟩ := h
    have hstep (next : ℕ) (hnext : closes next tokens) :=
      @ih (part ++ token.text) next hnext htokens
    rw [flatMap_cons, append_assoc, ← append_assoc part]
    cases token with
    | char c plain =>
      rw [← hstep open_ (by simpa [closes] using hcloses), text, singleton_append,
        cutClauses_plain plain]
    | quoted quote body =>
      rw [← hstep open_ (by simpa [closes] using hcloses)]
      simp [text, cutClauses, quote.isQuote_mark, cutClauses_quoted htoken]
    | opening =>
      rw [← hstep (open_ + 1) (by simpa [closes] using hcloses)]
      simp [text, cutClauses, show isQuote '(' = false from rfl]
    | closing =>
      cases open_ with
      | zero => simp [closes] at hcloses
      | succ open_ =>
        rw [← hstep open_ (by simpa [closes] using hcloses)]
        simp [text, cutClauses, show isQuote ')' = false from rfl]
    | comma =>
      obtain ⟨hdepth, hrest⟩ : open_ ≠ 0 ∧ closes open_ tokens = true := by
        simpa [closes] using hcloses
      rw [← hstep open_ hrest]
      simp [text, cutClauses, show isQuote ',' = false from rfl, hdepth]

theorem cutClauses_section {first : Section} (h : first.escapesMark = false) :
    cutClauses 0 none [] (first.text ++ rest) = cutClauses 0 none first.text rest := by
  simpa [Section.text] using @cutClauses_tokens [] rest first.tokens 0 first.closes h

theorem cutClauses_intercalate {sections : List Section} (hne : sections ≠ [])
    (h : sections.any Section.escapesMark = false) :
    cutClauses 0 none [] ([','].intercalate (sections.map Section.text)) =
      sections.map Section.text := by
  induction sections with
  | nil => exact absurd rfl hne
  | cons first sections ih =>
    rw [any_cons, or_eq_false_iff] at h
    obtain ⟨hfirst, hsections⟩ := h
    cases sections with
    | nil => simpa [cutClauses] using @cutClauses_section [] first hfirst
    | cons second sections =>
      have hcut : cutClauses 0 none first.text
            (',' :: [','].intercalate ((second :: sections).map Section.text)) =
          first.text ::
            cutClauses 0 none [] ([','].intercalate ((second :: sections).map Section.text)) := by
        simp [cutClauses, show isQuote ',' = false from rfl]
      rw [map_cons, map_cons, intercalate_cons_cons, ← map_cons,
        append_assoc, singleton_append, cutClauses_section hfirst, hcut,
        ih (by simp) hsections]

variable {quote : Option Char}

theorem cutClauses_cons (depth : ℤ) (hquote : quote.all isQuote) (c : Char) :
    (∃ depth', ∃ quote' : Option Char, quote'.all isQuote ∧ ∀ part rest,
      cutClauses depth quote part (c :: rest) = cutClauses depth' quote' (part ++ [c]) rest) ∨
    ∀ part rest, cutClauses depth quote part (c :: rest) = part :: cutClauses depth none [] rest := by
  cases quote with
  | some mark =>
    refine .inl ⟨depth, if c = mark then none else some mark, ?_, fun part rest => by rw [cutClauses]⟩
    split_ifs
    · rfl
    · exact hquote
  | none =>
    simp only [cutClauses]
    split_ifs with hc
    · exact .inl ⟨_, some c, hc, fun _ _ => rfl⟩
    · exact .inl ⟨_, none, rfl, fun _ _ => rfl⟩
    · exact .inl ⟨_, none, rfl, fun _ _ => rfl⟩
    · exact .inr fun _ _ => rfl
    · exact .inl ⟨_, none, rfl, fun _ _ => rfl⟩

theorem isPlain_of_isWhiteSpace (h : isWhiteSpace c = true) : isPlain c = true := by
  by_contra hplain
  simp only [isPlain, isQuote, mem_cons, and_eq_true,
    not_eq_true', decide_eq_true_eq, or_eq_false_iff, beq_eq_false_iff_ne] at hplain
  have hc : c = apostrophe ∨ c = doubleQuote ∨ c = backquote ∨ c = '(' ∨ c = ')' ∨ c = ',' ∨
      c = ';' := by tauto
  rcases hc with rfl | rfl | rfl | rfl | rfl | rfl | rfl <;> exact absurd h (by decide)

theorem cutClauses_blank {blank : List Char} (hquote : quote.all isQuote)
    (h : ∀ c ∈ blank, isWhiteSpace c = true) :
    cutClauses depth quote part (blank ++ rest) = cutClauses depth quote (part ++ blank) rest := by
  induction blank generalizing part with
  | nil => simp
  | cons c blank ih =>
    have hplain := isPlain_of_isWhiteSpace (h c (by simp))
    have hc : cutClauses depth quote part (c :: (blank ++ rest)) =
        cutClauses depth quote (part ++ [c]) (blank ++ rest) := by
      cases quote with
      | none => exact cutClauses_plain hplain
      | some mark =>
        have hmark : c ≠ mark := by
          rintro rfl
          have hmark : isQuote c = true := hquote
          simp [isPlain, hmark] at hplain
        simp [cutClauses, hmark]
    rw [cons_append, hc, ih fun d hd => h d (by simp [hd])]
    simp

theorem map_trimEnds_cutClauses_front {front text : List Char} (hquote : quote.all isQuote)
    (h : ∀ c ∈ front, isWhiteSpace c = true) :
    (cutClauses depth quote (front ++ part) text).map trimEnds =
      (cutClauses depth quote part text).map trimEnds := by
  induction text generalizing depth quote part with
  | nil => simp [cutClauses, trimEnds_append_left h]
  | cons c text ih =>
    obtain ⟨depth', quote', hquote', hjoin⟩ | hend := cutClauses_cons depth hquote c
    · rw [hjoin, hjoin, append_assoc, ih hquote']
    · rw [hend, hend, map_cons, map_cons, trimEnds_append_left h]

theorem map_trimEnds_cutClauses_back {back text : List Char} (hquote : quote.all isQuote)
    (h : ∀ c ∈ back, isWhiteSpace c = true) :
    (cutClauses depth quote part (text ++ back)).map trimEnds =
      (cutClauses depth quote part text).map trimEnds := by
  induction text generalizing depth quote part with
  | nil =>
    have hblank := @cutClauses_blank depth part [] quote back hquote h
    rw [append_nil] at hblank
    simp [hblank, cutClauses, trimEnds_append_right h]
  | cons c text ih =>
    obtain ⟨depth', quote', hquote', hjoin⟩ | hend := cutClauses_cons depth hquote c
    · rw [cons_append, hjoin, hjoin, ih hquote']
    · rw [cons_append, hend, hend, map_cons, map_cons, @ih depth [] none rfl]

theorem map_trimEnds_cutClauses_trimEnds (text : List Char) :
    (cutClauses 0 none [] (trimEnds text)).map trimEnds =
      (cutClauses 0 none [] text).map trimEnds := by
  obtain ⟨front, back, htext, hfront, hback⟩ := exists_eq_append_trimEnds text
  have hskip := @cutClauses_blank 0 [] (trimEnds text ++ back) none front rfl hfront
  have hkept := @map_trimEnds_cutClauses_front 0 [] none front (trimEnds text ++ back) rfl hfront
  conv_rhs => rw [htext, append_assoc, hskip]
  rw [nil_append, ← append_nil front, hkept]
  exact (@map_trimEnds_cutClauses_back 0 [] none back (trimEnds text) rfl hback).symm

end Cut

theorem allRebuildOnly_map_trimEnds {parts parts' : List (List Char)}
    (h : parts.map trimEnds = parts'.map trimEnds) :
    allRebuildOnly parts = allRebuildOnly parts' := by
  induction parts generalizing parts' with
  | nil =>
    obtain rfl : parts' = [] := by simpa using h.symm
    rfl
  | cons part parts ih =>
    cases parts' with
    | nil => simp at h
    | cons part' parts' =>
      rw [map_cons, map_cons, cons.injEq] at h
      simp [allRebuildOnly, h.1, ih h.2]

/-- A part that is not one of the options, with no reordering before it. -/
def StopsRebuild (parts : List (List Char)) : Prop :=
  ∃ before part after, parts = before ++ part :: after ∧
    (∀ earlier ∈ before, beginsOrderBy (upperCase (trimEnds earlier)) = false) ∧
    rebuildOnly (upperCase (trimEnds part)) = false

theorem allRebuildOnly_eq_false_iff {parts : List (List Char)} :
    allRebuildOnly parts = false ↔ StopsRebuild parts := by
  induction parts with
  | nil => simp [allRebuildOnly, StopsRebuild]
  | cons first parts ih =>
    by_cases hfirst : rebuildOnly (upperCase (trimEnds first)) = true
    · have hstep : allRebuildOnly (first :: parts) = false ↔
          beginsOrderBy (upperCase (trimEnds first)) = false ∧ allRebuildOnly parts = false := by
        simp [allRebuildOnly, hfirst]
      rw [hstep, ih]
      constructor
      · rintro ⟨horder, before, part, after, rfl, hbefore, hpart⟩
        exact ⟨first :: before, part, after, rfl, by simpa using ⟨horder, hbefore⟩, hpart⟩
      · rintro ⟨_ | ⟨earlier, before⟩, part, after, heq, hbefore, hpart⟩
        · obtain ⟨rfl, rfl⟩ := cons.inj heq
          simp [hfirst] at hpart
        · obtain ⟨rfl, rfl⟩ := cons.inj heq
          exact ⟨hbefore _ (by simp), before, part, after, rfl,
            fun e he => hbefore e (by simp [he]), hpart⟩
    · have hfalse : allRebuildOnly (first :: parts) = false := by simp [allRebuildOnly, hfirst]
      simp only [hfalse, true_iff]
      exact ⟨[], first, parts, rfl, by simp, by simpa using hfirst⟩

theorem toUpper_eq_self_or (c : Char) :
    c.toUpper = c ∨ ∃ n, 97 ≤ n ∧ n ≤ 122 ∧ c = Char.ofNat n := by
  by_cases hlower : 97 ≤ c.toNat ∧ c.toNat ≤ 122
  · exact .inr ⟨c.toNat, hlower.1, hlower.2, (Char.ofNat_toNat c).symm⟩
  · refine .inl ?_
    rw [Char.toUpper, dif_neg]
    exact hlower

theorem isWordChar_toUpper (c : Char) : isWordChar c.toUpper = isWordChar c := by
  obtain h | ⟨n, hlow, hhigh, rfl⟩ := toUpper_eq_self_or c
  · rw [h]
  · interval_cases n <;> rfl

theorem isWhiteSpace_of_isWordChar {c : Char} (h : isWordChar c = true) :
    isWhiteSpace c = false := by
  simpa using (and_eq_true_iff.mp h).1

theorem eq_space_of_toUpper {c : Char} (h : c.toUpper = ' ') : c = ' ' := by
  obtain h' | ⟨n, hlow, hhigh, rfl⟩ := toUpper_eq_self_or c
  · rw [← h', h]
  · interval_cases n <;> exact absurd h (by decide)

theorem leads_trimLeft (words : List String) (text : List Char) :
    leads words (trimLeft text) = leads words text := by
  have htrim : trimLeft (trimLeft text) = trimLeft text := dropWhile_idempotent _ text
  cases words with
  | nil => rfl
  | cons word words => rw [leads, leads, htrim]

variable {words : List String} {text : List Char}

theorem leads_cons_of_append {word : String} {front rest : List Char}
    (hfront : upperCase front = word.toList) (hne : word.toList ≠ [])
    (hword : word.toList.all isWordChar = true) (hrest : ∀ c ∈ rest.head?, isWordChar c = false) :
    leads (word :: words) (front ++ rest) = leads words rest := by
  have hupper (c : Char) (hc : c ∈ front) : c.toUpper ∈ word.toList := by
    rw [← hfront]
    exact mem_map_of_mem hc
  have hchars (c : Char) (hc : c ∈ front) : isWordChar c = true := by
    rw [← isWordChar_toUpper]
    exact all_eq_true.mp hword _ (hupper c hc)
  have htrim : trimLeft (front ++ rest) = front ++ rest := by
    cases front with
    | nil => exact absurd hfront.symm hne
    | cons c front =>
      have hc : isWhiteSpace c = false := isWhiteSpace_of_isWordChar (hchars c (by simp))
      rw [trimLeft, cons_append, dropWhile_cons_of_neg (by simp [hc])]
  have hdrop : rest.dropWhile isWordChar = rest := by
    cases rest with
    | nil => rfl
    | cons c rest => rw [dropWhile_cons_of_neg (by simp [hrest c rfl])]
  have htake : rest.takeWhile isWordChar = [] := by
    cases rest with
    | nil => rfl
    | cons c rest => rw [takeWhile_cons_of_neg (by simp [hrest c rfl])]
  rw [leads, htrim, takeWhile_append_of_pos hchars, dropWhile_append_of_pos hchars,
    htake, hdrop, append_nil, hfront, beq_self_eq_true, Bool.true_and]

theorem leads_of_upperCase_eq {after : List Char}
    (hwords : ∀ word ∈ words, word.toList ≠ [] ∧ word.toList.all isWordChar = true)
    (hafter : ∀ c ∈ after.head?, isWordChar c = false)
    (h : upperCase text = [' '].intercalate (words.map String.toList) ++ after) :
    leads words text = true := by
  induction words generalizing text with
  | nil => rfl
  | cons word words ih =>
    obtain ⟨hne, hchars⟩ := hwords word (by simp)
    cases words with
    | nil =>
      obtain ⟨front, rest, rfl, hfront, hrest⟩ := map_eq_append_iff.mp
        (by simpa using h : upperCase text = word.toList ++ after)
      rw [leads_cons_of_append hfront hne hchars]
      · rfl
      · intro c hc
        rw [← isWordChar_toUpper]
        exact hafter _ (by rw [← hrest, head?_map, Option.mem_def.mp hc]; rfl)
    | cons next words =>
      rw [map_cons, map_cons, intercalate_cons_cons, append_assoc, append_assoc] at h
      obtain ⟨front, rest, rfl, hfront, hrest⟩ := map_eq_append_iff.mp h
      obtain ⟨c, rest, rfl, hc, htail⟩ := map_eq_cons_iff.mp hrest
      obtain rfl := eq_space_of_toUpper hc
      rw [leads_cons_of_append hfront hne hchars (by simp; rfl), ← leads_trimLeft,
        show trimLeft (' ' :: rest) = trimLeft rest from rfl, leads_trimLeft]
      exact ih (fun w hw => hwords w (by simp [hw])) htail

theorem exists_words_of_mem {option : String} (h : option ∈ rebuildOnlyClauses) :
    ∃ words ∈ Clause.rebuildWords ++ Clause.optionWords,
      option.toList = [' '].intercalate (words.map String.toList) := by
  revert h option
  decide +kernel

theorem words_spelled (h : words ∈ Clause.rebuildWords ++ Clause.optionWords) :
    ∀ word ∈ words, word.toList ≠ [] ∧ word.toList.all isWordChar = true := by
  revert h words
  decide +kernel

theorem exists_eq_trimLeft (text : List Char) :
    ∃ back, trimLeft text = trimEnds text ++ back ∧ ∀ c ∈ back, isWhiteSpace c = true :=
  ⟨(trimLeft text).rtakeWhile isWhiteSpace, rdropWhile_append_rtakeWhile.symm,
    fun _ hc => mem_rtakeWhile_imp hc⟩

theorem exists_option_of_rebuildOnly (h : rebuildOnly (upperCase (trimEnds text)) = true) :
    ∃ option ∈ rebuildOnlyClauses, option.toList <+: upperCase (trimEnds text) ∧
      ∃ words ∈ Clause.rebuildWords ++ Clause.optionWords,
        option.toList = [' '].intercalate (words.map String.toList) ∧ leads words text = true := by
  obtain ⟨option, hoption, hbegins⟩ := any_eq_true.mp h
  obtain ⟨hlead, hfollow⟩ := and_eq_true_iff.mp hbegins
  obtain ⟨after, hafter⟩ := isPrefixOf_iff_prefix.mp hlead
  obtain ⟨words, hwords, hspelled⟩ := exists_words_of_mem hoption
  obtain ⟨back, hback, hblank⟩ := exists_eq_trimLeft text
  have hupper : upperCase (trimLeft text) =
      [' '].intercalate (words.map String.toList) ++ (after ++ upperCase back) := by
    rw [hback, upperCase, map_append, ← upperCase, ← upperCase, ← hafter, hspelled, append_assoc]
  have hhead (c : Char) (hc : c ∈ (after ++ upperCase back).head?) : isWordChar c = false := by
    rw [← hafter, ← String.length_toList] at hfollow
    cases after with
    | cons a after =>
      obtain rfl : a = c := by simpa using hc
      have hfollows : [' ', '=', '\t', '\n'].all (!isWordChar ·) = true := by decide
      simpa using all_eq_true.mp hfollows a (by simpa using hfollow)
    | nil =>
      cases back with
      | nil => simp [upperCase] at hc
      | cons b back =>
        obtain rfl : b.toUpper = c := by simpa [upperCase] using hc
        rw [isWordChar_toUpper, isWordChar, hblank b (by simp)]
        rfl
  refine ⟨option, hoption, ⟨after, hafter⟩, words, hwords, hspelled, ?_⟩
  rw [← leads_trimLeft]
  exact leads_of_upperCase_eq (words_spelled hwords) hhead hupper

theorem Clause.metadata_of_rebuildOnly {clause : Clause}
    (h : rebuildOnly (upperCase (trimEnds clause.first.text)) = true) : clause.Metadata := by
  obtain ⟨-, -, -, words, hwords, -, hleads⟩ := exists_option_of_rebuildOnly h
  exact ⟨words, mem_append_left _ hwords, hleads⟩

theorem leads_orderBy (h : rebuildOnly (upperCase (trimEnds text)) = true)
    (horder : beginsOrderBy (upperCase (trimEnds text)) = true) :
    leads ["ORDER", "BY"] text = true := by
  obtain ⟨option, hoption, hlead, words, hwords, hspelled, hleads⟩ := exists_option_of_rebuildOnly h
  have hunique : ∀ option ∈ rebuildOnlyClauses, option.toList <+: "ORDER BY".toList ∨
      "ORDER BY".toList <+: option.toList → option = "ORDER BY" := by decide +kernel
  have hwhich : ∀ words ∈ Clause.rebuildWords ++ Clause.optionWords,
      "ORDER BY".toList = [' '].intercalate (words.map String.toList) → words = ["ORDER", "BY"] := by
    decide +kernel
  obtain rfl := hunique option hoption
    (List.prefix_or_prefix_of_prefix hlead (List.isPrefixOf_iff_prefix.mp horder))
  rwa [hwhich words hwords hspelled] at hleads

end Pintail.Cdc
