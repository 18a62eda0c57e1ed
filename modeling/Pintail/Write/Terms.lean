import Pintail.Probe.Migration
import Pintail.Write.Insert

/-! # The terms of a declared type

A local `CREATE TABLE` renders its parsed types as the source reports them. The members of an `ENUM`
or `SET` are quoted with their backslashes and quotes doubled, and the declaration is lowered outside
its quoted runs before the members are read back from it.
-/

namespace Pintail.Write

open List Probe Words

inductive ExactNumberInfo
  | none
  | precision (precision : ℕ)
  | precisionAndScale (precision : ℕ) (scale : ℤ)

/-- A parsed type. The types that are written as the parser prints them stand for that text. -/
inductive SqlDataType
  | float (bits : ℕ) (unsigned : Bool)
  | real (unsigned : Bool)
  | enum (members : List String)
  | set (members : List String)
  | decimal (info : ExactNumberInfo) (text : String)
  | other (text : String)

structure MysqlTerms where
  bare : String
  full : String
  precision : Option UInt8
  scale : Option UInt8

def replace (c : Char) (text : List Char) (into : List Char) : List Char :=
  text.flatMap fun c' => if c' = c then into else [c']

def quotedLabel (label : String) : List Char :=
  quote :: replace quote (replace backslash label.toList [backslash, backslash]) [quote, quote] ++
    [quote]

def quoted (labels : List String) : List Char := [','].intercalate (labels.map quotedLabel)

def signed (base : String) (unsigned : Bool) : String :=
  if unsigned then base ++ " unsigned" else base

def mysqlTerms (realAsFloat : Bool) (dataType : SqlDataType) : Except WriteError MysqlTerms := do
  let full ← match dataType with
    | .float bits unsigned =>
      if 53 < bits then .error (.invalid "FLOAT precision is out of range")
      else .ok (signed (if 24 < bits then "double" else "float") unsigned)
    | .real unsigned => .ok (signed (if realAsFloat then "float" else "double") unsigned)
    | .enum members => .ok (String.ofList ("enum(".toList ++ quoted members ++ [')']))
    | .set members => .ok (String.ofList ("set(".toList ++ quoted members ++ [')']))
    | .decimal _ text | .other text => .ok (String.ofList (lowercase text))
  let bare := trimEnds (full.toList.takeWhile fun c => c ≠ '(' ∧ c ≠ ' ')
  let byte (term : String) (value : ℤ) : Except WriteError UInt8 :=
    if 0 ≤ value ∧ value < 256 then .ok (UInt8.ofNat value.toNat)
    else .error (.invalid s!"DECIMAL {term} is out of range")
  match dataType with
  | .decimal (.precisionAndScale precision scale) _ =>
    return ⟨String.ofList bare, full, some (← byte "precision" precision),
      some (← byte "scale" scale)⟩
  | .decimal (.precision precision) _ =>
    return ⟨String.ofList bare, full, some (← byte "precision" precision), some 0⟩
  | .decimal .none _ => return ⟨String.ofList bare, full, some 10, some 0⟩
  | _ => return ⟨String.ofList bare, full, none, none⟩

/-- The lower case of a character in Unicode: that of ASCII on ASCII, and white space has no case. -/
structure CaseMapping where
  toLowercase : Char → List Char
  ascii : ∀ c : Char, c.toNat < 128 → toLowercase c = [c.toLower]
  white : ∀ c, isWhiteSpace c = true → toLowercase c = [c]

variable (mapping : CaseMapping)

/-- The rest of a declaration, folded from inside or outside a quoted run. -/
def foldKeyword : Option Char → Bool → List Char → List Char
  | _, _, [] => []
  | some opening, escaped, c :: rest =>
    c :: (if escaped then foldKeyword (some opening) false rest
      else if c = backslash then foldKeyword (some opening) true rest
      else if c = opening then foldKeyword none escaped rest
      else foldKeyword (some opening) escaped rest)
  | none, escaped, c :: rest =>
    if c = quote ∨ c = '"' then c :: foldKeyword (some c) escaped rest
    else mapping.toLowercase c ++ foldKeyword none escaped rest

def lowercaseTypeKeyword (columnType : String) : String :=
  String.ofList (foldKeyword mapping none false columnType.toList)

theorem readLabels_escaped (label : List Char) (read rest : List Char) :
    readLabels (.inside read)
        (replace quote (replace backslash label [backslash, backslash]) [quote, quote] ++ rest) =
      readLabels (.inside (read ++ label)) rest := by
  induction label generalizing read with
  | nil => simp [replace]
  | cons c label ih =>
    have hne : backslash ≠ quote := by decide
    simp only [replace] at ih ⊢
    by_cases hslash : c = backslash
    · simp [hslash, hne, readLabels, ih]
    · by_cases hquote : c = quote
      · simp [hquote, hne.symm, readLabels, ih]
      · simp [hslash, hquote, readLabels, ih]

theorem readLabels_quoted (label : String) (labels : List String) :
    readLabels .start (quoted (label :: labels)) = some (label :: labels) ∧
      readLabels .spaces (quoted (label :: labels)) = some (label :: labels) := by
  have hquote : quote ≠ backslash ∧ quote ≠ ' ' ∧ ',' ≠ quote := by decide
  induction labels generalizing label with
  | nil => simp [quoted, quotedLabel, readLabels, readLabels_escaped, hquote]
  | cons next labels ih =>
    have hcons : quoted (label :: next :: labels) =
        quotedLabel label ++ ',' :: quoted (next :: labels) := by
      simp [quoted]
    rw [hcons]
    simp [quotedLabel, readLabels, readLabels_escaped, hquote, (ih next).2]

inductive MemberKind
  | enum
  | set

def MemberKind.keyword : MemberKind → String
  | .enum => "enum"
  | .set => "set"

def MemberKind.declare (members : List String) : MemberKind → SqlDataType
  | .enum => .enum members
  | .set => .set members

theorem mysqlTerms_declare (realAsFloat : Bool) (kind : MemberKind) (members : List String) :
    ∃ terms, mysqlTerms realAsFloat (kind.declare members) = .ok terms ∧
      terms.full = String.ofList (kind.keyword.toList ++ ['('] ++ quoted members ++ [')']) := by
  cases kind <;> exact ⟨_, rfl, rfl⟩

theorem trimEnds_declared (kind : MemberKind) (body : List Char) :
    trimEnds (kind.keyword.toList ++ ['('] ++ (body ++ [')'])) =
      kind.keyword.toList ++ ['('] ++ (body ++ [')']) := by
  refine trimEnds_eq_self ?_ ?_
  · cases kind <;> rintro c ⟨⟩ <;> decide
  · rw [← append_assoc, getLast?_concat]
    rintro c ⟨⟩
    decide

variable {mapping} {kind : MemberKind} {labels : List String}
  {text : String} {rest opening : List Char}

/-- What a declaration in which members are read looks like. -/
theorem declarationLabels_eq_some :
    declarationLabels text kind.keyword = some labels ↔
      labels ≠ [] ∧ ∃ opening body, trimEnds text.toList = opening ++ (body ++ [')']) ∧
        opening.map Char.toLower = kind.keyword.toList ++ ['('] ∧
        readLabels .start body = some labels := by
  constructor
  · intro h
    rw [declarationLabels] at h
    split_ifs at h with hshape
    obtain ⟨hread, hne⟩ := Option.filter_eq_some_iff.mp h
    simp only [Bool.or_eq_true, Bool.not_eq_true', not_or, Bool.not_eq_false,
      bne_iff_ne, not_not] at hshape
    obtain ⟨rest, hrest⟩ := List.isPrefixOf_iff_prefix.mp hshape.1
    obtain ⟨front, hfront⟩ := getLast?_eq_some_iff.mp hshape.2
    rw [hfront] at hrest hread
    have hle : (kind.keyword.toList ++ ['(']).length ≤ front.length := by
      by_contra hlt
      have hlen := congrArg length hrest
      obtain rfl : rest = [] := by
        apply eq_nil_of_length_eq_zero
        simp only [length_append, length_map, length_singleton] at hlt hlen ⊢
        omega
      rw [append_nil, map_append] at hrest
      exact absurd (append_inj_right' hrest rfl) (by decide)
    rw [drop_append_of_le_length hle, dropLast_concat] at hread
    refine ⟨by simpa using hne, front.take (kind.keyword.toList ++ ['(']).length, _, ?_, ?_, hread⟩
    · rw [hfront, ← append_assoc, take_append_drop]
    · rw [map_append] at hrest
      rw [map_take, ← take_append_of_le_length (by simpa using hle), ← hrest, take_left]
  · rintro ⟨hne, opening, body, htrim, hopening, hread⟩
    have hlower : ((kind.keyword.toList ++ ['(']).isPrefixOf
        ((opening ++ (body ++ [')'])).map Char.toLower)) = true :=
      List.isPrefixOf_iff_prefix.mpr ⟨_, by rw [map_append, hopening]⟩
    have hdrop : (opening ++ (body ++ [')'])).drop (kind.keyword.toList ++ ['(']).length =
        body ++ [')'] := by
      rw [← hopening, length_map, drop_left]
    simp only [declarationLabels, htrim, hlower, hdrop, dropLast_concat, hread]
    simp [hne]

theorem foldKeyword_white {blank : List Char} (h : ∀ c ∈ blank, isWhiteSpace c = true) :
    foldKeyword mapping none false (blank ++ rest) =
      blank ++ foldKeyword mapping none false rest := by
  induction blank with
  | nil => rfl
  | cons c blank ih =>
    obtain ⟨hc, hblank⟩ := forall_mem_cons.mp h
    have hquote : ¬ (c = quote ∨ c = '"') := by
      rintro (rfl | rfl) <;> exact absurd hc (by decide)
    rw [cons_append, foldKeyword, if_neg hquote, mapping.white c hc, ih hblank]
    rfl

/-- The quoted run and the escape in which the reader of a member list stands. -/
def folded : LabelState → Option Char × Bool
  | .start | .spaces | .quoted _ => (none, false)
  | .inside _ => (some quote, false)
  | .escaped _ => (some quote, true)

theorem foldKeyword_of_readLabels {state : LabelState} {body : List Char}
    (h : readLabels state body = some labels) :
    foldKeyword mapping (folded state).1 (folded state).2 (body ++ rest) =
      body ++ foldKeyword mapping none false rest := by
  fun_induction readLabels state body generalizing labels with
  | case5 rest' ih =>
    have hspace : mapping.toLowercase ' ' = [' '] := mapping.ascii _ (by decide)
    simpa [folded, foldKeyword, hspace, show ' ' ≠ quote by decide] using ih h
  | case16 label rest' _ ih =>
    obtain ⟨more, hmore, -⟩ := Option.map_eq_some_iff.mp h
    have hcomma : mapping.toLowercase ',' = [','] := mapping.ascii _ (by decide)
    simpa [folded, foldKeyword, hcomma, show ',' ≠ quote by decide] using ih hmore
  | _ => simp_all [folded, foldKeyword]

theorem MemberKind.of_mem_opening {c : Char}
    (h : opening.map Char.toLower = kind.keyword.toList ++ ['(']) (hc : c ∈ opening) :
    c.toNat < 128 ∧ c ≠ quote ∧ c ≠ '"' := by
  have hlower : c.toLower ∈ kind.keyword.toList ++ ['('] := h ▸ mem_map_of_mem hc
  have hascii : (kind.keyword.toList ++ ['(']).all fun d =>
      d.toNat < 128 ∧ d ≠ quote ∧ d ≠ '"' := by
    cases kind <;> decide
  obtain ⟨hlt, hquote, hdouble⟩ := of_decide_eq_true (all_eq_true.mp hascii _ hlower)
  refine ⟨?_, fun heq => hquote (by rw [heq]; rfl), fun heq => hdouble (by rw [heq]; rfl)⟩
  unfold Char.toLower at hlt
  split at hlt
  · rename_i hupper
    have hle : c.toNat ≤ 90 := hupper.2
    omega
  · exact hlt

theorem foldKeyword_opening (h : ∀ c ∈ opening, c.toNat < 128 ∧ c ≠ quote ∧ c ≠ '"') :
    foldKeyword mapping none false (opening ++ rest) =
      opening.map Char.toLower ++ foldKeyword mapping none false rest := by
  induction opening with
  | nil => rfl
  | cons c opening ih =>
    obtain ⟨⟨hc, hquote⟩, hopening⟩ := forall_mem_cons.mp h
    rw [cons_append, foldKeyword, if_neg (not_or.mpr hquote), mapping.ascii c hc, ih hopening]
    rfl

theorem declarationLabels_lowercaseTypeKeyword
    (h : declarationLabels text kind.keyword = some labels) :
    declarationLabels (lowercaseTypeKeyword mapping text) kind.keyword = some labels := by
  rw [declarationLabels_eq_some] at h ⊢
  obtain ⟨hne, opening, body, htrim, hopening, hread⟩ := h
  obtain ⟨front, back, htext, hfront, hback⟩ := exists_eq_append_trimEnds text.toList
  have hclose : mapping.toLowercase ')' = [')'] := mapping.ascii _ (by decide)
  have hbody : foldKeyword mapping none false (body ++ ([')'] ++ back)) =
      body ++ foldKeyword mapping none false ([')'] ++ back) := foldKeyword_of_readLabels hread
  have hblank : foldKeyword mapping none false back = back := by
    rw [← append_nil back, foldKeyword_white hback, foldKeyword]
  have hfold : (lowercaseTypeKeyword mapping text).toList =
      front ++ ((kind.keyword.toList ++ ['(']) ++ (body ++ [')'])) ++ back := by
    rw [lowercaseTypeKeyword, htext, htrim, append_assoc, append_assoc,
      append_assoc, foldKeyword_white hfront,
      foldKeyword_opening fun c hc => MemberKind.of_mem_opening hopening hc, hopening,
      hbody, singleton_append, foldKeyword, if_neg (by decide), hclose, hblank]
    simp
  refine ⟨hne, kind.keyword.toList ++ ['('], body, ?_, ?_, hread⟩
  · rw [hfold, trimEnds_append_right hback, trimEnds_append_left hfront, trimEnds_declared]
  · cases kind <;> decide

/-- The members of a declaration are read back from the text it is written as, and lowering a
declaration outside its quoted runs leaves its members as they are. -/
theorem labels_kept (mapping : CaseMapping) (realAsFloat : Bool) (kind : MemberKind) :
    (∀ labels, labels ≠ [] → ∃ terms, mysqlTerms realAsFloat (kind.declare labels) = .ok terms ∧
      declarationLabels terms.full kind.keyword = some labels) ∧
    ∀ text labels, declarationLabels text kind.keyword = some labels →
      declarationLabels (lowercaseTypeKeyword mapping text) kind.keyword = some labels := by
  refine ⟨fun labels hne => ?_, fun text labels => declarationLabels_lowercaseTypeKeyword⟩
  obtain ⟨terms, hterms, hfull⟩ := mysqlTerms_declare realAsFloat kind labels
  obtain ⟨label, rest, rfl⟩ := exists_cons_of_ne_nil hne
  refine ⟨terms, hterms, declarationLabels_eq_some.mpr ⟨hne, kind.keyword.toList ++ ['('],
    quoted (label :: rest), ?_, ?_, (readLabels_quoted label rest).1⟩⟩
  · rw [hfull, String.toList_ofList, append_assoc, trimEnds_declared]
  · cases kind <;> decide

theorem toLower_of_isWhiteSpace (c : Char) (hc : isWhiteSpace c = true) : [c.toLower] = [c] := by
  unfold Char.toLower
  split
  · rename_i hupper
    have hle : 65 ≤ c.toNat ∧ c.toNat ≤ 90 := hupper
    simp only [isWhiteSpace, Bool.or_eq_true, Bool.and_eq_true, decide_eq_true_eq, beq_iff_eq] at hc
    omega
  · rfl

def asciiMapping : CaseMapping where
  toLowercase c := [c.toLower]
  ascii _ _ := rfl
  white := toLower_of_isWhiteSpace

theorem labels_kept_escaped :
    (∃ terms, mysqlTerms false (.enum ["it's", "C:\\", ")"]) = .ok terms ∧
      declarationLabels terms.full "enum" = some ["it's", "C:\\", ")"]) ∧
    declarationLabels (lowercaseTypeKeyword asciiMapping "ENUM('Draft','Sent')") "enum" =
      some ["Draft", "Sent"] :=
  ⟨(labels_kept asciiMapping false .enum).1 _ (by decide),
    (labels_kept asciiMapping false .enum).2 _ _ (by decide)⟩

/-- An empty list of members is written as a declaration in which none are read. -/
theorem no_labels_read_back : ∃ terms, mysqlTerms false (.enum []) = .ok terms ∧
    declarationLabels terms.full "enum" = none :=
  ⟨_, rfl, by decide⟩

end Pintail.Write
