import Pintail.Probe.HeldValues

/-! # What the judgement of a change rules out

A judgement that gives checks has compared the generation, the signedness, the family, the width and
the members of the two declarations. From each comparison and the checks it left follows, for the
values of one family, that the refreshed declaration holds them as they are.
-/

namespace Pintail.Probe

open List SourceColumn StoredValueCheck Option SourceValue String

variable {sets : CharacterSets} {previous refreshed : SourceColumn} {checks : List StoredValueCheck}

/-- What the judgement has established when it gives checks. -/
structure Judged (previous refreshed : SourceColumn) (checks : List StoredValueCheck) : Prop where
  generation : generationChange previous refreshed = none
  unsigned : previous.declaration.unsigned = refreshed.declaration.unsigned
  family : previous.family = refreshed.family
  nulls : previous.nullable = true → refreshed.nullable = false → .noNulls ∈ checks
  width : narrowed previous.declaration refreshed.declaration = true →
    ∃ check ∈ checks, fitsCheck previous refreshed = some check
  beyond : ∀ {reason check}, rewriteBeyondWidth previous refreshed = some (reason, check) →
    ∃ kept ∈ checks, check = some kept

theorem Change.refuse_reason_ne_none (change : Change) (reason : String)
    (check : Option StoredValueCheck) : (change.refuse reason check).reason ≠ none := by
  cases h : change.reason <;> simp [refuse]

@[simp] theorem Change.refuse_none_checks (change : Change) (reason : String) :
    (change.refuse reason none).checks = none := rfl

theorem judgeColumnChange_checks (previous refreshed : SourceColumn) :
    (judgeColumnChange previous refreshed).checks = some checks ↔
      generationChange previous refreshed = none ∧
      previous.declaration.unsigned = refreshed.declaration.unsigned ∧
      previous.family = refreshed.family ∧
      ∃ width beyond,
        (if narrowed previous.declaration refreshed.declaration then
          (fitsCheck previous refreshed).map ([·]) else some []) = some width ∧
        (match rewriteBeyondWidth previous refreshed with
          | some (_, check) => check.map ([·])
          | none => some []) = some beyond ∧
        checks = (if previous.nullable && !refreshed.nullable then [.noNulls] else []) ++
          width ++ beyond := by
  unfold judgeColumnChange
  dsimp only
  have hfamily (column : SourceColumn) : column.declaration.family = column.family := rfl
  cases generationChange previous refreshed with
  | some detail => simp
  | none =>
    by_cases hu : previous.declaration.unsigned = refreshed.declaration.unsigned
    · by_cases hf : previous.family = refreshed.family
      · rw [if_neg (not_not.mpr hu), if_neg (by rw [hfamily]; exact not_not.mpr hf)]
        simp only [hu, hf]
        cases previous.nullable && !refreshed.nullable <;>
          cases narrowed previous.declaration refreshed.declaration <;>
          cases fitsCheck previous refreshed <;>
          rcases rewriteBeyondWidth previous refreshed with _ | ⟨reason, _ | kept⟩ <;>
          simp [Change.refuse, eq_comm]
      · rw [if_neg (not_not.mpr hu), if_pos (by rw [hfamily]; exact hf)]
        simp [hf]
    · rw [if_pos hu]
      simp [hu]

theorem checks_of_reason_eq_none (h : (judgeColumnChange previous refreshed).reason = none) :
    (judgeColumnChange previous refreshed).checks = some [] := by
  have hrefuse (change : Change) (reason : String) (check : Option StoredValueCheck) :
      (change.refuse reason check).reason = none → (change.refuse reason check).checks = some [] :=
    fun hr => absurd hr (change.refuse_reason_ne_none reason check)
  revert h
  unfold judgeColumnChange
  dsimp only
  repeat' split
  all_goals first | exact hrefuse _ _ _ | exact fun _ => rfl

theorem judged (h : (judgeColumnChange previous refreshed).checks = some checks) :
    Judged previous refreshed checks := by
  obtain ⟨hg, hu, hf, width, beyond, hw, hb, rfl⟩ := (judgeColumnChange_checks ..).mp h
  constructor
  case generation => exact hg
  case unsigned => exact hu
  case family => exact hf
  case nulls =>
    intro hp hr
    simp [hp, hr]
  case width =>
    intro hn
    rw [if_pos hn] at hw
    obtain ⟨check, hc, rfl⟩ := map_eq_some_iff.mp hw
    exact ⟨check, by simp, hc⟩
  case beyond =>
    intro reason check hr
    rw [hr] at hb
    obtain ⟨kept, hc, rfl⟩ := map_eq_some_iff.mp hb
    exact ⟨kept, by simp, hc⟩

section Capacity

variable {column : SourceColumn} {bits : ℕ} {before after : ℕ}

theorem not_mem_ite {c : Prop} [Decidable c] {a b : Family} {families : List Family}
    (ha : a ∉ families) (hb : b ∉ families) : (if c then a else b) ∉ families := by
  split
  · exact ha
  · exact hb

theorem integerBits_of_familyOf {dataType : String} {unsigned : Bool}
    (h : familyOf dataType unsigned ∈ [.signedInteger, .unsignedInteger]) :
    ∃ bits, integerBits dataType = some bits ∧ 0 < bits ∧ bits ≤ 64 := by
  have hmem : dataType ∈ ["tinyint", "smallint", "mediumint", "int", "integer", "bigint", "bool",
      "boolean"] := by
    by_contra hmem
    apply absurd h
    rw [familyOf, if_neg hmem]
    repeat' first | apply not_mem_ite | simp
  have hall : ∀ dataType ∈ ["tinyint", "smallint", "mediumint", "int", "integer", "bigint", "bool",
      "boolean"], (integerBits dataType).any fun bits => 0 < bits && bits ≤ 64 := by decide
  have hany := hall dataType hmem
  cases hb : integerBits dataType with
  | none => simp [hb] at hany
  | some bits =>
    simp only [hb, any_some, Bool.and_eq_true, decide_eq_true_eq] at hany
    exact ⟨bits, rfl, hany⟩

theorem capacity_of_bits (h : column.family = .signedInteger ∨ column.family = .unsignedInteger) :
    ∃ bits, column.declaration.capacity = some bits ∧ 0 < bits ∧ bits ≤ 64 := by
  have hcap : column.declaration.capacity = integerBits column.dataType := by
    rcases h with h | h <;> simp [declaration, h]
  rw [hcap]
  apply integerBits_of_familyOf
  change column.family ∈ _
  simpa using h

theorem capacity_bit (h : column.family = .bit) :
    column.declaration.capacity = some (column.numbers.headD 1) := by
  simp [declaration, h]

theorem capacity_temporal (h : column.family ∈ [.dateTime, .timestamp, .time]) :
    column.declaration.capacity = some (column.numbers.headD 0) := by
  simp only [mem_cons, not_mem_nil, or_false] at h
  rcases h with h | h | h <;> simp [declaration, h]

theorem capacity_string (h : column.family = .text ∨ column.family = .binary) :
    column.declaration.capacity = column.stringBytes := by
  rcases h with h | h <;> simp [declaration, h]

theorem Judged.capacity_cases (h : Judged previous refreshed checks)
    (hd : previous.family ≠ .decimal) (hp : previous.declaration.capacity = some before)
    (hr : refreshed.declaration.capacity = some after) :
    before ≤ after ∨ ∃ check ∈ checks, fitsCheck previous refreshed = some check := by
  have hd' : previous.declaration.family ≠ .decimal := hd
  rcases Nat.lt_or_ge after before with hlt | hge
  · right
    apply h.width
    rw [narrowed, if_neg hd', hp, hr]
    exact decide_eq_true hlt
  · exact .inl hge

theorem Judged.capacity_le (h : Judged previous refreshed checks)
    (hfits : fitsCheck previous refreshed = none) (hd : previous.family ≠ .decimal)
    (hp : previous.declaration.capacity = some before)
    (hr : refreshed.declaration.capacity = some after) : before ≤ after := by
  apply (h.capacity_cases hd hp hr).resolve_right
  rintro ⟨check, -, hc⟩
  rw [hfits] at hc
  cases hc

theorem Judged.not_narrowed (h : Judged previous refreshed checks)
    (hfits : fitsCheck previous refreshed = none) :
    narrowed previous.declaration refreshed.declaration = false := by
  by_contra hn
  obtain ⟨check, -, hc⟩ := h.width (by simpa using hn)
  rw [hfits] at hc
  cases hc

end Capacity

section Families

variable (h : Judged previous refreshed checks)

include h

theorem Judged.holds_null (hv : previous.nullable = true)
    (hadmits : ∀ check ∈ checks, check.admits .null = true) : refreshed.nullable = true := by
  by_contra hr
  have := hadmits .noNulls (h.nulls hv (by simpa using hr))
  simp [admits] at this

variable {value : ℤ}

theorem Judged.holds_bit (hf : previous.family = .bit)
    (hv : previous.HoldsInteger value) : refreshed.HoldsInteger value := by
  have hf' : refreshed.family = .bit := h.family ▸ hf
  have hle := h.capacity_le (by simp [fitsCheck, declaration, hf']) (by simp [hf])
    (capacity_bit hf) (capacity_bit hf')
  simp only [SourceColumn.HoldsInteger, hf, hf', capacity_bit hf, capacity_bit hf'] at hv ⊢
  exact ⟨hv.1, hv.2.trans_le (pow_le_pow_right₀ (by decide) hle)⟩

theorem Judged.holds_signed (hf : previous.family = .signedInteger)
    (hv : previous.HoldsInteger value) (hadmits : ∀ check ∈ checks,
      check.admits ((integer value).stored previous.family) = true) :
    refreshed.HoldsInteger value := by
  have hf' : refreshed.family = .signedInteger := h.family ▸ hf
  obtain ⟨bits, hb, hpos, hle⟩ := capacity_of_bits (.inl hf)
  obtain ⟨bits', hb', hpos', hle'⟩ := capacity_of_bits (.inl hf')
  have hcases := h.capacity_cases (by simp [hf]) hb hb'
  simp only [SourceColumn.HoldsInteger, hf, hf', hb, hb'] at hv ⊢
  have hwide : ∀ n ≤ 64, (2 : ℤ) ^ (n - 1) ≤ 2 ^ 63 := by
    intro n hn
    exact pow_le_pow_right₀ (by decide) (by omega)
  rcases hcases with hge | ⟨check, hmem, hcheck⟩
  · have hpow : (2 : ℤ) ^ (bits - 1) ≤ 2 ^ (bits' - 1) :=
      pow_le_pow_right₀ (by decide) (by omega)
    omega
  · have hfit : fitsCheck previous refreshed =
        some (.integerWithin (-2 ^ (bits' - 1)) (2 ^ (bits' - 1) - 1)) := by
      have hfam : refreshed.declaration.family = .signedInteger := hf'
      simp [fitsCheck, hfam, hb', hle']
    rw [hfit] at hcheck
    cases hcheck
    have hadm := hadmits _ hmem
    have hint : (Int64.ofInt value).toInt = value := by
      have := hwide bits hle
      apply Int64.toInt_ofInt_of_le <;> omega
    simp only [stored, hf, if_true, admits, Bool.and_eq_true, decide_eq_true_eq] at hadm
    omega

theorem Judged.holds_unsigned (hf : previous.family = .unsignedInteger)
    (hv : previous.HoldsInteger value) (hadmits : ∀ check ∈ checks,
      check.admits ((integer value).stored previous.family) = true) :
    refreshed.HoldsInteger value := by
  have hf' : refreshed.family = .unsignedInteger := h.family ▸ hf
  obtain ⟨bits, hb, hpos, hle⟩ := capacity_of_bits (.inr hf)
  obtain ⟨bits', hb', hpos', hle'⟩ := capacity_of_bits (.inr hf')
  have hcases := h.capacity_cases (by simp [hf]) hb hb'
  simp only [SourceColumn.HoldsInteger, hf, hf', hb, hb'] at hv ⊢
  refine ⟨hv.1, ?_⟩
  rcases hcases with hge | ⟨check, hmem, hcheck⟩
  · exact hv.2.trans_le (pow_le_pow_right₀ (by decide) hge)
  · have hfit : fitsCheck previous refreshed = some (.integerWithin 0 (2 ^ bits' - 1)) := by
      have hfam : refreshed.declaration.family = .unsignedInteger := hf'
      simp [fitsCheck, hfam, hb', hle']
    rw [hfit] at hcheck
    cases hcheck
    have hadm := hadmits _ hmem
    have hwide : (2 : ℤ) ^ bits ≤ 2 ^ 64 := pow_le_pow_right₀ (by decide) hle
    have hnat : (UInt64.ofNat value.toNat).toNat = value.toNat := by
      apply UInt64.toNat_ofNat_of_lt'
      simp
      omega
    simp only [stored, hf, admits, Bool.and_eq_true,
      decide_eq_true_eq, reduceCtorEq, if_false] at hadm
    omega

theorem Judged.holds_decimal (hwell : refreshed.WellFormed) (hwell' : previous.WellFormed)
    {value : ℚ} (hv : previous.HoldsDecimal value) : refreshed.HoldsDecimal value := by
  obtain ⟨hf, hsign, units, hunits, hvalue⟩ := hv
  have hf' : refreshed.family = .decimal := h.family ▸ hf
  have hn := h.not_narrowed (by simp [fitsCheck, declaration, hf'])
  have hfam : previous.declaration.family = .decimal := hf
  rw [narrowed, if_pos hfam] at hn
  have hn' : ¬ (refreshed.precision - refreshed.scale < previous.precision - previous.scale) ∧
      ¬ refreshed.scale < previous.scale := by
    simpa [precision, scale, declaration] using hn
  have hs := hwell.scale_le hf'
  have hs' := hwell'.scale_le hf
  refine ⟨hf', fun hu => hsign (h.unsigned ▸ hu), units * 10 ^ (refreshed.scale - previous.scale),
    ?_, ?_⟩
  · rw [abs_mul, abs_of_pos (by positivity : (0 : ℤ) < 10 ^ (refreshed.scale - previous.scale))]
    calc |units| * 10 ^ (refreshed.scale - previous.scale)
        < 10 ^ previous.precision * 10 ^ (refreshed.scale - previous.scale) :=
          mul_lt_mul_of_pos_right hunits (by positivity)
      _ = 10 ^ (previous.precision + (refreshed.scale - previous.scale)) := (pow_add ..).symm
      _ ≤ 10 ^ refreshed.precision := pow_le_pow_right₀ (by decide) (by omega)
  · have hscale : refreshed.scale = previous.scale + (refreshed.scale - previous.scale) := by omega
    rw [hscale, pow_add, ← mul_assoc, hvalue]
    simp

theorem Judged.holds_temporal {micros : ℤ} (hv : previous.HoldsTemporal micros) :
    refreshed.HoldsTemporal micros := by
  obtain ⟨hf, digits, hd, hdvd⟩ := hv
  have hf' : refreshed.family ∈ [.dateTime, .timestamp, .time] := h.family ▸ hf
  have hfits : fitsCheck previous refreshed = none := by
    have hfam : refreshed.declaration.family = refreshed.family := rfl
    simp only [mem_cons, not_mem_nil, or_false] at hf'
    rcases hf' with hf' | hf' | hf' <;> simp [fitsCheck, hfam, hf']
  have hle := h.capacity_le hfits (by rintro hdec; simp [hdec] at hf) hd (capacity_temporal hf')
  exact ⟨hf', _, capacity_temporal hf', (pow_dvd_pow 10 (by omega)).trans hdvd⟩

theorem Judged.holds_binary (hwell : refreshed.WellFormed) {value : List UInt8}
    (hv : previous.HoldsBinary value)
    (hadmits : ∀ check ∈ checks, check.admits (.binary value) = true) :
    refreshed.HoldsBinary value := by
  obtain ⟨hf, bytes, hb, hlen⟩ := hv
  have hf' : refreshed.family = .binary := h.family ▸ hf
  obtain ⟨bytes', hb'⟩ := ne_none_iff_exists'.mp (hwell.sized (.inr hf'))
  rw [← capacity_string (.inr hf')] at hb'
  refine ⟨hf', bytes', hb', ?_⟩
  rcases h.capacity_cases (by simp [hf]) hb hb' with hge | ⟨check, hmem, hcheck⟩
  · exact hlen.trans hge
  · have hfam : refreshed.declaration.family = .binary := hf'
    simp only [fitsCheck, hfam, hb', map_some, some.injEq] at hcheck
    subst hcheck
    simpa [admits] using hadmits _ hmem

theorem Judged.not_rewritten {reason : String} :
    rewriteBeyondWidth previous refreshed ≠ some (reason, none) := by
  intro hr
  obtain ⟨kept, -, hk⟩ := h.beyond hr
  cases hk

theorem Judged.not_padded :
    (!previous.declaration.fixedWidth && refreshed.declaration.fixedWidth) = false := by
  by_contra hpad
  exact h.not_rewritten (by rw [rewriteBeyondWidth, if_pos (by simpa using hpad)])

theorem Judged.labels_ne_none {kind : String}
    (hfam : previous.family = .enumeration ∧ kind = "enum" ∨
      previous.family = .selection ∧ kind = "set") :
    ∃ before after, declarationLabels previous.mysqlColumnType kind = some before ∧
      declarationLabels refreshed.mysqlColumnType kind = some after ∧
      labels previous refreshed kind = some (before, after) := by
  have hpad := h.not_padded
  cases hl : labels previous refreshed kind with
  | none =>
    have hrewrite : ∃ reason, rewriteBeyondWidth previous refreshed = some (reason, none) := by
      have hdecl : previous.declaration.family = previous.family := rfl
      rw [rewriteBeyondWidth, if_neg (by simp [hpad]), hdecl]
      rcases hfam with ⟨hf, rfl⟩ | ⟨hf, rfl⟩ <;> simp [hf, hl]
    obtain ⟨reason, hr⟩ := hrewrite
    exact absurd hr h.not_rewritten
  | some pair =>
    obtain ⟨before, hb, hrest⟩ := bind_eq_some_iff.mp hl
    obtain ⟨after, ha, hpair⟩ := bind_eq_some_iff.mp hrest
    cases hpair
    exact ⟨before, after, hb, ha, rfl⟩

theorem Judged.holds_label {value : String} (hv : previous.Holds sets (.label value))
    (hadmits : ∀ check ∈ checks, check.admits (.utf8 value) = true) :
    refreshed.Holds sets (.label value) := by
  obtain ⟨hf, declared, hdeclared, hmem⟩ := hv
  obtain ⟨before, after, hb, ha, hl⟩ := h.labels_ne_none (.inl ⟨hf, rfl⟩)
  obtain rfl : before = declared := some.inj (hb.symm.trans hdeclared)
  refine ⟨h.family ▸ hf, after, ha, ?_⟩
  by_contra hlost
  have hin : value ∈ before.filter fun label => !after.contains label := by
    simp [hmem, hlost]
  obtain ⟨first, hfirst⟩ : ∃ first, (before.filter fun label => !after.contains label).head? =
      some first := by
    cases hs : before.filter fun label => !after.contains label with
    | nil =>
      rw [hs] at hin
      cases hin
    | cons first rest => exact ⟨first, rfl⟩
  have hrewrite : ∃ reason, rewriteBeyondWidth previous refreshed =
      some (reason, some (.labelsUnused (before.filter fun label => !after.contains label))) := by
    have hdecl : previous.declaration.family = .enumeration := hf
    rw [rewriteBeyondWidth, if_neg (by simp [h.not_padded]), hdecl]
    simp only [hl, hfirst]
    exact ⟨_, rfl⟩
  obtain ⟨reason, hr⟩ := hrewrite
  obtain ⟨kept, hkept, hk⟩ := h.beyond hr
  cases hk
  have hadm := hadmits _ hkept
  simp only [admits, contains_iff_mem.mpr hin, Bool.not_true, Bool.false_eq_true] at hadm

theorem Judged.members_prefix (hf : previous.family = .selection) :
    ∃ members extra, declarationLabels refreshed.mysqlColumnType "set" = some members ∧
      refreshed.setMembers = previous.setMembers ++ extra := by
  obtain ⟨before, after, hb, ha, hl⟩ := h.labels_ne_none (.inr ⟨hf, rfl⟩)
  have hpre : before.isPrefixOf after = true := by
    by_contra hpre
    have hdecl : previous.declaration.family = .selection := hf
    apply h.not_rewritten
    rw [rewriteBeyondWidth, if_neg (by simp [h.not_padded]), hdecl]
    simp only [hl, if_neg hpre]
    rfl
  obtain ⟨extra, rfl⟩ := isPrefixOf_iff_prefix.mp hpre
  exact ⟨_, extra, ha, by simp [setMembers, hb, ha]⟩

theorem Judged.holds_members (hwell : refreshed.WellFormed) {chosen : List String}
    (hv : previous.Holds sets (.members chosen)) :
    SourceColumn.HoldsUnchanged sets previous refreshed (.members chosen) := by
  obtain ⟨hf, -, hsub⟩ := hv
  obtain ⟨members, extra, hm, happ⟩ := h.members_prefix hf
  refine ⟨⟨h.family ▸ hf, ⟨members, hm⟩, ?_⟩, ?_⟩
  · rw [happ]
    exact List.Subset.trans hsub (subset_append_left ..)
  · rintro other hother
    cases hother
    have hnodup := hwell.members
    rw [happ] at hnodup
    have hextra : extra.filter (· ∈ chosen) = [] := by
      rw [filter_eq_nil_iff]
      intro member hmember hin
      exact disjoint_of_nodup_append hnodup (hsub (by simpa using hin)) hmember
    rw [rendered, happ, filter_append, hextra, append_nil, rendered]

end Families

theorem mem_of_familyOf_text {dataType : String} {unsigned : Bool}
    (h : familyOf dataType unsigned = .text) :
    dataType ∈ ["char", "varchar", "tinytext", "text", "mediumtext", "longtext"] := by
  by_contra hmem
  apply absurd (mem_singleton.mpr h)
  unfold familyOf
  rw [if_neg hmem]
  repeat' first | apply not_mem_ite | simp

theorem textLimit_cases {column : SourceColumn} (h : column.family = .text) :
    (column.dataType ∈ ["char", "varchar"] ∧ sizedBytes column.dataType = none) ∨
      (column.dataType ∉ ["char", "varchar"] ∧
        ∃ bytes, sizedBytes column.dataType = some bytes) := by
  have hall : ∀ dataType ∈ ["char", "varchar", "tinytext", "text", "mediumtext", "longtext"],
      (dataType ∈ ["char", "varchar"] ∧ sizedBytes dataType = none) ∨
      (dataType ∉ ["char", "varchar"] ∧ (sizedBytes dataType).isSome) := by decide
  rcases hall _ (mem_of_familyOf_text h) with hc | ⟨hn, hs⟩
  · exact .inl hc
  · exact .inr ⟨hn, isSome_iff_exists.mp hs⟩

/-- Two text declarations that are taken over without a look at the length of the texts. -/
structure TextUnchecked (previous refreshed : SourceColumn) : Prop where
  previous_text : previous.family = .text
  refreshed_text : refreshed.family = .text
  generation : generationChange previous refreshed = none
  not_narrowed : narrowed previous.declaration refreshed.declaration = false
  not_padded : (!previous.declaration.fixedWidth && refreshed.declaration.fixedWidth) = false

theorem Judged.textUnchecked (h : Judged previous refreshed checks) (hf : previous.family = .text)
    (hn : narrowed previous.declaration refreshed.declaration = false) :
    TextUnchecked previous refreshed where
  previous_text := hf
  refreshed_text := h.family ▸ hf
  generation := h.generation
  not_narrowed := hn
  not_padded := h.not_padded

theorem TextUnchecked.exists_checks (h : TextUnchecked previous refreshed) :
    ∃ checks, (judgeColumnChange previous refreshed).checks = some checks ∧
      ∀ check ∈ checks, check = .noNulls := by
  have hunsigned {column : SourceColumn} (hf : column.family = .text) :
      column.declaration.unsigned = false := by
    simp [declaration, hf]
  have hrewrite : rewriteBeyondWidth previous refreshed = none := by
    have hdecl : previous.declaration.family = .text := h.previous_text
    rw [rewriteBeyondWidth, if_neg (by simp [h.not_padded]), hdecl]
  refine ⟨_, (judgeColumnChange_checks ..).mpr ⟨h.generation, ?_, ?_, [], [], ?_, ?_, rfl⟩, ?_⟩
  · rw [hunsigned h.previous_text, hunsigned h.refreshed_text]
  · rw [h.previous_text, h.refreshed_text]
  · rw [h.not_narrowed]
    rfl
  · rw [hrewrite]
  · intro check hmem
    simp only [append_nil] at hmem
    split_ifs at hmem
    · exact mem_singleton.mp hmem
    · cases hmem

theorem fitsCheck_text (hf : refreshed.family = .text) {check : StoredValueCheck}
    (h : fitsCheck previous refreshed = some check) :
    ∃ set ∈ narrowSets, refreshed.set = some set ∧ previous.set = some set ∧
      ((refreshed.dataType ∈ ["char", "varchar"] ∧ ∃ characters,
        refreshed.numbers.head? = some characters ∧
          check = .textFits (some characters) (2 ^ 64 - 1)) ∨
      (refreshed.dataType ∉ ["char", "varchar"] ∧ ∃ bytes,
        refreshed.stringBytes = some bytes ∧ check = .textFits none bytes)) := by
  have hfam : refreshed.declaration.family = .text := hf
  simp only [fitsCheck, hfam] at h
  cases hset : refreshed.characterSet.map lowercase with
  | none =>
    rw [hset] at h
    cases h
  | some set =>
    rw [hset] at h
    dsimp only at h
    split_ifs at h with hsets hchar
    all_goals
      obtain ⟨hsame, hnarrow⟩ : previous.characterSet.map lowercase = some set ∧
          set ∈ narrowSets := by
        simpa using hsets
      obtain ⟨limit, hlimit, rfl⟩ := map_eq_some_iff.mp h
      refine ⟨set, hnarrow, hset, hsame, ?_⟩
    · exact .inl ⟨hchar, limit, hlimit, rfl⟩
    · exact .inr ⟨hchar, limit, (capacity_string (.inl hf)).symm.trans hlimit, rfl⟩

theorem Judged.holdsText_of_narrowed (h : Judged previous refreshed checks)
    (hf : previous.family = .text) (hn : narrowed previous.declaration refreshed.declaration = true)
    {value : String} (hv : previous.HoldsText sets value.toList)
    (hadmits : ∀ check ∈ checks, check.admits (.utf8 value) = true) :
    refreshed.HoldsText sets value.toList := by
  have hf' : refreshed.family = .text := h.family ▸ hf
  obtain ⟨check, hmem, hcheck⟩ := h.width hn
  have hadm := hadmits check hmem
  obtain ⟨set, hnarrow, hset, hset', hlimit⟩ := fitsCheck_text hf' hcheck
  have hwithin : sets.Within refreshed.set value.toList := by
    rw [hset, ← hset']
    exact hv.1
  refine ⟨hwithin, ?_⟩
  rw [hset] at hwithin ⊢
  rcases textLimit_cases hf' with ⟨hchar, hsized⟩ | ⟨hchar, bytes, hsized⟩
  · obtain ⟨-, characters, hnumber, rfl⟩ := hlimit.resolve_right fun hr => hr.1 hchar
    have hlen : value.toList.length ≤ characters := by
      simp only [admits, all_some, Bool.and_eq_true, decide_eq_true_eq] at hadm
      exact hadm.2
    have htext : refreshed.textLimit = .characters characters := by
      rw [textLimit, hsized, headD_eq_head?_getD, hnumber]
      rfl
    rw [htext]
    exact hlen
  · obtain ⟨-, limit, hbytes, rfl⟩ := hlimit.resolve_left fun hl => hchar hl.1
    have hlen : utf8Bytes value.toList ≤ limit := by
      simpa [admits] using hadm
    have htext : refreshed.textLimit = .bytes limit := by
      rw [stringBytes, hsized] at hbytes
      cases hbytes
      rw [textLimit, hsized]
    rw [htext]
    exact (CharacterSets.bytes_le_utf8Bytes hnarrow hwithin).trans hlen

section Sound

variable (sets) in
/-- What the judgement is for: every value that a taken-over declaration leaves the replica with is
the value the source holds. -/
def Sound (previous refreshed : SourceColumn) : Prop :=
  let change := judgeColumnChange previous refreshed
  (change.reason = none → ∀ value, previous.Holds sets value →
    SourceColumn.HoldsUnchanged sets previous refreshed value) ∧
  (∀ reason checks, change.reason = some reason → change.checks = some checks →
    ∀ value, previous.Holds sets value →
      (∀ check ∈ checks, check.admits (value.stored previous.family) = true) →
      SourceColumn.HoldsUnchanged sets previous refreshed value)

theorem sound_iff_checks : Sound sets previous refreshed ↔
    ∀ checks, (judgeColumnChange previous refreshed).checks = some checks →
      ∀ value, previous.Holds sets value →
        (∀ check ∈ checks, check.admits (value.stored previous.family) = true) →
        SourceColumn.HoldsUnchanged sets previous refreshed value := by
  constructor
  · rintro ⟨hnone, hsome⟩ checks hc value hv hadmits
    cases hr : (judgeColumnChange previous refreshed).reason with
    | none => exact hnone hr value hv
    | some reason => exact hsome reason checks hr hc value hv hadmits
  · intro h
    constructor
    · intro hr value hv
      exact h [] (checks_of_reason_eq_none hr) value hv (fun _ hmem => nomatch hmem)
    · intro reason checks _ hc
      exact h checks hc

theorem Judged.holdsUnchanged (h : Judged previous refreshed checks) (hp : previous.WellFormed)
    (hr : refreshed.WellFormed)
    (htext : TextUnchecked previous refreshed → KeepsText sets previous refreshed)
    {value : SourceValue} (hv : previous.Holds sets value)
    (hadmits : ∀ check ∈ checks, check.admits (value.stored previous.family) = true) :
    SourceColumn.HoldsUnchanged sets previous refreshed value := by
  cases value with
  | members chosen => exact h.holds_members hr hv
  | null => exact ⟨h.holds_null hv hadmits, nofun⟩
  | integer value =>
    refine ⟨?_, nofun⟩
    have hheld : previous.HoldsInteger value := hv
    cases hf : previous.family with
    | signedInteger => exact h.holds_signed hf hheld hadmits
    | unsignedInteger => exact h.holds_unsigned hf hheld hadmits
    | bit => exact h.holds_bit hf hheld
    | _ => simp [SourceColumn.HoldsInteger, hf] at hheld
  | decimal value stored => exact ⟨h.holds_decimal hr hp hv, nofun⟩
  | temporal micros stored => exact ⟨h.holds_temporal hv, nofun⟩
  | text value =>
    refine ⟨⟨h.family ▸ hv.1, ?_⟩, nofun⟩
    cases hn : narrowed previous.declaration refreshed.declaration with
    | true => exact h.holdsText_of_narrowed hv.1 hn hv.2 hadmits
    | false => exact (htext (h.textUnchecked hv.1 hn)).holdsText hv.2
  | binary value => exact ⟨h.holds_binary hr hv hadmits, nofun⟩
  | label value => exact ⟨h.holds_label hv hadmits, nofun⟩
  | plain stored =>
    obtain ⟨dataType, hf⟩ := hv
    exact ⟨⟨dataType, h.family ▸ hf⟩, nofun⟩

/-- The judgement is sound exactly where two text declarations that are compared in bytes alone keep
every text. -/
theorem judgeColumnChange_sound_iff (hp : previous.WellFormed) (hr : refreshed.WellFormed) :
    Sound sets previous refreshed ↔
      (TextUnchecked previous refreshed → KeepsText sets previous refreshed) := by
  rw [sound_iff_checks]
  constructor
  · intro hsound hu
    obtain ⟨checks, hc, honly⟩ := hu.exists_checks
    rw [keepsText_iff]
    intro text ht
    have hheld := hsound checks hc (.text (ofList text))
      ⟨hu.previous_text, by rwa [toList_ofList]⟩ (by
        intro check hmem
        rw [honly check hmem]
        rfl)
    have hkept := hheld.1.2
    rwa [toList_ofList] at hkept
  · intro htext checks hc value hv hadmits
    exact (judged hc).holdsUnchanged hp hr htext hv hadmits

end Sound

namespace Sample

def characterSets : CharacterSets where
  width set c :=
    if set = some "ascii".toList then if c.toNat < 128 then some 1 else none
    else if set = some "latin1".toList then if c.toNat < 256 then some 1 else none
    else some c.utf8Size
  inhabited set := ⟨'a', 1, by
    rw [if_pos (show 'a'.toNat < 128 by decide), if_pos (show 'a'.toNat < 256 by decide)]
    split_ifs <;> rfl⟩
  width_le_utf8Size := by
    intro set c n _ h
    have hpos := c.utf8Size_pos
    split_ifs at h <;> cases h <;> omega

def column (columnType characterSet : String) : SourceColumn where
  id := 1
  name := "v"
  mysqlDataType := "varchar"
  mysqlColumnType := columnType
  pintailType := .utf8
  nullable := true
  characterSet := some characterSet
  ordinal := 1

def ten : SourceColumn := column "varchar(10)" "latin1"

def five : SourceColumn := column "varchar(5)" "utf8mb4"

def twenty : SourceColumn := column "varchar(20)" "latin1"

theorem sizedBytes_column (columnType characterSet : String) :
    sizedBytes (column columnType characterSet).dataType = none := by
  have h : sizedBytes (ofList (lowercase "varchar")) = none := by decide +kernel
  exact h

theorem family_column (columnType characterSet : String) :
    (column columnType characterSet).family = .text := by
  have h : ∀ unsigned, familyOf (ofList (lowercase "varchar")) unsigned = .text := by
    decide +kernel
  exact h _

variable {columnType characterSet : String} {n : ℕ}

theorem column_wellFormed (hn : (column columnType characterSet).numbers.head? = some n)
    (hm : (column columnType characterSet).setMembers = []) :
    (column columnType characterSet).WellFormed where
  sized _ := by
    rw [stringBytes, sizedBytes_column, hn]
    exact some_ne_none _
  scale_le h := by cases (family_column ..).symm.trans h
  members := hm ▸ nodup_nil

theorem column_textLimit (hn : (column columnType characterSet).numbers.head? = some n) :
    (column columnType characterSet).textLimit = .characters n := by
  rw [textLimit, sizedBytes_column, headD_eq_head?_getD, hn]
  rfl

theorem read_columns : (ten.numbers.head? = some 10 ∧ ten.setMembers = []) ∧
    (five.numbers.head? = some 5 ∧ five.setMembers = []) ∧
    (twenty.numbers.head? = some 20 ∧ twenty.setMembers = []) := by
  decide +kernel

theorem ten_wellFormed : ten.WellFormed := column_wellFormed read_columns.1.1 read_columns.1.2

theorem five_wellFormed : five.WellFormed :=
  column_wellFormed read_columns.2.1.1 read_columns.2.1.2

theorem twenty_wellFormed : twenty.WellFormed :=
  column_wellFormed read_columns.2.2.1 read_columns.2.2.2

end Sample

open Sample in
theorem judgeColumnChange_sound_longer : ten.WellFormed ∧ twenty.WellFormed ∧
    (judgeColumnChange ten twenty).reason = none ∧ Sound characterSets ten twenty := by
  refine ⟨ten_wellFormed, twenty_wellFormed, by decide +kernel,
    (judgeColumnChange_sound_iff ten_wellFormed twenty_wellFormed).mpr fun _ => ?_⟩
  constructor
  · intro c n hn _
    exact ⟨n, hn⟩
  · rw [ten, twenty, column_textLimit read_columns.1.1, column_textLimit read_columns.2.2.1]
    decide

open Sample in
/-- `VARCHAR(10)` in a set of one byte a character becomes `VARCHAR(5)` in one of four: the bytes
have grown, so no reason is given, and a text of ten characters is cut to five. -/
theorem judgeColumnChange_adopts_fewer_characters :
    ten.WellFormed ∧ five.WellFormed ∧ (judgeColumnChange ten five).reason = none ∧
      ten.Holds characterSets (.text "abcdefghij") ∧
      ¬ SourceColumn.HoldsUnchanged characterSets ten five (.text "abcdefghij") := by
  refine ⟨ten_wellFormed, five_wellFormed, by decide +kernel, ⟨family_column .., ?_⟩, ?_⟩
  · constructor
    · have hall : ("abcdefghij".toList.all fun c =>
          characterSets.width ten.set c == some 1) = true := by decide +kernel
      intro c hc
      exact ⟨1, by simpa using all_eq_true.mp hall c hc⟩
    · rw [ten, column_textLimit read_columns.1.1]
      decide
  · rintro ⟨⟨-, -, hlimit⟩, -⟩
    rw [five, column_textLimit read_columns.2.1.1] at hlimit
    revert hlimit
    decide

end Pintail.Probe
