import Pintail.Exec.Expression

/-! # What predicates read and reject

An expression's value depends on the labels it reads. A predicate is kept on a row exactly when
all its conjuncts are, also after the conditions shared by the branches of a disjunction are taken
out, and it is never kept on a row that is `NULL` on a relation it rejects.
-/

namespace Pintail.Exec

open List BoundExpr

namespace Row

variable {label : Label} {left right row : Row} {table : TableKey}

theorem lookup_eq_none_iff : row.lookup label = none ↔ ∀ value, (label, value) ∉ row := by
  rw [List.lookup_eq_none_iff]
  constructor
  · intro h value hmem
    simpa using h _ hmem
  · rintro h ⟨other, value⟩ hmem
    simpa using fun heq : label = other => h value (heq ▸ hmem)

theorem get_append_left (h : ∀ value, (label, value) ∉ right) :
    Row.get (left ++ right) label = Row.get left label := by
  simp [Row.get, lookup_append, lookup_eq_none_iff.mpr h]

theorem get_append_right (h : ∀ value, (label, value) ∉ left) :
    Row.get (left ++ right) label = Row.get right label := by
  simp [Row.get, lookup_append, lookup_eq_none_iff.mpr h]

theorem mem_of_lookup {value : Value} (h : row.lookup label = some value) :
    (label, value) ∈ row := by
  obtain ⟨before, after, rfl, -⟩ := lookup_eq_some_iff.mp h
  simp

theorem NullOn.get (h : row.NullOn table) {key : ColumnKey} (hkey : key.table = table) :
    row.get (.column key) = .null := by
  unfold Row.get
  cases hfound : row.lookup (.column key) with
  | none => rfl
  | some value => exact h key value (mem_of_lookup hfound) hkey

theorem nullOn_append :
    Row.NullOn table (left ++ right) ↔ left.NullOn table ∧ right.NullOn table := by
  simp only [NullOn, mem_append]
  exact ⟨fun h => ⟨fun key value hmem => h key value (.inl hmem),
    fun key value hmem => h key value (.inr hmem)⟩,
    fun h key value hmem => hmem.elim (h.1 key value) (h.2 key value)⟩

end Row

theorem kleeneAnd_eq_true (v w : Option Bool) :
    kleeneAnd v w = some true ↔ v = some true ∧ w = some true := by
  rcases v with _ | _ | _ <;> rcases w with _ | _ | _ <;> decide

theorem kleeneOr_eq_true (v w : Option Bool) :
    kleeneOr v w = some true ↔ v = some true ∨ w = some true := by
  rcases v with _ | _ | _ <;> rcases w with _ | _ | _ <;> decide

mutual

variable {key : ColumnKey}

theorem BoundExpr.mem_collectColumns_of_reads :
    ∀ {expr : BoundExpr}, Label.column key ∈ expr.reads → key ∈ expr.collectColumns
  | .column _ reference, h => by
    simp only [reads] at h
    split at h <;> simp_all
  | .preparedIn _ expr _ _, h | .unary _ _ expr, h | .isNull _ expr _, h => by
    simp only [collectColumns] at h ⊢
    exact BoundExpr.mem_collectColumns_of_reads h
  | .inSubquery _ _ _ _, h => by
    simp only [collectColumns, mem_append] at h ⊢
    exact .inl (BoundExpr.mem_collectColumns_of_reads h)
  | .binary _ _ _ _, h => by
    simp only [reads, collectColumns, mem_append] at h ⊢
    exact h.imp BoundExpr.mem_collectColumns_of_reads BoundExpr.mem_collectColumns_of_reads
  | .scalar _ _ _, h => by
    exact BoundArgs.mem_collectColumns_of_reads h
  | .groupKey _ _, h | .aggregate _ _, h | .literal _ _, h | .window _ _, h
  | .scalarSubquery _ _, h | .existsSubquery _ _ _, h => by simp at h

theorem BoundArgs.mem_collectColumns_of_reads :
    ∀ {args : BoundArgs}, Label.column key ∈ args.reads → key ∈ args.collectColumns
  | .nil, h => by simp at h
  | .cons _ _, h => by
    simp only [BoundArgs.reads, BoundArgs.collectColumns, mem_append] at h ⊢
    exact h.imp BoundExpr.mem_collectColumns_of_reads BoundArgs.mem_collectColumns_of_reads

end

theorem BoundExpr.table_of_reads {expr : BoundExpr} {table : TableKey}
    (h : expr.referencedTables = [table]) {key : ColumnKey} (hkey : Label.column key ∈ expr.reads) :
    key.table = table := by
  have : key.table ∈ expr.referencedTables :=
    mem_dedup.mpr (mem_map_of_mem (mem_collectColumns_of_reads hkey))
  simpa [h] using this

namespace Evaluation

variable (ev : Evaluation) {row row' : Row}

mutual

/-- Rows that agree on what an expression reads, and on the subqueries that name its columns, give
it the same value. -/
theorem eval_congr_subqueries : ∀ (expr : BoundExpr),
    (expr.containsSubquery = true → ∀ sub : BoundExpr, sub.collectColumns ⊆ expr.collectColumns →
      ev.subquery sub row = ev.subquery sub row') →
    (∀ label ∈ expr.reads, row.get label = row'.get label) → ev.eval row expr = ev.eval row' expr
  | .preparedIn _ expr _ _, hsub, h => by
    simp [eval_congr_subqueries expr hsub (by simpa using h)]
  | .column _ reference, _, h => by
    simp only [eval]
    split
    · rfl
    · exact h _ (by simp [*])
  | .groupKey _ _, _, h | .aggregate _ _, _, h => by
    exact h _ (by simp)
  | .window _ _, _, _ | .literal _ _, _, _ => by simp
  | .unary _ _ expr, hsub, h => by
    have hreads : ∀ label ∈ expr.reads, row.get label = row'.get label := by
      simpa using h
    simp [map_congr_left hreads, eval_congr_subqueries expr hsub hreads]
  | .binary _ _ left right, hsub, h => by
    simp only [containsSubquery, Bool.or_eq_true] at hsub
    have hreads : ∀ label ∈ left.reads ++ right.reads, row.get label = row'.get label := by
      simpa using h
    have hleft := eval_congr_subqueries left
      (fun hc sub hs => hsub (.inl hc) sub fun _ hk => mem_append_left _ (hs hk))
      fun label hl => hreads label (mem_append_left _ hl)
    have hright := eval_congr_subqueries right
      (fun hc sub hs => hsub (.inr hc) sub fun _ hk => mem_append_right _ (hs hk))
      fun label hr => hreads label (mem_append_right _ hr)
    simp [map_congr_left hreads, hleft, hright]
  | .isNull _ expr _, hsub, h => by
    simp [eval_congr_subqueries expr hsub (by simpa using h)]
  | .scalar _ _ args, hsub, h => by
    have hreads : ∀ label ∈ args.reads, row.get label = row'.get label := by
      simpa using h
    simp [map_congr_left hreads, evalArgs_congr_subqueries args hsub hreads]
  | .scalarSubquery _ _, hsub, _ | .existsSubquery _ _ _, hsub, _
  | .inSubquery _ _ _ _, hsub, _ => by
    exact hsub rfl _ (List.Subset.refl _)

theorem evalArgs_congr_subqueries : ∀ (args : BoundArgs),
    (args.containsSubquery = true → ∀ sub : BoundExpr, sub.collectColumns ⊆ args.collectColumns →
      ev.subquery sub row = ev.subquery sub row') →
    (∀ label ∈ args.reads, row.get label = row'.get label) →
    ev.evalArgs row args = ev.evalArgs row' args
  | .nil, _, _ => by simp
  | .cons head tail, hsub, h => by
    simp only [BoundArgs.containsSubquery, Bool.or_eq_true] at hsub
    simp only [BoundArgs.reads, mem_append] at h
    have hhead := eval_congr_subqueries head
      (fun hc sub hs => hsub (.inl hc) sub fun _ hk => mem_append_left _ (hs hk))
      fun label hl => h label (.inl hl)
    have htail := evalArgs_congr_subqueries tail
      (fun hc sub hs => hsub (.inr hc) sub fun _ hk => mem_append_right _ (hs hk))
      fun label hr => h label (.inr hr)
    simp [hhead, htail]

end

theorem eval_congr (expr : BoundExpr) (hsub : expr.containsSubquery = false)
    (h : ∀ label ∈ expr.reads, row.get label = row'.get label) :
    ev.eval row expr = ev.eval row' expr :=
  ev.eval_congr_subqueries expr (by simp [hsub]) h

variable {table : TableKey}

@[simp] theorem truth_ofTruth (value : Option Bool) : ev.truth (ofTruth value) = value := by
  cases value with
  | none => exact ev.truth_null
  | some value => exact ev.truth_boolean value

theorem logic_null (combine : Option Bool → Option Bool → Option Bool)
    (h : combine none none = none) : ev.logic combine .null .null = .null := by
  simp [logic, ev.truth_null, h, ofTruth]

theorem evaluateBinary_strict {op : BinaryOp} (hop : ¬ (op = .and ∨ op = .or)) (type : ExprType)
    (left right : BoundExpr) (columns : List Value) {v w : Value} (h : v = .null ∨ w = .null) :
    ev.evaluateBinary type op left right columns v w = .null := by
  rw [not_or] at hop
  unfold evaluateBinary
  split
  · exact absurd rfl hop.1
  · exact absurd rfl hop.2
  · exact if_pos h

theorem eval_of_nullOn (hrow : row.NullOn table) (expr : BoundExpr)
    (h : table ∈ expr.nullPropagatingTables) : ev.eval row expr = .null := by
  fun_induction nullPropagatingTables expr with
  | case1 => simp at h
  | case2 _ reference houter =>
    simp only [eval, houter]
    exact hrow.get (mem_singleton.mp h).symm
  | case3 _ _ expr ih => simp [ih h]
  | case4 type op left right hop ihright ihleft =>
    obtain ⟨hleft, hright⟩ := mem_filter.mp h
    simp only [eval]
    rw [ihleft hleft, ihright (of_decide_eq_true hright)]
    rcases hop with rfl | rfl
    · exact ev.logic_null _ rfl
    · exact ev.logic_null _ rfl
  | case5 type op left right hop ihleft ihright =>
    exact ev.evaluateBinary_strict hop type left right _ ((mem_append.mp h).imp ihleft ihright)
  | case6 _ _ first _ ih => simp [evaluateScalar, ih h]
  | case7 => simp at h

theorem keeps_and (type : ExprType) (left right : BoundExpr) :
    ev.keeps (.binary type .and left right) row = (ev.keeps left row && ev.keeps right row) := by
  rw [Bool.eq_iff_iff]
  simp [keeps, evaluateBinary, logic, kleeneAnd_eq_true]

theorem keeps_or (type : ExprType) (left right : BoundExpr) :
    ev.keeps (.binary type .or left right) row = (ev.keeps left row || ev.keeps right row) := by
  rw [Bool.eq_iff_iff]
  simp [keeps, evaluateBinary, logic, kleeneOr_eq_true]

theorem keeps_of_eval_null {expr : BoundExpr} (h : ev.eval row expr = .null) :
    ev.keeps expr row = false := by
  simp [keeps, h, ev.truth_null]

end Evaluation

/-- A negated list membership that the optimizer looks into has a list. -/
@[simp] def BoundExpr.listed : BoundExpr → Bool
  | .binary _ .and left right | .binary _ .or left right => left.listed && right.listed
  | .scalar _ (.inList true) (.cons _ .nil) => false
  | _ => true

namespace Evaluation

variable (ev : Evaluation) {row : Row} {table : TableKey}
  {left right : BoundExpr} {expr : BoundExpr}

/-- A predicate does not hold on a row that is `NULL` on a relation it rejects. -/
theorem keeps_of_nullOn (hrow : row.NullOn table) (expr : BoundExpr) (hlisted : expr.listed = true)
    (h : table ∈ expr.nullRejectedTables) : ev.keeps expr row = false := by
  fun_induction nullRejectedTables expr with
  | case1 _ left right ihleft ihright =>
    simp only [listed, Bool.and_eq_true] at hlisted
    rw [keeps_and, Bool.and_eq_false_iff]
    exact (mem_append.mp h).imp (ihleft hlisted.1) (ihright hlisted.2)
  | case2 _ left right ihright ihleft =>
    simp only [listed, Bool.and_eq_true] at hlisted
    simp only [mem_filter, decide_eq_true_eq] at h
    rw [keeps_or, Bool.or_eq_false_iff]
    exact ⟨ihleft hlisted.1 h.1, ihright hlisted.2 h.2⟩
  | case3 type op left right hand hor =>
    apply ev.keeps_of_eval_null
    exact ev.evaluateBinary_strict (not_or.mpr ⟨hand, hor⟩) type left right _
      ((mem_append.mp h).imp (ev.eval_of_nullOn hrow left) (ev.eval_of_nullOn hrow right))
  | case4 => simp at h
  | case5 _ expr =>
    have hexpr := ev.eval_of_nullOn hrow expr h
    simp [keeps, hexpr, ev.truth_boolean]
  | case6 _ expr =>
    apply ev.keeps_of_eval_null
    simp [ev.eval_of_nullOn hrow expr h]
  | case7 _ _ _ first =>
    have hfirst := ev.eval_of_nullOn hrow first h
    exact ev.keeps_of_eval_null (by simp [evaluateScalar, hfirst])
  | case8 _ negated first rest =>
    have hfirst := ev.eval_of_nullOn hrow first h
    cases rest with
    | nil =>
      cases negated
      · simp [keeps, evaluateScalar, evaluateInList, ev.truth_boolean]
      · simp at hlisted
    | cons second rest =>
      exact ev.keeps_of_eval_null (by simp [evaluateScalar, evaluateInList, hfirst])
  | case9 _ negated first rest =>
    have hfirst := ev.eval_of_nullOn hrow first h
    apply ev.keeps_of_eval_null
    simp only [eval, evaluateScalar, evalArgs, hfirst, evaluateBetween]
    split
    · rename_i heq
      obtain ⟨rfl, -⟩ := List.cons.inj heq
      simp [evaluateComparison, ev.truth_null, kleeneAnd, ofTruth]
    · rfl
  | case10 => simp at h

theorem keeps_iff_conjunctsOf : ∀ expr : BoundExpr,
    ev.keeps expr row = true ↔ ∀ part ∈ expr.conjunctsOf, ev.keeps part row = true := by
  intro expr
  fun_induction conjunctsOf expr with
  | case1 type left right ihright ihleft =>
    rw [keeps_and, Bool.and_eq_true, ihleft, ihright, forall_mem_append, and_comm]
  | case2 => simp

theorem listed_of_conjunctsOf {part : BoundExpr} (h : expr.listed = true)
    (hpart : part ∈ expr.conjunctsOf) : part.listed = true := by
  fun_induction conjunctsOf expr with
  | case1 type left right ihright ihleft =>
    simp only [listed, Bool.and_eq_true] at h
    exact (mem_append.mp hpart).elim (ihright h.2) (ihleft h.1)
  | case2 expr => exact mem_singleton.mp hpart ▸ h

end Evaluation

/-- A yes-or-no reading of conditions that goes through `AND` and `OR` and is the same for the same
condition. -/
structure IsReading (holds : BoundExpr → Bool) : Prop where
  and : ∀ type left right, holds (.binary type .and left right) = (holds left && holds right)
  or : ∀ type left right, holds (.binary type .or left right) = (holds left || holds right)
  same : ∀ left right, sameCondition left right = true → holds left = holds right

theorem sameCondition_refl (expr : BoundExpr) : sameCondition expr expr = true := by
  simp [sameCondition]

section Shared

variable {condition : BoundExpr} {shared : List BoundExpr}

theorem sharedOnce_subset_aux (shared kept : List BoundExpr)
    (h : condition ∈ shared.foldl (fun kept condition =>
      if kept.any (sameCondition · condition) then kept else kept ++ [condition]) kept) :
    condition ∈ kept ∨ condition ∈ shared := by
  induction shared generalizing kept with
  | nil => exact .inl h
  | cons first rest ih =>
    rcases ih _ h with h | h
    · beta_reduce at h
      split at h
      · exact .inl h
      · simp only [mem_append, mem_singleton] at h
        exact h.imp_right fun heq : condition = first => heq ▸ mem_cons_self
    · exact .inr (mem_cons_of_mem _ h)

theorem mem_of_sharedOnce (h : condition ∈ sharedOnce shared) : condition ∈ shared :=
  (sharedOnce_subset_aux shared [] h).resolve_left (by simp)

variable {branches : List (List BoundExpr)}

theorem exists_of_sharedConditions (h : condition ∈ sharedConditions branches) :
    ∀ branch ∈ branches, ∃ part ∈ branch, sameCondition part condition = true := by
  intro branch hbranch
  obtain ⟨hmem, hall⟩ := mem_filter.mp (mem_of_sharedOnce h)
  cases branches with
  | nil => simp at hbranch
  | cons first others =>
    rcases mem_cons.mp hbranch with rfl | hbranch
    · exact ⟨condition, hmem, sameCondition_refl condition⟩
    · simp only [Bool.and_eq_true, all_eq_true, any_eq_true] at hall
      exact hall.2 branch hbranch

theorem exists_branch_of_sharedConditions
    (h : ¬ (sharedConditions branches).isEmpty = true) : ∃ branch, branch ∈ branches := by
  cases branches with
  | nil => simp [sharedConditions, sharedOnce] at h
  | cons first others => exact ⟨first, mem_cons_self⟩

end Shared

namespace IsReading

variable {holds : BoundExpr → Bool} (h : IsReading holds) {expr : BoundExpr}
  {parts shared : List BoundExpr}

include h

theorem iff_andParts (expr : BoundExpr) :
    holds expr = true ↔ ∀ part ∈ expr.andParts, holds part = true := by
  fun_induction andParts expr with
  | case1 type left right ihleft ihright =>
    rw [h.and, Bool.and_eq_true, ihleft, ihright, forall_mem_append]
  | case2 => simp

theorem iff_orBranches (expr : BoundExpr) :
    holds expr = true ↔ ∃ branch ∈ expr.orBranches, holds branch = true := by
  fun_induction orBranches expr with
  | case1 type left right ihleft ihright =>
    rw [h.or, Bool.or_eq_true, ihleft, ihright]
    simp [or_and_right, exists_or]
  | case2 => simp

theorem reduce_and (hparts : reduce andExpr parts = some expr) :
    holds expr = true ↔ ∀ part ∈ parts, holds part = true := by
  cases parts with
  | nil => simp [reduce] at hparts
  | cons first rest =>
    obtain rfl := Option.some.inj hparts
    clear hparts
    induction rest generalizing first with
    | nil => simp
    | cons second rest ih =>
      rw [foldl_cons, ih]
      simp [andExpr, joinExpr, h.and, and_assoc]

theorem reduce_or (hparts : reduce (joinExpr .or) parts = some expr) :
    holds expr = true ↔ ∃ part ∈ parts, holds part = true := by
  cases parts with
  | nil => simp [reduce] at hparts
  | cons first rest =>
    obtain rfl := Option.some.inj hparts
    clear hparts
    induction rest generalizing first with
    | nil => simp
    | cons second rest ih =>
      rw [foldl_cons, ih]
      simp [joinExpr, h.or, or_assoc]

theorem withoutShared {branch : List BoundExpr}
    (hshared : ∀ condition ∈ shared, ∃ part ∈ branch, sameCondition part condition = true) :
    (∀ part ∈ branch, holds part = true) ↔ (∀ condition ∈ shared, holds condition = true) ∧
      ∀ part ∈ Exec.withoutShared shared branch, holds part = true := by
  constructor
  · intro hkept
    refine ⟨fun condition hc => ?_, fun part hp => hkept part (mem_of_mem_filter hp)⟩
    obtain ⟨part, hpart, hsame⟩ := hshared condition hc
    exact h.same _ _ hsame ▸ hkept part hpart
  · rintro ⟨hconditions, hrest⟩ part hpart
    by_cases hany : shared.any (sameCondition · part) = true
    · obtain ⟨condition, hc, hsame⟩ := any_eq_true.mp hany
      exact h.same _ _ hsame ▸ hconditions condition hc
    · exact hrest part (mem_filter.mpr ⟨hpart, by simpa using hany⟩)

theorem rests {rests : List (List BoundExpr)} (hne : ∀ rest ∈ rests, rest ≠ []) :
    (∃ rest ∈ rests, ∀ part ∈ rest, holds part = true) ↔
      ∃ whole ∈ rests.filterMap (reduce andExpr), holds whole = true := by
  simp only [mem_filterMap]
  constructor
  · rintro ⟨rest, hrest, hkept⟩
    obtain ⟨first, others, rfl⟩ := exists_cons_of_ne_nil (hne rest hrest)
    exact ⟨_, ⟨_, hrest, rfl⟩, (h.reduce_and rfl).mpr hkept⟩
  · rintro ⟨whole, ⟨rest, hrest, hwhole⟩, hkept⟩
    exact ⟨rest, hrest, (h.reduce_and hwhole).mp hkept⟩

theorem iff_branches (expr : BoundExpr) :
    holds expr = true ↔ ∃ branch ∈ expr.orBranches.map andParts,
      ∀ part ∈ branch, holds part = true := by
  rw [h.iff_orBranches]
  constructor
  · rintro ⟨branch, hbranch, hkept⟩
    exact ⟨_, mem_map_of_mem hbranch, (h.iff_andParts branch).mp hkept⟩
  · rintro ⟨parts, hparts, hkept⟩
    obtain ⟨branch, hbranch, rfl⟩ := mem_map.mp hparts
    exact ⟨branch, hbranch, (h.iff_andParts branch).mpr hkept⟩

theorem iff_rests (branches : List (List BoundExpr)) :
    (∃ branch ∈ branches, ∀ part ∈ branch, holds part = true) ↔
      (∀ condition ∈ sharedConditions branches, holds condition = true) ∧
        ∃ rest ∈ branches.map (Exec.withoutShared (sharedConditions branches)),
          ∀ part ∈ rest, holds part = true := by
  have hbranch := fun branch (hbranch : branch ∈ branches) =>
    @withoutShared holds h (sharedConditions branches) branch
      fun condition hc => exists_of_sharedConditions hc branch hbranch
  constructor
  · rintro ⟨branch, hmem, hkept⟩
    obtain ⟨hconditions, hrest⟩ := (hbranch branch hmem).mp hkept
    exact ⟨hconditions, _, mem_map_of_mem hmem, hrest⟩
  · rintro ⟨hconditions, rest, hmem, hrest⟩
    obtain ⟨branch, hmem', rfl⟩ := mem_map.mp hmem
    exact ⟨branch, hmem', (hbranch branch hmem').mpr ⟨hconditions, hrest⟩⟩

theorem iff_factorDisjunction (expr : BoundExpr) :
    holds expr = true ↔ ∀ part ∈ factorDisjunction expr, holds part = true := by
  unfold factorDisjunction
  extract_lets branches shared rests
  have hkeeps : holds expr = true ↔ (∀ condition ∈ shared, holds condition = true) ∧
      ∃ rest ∈ rests, ∀ part ∈ rest, holds part = true :=
    (h.iff_branches expr).trans (h.iff_rests branches)
  split
  · simp
  rename_i hshared
  split
  · rename_i hempty
    obtain ⟨rest, hrest, hnil⟩ := any_eq_true.mp hempty
    obtain rfl := isEmpty_iff.mp hnil
    exact hkeeps.trans (and_iff_left ⟨[], hrest, by simp⟩)
  · rename_i hempty
    have hne : ∀ rest ∈ rests, rest ≠ [] := fun rest hrest hnil =>
      hempty (any_eq_true.mpr ⟨rest, hrest, by simp [hnil]⟩)
    rw [hkeeps, h.rests hne, forall_mem_append]
    apply and_congr_right
    intro _
    cases hwhole : reduce (joinExpr .or) (rests.filterMap (reduce andExpr)) with
    | none =>
      obtain ⟨first, hfirst⟩ := exists_branch_of_sharedConditions hshared
      obtain ⟨part, others, hrest⟩ := exists_cons_of_ne_nil
        (hne _ (mem_map_of_mem hfirst))
      have hpart : others.foldl andExpr part ∈ rests.filterMap (reduce andExpr) :=
        mem_filterMap.mpr ⟨_, mem_map_of_mem hfirst, by rw [hrest]; rfl⟩
      obtain ⟨whole, others, hwholes⟩ := exists_cons_of_ne_nil (ne_nil_of_mem hpart)
      simp [hwholes, reduce] at hwhole
    | some whole => simp [h.reduce_or hwhole]

theorem iff_splitConjunction (expr : BoundExpr) :
    holds expr = true ↔ ∀ part ∈ expr.splitConjunction, holds part = true := by
  fun_induction splitConjunction expr with
  | case1 type left right ihleft ihright =>
    rw [h.and, Bool.and_eq_true, ihleft, ihright, forall_mem_append]
  | case2 type left right => exact h.iff_factorDisjunction _
  | case3 => simp

end IsReading

namespace Evaluation

variable (ev : Evaluation) {row : Row}

theorem eval_of_sameCondition {left right : BoundExpr} (h : sameCondition left right = true) :
    ev.eval row left = ev.eval row right := by
  simp only [sameCondition, Bool.or_eq_true, beq_iff_eq] at h
  rcases h with rfl | h
  · rfl
  · split at h
    · simp only [Bool.and_eq_true, beq_iff_eq] at h
      obtain ⟨rfl, rfl⟩ := h
      simp only [eval, evaluateBinary]
      simp [evaluateComparison, BinaryOp.isComparison, or_comm, ev.compare_equal_comm]
    · simp at h

theorem isReading_keeps (row : Row) : IsReading (ev.keeps · row) where
  and := ev.keeps_and
  or := ev.keeps_or
  same _ _ h := by rw [keeps, keeps, ev.eval_of_sameCondition h]

end Evaluation

end Pintail.Exec
