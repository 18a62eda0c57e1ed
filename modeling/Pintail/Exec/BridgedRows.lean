import Pintail.Exec.OuterBridge
import Pintail.Exec.PushedRows

/-! # The rows over a nested bridge

A row that reaches the target of a bridge passes through every relation of the bridge, since a
missing relation leaves the joins keyed on it without a match. So the rows that reach the target
are the same over the nest. A row that does not reach it is `NULL` on the target, and on the
relations that later joins reach through the target.
-/

namespace Pintail.Exec

open List SpineJoin BoundExpr

namespace Evaluation

variable {ev : Evaluation} {row : Row}

/-- `IF` is `NULL` when both its results are. -/
def NullResults (ev : Evaluation) : Prop :=
  ∀ type args columns test, ev.scalar ifFunction type args columns [test, .null, .null] = .null

/-- A subquery reads a row at the columns it names. -/
def SubqueriesScoped (ev : Evaluation) : Prop :=
  ∀ (sub : BoundExpr) (row row' : Row),
    (∀ key ∈ sub.collectColumns, row.get (.column key) = row'.get (.column key)) →
      ev.subquery sub row = ev.subquery sub row'

variable {tables : List TableKey}

theorem eval_of_nullWhen (hif : ev.NullResults) (hrow : ∀ table ∈ tables, row.NullOn table)
    (expr : BoundExpr) (h : expr.nullWhen tables = true) : ev.eval row expr = .null := by
  fun_induction nullWhen tables expr with
  | case1 _ value =>
    exact of_decide_eq_true h
  | case2 _ reference =>
    simp only [Bool.and_eq_true, Bool.not_eq_true', decide_eq_true_eq] at h
    simp only [eval, h.1]
    exact (hrow _ h.2).get rfl
  | case3 _ _ expr ih => simp [ih h]
  | case4 type op left right hop ihleft ihright =>
    obtain ⟨hleft, hright⟩ := Bool.and_eq_true_iff.mp h
    simp only [eval]
    rw [ihleft hleft, ihright hright]
    rcases hop with rfl | rfl
    · exact ev.logic_null _ rfl
    · exact ev.logic_null _ rfl
  | case5 type op left right hop ihleft ihright =>
    exact ev.evaluateBinary_strict hop type left right _
      ((Bool.or_eq_true_iff.mp h).imp ihleft ihright)
  | case6 _ _ value otherwise ihvalue ihotherwise =>
    obtain ⟨hvalue, hotherwise⟩ := Bool.and_eq_true_iff.mp h
    simp only [eval, evalArgs, ihvalue hvalue, ihotherwise hotherwise]
    exact hif _ _ _ _
  | case7 _ _ first _ ih => simp [evaluateScalar, ih h]
  | case8 => cases h

theorem eval_append (hsub : ev.SubqueriesScoped) {extra : Row} (hextra : extra.Within tables)
    {expr : BoundExpr} (htables : ∀ table ∈ tables, table ∉ expr.referencedTables) :
    ev.eval (row ++ extra) expr = ev.eval row expr := by
  have hcolumn : ∀ key ∈ expr.collectColumns,
      Row.get (row ++ extra) (.column key) = row.get (.column key) := by
    intro key hkey
    apply Row.get_append_left
    intro value hmem
    apply htables key.table (hextra _ hmem)
    exact mem_dedup.mpr (mem_map_of_mem hkey)
  refine ev.eval_congr_subqueries expr (fun _ sub hcolumns => ?_) fun label hlabel => ?_
  · exact hsub sub _ _ fun key hkey => hcolumn key (hcolumns hkey)
  · cases label with
    | column key => exact hcolumn key (mem_collectColumns_of_reads hlabel)
    | slot index => exact Row.get_append_left fun value hmem => hextra _ hmem

end Evaluation

section Holds

variable {ev : Evaluation} {row : Row}

theorem holds_reduce (parts : List BoundExpr) :
    holds ev (reduce andExpr parts) row = parts.all (ev.keeps · row) := by
  cases h : reduce andExpr parts with
  | none =>
    cases parts with
    | nil => rfl
    | cons first rest => simp [reduce] at h
  | some expr =>
    rw [Bool.eq_iff_iff, all_eq_true]
    exact (ev.isReading_keeps _).reduce_and h

def conjunctsIn (condition : Option BoundExpr) : List BoundExpr :=
  (condition.map splitConjunction).getD []

theorem holds_eq_all (condition : Option BoundExpr) :
    holds ev condition row = (conjunctsIn condition).all (ev.keeps · row) := by
  cases condition with
  | none => rfl
  | some expr =>
    rw [Bool.eq_iff_iff, all_eq_true]
    exact (ev.isReading_keeps _).iff_splitConjunction expr

def Rejects (condition : Option BoundExpr) (table : TableKey) : Prop :=
  ∃ expr ∈ condition, ∃ conjunct ∈ expr.conjunctsOf, table ∈ conjunct.nullRejectedTables

theorem holds_of_rejects {condition : Option BoundExpr} {table : TableKey}
    (hlisted : ∀ expr ∈ condition, expr.listed = true) (h : Rejects condition table)
    (hrow : row.NullOn table) : holds ev condition row = false := by
  obtain ⟨expr, hexpr, conjunct, hconjunct, htable⟩ := h
  subst hexpr
  have hfalse : ev.keeps conjunct row = false := ev.keeps_of_nullOn hrow conjunct
    (Evaluation.listed_of_conjunctsOf (hlisted expr rfl) hconjunct) htable
  apply Bool.eq_false_iff.mpr
  intro hkeeps
  have hkept := (ev.keeps_iff_conjunctsOf expr).mp hkeeps conjunct hconjunct
  exact Bool.false_ne_true (hfalse.symm.trans hkept)

end Holds

variable {tables tables' : List TableKey}

theorem Label.Within.mono {label : Label}
    (h : label.Within tables) (hsub : tables ⊆ tables') : label.Within tables' := by
  cases label with
  | column key => exact hsub h
  | slot index => exact h

theorem Row.Within.append {row extra : Row} (hrow : row.Within tables)
    (hextra : extra.Within tables') : Row.Within (tables ++ tables') (row ++ extra) := by
  intro entry hentry
  rcases mem_append.mp hentry with h | h
  · exact (hrow entry h).mono (subset_append_left _ _)
  · exact (hextra entry h).mono (subset_append_right _ _)

section Chain

variable {δ : Type} (ev : Evaluation) (ops : Operators δ) (db : Database)

def SpineJoin.outputs (link : SpineJoin δ) (row : Row) : List Row :=
  joinOne ev link.kind link.condition (link.right.rows ev ops db) (nullRow link.right.layout) row

def SpineJoin.matched (link : SpineJoin δ) (row : Row) : List Row :=
  ((link.right.rows ev ops db).filter fun other => holds ev link.condition (row ++ other)).map
    (row ++ ·)

@[simp] def extendAll : List (SpineJoin δ) → Row → List Row
  | [], row => [row]
  | link :: rest, row => (link.outputs ev ops db row).flatMap (extendAll rest)

@[simp] def matchAll : List (SpineJoin δ) → Row → List Row
  | [], row => [row]
  | link :: rest, row => (link.matched ev ops db row).flatMap (matchAll rest)

variable {ev ops db} {link : SpineJoin δ} {links : List (SpineJoin δ)} {row row' : Row}

theorem outputs_of_left (hkind : link.kind = .left) :
    link.outputs ev ops db row =
      if (link.matched ev ops db row).isEmpty then [row ++ nullRow link.right.layout]
      else link.matched ev ops db row := by
  simp [outputs, matched, joinOne, hkind]

theorem exists_of_outputs (hshows : link.right.Shows) (h : row' ∈ link.outputs ev ops db row) :
    ∃ extra, row' = row ++ extra ∧ extra.Within link.tables := by
  rcases exists_of_mem_joinOne h with ⟨-, rfl⟩ | ⟨-, other, hother, rfl⟩
  · exact ⟨[], by simp, by simp [Row.Within]⟩
  · exact ⟨other, rfl, hshows.within_joined hother⟩

theorem exists_of_extendAll (hshows : ∀ link ∈ links, link.right.Shows)
    (h : row' ∈ extendAll ev ops db links row) :
    ∃ extra, row' = row ++ extra ∧ extra.Within (links.flatMap SpineJoin.tables) := by
  induction links generalizing row with
  | nil => exact ⟨[], by simpa using h, by simp [Row.Within]⟩
  | cons link rest ih =>
    obtain ⟨hlink, hrest⟩ := forall_mem_cons.mp hshows
    obtain ⟨middle, hmiddle, hrow'⟩ := mem_flatMap.mp h
    obtain ⟨first, rfl, hfirst⟩ := exists_of_outputs hlink hmiddle
    obtain ⟨second, rfl, hsecond⟩ := ih hrest hrow'
    exact ⟨first ++ second, append_assoc _ _ _, hfirst.append hsecond⟩

theorem flatMap_ne_nil {α β : Type*} {l : List α} {f : α → List β} (hl : l ≠ [])
    (hf : ∀ a, f a ≠ []) : l.flatMap f ≠ [] := by
  obtain ⟨first, others, rfl⟩ := exists_cons_of_ne_nil hl
  simp [hf first]

theorem extendAll_ne_nil (hkinds : ∀ link ∈ links, link.kind = .left) (row : Row) :
    extendAll ev ops db links row ≠ [] := by
  induction links generalizing row with
  | nil => simp
  | cons link rest ih =>
    obtain ⟨hkind, hrest⟩ := forall_mem_cons.mp hkinds
    refine flatMap_ne_nil ?_ (ih hrest)
    rw [outputs_of_left hkind]
    split
    · simp
    · rename_i h
      exact fun heq => h (by simp [heq])

theorem extendAll_append (links others : List (SpineJoin δ)) (row : Row) :
    extendAll ev ops db (links ++ others) row =
      (extendAll ev ops db links row).flatMap (extendAll ev ops db others) := by
  induction links generalizing row with
  | nil => simp
  | cons link rest ih =>
    simp only [extendAll, flatMap_assoc]
    exact flatMap_congr fun _ _ => ih _

theorem matchAll_concat (links : List (SpineJoin δ)) (link : SpineJoin δ) (row : Row) :
    matchAll ev ops db (links ++ [link]) row =
      (matchAll ev ops db links row).flatMap (link.matched ev ops db) := by
  induction links generalizing row with
  | nil => simp
  | cons first rest ih =>
    simp only [matchAll, flatMap_assoc]
    exact flatMap_congr fun _ _ => ih _

namespace LogicalPlan

theorem rows_joinAll (base : LogicalPlan δ) (links : List (SpineJoin δ)) :
    (base.joinAll links).rows ev ops db =
      (base.rows ev ops db).flatMap (extendAll ev ops db links) := by
  induction links generalizing base with
  | nil => simp [joinAll]
  | cons link rest ih =>
    have hrec := ih (.join base link.right link.kind link.condition)
    simp only [rows, joinRows, flatMap_assoc] at hrec
    exact hrec

theorem joinAll_joinSpine (plan : LogicalPlan δ) :
    plan.joinSpine.1.joinAll plan.joinSpine.2 = plan := by
  induction plan using joinSpine.induct with
  | case1 left right kind condition ih =>
    simp only [joinSpine, joinAll, foldl_append] at ih ⊢
    rw [ih]
    rfl
  | case2 plan hplan =>
    rw [joinSpine.eq_2 plan hplan]
    rfl

theorem planTables_joinSpine (plan : LogicalPlan δ) : plan.planTables =
    plan.joinSpine.1.planTables ++ plan.joinSpine.2.flatMap SpineJoin.tables := by
  induction plan using joinSpine.induct with
  | case1 left right kind condition ih => simp [SpineJoin.tables, ih]
  | case2 plan hplan => simp

end LogicalPlan

end Chain

section Layout

variable {δ : Type}

/-- A condition as the binder resolves it: it reads the relations in scope, and a list it looks a
value up in is not empty. -/
def Resolved (tables : List TableKey) (condition : Option BoundExpr) : Prop :=
  ∀ expr ∈ condition, expr.listed = true ∧ ∀ label ∈ expr.reads, label.Within tables

/-- The relations along the chain are apart, and each condition reads those joined so far. -/
def LogicalPlan.Chained : LogicalPlan δ → Prop
  | .join left right _ condition =>
    left.Chained ∧ left.Apart right ∧ Resolved (left.planTables ++ right.planTables) condition
  | _ => True

def Spaced : List TableKey → List (SpineJoin δ) → Prop
  | _, [] => True
  | seen, link :: rest =>
    (link.right.Shows ∧ seen.Disjoint link.tables ∧
      Resolved (seen ++ link.tables) link.condition) ∧ Spaced (seen ++ link.tables) rest

variable {seen : List TableKey}

theorem spaced_append {links others : List (SpineJoin δ)} :
    Spaced seen (links ++ others) ↔
      Spaced seen links ∧ Spaced (seen ++ links.flatMap SpineJoin.tables) others := by
  induction links generalizing seen with
  | nil => simp [Spaced]
  | cons link rest ih => simp [Spaced, ih, and_assoc]

variable {links : List (SpineJoin δ)}

theorem Spaced.shows (h : Spaced seen links) : ∀ link ∈ links, link.right.Shows := by
  induction links generalizing seen with
  | nil => simp
  | cons link rest ih => exact forall_mem_cons.mpr ⟨h.1.1, ih h.2⟩

theorem Spaced.not_mem (h : Spaced seen links) {table : TableKey}
    (htable : table ∈ seen) : ∀ link ∈ links, table ∉ link.tables := by
  induction links generalizing seen with
  | nil => simp
  | cons link rest ih =>
    exact forall_mem_cons.mpr
      ⟨fun hmem => h.1.2.1 htable hmem, ih h.2 (mem_append_left _ htable)⟩

theorem LogicalPlan.Chained.spaced {plan : LogicalPlan δ} (h : plan.Chained) :
    Spaced plan.joinSpine.1.planTables plan.joinSpine.2 ∧
      (plan.joinSpine.2 ≠ [] → plan.joinSpine.1.Shows) := by
  induction plan using joinSpine.induct with
  | case1 left right kind condition ih =>
    obtain ⟨hleft, hapart, hcondition⟩ := h
    obtain ⟨hspaced, hbase⟩ := ih hleft
    have hdisjoint := hapart.disjoint
    rw [planTables_joinSpine left] at hdisjoint hcondition
    simp only [joinSpine]
    refine ⟨spaced_append.mpr ⟨hspaced, ⟨hapart.right_shows, hdisjoint, hcondition⟩, trivial⟩, ?_⟩
    intro _
    by_cases hnil : left.joinSpine.2 = []
    · have heq := joinAll_joinSpine left
      rw [hnil] at heq
      change left.joinSpine.1 = left at heq
      rw [heq]
      exact hapart.left_shows
    · exact hbase hnil
  | case2 plan hplan =>
    rw [joinSpine.eq_2 plan hplan]
    exact ⟨trivial, fun h => absurd rfl h⟩

end Layout

section Missing

variable {δ : Type} {ev : Evaluation} {ops : Operators δ} {db : Database}
  {link target : SpineJoin δ} {seen : List TableKey} {row row' : Row} {table : TableKey}

theorem within_of_outputs (hshows : link.right.Shows) (hrow : row.Within seen)
    (h : row' ∈ link.outputs ev ops db row) : row'.Within (seen ++ link.tables) := by
  obtain ⟨extra, rfl, hextra⟩ := exists_of_outputs hshows h
  exact hrow.append hextra

theorem nullOn_of_missing {tables : List TableKey} (hdisjoint : seen.Disjoint tables)
    (hrow : row.Within seen) (labels : List Label) (htable : table ∈ tables) :
    Row.NullOn table (row ++ nullRow labels) :=
  Row.nullOn_append.mpr
    ⟨hrow.nullOn fun hmem => hdisjoint hmem htable, nullOn_nullRow labels table⟩

/-- A relation that is `NULL` stays so, and makes the next one `NULL` if the join rejects it. -/
theorem nullOn_of_outputs (hlink : link.right.Shows ∧ seen.Disjoint link.tables ∧
      Resolved (seen ++ link.tables) link.condition) (hkind : link.kind = .left)
    (hrow : row.Within seen) (htable : table ∈ seen) (hnull : row.NullOn table)
    (h : row' ∈ link.outputs ev ops db row) : row'.NullOn table ∧
      (Rejects link.condition table → ∀ t ∈ link.tables, row'.NullOn t) := by
  obtain ⟨hshows, hdisjoint, hresolved⟩ := hlink
  have hboth {extra : Row} (hextra : extra.Within link.tables) : Row.NullOn table (row ++ extra) :=
    Row.nullOn_append.mpr ⟨hnull, hextra.nullOn fun hmem => hdisjoint htable hmem⟩
  constructor
  · obtain ⟨extra, rfl, hextra⟩ := exists_of_outputs hshows h
    exact hboth hextra
  · intro hrejects t ht
    have hnone : link.matched ev ops db row = [] := by
      refine map_eq_nil_iff.mpr (filter_eq_nil_iff.mpr fun other hother => ?_)
      simp [holds_of_rejects (fun expr hexpr => (hresolved expr hexpr).1) hrejects
        (hboth (hshows.within hother))]
    rw [outputs_of_left hkind, hnone] at h
    obtain rfl := mem_singleton.mp h
    exact nullOn_of_missing hdisjoint hrow _ ht

/-- Each relation of a bridge is one that a later join is keyed on. -/
def Bridged (target : SpineJoin δ) : List (SpineJoin δ) → Prop
  | [] => True
  | link :: rest =>
    (∃ table ∈ link.tables, ∃ later ∈ rest ++ [target], Rejects later.condition table) ∧
      Bridged target rest

variable {links : List (SpineJoin δ)}

theorem nullOn_target (hspaced : Spaced seen (links ++ [target]))
    (hkinds : ∀ link ∈ links ++ [target], link.kind = .left) (hbridged : Bridged target links)
    (hrow : row.Within seen) (hseen : table ∈ seen) (hnull : row.NullOn table)
    (hrejects : ∃ later ∈ links ++ [target], Rejects later.condition table)
    (hrow' : row' ∈ extendAll ev ops db (links ++ [target]) row) :
    ∀ table ∈ target.tables, row'.NullOn table := by
  induction links generalizing seen row table with
  | nil =>
    simp only [nil_append, mem_singleton, exists_eq_left] at hrejects
    simp only [nil_append, extendAll, flatMap_singleton'] at hrow'
    exact (nullOn_of_outputs hspaced.1 (hkinds target (by simp)) hrow hseen hnull hrow').2 hrejects
  | cons link rest ih =>
    obtain ⟨hlink, hspaced⟩ := hspaced
    obtain ⟨hkind, hkinds⟩ := forall_mem_cons.mp hkinds
    obtain ⟨⟨next, hnext, hlater⟩, hbridged⟩ := hbridged
    simp only [cons_append, extendAll, mem_flatMap] at hrow'
    obtain ⟨middle, hmiddle, hrow'⟩ := hrow'
    have hwithin := within_of_outputs hlink.1 hrow hmiddle
    obtain ⟨hkept, hmissing⟩ := nullOn_of_outputs hlink hkind hrow hseen hnull hmiddle
    by_cases hhere : Rejects link.condition table
    · exact ih hspaced hkinds hbridged hwithin (mem_append_right _ hnext)
        (hmissing hhere next hnext) hlater hrow'
    · have hrest : ∃ later ∈ rest ++ [target], Rejects later.condition table := by
        obtain ⟨later, hmem, hlater⟩ := hrejects
        rcases mem_cons.mp hmem with rfl | hmem
        · exact absurd hlater hhere
        · exact ⟨later, hmem, hlater⟩
      exact ih hspaced hkinds hbridged hwithin (mem_append_left _ hseen) hkept hrest hrow'

/-- What only the rows that reach the target contribute to can be read off the matched rows. -/
theorem flatMap_extendAll {β : Type*} {f : Row → List β} (hspaced : Spaced seen (links ++ [target]))
    (hkinds : ∀ link ∈ links ++ [target], link.kind = .left) (hbridged : Bridged target links)
    (hrow : row.Within seen) (hf : ∀ row' ∈ extendAll ev ops db (links ++ [target]) row,
      (∀ table ∈ target.tables, row'.NullOn table) → f row' = []) :
    (extendAll ev ops db (links ++ [target]) row).flatMap f =
      (matchAll ev ops db (links ++ [target]) row).flatMap f := by
  induction links generalizing seen row with
  | nil =>
    obtain ⟨⟨-, hdisjoint, -⟩, -⟩ := hspaced
    simp only [nil_append, extendAll, matchAll, flatMap_singleton',
      outputs_of_left (hkinds target (by simp))] at hf ⊢
    split
    · rename_i hempty
      rw [isEmpty_iff.mp hempty, flatMap_singleton]
      refine hf _ (by simp [hempty]) fun t ht => nullOn_of_missing hdisjoint hrow _ ht
    · rfl
  | cons link rest ih =>
    obtain ⟨⟨hshows, hdisjoint, -⟩, hspaced⟩ := hspaced
    obtain ⟨hkind, hkinds⟩ := forall_mem_cons.mp hkinds
    obtain ⟨⟨next, hnext, hlater⟩, hbridged⟩ := hbridged
    have hwithin (middle) (h : middle ∈ link.outputs ev ops db row) :=
      within_of_outputs hshows hrow h
    simp only [cons_append, extendAll, matchAll, flatMap_assoc] at hf ⊢
    by_cases hempty : (link.matched ev ops db row).isEmpty = true
    · -- no row of the relation: nothing below reaches the target
      have hout : link.outputs ev ops db row = [row ++ nullRow link.right.layout] := by
        rw [outputs_of_left hkind, if_pos hempty]
      rw [hout] at hwithin hf ⊢
      rw [isEmpty_iff.mp hempty, flatMap_singleton, flatMap_nil, flatMap_eq_nil_iff]
      intro row' hrow'
      apply hf row' (by simpa using hrow')
      exact nullOn_target hspaced hkinds hbridged (hwithin _ (by simp))
        (mem_append_right _ hnext) (nullOn_of_missing hdisjoint hrow _ hnext) hlater hrow'
    · have hout : link.outputs ev ops db row = link.matched ev ops db row := by
        rw [outputs_of_left hkind, if_neg hempty]
      rw [hout] at hwithin hf ⊢
      apply flatMap_congr
      intro middle hmiddle
      exact ih hspaced hkinds hbridged (hwithin middle hmiddle)
        fun row' hrow' => hf row' (mem_flatMap.mpr ⟨middle, hmiddle, hrow'⟩)

theorem nullOn_nulledBy (hspaced : Spaced seen links) (hkinds : ∀ link ∈ links, link.kind = .left)
    (hrow : row.Within seen) {nulled : List TableKey} (hnulled : nulled ⊆ seen)
    (hnull : ∀ table ∈ nulled, row.NullOn table) (hrow' : row' ∈ extendAll ev ops db links row) :
    ∀ table ∈ LogicalPlan.nulledBy nulled links, row'.NullOn table := by
  induction links generalizing seen row nulled with
  | nil =>
    simp only [extendAll, mem_singleton] at hrow'
    subst hrow'
    exact hnull
  | cons link rest ih =>
    obtain ⟨hlink, hspaced⟩ := hspaced
    obtain ⟨hkind, hkinds⟩ := forall_mem_cons.mp hkinds
    obtain ⟨middle, hmiddle, hrow'⟩ := mem_flatMap.mp hrow'
    have hwithin := within_of_outputs hlink.1 hrow hmiddle
    have hstep (table) (htable : table ∈ nulled) :=
      nullOn_of_outputs hlink hkind hrow (hnulled htable) (hnull table htable) hmiddle
    have hseen := subset_append_of_subset_left link.tables hnulled
    unfold LogicalPlan.nulledBy
    rw [foldl_cons]
    split
    · rename_i hany
      obtain ⟨expr, hexpr, hany⟩ := (Option.any_eq_true _ _).mp hany
      obtain ⟨conjunct, hconjunct, hany⟩ := any_eq_true.mp hany
      obtain ⟨table, htable, hmem⟩ := any_eq_true.mp hany
      have hmissing := (hstep table (of_decide_eq_true hmem)).2
        ⟨expr, hexpr, conjunct, hconjunct, htable⟩
      refine ih hspaced hkinds hwithin
        (append_subset.mpr ⟨hseen, subset_append_right _ _⟩) ?_ hrow'
      exact forall_mem_append.mpr ⟨fun t ht => (hstep t ht).1, hmissing⟩
    · exact ih hspaced hkinds hwithin hseen (fun t ht => (hstep t ht).1) hrow'

end Missing

section Nested

variable {δ : Type} {ev : Evaluation} {ops : Operators δ} {db : Database}
  {tables : List TableKey} {conjunct : BoundExpr}

def ReadsOnly (tables : List TableKey) (conjunct : BoundExpr) : Prop :=
  conjunct.containsSubquery = false ∧ ∀ label ∈ conjunct.reads, label.Within tables

theorem readsOnly_binary (tables : List TableKey) (type : ExprType) (op : BinaryOp)
    (left right : BoundExpr) (_ : op = .and ∨ op = .or) :
    ReadsOnly tables (.binary type op left right) ↔
      ReadsOnly tables left ∧ ReadsOnly tables right := by
  simp only [ReadsOnly, containsSubquery, Bool.or_eq_false_iff, reads, forall_mem_append]
  tauto

theorem ReadsOnly.conjunctsIn {condition : Option BoundExpr}
    (h : ∀ expr ∈ condition, ReadsOnly tables expr) {part : BoundExpr}
    (hpart : part ∈ conjunctsIn condition) : ReadsOnly tables part := by
  cases condition with
  | none => simp [Exec.conjunctsIn] at hpart
  | some expr => exact of_splitConjunction (readsOnly_binary tables) (h expr rfl) hpart

theorem ReadsOnly.keeps_append {tables' : List TableKey} (h : ReadsOnly tables conjunct)
    (hdisjoint : tables.Disjoint tables') {row extra : Row} (hextra : extra.Within tables') :
    ev.keeps conjunct (row ++ extra) = ev.keeps conjunct row := by
  unfold Evaluation.keeps
  rw [ev.eval_congr conjunct h.1 fun label hlabel => Row.get_append_left fun value hmem => ?_]
  have hread := h.2 label hlabel
  have hheld := hextra _ hmem
  cases label with
  | column key => exact hdisjoint hread hheld
  | slot index => exact hread

theorem ReadsOnly.keeps_nest {seen reached : List TableKey} (h : ReadsOnly tables conjunct)
    (hreached : ∀ table ∈ conjunct.referencedTables, table ∈ reached)
    (hdisjoint : seen.Disjoint reached) {row other : Row} (hrow : row.Within seen) :
    ev.keeps conjunct (row ++ other) = ev.keeps conjunct other := by
  unfold Evaluation.keeps
  rw [ev.eval_congr conjunct h.1 fun label hlabel => Row.get_append_right fun value hmem => ?_]
  have hheld := hrow _ hmem
  cases label with
  | column key =>
    have hkey := mem_collectColumns_of_reads hlabel
    exact hdisjoint hheld
      (hreached _ (mem_dedup.mpr (mem_map_of_mem hkey)))
  | slot index => exact hheld

namespace LogicalPlan

def Nest.rows (ev : Evaluation) (ops : Operators δ) (db : Database) (nest : Nest δ) : List Row :=
  (nest.nested.map (LogicalPlan.rows ev ops db)).getD [[]]

theorem Nest.rows_add (nest : Nest δ) (link : SpineJoin δ) :
    (nest.add link).rows ev ops db = (nest.rows ev ops db).flatMap fun row =>
      ((link.right.rows ev ops db).filter fun other =>
        ((conjunctsIn link.condition).filter fun conjunct =>
          conjunct.referencedTables.all (· ∈ nest.reached ++ link.tables)).all
            (ev.keeps · (row ++ other))).map (row ++ ·) := by
  have hinner : ∀ row : Row, holds ev (reduce andExpr ((conjunctsIn link.condition).filter
      fun conjunct => conjunct.referencedTables.all (· ∈ nest.reached ++ link.tables))) row = _ :=
    fun row => holds_reduce _
  cases hnested : nest.nested with
  | none =>
    simp only [Nest.rows, Nest.add, hnested, Option.map_some, Option.map_none, Option.getD_some,
      Option.getD_none, flatMap_singleton, nil_append, map_id']
    simp only [conjunctsIn] at hinner
    split
    · rename_i heq
      rw [heq] at hinner
      simp only [conjunctsIn, ← hinner, holds, Option.all_none, filter_true]
    · rename_i predicate heq
      rw [heq] at hinner
      simp only [conjunctsIn, ← hinner, holds, Option.all_some, LogicalPlan.rows]
  | some left =>
    simp only [Nest.rows, Nest.add, hnested]
    apply flatMap_congr
    intro row _
    simp only [conjunctsIn] at hinner
    simp only [joinOne, conjunctsIn, hinner]

/-- A nest of some joins over rows of the given relations: its rows that meet the conjuncts left
outside are those in which a row has met a right row at every join. -/
structure Nest.Holds (ev : Evaluation) (ops : Operators δ) (db : Database)
    (seen : List TableKey) (links : List (SpineJoin δ)) (nest : Nest δ) : Prop where
  reached : nest.reached = links.flatMap SpineJoin.tables
  within : ∀ row ∈ nest.rows ev ops db, row.Within nest.reached
  layout : ∀ plan ∈ nest.nested, ∀ label ∈ plan.layout, label.Within nest.reached
  reads : ∀ conjunct ∈ nest.outer, ReadsOnly (seen ++ nest.reached) conjunct
  rows : ∀ row : Row, row.Within seen → matchAll ev ops db links row =
    ((nest.rows ev ops db).filter fun other =>
      nest.outer.all (ev.keeps · (row ++ other))).map (row ++ ·)

theorem all_congr_of_mem {α : Type*} {l : List α} {p q : α → Bool} (h : ∀ a ∈ l, p a = q a) :
    l.all p = l.all q := by
  rw [Bool.eq_iff_iff, all_eq_true, all_eq_true]
  exact forall₂_congr fun a ha => by rw [h a ha]

theorem all_filter_and_all_filter_not {α : Type*} (l : List α) (p q : α → Bool) :
    ((l.filter p).all q && (l.filter fun a => !p a).all q) = l.all q := by
  grind

variable {links : List (SpineJoin δ)} {seen : List TableKey}
  {nest : Nest δ} {nested : LogicalPlan δ}

section Add

variable {link : SpineJoin δ} (h : nest.Holds ev ops db seen links)
  (hspaced : Spaced seen (links ++ [link]))
  (hsub : ∀ expr ∈ link.condition, expr.containsSubquery = false)

include h hspaced

theorem Nest.Holds.disjoint_add : seen.Disjoint (nest.reached ++ link.tables) := by
  intro table htable hmem
  rw [h.reached] at hmem
  have hnot := hspaced.not_mem htable
  rcases mem_append.mp hmem with hmem | hmem
  · obtain ⟨other, hother, hmem⟩ := mem_flatMap.mp hmem
    exact hnot other (mem_append_left _ hother) hmem
  · exact hnot link (by simp) hmem

include hsub

theorem Nest.Holds.reads_link : ∀ conjunct ∈ conjunctsIn link.condition,
    ReadsOnly (seen ++ nest.reached ++ link.tables) conjunct := by
  obtain ⟨-, ⟨-, -, hresolved⟩, -⟩ := spaced_append.mp hspaced
  rw [← h.reached] at hresolved
  intro conjunct
  exact ReadsOnly.conjunctsIn fun expr hexpr => ⟨hsub expr hexpr, (hresolved expr hexpr).2⟩

theorem Nest.Holds.matchAll_add {row : Row} (hrow : row.Within seen) :
    matchAll ev ops db (links ++ [link]) row = (((nest.add link).rows ev ops db).filter fun inside =>
      (nest.add link).outer.all (ev.keeps · (row ++ inside))).map (row ++ ·) := by
  obtain ⟨-, ⟨hshows, hdisjoint, -⟩, -⟩ := spaced_append.mp hspaced
  rw [← h.reached] at hdisjoint
  rw [matchAll_concat, h.rows row hrow, Nest.rows_add, flatMap_map, Grouped.flatMap_filter_eq,
    filter_flatMap, map_flatMap]
  apply flatMap_congr
  intro inside hinside
  -- whether the conjuncts left outside so far are met does not depend on the new relation
  have hold : ∀ other ∈ link.right.rows ev ops db,
      nest.outer.all (ev.keeps · (row ++ (inside ++ other))) =
        nest.outer.all (ev.keeps · (row ++ inside)) := by
    intro other hother
    rw [← append_assoc]
    apply all_congr_of_mem
    intro conjunct hconjunct
    exact (h.reads conjunct hconjunct).keeps_append hdisjoint (hshows.within hother)
  have hinner : ∀ other : Row,
      ((conjunctsIn link.condition).filter fun conjunct =>
        conjunct.referencedTables.all (· ∈ nest.reached ++ link.tables)).all
          (ev.keeps · (inside ++ other)) =
      ((conjunctsIn link.condition).filter fun conjunct =>
        conjunct.referencedTables.all (· ∈ nest.reached ++ link.tables)).all
          (ev.keeps · (row ++ (inside ++ other))) := by
    intro other
    apply all_congr_of_mem
    intro conjunct hconjunct
    obtain ⟨hmem, htables⟩ := mem_filter.mp hconjunct
    refine ((h.reads_link hspaced hsub conjunct hmem).keeps_nest ?_ (h.disjoint_add hspaced)
      hrow).symm
    exact fun table htable => of_decide_eq_true (all_eq_true.mp htables table htable)
  simp only [hinner, filter_map, filter_filter, map_map, SpineJoin.matched,
    Nest.add, holds_eq_all, all_append, Function.comp_def, append_assoc]
  cases hmet : nest.outer.all (ev.keeps · (row ++ inside)) with
  | true =>
    rw [if_pos rfl]
    congr 1
    apply filter_congr
    intro other hother
    rw [hold other hother, hmet, Bool.and_comm]
    exact (all_filter_and_all_filter_not _ _ _).symm
  | false =>
    rw [if_neg (by simp), eq_comm, map_eq_nil_iff, filter_eq_nil_iff]
    intro other hother
    rw [hold other hother, hmet]
    simp

theorem Nest.Holds.add : (nest.add link).Holds ev ops db seen (links ++ [link]) := by
  obtain ⟨-, ⟨hshows, -, -⟩, -⟩ := spaced_append.mp hspaced
  constructor
  · simp [Nest.add, h.reached]
  · intro row hrow
    rw [Nest.rows_add] at hrow
    obtain ⟨inside, hinside, hrow⟩ := mem_flatMap.mp hrow
    obtain ⟨other, hother, rfl⟩ := mem_map.mp hrow
    exact (h.within inside hinside).append (hshows.within (mem_of_mem_filter hother))
  · have hright : ∀ label ∈ link.right.layout, label.Within (nest.reached ++ link.tables) :=
      fun label hlabel => (hshows label hlabel).mono (subset_append_right _ _)
    rintro plan hplan label hlabel
    cases hplan
    cases hnested : nest.nested with
    | none =>
      simp only [hnested] at hlabel
      split at hlabel
      · exact hright label hlabel
      · exact hright label hlabel
    | some left =>
      simp only [hnested] at hlabel
      rcases mem_append.mp hlabel with hlabel | hlabel
      · exact (h.layout left hnested label hlabel).mono (subset_append_left _ _)
      · exact hright label hlabel
  · intro conjunct hconjunct
    simp only [Nest.add] at hconjunct ⊢
    rw [← append_assoc]
    rcases mem_append.mp hconjunct with hold | hnew
    · refine ⟨(h.reads conjunct hold).1, fun label hlabel => ?_⟩
      exact Label.Within.mono ((h.reads conjunct hold).2 label hlabel)
        (subset_append_left _ _)
    · exact h.reads_link hspaced hsub conjunct (mem_of_mem_filter hnew)
  · intro row hrow
    exact h.matchAll_add hspaced hsub hrow

end Add

theorem Nest.holds_foldl (hspaced : Spaced seen links)
    (hsub : ∀ link ∈ links, ∀ expr ∈ link.condition, expr.containsSubquery = false) :
    (links.foldl Nest.add ⟨[], [], none⟩).Holds ev ops db seen links := by
  induction links using reverseRecOn with
  | nil => constructor <;> simp [Nest.rows, Row.Within]
  | append_singleton links link ih =>
    rw [foldl_append]
    refine (ih (spaced_append.mp hspaced).1 fun other hother => ?_).add hspaced ?_
    · exact hsub other (mem_append_left _ hother)
    · exact hsub link (by simp)

theorem Nest.Holds.within_nullRow (h : nest.Holds ev ops db seen links)
    (hnested : nest.nested = some nested) : Row.Within nest.reached (nullRow nested.layout) := by
  intro entry hentry
  obtain ⟨label, hlabel, rfl⟩ := mem_map.mp hentry
  exact h.layout nested hnested label hlabel

theorem Nest.exists_nested (h : links ≠ []) (nest : Nest δ) :
    ∃ nested, (links.foldl Nest.add nest).nested = some nested := by
  induction links using reverseRecOn with
  | nil => exact absurd rfl h
  | append_singleton links link ih =>
    rw [foldl_append]
    exact ⟨_, rfl⟩

theorem Nest.Holds.joinOne (h : nest.Holds ev ops db seen links)
    (hnested : nest.nested = some nested) {row : Row} (hrow : row.Within seen) :
    Exec.joinOne ev .left (reduce andExpr nest.outer) (nested.rows ev ops db)
        (nullRow nested.layout) row =
      if (matchAll ev ops db links row).isEmpty then [row ++ nullRow nested.layout]
      else matchAll ev ops db links row := by
  rw [h.rows row hrow]
  simp [Exec.joinOne, Nest.rows, hnested, holds_reduce]

end LogicalPlan

end Nested

end Pintail.Exec
