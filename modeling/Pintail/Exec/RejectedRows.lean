import Pintail.Exec.Planned

/-! # Rejected null extensions

Two lists of rows agree up to rejected rows when every predicate that rejects the given relations
keeps the same rows of both. Rejections leave a plan's rows alike in this sense: a left join that
becomes inner loses only rows that are `NULL` on a rejected relation.
-/

namespace Pintail.Exec

open List

/-- Whether a row is `NULL` on a relation among those rejected. -/
def Row.Rejected (tables : List TableKey) (rejections : List (List TableKey)) (row : Row) : Prop :=
  ∃ rejected ∈ rejections, ∃ table ∈ rejected, table ∈ tables ∧ row.NullOn table

def RowsAgree (tables : List TableKey) (rejections : List (List TableKey))
    (rows rows' : List Row) : Prop :=
  ∀ keep : Row → Bool, (∀ row : Row, row.Rejected tables rejections → keep row = false) →
    rows.filter keep = rows'.filter keep

section

variable {tables : List TableKey} {rejections : List (List TableKey)} {rows rows' : List Row}

theorem RowsAgree.refl : RowsAgree tables rejections rows rows := fun _ _ => rfl

theorem flatMap_filter_of_nil {α β : Type*} {keep : α → Bool} {f : α → List β} {as : List α}
    (h : ∀ a ∈ as, keep a = false → f a = []) : (as.filter keep).flatMap f = as.flatMap f := by
  induction as with
  | nil => rfl
  | cons a as ih =>
    rw [forall_mem_cons] at h
    cases hkeep : keep a with
    | true => simp [hkeep, ih h.2]
    | false => simp [hkeep, ih h.2, h.1 hkeep]

open Classical in
theorem RowsAgree.flatMap_eq (h : RowsAgree tables rejections rows rows')
    {f : Row → List Row} (hrows : ∀ row ∈ rows, row.Rejected tables rejections → f row = [])
    (hrows' : ∀ row ∈ rows', row.Rejected tables rejections → f row = []) :
    rows.flatMap f = rows'.flatMap f := by
  have hkept := h (fun row => decide (¬ row.Rejected tables rejections)) (by simp)
  calc rows.flatMap f
      = (rows.filter fun row => decide (¬ row.Rejected tables rejections)).flatMap f :=
        (flatMap_filter_of_nil fun row hrow hk => hrows row hrow (by simpa using hk)).symm
    _ = (rows'.filter fun row => decide (¬ row.Rejected tables rejections)).flatMap f := by
        rw [hkept]
    _ = rows'.flatMap f :=
        flatMap_filter_of_nil fun row hrow hk => hrows' row hrow (by simpa using hk)

end

theorem nullOn_nullRow (labels : List Label) (table : TableKey) :
    Row.NullOn table (nullRow labels) := by
  intro key value hmem _
  obtain ⟨label, -, heq⟩ := mem_map.mp hmem
  exact (Prod.mk.inj heq).2.symm

section Join

variable {lt rt : List TableKey} {rejections : List (List TableKey)} {left right : Row}

theorem Row.Rejected.append_left (h : left.Rejected lt rejections) (hright : right.Within rt)
    (hdisjoint : lt.Disjoint rt) : Row.Rejected (lt ++ rt) rejections (left ++ right) := by
  obtain ⟨rejected, hrejected, table, htable, hmem, hnull⟩ := h
  exact ⟨rejected, hrejected, table, htable, mem_append_left _ hmem,
    Row.nullOn_append.mpr ⟨hnull, hright.nullOn (hdisjoint hmem)⟩⟩

theorem Row.Rejected.append_right (h : right.Rejected rt rejections) (hleft : left.Within lt)
    (hdisjoint : lt.Disjoint rt) : Row.Rejected (lt ++ rt) rejections (left ++ right) := by
  obtain ⟨rejected, hrejected, table, htable, hmem, hnull⟩ := h
  exact ⟨rejected, hrejected, table, htable, mem_append_right _ hmem,
    Row.nullOn_append.mpr ⟨hleft.nullOn fun h => hdisjoint h hmem, hnull⟩⟩

variable {ev : Evaluation} {kind : JoinKind} {condition : Option BoundExpr} {absent : Row}
  {ls ls' rs rs' : List Row} {keep : Row → Bool}

theorem filter_joinOne_of_rejected (hkeep : ∀ row : Row, row.Rejected (lt ++ rt) rejections →
      keep row = false) (hdisjoint : lt.Disjoint rt) (hrs : ∀ row ∈ rs, Row.Within rt row)
    (habsent : Row.Within rt absent) (hleft : left.Rejected lt rejections) :
    (joinOne ev kind condition rs absent left).filter keep = [] := by
  apply filter_eq_nil_iff.mpr
  intro row hrow
  rw [Bool.not_eq_true]
  apply hkeep row
  rcases exists_of_mem_joinOne hrow with ⟨-, rfl⟩ | ⟨-, other, hother, rfl⟩
  · obtain ⟨rejected, hrejected, table, htable, hmem, hnull⟩ := hleft
    exact ⟨rejected, hrejected, table, htable, mem_append_left _ hmem, hnull⟩
  · exact hleft.append_left (hother.elim (hrs other) fun h => h ▸ habsent) hdisjoint

theorem filter_joinRows_agree_left (hls : RowsAgree lt rejections ls ls')
    (hnone : ∀ left : Row, left.Rejected lt rejections →
      (joinOne ev kind condition rs absent left).filter keep = []) :
    (joinRows ev kind condition absent ls rs).filter keep =
      (joinRows ev kind condition absent ls' rs).filter keep := by
  simp only [joinRows, filter_flatMap]
  exact hls.flatMap_eq (fun left _ => hnone left) fun left _ => hnone left

theorem filter_joinOne_inner (hkind : kind = .inner ∨ kind = .cross) (left : Row) :
    (joinOne ev kind condition rs absent left).filter keep =
      (rs.filter fun right => holds ev condition (left ++ right) && keep (left ++ right)).map
        (left ++ ·) := by
  rcases hkind with rfl | rfl <;>
    simp [joinOne, filter_map, Bool.and_comm]

theorem filter_joinRows_agree (hkind : kind = .inner ∨ kind = .cross)
    {lrejections rrejections : List (List TableKey)} (hls : RowsAgree lt lrejections ls ls')
    (hrs : RowsAgree rt rrejections rs rs')
    (hdropl : ∀ row : Row, row.Rejected (lt ++ rt) lrejections →
      (holds ev condition row && keep row) = false)
    (hdropr : ∀ row : Row, row.Rejected (lt ++ rt) rrejections →
      (holds ev condition row && keep row) = false) (hdisjoint : lt.Disjoint rt)
    (hwithinl : ∀ row ∈ ls', Row.Within lt row) (hwithinr : ∀ row ∈ rs, Row.Within rt row) :
    (joinRows ev kind condition absent ls rs).filter keep =
      (joinRows ev kind condition absent ls' rs').filter keep := by
  trans (joinRows ev kind condition absent ls' rs).filter keep
  · apply filter_joinRows_agree_left hls
    intro left hleft
    rw [filter_joinOne_inner hkind]
    refine map_eq_nil_iff.mpr (filter_eq_nil_iff.mpr fun right hright => ?_)
    rw [Bool.not_eq_true]
    exact hdropl _ (hleft.append_left (hwithinr right hright) hdisjoint)
  · simp only [joinRows, filter_flatMap]
    apply flatMap_congr
    intro left hleft
    rw [filter_joinOne_inner hkind, filter_joinOne_inner hkind]
    rw [hrs _ fun right hright => hdropr _ (hright.append_right (hwithinl left hleft) hdisjoint)]

theorem filter_joinRows_left_eq_inner (labels : List Label)
    (hkeep : ∀ row : Row, row.Rejected (lt ++ rt) rejections → keep row = false)
    (hmeets : ∃ rejected ∈ rejections, ∃ table ∈ rt, table ∈ rejected)
    (hdisjoint : lt.Disjoint rt) (hls : ∀ row ∈ ls, Row.Within lt row) :
    (joinRows ev .left condition (nullRow labels) ls rs).filter keep =
      (joinRows ev .inner condition (nullRow labels) ls rs).filter keep := by
  simp only [joinRows, filter_flatMap]
  apply flatMap_congr
  intro left hleft
  obtain ⟨rejected, hrejected, table, htable, hmem⟩ := hmeets
  have hdrop : keep (left ++ nullRow labels) = false :=
    hkeep _ ⟨rejected, hrejected, table, hmem, mem_append_right _ htable,
      Row.nullOn_append.mpr ⟨(hls left hleft).nullOn fun h => hdisjoint h htable,
        nullOn_nullRow labels table⟩⟩
  unfold joinOne
  dsimp only
  split
  · rename_i hempty
    simp [isEmpty_iff.mp hempty, hdrop]
  · rfl

end Join

namespace LogicalPlan

variable {δ : Type} {ev : Evaluation} {ops : Operators δ} {condition : Option BoundExpr} {row : Row}

theorem holds_of_nullOn (hlisted : ∀ expr ∈ condition, expr.listed = true)
    {rejected : List TableKey} (hrejected : rejected ∈ impliedBy condition) {table : TableKey}
    (htable : table ∈ rejected) (hnull : row.NullOn table) : holds ev condition row = false := by
  obtain ⟨expr, hexpr, hmem⟩ := mem_flatMap.mp hrejected
  obtain ⟨part, hpart, rfl⟩ := mem_map.mp hmem
  obtain rfl := Option.mem_toList.mp hexpr
  have hdrop := ev.keeps_of_nullOn hnull part
    (Evaluation.listed_of_conjunctsOf (hlisted expr rfl) hpart) htable
  have hexpr : ¬ ev.keeps expr row = true := fun hkeeps =>
    Bool.false_ne_true (hdrop.symm.trans ((ev.keeps_iff_conjunctsOf expr).mp hkeeps part hpart))
  simpa [holds] using hexpr

theorem holds_of_rejected (hlisted : ∀ expr ∈ condition, expr.listed = true)
    {tables : List TableKey} (h : row.Rejected tables (impliedBy condition)) :
    holds ev condition row = false := by
  obtain ⟨rejected, hrejected, table, htable, -, hnull⟩ := h
  exact holds_of_nullOn hlisted hrejected htable hnull

/-- Rejections at one join, given that they leave the rows of its inputs alike. -/
theorem rowsAgree_join {left right : LogicalPlan δ} {kind : JoinKind} {db : Database}
    (h : (join left right kind condition).Planned)
    (hleft : ∀ rejections, RowsAgree left.planTables rejections (left.rows ev ops db)
      ((left.rejectAll rejections).rows ev ops db))
    (hright : ∀ rejections, RowsAgree right.planTables rejections (right.rows ev ops db)
      ((right.rejectAll rejections).rows ev ops db)) (rejections : List (List TableKey)) :
    RowsAgree (left.planTables ++ right.planTables) rejections
      ((join left right kind condition).rows ev ops db)
      (((join left right kind condition).rejectAll rejections).rows ev ops db) := by
  obtain ⟨-, -, hapart, hlisted⟩ := h
  intro keep hkeep
  simp only [rejectAll, rows, (relaid_rejectAll right _).shape.layout]
  have hwithinl : ∀ rejections, ∀ row ∈ (left.rejectAll rejections).rows ev ops db,
      Row.Within left.planTables row := fun rejections row hrow =>
    hapart.left_shows.within_relaid (relaid_rejectAll left rejections) hrow
  have honly : (joinRows ev kind condition (nullRow right.layout) (left.rows ev ops db)
        (right.rows ev ops db)).filter keep =
      (joinRows ev kind condition (nullRow right.layout)
        ((left.rejectAll rejections).rows ev ops db)
        ((right.rejectAll []).rows ev ops db)).filter keep := by
    rw [rejectAll_nil]
    exact filter_joinRows_agree_left (hleft rejections) fun row hrow =>
      filter_joinOne_of_rejected hkeep hapart.disjoint
        (fun row hrow => hapart.right_shows.within hrow) hapart.right_shows.within_nullRow hrow
  have hdrop : ∀ row : Row, row.Rejected (left.planTables ++ right.planTables) rejections →
      (holds ev condition row && keep row) = false := fun row hrow => by simp [hkeep row hrow]
  cases kind with
  | inner | cross =>
    rw [sweep_both (by decide)]
    exact filter_joinRows_agree (by decide) (hleft rejections) (hright rejections) hdrop hdrop
      hapart.disjoint (hwithinl rejections) fun row hrow => hapart.right_shows.within hrow
  | scalar | semi | anti =>
    rw [sweep_onlyLeft (by decide)]
    exact honly
  | left =>
    rcases @sweep_left right.planTables (impliedBy condition) rejections with
      hsweep | ⟨hmeets, hkind, hls, hrs⟩
    · rw [hsweep]
      exact honly
    · rw [hkind, filter_joinRows_left_eq_inner right.layout hkeep hmeets hapart.disjoint
        fun row hrow => hapart.left_shows.within hrow]
      have hdrop' : ∀ given : List (List TableKey),
          (∀ rejected ∈ given, rejected ∈ impliedBy condition ∨ rejected ∈ rejections) →
          ∀ row : Row, row.Rejected (left.planTables ++ right.planTables) given →
          (holds ev condition row && keep row) = false := by
        rintro given hgiven row ⟨rejected, hrejected, table, htable, hmem, hnull⟩
        rcases hgiven rejected hrejected with himplied | hgiven
        · simp [holds_of_nullOn hlisted himplied htable hnull]
        · exact hdrop row ⟨rejected, hgiven, table, htable, hmem, hnull⟩
      exact filter_joinRows_agree (.inl rfl) (hleft _) (hright _) (hdrop' _ hls) (hdrop' _ hrs)
        hapart.disjoint (hwithinl _) fun row hrow => hapart.right_shows.within hrow

theorem rows_crossJoin_cons (input : LogicalPlan δ) (inputs : List (LogicalPlan δ))
    (db : Database) :
    (crossJoin (input :: inputs)).rows ev ops db =
      (join input (.crossJoin inputs) .cross none).rows ev ops db := by
  apply flatMap_congr
  intro left _
  simp [joinOne, holds]

theorem Planned.join_of_crossJoin {input : LogicalPlan δ} {inputs : List (LogicalPlan δ)}
    (h : (crossJoin (input :: inputs)).Planned) :
    (join input (.crossJoin inputs) .cross none).Planned := by
  exact ⟨h.1, h.2.1, h.2.2, nofun⟩

theorem rowsAgree_rejectAll (plan : LogicalPlan δ) (db : Database) (h : plan.Planned)
    (rejections : List (List TableKey)) :
    RowsAgree plan.planTables rejections (plan.rows ev ops db)
      ((plan.rejectAll rejections).rows ev ops db) := by
  induction plan using of_joins generalizing rejections with
  | nil =>
    exact .refl
  | cons input inputs hinput hinputs =>
    have hjoin := h.join_of_crossJoin
    have hagree := rowsAgree_join hjoin (hinput h.1) (hinputs h.2.1) rejections
    simp only [rejectAll, sweep_both (.inr rfl)] at hagree
    simpa only [rejectAll, rejectInputs, rows_crossJoin_cons, planTables, planTablesAll] using hagree
  | join left right kind condition hleft hright =>
    have h' := h
    exact rowsAgree_join h (hleft h'.1) (hright h'.2.1) rejections
  | filter input predicate hinput =>
    intro keep hkeep
    simp only [rejectAll, rows, filter_filter]
    apply hinput h.1 rejections _
    intro row hrow
    rw [hkeep row (by simpa using hrow), Bool.false_and]
  | other plan hplan _ =>
    rw [rejectAll_of_joins hplan]
    exact .refl

end LogicalPlan

end Pintail.Exec
