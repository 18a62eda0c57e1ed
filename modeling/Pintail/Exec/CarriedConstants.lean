import Pintail.Exec.JoinConstants

/-! # What the derived comparisons drop

A comparison derived at a join goes to a scan of one input, at times below an outer join. The input
keeps the rows on which the comparison holds, and its other rows are `NULL` in the column compared,
so that the join's condition drops them.
-/

namespace Pintail.Exec

open Bool List

namespace Derivation

variable {catalog : ColumnKey → ColumnInfo} {d : Derivation} {ev : Evaluation}

theorem keeps_predicate_of_null (houter : d.target.outer = false) {row : Row}
    (h : row.get (.column d.target.key) = .null) : ev.keeps (d.predicate catalog) row = false := by
  apply ev.keeps_of_eval_null
  simp [predicate, equalsLiteral, Evaluation.evaluateBinary, evaluateComparison, houter, h]

/-- The comparison holds, or the column compared has no value. -/
def Meets (catalog : ColumnKey → ColumnInfo) (ev : Evaluation) (d : Derivation) (row : Row) :
    Prop :=
  ev.keeps (d.predicate catalog) row = true ∨ row.get (.column d.target.key) = .null

variable {tables : List TableKey} {left right : Row}

theorem keeps_append_left (hright : right.Within tables) (htable : d.target.key.table ∉ tables) :
    ev.keeps (d.predicate catalog) (left ++ right) = ev.keeps (d.predicate catalog) left :=
  Exec.keeps_append_left rfl fun _ => hright.not_read rfl htable

theorem keeps_append_right (hleft : left.Within tables) (htable : d.target.key.table ∉ tables) :
    ev.keeps (d.predicate catalog) (left ++ right) = ev.keeps (d.predicate catalog) right :=
  Exec.keeps_append_right rfl fun _ => hleft.not_read rfl htable

theorem Meets.append_left (h : d.Meets catalog ev left) (hright : right.Within tables)
    (htable : d.target.key.table ∉ tables) : d.Meets catalog ev (left ++ right) := by
  unfold Meets
  rw [keeps_append_left hright htable,
    Row.get_append_left fun _ hmem => htable (hright (.column d.target.key, _) hmem)]
  exact h

theorem Meets.append_right (h : d.Meets catalog ev right) (hleft : left.Within tables)
    (htable : d.target.key.table ∉ tables) : d.Meets catalog ev (left ++ right) := by
  unfold Meets
  rw [keeps_append_right hleft htable,
    Row.get_append_right fun _ hmem => htable (hleft (.column d.target.key, _) hmem)]
  exact h

end Derivation

namespace LogicalPlan

variable {δ : Type} {table : TableKey} {predicate : BoundExpr}

theorem addScanPredicate_of_countScans (plan : LogicalPlan δ) (h : plan.countScans table = 0) :
    plan.addScanPredicate table predicate = plan := by
  induction plan using of_joins with
  | nil => simp
  | cons input inputs hinput hinputs =>
    simp only [countScans, countScansAll, addScanPredicate, addScanPredicateAll,
      Nat.add_eq_zero_iff, crossJoin.injEq] at *
    rw [hinput h.1, hinputs h.2]
  | join left right kind condition hleft hright =>
    rw [countScans, Nat.add_eq_zero_iff] at h
    rw [addScanPredicate, hleft h.1, hright h.2, ite_self]
  | filter input predicate hinput =>
    simp [hinput h]
  | other plan hplan _ =>
    cases plan with
    | join _ _ _ _ | crossJoin _ | filter _ _ => cases hplan
    | scan source => simp_all
    | _ => simp

theorem addPredicate_eq (source : Scan) (predicate : BoundExpr) :
    ∃ predicates, Scan.addPredicate source predicate = { source with predicates } ∧
      predicate ∈ predicates := by
  unfold Scan.addPredicate
  split_ifs with h
  · exact ⟨_, rfl, h⟩
  · exact ⟨_, rfl, mem_append_right _ (mem_singleton_self _)⟩

/-- One plan is the other with the predicate added to a scan of the relation. -/
inductive Narrows (table : TableKey) (predicate : BoundExpr) :
    LogicalPlan δ → LogicalPlan δ → Prop
  | scan {source : Scan} (h : source.table = table) :
      Narrows table predicate (.scan source) (.scan (Scan.addPredicate source predicate))
  | filter {input input' : LogicalPlan δ} {condition : BoundExpr}
      (h : Narrows table predicate input input') :
      Narrows table predicate (.filter input condition) (.filter input' condition)
  | joinLeft {left left' right : LogicalPlan δ} {kind : JoinKind} {condition : Option BoundExpr}
      (h : Narrows table predicate left left') :
      Narrows table predicate (.join left right kind condition) (.join left' right kind condition)
  | joinRight {left right right' : LogicalPlan δ} {kind : JoinKind} {condition : Option BoundExpr}
      (hkind : kind = .inner ∨ kind = .cross ∨ kind = .left)
      (h : Narrows table predicate right right') :
      Narrows table predicate (.join left right kind condition) (.join left right' kind condition)
  | cross {input input' : LogicalPlan δ} {inputs inputs' : List (LogicalPlan δ)}
      (h : Narrows table predicate (.join input (.crossJoin inputs) .cross none)
        (.join input' (.crossJoin inputs') .cross none)) :
      Narrows table predicate (.crossJoin (input :: inputs)) (.crossJoin (input' :: inputs'))

/-- A single scan of the relation takes the predicate, unless no derived predicate reaches it. -/
theorem addScanPredicate_cases (plan : LogicalPlan δ) (h : plan.countScans table ≤ 1) :
    plan.addScanPredicate table predicate = plan ∨
      Narrows table predicate plan (plan.addScanPredicate table predicate) := by
  induction plan using of_joins with
  | nil => exact .inl (by simp)
  | cons input inputs hinput hinputs =>
    have hnone := @addScanPredicate_of_countScans δ table predicate (.crossJoin inputs)
    simp only [countScans, countScansAll, addScanPredicate, addScanPredicateAll,
      crossJoin.injEq] at *
    rcases Nat.eq_zero_or_pos (countScansAll table inputs) with hzero | hpos
    · rw [hnone hzero]
      exact (hinput (by omega)).imp (fun heq => by rw [heq]) fun h => .cross (.joinLeft h)
    · rw [addScanPredicate_of_countScans input (by omega)]
      exact (hinputs (by omega)).imp (fun heq => by rw [heq]) fun h =>
        .cross (.joinRight (.inr (.inl rfl)) h)
  | join left right kind condition hleft hright =>
    rw [countScans] at h
    rw [addScanPredicate]
    rcases Nat.eq_zero_or_pos (right.countScans table) with hzero | hpos
    · rw [addScanPredicate_of_countScans right hzero, ite_self]
      exact (hleft (by omega)).imp (fun heq => by rw [heq]) .joinLeft
    · rw [addScanPredicate_of_countScans left (by omega)]
      split_ifs with hkind
      · exact (hright (by omega)).imp (fun heq => by rw [heq])
          (.joinRight (hkind.imp_right .inr))
      · exact .inl rfl
  | filter input predicate hinput =>
    exact (hinput h).imp (fun heq => by rw [addScanPredicate, heq]) .filter
  | other plan hplan _ =>
    cases plan with
    | join _ _ _ _ | crossJoin _ | filter _ _ => cases hplan
    | scan source =>
      rw [addScanPredicate]
      split_ifs with htable
      · exact .inr (.scan htable)
      · exact .inl rfl
    | _ => exact .inl (by simp)

namespace Narrows

variable {plan plan' : LogicalPlan δ}

theorem relaid (h : Narrows table predicate plan plan') : Relaid plan plan' := by
  induction h with
  | @scan source _ =>
    obtain ⟨predicates, heq, -⟩ := addPredicate_eq source predicate
    rw [heq]
    exact ⟨⟨rfl, rfl⟩, by simp⟩
  | filter _ ih => exact ih.filter
  | joinLeft _ ih => exact ih.join .refl
  | joinRight _ _ ih => exact .join .refl ih
  | cross _ ih =>
    obtain ⟨⟨hlayout, htables⟩, hplanned⟩ := ih
    refine ⟨⟨by simpa using hlayout, by simpa using htables⟩, fun h => ?_⟩
    obtain ⟨hinput, hinputs, hapart, -⟩ := hplanned h.join_of_crossJoin
    exact ⟨hinput, hinputs, hapart⟩

theorem mem_planTables (h : Narrows table predicate plan plan') : table ∈ plan.planTables := by
  induction h with
  | scan h => simp [h]
  | filter _ ih => simpa using ih
  | joinLeft _ ih | joinRight _ _ ih => simp [ih]
  | cross _ ih => simpa using ih

theorem mem_planTables_of_narrowed (h : Narrows table predicate plan plan') :
    table ∈ plan'.planTables :=
  h.relaid.shape.planTables ▸ h.mem_planTables

end Narrows

section Rows

variable {catalog : ColumnKey → ColumnInfo} {d : Derivation} {ev : Evaluation}
  {ops : Operators δ} {db : Database} {plan : LogicalPlan δ} {row : Row}

theorem rows_scan_meets {source : Scan} (h : (scan source : LogicalPlan δ).Planned)
    (hmem : predicate ∈ source.predicates)
    (hrow : row ∈ (scan source : LogicalPlan δ).rows ev ops db) :
    ev.keeps predicate row = true := by
  simp only [rows, Scan.rows, Scan.cut, h.1, h.2] at hrow
  obtain ⟨stored, hstored, rfl⟩ := mem_map.mp hrow
  exact all_eq_true.mp (mem_filter.mp hstored).2 predicate hmem

/-- A property of the rows of the left input that adding columns of the right keeps. -/
theorem forall_mem_join {left right : LogicalPlan δ} {kind : JoinKind}
    {condition : Option BoundExpr} (hapart : left.Apart right) {P : Row → Prop}
    (h : ∀ l ∈ left.rows ev ops db, P l ∧ ∀ other, other.Within right.planTables → P (l ++ other)) :
    ∀ row ∈ (join left right kind condition).rows ev ops db, P row := by
  intro row hrow
  obtain ⟨l, hl, hrow⟩ := mem_flatMap.mp hrow
  rcases exists_of_mem_joinOne hrow with ⟨-, rfl⟩ | ⟨-, other, hother, rfl⟩
  · exact (h row hl).1
  · exact (h l hl).2 other (hapart.right_shows.within_joined hother)

theorem Narrows.meets {plan plan' : LogicalPlan δ}
    (h : Narrows d.target.key.table (d.predicate catalog) plan plan') (hplanned : plan.Planned) :
    ∀ row ∈ plan'.rows ev ops db, d.Meets catalog ev row := by
  have hplanned' := h.relaid.planned hplanned
  induction h with
  | @scan source _ =>
    obtain ⟨predicates, heq, hmem⟩ := addPredicate_eq source (d.predicate catalog)
    rw [heq] at hplanned' ⊢
    exact fun row hrow => .inl (rows_scan_meets hplanned' hmem hrow)
  | filter _ ih =>
    intro row hrow
    exact ih hplanned.1 hplanned'.1 row (mem_of_mem_filter hrow)
  | joinLeft h ih =>
    have hnot := fun hmem => hplanned.2.2.1.disjoint h.mem_planTables hmem
    exact forall_mem_join hplanned'.2.2.1 fun l hl => ⟨ih hplanned.1 hplanned'.1 l hl,
      fun _ hother => (ih hplanned.1 hplanned'.1 l hl).append_left hother hnot⟩
  | joinRight hkind h ih =>
    intro row hrow
    obtain ⟨l, hl, hrow⟩ := mem_flatMap.mp hrow
    rcases exists_of_mem_joinOne hrow with ⟨hsemi, -⟩ | ⟨-, other, hother, rfl⟩
    · rcases hkind with rfl | rfl | rfl <;> simp at hsemi
    · refine Derivation.Meets.append_right ?_ (hplanned.2.2.1.left_shows.within hl)
        fun hmem => hplanned.2.2.1.disjoint hmem h.mem_planTables
      rcases hother with hother | rfl
      · exact ih hplanned.2.1 hplanned'.2.1 other hother
      · exact .inr ((nullOn_nullRow _ _).get rfl)
  | cross _ ih =>
    intro row hrow
    rw [rows_crossJoin_cons] at hrow
    exact ih hplanned.join_of_crossJoin hplanned'.join_of_crossJoin row hrow

end Rows

end LogicalPlan

end Pintail.Exec
