import Pintail.Exec.CarriedConstants

/-! # The rows of a join with carried constants

A join to whose inputs comparisons are added keeps its rows when every pair of rows it matches meets
them.
-/

namespace Pintail.Exec.LogicalPlan

open List LogicalPlan Evaluation Bool

variable {δ : Type} {catalog : ColumnKey → ColumnInfo} {ev : Evaluation} {ops : Operators δ}
  {db : Database}

section Agree

variable {d : Derivation} {left right : LogicalPlan δ} {kind : JoinKind}
  {condition : Option BoundExpr}

theorem filter_join_right (houter : d.target.outer = false) (hapart : left.Apart right)
    (htable : d.target.key.table ∈ right.planTables)
    (hkind : kind = .inner ∨ kind = .cross ∨ kind = .left) :
    ((join left right kind condition).rows ev ops db).filter (ev.keeps (d.predicate catalog)) =
      joinRows ev .inner condition [] (left.rows ev ops db)
        ((right.rows ev ops db).filter (ev.keeps (d.predicate catalog))) := by
  have hnot := fun hmem => hapart.disjoint hmem htable
  have hkeeps : ∀ l ∈ left.rows ev ops db, ∀ r : Row,
      ev.keeps (d.predicate catalog) (l ++ r) = ev.keeps (d.predicate catalog) r :=
    fun l hl r => Derivation.keeps_append_right (hapart.left_shows.within hl) hnot
  simp only [rows]
  rcases hkind with rfl | rfl | rfl
  · rw [← joinRows_filter_right (.inl rfl) fun l hl r _ => hkeeps l hl r]
    rfl
  · rw [← joinRows_filter_right (.inr rfl) fun l hl r _ => hkeeps l hl r]
    rfl
  · simp only [joinRows, filter_flatMap]
    apply flatMap_congr
    intro l hl
    have habsent : ev.keeps (d.predicate catalog) (l ++ nullRow right.layout) = false := by
      rw [hkeeps l hl]
      exact Derivation.keeps_predicate_of_null houter ((nullOn_nullRow _ _).get rfl)
    have hswap : ((right.rows ev ops db).filter (ev.keeps (d.predicate catalog))).filter
        (fun r => holds ev condition (l ++ r)) =
        ((right.rows ev ops db).filter fun r => holds ev condition (l ++ r)).filter
          fun r => ev.keeps (d.predicate catalog) (l ++ r) := by
      rw [filter_comm]
      exact filter_congr fun r _ => (hkeeps l hl r).symm
    simp only [joinOne, hswap]
    split
    · rename_i hempty
      simp [isEmpty_iff.mp hempty, habsent]
    · rw [filter_map]
      rfl

theorem Narrows.agree (houter : d.target.outer = false) {plan plan' : LogicalPlan δ}
    (h : Narrows d.target.key.table (d.predicate catalog) plan plan') (hplanned : plan.Planned) :
    (plan'.rows ev ops db).filter (ev.keeps (d.predicate catalog)) =
      (plan.rows ev ops db).filter (ev.keeps (d.predicate catalog)) := by
  induction h with
  | @scan source _ =>
    unfold Scan.addPredicate
    split
    · rfl
    · rw [(filteredTo_scan hplanned).rows]
      simp
  | filter _ ih =>
    simp only [rows]
    rw [filter_comm, ih hplanned.1, filter_comm]
  | joinLeft h ih =>
    have hapart := hplanned.2.2.1
    have hnot := fun hmem => hapart.disjoint h.mem_planTables hmem
    rw [← filter_joinRows_left rfl rfl hapart hnot, ← ih hplanned.1, ← filter_joinRows_left rfl rfl
      (hapart.of_sameShape h.relaid.shape ⟨rfl, rfl⟩) hnot]
  | joinRight hkind h ih =>
    rw [filter_join_right houter hplanned.2.2.1 h.mem_planTables hkind, ← ih hplanned.2.1,
      ← filter_join_right houter (hplanned.2.2.1.of_sameShape ⟨rfl, rfl⟩ h.relaid.shape)
        h.mem_planTables_of_narrowed hkind]
  | cross _ ih =>
    rw [rows_crossJoin_cons, rows_crossJoin_cons]
    exact ih hplanned.join_of_crossJoin

end Agree

section Derivations

theorem deriveInto_cases (plan : LogicalPlan δ) (d : Derivation) :
    plan.deriveInto catalog d = plan ∨ d.compatible catalog = true ∧
      Narrows d.target.key.table (d.predicate catalog) plan (plan.deriveInto catalog d) := by
  unfold deriveInto
  split_ifs with hcompatible hcount
  · exact .inl rfl
  · exact (addScanPredicate_cases plan (not_ne_iff.mp hcount).le).imp_right (⟨hcompatible, ·⟩)
  · exact .inl rfl

/-- What one derived comparison after the other keeps. -/
theorem foldl_deriveInto {I : LogicalPlan δ → Prop} {ds : List Derivation} {plan : LogicalPlan δ}
    (step : ∀ d ∈ ds, d.compatible catalog = true → ∀ plan plan',
      Narrows d.target.key.table (d.predicate catalog) plan plan' → I plan → I plan')
    (h : I plan) : I (ds.foldl (deriveInto catalog) plan) := by
  apply ds.foldlRecOn (deriveInto catalog) h
  intro plan hplan d hd
  rcases @deriveInto_cases δ catalog plan d with heq | ⟨hcompatible, hnarrows⟩
  · rwa [heq]
  · exact step d hd hcompatible plan _ hnarrows hplan

end Derivations

section Join

variable {left right : LogicalPlan δ} {kind : JoinKind} {predicate : BoundExpr}

/-- An outer column in an equality of a join's condition is of a relation the join does not show. -/
def OuterApart : LogicalPlan δ → Prop
  | .join left right _ (some predicate) => ∀ pair ∈ joinEqualities predicate,
      (pair.1.outer = true → pair.1.key.table ∉ left.planTables ++ right.planTables) ∧
      (pair.2.outer = true → pair.2.key.table ∉ left.planTables ++ right.planTables)
  | _ => True

variable {d : Derivation} {row : Row}

/-- An equality of the condition ties the two columns. -/
def Ties (predicate : BoundExpr) (source target : BoundColumn) : Prop :=
  (source, target) ∈ joinEqualities predicate ∨ (target, source) ∈ joinEqualities predicate

theorem mem_of_constantOf {constants : List (ColumnKey × Value)} {key : ColumnKey} {value : Value}
    (h : constantOf constants key = some value) : (key, value) ∈ constants := by
  obtain ⟨before, after, heq, -⟩ := lookup_eq_some_iff.mp h
  exact mem_reverse.mp (by simp [heq])

theorem mem_derivations (h : d ∈ derivations left right kind predicate) :
    Ties predicate d.source d.target ∧
      ((kind = .inner ∨ kind = .left) ∧ d.intoLeft = false ∧
          (d.source.key, d.value) ∈ left.collectConstants ∨
        kind = .inner ∧ (d.source.key, d.value) ∈ right.collectConstants) := by
  obtain ⟨⟨first, second⟩, hpair, hd⟩ := mem_flatMap.mp h
  have hone : ∀ {intoLeft : Bool} {constants : List (ColumnKey × Value)}
      {target source : BoundColumn}, Ties predicate source target →
      d ∈ ((constantOf constants source.key).map fun value =>
        (⟨intoLeft, target, source, value⟩ : Derivation)).toList →
      Ties predicate d.source d.target ∧ d.intoLeft = intoLeft ∧
        (d.source.key, d.value) ∈ constants := by
    intro intoLeft constants target source hties hmem
    obtain ⟨value, hvalue, rfl⟩ := Option.map_eq_some_iff.mp (Option.mem_toList.mp hmem)
    exact ⟨hties, rfl, mem_of_constantOf hvalue⟩
  simp only [derivationsOf, mem_append] at hd
  rcases hd with hd | hd
  · split at hd
    · have hkind : kind = .inner ∨ kind = .left := by cases kind <;> simp_all [propagatesInto]
      obtain ⟨hties, hmem⟩ := (mem_append.mp hd).elim (hone (.inl hpair)) (hone (.inr hpair))
      exact ⟨hties, .inl ⟨hkind, hmem⟩⟩
    · cases hd
  · split at hd
    · have hkind : kind = .inner := by cases kind <;> simp_all [propagatesInto]
      obtain ⟨hties, -, hmem⟩ := (mem_append.mp hd).elim (hone (.inl hpair)) (hone (.inr hpair))
      exact ⟨hties, .inr ⟨hkind, hmem⟩⟩
    · cases hd

theorem get_ne_null_of_keeps (h : ev.keeps predicate row = true) {pair : BoundColumn × BoundColumn}
    (hpair : pair ∈ joinEqualities predicate) :
    (pair.1.outer = false → row.get (.column pair.1.key) ≠ .null) ∧
      (pair.2.outer = false → row.get (.column pair.2.key) ≠ .null) := by
  obtain ⟨conjunct, hconjunct, heq⟩ := mem_filterMap.mp hpair
  have hkeeps := (ev.keeps_iff_conjunctsOf predicate).mp h conjunct hconjunct
  split at heq
  · cases heq
    constructor
    all_goals
      intro houter hnull
      dsimp only at houter hnull
      refine false_ne_true ((ev.keeps_of_eval_null ?_).symm.trans hkeeps)
      simp [evaluateBinary, evaluateComparison, houter, hnull]
  · cases heq

variable (catalog ev ops left right predicate) in
/-- Where the condition holds, the column compared has a value and the comparison holds. -/
structure Carries (d : Derivation) : Prop where
  outer : d.target.outer = false
  value : ∀ row, ev.keeps predicate row = true → row.get (.column d.target.key) ≠ .null
  meets : ∀ db, ∀ row ∈ (join left right .inner (some predicate)).rows ev ops db,
    ev.keeps (d.predicate catalog) row = true

theorem carries_of_derivations (houter : (join left right kind (some predicate)).OuterApart)
    (hd : d ∈ derivations left right kind predicate)
    (htable : d.target.key.table ∈ left.planTables ++ right.planTables)
    (hmeets : ∀ db, ∀ row ∈ (join left right .inner (some predicate)).rows ev ops db,
      ev.keeps (d.predicate catalog) row = true) :
    Carries catalog ev ops left right predicate d := by
  have hout : d.target.outer = false := by
    rw [← not_eq_true]
    intro hout
    rcases (mem_derivations hd).1 with hpair | hpair
    · exact (houter _ hpair).2 hout htable
    · exact (houter _ hpair).1 hout htable
  refine ⟨hout, fun row hrow => ?_, hmeets⟩
  rcases (mem_derivations hd).1 with hpair | hpair
  · exact (get_ne_null_of_keeps hrow hpair).2 hout
  · exact (get_ne_null_of_keeps hrow hpair).1 hout

variable (hplanned : (join left right kind (some predicate)).Planned)
  (hd : Carries catalog ev ops left right predicate d)

include hplanned hd

theorem rows_narrowLeft {left' : LogicalPlan δ}
    (h : Narrows d.target.key.table (d.predicate catalog) left left') :
    (join left' right .inner (some predicate)).rows ev ops db =
      (join left right .inner (some predicate)).rows ev ops db := by
  have hjoin : Narrows d.target.key.table (d.predicate catalog)
      (join left right .inner (some predicate)) (join left' right .inner (some predicate)) :=
    .joinLeft h
  have hagree := @Narrows.agree δ catalog ev ops db d hd.outer _ _ hjoin hplanned
  rw [filter_eq_self.mpr (hd.meets db), filter_eq_self.mpr] at hagree
  · exact hagree
  · intro row hrow
    -- a pair of rows that meets the condition has a value to compare
    have hmeets := hjoin.meets hplanned row hrow
    obtain ⟨l, -, hrow⟩ := mem_flatMap.mp hrow
    obtain ⟨r, hr, rfl⟩ := mem_map.mp hrow
    exact hmeets.resolve_right (hd.value _ (by simpa [holds] using (mem_filter.mp hr).2))

theorem rows_narrowRight {right' : LogicalPlan δ}
    (h : Narrows d.target.key.table (d.predicate catalog) right right') (kind' : JoinKind) :
    (join left right' kind' (some predicate)).rows ev ops db =
      (join left right kind' (some predicate)).rows ev ops db := by
  obtain ⟨-, hright, hapart, -⟩ := hplanned
  simp only [rows, h.relaid.shape.layout]
  apply flatMap_congr
  intro l hl
  have hwithin := hapart.left_shows.within hl
  have hnot := fun hmem => hapart.disjoint hmem h.mem_planTables
  have hkeeps (r : Row) : ev.keeps (d.predicate catalog) (l ++ r) =
      ev.keeps (d.predicate catalog) r := Derivation.keeps_append_right hwithin hnot
  have hmatched : (right'.rows ev ops db).filter (fun r => holds ev (some predicate) (l ++ r)) =
      (right.rows ev ops db).filter fun r => holds ev (some predicate) (l ++ r) := by
    have hnew : ∀ r ∈ (right'.rows ev ops db).filter fun r => holds ev (some predicate) (l ++ r),
        ev.keeps (d.predicate catalog) r = true := by
      intro r hr
      obtain ⟨hr, hholds⟩ := mem_filter.mp hr
      rw [← hkeeps]
      exact ((h.meets hright r hr).append_right hwithin hnot).resolve_right
        (hd.value _ (by simpa [holds] using hholds))
    have hold : ∀ r ∈ (right.rows ev ops db).filter fun r => holds ev (some predicate) (l ++ r),
        ev.keeps (d.predicate catalog) r = true := by
      intro r hr
      rw [← hkeeps]
      exact hd.meets db _ (mem_flatMap.mpr ⟨l, hl, mem_map_of_mem hr⟩)
    rw [← filter_eq_self.mpr hnew, filter_comm, h.agree hd.outer hright, filter_comm,
      filter_eq_self.mpr hold]
  simp only [joinOne, hmatched]

omit hplanned hd

variable {ds : List Derivation} (hplanned : (join left right kind (some predicate)).Planned)
  (hds : ∀ d ∈ ds, d.compatible catalog = true →
    d.target.key.table ∈ left.planTables ++ right.planTables →
      Carries catalog ev ops left right predicate d)

include hplanned hds

theorem rows_foldlLeft : Relaid left (ds.foldl (deriveInto catalog) left) ∧ ∀ db,
    (join (ds.foldl (deriveInto catalog) left) right .inner (some predicate)).rows ev ops db =
      (join left right .inner (some predicate)).rows ev ops db := by
  refine foldl_deriveInto (I := fun left' => Relaid left left' ∧ ∀ db,
    (join left' right .inner (some predicate)).rows ev ops db =
      (join left right .inner (some predicate)).rows ev ops db) ?_ ⟨.refl, fun _ => rfl⟩
  rintro d hd hcompatible plan plan' hnarrows ⟨hrelaid, hrows⟩
  obtain ⟨hout, hvalue, hmeets⟩ := hds d hd hcompatible
    (mem_append_left _ (hrelaid.shape.planTables ▸ hnarrows.mem_planTables))
  refine ⟨hrelaid.trans hnarrows.relaid, fun db => .trans ?_ (hrows db)⟩
  exact rows_narrowLeft ((hrelaid.join .refl).planned hplanned)
    ⟨hout, hvalue, fun db => hrows db ▸ hmeets db⟩ hnarrows

theorem rows_foldlRight : Relaid right (ds.foldl (deriveInto catalog) right) ∧ ∀ kind' db,
    (join left (ds.foldl (deriveInto catalog) right) kind' (some predicate)).rows ev ops db =
      (join left right kind' (some predicate)).rows ev ops db := by
  refine foldl_deriveInto (I := fun right' => Relaid right right' ∧ ∀ kind' db,
    (join left right' kind' (some predicate)).rows ev ops db =
      (join left right kind' (some predicate)).rows ev ops db) ?_ ⟨.refl, fun _ _ => rfl⟩
  rintro d hd hcompatible plan plan' hnarrows ⟨hrelaid, hrows⟩
  obtain ⟨hout, hvalue, hmeets⟩ := hds d hd hcompatible
    (mem_append_right _ (hrelaid.shape.planTables ▸ hnarrows.mem_planTables))
  refine ⟨hrelaid.trans hnarrows.relaid, fun kind' db => .trans ?_ (hrows kind' db)⟩
  exact rows_narrowRight ((Relaid.refl.join hrelaid).planned hplanned)
    ⟨hout, hvalue, fun db => hrows .inner db ▸ hmeets db⟩ hnarrows kind'

omit hplanned hds

/-- Where every match meets the comparisons, the join keeps its rows. -/
theorem preserved_deriveJoin (hplanned : (join left right kind (some predicate)).Planned)
    (houter : (join left right kind (some predicate)).OuterApart)
    (h : ∀ d ∈ derivations left right kind predicate, d.compatible catalog = true → ∀ db,
      ∀ row ∈ (join left right .inner (some predicate)).rows ev ops db,
        ev.keeps (d.predicate catalog) row = true) :
    Preserved ev ops (.join left right kind (some predicate))
      (deriveJoin catalog left right kind (some predicate)) := by
  have hcarries : ∀ {p : Derivation → Bool}, ∀ d ∈ (derivations left right kind predicate).filter p,
      d.compatible catalog = true → d.target.key.table ∈ left.planTables ++ right.planTables →
        Carries catalog ev ops left right predicate d := fun d hd hcompatible htable =>
    carries_of_derivations houter (mem_of_mem_filter hd) htable
      (h d (mem_of_mem_filter hd) hcompatible)
  obtain ⟨hright, hrows⟩ := rows_foldlRight hplanned (@hcarries (!·.intoLeft))
  set right' := ((derivations left right kind predicate).filter (!·.intoLeft)).foldl
    (deriveInto catalog) right with hmade
  have hcarries' : ∀ d ∈ (derivations left right kind predicate).filter (·.intoLeft),
      d.compatible catalog = true → d.target.key.table ∈ left.planTables ++ right'.planTables →
        Carries catalog ev ops left right' predicate d := by
    intro d hd hcompatible htable
    rw [hright.shape.planTables] at htable
    obtain ⟨hout, hvalue, hmeets⟩ := hcarries d hd hcompatible htable
    exact ⟨hout, hvalue, fun db => hrows .inner db ▸ hmeets db⟩
  obtain ⟨hleft, hrows'⟩ := rows_foldlLeft ((Relaid.refl.join hright).planned hplanned) hcarries'
  have hrelaid : Relaid (.join left right kind (some predicate))
      (deriveJoin catalog left right kind (some predicate)) := hleft.join hright
  refine ⟨hrelaid.shape, hrelaid.planned hplanned, fun db => ?_⟩
  by_cases hkind : kind = .inner
  · subst hkind
    exact (hrows' db).trans (hrows .inner db)
  · have hnone : (derivations left right kind predicate).filter (·.intoLeft) = [] := by
      rw [filter_eq_nil_iff]
      intro d hd
      obtain ⟨-, h, -⟩ := (mem_derivations hd).2.resolve_right fun h => hkind h.1
      simp [h]
    rw [deriveJoin, hnone, ← hmade]
    exact hrows kind db

end Join

end Pintail.Exec.LogicalPlan
