import Pintail.Exec.RejectedRows

/-! # The rows of a plan with its predicates pushed down

A predicate on one relation drops in that relation's scan exactly what it drops above the joins.
With the rejections, a plan as the planner lays it out has the rows of its pushed-down form.
-/

namespace Pintail.Exec

open List Evaluation LogicalPlan BoundExpr

section Inherited

-- a property of conditions that a conjunction or disjunction has exactly when its operands do
variable {P : BoundExpr → Prop} (hP : ∀ type op left right, op = .and ∨ op = .or →
  (P (.binary type op left right) ↔ P left ∧ P right)) {expr part : BoundExpr}

include hP

theorem of_reduce {op : BinaryOp} (hop : op = .and ∨ op = .or) {parts : List BoundExpr}
    (hparts : ∀ part ∈ parts, P part) (h : reduce (joinExpr op) parts = some expr) : P expr := by
  cases parts with
  | nil => simp [reduce] at h
  | cons first rest =>
    obtain rfl := Option.some.inj h
    clear h
    induction rest generalizing first with
    | nil => exact hparts first mem_cons_self
    | cons second rest ih =>
      simp only [forall_mem_cons] at hparts
      have hjoin : P (joinExpr op first second) :=
        (hP _ _ _ _ hop).mpr ⟨hparts.1, hparts.2.1⟩
      exact ih _ (forall_mem_cons.mpr ⟨hjoin, hparts.2.2⟩)

theorem of_andParts (h : P expr) (hpart : part ∈ expr.andParts) : P part := by
  fun_induction andParts expr with
  | case1 type left right ihleft ihright =>
    have hboth := (hP _ _ _ _ (.inl rfl)).mp h
    exact (mem_append.mp hpart).elim (ihleft hboth.1) (ihright hboth.2)
  | case2 expr => exact mem_singleton.mp hpart ▸ h

theorem of_orBranches (h : P expr) (hpart : part ∈ expr.orBranches) : P part := by
  fun_induction orBranches expr with
  | case1 type left right ihleft ihright =>
    have hboth := (hP _ _ _ _ (.inr rfl)).mp h
    exact (mem_append.mp hpart).elim (ihleft hboth.1) (ihright hboth.2)
  | case2 expr => exact mem_singleton.mp hpart ▸ h

omit hP in
theorem mem_of_sharedConditions {branches : List (List BoundExpr)} {condition : BoundExpr}
    (h : condition ∈ sharedConditions branches) : ∃ branch ∈ branches, condition ∈ branch := by
  have hmem := mem_of_mem_filter (mem_of_sharedOnce h)
  cases branches with
  | nil => simp at hmem
  | cons first others => exact ⟨first, mem_cons_self, hmem⟩

theorem of_factorDisjunction (h : P expr) (hpart : part ∈ factorDisjunction expr) : P part := by
  unfold factorDisjunction at hpart
  extract_lets branches shared rests at hpart
  have hbranches : ∀ branch ∈ branches, ∀ part ∈ branch, P part := by
    intro branch hbranch part hpart
    obtain ⟨whole, hwhole, rfl⟩ := mem_map.mp hbranch
    exact of_andParts hP (of_orBranches hP h hwhole) hpart
  have hshared : ∀ condition ∈ shared, P condition := by
    intro condition hcondition
    obtain ⟨branch, hbranch, hmem⟩ := mem_of_sharedConditions hcondition
    exact hbranches branch hbranch condition hmem
  have hrests : ∀ whole ∈ rests.filterMap (reduce andExpr), P whole := by
    intro whole hwhole
    obtain ⟨rest, hrest, hreduce⟩ := mem_filterMap.mp hwhole
    obtain ⟨branch, hbranch, rfl⟩ := mem_map.mp hrest
    exact of_reduce hP (.inl rfl)
      (fun part hpart => hbranches branch hbranch part (mem_of_mem_filter hpart)) hreduce
  split at hpart
  · exact mem_singleton.mp hpart ▸ h
  split at hpart
  · exact hshared part hpart
  · rcases mem_append.mp hpart with hpart | hpart
    · exact hshared part hpart
    · exact of_reduce hP (.inr rfl) hrests (Option.mem_toList.mp hpart)

theorem of_splitConjunction (h : P expr) (hpart : part ∈ expr.splitConjunction) : P part := by
  fun_induction splitConjunction expr with
  | case1 type left right ihleft ihright =>
    have hboth := (hP _ _ _ _ (.inl rfl)).mp h
    exact (mem_append.mp hpart).elim (ihleft hboth.1) (ihright hboth.2)
  | case2 type left right => exact of_factorDisjunction hP h hpart
  | case3 expr => exact mem_singleton.mp hpart ▸ h

end Inherited

theorem listed_binary (type : ExprType) (op : BinaryOp) (left right : BoundExpr)
    (hop : op = .and ∨ op = .or) : (binary type op left right).listed = true ↔
      left.listed = true ∧ right.listed = true := by
  rcases hop with rfl | rfl <;> simp

section Join

variable {ev : Evaluation} {kind : JoinKind} {condition : Option BoundExpr} {absent : Row}
  {ls rs : List Row} {keep : Row → Bool}

theorem joinRows_filter_left
    (h : ∀ left ∈ ls, ∀ row ∈ joinOne ev kind condition rs absent left, keep row = keep left) :
    joinRows ev kind condition absent (ls.filter keep) rs =
      (joinRows ev kind condition absent ls rs).filter keep := by
  simp only [joinRows, filter_flatMap]
  rw [← @flatMap_filter_of_nil _ _ keep _ _ fun left hleft hdrop =>
    filter_eq_nil_iff.mpr fun row hrow => by simp [h left hleft row hrow, hdrop]]
  apply flatMap_congr
  intro left hleft
  obtain ⟨hmem, hkeep⟩ := mem_filter.mp hleft
  exact (filter_eq_self.mpr fun row hrow => by simp [h left hmem row hrow, hkeep]).symm

theorem joinRows_filter_right (hkind : kind = .inner ∨ kind = .cross)
    (h : ∀ left ∈ ls, ∀ right ∈ rs, keep (left ++ right) = keep right) :
    joinRows ev kind condition absent ls (rs.filter keep) =
      (joinRows ev kind condition absent ls rs).filter keep := by
  simp only [joinRows, filter_flatMap]
  apply flatMap_congr
  intro left hleft
  have hrows : (rs.filter keep).filter (fun right => holds ev condition (left ++ right)) =
      rs.filter fun right => holds ev condition (left ++ right) && keep (left ++ right) := by
    rw [filter_filter]
    exact filter_congr fun right hright => by rw [h left hleft right hright]
  rw [filter_joinOne_inner hkind, ← hrows]
  rcases hkind with rfl | rfl <;> rfl

end Join

section Reads

variable {ev : Evaluation} {predicate : BoundExpr} {left right : Row}

theorem keeps_append_left (hsub : predicate.containsSubquery = false)
    (hright : ∀ label ∈ predicate.reads, ∀ value, (label, value) ∉ right) :
    ev.keeps predicate (left ++ right) = ev.keeps predicate left := by
  unfold keeps
  rw [ev.eval_congr predicate hsub fun label hlabel => Row.get_append_left (hright label hlabel)]

theorem keeps_append_right (hsub : predicate.containsSubquery = false)
    (hleft : ∀ label ∈ predicate.reads, ∀ value, (label, value) ∉ left) :
    ev.keeps predicate (left ++ right) = ev.keeps predicate right := by
  unfold keeps
  rw [ev.eval_congr predicate hsub fun label hlabel => Row.get_append_right (hleft label hlabel)]

end Reads

namespace LogicalPlan

variable {δ : Type}

theorem anyContainsTable_eq_any (table : TableKey) (inputs : List (LogicalPlan δ)) :
    anyContainsTable table inputs = inputs.any (containsTable table) := by
  induction inputs with
  | nil => rfl
  | cons input inputs ih => simp [ih]

theorem planTablesAll_eq_flatMap (inputs : List (LogicalPlan δ)) :
    planTablesAll inputs = inputs.flatMap planTables := by
  induction inputs with
  | nil => rfl
  | cons input inputs ih => simp [ih]

theorem containsTable_of_planTables {table : TableKey} : ∀ plan : LogicalPlan δ,
    table ∈ plan.planTables → plan.containsTable table = true := by
  apply of_children
  intro plan ih h
  cases plan with
  | empty | oneRow => simp at h
  | scan _ =>
    simp only [planTables, mem_singleton] at h
    simp [h]
  | derived _ columns =>
    simp only [planTables, mem_map] at h
    obtain ⟨reference, hmem, rfl⟩ := h
    simp only [containsTable, Bool.or_eq_true, any_eq_true]
    exact .inl ⟨reference, hmem, by simp⟩
  | crossJoin inputs | unionAll inputs =>
    simp only [planTables, planTablesAll_eq_flatMap, mem_flatMap] at h
    simp only [containsTable, anyContainsTable_eq_any, any_eq_true]
    obtain ⟨input, hinput, h⟩ := h
    exact ⟨input, hinput, ih input hinput h⟩
  | setOp _ _ left right | join left right _ _ | recursive _ _ _ left right =>
    simp only [planTables, mem_append] at h
    simp only [containsTable, Bool.or_eq_true]
    exact h.imp (ih left mem_cons_self) (ih right (by simp [children]))
  | _ =>
    simp only [containsTable]
    exact ih _ (mem_singleton_self _) h

variable (ev : Evaluation) (ops : Operators δ)

/-- A plan that looks the same from above and has the rows a filter keeps. -/
structure FilteredTo (keep : Row → Bool) (plan other : LogicalPlan δ) : Prop where
  shape : SameShape plan other
  planned : other.Planned
  rows : ∀ db, other.rows ev ops db = (plan.rows ev ops db).filter keep

variable {ev ops} {table : TableKey} {predicate : BoundExpr} {plan other : LogicalPlan δ}

theorem FilteredTo.relaid {keep : Row → Bool}
    (h : FilteredTo ev ops keep plan other) : Relaid plan other := ⟨h.shape, fun _ => h.planned⟩

theorem filteredTo_scan {source : Scan} (h : (scan source : LogicalPlan δ).Planned) :
    FilteredTo ev ops (ev.keeps predicate) (.scan source)
      (.scan { source with predicates := source.predicates ++ [predicate] }) := by
  refine ⟨⟨rfl, rfl⟩, h, fun db => ?_⟩
  simp only [rows, Scan.rows, Scan.cut, h.1, h.2, filter_map,
    filter_filter, all_append, all_cons, all_nil, Function.comp_def, Bool.and_comm]
  rfl

variable {plan : LogicalPlan δ}

theorem not_mem_planTables (h : plan.containsTable table = false) :
    table ∉ plan.planTables := fun hmem =>
  Bool.false_ne_true (h.symm.trans (containsTable_of_planTables plan hmem))

section Sides

variable (hsub : predicate.containsSubquery = false) (hreads : predicate.referencedTables = [table])

include hsub hreads

variable {condition : Option BoundExpr} {kind : JoinKind} {left right : LogicalPlan δ}

theorem filter_joinRows_left (hapart : left.Apart right) (htable : table ∉ right.planTables)
    (db : Database) :
    joinRows ev kind condition (nullRow right.layout)
        ((left.rows ev ops db).filter (ev.keeps predicate)) (right.rows ev ops db) =
      ((join left right kind condition).rows ev ops db).filter (ev.keeps predicate) := by
  apply joinRows_filter_left
  intro l hl row hrow
  rcases exists_of_mem_joinOne hrow with ⟨-, rfl⟩ | ⟨-, other, hother, rfl⟩
  · rfl
  · exact keeps_append_left hsub fun _ =>
      (hapart.right_shows.within_joined hother).not_read hreads htable

theorem FilteredTo.join_left {left' : LogicalPlan δ} (h : (join left right kind condition).Planned)
    (hleft : FilteredTo ev ops (ev.keeps predicate) left left')
    (htable : right.containsTable table = false) :
    FilteredTo ev ops (ev.keeps predicate) (.join left right kind condition)
      (.join left' right kind condition) := by
  have hrelaid : Relaid (.join left right kind condition) (.join left' right kind condition) :=
    hleft.relaid.join .refl
  refine ⟨hrelaid.shape, hrelaid.planned h, fun db => ?_⟩
  simp only [LogicalPlan.rows, hleft.rows]
  exact filter_joinRows_left hsub hreads h.2.2.1 (not_mem_planTables htable) db

theorem FilteredTo.join_right {right' : LogicalPlan δ}
    (h : (join left right kind condition).Planned) (hkind : kind = .inner ∨ kind = .cross)
    (hright : FilteredTo ev ops (ev.keeps predicate) right right')
    (htable : left.containsTable table = false) :
    FilteredTo ev ops (ev.keeps predicate) (.join left right kind condition)
      (.join left right' kind condition) := by
  have hrelaid : Relaid (.join left right kind condition) (.join left right' kind condition) :=
    .join .refl hright.relaid
  refine ⟨hrelaid.shape, hrelaid.planned h, fun db => ?_⟩
  simp only [LogicalPlan.rows, hright.rows, hright.shape.layout]
  exact joinRows_filter_right hkind fun l hl r _ => keeps_append_right hsub fun _ =>
    (h.2.2.1.left_shows.within hl).not_read hreads (not_mem_planTables htable)

omit hsub hreads in
theorem FilteredTo.crossJoin_cons {keep : Row → Bool} {input input' : LogicalPlan δ}
    {inputs inputs' : List (LogicalPlan δ)}
    (h : FilteredTo ev ops keep (.join input (.crossJoin inputs) .cross none)
      (.join input' (.crossJoin inputs') .cross none)) :
    FilteredTo ev ops keep (.crossJoin (input :: inputs)) (.crossJoin (input' :: inputs')) := by
  obtain ⟨⟨hlayout, htables⟩, hplanned, hrows⟩ := h
  refine ⟨⟨?_, ?_⟩, ?_, fun db => ?_⟩
  · simpa using hlayout
  · simpa using htables
  · simp only [Planned] at hplanned ⊢
    exact ⟨hplanned.1, hplanned.2.1, hplanned.2.2.1⟩
  · rw [rows_crossJoin_cons, rows_crossJoin_cons, hrows]

theorem filteredTo_of_pushAt {plan pushed : LogicalPlan δ} (h : plan.Planned)
    (heq : plan.pushAt table predicate = some pushed) :
    FilteredTo ev ops (ev.keeps predicate) plan pushed := by
  induction plan using of_joins generalizing pushed with
  | nil => simp at heq
  | cons input inputs hinput hinputs =>
    have hjoin := h.join_of_crossJoin
    simp only [pushAt, pushIntoFirst] at heq hinputs
    split at heq
    case isFalse => cases heq
    rename_i hcount
    obtain ⟨pushed, hpushed, rfl⟩ := Option.map_eq_some_iff.mp heq
    split at hpushed
    · rename_i hcontains
      obtain ⟨input', hinput', rfl⟩ := Option.map_eq_some_iff.mp hpushed
      have hnone : inputs.filter (containsTable table) = [] := by simpa [hcontains] using hcount
      have hothers : (crossJoin inputs).containsTable table = false := by
        simp only [containsTable, anyContainsTable_eq_any]
        simpa using filter_eq_nil_iff.mp hnone
      exact ((hinput h.1 hinput').join_left hsub hreads hjoin hothers).crossJoin_cons
    · rename_i hcontains
      obtain ⟨inputs', hinputs', rfl⟩ := Option.map_eq_some_iff.mp hpushed
      have hcount' : (inputs.filter (containsTable table)).length = 1 := by
        simpa [hcontains] using hcount
      have hrest := hinputs h.2.1 (by rw [if_pos hcount', hinputs', Option.map_some])
      exact (hrest.join_right hsub hreads hjoin (.inr rfl) (by simpa using hcontains)).crossJoin_cons
  | join left right kind condition hleft hright =>
    have h' := h
    simp only [pushAt] at heq
    split at heq
    · rename_i _ hnot
      obtain ⟨left', hleft', rfl⟩ := Option.map_eq_some_iff.mp heq
      exact (hleft h'.1 hleft').join_left hsub hreads h hnot
    · rename_i hnot _
      split at heq
      · rename_i hkind
        obtain ⟨right', hright', rfl⟩ := Option.map_eq_some_iff.mp heq
        exact (hright h'.2.1 hright').join_right hsub hreads h hkind hnot
      · cases heq
    · cases heq
  | filter _ _ _ => simp at heq
  | other plan hplan _ =>
    cases plan with
    | join _ _ _ _ | crossJoin _ | filter _ _ => cases hplan
    | scan source =>
      simp only [pushAt] at heq
      split at heq
      · cases heq
        exact filteredTo_scan h
      · cases heq
    | _ => simp at heq

end Sides

theorem filteredTo_of_pushConjunct {pushed : LogicalPlan δ} (h : plan.Planned)
    (heq : plan.pushConjunct predicate = some pushed) :
    FilteredTo ev ops (ev.keeps predicate) plan pushed := by
  unfold pushConjunct at heq
  split at heq
  · simp at heq
  rename_i hsub
  split at heq
  · rename_i hreads
    exact filteredTo_of_pushAt (by simpa using hsub) hreads h heq
  · simp at heq

theorem pushConjuncts_sound {conjuncts : List BoundExpr} (h : plan.Planned) :
    SameShape plan (plan.pushConjuncts conjuncts).1 ∧ (plan.pushConjuncts conjuncts).1.Planned ∧
      (∀ part ∈ (plan.pushConjuncts conjuncts).2, part ∈ conjuncts) ∧
      ∀ db, ((plan.pushConjuncts conjuncts).1.rows ev ops db).filter
          (fun row => (plan.pushConjuncts conjuncts).2.all (ev.keeps · row)) =
        (plan.rows ev ops db).filter fun row => conjuncts.all (ev.keeps · row) := by
  induction conjuncts generalizing plan with
  | nil => exact ⟨⟨rfl, rfl⟩, h, by simp [pushConjuncts], fun db => rfl⟩
  | cons conjunct rest ih =>
    unfold pushConjuncts
    split
    · rename_i pushed heq
      have hpushed : FilteredTo ev ops (ev.keeps conjunct) plan pushed :=
        filteredTo_of_pushConjunct h heq
      obtain ⟨hshape, hplanned, hmem, hrows⟩ := ih hpushed.planned
      refine ⟨⟨hshape.layout.trans hpushed.shape.layout,
        hshape.planTables.trans hpushed.shape.planTables⟩, hplanned,
        fun part hpart => mem_cons_of_mem _ (hmem part hpart), fun db => ?_⟩
      rw [hrows, hpushed.rows]
      simp [Bool.and_comm]
    · obtain ⟨hshape, hplanned, hmem, hrows⟩ := ih h
      refine ⟨hshape, hplanned, ?_, fun db => ?_⟩
      · rintro part hpart
        exact (mem_cons.mp hpart).elim (fun heq => heq ▸ mem_cons_self)
          fun hpart => mem_cons_of_mem _ (hmem part hpart)
      · simp [← filter_filter, hrows]

theorem rows_filterBy (plan : LogicalPlan δ) (residual : List BoundExpr) (db : Database) :
    (plan.filterBy residual).rows ev ops db =
      (plan.rows ev ops db).filter fun row => residual.all (ev.keeps · row) := by
  unfold filterBy
  split
  · rename_i heq
    cases residual with
    | nil => simp
    | cons first rest => simp [reduce] at heq
  · rename_i predicate heq
    apply filter_congr
    intro row _
    rw [Bool.eq_iff_iff, (ev.isReading_keeps _).reduce_and heq, all_eq_true]

theorem filterBy_shape (plan : LogicalPlan δ) (residual : List BoundExpr) :
    SameShape plan (plan.filterBy residual) := by
  unfold filterBy
  split <;> exact ⟨by simp, by simp⟩

theorem planned_filterBy {residual : List BoundExpr} (h : plan.Planned)
    (hlisted : ∀ part ∈ residual, part.listed = true) : (plan.filterBy residual).Planned := by
  unfold filterBy
  split
  · exact h
  · rename_i predicate heq
    exact ⟨h, of_reduce listed_binary (.inl rfl) hlisted heq⟩

variable (ev ops) in
/-- A plan that looks the same from above, is laid out as the planner lays plans out, and has the
same rows. -/
structure Preserved (plan other : LogicalPlan δ) : Prop where
  shape : SameShape plan other
  planned : other.Planned
  rows : ∀ db, other.rows ev ops db = plan.rows ev ops db

theorem Preserved.relaid (h : Preserved ev ops plan other) :
    Relaid plan other := ⟨h.shape, fun _ => h.planned⟩

theorem Preserved.trans {third : LogicalPlan δ} (h : Preserved ev ops plan other)
    (h' : Preserved ev ops other third) : Preserved ev ops plan third where
  shape := (h.relaid.trans h'.relaid).shape
  planned := h'.planned
  rows db := (h'.rows db).trans (h.rows db)

theorem Preserved.mapChildren (h : plan.Planned) {f : LogicalPlan δ → LogicalPlan δ}
    (hf : ∀ child ∈ plan.children, Preserved ev ops child (f child)) :
    Preserved ev ops plan (plan.mapChildren f) := by
  have hrelaid := Relaid.mapChildren fun child hchild => (hf child hchild).relaid
  have hlayout := hrelaid.shape.layout
  refine ⟨hrelaid.shape, hrelaid.planned h, fun db => ?_⟩
  have hall : ∀ {inputs : List (LogicalPlan δ)},
      (∀ child ∈ inputs, Preserved ev ops child (f child)) →
      rowsAll ev ops db (inputs.map f) = rowsAll ev ops db inputs := fun {inputs} hinputs => by
    induction inputs with
    | nil => rfl
    | cons input inputs ih =>
      rw [forall_mem_cons] at hinputs
      simp [hinputs.1.rows, ih hinputs.2]
  cases plan with
  | empty | oneRow | scan _ => rfl
  | crossJoin inputs =>
    simp only [children] at hf
    simp [mapChildren, hall hf]
  | unionAll inputs =>
    simp only [children, mapChildren] at hf hlayout ⊢
    simp [hlayout, hall hf]
  | setOp _ _ left right | recursive _ _ _ left right | join left right _ _ =>
    have hleft := hf left mem_cons_self
    have hright := hf right (by simp [children])
    simp [mapChildren, hleft.rows, hright.rows, hleft.shape.layout, hright.shape.layout]
  | derived input _ | filter input _ | aggregate input _ _ | window input _ _ | project input _
  | distinct input _ | sort input _ _ | limit input _ _ =>
    have hinput := hf input (mem_singleton_self _)
    simp [mapChildren, hinput.rows, hinput.shape.layout]

theorem Preserved.pushFilter {input input' : LogicalPlan δ} {predicate : BoundExpr}
    (hlisted : predicate.listed = true) (h : Preserved ev ops input input') :
    Preserved ev ops (.filter input predicate) (input'.pushFilter predicate) := by
  unfold LogicalPlan.pushFilter
  have hrejected := relaid_rejectAll input' (impliedBy (some predicate))
  obtain ⟨hshape, hpushed, hmem, hrows⟩ := @pushConjuncts_sound δ ev ops _
    predicate.splitConjunction (hrejected.planned h.planned)
  have hresult := filterBy_shape ((input'.rejectAll (impliedBy (some predicate))).pushConjuncts
    predicate.splitConjunction).1 ((input'.rejectAll (impliedBy (some predicate))).pushConjuncts
    predicate.splitConjunction).2
  refine ⟨⟨?_, ?_⟩, planned_filterBy hpushed fun part hpart =>
    @of_splitConjunction (·.listed = true) listed_binary _ _ hlisted (hmem part hpart), fun db => ?_⟩
  · rw [hresult.layout, hshape.layout, hrejected.shape.layout, h.shape.layout]
    simp
  · rw [hresult.planTables, hshape.planTables, hrejected.shape.planTables, h.shape.planTables]
    simp
  · have hsplit : ∀ rows : List Row, (rows.filter fun row =>
        predicate.splitConjunction.all (ev.keeps · row)) = rows.filter (ev.keeps predicate) :=
      fun rows => filter_congr fun row _ => by
        rw [Bool.eq_iff_iff, all_eq_true, (ev.isReading_keeps _).iff_splitConjunction]
    have hdrop : ∀ row : Row, row.Rejected input'.planTables (impliedBy (some predicate)) →
        ev.keeps predicate row = false := fun row hrow => by
      simpa [holds] using @holds_of_rejected ev (some predicate) row (by simpa using hlisted) _ hrow
    rw [rows_filterBy, hrows, hsplit, ← rowsAgree_rejectAll input' db h.planned _ _ hdrop, h.rows]
    simp

variable {condition : Option BoundExpr} {left right : LogicalPlan δ} {kind : JoinKind}

theorem joinOne_semi_of_rejected (hapart : left.Apart right)
    (hlisted : ∀ expr ∈ condition, expr.listed = true) {db : Database} {absent row : Row}
    (hrow : row.Rejected left.planTables (impliedBy condition)) :
    joinOne ev .semi condition (right.rows ev ops db) absent row = [] := by
  have hnone : (right.rows ev ops db).filter
      (fun other => holds ev condition (row ++ other)) = [] :=
    filter_eq_nil_iff.mpr fun other hother => by
      rw [holds_of_rejected hlisted
        (hrow.append_left (hapart.right_shows.within hother) hapart.disjoint)]
      exact Bool.false_ne_true
  simp [joinOne, hnone]

theorem rows_pushJoin (hleft : left.Planned) (hright : right.Planned) (hapart : left.Apart right)
    (hlisted : ∀ expr ∈ condition, expr.listed = true) (db : Database) :
    (left.pushJoin right kind condition).rows ev ops db =
      (join left right kind condition).rows ev ops db := by
  have hwithin : ∀ row ∈ (left.rejectAll (impliedBy condition)).rows ev ops db,
      Row.Within left.planTables row := fun row hrow =>
    hapart.left_shows.within_relaid (relaid_rejectAll left (impliedBy condition)) hrow
  have hagree := @rowsAgree_rejectAll δ ev ops left db hleft (impliedBy condition)
  simp only [pushJoin, rows]
  rw [← filter_true (joinRows ev kind condition _ (left.rows ev ops db) _),
    ← filter_true (joinRows ev kind condition _ _ _)]
  cases kind with
  | inner =>
    have hdrop : ∀ row : Row, row.Rejected (left.planTables ++ right.planTables)
        (impliedBy condition) → (holds ev condition row && true) = false := fun row hrow => by
      rw [holds_of_rejected hlisted hrow, Bool.false_and]
    exact (filter_joinRows_agree (.inl rfl) hagree
      (rowsAgree_rejectAll right db hright _) hdrop hdrop hapart.disjoint hwithin
      fun row hrow => hapart.right_shows.within hrow).symm
  | semi =>
    simp only [reduceCtorEq, if_false, rejectAll_nil]
    exact (filter_joinRows_agree_left hagree fun row hrow => by
      rw [joinOne_semi_of_rejected hapart hlisted hrow, filter_nil]).symm
  | left | scalar | anti | cross => simp [rejectAll_nil]

theorem Preserved.pushJoin {left left' right right' : LogicalPlan δ}
    (h : (join left right kind condition).Planned) (hleft : Preserved ev ops left left')
    (hright : Preserved ev ops right right') :
    Preserved ev ops (.join left right kind condition) (left'.pushJoin right' kind condition) := by
  have hrelaid : Relaid (.join left right kind condition) (left'.pushJoin right' kind condition) :=
    (hleft.relaid.trans (relaid_rejectAll _ _)).join (hright.relaid.trans (relaid_rejectAll _ _))
  refine ⟨hrelaid.shape, hrelaid.planned h, fun db => ?_⟩
  rw [rows_pushJoin hleft.planned hright.planned (h.2.2.1.of_sameShape hleft.shape hright.shape)
    h.2.2.2]
  simp [hleft.rows, hright.rows, hright.shape.layout]

theorem pushPredicatesAll_eq_map (inputs : List (LogicalPlan δ)) :
    pushPredicatesAll inputs = inputs.map pushPredicates := by
  induction inputs with
  | nil => rfl
  | cons input inputs ih => simp [ih]

theorem preserved_pushPredicates : ∀ plan : LogicalPlan δ, plan.Planned →
    Preserved ev ops plan plan.pushPredicates := by
  apply of_children
  intro plan ih h
  have hchildren : ∀ child ∈ plan.children, Preserved ev ops child child.pushPredicates :=
    fun child hchild => ih child hchild (h.child child hchild)
  have hnode := Preserved.mapChildren h hchildren
  cases plan with
  | join left right kind condition =>
    exact .pushJoin h (hchildren left mem_cons_self) (hchildren right (by simp [children]))
  | filter input predicate =>
    exact (hchildren input (mem_singleton_self _)).pushFilter h.2
  | crossJoin inputs | unionAll inputs =>
    simpa [pushPredicatesAll_eq_map, mapChildren] using hnode
  | _ => simpa [mapChildren] using hnode

def sampleOperators : Operators Unit where
  setOp _ _ left _ := left
  recursive _ anchor _ := anchor
  aggregate _ _ _ := []
  window _ rows := rows.map Row.values
  distinct _ rows := rows
  sort _ rows := rows

def orders : TableKey := ⟨1, 1, "orders"⟩

def lines : TableKey := ⟨1, 2, "lines"⟩

def sampleScan (table : TableKey) : Scan := ⟨table, [1], false, [1], [], none, false⟩

def sampleColumn (table : TableKey) : BoundExpr :=
  .column ⟨some .int64, true⟩ ⟨⟨table, 1⟩, false⟩

def sampleEquals (left right : BoundExpr) : BoundExpr :=
  .binary ⟨some .boolean, true⟩ .equal left right

def sampleLiteral (value : Int64) : BoundExpr := .literal ⟨some .int64, false⟩ (.int64 value)

/-- Orders 4 and 5, and a line of order 5. -/
def sampleDatabase : Database
  | 1, 1 => [fun _ => .int64 4, fun _ => .int64 5]
  | 1, 2 => [fun _ => .int64 5]
  | _, _ => []

/-- The orders with their lines, those of order 5. -/
def samplePlan : LogicalPlan Unit :=
  .filter (.join (.scan (sampleScan orders)) (.scan (sampleScan lines)) .left
    (some (sampleEquals (sampleColumn orders) (sampleColumn lines))))
    (sampleEquals (sampleColumn lines) (sampleLiteral 5))

/-- A negated membership in an empty list, such as a constant subquery with `LIMIT 0` leaves, holds
on the missing rows of a left join. -/
def unlistedPlan : LogicalPlan Unit :=
  .filter (.join (.scan (sampleScan orders)) (.scan (sampleScan lines)) .left
    (some (sampleEquals (sampleColumn orders) (sampleColumn lines))))
    (.scalar ⟨some .boolean, true⟩ (.inList true) (.cons (sampleColumn lines) .nil))

end LogicalPlan

end Pintail.Exec
