import Pintail.Exec.PushPredicates
import Pintail.Exec.Subplans

/-! # Plans as the planner lays them out

The planner gives scans no limit, keeps the relations of a join's inputs apart and lets an input
show columns of its own relations only. Rejections keep a plan so and do not change what it looks
like from above, and a plan's rows have the labels of its layout.
-/

namespace Pintail.Exec

open List

def Label.Within (tables : List TableKey) : Label → Prop
  | .column key => key.table ∈ tables
  | .slot _ => False

namespace LogicalPlan

variable {δ : Type}

def Shows (plan : LogicalPlan δ) : Prop := ∀ label ∈ plan.layout, label.Within plan.planTables

/-- Two inputs of a join show columns of their own relations and share no relation. -/
structure Apart (left right : LogicalPlan δ) : Prop where
  left_shows : left.Shows
  right_shows : right.Shows
  disjoint : left.planTables.Disjoint right.planTables

mutual

/-- Plans as the planner builds them. -/
@[simp] def Planned : LogicalPlan δ → Prop
  | .empty | .oneRow => True
  | .scan source => source.limit = none ∧ source.projectedColumnIds = source.columns
  | .crossJoin inputs => PlannedInputs inputs
  | .unionAll inputs => PlannedAll inputs
  | .setOp _ _ left right | .recursive _ _ _ left right => left.Planned ∧ right.Planned
  | .join left right _ condition =>
    left.Planned ∧ right.Planned ∧ left.Apart right ∧ ∀ expr ∈ condition, expr.listed = true
  | .filter input predicate => input.Planned ∧ predicate.listed = true
  | .derived input _ | .aggregate input _ _ | .window input _ _ | .project input _
  | .distinct input _ | .sort input _ _ | .limit input _ _ => input.Planned

@[simp] def PlannedInputs : List (LogicalPlan δ) → Prop
  | [] => True
  | input :: inputs => input.Planned ∧ PlannedInputs inputs ∧ input.Apart (.crossJoin inputs)

@[simp] def PlannedAll : List (LogicalPlan δ) → Prop
  | [] => True
  | input :: inputs => input.Planned ∧ PlannedAll inputs

end

section Sweep

variable {exposed : List TableKey} {implied : List (List TableKey)} {kind : JoinKind}

theorem sweep_both (h : kind = .inner ∨ kind = .cross) (rejections : List (List TableKey)) :
    sweep exposed implied kind rejections = ⟨kind, rejections, rejections⟩ := by
  have hkind : kind ≠ .left := by rcases h with rfl | rfl <;> decide
  induction rejections with
  | nil => rfl
  | cons rejected rest ih => simp [sweep, ih, h, hkind]

theorem sweep_onlyLeft (h : kind = .scalar ∨ kind = .semi ∨ kind = .anti)
    (rejections : List (List TableKey)) :
    sweep exposed implied kind rejections = ⟨kind, rejections, []⟩ := by
  induction rejections with
  | nil => rfl
  | cons rejected rest ih => rcases h with rfl | rfl | rfl <;> simp [sweep, ih]

theorem sweep_left (rejections : List (List TableKey)) :
    sweep exposed implied .left rejections = ⟨.left, rejections, []⟩ ∨
      (∃ rejected ∈ rejections, ∃ table ∈ exposed, table ∈ rejected) ∧
      (sweep exposed implied .left rejections).kind = .inner ∧
      (∀ rejected ∈ (sweep exposed implied .left rejections).left,
        rejected ∈ implied ∨ rejected ∈ rejections) ∧
      ∀ rejected ∈ (sweep exposed implied .left rejections).right,
        rejected ∈ implied ∨ rejected ∈ rejections := by
  induction rejections with
  | nil => exact .inl rfl
  | cons rejected rest ih =>
    by_cases hmeets : ∃ table ∈ exposed, table ∈ rejected
    · right
      rw [sweep, if_pos ⟨rfl, hmeets⟩, sweep_both (.inl rfl)]
      have hmem : ∀ other ∈ implied ++ rejected :: rest,
          other ∈ implied ∨ other ∈ rejected :: rest := fun _ => mem_append.mp
      exact ⟨⟨rejected, mem_cons_self, hmeets⟩, rfl, hmem, hmem⟩
    · rw [sweep, if_neg (by simp [hmeets])]
      rcases ih with ih | ⟨⟨other, hother, hmeets'⟩, hkind, hleft, hright⟩
      · simp [ih]
      · right
        refine ⟨⟨other, mem_cons_of_mem _ hother, hmeets'⟩, hkind, ?_, ?_⟩
        · rintro x hx
          rcases mem_cons.mp hx with rfl | hx
          · exact .inr mem_cons_self
          · exact (hleft x hx).imp_right (mem_cons_of_mem _)
        · rintro x hx
          exact (hright x (by simpa using hx)).imp_right (mem_cons_of_mem _)

theorem sweep_kind (rejections : List (List TableKey)) :
    (sweep exposed implied kind rejections).kind = kind ∨
      kind = .left ∧ (sweep exposed implied kind rejections).kind = .inner := by
  cases kind with
  | left =>
    rcases @sweep_left exposed implied rejections with h | ⟨-, h, -⟩
    · exact .inl (by rw [h])
    · exact .inr ⟨rfl, h⟩
  | inner | cross => exact .inl (by rw [sweep_both (by decide)])
  | scalar | semi | anti => exact .inl (by rw [sweep_onlyLeft (by decide)])

end Sweep

structure SameShape (plan other : LogicalPlan δ) : Prop where
  layout : other.layout = plan.layout
  planTables : other.planTables = plan.planTables

theorem SameShape.shows {plan other : LogicalPlan δ} (h : SameShape plan other) (hs : plan.Shows) :
    other.Shows := by
  unfold Shows
  rw [h.layout, h.planTables]
  exact hs

theorem Apart.of_sameShape {left left' right right' : LogicalPlan δ} (h : left.Apart right)
    (hleft : SameShape left left') (hright : SameShape right right') : left'.Apart right' where
  left_shows := hleft.shows h.left_shows
  right_shows := hright.shows h.right_shows
  disjoint := by
    rw [hleft.planTables, hright.planTables]
    exact h.disjoint

/-- A plan that looks like another from above and is laid out as the planner lays it out. -/
structure Relaid (plan other : LogicalPlan δ) : Prop where
  shape : SameShape plan other
  planned : plan.Planned → other.Planned

theorem plannedAll_iff {inputs : List (LogicalPlan δ)} :
    PlannedAll inputs ↔ ∀ input ∈ inputs, input.Planned := by
  induction inputs with
  | nil => simp
  | cons input inputs ih => simp [ih]

namespace Relaid

variable {plan other third left left' right right' input input' : LogicalPlan δ}
  {inputs inputs' : List (LogicalPlan δ)}

theorem refl : Relaid plan plan := ⟨⟨rfl, rfl⟩, id⟩

theorem trans (h : Relaid plan other) (h' : Relaid other third) : Relaid plan third where
  shape := ⟨h'.shape.layout.trans h.shape.layout, h'.shape.planTables.trans h.shape.planTables⟩
  planned hplanned := h'.planned (h.planned hplanned)

theorem join (hleft : Relaid left left') (hright : Relaid right right') {kind : JoinKind}
    {condition : Option BoundExpr} :
    Relaid (.join left right kind condition) (.join left' right' kind condition) := by
  refine ⟨⟨?_, ?_⟩, fun h => ?_⟩
  · cases kind <;> simp [layout, hleft.shape.layout, hright.shape.layout]
  · simp [hleft.shape.planTables, hright.shape.planTables]
  · exact ⟨hleft.planned h.1, hright.planned h.2.1, h.2.2.1.of_sameShape hleft.shape hright.shape,
      h.2.2.2⟩

theorem filter (hinput : Relaid input input') {predicate : BoundExpr} :
    Relaid (.filter input predicate) (.filter input' predicate) := by
  refine ⟨⟨?_, ?_⟩, fun h => ?_⟩
  · simp [hinput.shape.layout]
  · simp [hinput.shape.planTables]
  · exact ⟨hinput.planned h.1, h.2⟩

theorem crossCons (hinput : Relaid input input')
    (hinputs : Relaid (.crossJoin inputs) (.crossJoin inputs')) :
    Relaid (.crossJoin (input :: inputs)) (.crossJoin (input' :: inputs')) := by
  obtain ⟨⟨hlayout, htables⟩, hplanned⟩ := hinputs
  simp only [layout, planTables] at hlayout htables hplanned
  refine ⟨⟨?_, ?_⟩, fun h => ?_⟩
  · simp [hinput.shape.layout, hlayout]
  · simp [hinput.shape.planTables, htables]
  · exact ⟨hinput.planned h.1, hplanned h.2.1, h.2.2.of_sameShape hinput.shape
      ⟨by simpa using hlayout,
        by simpa using htables⟩⟩

variable {f : LogicalPlan δ → LogicalPlan δ}

theorem crossJoin (h : ∀ input ∈ inputs, Relaid input (f input)) :
    Relaid (.crossJoin inputs) (.crossJoin (inputs.map f)) := by
  induction inputs with
  | nil => exact .refl
  | cons input inputs ih =>
    rw [forall_mem_cons] at h
    exact .crossCons h.1 (ih h.2)

theorem mapChildren
    (h : ∀ child ∈ plan.children, Relaid child (f child)) : Relaid plan (plan.mapChildren f) := by
  cases plan with
  | empty | oneRow | scan _ => exact .refl
  | crossJoin inputs => exact .crossJoin h
  | unionAll inputs =>
    have htables := (crossJoin h).shape.planTables
    simp only [planTables, children] at htables h
    refine ⟨⟨?_, ?_⟩, fun hplanned => ?_⟩
    · cases inputs with
      | nil => rfl
      | cons input _ =>
        simp [mapChildren, (h input mem_cons_self).shape.layout]
    · simp [mapChildren, htables]
    · simp only [mapChildren, Planned, plannedAll_iff, forall_mem_map]
        at hplanned ⊢
      exact fun input hinput => (h input hinput).planned (hplanned input hinput)
  | join left right _ _ =>
    exact (h left mem_cons_self).join (h right (by simp [children]))
  | filter input _ => exact (h input (mem_singleton_self _)).filter
  | setOp _ _ left right | recursive _ _ _ left right =>
    obtain ⟨⟨hlayout, htables⟩, hleft⟩ := h left mem_cons_self
    obtain ⟨⟨-, htables'⟩, hright⟩ := h right (by simp [children])
    refine ⟨⟨?_, ?_⟩, fun hplanned => ?_⟩
    · simp [mapChildren, hlayout]
    · simp [mapChildren, htables, htables']
    · exact hplanned.imp hleft hright
  | derived input _ | aggregate input _ _ | window input _ _ | project input _
  | distinct input _ | sort input _ _ | limit input _ _ =>
    obtain ⟨⟨hlayout, htables⟩, hinput⟩ := h input (mem_singleton_self _)
    refine ⟨⟨?_, ?_⟩, fun hplanned => ?_⟩
    · simp [mapChildren, hlayout]
    · simp [mapChildren, htables]
    · exact hinput hplanned

end Relaid

variable {plan : LogicalPlan δ}

theorem rejectAll_of_joins (h : plan.joins = false)
    (rejections : List (List TableKey)) : plan.rejectAll rejections = plan := by
  cases plan with
  | join _ _ _ _ | crossJoin _ | filter _ _ => cases h
  | _ => simp

theorem relaid_rejectAll (plan : LogicalPlan δ) (rejections : List (List TableKey)) :
    Relaid plan (plan.rejectAll rejections) := by
  induction plan using of_joins generalizing rejections with
  | nil =>
    exact .refl
  | cons input inputs hinput hinputs =>
    exact (hinput _).crossCons (hinputs _)
  | join left right kind condition hleft hright =>
    have hinner : Relaid (.join left right .left condition) (.join left right .inner condition) :=
      ⟨⟨by simp, by simp⟩, by simp⟩
    simp only [rejectAll]
    rcases @sweep_kind right.planTables (impliedBy condition) kind rejections with h | ⟨rfl, h⟩
    · rw [h]
      exact (hleft _).join (hright _)
    · rw [h]
      exact hinner.trans ((hleft _).join (hright _))
  | filter input predicate hinput =>
    exact (hinput _).filter
  | other plan hplan _ =>
    rw [rejectAll_of_joins hplan]
    exact .refl

theorem rejectAll_nil (plan : LogicalPlan δ) : plan.rejectAll [] = plan := by
  induction plan using of_joins with
  | nil => simp
  | cons input inputs hinput hinputs =>
    simp only [rejectAll, crossJoin.injEq] at hinputs
    simp [hinput, hinputs]
  | join left right kind condition hleft hright => simp [sweep, hleft, hright]
  | filter input predicate hinput => simp [hinput]
  | other plan hplan _ => exact rejectAll_of_joins hplan []

theorem plannedAll_of_plannedInputs : ∀ {inputs : List (LogicalPlan δ)}, PlannedInputs inputs →
    PlannedAll inputs
  | [], _ => trivial
  | _ :: _, h => by
    exact ⟨h.1, plannedAll_of_plannedInputs h.2.1⟩

theorem Planned.child (h : plan.Planned) : ∀ child ∈ plan.children, child.Planned := by
  cases plan with
  | empty | oneRow | scan _ =>
    intro child hchild
    cases hchild
  | crossJoin inputs =>
    exact plannedAll_iff.mp (plannedAll_of_plannedInputs h)
  | unionAll inputs =>
    exact plannedAll_iff.mp h
  | setOp _ _ left right | recursive _ _ _ left right =>
    exact forall_mem_cons.mpr ⟨h.1, forall_mem_singleton.mpr h.2⟩
  | join left right _ _ =>
    exact forall_mem_cons.mpr ⟨h.1, forall_mem_singleton.mpr h.2.1⟩
  | filter input _ =>
    exact forall_mem_singleton.mpr h.1
  | derived input _ | aggregate input _ _ | window input _ _ | project input _
  | distinct input _ | sort input _ _ | limit input _ _ =>
    exact forall_mem_singleton.mpr h

end LogicalPlan

variable {row : Row}

theorem mem_layout_of_labelled {labels : List Label} {rows : List (List Value)}
    (hrow : row ∈ labelled labels rows) {entry : Label × Value} (h : entry ∈ row) :
    entry.1 ∈ labels := by
  obtain ⟨values, -, rfl⟩ := mem_map.mp hrow
  exact (of_mem_zip h).1

theorem exists_of_mem_joinOne {ev : Evaluation} {kind : JoinKind} {condition : Option BoundExpr}
    {right : List Row} {absent left row : Row}
    (h : row ∈ joinOne ev kind condition right absent left) :
    ((kind = .semi ∨ kind = .anti) ∧ row = left) ∨
      (kind ≠ .semi ∧ kind ≠ .anti) ∧ ∃ other, (other ∈ right ∨ other = absent) ∧
        row = left ++ other := by
  have hfound : row ∈ (right.filter fun other => holds ev condition (left ++ other)).map
      (left ++ ·) → ∃ other, (other ∈ right ∨ other = absent) ∧ row = left ++ other := by
    intro hmem
    obtain ⟨other, hother, rfl⟩ := mem_map.mp hmem
    exact ⟨other, .inl (mem_of_mem_filter hother), rfl⟩
  unfold joinOne at h
  cases kind with
  | inner | cross => exact .inr ⟨by decide, hfound h⟩
  | left | scalar =>
    refine .inr ⟨by decide, ?_⟩
    dsimp only at h
    split at h
    · exact ⟨absent, .inr rfl, mem_singleton.mp h⟩
    · exact hfound h
  | semi | anti =>
    refine .inl ⟨by decide, ?_⟩
    split at h <;> simp_all

namespace LogicalPlan

variable {δ : Type} (ev : Evaluation) (ops : Operators δ)

theorem mem_layout_of_rows (plan : LogicalPlan δ) (db : Database) {row : Row}
    (hrow : row ∈ plan.rows ev ops db) : ∀ entry ∈ row, entry.1 ∈ plan.layout := by
  induction plan using of_joins generalizing row with
  | nil =>
    simp only [rows, rowsAll, productRows, mem_singleton] at hrow
    simp [hrow]
  | cons input inputs hinput hinputs =>
    obtain ⟨l, hl, hrow⟩ := mem_flatMap.mp hrow
    obtain ⟨other, hother, rfl⟩ := mem_map.mp hrow
    intro entry h
    rcases mem_append.mp h with h | h
    · exact mem_append_left _ (hinput hl entry h)
    · exact mem_append_right _ (hinputs hother entry h)
  | join left right kind condition hleft hright =>
    obtain ⟨l, hl, hrow⟩ := mem_flatMap.mp hrow
    intro entry h
    rcases exists_of_mem_joinOne hrow with ⟨hkind, rfl⟩ | ⟨hkind, other, hother, rfl⟩
    · rcases hkind with rfl | rfl <;> simpa using hleft hl entry h
    · have hmem : entry.1 ∈ left.layout ++ right.layout := by
        rcases mem_append.mp h with h | h
        · exact mem_append_left _ (hleft hl entry h)
        · apply mem_append_right _
          rcases hother with hother | rfl
          · exact hright hother entry h
          · obtain ⟨label, hlabel, rfl⟩ := mem_map.mp h
            exact hlabel
      cases kind <;> simp_all
  | filter input predicate hinput =>
    exact hinput (mem_of_mem_filter hrow)
  | other plan hplan ih =>
    cases plan with
    | join _ _ _ _ | crossJoin _ | filter _ _ => cases hplan
    | empty => simp at hrow
    | oneRow =>
      simp only [rows, mem_singleton] at hrow
      simp [hrow]
    | scan source =>
      obtain ⟨stored, -, rfl⟩ := mem_map.mp hrow
      intro entry h
      obtain ⟨id, hid, rfl⟩ := mem_map.mp h
      exact mem_map_of_mem (f := fun id => Label.column ⟨source.table, id⟩) hid
    | limit input _ _ =>
      exact ih input (mem_singleton_self _)
        (mem_of_mem_drop (mem_of_mem_take hrow))
    | _ =>
      exact fun entry h => mem_layout_of_labelled hrow h

end LogicalPlan

def Row.Within (tables : List TableKey) (row : Row) : Prop :=
  ∀ entry ∈ row, entry.1.Within tables

variable {tables : List TableKey} {table : TableKey}

theorem Row.Within.nullOn (h : row.Within tables) (htable : table ∉ tables) : row.NullOn table := by
  rintro key value hmem rfl
  exact absurd (h _ hmem) htable

theorem Row.Within.not_read (h : row.Within tables) {predicate : BoundExpr}
    (hreads : predicate.referencedTables = [table]) (htable : table ∉ tables) {label : Label}
    (hlabel : label ∈ predicate.reads) (value : Value) : (label, value) ∉ row := by
  intro hmem
  have hwithin := h _ hmem
  cases label with
  | column key => exact htable (BoundExpr.table_of_reads hreads hlabel ▸ hwithin)
  | slot index => exact hwithin

namespace LogicalPlan

variable {δ : Type} {ev : Evaluation} {ops : Operators δ}
  {plan : LogicalPlan δ} {db : Database} {row : Row}

theorem Shows.within (h : plan.Shows)
    (hrow : row ∈ plan.rows ev ops db) : row.Within plan.planTables :=
  fun entry hentry => h _ (mem_layout_of_rows ev ops plan db hrow entry hentry)

theorem Shows.within_relaid {plan other : LogicalPlan δ} (h : plan.Shows)
    (hother : Relaid plan other) (hrow : row ∈ other.rows ev ops db) : row.Within plan.planTables :=
  hother.shape.planTables ▸ (hother.shape.shows h).within hrow

theorem Shows.within_nullRow (h : plan.Shows) :
    Row.Within plan.planTables (nullRow plan.layout) := by
  intro entry hentry
  obtain ⟨label, hlabel, rfl⟩ := mem_map.mp hentry
  exact h label hlabel

theorem Shows.within_joined (h : plan.Shows)
    (hrow : row ∈ plan.rows ev ops db ∨ row = nullRow plan.layout) : row.Within plan.planTables :=
  hrow.elim h.within fun heq => heq ▸ h.within_nullRow

end LogicalPlan

end Pintail.Exec
