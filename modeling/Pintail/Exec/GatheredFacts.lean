import Pintail.Exec.CarriedRows

/-! # Plans that keep their rows with carried constants

A comparison gathered below an input of a join holds on the rows of the input when it compares a
column the input shows, and stands below no derived table. An equality of the join then carries it
over to the other column where comparing with the literal goes by the rules of the equality. A
comparison gathered below a derived table is about that table's own rows, and an equality of texts
tells nothing about a comparison with bytes: both lose rows.
-/

namespace Pintail.Exec

open List LogicalPlan Evaluation

section Comparisons

variable {expr predicate : BoundExpr} {column : BoundColumn} {value : Value}
  {tables : List TableKey}

/-- Compares a column of the given relations, or of an enclosing query, with a literal. -/
def isOwn (tables : List TableKey) (expr : BoundExpr) : Bool :=
  (constantComparison expr).any fun found => found.1.outer || found.1.key.table ∈ tables

def comparedTables (exprs : List BoundExpr) : List TableKey :=
  exprs.filterMap fun expr => (constantComparison expr).map (·.1.key.table)

theorem mem_comparedTables {table : TableKey} {exprs : List BoundExpr} :
    table ∈ comparedTables exprs ↔ ∃ expr ∈ exprs, ∃ column value,
      constantComparison expr = some (column, value) ∧ column.key.table = table := by
  simp [comparedTables]

theorem exists_of_isOwn (h : isOwn tables expr = true) : ∃ column value,
    constantComparison expr = some (column, value) ∧
      (column.outer = true ∨ column.key.table ∈ tables) := by
  obtain ⟨⟨column, value⟩, hfound, hown⟩ := (Option.any_eq_true _ _).mp h
  exact ⟨column, value, hfound, by simpa using hown⟩

theorem isOwn_mono {tables' : List TableKey} (hsub : tables ⊆ tables')
    (h : isOwn tables expr = true) : isOwn tables' expr = true := by
  obtain ⟨column, value, hfound, hown⟩ := exists_of_isOwn h
  simpa [isOwn, hfound] using hown.imp_right fun hmem => hsub hmem

theorem reads_of_comparison (h : constantComparison expr = some (column, value)) :
    expr.containsSubquery = false ∧
      expr.reads = if column.outer then [] else [.column column.key] := by
  unfold constantComparison at h
  split at h
  · split at h
    · cases h
    · cases h
      simp
  · split at h
    · cases h
    · cases h
      simp
  · cases h

theorem not_read_of_isOwn {others : List TableKey} {row : Row} (h : isOwn tables expr = true)
    (hdisjoint : tables.Disjoint others) (hrow : row.Within others) :
    expr.containsSubquery = false ∧ ∀ label ∈ expr.reads, ∀ value, (label, value) ∉ row := by
  obtain ⟨column, value, hfound, hown⟩ := exists_of_isOwn h
  obtain ⟨hsub, hreads⟩ := reads_of_comparison hfound
  refine ⟨hsub, fun label hlabel value hmem => ?_⟩
  cases houter : column.outer with
  | true => simp [hreads, houter] at hlabel
  | false =>
    obtain rfl : label = .column column.key := by simpa [hreads, houter] using hlabel
    exact hdisjoint (hown.resolve_left (by simp [houter])) (hrow _ hmem)

end Comparisons

/-- What is gathered from a plan: the comparisons about columns it shows, the relations scanned or
compared, and those of them of which a comparison need not be about the plan's own rows. -/
structure Gathered where
  facts : List BoundExpr
  tables : List TableKey
  strays : List TableKey

namespace Gathered

def none : Gathered := ⟨[], [], []⟩

def append (g g' : Gathered) : Gathered :=
  ⟨g.facts ++ g'.facts, g.tables ++ g'.tables, g.strays ++ g'.strays⟩

/-- What conditions over the given relations compare. -/
def compared (tables : List TableKey) (exprs : List BoundExpr) : Gathered where
  facts := exprs.filter (isOwn tables)
  tables := comparedTables exprs
  strays := comparedTables (exprs.filter fun expr => !isOwn tables expr)

theorem compared_append (tables : List TableKey) (exprs exprs' : List BoundExpr) :
    compared tables (exprs ++ exprs') = (compared tables exprs).append (compared tables exprs') := by
  simp [compared, comparedTables, append]

/-- Where an operator makes new rows, nothing gathered below is about them. -/
def hidden (g : Gathered) : Gathered := ⟨[], g.tables, g.tables⟩

/-- A gathered constant is about a relation that strays, or a comparison of the plan's own. -/
structure Locates (g : Gathered) (entry : ColumnKey × Value) : Prop where
  tables : entry.1.table ∈ g.tables
  source : entry.1.table ∈ g.strays ∨ ∃ expr ∈ g.facts, ∃ column,
    constantComparison expr = some (column, entry.2) ∧ column.key = entry.1

variable {g g' h h' : Gathered} {entry : ColumnKey × Value} {P Q : BoundExpr → Prop}

theorem Locates.append_left (hg : g.Locates entry) : (g.append g').Locates entry where
  tables := mem_append_left _ hg.tables
  source := by
    apply hg.source.imp (mem_append_left _)
    rintro ⟨expr, hexpr, hcolumn⟩
    exact ⟨expr, mem_append_left _ hexpr, hcolumn⟩

theorem Locates.append_right (hg : g'.Locates entry) : (g.append g').Locates entry where
  tables := mem_append_right _ hg.tables
  source := by
    apply hg.source.imp (mem_append_right _)
    rintro ⟨expr, hexpr, hcolumn⟩
    exact ⟨expr, mem_append_right _ hexpr, hcolumn⟩

theorem locates_compared (tables : List TableKey) {exprs : List BoundExpr} {expr : BoundExpr}
    {column : BoundColumn} {value : Value} (hexpr : expr ∈ exprs)
    (hfound : constantComparison expr = some (column, value)) :
    (compared tables exprs).Locates (column.key, value) where
  tables := mem_comparedTables.mpr ⟨expr, hexpr, column, value, hfound, rfl⟩
  source := by
    cases hown : isOwn tables expr with
    | true => exact .inr ⟨expr, mem_filter.mpr ⟨hexpr, hown⟩, column, hfound, rfl⟩
    | false =>
      left
      apply mem_comparedTables.mpr
      exact ⟨expr, mem_filter.mpr ⟨hexpr, by simp [hown]⟩, column, value, hfound, rfl⟩

/-- What is gathered beyond: comparisons of the given kind, about no other relation. -/
structure Adds (P : BoundExpr → Prop) (g g' : Gathered) : Prop where
  facts : ∀ expr ∈ g'.facts, expr ∈ g.facts ∨ P expr
  tables : g'.tables ⊆ g.tables
  strays : g'.strays ⊆ g.strays

theorem Adds.refl (g : Gathered) : Adds P g g := ⟨fun _ => .inl, Subset.refl _, Subset.refl _⟩

theorem Adds.mono (hg : Adds P g g') (hPQ : ∀ expr, P expr → Q expr) : Adds Q g g' :=
  ⟨fun expr hexpr => (hg.facts expr hexpr).imp_right (hPQ expr), hg.tables, hg.strays⟩

theorem Adds.trans (hg : Adds P g g') (hg' : Adds P g' h) : Adds P g h where
  facts expr hexpr := (hg'.facts expr hexpr).elim (hg.facts expr) .inr
  tables := Subset.trans hg'.tables hg.tables
  strays := Subset.trans hg'.strays hg.strays

theorem Adds.hidden (hg : Adds P g g') : Adds Q g.hidden g'.hidden := ⟨nofun, hg.tables, hg.tables⟩

theorem Adds.append (hg : Adds P g g') (hh : Adds P h h') : Adds P (g.append h) (g'.append h') := by
  have hsub : ∀ {first first' second second' : List TableKey}, first ⊆ first' → second ⊆ second' →
      first ++ second ⊆ first' ++ second' := fun h h' =>
    append_subset.mpr ⟨subset_append_of_subset_left _ h, subset_append_of_subset_right _ h'⟩
  refine ⟨fun expr hexpr => ?_, hsub hg.tables hh.tables, hsub hg.strays hh.strays⟩
  rcases mem_append.mp hexpr with hexpr | hexpr
  · exact (hg.facts expr hexpr).imp_left (mem_append_left _)
  · exact (hh.facts expr hexpr).imp_left (mem_append_right _)

end Gathered

namespace LogicalPlan

open Gathered

variable {δ : Type}

def gathered : LogicalPlan δ → Gathered
  | .scan source =>
    (compared [source.table] (source.predicates.flatMap BoundExpr.conjunctsOf)).append
      ⟨[], [source.table], []⟩
  | .filter input predicate =>
    (compared input.planTables predicate.conjunctsOf).append input.gathered
  | .join left right kind _ =>
    left.gathered.append (if kind = .inner then right.gathered else .none)
  | .project input _ | .aggregate input _ _ | .window input _ _ | .distinct input _
  | .sort input _ _ | .limit input _ _ | .derived input _ => input.gathered.hidden
  | .empty | .oneRow | .crossJoin _ | .unionAll _ | .setOp _ _ _ _ | .recursive _ _ _ _ _ => .none

section Gathered

variable {plan plan' : LogicalPlan δ} {expr : BoundExpr}

theorem isOwn_of_facts (plan : LogicalPlan δ) (h : expr ∈ plan.gathered.facts) :
    isOwn plan.planTables expr = true := by
  fun_induction gathered plan with
  | case1 source =>
    rcases mem_append.mp h with h | h
    · simpa using (mem_filter.mp h).2
    · cases h
  | case2 input predicate ih =>
    rcases mem_append.mp h with h | h
    · exact (mem_filter.mp h).2
    · simpa using ih h
  | case3 left right kind condition ihleft ihright =>
    rcases mem_append.mp h with h | h
    · exact isOwn_mono (by simp) (ihleft h)
    · split at h
      · exact isOwn_mono (by simp) (ihright h)
      · cases h
  | _ => cases h

theorem locates_collectConstants {entry : ColumnKey × Value} (plan : LogicalPlan δ)
    (h : entry ∈ plan.collectConstants) : plan.gathered.Locates entry := by
  have hrecorded : ∀ {predicate : BoundExpr}, entry ∈ recordConstants predicate →
      ∃ expr ∈ predicate.conjunctsOf, ∃ column value,
        constantComparison expr = some (column, value) ∧ (column.key, value) = entry := by
    intro predicate h
    obtain ⟨expr, hexpr, hmap⟩ := mem_filterMap.mp h
    obtain ⟨⟨column, value⟩, hfound, rfl⟩ := Option.map_eq_some_iff.mp hmap
    exact ⟨expr, hexpr, column, value, hfound, rfl⟩
  fun_induction collectConstants plan with
  | case1 source =>
    obtain ⟨predicate, hpredicate, h⟩ := mem_flatMap.mp h
    obtain ⟨expr, hexpr, column, value, hfound, rfl⟩ := hrecorded h
    exact (locates_compared _ (mem_flatMap.mpr ⟨predicate, hpredicate, hexpr⟩) hfound).append_left
  | case2 input predicate ih =>
    rcases mem_append.mp h with h | h
    · obtain ⟨expr, hexpr, column, value, hfound, rfl⟩ := hrecorded h
      exact (locates_compared _ hexpr hfound).append_left
    · exact (ih h).append_right
  | case3 left right kind condition ihleft ihright =>
    rcases mem_append.mp h with h | h
    · exact (ihleft h).append_left
    · split at h
      · rename_i hkind
        rw [gathered, if_pos hkind]
        exact (ihright h).append_right
      · cases h
  | _ =>
    first
    | cases h
    | rename_i ih
      exact ⟨(ih h).tables, .inl (ih h).tables⟩

variable {ev : Evaluation} {ops : Operators δ} {db : Database}

theorem keeps_of_facts (plan : LogicalPlan δ) (hplanned : plan.Planned)
    (h : expr ∈ plan.gathered.facts) :
    ∀ row ∈ plan.rows ev ops db, ev.keeps expr row = true := by
  fun_induction gathered plan with
  | case1 source =>
    obtain ⟨hexpr, -⟩ := mem_filter.mp ((mem_append.mp h).resolve_right nofun)
    obtain ⟨predicate, hpredicate, hexpr⟩ := mem_flatMap.mp hexpr
    intro row hrow
    exact (ev.keeps_iff_conjunctsOf predicate).mp (rows_scan_meets hplanned hpredicate hrow) expr
      hexpr
  | case2 input predicate ih =>
    intro row hrow
    obtain ⟨hrow, hkeeps⟩ := mem_filter.mp hrow
    rcases mem_append.mp h with h | h
    · exact (ev.keeps_iff_conjunctsOf predicate).mp hkeeps expr (mem_of_mem_filter h)
    · exact ih hplanned.1 h row hrow
  | case3 left right kind condition ihleft ihright =>
    obtain ⟨hleft, hright, hapart, -⟩ := hplanned
    rcases mem_append.mp h with hfact | hfact
    · refine forall_mem_join hapart fun l hl => ⟨ihleft hleft hfact l hl, fun other hother => ?_⟩
      obtain ⟨hsub, hreads⟩ := not_read_of_isOwn (isOwn_of_facts left hfact) hapart.disjoint hother
      rw [keeps_append_left hsub hreads]
      exact ihleft hleft hfact l hl
    · split at hfact
      · rename_i hkind
        subst hkind
        intro row hrow
        obtain ⟨l, hl, hrow⟩ := mem_flatMap.mp hrow
        obtain ⟨r, hr, rfl⟩ := mem_map.mp hrow
        obtain ⟨hsub, hreads⟩ := not_read_of_isOwn (isOwn_of_facts right hfact)
          hapart.disjoint.symm (hapart.left_shows.within hl)
        rw [keeps_append_right hsub hreads]
        exact ihright hright hfact r (mem_of_mem_filter hr)
      · cases hfact
  | _ => cases h

end Gathered

section Added

variable {catalog : ColumnKey → ColumnInfo} {plan plan' : LogicalPlan δ} {d : Derivation}

theorem conjunctsOf_predicate : (d.predicate catalog).conjunctsOf = [d.predicate catalog] := by
  rw [Derivation.predicate, equalsLiteral, BoundExpr.conjunctsOf]
  simp

theorem compared_predicate : compared [d.target.key.table] [d.predicate catalog] =
    if d.value = .null then .none else ⟨[d.predicate catalog], [d.target.key.table], []⟩ := by
  have hfound : constantComparison (d.predicate catalog) =
      if d.value = .null then Option.none else some (d.target, d.value) := rfl
  split_ifs with hnull <;> simp [compared, comparedTables, isOwn, hfound, hnull, Gathered.none]

theorem adds_addPredicate {source : Scan} (htable : source.table = d.target.key.table) :
    Adds (· = d.predicate catalog) (gathered (.scan source : LogicalPlan δ))
      (gathered (.scan (Scan.addPredicate source (d.predicate catalog)) : LogicalPlan δ)) := by
  unfold Scan.addPredicate
  split
  · exact .refl _
  · have hadded := @compared_predicate catalog d
    simp only [gathered, flatMap_append, flatMap_singleton, conjunctsOf_predicate, compared_append,
      htable, hadded]
    split <;> constructor <;> simp +contextual [Gathered.append, Gathered.none]

variable {P : BoundExpr → Prop}

theorem adds_filter {input input' : LogicalPlan δ} {predicate : BoundExpr}
    (h : Adds P input.gathered input'.gathered) (hshape : SameShape input input') :
    Adds P (gathered (.filter input predicate)) (gathered (.filter input' predicate)) := by
  rw [gathered, gathered, hshape.planTables]
  exact .append (.refl _) h

theorem adds_join {left left' right right' : LogicalPlan δ} {kind : JoinKind}
    {condition : Option BoundExpr} (hleft : Adds P left.gathered left'.gathered)
    (hright : kind = .inner → Adds P right.gathered right'.gathered) :
    Adds P (gathered (.join left right kind condition))
      (gathered (.join left' right' kind condition)) := by
  apply hleft.append
  split_ifs with hkind
  · exact hright hkind
  · exact .refl _

theorem Narrows.adds (h : Narrows d.target.key.table (d.predicate catalog) plan plan') :
    Adds (· = d.predicate catalog) plan.gathered plan'.gathered := by
  induction h with
  | scan htable => exact adds_addPredicate htable
  | filter h ih => exact adds_filter ih h.relaid.shape
  | joinLeft _ ih => exact adds_join ih fun _ => .refl _
  | joinRight _ _ ih => exact adds_join (.refl _) fun _ => ih
  | cross _ _ => exact .refl _

theorem adds_foldl {ds : List Derivation} (h : ∀ d ∈ ds, P (d.predicate catalog))
    (plan : LogicalPlan δ) :
    Adds P plan.gathered (ds.foldl (deriveInto catalog) plan).gathered := by
  refine foldl_deriveInto (I := fun plan' => Adds P plan.gathered plan'.gathered) ?_ (.refl _)
  intro d hd _ middle plan' hnarrows hadds
  apply hadds.trans (hnarrows.adds.mono _)
  rintro expr rfl
  exact h d hd

end Added

theorem OuterApart.of_sameShape {left left' right right' : LogicalPlan δ} {kind : JoinKind}
    {predicate : BoundExpr} (h : (join left right kind (some predicate)).OuterApart)
    (hleft : SameShape left left') (hright : SameShape right right') :
    (join left' right' kind (some predicate)).OuterApart := by
  simp only [OuterApart, hleft.planTables, hright.planTables] at h ⊢
  exact h

section Pass

variable (catalog : ColumnKey → ColumnInfo)

/-- The comparisons written in a plan about columns it shows, and those they turn into as the
equalities of joins carry them from column to column. -/
inductive Told : LogicalPlan δ → BoundExpr → Prop
  | written {plan : LogicalPlan δ} {expr : BoundExpr} (h : expr ∈ plan.gathered.facts) :
      Told plan expr
  | filter {input : LogicalPlan δ} {predicate expr : BoundExpr} (h : Told input expr) :
      Told (.filter input predicate) expr
  | left {left right : LogicalPlan δ} {kind : JoinKind} {condition : Option BoundExpr}
      {expr : BoundExpr} (h : Told left expr) : Told (.join left right kind condition) expr
  | right {left right : LogicalPlan δ} {condition : Option BoundExpr} {expr : BoundExpr}
      (h : Told right expr) : Told (.join left right .inner condition) expr
  | carried {left right input : LogicalPlan δ} {kind : JoinKind} {predicate expr : BoundExpr}
      {column source target : BoundColumn} {value : Value} (hinput : input ∈ [left, right])
      (h : Told input expr) (hexpr : constantComparison expr = some (column, value))
      (hkey : column.key = source.key) (hties : Ties predicate source target) :
      Told (.join left right kind (some predicate)) (equalsLiteral catalog target value)

/-- A join's equalities name no relation of which a comparison strays into its inputs. -/
def Scoped : LogicalPlan δ → Prop
  | .join left right kind (some predicate) => ∀ source target, Ties predicate source target →
      (kind = .inner ∨ kind = .left → source.key.table ∉ left.gathered.strays) ∧
        (kind = .inner → source.key.table ∉ right.gathered.strays)
  | _ => True

/-- Where a pair of rows meets a join's condition, a comparison told of a column by an input holds
of each column tied to it that is declared alike. -/
def CarriesOver (ev : Evaluation) (ops : Operators δ) (db : Database) : LogicalPlan δ → Prop
  | .join left right kind (some predicate) =>
    ∀ row ∈ (join left right .inner (some predicate)).rows ev ops db,
      ∀ source target, Ties predicate source target → comparesAlike catalog target source = true →
      ∀ expr column value, constantComparison expr = some (column, value) →
        column.key = source.key →
        ((kind = .inner ∨ kind = .left) ∧ Told catalog left expr ∨
          kind = .inner ∧ Told catalog right expr) →
        ev.keeps expr row = true → ev.keeps (equalsLiteral catalog target value) row = true
  | _ => True

variable (ev : Evaluation) (ops : Operators δ)

/-- What the pass makes of a plan: the same rows, and nothing to gather but what the plan tells. -/
structure Passed (plan plan' : LogicalPlan δ) : Prop where
  preserved : Preserved ev ops plan plan'
  adds : Adds (Told catalog plan) plan.gathered plan'.gathered

variable {catalog ev ops} {plan plan' : LogicalPlan δ}

theorem Passed.told (h : Passed catalog ev ops plan plan') {expr : BoundExpr}
    (hexpr : expr ∈ plan'.gathered.facts) : Told catalog plan expr :=
  (h.adds.facts expr hexpr).elim .written id

theorem Passed.mapChildren {f : LogicalPlan δ → LogicalPlan δ} (hplanned : plan.Planned)
    (h : ∀ child ∈ plan.children, Passed catalog ev ops child (f child)) :
    Passed catalog ev ops plan (plan.mapChildren f) := by
  refine ⟨Preserved.mapChildren hplanned fun child hchild => (h child hchild).preserved, ?_⟩
  cases plan with
  | filter input predicate =>
    have hinput := h input (mem_singleton_self _)
    exact adds_filter (hinput.adds.mono fun _ => .filter) hinput.preserved.shape
  | join left right kind condition =>
    apply adds_join ((h left mem_cons_self).adds.mono fun _ => .left)
    rintro rfl
    exact (h right (mem_cons_of_mem _ (mem_singleton_self _))).adds.mono fun _ => .right
  | project input _ | aggregate input _ _ | window input _ _ | distinct input _ | sort input _ _
  | limit input _ _ | derived input _ => exact (h input (mem_singleton_self _)).adds.hidden
  | scan _ | empty | oneRow | crossJoin _ | unionAll _ | setOp _ _ _ _ | recursive _ _ _ _ _ =>
    exact .refl _

variable {left right left' right' : LogicalPlan δ} {kind : JoinKind} {predicate : BoundExpr}
  (hleft : Passed catalog ev ops left left') (hright : Passed catalog ev ops right right')

include hleft hright

theorem exists_fact (hscoped : (join left right kind (some predicate)).Scoped) {d : Derivation}
    (hd : d ∈ derivations left' right' kind predicate) :
    Ties predicate d.source d.target ∧ ∃ expr column,
      ((kind = .inner ∨ kind = .left) ∧ expr ∈ left'.gathered.facts ∨
        kind = .inner ∧ expr ∈ right'.gathered.facts) ∧
      constantComparison expr = some (column, d.value) ∧ column.key = d.source.key := by
  obtain ⟨hties, hgathered⟩ := mem_derivations hd
  obtain ⟨hnotLeft, hnotRight⟩ := hscoped _ _ hties
  refine ⟨hties, ?_⟩
  rcases hgathered with ⟨hkind, -, hmem⟩ | ⟨hkind, hmem⟩
  · rcases (locates_collectConstants left' hmem).source with hstray | ⟨expr, hexpr, column, h⟩
    · exact absurd (hleft.adds.strays hstray) (hnotLeft hkind)
    · exact ⟨expr, column, .inl ⟨hkind, hexpr⟩, h⟩
  · rcases (locates_collectConstants right' hmem).source with hstray | ⟨expr, hexpr, column, h⟩
    · exact absurd (hright.adds.strays hstray) (hnotRight hkind)
    · exact ⟨expr, column, .inr ⟨hkind, hexpr⟩, h⟩

theorem Passed.deriveJoin (houter : (join left right kind (some predicate)).OuterApart)
    (hscoped : (join left right kind (some predicate)).Scoped)
    (hcarries : ∀ db, (join left right kind (some predicate)).CarriesOver catalog ev ops db)
    (hinputs : Passed catalog ev ops (.join left right kind (some predicate))
      (.join left' right' kind (some predicate))) :
    Passed catalog ev ops (.join left right kind (some predicate))
      (deriveJoin catalog left' right' kind (some predicate)) := by
  refine ⟨hinputs.preserved.trans (preserved_deriveJoin hinputs.preserved.planned
      (houter.of_sameShape hleft.preserved.shape hright.preserved.shape) ?_),
    hinputs.adds.trans (adds_join (adds_foldl ?_ left') fun _ => adds_foldl ?_ right')⟩
  · intro d hd hcompatible db row hrow
    obtain ⟨hties, expr, column, hfact, hexpr, hkey⟩ := exists_fact hleft hright hscoped hd
    have hbefore : row ∈ (join left right .inner (some predicate)).rows ev ops db := by
      simpa [hleft.preserved.rows, hright.preserved.rows, hright.preserved.shape.layout] using hrow
    apply hcarries db row hbefore _ _ hties hcompatible expr column _ hexpr hkey
    · exact hfact.imp (And.imp_right hleft.told) (And.imp_right hright.told)
    · refine keeps_of_facts (.join left' right' .inner (some predicate)) hinputs.preserved.planned
        ?_ row hrow
      exact mem_append.mpr (hfact.imp And.right And.right)
  all_goals
    intro d hd
    obtain ⟨hties, expr, column, hfact, hexpr, hkey⟩ :=
      exists_fact hleft hright hscoped (mem_of_mem_filter hd)
    rcases hfact with ⟨-, hfact⟩ | ⟨-, hfact⟩
    · exact .carried mem_cons_self (hleft.told hfact) hexpr hkey hties
    · exact .carried (by simp) (hright.told hfact) hexpr hkey hties

end Pass

variable {catalog : ColumnKey → ColumnInfo} {ev : Evaluation} {ops : Operators δ}

theorem propagateJoinConstantsAll_eq_map (inputs : List (LogicalPlan δ)) :
    propagateJoinConstantsAll catalog inputs = inputs.map (propagateJoinConstants catalog) := by
  induction inputs with
  | nil => rfl
  | cons input inputs ih => simp [ih]

theorem propagateJoinConstants_eq (plan : LogicalPlan δ) :
    plan.propagateJoinConstants catalog = plan.mapChildren (propagateJoinConstants catalog) ∨
      ∃ left right kind predicate, plan = .join left right kind (some predicate) ∧
        plan.propagateJoinConstants catalog = deriveJoin catalog
          (left.propagateJoinConstants catalog) (right.propagateJoinConstants catalog) kind
          (some predicate) := by
  cases plan with
  | join left right kind condition =>
    cases condition with
    | none => exact .inl (by simp [mapChildren, deriveJoin])
    | some predicate => exact .inr ⟨left, right, kind, predicate, rfl, by simp⟩
  | crossJoin inputs | unionAll inputs =>
    exact .inl (by simp [mapChildren, propagateJoinConstantsAll_eq_map])
  | _ => exact .inl (by simp [mapChildren])

theorem passed_propagateJoinConstants : ∀ plan : LogicalPlan δ, plan.Planned →
    (∀ sub, Subplan sub plan → sub.OuterApart) → (∀ sub, Subplan sub plan → sub.Scoped) →
    (∀ sub, Subplan sub plan → ∀ db, sub.CarriesOver catalog ev ops db) →
    Passed catalog ev ops plan (plan.propagateJoinConstants catalog) := by
  apply of_children
  intro plan ih hplanned houter hscoped hcarries
  rw [forall_subplan_iff] at houter hscoped hcarries
  have hchildren : ∀ child ∈ plan.children,
      Passed catalog ev ops child (child.propagateJoinConstants catalog) := fun child hchild =>
    ih child hchild (hplanned.child child hchild) (houter.2 child hchild) (hscoped.2 child hchild)
      (hcarries.2 child hchild)
  have hinputs := Passed.mapChildren hplanned hchildren
  rcases @propagateJoinConstants_eq δ catalog plan with heq |
    ⟨left, right, kind, predicate, rfl, heq⟩
  · rw [heq]
    exact hinputs
  · rw [heq]
    exact Passed.deriveJoin (hchildren left mem_cons_self)
      (hchildren right (mem_cons_of_mem _ (mem_singleton_self _))) houter.1 hscoped.1 hcarries.1
      hinputs

def integerColumns (_ : ColumnKey) : ColumnInfo := ⟨.int64, true, none, none⟩

def textColumns (_ : ColumnKey) : ColumnInfo := ⟨.utf8, true, some .utf8mb4GeneralCi, none⟩

def ordersEqual (value : BoundExpr) : LogicalPlan Unit :=
  .scan { sampleScan orders with predicates := [sampleEquals (sampleColumn orders) value] }

/-- The orders of a plan with their lines. -/
def withLines (plan : LogicalPlan Unit) : LogicalPlan Unit :=
  .join plan (.scan (sampleScan lines)) .inner
    (some (sampleEquals (sampleColumn lines) (sampleColumn orders)))

/-- Order 4, as a derived table. -/
def chosenPlan : LogicalPlan Unit :=
  .derived (.project (ordersEqual (sampleLiteral 4)) [sampleColumn orders])
    [⟨⟨⟨1, 9, "chosen"⟩, 1⟩, false⟩]

/-- Every order with its lines, beside the derived table. -/
def derivedPlan : LogicalPlan Unit :=
  withLines (.join chosenPlan (.scan (sampleScan orders)) .cross none)

/-- Texts compare without regard to case, and byte for byte with a binary string. -/
def compareTexts : Value → Value → Bool
  | .utf8 v, .utf8 w => v.toList.map Char.toLower == w.toList.map Char.toLower
  | .utf8 v, .binary bytes | .binary bytes, .utf8 v =>
    v.toList.map (fun c => UInt8.ofNat c.toNat) == bytes
  | v, w => v == w

theorem compareTexts_comm (v w : Value) : compareTexts v w = compareTexts w v := by
  cases v <;> cases w <;> simp [compareTexts, Bool.beq_comm]

def textEvaluation : Evaluation :=
  { sample with
    compare := fun op _ _ v w => .boolean (if op = .equal then compareTexts v w else v != w)
    compare_equal_comm := fun _ _ v w => by simp [compareTexts_comm v w] }

/-- The orders whose bytes are those of an upper-case letter, with the lines equal to them. -/
def bytesPlan : LogicalPlan Unit :=
  withLines (ordersEqual (.literal ⟨some .binary, false⟩ (.binary [65])))

def textsDatabase : Database
  | 1, 1 => [fun _ => .utf8 "A"]
  | 1, 2 => [fun _ => .utf8 "a"]
  | _, _ => []

theorem planned_withLines {plan : LogicalPlan Unit} (h : plan.Planned) (hshows : plan.Shows)
    (htables : lines ∉ plan.planTables) : (withLines plan).Planned := by
  refine ⟨h, ⟨rfl, rfl⟩, ⟨hshows, ?_, ?_⟩, by rintro _ ⟨⟩; rfl⟩
  · simp [Shows, Label.Within]
  · simpa [sampleScan] using htables

theorem planned_ordersEqual (value : BoundExpr) : (withLines (ordersEqual value)).Planned := by
  have h : (ordersEqual value).Planned := ⟨rfl, rfl⟩
  apply planned_withLines h
  · simp [Shows, ordersEqual, Label.Within]
  · simp [ordersEqual, sampleScan, orders, lines]

theorem planned_derivedPlan : derivedPlan.Planned := by
  have hapart : chosenPlan.Apart (.scan (sampleScan orders)) := by
    constructor
    · simp [Shows, chosenPlan, Label.Within]
    · simp [Shows, Label.Within]
    · simp [chosenPlan, sampleScan, orders]
  have h : (join chosenPlan (.scan (sampleScan orders)) .cross none).Planned :=
    ⟨⟨rfl, rfl⟩, ⟨rfl, rfl⟩, hapart, by simp⟩
  apply planned_withLines h
  · simp [Shows, chosenPlan, Label.Within]
  · simp [chosenPlan, sampleScan, orders, lines]

/-- Order 5, with its lines. -/
def fifthPlan : LogicalPlan Unit := withLines (ordersEqual (sampleLiteral 5))

theorem subplan_fifthPlan {Q : LogicalPlan Unit → Prop} (h : Q fifthPlan)
    (hscan : ∀ source, Q (.scan source)) : ∀ sub, Subplan sub fifthPlan → Q sub := by
  have hscans (source : Scan) : ∀ sub, Subplan sub (.scan source) → Q sub :=
    forall_subplan_iff.mpr ⟨hscan source, nofun⟩
  refine forall_subplan_iff.mpr ⟨h, forall_mem_cons.mpr ⟨hscans _, ?_⟩⟩
  exact forall_mem_singleton.mpr (hscans _)

theorem keeps_sampleEquals {left right : BoundExpr} {row : Row} {type : ExprType} :
    sample.keeps (.binary type .equal left right) row = true ↔
      sample.eval row left = sample.eval row right ∧ sample.eval row left ≠ .null := by
  change (sample.truth (evaluateComparison (fun v w => .boolean (v == w)) (sample.eval row left)
    (sample.eval row right)) == some true) = true ↔ _
  generalize sample.eval row left = v, sample.eval row right = w
  unfold evaluateComparison
  split
  · rename_i hnull
    constructor
    · intro h
      cases h
    · rintro ⟨rfl, hv⟩
      simp [hv] at hnull
  · rename_i hvalues
    simp only [sample.truth_boolean, not_or] at hvalues ⊢
    simp [hvalues]

theorem joinEqualities_sample : joinEqualities (sampleEquals (sampleColumn lines)
    (sampleColumn orders)) = [(⟨⟨lines, 1⟩, false⟩, ⟨⟨orders, 1⟩, false⟩)] := by
  decide +kernel

theorem outerApart_fifthPlan : fifthPlan.OuterApart := by
  intro pair hpair
  obtain rfl := mem_singleton.mp (joinEqualities_sample ▸ hpair)
  simp

theorem scoped_fifthPlan : fifthPlan.Scoped := by
  have hstrays : (ordersEqual (sampleLiteral 5)).gathered.strays = [] := by decide +kernel
  intro source target _
  exact ⟨fun _ => hstrays ▸ not_mem_nil, fun _ => not_mem_nil⟩

theorem carriesOver_fifthPlan (db : Database) :
    fifthPlan.CarriesOver integerColumns sample sampleOperators db := by
  intro row hrow source target hties _ expr column value hexpr hkey htold hkeeps
  obtain ⟨l, hl, hrow⟩ := mem_flatMap.mp hrow
  obtain ⟨r, hr, rfl⟩ := mem_map.mp hrow
  have hon : sample.keeps (sampleEquals (sampleColumn lines) (sampleColumn orders)) (l ++ r) =
      true := by simpa [holds] using (mem_filter.mp hr).2
  rcases htold with ⟨-, ⟨hfact⟩⟩ | ⟨-, ⟨hfact⟩⟩
  · have hfacts : (ordersEqual (sampleLiteral 5)).gathered.facts =
        [sampleEquals (sampleColumn orders) (sampleLiteral 5)] := by decide +kernel
    obtain rfl := mem_singleton.mp (hfacts ▸ hfact)
    obtain ⟨rfl, rfl⟩ : ⟨⟨orders, 1⟩, false⟩ = column ∧ Value.int64 5 = value := by
      simpa [constantComparison, sampleEquals, sampleColumn, sampleLiteral] using hexpr
    simp only [Ties, joinEqualities_sample, mem_singleton, Prod.mk.injEq] at hties
    rcases hties with ⟨rfl, -⟩ | ⟨rfl, -⟩
    · exact absurd hkey (by decide)
    · rw [sampleEquals, keeps_sampleEquals] at hkeeps hon
      exact keeps_sampleEquals.mpr ⟨hon.1.trans hkeeps.1, hon.2⟩
  · cases hfact

end LogicalPlan

end Pintail.Exec
