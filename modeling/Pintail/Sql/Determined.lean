import Pintail.Sql.Dependency

/-! # What the decided columns hold in a group

A row of the joined relations takes from each relation one of its stored rows, or none where an
outer join found no match. The columns the analysis reports are the same in all rows of a group
exactly when its rules hold on the data: grouping and comparing tie equal values, and the rows of
a group have all matched an optional relation or all missed it.
-/

namespace Pintail.Sql

open List GroupedQuery Function Bool Binder

open Exec (BoundExpr BoundColumn JoinKind)

variable {δ : Type}

/-- The stored row of each relation, if any. -/
abbrev JoinedRow := String → Option (ℕ → Value)

def JoinedRow.value (row : JoinedRow) (key : DependencyKey) : Value :=
  match row key.1 with
  | some stored => stored key.2
  | none => .null

/-- The contents of the relations, what evaluating a predicate on a row gave, and which rows the
grouping takes to have equal values of an expression. -/
structure Reading where
  contents : String → List (ℕ → Value)
  truth : BoundExpr → JoinedRow → Bool
  same : BoundExpr → JoinedRow → JoinedRow → Bool

namespace Reading

variable (reading : Reading)

def holds (condition : Option BoundExpr) (row : JoinedRow) : Bool :=
  condition.all (reading.truth · row)

def joinOne (join : BoundJoin δ) (left : JoinedRow) : List JoinedRow :=
  let place := fun stored => update left (relationKey join.table) stored
  let found := (reading.contents (relationKey join.table)).filter fun stored =>
    reading.holds join.condition (place (some stored))
  match join.kind with
  | .inner | .cross => found.map fun stored => place (some stored)
  | .left | .scalar =>
    if found.isEmpty then [place none] else found.map fun stored => place (some stored)
  | .semi => if found.isEmpty then [] else [left]
  | .anti => if found.isEmpty then [left] else []

def joinRows (rows : List JoinedRow) (joins : List (BoundJoin δ)) : List JoinedRow :=
  joins.foldl (fun rows join => rows.flatMap (reading.joinOne join)) rows

def sourceRows (source : BoundFrom δ) : List JoinedRow :=
  reading.joinRows ((reading.contents (relationKey source.base)).map fun stored =>
    update (fun _ => none) (relationKey source.base) (some stored)) source.joins

def merge (left right : JoinedRow) : JoinedRow :=
  fun relation => (left relation).or (right relation)

def productRows : List (BoundFrom δ) → List JoinedRow
  | [] => [fun _ => none]
  | source :: sources =>
    (reading.sourceRows source).flatMap fun left => (productRows sources).map (merge left)

def rows (query : GroupedQuery δ) : List JoinedRow :=
  (reading.productRows query.sources).filter (reading.holds query.filter)

structure Together (query : GroupedQuery δ) (row row' : JoinedRow) : Prop where
  left : row ∈ reading.rows query
  right : row' ∈ reading.rows query
  same : ∀ expr ∈ query.groupBy, reading.same expr row row' = true

/-- Stored keys are not `NULL` and belong to one row. -/
structure RespectsKeys (query : GroupedQuery δ) : Prop where
  notNull : ∀ table ∈ query.tables, ∀ stored ∈ reading.contents (relationKey table),
    ∀ id ∈ table.keyColumnIds, stored id ≠ .null
  unique : ∀ table ∈ query.tables, table.keyColumnIds ≠ [] →
    ∀ stored ∈ reading.contents (relationKey table),
    ∀ other ∈ reading.contents (relationKey table),
      (∀ id ∈ table.keyColumnIds, stored id = other id) →
      ∀ column ∈ table.columns, stored column.columnId = other column.columnId

end Reading

def AgreeOn (expr : BoundExpr) (row row' : JoinedRow) : Prop :=
  ∀ columns, exprColumns expr = some columns → ∀ column ∈ columns, column.outer = false →
    row.value (columnKey column) = row'.value (columnKey column)

def SingleValued (query : GroupedQuery δ) (reading : Reading) : Prop :=
  ∀ column, query.reports column = true → ∀ row row', reading.Together query row row' →
    row.value (columnKey column) = row'.value (columnKey column)

namespace GroupedQuery

variable (query : GroupedQuery δ)

mutual

/-- The columns the grouping keys decide, by the four rules of the analysis. -/
inductive Decided : DependencyKey → Prop
  | grouped {expr : BoundExpr} {column : BoundColumn} (hexpr : expr ∈ query.groupBy)
      (hplain : plainColumn expr = some column) : Decided (columnKey column)
  | equated {sides : BoundExpr × BoundExpr} {column : BoundColumn} {others : List BoundColumn}
      (hsides : sides ∈ query.filters.flatMap orientations)
      (hplain : plainColumn sides.1 = some column) (hothers : exprColumns sides.2 = some others)
      (hdecided : ∀ other ∈ others, other.outer = false → Decided (columnKey other)) :
      Decided (columnKey column)
  | keyed {table : BoundTable δ} {column : TableColumn} (htable : table ∈ query.tables)
      (hkey : table.keyColumnIds ≠ []) (hfixed : ∀ id ∈ table.keyColumnIds, KeyDecided table id)
      (hcolumn : column ∈ table.columns) : Decided (relationKey table, column.columnId)

/-- The key components of a relation that are decided: a column that cannot be `NULL` in a stored
row, or one of an optional relation, which an equality of its own join may pin as well. -/
inductive KeyDecided : BoundTable δ → ℕ → Prop
  | column {table : BoundTable δ} {id : ℕ} {column : TableColumn}
      (hfound : table.columns.find? (·.columnId == id) = some column)
      (hdecided : Decided (relationKey table, column.columnId))
      (hnull : column.nullable = false ∨ query.innerSide table = true) : KeyDecided table id
  | pinned {table : BoundTable δ} {id : ℕ} {column : TableColumn} {equality : BoundExpr × BoundExpr}
      {sides : BoundExpr × BoundExpr} {target : BoundColumn} {others : List BoundColumn}
      (hfound : table.columns.find? (·.columnId == id) = some column)
      (hinner : query.innerSide table = true)
      (hequality : (relationKey table, equality) ∈ query.outerEqualities)
      (hsides : sides ∈ orientations equality) (hplain : plainColumn sides.1 = some target)
      (htarget : columnKey target = (relationKey table, column.columnId))
      (hothers : exprColumns sides.2 = some others)
      (hforeign : ∀ other ∈ others, other.outer = false → (columnKey other).1 ≠ relationKey table)
      (hdecided : ∀ other ∈ others, other.outer = false → Decided (columnKey other)) :
      KeyDecided table id

end

/-- The grouping keys decide the columns an expression reads, none of them of the excluded
relation. -/
def Decides (exclude : Option String) (expr : BoundExpr) : Prop :=
  ∃ columns, exprColumns expr = some columns ∧ ∀ column ∈ columns, column.outer = false →
    exclude ≠ some (columnKey column).1 ∧ query.Decided (columnKey column)

def DecidesKey (table : BoundTable δ) : Prop :=
  table.keyColumnIds ≠ [] ∧ ∀ id ∈ table.keyColumnIds, query.KeyDecided table id

end GroupedQuery

/-- What the rules of the analysis take for granted about the rows of a group. -/
structure Alike (query : GroupedQuery δ) (reading : Reading) : Prop where
  /-- Grouping does not put different values of a grouping column together. -/
  grouped : ∀ row row', reading.Together query row row' → ∀ expr ∈ query.groupBy, ∀ column,
    plainColumn expr = some column → row.value (columnKey column) = row'.value (columnKey column)
  /-- An equality that every row satisfies gives equal columns for equal other sides. -/
  compared : ∀ sides ∈ query.filters.flatMap orientations, ∀ column,
    plainColumn sides.1 = some column → query.Decides none sides.2 →
    ∀ row row', reading.Together query row row' → AgreeOn sides.2 row row' →
      row.value (columnKey column) = row'.value (columnKey column)
  /-- An optional relation whose key is decided is matched by all rows or by none. -/
  matched : ∀ table ∈ query.tables, query.innerSide table = true → query.DecidesKey table →
    ∀ row row', reading.Together query row row' →
      ((row (relationKey table)).isSome ↔ (row' (relationKey table)).isSome)
  /-- An equality that pins a key component of such a relation gives matched rows equal
  components for equal other sides. -/
  pinned : ∀ table ∈ query.tables, query.innerSide table = true → query.DecidesKey table →
    ∀ equality, (relationKey table, equality) ∈ query.outerEqualities →
    ∀ sides ∈ orientations equality, ∀ id ∈ table.keyColumnIds, ∀ column,
    plainColumn sides.1 = some column → columnKey column = (relationKey table, id) →
    query.Decides (some (relationKey table)) sides.2 →
    ∀ row row', reading.Together query row row' → (row (relationKey table)).isSome →
      (row' (relationKey table)).isSome → AgreeOn sides.2 row row' →
      row.value (relationKey table, id) = row'.value (relationKey table, id)

namespace GroupedQuery

variable {query : GroupedQuery δ} {columns : Finset DependencyKey}

theorem subset_applyEquality (columns : Finset DependencyKey) (sides : BoundExpr × BoundExpr) :
    columns ⊆ applyEquality columns sides := by
  unfold applyEquality
  split
  · split
    · exact Finset.subset_insert _ _
    · exact Finset.Subset.refl _
  · exact Finset.Subset.refl _

theorem subset_applyTable (columns : Finset DependencyKey) (table : BoundTable δ) :
    columns ⊆ query.applyTable columns table := by
  unfold applyTable
  split
  · exact Finset.subset_union_left
  · exact Finset.Subset.refl _

theorem subset_step (columns : Finset DependencyKey) : columns ⊆ query.step columns :=
  (subset_foldl (fun s sides _ => subset_applyEquality s sides) columns).trans
    (subset_foldl (fun s table _ => subset_applyTable s table) _)

variable {sides : BoundExpr × BoundExpr} {table : BoundTable δ} {id : ℕ}

theorem applyEquality_subset (hsides : sides ∈ query.filters.flatMap orientations)
    (h : columns ⊆ query.candidates) : applyEquality columns sides ⊆ query.candidates := by
  unfold applyEquality
  split
  · rename_i column hcolumn
    split
    · refine Finset.insert_subset ?_ h
      simp only [candidates, Finset.mem_union, mem_toFinset, mem_map, mem_filterMap]
      exact .inl (.inr ⟨column, ⟨sides, hsides, hcolumn⟩, rfl⟩)
    · exact h
  · exact h

theorem columnKeys_subset (htable : table ∈ query.tables) :
    columnKeys table ⊆ query.candidates := by
  intro key hkey
  simp only [columnKeys, mem_toFinset] at hkey
  simp only [candidates, Finset.mem_union, mem_toFinset, mem_flatMap]
  exact .inr ⟨table, htable, hkey⟩

theorem step_subset (h : columns ⊆ query.candidates) : query.step columns ⊆ query.candidates := by
  refine foldl_subset (fun s hs table htable => ?_)
    (foldl_subset (fun s hs sides hsides => applyEquality_subset hsides hs) h)
  unfold applyTable
  split
  · exact Finset.union_subset hs (columnKeys_subset htable)
  · exact hs

theorem step_determinedColumns : query.step query.determinedColumns = query.determinedColumns := by
  refine step_saturate subset_step (fun s hs => step_subset hs) (u := query.candidates) ?_ ?_
  · intro key hkey
    simp only [candidates, Finset.mem_union]
    exact .inl (.inl hkey)
  · omega

theorem fold_equalities_determinedColumns :
    (query.filters.flatMap orientations).foldl applyEquality query.determinedColumns =
      query.determinedColumns := by
  apply Finset.Subset.antisymm
  · conv_rhs => rw [← step_determinedColumns]
    exact subset_foldl (fun s table _ => subset_applyTable s table) _
  · exact subset_foldl (fun s sides _ => subset_applyEquality s sides) _

theorem mem_determinedColumns_of_equality (hsides : sides ∈ query.filters.flatMap orientations)
    {column : BoundColumn} (hcolumn : plainColumn sides.1 = some column)
    (hdecided : decidedBy sides.2 query.determinedColumns none = true) :
    columnKey column ∈ query.determinedColumns := by
  have hfixed := add_eq_of_foldl_eq (fun s sides _ => subset_applyEquality s sides)
    (@fold_equalities_determinedColumns δ query) sides hsides
  rw [← hfixed]
  simp [applyEquality, hcolumn, hdecided]

theorem columnKeys_subset_determinedColumns (htable : table ∈ query.tables)
    (hdetermined : query.tableDetermined query.determinedColumns table = true) :
    columnKeys table ⊆ query.determinedColumns := by
  have hstep := @step_determinedColumns δ query
  unfold step at hstep
  rw [fold_equalities_determinedColumns] at hstep
  have hfixed := add_eq_of_foldl_eq (fun s table _ => subset_applyTable s table) hstep table htable
  conv_rhs => rw [← hfixed]
  rw [applyTable, if_pos hdetermined]
  exact Finset.subset_union_right

variable {expr : BoundExpr} {exclude : Option String}

theorem decidedBy_iff : decidedBy expr columns exclude = true ↔
    ∃ others, exprColumns expr = some others ∧ ∀ other ∈ others, other.outer = false →
      exclude ≠ some (columnKey other).1 ∧ columnKey other ∈ columns := by
  unfold decidedBy
  cases exprColumns expr with
  | none => simp
  | some others =>
    simp only [all_eq_true, or_eq_true, and_eq_true, bne_iff_ne, decide_eq_true_eq,
      Option.some.injEq, exists_eq_left']
    apply forall₂_congr
    intro other _
    cases other.outer <;> simp

mutual

theorem Decided.mem_determinedColumns : ∀ {key : DependencyKey}, query.Decided key →
    key ∈ query.determinedColumns
  | _, .grouped hexpr hplain => by
    apply subset_saturate subset_step
    exact mem_toFinset.mpr (mem_map_of_mem (mem_filterMap.mpr ⟨_, hexpr, hplain⟩))
  | _, .equated hsides hplain hothers hdecided => by
    apply mem_determinedColumns_of_equality hsides hplain
    exact decidedBy_iff.mpr ⟨_, hothers, fun other hother houter =>
      ⟨by simp, (hdecided other hother houter).mem_determinedColumns⟩⟩
  | _, .keyed htable hkey hfixed hcolumn => by
    apply columnKeys_subset_determinedColumns htable
    · simp only [tableDetermined, and_eq_true, all_eq_true]
      exact ⟨by simpa using hkey, fun id hid => (hfixed id hid).componentDetermined⟩
    · exact mem_toFinset.mpr (mem_map_of_mem hcolumn)

theorem KeyDecided.componentDetermined : ∀ {table : BoundTable δ} {id : ℕ},
    query.KeyDecided table id → query.componentDetermined query.determinedColumns table id = true
  | _, _, .column hfound hdecided hnull => by
    have hmem := hdecided.mem_determinedColumns
    simpa [GroupedQuery.componentDetermined, hfound, hmem] using hnull
  | table, _, .pinned hfound hinner hequality hsides hplain htarget hothers hforeign hdecided => by
    have hother := (@decidedBy_iff query.determinedColumns _ (some (relationKey table))).mpr
      ⟨_, hothers, fun other hother houter => ⟨by simpa using (hforeign other hother houter).symm,
        (hdecided other hother houter).mem_determinedColumns⟩⟩
    simp only [GroupedQuery.componentDetermined, hfound, hinner]
    split
    · simp
    · simp only [Bool.true_and, any_eq_true, and_eq_true, keyPinnedBy]
      exact ⟨_, hequality, by simp, _, hsides, by simp [hplain, htarget], hother⟩

end

theorem keyDecided_of_component (h : ∀ key ∈ columns, query.Decided key)
    (hcomponent : query.componentDetermined columns table id = true) :
    query.KeyDecided table id := by
  unfold componentDetermined at hcomponent
  split at hcomponent
  · simp at hcomponent
  rename_i column hfound
  split at hcomponent
  · rename_i hmem
    exact .column hfound (h _ hmem) (by simpa using hcomponent)
  · simp only [and_eq_true, any_eq_true, keyPinnedBy, beq_iff_eq, Option.any_eq_true] at hcomponent
    obtain ⟨hinner, ⟨joined, equality⟩, hequality, rfl, sides, hsides, ⟨target, hplain, htarget⟩,
      hdecided⟩ := hcomponent
    obtain ⟨others, hothers, hdecided⟩ := decidedBy_iff.mp hdecided
    exact .pinned hfound hinner hequality hsides hplain htarget hothers
      (fun other hother houter => by simpa using (hdecided other hother houter).1.symm)
      fun other hother houter => h _ (hdecided other hother houter).2

theorem decided_of_applyEquality (h : ∀ key ∈ columns, query.Decided key)
    (hsides : sides ∈ query.filters.flatMap orientations) :
    ∀ key ∈ applyEquality columns sides, query.Decided key := by
  unfold applyEquality
  split
  · rename_i column hplain
    split
    · rename_i hdecided
      obtain ⟨others, hothers, hdecided⟩ := decidedBy_iff.mp hdecided
      intro key hkey
      rcases Finset.mem_insert.mp hkey with rfl | hkey
      · exact .equated hsides hplain hothers fun other hother houter =>
          h _ (hdecided other hother houter).2
      · exact h key hkey
    · exact h
  · exact h

theorem decided_of_applyTable (h : ∀ key ∈ columns, query.Decided key)
    (htable : table ∈ query.tables) :
    ∀ key ∈ query.applyTable columns table, query.Decided key := by
  unfold applyTable
  split
  · rename_i hdetermined
    simp only [tableDetermined, and_eq_true, all_eq_true] at hdetermined
    intro key hkey
    rcases Finset.mem_union.mp hkey with hkey | hkey
    · exact h key hkey
    · obtain ⟨column, hcolumn, rfl⟩ := mem_map.mp (mem_toFinset.mp hkey)
      exact .keyed htable (by simpa using hdetermined.1)
        (fun id hid => keyDecided_of_component h (hdetermined.2 id hid)) hcolumn
  · exact h

theorem decided_of_mem_determinedColumns :
    ∀ key ∈ query.determinedColumns, query.Decided key := by
  let P := fun columns : Finset DependencyKey => ∀ key ∈ columns, query.Decided key
  apply saturate_induct (P := P)
  · intro s hs
    have hequalities := foldlRecOn (motive := P) (query.filters.flatMap orientations) applyEquality
      hs fun s hs sides hsides => decided_of_applyEquality hs hsides
    exact foldlRecOn (motive := P) _ _ hequalities fun s hs table htable =>
      decided_of_applyTable hs htable
  · intro key hkey
    simp only [groupColumns, mem_toFinset, mem_map, mem_filterMap] at hkey
    obtain ⟨column, ⟨expr, hexpr, hplain⟩, rfl⟩ := hkey
    exact .grouped hexpr hplain

/-- The analysis reports the columns its rules decide. -/
theorem mem_determinedColumns {key : DependencyKey} :
    key ∈ query.determinedColumns ↔ query.Decided key :=
  ⟨decided_of_mem_determinedColumns key, Decided.mem_determinedColumns⟩

theorem DecidesKey.decided (hkey : query.DecidesKey table) (htable : table ∈ query.tables)
    (hid : id ∈ table.keyColumnIds) : query.Decided (relationKey table, id) := by
  have hfound : ∃ column, table.columns.find? (·.columnId == id) = some column := by
    rcases hkey.2 id hid with ⟨hfound, -, -⟩ | ⟨hfound⟩
    · exact ⟨_, hfound⟩
    · exact ⟨_, hfound⟩
  obtain ⟨column, hfound⟩ := hfound
  have heq : column.columnId = id := by simpa using find?_some hfound
  exact heq ▸ .keyed htable hkey.1 hkey.2 (mem_of_find?_eq_some hfound)

end GroupedQuery

namespace Reading

variable {reading : Reading} {query : GroupedQuery δ} {join : BoundJoin δ}

theorem cases_of_mem_joinOne {left row : JoinedRow} (h : row ∈ reading.joinOne join left) :
    (∃ stored ∈ reading.contents (relationKey join.table),
        (join.kind ≠ .semi ∧ join.kind ≠ .anti) ∧
        row = update left (relationKey join.table) (some stored)) ∨
      ((join.kind = .left ∨ join.kind = .scalar) ∧
        ((reading.contents (relationKey join.table)).filter fun stored => reading.holds
          join.condition (update left (relationKey join.table) (some stored))) = [] ∧
        row = update left (relationKey join.table) none) ∨
      ((join.kind = .semi ∨ join.kind = .anti) ∧ row = left) := by
  unfold joinOne at h
  cases hkind : join.kind <;> simp only [hkind] at h
  case inner | cross =>
    obtain ⟨stored, hstored, rfl⟩ := mem_map.mp h
    exact .inl ⟨stored, mem_of_mem_filter hstored, by decide, rfl⟩
  case left | scalar =>
    split at h
    · exact .inr (.inl ⟨by decide, isEmpty_iff.mp ‹_›, mem_singleton.mp h⟩)
    · obtain ⟨stored, hstored, rfl⟩ := mem_map.mp h
      exact .inl ⟨stored, mem_of_mem_filter hstored, by decide, rfl⟩
  case semi | anti => split at h <;> simp_all

def Drawn (reading : Reading) (row : JoinedRow) : Prop :=
  ∀ relation stored, row relation = some stored → stored ∈ reading.contents relation

variable {row : JoinedRow}

theorem Drawn.update (h : reading.Drawn row) {relation : String} {stored : Option (ℕ → Value)}
    (hstored : ∀ s ∈ stored, s ∈ reading.contents relation) :
    reading.Drawn (update row relation stored) := by
  intro other found hfound
  by_cases heq : other = relation
  · subst heq
    rw [update_self] at hfound
    exact hstored found hfound
  · rw [update_of_ne heq] at hfound
    exact h other found hfound

variable {rows : List JoinedRow}

theorem Drawn.joinRows (h : ∀ row ∈ rows, reading.Drawn row) (joins : List (BoundJoin δ)) :
    ∀ row ∈ reading.joinRows rows joins, reading.Drawn row := by
  induction joins generalizing rows with
  | nil => exact h
  | cons join joins ih =>
    apply ih
    intro row hrow
    obtain ⟨left, hleft, hrow⟩ := mem_flatMap.mp hrow
    rcases cases_of_mem_joinOne hrow with ⟨stored, hstored, -, rfl⟩ | ⟨-, -, rfl⟩ | ⟨-, rfl⟩
    · exact (h left hleft).update (by simpa using hstored)
    · exact (h left hleft).update (by simp)
    · exact h row hleft

theorem drawn_productRows : ∀ (sources : List (BoundFrom δ)),
    ∀ row ∈ reading.productRows sources, reading.Drawn row
  | [], row, hrow => by
    obtain rfl := mem_singleton.mp hrow
    intro relation stored h
    simp at h
  | source :: sources, row, hrow => by
    obtain ⟨left, hleft, hrow⟩ := mem_flatMap.mp hrow
    obtain ⟨right, hright, rfl⟩ := mem_map.mp hrow
    have hl : reading.Drawn left := by
      refine Drawn.joinRows (fun row hrow => ?_) source.joins left hleft
      obtain ⟨stored, hstored, rfl⟩ := mem_map.mp hrow
      have hnone : reading.Drawn fun _ => none := fun _ _ h => by simp at h
      exact hnone.update (by simpa using hstored)
    intro relation stored h
    rcases Option.or_eq_some_iff.mp h with h | ⟨-, h⟩
    · exact hl relation stored h
    · exact drawn_productRows sources right hright relation stored h

theorem drawn_of_rows (h : row ∈ reading.rows query) : reading.Drawn row :=
  drawn_productRows query.sources row (mem_of_mem_filter h)

def Uniform (relation : String) (rows : List JoinedRow) : Prop :=
  (∀ row ∈ rows, (row relation).isSome) ∨ ∀ row ∈ rows, row relation = none

variable {relation : String}

theorem Uniform.of_left {rows rows' : List JoinedRow} (h : Uniform relation rows)
    (hrows : ∀ row' ∈ rows', ∃ row ∈ rows, row' relation = row relation) :
    Uniform relation rows' := by
  refine h.imp (fun h row' hrow' => ?_) fun h row' hrow' => ?_
  all_goals
    obtain ⟨row, hrow, heq⟩ := hrows row' hrow'
    rw [heq]
    exact h row hrow

theorem uniform_joinOne (hkind : relationKey join.table = relation →
      ¬ ((join.kind = .left ∨ join.kind = .scalar) ∧ join.condition.isSome))
    (hrows : Uniform relation rows) : Uniform relation (rows.flatMap (reading.joinOne join)) := by
  by_cases hself : relationKey join.table = relation ∧ join.kind ≠ .semi ∧ join.kind ≠ .anti
  · obtain ⟨rfl, hsemi, hanti⟩ := hself
    by_cases hempty : (join.kind = .left ∨ join.kind = .scalar) ∧
        reading.contents (relationKey join.table) = []
    · refine .inr fun row hrow => ?_
      obtain ⟨left, -, hrow⟩ := mem_flatMap.mp hrow
      rcases cases_of_mem_joinOne hrow with ⟨stored, hstored, -⟩ | ⟨-, -, rfl⟩ | ⟨h | h, -⟩
      · simp [hempty.2] at hstored
      · exact update_self _ _ _
      · exact absurd h hsemi
      · exact absurd h hanti
    · refine .inl fun row hrow => ?_
      obtain ⟨left, -, hrow⟩ := mem_flatMap.mp hrow
      rcases cases_of_mem_joinOne hrow with ⟨stored, -, -, rfl⟩ | ⟨houter, hfound, rfl⟩ | ⟨h | h, -⟩
      · simp
      · have hcondition : join.condition = none := by
          rw [← Option.not_isSome_iff_eq_none]
          exact fun h => hkind rfl ⟨houter, h⟩
        simp only [hcondition, holds, Option.all_none, filter_true] at hfound
        exact absurd ⟨houter, hfound⟩ hempty
      · exact absurd h hsemi
      · exact absurd h hanti
  · apply hrows.of_left
    intro row hrow
    obtain ⟨left, hleft, hrow⟩ := mem_flatMap.mp hrow
    refine ⟨left, hleft, ?_⟩
    by_cases heq : relationKey join.table = relation
    · rcases cases_of_mem_joinOne hrow with ⟨_, -, h, -⟩ | ⟨h | h, -⟩ | ⟨-, rfl⟩
      · exact absurd ⟨heq, h⟩ hself
      · exact absurd ⟨heq, by simp [h]⟩ hself
      · exact absurd ⟨heq, by simp [h]⟩ hself
      · rfl
    · rcases cases_of_mem_joinOne hrow with ⟨stored, -, -, rfl⟩ | ⟨-, -, rfl⟩ | ⟨-, rfl⟩
      · exact update_of_ne (Ne.symm heq) _ _
      · exact update_of_ne (Ne.symm heq) _ _
      · rfl

theorem uniform_sourceRows {source : BoundFrom δ}
    (hkind : ∀ join ∈ source.joins, relationKey join.table = relation →
      ¬ ((join.kind = .left ∨ join.kind = .scalar) ∧ join.condition.isSome)) :
    Uniform relation (reading.sourceRows source) := by
  have hbase : Uniform relation ((reading.contents (relationKey source.base)).map fun stored =>
      update (fun _ => none) (relationKey source.base) (some stored)) := by
    by_cases heq : relationKey source.base = relation
    · exact .inl (forall_mem_map.mpr fun stored _ => by simp [heq])
    · exact .inr (forall_mem_map.mpr fun stored _ => update_of_ne (Ne.symm heq) _ _)
  unfold sourceRows
  generalize (reading.contents (relationKey source.base)).map _ = rows at hbase ⊢
  generalize source.joins = joins at hkind ⊢
  induction joins generalizing rows with
  | nil => exact hbase
  | cons join joins ih =>
    rw [forall_mem_cons] at hkind
    exact ih _ (uniform_joinOne hkind.1 hbase) hkind.2

theorem uniform_productRows : ∀ {sources : List (BoundFrom δ)},
    (∀ join ∈ sources.flatMap (·.joins), relationKey join.table = relation →
      ¬ ((join.kind = .left ∨ join.kind = .scalar) ∧ join.condition.isSome)) →
    Uniform relation (reading.productRows sources)
  | [], _ => .inr (by simp [productRows])
  | source :: sources, hkind => by
    simp only [flatMap_cons, forall_mem_append] at hkind
    have hrest : Uniform relation (reading.productRows sources) := uniform_productRows hkind.2
    rcases @uniform_sourceRows δ reading _ _ hkind.1 with hall | hnone
    · refine .inl fun row hrow => ?_
      obtain ⟨left, hleft, hrow⟩ := mem_flatMap.mp hrow
      obtain ⟨right, -, rfl⟩ := mem_map.mp hrow
      simp [merge, hall left hleft]
    · apply hrest.of_left
      intro row hrow
      obtain ⟨left, hleft, hrow⟩ := mem_flatMap.mp hrow
      obtain ⟨right, hright, rfl⟩ := mem_map.mp hrow
      exact ⟨right, hright, by simp [merge, hnone left hleft]⟩

theorem uniform_rows {table : BoundTable δ} (hinner : query.innerSide table = false) :
    Uniform (relationKey table) (reading.rows query) := by
  have hkind : ∀ join ∈ query.sources.flatMap (·.joins),
      relationKey join.table = relationKey table →
      ¬ ((join.kind = .left ∨ join.kind = .scalar) ∧ join.condition.isSome) := by
    intro join hjoin heq houter
    apply of_decide_eq_false hinner
    simp only [nullSupplied, mem_map, mem_filter, decide_eq_true_eq]
    exact ⟨join, ⟨hjoin, houter⟩, heq⟩
  exact (uniform_productRows hkind).of_left fun row hrow =>
    ⟨row, mem_of_mem_filter hrow, rfl⟩

end Reading

section

variable {query : GroupedQuery δ} {reading : Reading} {row row' : JoinedRow}

theorem agreeOn_of_columns {expr : BoundExpr} {others : List BoundColumn}
    (hothers : exprColumns expr = some others) (h : ∀ other ∈ others, other.outer = false →
      row.value (columnKey other) = row'.value (columnKey other)) : AgreeOn expr row row' := by
  intro columns hcolumns
  obtain rfl := Option.some.inj (hothers.symm.trans hcolumns)
  exact h

theorem value_eq_of_key {table : BoundTable δ} (hkeys : reading.RespectsKeys query)
    (htogether : reading.Together query row row') (htable : table ∈ query.tables)
    (hne : table.keyColumnIds ≠ [])
    (hmatched : (row (relationKey table)).isSome ↔ (row' (relationKey table)).isSome)
    (hkey : ∀ id ∈ table.keyColumnIds, (row (relationKey table)).isSome →
      (row' (relationKey table)).isSome →
        row.value (relationKey table, id) = row'.value (relationKey table, id))
    {column : TableColumn} (hcolumn : column ∈ table.columns) :
    row.value (relationKey table, column.columnId) =
      row'.value (relationKey table, column.columnId) := by
  cases hrow : row (relationKey table) with
  | none =>
    have hrow' : row' (relationKey table) = none := by simpa [hrow] using hmatched
    simp [JoinedRow.value, hrow, hrow']
  | some stored =>
    obtain ⟨stored', hrow'⟩ := Option.isSome_iff_exists.mp (hmatched.mp (by simp [hrow]))
    have hcomponent : ∀ id ∈ table.keyColumnIds, stored id = stored' id := fun id hid => by
      simpa [JoinedRow.value, hrow, hrow'] using hkey id hid (by simp [hrow]) (by simp [hrow'])
    simpa [JoinedRow.value, hrow, hrow'] using hkeys.unique table htable hne stored
      (reading.drawn_of_rows htogether.left _ stored hrow) stored'
      (reading.drawn_of_rows htogether.right _ stored' hrow') hcomponent column hcolumn

theorem Alike.isSome_iff {table : BoundTable δ} (halike : Alike query reading)
    (htogether : reading.Together query row row') (htable : table ∈ query.tables)
    (hkey : query.DecidesKey table) :
    (row (relationKey table)).isSome ↔ (row' (relationKey table)).isSome := by
  cases hinner : query.innerSide table with
  | true => exact halike.matched table htable hinner hkey row row' htogether
  | false =>
    rcases reading.uniform_rows hinner with hall | hall
    · simp [hall row htogether.left, hall row' htogether.right]
    · simp [hall row htogether.left, hall row' htogether.right]

mutual

theorem Alike.value_eq (hkeys : reading.RespectsKeys query) (halike : Alike query reading)
    (htogether : reading.Together query row row') : ∀ {key : DependencyKey}, query.Decided key →
    row.value key = row'.value key
  | _, .grouped hexpr hplain => halike.grouped row row' htogether _ hexpr _ hplain
  | _, .equated hsides hplain hothers hdecided => by
    apply halike.compared _ hsides _ hplain _ row row' htogether
    · exact agreeOn_of_columns hothers fun other hother houter =>
        halike.value_eq hkeys htogether (hdecided other hother houter)
    · exact ⟨_, hothers, fun other hother houter => ⟨by simp, hdecided other hother houter⟩⟩
  | _, .keyed htable hkey hfixed hcolumn =>
    value_eq_of_key hkeys htogether htable hkey
      (halike.isSome_iff htogether htable ⟨hkey, hfixed⟩)
      (fun id hid => halike.key_eq hkeys htogether htable ⟨hkey, hfixed⟩ hid (hfixed id hid)) hcolumn

theorem Alike.key_eq (hkeys : reading.RespectsKeys query) (halike : Alike query reading)
    (htogether : reading.Together query row row') : ∀ {table : BoundTable δ} {id : ℕ},
    table ∈ query.tables → query.DecidesKey table → id ∈ table.keyColumnIds →
    query.KeyDecided table id → (row (relationKey table)).isSome →
    (row' (relationKey table)).isSome →
    row.value (relationKey table, id) = row'.value (relationKey table, id)
  | _, _, _, _, _, .column hfound hdecided _, _, _ => by
    have heq := find?_some hfound
    rw [beq_iff_eq] at heq
    exact heq ▸ halike.value_eq hkeys htogether hdecided
  | table, id, htable, hkey, hid, .pinned hfound hinner hequality hsides hplain htarget hothers
      hforeign hdecided, hrow, hrow' => by
    have heq := find?_some hfound
    rw [beq_iff_eq] at heq
    apply halike.pinned table htable hinner hkey _ hequality _ hsides id hid _ hplain
      (heq ▸ htarget) _ row row' htogether hrow hrow'
    · exact agreeOn_of_columns hothers fun other hother houter =>
        halike.value_eq hkeys htogether (hdecided other hother houter)
    · exact ⟨_, hothers, fun other hother houter =>
        ⟨by simpa using (hforeign other hother houter).symm, hdecided other hother houter⟩⟩

end

theorem SingleValued.value_eq (h : SingleValued query reading)
    (htogether : reading.Together query row row') {column : BoundColumn}
    (hdecided : query.Decided (columnKey column)) :
    row.value (columnKey column) = row'.value (columnKey column) := by
  refine h ⟨column.key, false⟩ ?_ row row' htogether
  simp only [reports, Bool.not_false, Bool.true_and, decide_eq_true_eq]
  exact mem_determinedColumns.mpr hdecided

theorem SingleValued.key_eq (h : SingleValued query reading)
    (htogether : reading.Together query row row') {table : BoundTable δ} {id : ℕ}
    (htable : table ∈ query.tables) (hkey : query.DecidesKey table)
    (hid : id ∈ table.keyColumnIds) :
    row.value (relationKey table, id) = row'.value (relationKey table, id) :=
  have hdecided := hkey.decided htable hid
  @SingleValued.value_eq _ _ _ _ _ h htogether ⟨⟨table.key, id⟩, false⟩ hdecided

theorem isSome_of_value {relation : String} {id : ℕ} (h : row.value (relation, id) ≠ .null) :
    (row relation).isSome := by
  cases hrow : row relation with
  | none => simp [JoinedRow.value, hrow] at h
  | some stored => rfl

theorem SingleValued.alike (hkeys : reading.RespectsKeys query)
    (h : SingleValued query reading) : Alike query reading where
  grouped row row' htogether expr hexpr column hplain :=
    h.value_eq htogether (.grouped hexpr hplain)
  compared sides hsides column hplain hdecides row row' htogether _ := by
    obtain ⟨others, hothers, hdecided⟩ := hdecides
    exact h.value_eq htogether
      (.equated hsides hplain hothers fun other hother houter => (hdecided other hother houter).2)
  matched table htable _ hkey row row' htogether := by
    obtain ⟨id, hid⟩ := exists_mem_of_ne_nil _ hkey.1
    have heq := h.key_eq htogether htable hkey hid
    have hpresent : ∀ {row : JoinedRow}, row ∈ reading.rows query →
        (row (relationKey table)).isSome → row.value (relationKey table, id) ≠ .null := by
      intro row hrow hsome
      obtain ⟨stored, hstored⟩ := Option.isSome_iff_exists.mp hsome
      simp only [JoinedRow.value, hstored]
      exact hkeys.notNull table htable stored (reading.drawn_of_rows hrow _ stored hstored) id hid
    constructor
    · exact fun hsome => isSome_of_value (heq ▸ hpresent htogether.left hsome)
    · exact fun hsome => isSome_of_value (heq ▸ hpresent htogether.right hsome)
  pinned table htable _ hkey _ _ _ _ id hid _ _ _ _ row row' htogether _ _ _ :=
    h.key_eq htogether htable hkey hid

end

/-- The reported columns of a grouped query have one value per group exactly when the rows of a
group are alike in what the analysis takes for granted. -/
theorem singleValued_iff (query : GroupedQuery δ) (reading : Reading)
    (hkeys : reading.RespectsKeys query) : SingleValued query reading ↔ Alike query reading := by
  constructor
  · exact SingleValued.alike hkeys
  · intro halike column hreports row row' htogether
    simp only [reports, and_eq_true, decide_eq_true_eq] at hreports
    exact halike.value_eq hkeys htogether (mem_determinedColumns.mp hreports.2)

def labelledRow (tables : List (BoundTable δ)) (row : JoinedRow) : Exec.Row :=
  tables.flatMap fun table => table.columns.map fun column =>
    (.column ⟨table.key, column.columnId⟩, row.value (relationKey table, column.columnId))

/-- Predicates are evaluated and grouping values compared exactly. -/
def Reading.evaluated (ev : Exec.Evaluation) (tables : List (BoundTable δ))
    (contents : String → List (ℕ → Value)) : Reading where
  contents := contents
  truth expr row := ev.keeps expr (labelledRow tables row)
  same expr row row' :=
    ev.eval (labelledRow tables row) expr == ev.eval (labelledRow tables row') expr

namespace Sample

def orders : BoundTable Unit :=
  ⟨⟨1, 1, "orders"⟩, [⟨1, false⟩, ⟨2, true⟩, ⟨3, true⟩], [1], none, none, none⟩

def products : BoundTable Unit :=
  ⟨⟨1, 2, "products"⟩, [⟨1, true⟩, ⟨2, true⟩], [1], none, none, none⟩

def column (table : BoundTable δ) (id : ℕ) : BoundExpr :=
  .column ⟨some .int64, true⟩ ⟨⟨table.key, id⟩, false⟩

def equals (left right : BoundExpr) : BoundExpr := .binary ⟨some .boolean, true⟩ .equal left right

/-- The orders by product, each product joined to the orders that are paid:
`FROM orders LEFT JOIN products ON products.id = orders.product AND orders.paid = 1
GROUP BY orders.product`. -/
def query : GroupedQuery Unit where
  groupBy := [column orders 2]
  sources := [⟨orders, [⟨false, .left, products, some (.binary ⟨some .boolean, true⟩ .and
    (equals (column products 1) (column orders 2))
    (equals (column orders 3) (.literal ⟨some .int64, false⟩ (.int64 1))))⟩]⟩]
  filter := none

/-- Two paid orders of product 7, or only the first of them paid. -/
def contents (second : Int64) : String → List (ℕ → Value)
  | "orders" => [fun id => .int64 (if id = 1 then 1 else if id = 2 then 7 else 1),
      fun id => .int64 (if id = 1 then 2 else if id = 2 then 7 else second)]
  | "products" => [fun id => if id = 1 then .int64 7 else .utf8 "pen"]
  | _ => []

def reading (second : Int64) : Reading := .evaluated .sample [orders, products] (contents second)

variable (second : Int64)

theorem mem_tables {table : BoundTable Unit} (h : table ∈ query.tables) :
    table = orders ∨ table = products := by
  simpa [query, tables, BoundFrom.relations] using h

theorem contents_orders :
    (reading second).contents (relationKey orders) = contents second "orders" :=
  congrArg (contents second) (by decide +kernel)

theorem contents_products :
    (reading second).contents (relationKey products) = contents second "products" :=
  congrArg (contents second) (by decide +kernel)

theorem respectsKeys : (reading second).RespectsKeys query where
  notNull := by
    intro table htable
    rcases mem_tables htable with rfl | rfl
    · simp [contents_orders, contents]
    · rw [contents_products]
      simp [contents, products]
  unique := by
    intro table htable _
    rcases mem_tables htable with rfl | rfl
    · rw [contents_orders]
      simp [contents, orders]
    · rw [contents_products]
      simp [contents]

/-- Every order of the product is paid, so that all of them find it. -/
theorem alike_paid : Alike query (reading 1) where
  grouped := by
    have hall : ∀ row ∈ (reading 1).rows query, ∀ row' ∈ (reading 1).rows query,
        row.value ("orders", 2) = row'.value ("orders", 2) := by decide +kernel
    intro row row' htogether expr hexpr column hplain
    obtain rfl := mem_singleton.mp hexpr
    obtain rfl := Option.some.inj hplain
    have hkey : columnKey ⟨⟨orders.key, 2⟩, false⟩ = ("orders", 2) := by decide +kernel
    rw [hkey]
    exact hall row htogether.left row' htogether.right
  compared := by
    intro sides hsides
    have hnone : query.filters.flatMap orientations = [] := rfl
    simp [hnone] at hsides
  matched := by
    have hall : ∀ row ∈ (reading 1).rows query,
        ∀ table ∈ [orders, products], (row (relationKey table)).isSome := by decide +kernel
    intro table htable _ _ row row' htogether
    simp [hall row htogether.left table (by simpa using mem_tables htable),
      hall row' htogether.right table (by simpa using mem_tables htable)]
  pinned := by
    have hall : ∀ row ∈ (reading 1).rows query, ∀ row' ∈ (reading 1).rows query,
        row.value (relationKey products, 1) = row'.value (relationKey products, 1) := by
      decide +kernel
    intro table htable hinner _ _ _ _ _ id hid _ _ _ _ row row' htogether _ _ _
    rcases mem_tables htable with rfl | rfl
    · exact absurd hinner (by decide +kernel)
    · obtain rfl := mem_singleton.mp hid
      exact hall row htogether.left row' htogether.right

/-- The paid order of product 7, with its product. -/
def paid : JoinedRow := ((reading 0).rows query).get ⟨0, by decide +kernel⟩

/-- The other order of product 7, without a product. -/
def unpaid : JoinedRow := ((reading 0).rows query).get ⟨1, by decide +kernel⟩

theorem together : (reading 0).Together query paid unpaid where
  left := get_mem _ _
  right := get_mem _ _
  same := by decide +kernel

theorem reports_name : query.reports ⟨⟨products.key, 2⟩, false⟩ = true := by decide +kernel

end Sample

open Sample

theorem singleValued_iff_sample :
    (reading 1).RespectsKeys query ∧ Alike query (reading 1) ∧
      query.reports ⟨⟨products.key, 2⟩, false⟩ = true ∧ SingleValued query (reading 1) :=
  ⟨respectsKeys 1, alike_paid, reports_name,
    (singleValued_iff query (reading 1) (respectsKeys 1)).mpr alike_paid⟩

/-- One group holds an order with its product and one without. -/
theorem pinned_column_has_two_values :
    (query.tables.map relationKey).Nodup ∧ (reading 0).RespectsKeys query ∧
      ¬ SingleValued query (reading 0) := by
  refine ⟨by decide +kernel, respectsKeys 0, fun h => ?_⟩
  have hdiffer : paid.value (columnKey ⟨⟨products.key, 2⟩, false⟩) ≠
      unpaid.value (columnKey ⟨⟨products.key, 2⟩, false⟩) := by
    decide +kernel
  exact hdiffer (h _ reports_name _ _ together)

end Pintail.Sql
