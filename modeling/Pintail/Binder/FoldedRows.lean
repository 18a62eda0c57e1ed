import Pintail.Binder.Spread

/-! # Rows in which a derived table stands for a folded relation

A row of the derived table is read like any row of the group it stands for, so what the other joins
and the conditions above make of it depends on the grouped columns only.
-/

namespace Pintail.Binder

open Exec List Aggregation BoundJoin BoundTable Row

variable {δ : Type} {ev : Evaluation} {ops : Operators δ} {db : Database}

section Chain

variable {target derived : BoundTable δ} {grouped : List BoundColumn} {row row' : Row}
  {expr : BoundExpr}

/-- An expression that reads the folded relation at grouped columns only. -/
def Movable (target derived : BoundTable δ) (grouped : List BoundColumn) (expr : BoundExpr) :
    Prop :=
  ∃ columns, columnsOf expr = some columns ∧ ∀ c ∈ columns, Rebindable target derived grouped c

variable (hev : Respects ev (reboundColumn target grouped derived))

include hev

theorem Movable.eval (h : Alike target derived grouped row row')
    (hexpr : Movable target derived grouped expr) :
    ev.eval row' (rebind target grouped derived expr) = ev.eval row expr := by
  obtain ⟨columns, hcolumns, hrebindable⟩ := hexpr
  exact (eval_rebind hev h expr hcolumns hrebindable).2

theorem Movable.keeps (h : Alike target derived grouped row row')
    (hexpr : Movable target derived grouped expr) :
    ev.keeps (rebind target grouped derived expr) row' = ev.keeps expr row := by
  rw [Evaluation.keeps, Evaluation.keeps, hexpr.eval hev h]

variable {condition : Option BoundExpr}

theorem holds_rebind (h : Alike target derived grouped row row')
    (hcondition : ∀ expr ∈ condition, Movable target derived grouped expr) :
    holds ev (condition.map (rebind target grouped derived)) row' = holds ev condition row := by
  cases condition with
  | none => rfl
  | some expr => exact (hcondition expr rfl).keeps hev h

/-- A join with another relation whose condition can be rebound. -/
structure Foreign (target derived : BoundTable δ) (grouped : List BoundColumn)
    (join : BoundJoin δ) : Prop where
  inner : join.kind = .inner
  ne_target : target.key ∉ [join.table.key]
  ne_derived : derived.key ∉ [join.table.key]
  movable : ∀ expr ∈ join.condition, Movable target derived grouped expr

variable {joins : List (BoundJoin δ)}

/-- What the joins make of two rows read alike is read alike, and is the same for the same row. -/
theorem forall₂_extendAll (hjoins : ∀ join ∈ joins, Foreign target derived grouped join)
    (h : Alike target derived grouped row row') :
    List.Forall₂ (fun one other => Alike target derived grouped one other ∧ (row = row' → one = other))
      (extendAll ev ops db (joins.map link) row) (extendAll ev ops db
        (joins.map fun join => (join.rebind target grouped derived).link) row') := by
  induction joins generalizing row row' with
  | nil => exact .cons ⟨h, id⟩ .nil
  | cons join rest ih =>
    obtain ⟨hjoin, hrest⟩ := forall_mem_cons.mp hjoins
    have happend : ∀ other ∈ join.table.relationPlan.rows ev ops db,
        Alike target derived grouped (row ++ other) (row' ++ other) := fun other hother =>
      h.append (within_rows hother) hjoin.ne_target hjoin.ne_derived
    have hfilter : (join.table.relationPlan.rows ev ops db).filter (fun other => holds ev
          (join.condition.map (rebind target grouped derived)) (row' ++ other)) =
        (join.table.relationPlan.rows ev ops db).filter fun other =>
          holds ev join.condition (row ++ other) :=
      filter_congr fun other hother => holds_rebind hev (happend other hother) hjoin.movable
    refine rel_flatMap
      (R := fun one other => Alike target derived grouped one other ∧ (row = row' → one = other))
      ?_ fun _ _ hmiddle => (ih hrest hmiddle.1).imp fun _ _ hend =>
        ⟨hend.1, fun heq => hend.2 (hmiddle.2 heq)⟩
    rw [outputs_of_inner (show join.link.kind = .inner from hjoin.inner),
      outputs_of_inner (show (join.rebind target grouped derived).link.kind = .inner from
        hjoin.inner)]
    simp only [SpineJoin.matched, BoundJoin.link, BoundJoin.rebind, hfilter]
    rw [forall₂_map_left_iff, forall₂_map_right_iff, forall₂_same]
    exact fun other hother =>
      ⟨happend other (mem_of_mem_filter hother), fun heq => by rw [heq]⟩

omit hev

theorem exists_of_joins (h : row' ∈ extendAll ev ops db (joins.map link) row) :
    ∃ extra, row' = row ++ extra ∧ extra.Within (joins.map (·.table.key)) := by
  have hshows : ∀ link ∈ joins.map BoundJoin.link, link.right.Shows := by
    intro link hlink
    obtain ⟨join, -, rfl⟩ := mem_map.mp hlink
    exact join.table.shows_relationPlan
  obtain ⟨extra, rfl, hextra⟩ := exists_of_extendAll hshows h
  refine ⟨extra, rfl, fun entry hentry => (hextra entry hentry).mono fun key hkey => ?_⟩
  obtain ⟨link, hlink, hkey⟩ := mem_flatMap.mp hkey
  obtain ⟨join, hjoin, rfl⟩ := mem_map.mp hlink
  rw [join.table.planTables_relationPlan key hkey]
  exact mem_map_of_mem hjoin

/-- What the joins after a relation and the conditions above make of a row. -/
def blockRows (ev : Evaluation) (ops : Operators δ) (db : Database) (condition : Option BoundExpr)
    (after : List (SpineJoin δ)) (keep : Row → Bool) (row : Row) :
    List Row :=
  if holds ev condition row then (extendAll ev ops db after row).filter keep else []

theorem filter_extendAll (before after : List (SpineJoin δ)) {link : SpineJoin δ}
    (hkind : link.kind = .inner) (keep : Row → Bool) :
    (extendAll ev ops db (before ++ link :: after) []).filter keep =
      (extendAll ev ops db before []).flatMap fun first =>
        (link.right.rows ev ops db).flatMap fun other =>
          blockRows ev ops db link.condition after keep (first ++ other) := by
  rw [extendAll_append, filter_flatMap]
  apply flatMap_congr
  intro first _
  rw [extendAll, outputs_of_inner hkind, SpineJoin.matched, flatMap_map,
    Grouped.flatMap_filter_eq, filter_flatMap]
  apply flatMap_congr
  intro other _
  unfold blockRows
  split <;> simp_all

theorem Alike.fold {first other other' : Row} {tables : List TableKey}
    (hfirst : first.Within tables) (htarget : target.key ∉ tables) (hderived : derived.key ∉ tables)
    (hother : other.Within [target.key]) (hother' : other'.Within [derived.key])
    (hrebound : ∀ columnId index, grouped.findIdx? (·.key.columnId == columnId) = some index →
      other.get (.column ⟨target.key, columnId⟩) =
        other'.get (.column (derived.column index).key)) :
    Alike target derived grouped (first ++ other) (first ++ other') where
  others key hne hne' := by
    have hnone : other.lookup (.column key) = none :=
      lookup_eq_none_iff.mpr fun value hmem => hne (mem_singleton.mp (hother _ hmem))
    have hnone' : other'.lookup (.column key) = none :=
      lookup_eq_none_iff.mpr fun value hmem => hne' (mem_singleton.mp (hother' _ hmem))
    rw [lookup_append, lookup_append, hnone, hnone']
  rebound columnId index hindex := by
    have hleft : get (first ++ other) (.column ⟨target.key, columnId⟩) =
        other.get (.column ⟨target.key, columnId⟩) :=
      get_append_right fun value hmem => htarget (hfirst _ hmem)
    have hright : get (first ++ other') (.column (derived.column index).key) =
        other'.get (.column (derived.column index).key) :=
      get_append_right fun value hmem => hderived (hfirst _ hmem)
    rw [hleft, hright]
    exact hrebound columnId index hindex

theorem forall₂_blockRows (hev : Respects ev (reboundColumn target grouped derived))
    (hjoins : ∀ join ∈ joins, Foreign target derived grouped join)
    (hcondition : ∀ expr ∈ condition, Movable target derived grouped expr) {kept : List BoundExpr}
    (hkept : ∀ expr ∈ kept, Movable target derived grouped expr)
    (h : Alike target derived grouped row row') :
    List.Forall₂ (Alike target derived grouped)
      (blockRows ev ops db condition (joins.map link)
        (fun row => kept.all (ev.keeps · row)) row)
      (blockRows ev ops db (condition.map (rebind target grouped derived))
        (joins.map fun join => (join.rebind target grouped derived).link)
        (fun row => (kept.map (rebind target grouped derived)).all (ev.keeps · row)) row') := by
  unfold blockRows
  rw [holds_rebind hev h hcondition]
  split
  · refine Grouped.forall₂_filter (fun one other halike => ?_)
      ((forall₂_extendAll hev hjoins h).imp fun _ _ halike => halike.1)
    rw [all_map]
    exact LogicalPlan.all_congr_of_mem fun expr hexpr => ((hkept expr hexpr).keeps hev halike).symm
  · exact .nil

end Chain

section Fold

variable {target derived : BoundTable δ} {grouped : List BoundColumn}

def ReadsTarget (target : BoundTable δ) (expr : BoundExpr) : Prop :=
  ∃ columns, columnsOf expr = some columns ∧ ∀ c ∈ columns, target.owns c = true

variable {column : BoundColumn} {first other : Row} {tables : List TableKey}

theorem BoundTable.table_of_owns (h : target.owns column = true) :
    column.outer = false ∧ column.key.table = target.key := by
  simpa [owns] using h

theorem ReadsTarget.eval {expr : BoundExpr} (h : ReadsTarget target expr) {extra : Row}
    {tables' : List TableKey} (hfirst : first.Within tables) (htables : target.key ∉ tables)
    (hextra : extra.Within tables') (htables' : target.key ∉ tables') :
    ev.eval (first ++ other ++ extra) expr = ev.eval other expr := by
  obtain ⟨columns, hcolumns, howns⟩ := h
  apply eval_of_columns hcolumns
  intro column hcolumn _
  have htable := (table_of_owns (howns column hcolumn)).2
  have hleft : get (first ++ other ++ extra) (.column column.key) =
      get (first ++ other) (.column column.key) :=
    get_append_left fun value hmem => htables' (htable ▸ hextra _ hmem)
  rw [hleft]
  exact get_append_right fun value hmem => htables (htable ▸ hfirst _ hmem)

variable {κ ν : Type} [DecidableEq κ] [AddCommMonoid ν] {agg : Aggregation κ ν}
  {embed : BoundAggregate → δ} {catalog : ColumnKey → DataType × Bool}
  {aggregates : List BoundAggregate}

def groupedExprs (catalog : ColumnKey → DataType × Bool) (grouped : List BoundColumn) :
    List BoundExpr :=
  grouped.map fun column => .column ⟨some (catalog column.key).1, (catalog column.key).2⟩ column

/-- What makes rows of the folded relation one group. -/
def foldKey (agg : Aggregation κ ν) (ev : Evaluation) (catalog : ColumnKey → DataType × Bool)
    (grouped : List BoundColumn) (row : Row) : κ :=
  agg.groupKey (groupedExprs catalog grouped)
    (keysOf ev (groupedExprs catalog grouped) row)

def foldedRow (agg : Aggregation κ ν) (ev : Evaluation) (catalog : ColumnKey → DataType × Bool)
    (grouped : List BoundColumn) (aggregates : List BoundAggregate) (key : TableKey)
    (group : Row × List Row) : Row :=
  (derivedLabels key (grouped.length + aggregates.length)).zip
    (keysOf ev (groupedExprs catalog grouped) group.1 ++
      agg.summaries ev aggregates group.2)

theorem rows_folded (hops : Aggregates agg ev ops embed) (hgrouped : grouped ≠ [])
    {filter : Option BoundExpr} (hinput : derived.input =
      some ((foldQuery catalog target filter grouped aggregates).plan embed))
    (hcolumns : derived.columnIds = (List.range (grouped.length + aggregates.length)).map (· + 1)) :
    derived.relationPlan.rows ev ops db =
      (Grouped.groupsOf (foldKey agg ev catalog grouped)
        ((target.relationPlan.rows ev ops db).filter (holds ev filter))).map
          (foldedRow agg ev catalog grouped aggregates derived.key) := by
  conv_lhs => unfold BoundTable.relationPlan
  simp only [hinput, hcolumns, LogicalPlan.rows, values_foldQuery hops hgrouped]
  have hexprs : (foldQuery catalog target filter grouped aggregates).groupBy =
      groupedExprs catalog grouped := rfl
  have hne : (groupedExprs catalog grouped).isEmpty = false := by
    simpa [groupedExprs] using hgrouped
  rw [hexprs, aggregateRows, hne, labelled]
  simp only [Bool.false_eq_true, if_false, map_map]
  rfl

variable {group : Row × List Row} {index : ℕ}

theorem within_foldedRow (key : TableKey) :
    (foldedRow agg ev catalog grouped aggregates key group).Within [key] := by
  intro entry hentry
  obtain ⟨label, value⟩ := entry
  obtain ⟨index, -, rfl⟩ := mem_map.mp (of_mem_zip hentry).1
  exact mem_singleton_self _

theorem get_foldedRow_grouped
    (hcolumns : derived.columnIds = (List.range (grouped.length + aggregates.length)).map (· + 1))
    (hcolumn : grouped[index]? = some column) (houter : column.outer = false) :
    (foldedRow agg ev catalog grouped aggregates derived.key group).get
      (.column (derived.column index).key) = group.1.get (.column column.key) := by
  obtain ⟨hindex, hget⟩ := List.getElem?_eq_some_iff.mp hcolumn
  apply get_derived hcolumns (by omega)
  rw [getElem?_append_left (by simpa [keysOf, groupedExprs] using hindex)]
  simp [keysOf, groupedExprs, hcolumn, houter]

theorem get_foldedRow_aggregate
    (hcolumns : derived.columnIds = (List.range (grouped.length + aggregates.length)).map (· + 1))
    {aggregate : BoundAggregate} (hentry : (aggregate, index) ∈ aggregates.zipIdx) :
    (foldedRow agg ev catalog grouped aggregates derived.key group).get
      (.column (derived.column (grouped.length + index)).key) =
        agg.summary aggregate (group.2.map (valueOf ev aggregate)) := by
  have hget := mem_zipIdx_iff_getElem?.mp hentry
  obtain ⟨hindex, -⟩ := List.getElem?_eq_some_iff.mp hget
  apply get_derived hcolumns (by simpa using hindex)
  have hlength : (keysOf ev (groupedExprs catalog grouped) group.1).length =
      grouped.length := by simp [keysOf, groupedExprs]
  rw [getElem?_append_right (by omega), hlength]
  simp [summaries, hget, valuesOf_eq_map]

/-- Values that group alike by columns compared by value are the same. -/
def GroupsByValue (agg : Aggregation κ ν) : Prop :=
  ∀ exprs values values', (∀ expr ∈ exprs, byValue expr.dataType = true) →
    values.length = exprs.length → values'.length = exprs.length →
    agg.groupKey exprs values = agg.groupKey exprs values' → values = values'

omit [DecidableEq κ] [AddCommMonoid ν] in
theorem get_of_foldKey (hgroups : GroupsByValue agg)
    (hvalue : ∀ c ∈ grouped, byValue (some (catalog c.key).1) = true)
    (howns : ∀ c ∈ grouped, target.owns c = true) {row row' : Row}
    (h : foldKey agg ev catalog grouped row = foldKey agg ev catalog grouped row')
    (hcolumn : column ∈ grouped) :
    row.get (.column column.key) = row'.get (.column column.key) := by
  have hkeys := hgroups _ _ _ ?_ (by simp [keysOf]) (by simp [keysOf]) h
  · simp only [keysOf, groupedExprs, map_map, map_inj_left] at hkeys
    have houter := (table_of_owns (howns column hcolumn)).1
    simpa [houter] using hkeys column hcolumn
  · intro expr hexpr
    obtain ⟨c, hc, rfl⟩ := mem_map.mp hexpr
    exact hvalue c hc

theorem alike_foldedRow (hgroups : GroupsByValue agg)
    (hvalue : ∀ c ∈ grouped, byValue (some (catalog c.key).1) = true)
    (howns : ∀ c ∈ grouped, target.owns c = true)
    (hcolumns : derived.columnIds = (List.range (grouped.length + aggregates.length)).map (· + 1))
    (hfirst : first.Within tables) (htarget : target.key ∉ tables) (hderived : derived.key ∉ tables)
    (hother : other.Within [target.key])
    (hkey : foldKey agg ev catalog grouped other = foldKey agg ev catalog grouped group.1) :
    Alike target derived grouped (first ++ other)
      (first ++ foldedRow agg ev catalog grouped aggregates derived.key group) := by
  apply Alike.fold hfirst htarget hderived hother (within_foldedRow _)
  intro columnId index hindex
  obtain ⟨hlt, hid, -⟩ := findIdx?_eq_some_iff_getElem.mp hindex
  have hmem : grouped[index] ∈ grouped := getElem_mem hlt
  obtain ⟨houter, htable⟩ := table_of_owns (howns _ hmem)
  have hcolumn : grouped[index].key = ⟨target.key, columnId⟩ := by
    rw [← htable, ← eq_of_beq hid]
  rw [get_foldedRow_grouped hcolumns (getElem?_eq_getElem hlt) houter, ← hcolumn]
  exact get_of_foldKey hgroups hvalue howns hkey hmem

end Fold

end Pintail.Binder
