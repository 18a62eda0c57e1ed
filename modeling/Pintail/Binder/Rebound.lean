import Pintail.Binder.Query
import Pintail.Exec.BridgedRows

/-! # Rows with a folded relation

The rows of a query's source are those of its joins one after the other. A row in which a derived
table stands for the relation it folds is read alike: an expression that is rebound has the value
it had, when it reads the folded relation at the grouped columns only.
-/

namespace Pintail.Binder

open Exec Option BoundTable SpineJoin
open List hiding pure_def

variable {δ : Type} {ev : Evaluation} {ops : Operators δ} {db : Database}

def BoundJoin.link (join : BoundJoin δ) : SpineJoin δ :=
  ⟨join.kind, join.table.relationPlan, join.condition⟩

def BoundFrom.links (source : BoundFrom δ) : List (SpineJoin δ) :=
  ⟨.inner, source.base.relationPlan, none⟩ :: source.joins.map BoundJoin.link

theorem BoundFrom.rows_sourcePlan (source : BoundFrom δ) :
    source.sourcePlan.rows ev ops db = extendAll ev ops db source.links [] := by
  have hplan : source.sourcePlan =
      source.base.relationPlan.joinAll (source.joins.map BoundJoin.link) := by
    simp [sourcePlan, LogicalPlan.joinAll, foldl_map, BoundJoin.link]
  have hbase : outputs ev ops db ⟨.inner, source.base.relationPlan, none⟩ [] =
      source.base.relationPlan.rows ev ops db := by
    simp [outputs, joinOne, holds]
  rw [hplan, LogicalPlan.rows_joinAll, links, extendAll, hbase]

theorem BoundTable.shows_relationPlan (table : BoundTable δ) : table.relationPlan.Shows := by
  unfold relationPlan LogicalPlan.Shows
  split
  · intro label hlabel
    obtain ⟨reference, hreference, rfl⟩ := List.mem_map.mp hlabel
    exact List.mem_map_of_mem hreference
  · simp [Label.Within]

theorem BoundTable.planTables_relationPlan (table : BoundTable δ) :
    ∀ key ∈ table.relationPlan.planTables, key = table.key := by
  unfold relationPlan
  split <;> simp

theorem BoundTable.within_rows {table : BoundTable δ} {row : Row}
    (h : row ∈ table.relationPlan.rows ev ops db) : row.Within [table.key] := by
  intro entry hentry
  have hwithin := table.shows_relationPlan.within h entry hentry
  exact hwithin.mono fun key hkey => mem_singleton.mpr (table.planTables_relationPlan key hkey)

theorem outputs_of_inner {link : SpineJoin δ} (hkind : link.kind = .inner) (row : Row) :
    link.outputs ev ops db row = link.matched ev ops db row := by
  simp [outputs, matched, joinOne, hkind]

def Lists (columns : List BoundColumn) (labels : List Label) : Prop :=
  ∀ label ∈ labels, ∃ column ∈ columns, column.outer = false ∧ label = .column column.key

theorem Lists.append {first second : List BoundColumn} {labels labels' : List Label}
    (h : Lists first labels) (h' : Lists second labels') :
    Lists (first ++ second) (labels ++ labels') := by
  intro label hlabel
  rcases mem_append.mp hlabel with hlabel | hlabel
  · obtain ⟨column, hmem, hcolumn⟩ := h label hlabel
    exact ⟨column, mem_append_left _ hmem, hcolumn⟩
  · obtain ⟨column, hmem, hcolumn⟩ := h' label hlabel
    exact ⟨column, mem_append_right _ hmem, hcolumn⟩

mutual

theorem columnsOf_spec : ∀ {expr : BoundExpr} {columns : List BoundColumn},
    columnsOf expr = some columns → expr.containsSubquery = false ∧ Lists columns expr.reads
  | .column _ reference, columns, h => by
    cases h
    refine ⟨rfl, fun label hlabel => ⟨reference, mem_singleton_self _, ?_⟩⟩
    cases houter : reference.outer with
    | true => simp [houter] at hlabel
    | false => simpa [houter] using hlabel
  | .literal _ _, columns, h => ⟨rfl, fun label hlabel => absurd hlabel (by simp)⟩
  | .unary _ _ expr, columns, h | .isNull _ expr _, columns, h => @columnsOf_spec expr columns h
  | .binary _ _ left right, columns, h => by
    simp only [columnsOf, bind_eq_bind, bind_eq_some_iff, pure_def, some.injEq] at h
    obtain ⟨first, hfirst, second, hsecond, rfl⟩ := h
    obtain ⟨hleft, hreadsLeft⟩ := columnsOf_spec hfirst
    obtain ⟨hright, hreadsRight⟩ := columnsOf_spec hsecond
    exact ⟨by simp [hleft, hright], hreadsLeft.append hreadsRight⟩
  | .scalar _ _ args, columns, h => @columnsOfArgs_spec args columns h

theorem columnsOfArgs_spec : ∀ {args : BoundArgs} {columns : List BoundColumn},
    columnsOfArgs args = some columns → args.containsSubquery = false ∧ Lists columns args.reads
  | .nil, columns, h => ⟨rfl, fun label hlabel => absurd hlabel (by simp)⟩
  | .cons head tail, columns, h => by
    simp only [columnsOfArgs, bind_eq_bind, bind_eq_some_iff, pure_def, some.injEq] at h
    obtain ⟨first, hfirst, second, hsecond, rfl⟩ := h
    obtain ⟨hhead, hreadsHead⟩ := columnsOf_spec hfirst
    obtain ⟨htail, hreadsTail⟩ := columnsOfArgs_spec hsecond
    exact ⟨by simp [hhead, htail], hreadsHead.append hreadsTail⟩

end

theorem eval_of_columns {expr : BoundExpr} {columns : List BoundColumn}
    (h : columnsOf expr = some columns) {row row' : Row}
    (hrows : ∀ column ∈ columns, column.outer = false →
      row.get (.column column.key) = row'.get (.column column.key)) :
    ev.eval row expr = ev.eval row' expr := by
  obtain ⟨hsub, hreads⟩ := columnsOf_spec h
  apply ev.eval_congr expr hsub
  intro label hlabel
  obtain ⟨column, hmem, houter, rfl⟩ := hreads label hlabel
  exact hrows column hmem houter

/-- The operators compute of rebound operands what they computed of the operands themselves: they
see the declared types, which rebinding keeps. -/
structure Respects (ev : Evaluation) (f : BoundColumn → BoundColumn) : Prop where
  compare : ∀ op left right v w,
    ev.compare op (mapColumns f left) (mapColumns f right) v w = ev.compare op left right v w
  arithmetic : ∀ op type left right columns v w,
    ev.arithmetic op type (mapColumns f left) (mapColumns f right) columns v w =
      ev.arithmetic op type left right columns v w
  unary : ∀ op type expr columns v,
    ev.unary op type (mapColumns f expr) columns v = ev.unary op type expr columns v
  compareArgs : ∀ op args v w,
    ev.compareArgs op (mapColumnsArgs f args) v w = ev.compareArgs op args v w
  scalar : ∀ function type args columns values,
    ev.scalar function type (mapColumnsArgs f args) columns values =
      ev.scalar function type args columns values

variable {target derived : BoundTable δ} {grouped : List BoundColumn} {row row' : Row}

/-- A row with a folded relation and one with the derived table in its place. -/
structure Alike (target derived : BoundTable δ) (grouped : List BoundColumn) (row row' : Row) :
    Prop where
  others : ∀ key : ColumnKey, key.table ≠ target.key → key.table ≠ derived.key →
    row.lookup (.column key) = row'.lookup (.column key)
  rebound : ∀ columnId index, grouped.findIdx? (·.key.columnId == columnId) = some index →
    row.get (.column ⟨target.key, columnId⟩) = row'.get (.column (derived.column index).key)

/-- A column that is not of the folded relation, or is one of the grouped ones. -/
def Rebindable (target derived : BoundTable δ) (grouped : List BoundColumn)
    (column : BoundColumn) : Prop :=
  column.outer = true ∨ (column.key.table ≠ target.key ∧ column.key.table ≠ derived.key) ∨
    (target.owns column = true ∧ column.key.table = target.key ∧
      ∃ index, grouped.findIdx? (·.key.columnId == column.key.columnId) = some index)

variable {tables : List TableKey} {column : BoundColumn}

theorem Alike.append (h : Alike target derived grouped row row') {extra : Row}
    (hextra : extra.Within tables) (htarget : target.key ∉ tables)
    (hderived : derived.key ∉ tables) :
    Alike target derived grouped (row ++ extra) (row' ++ extra) where
  others key hne hne' := by
    rw [lookup_append, lookup_append, h.others key hne hne']
  rebound columnId index hindex := by
    have hleft : Row.get (row ++ extra) (.column ⟨target.key, columnId⟩) =
        row.get (.column ⟨target.key, columnId⟩) :=
      Row.get_append_left fun value hmem => htarget (hextra _ hmem)
    have hright : Row.get (row' ++ extra) (.column (derived.column index).key) =
        row'.get (.column (derived.column index).key) :=
      Row.get_append_left fun value hmem => hderived (hextra _ hmem)
    rw [hleft, hright]
    exact h.rebound columnId index hindex

theorem reboundColumn_of_not_owns (hown : target.owns column = false) :
    reboundColumn target grouped derived column = column := by
  simp [reboundColumn, hown]

theorem get_reboundColumn (h : Alike target derived grouped row row') {type : ExprType}
    (hcolumn : Rebindable target derived grouped column) :
    (BoundExpr.column type (reboundColumn target grouped derived column)).reads.map row'.get =
        (BoundExpr.column type column).reads.map row.get ∧
      ev.eval row' (.column type (reboundColumn target grouped derived column)) =
        ev.eval row (.column type column) := by
  rcases hcolumn with houter | ⟨hne, hne'⟩ | ⟨hown, htable, index, hindex⟩
  · rw [reboundColumn_of_not_owns (by simp [owns, houter])]
    simp [houter]
  · have hget : row'.get (.column column.key) = row.get (.column column.key) := by
      rw [Row.get, Row.get, h.others column.key hne hne']
    rw [reboundColumn_of_not_owns (by simp [owns, hne])]
    cases houter : column.outer <;> simp [hget]
  · have houter : column.outer = false := by
      simp only [owns, Bool.and_eq_true, Bool.not_eq_true'] at hown
      exact hown.1
    have hkey : column.key = ⟨target.key, column.key.columnId⟩ := by rw [← htable]
    have hget := h.rebound column.key.columnId index hindex
    rw [← hkey] at hget
    have hcolumn : reboundColumn target grouped derived column = derived.column index := by
      simp [reboundColumn, hown, hindex]
    rw [hcolumn]
    simp [houter, hget, BoundTable.column]

variable {f : BoundColumn → BoundColumn}

theorem Respects.evaluateBinary (hev : Respects ev f) (type : ExprType) (op : BinaryOp)
    (left right : BoundExpr) (columns : List Value) (v w : Value) :
    ev.evaluateBinary type op (mapColumns f left) (mapColumns f right) columns v w =
      ev.evaluateBinary type op left right columns v w := by
  have hcompare : ∀ op, ev.compare op (mapColumns f left) (mapColumns f right) =
      ev.compare op left right := fun op => funext₂ fun v w => hev.compare op left right v w
  have harithmetic : ∀ op, ev.arithmetic op type (mapColumns f left) (mapColumns f right) columns =
      ev.arithmetic op type left right columns :=
    fun op => funext₂ fun v w => hev.arithmetic op type left right columns v w
  simp [Evaluation.evaluateBinary, hcompare, harithmetic]

theorem Respects.evaluateScalar (hev : Respects ev f) (function : ScalarFunction) (type : ExprType)
    (args : BoundArgs) (columns values : List Value) :
    ev.evaluateScalar function type (mapColumnsArgs f args) columns values =
      ev.evaluateScalar function type args columns values := by
  have hcompare : ∀ op, ev.compareArgs op (mapColumnsArgs f args) = ev.compareArgs op args :=
    fun op => funext₂ fun v w => hev.compareArgs op args v w
  cases function <;> simp only [Evaluation.evaluateScalar, hcompare, hev.scalar]

mutual

/-- A rebound expression reads and gives in one row what the expression does in the other. -/
theorem eval_rebind (hev : Respects ev (reboundColumn target grouped derived))
    (h : Alike target derived grouped row row') : ∀ (expr : BoundExpr)
    {columns : List BoundColumn}, columnsOf expr = some columns →
    (∀ c ∈ columns, Rebindable target derived grouped c) →
    (rebind target grouped derived expr).reads.map row'.get = expr.reads.map row.get ∧
      ev.eval row' (rebind target grouped derived expr) = ev.eval row expr
  | .column type reference, columns, hcolumns, hc => by
    cases hcolumns
    exact get_reboundColumn h (hc reference (mem_singleton_self _))
  | .literal _ _, _, _, _ => by simp [rebind]
  | .unary type op expr, columns, hcolumns, hc => by
    obtain ⟨hreads, heval⟩ := eval_rebind hev h expr hcolumns hc
    unfold rebind at hreads heval ⊢
    simp [hreads, heval, hev.unary]
  | .isNull type expr negated, columns, hcolumns, hc => by
    obtain ⟨hreads, heval⟩ := eval_rebind hev h expr hcolumns hc
    unfold rebind at hreads heval ⊢
    simp [hreads, heval]
  | .binary type op left right, columns, hcolumns, hc => by
    simp only [columnsOf, bind_eq_bind, bind_eq_some_iff, pure_def, some.injEq] at hcolumns
    obtain ⟨first, hfirst, second, hsecond, rfl⟩ := hcolumns
    obtain ⟨hreadsLeft, hleft⟩ := eval_rebind hev h left hfirst fun c hmem =>
      hc c (mem_append_left _ hmem)
    obtain ⟨hreadsRight, hright⟩ := eval_rebind hev h right hsecond fun c hmem =>
      hc c (mem_append_right _ hmem)
    unfold rebind at hreadsLeft hreadsRight hleft hright ⊢
    simp [hreadsLeft, hreadsRight, hleft, hright, hev.evaluateBinary]
  | .scalar type function args, columns, hcolumns, hc => by
    obtain ⟨hreads, hargs⟩ := evalArgs_rebind hev h args hcolumns hc
    unfold rebind
    simp [hreads, hargs, hev.evaluateScalar]

theorem evalArgs_rebind (hev : Respects ev (reboundColumn target grouped derived))
    (h : Alike target derived grouped row row') : ∀ (args : BoundArgs)
    {columns : List BoundColumn}, columnsOfArgs args = some columns →
    (∀ c ∈ columns, Rebindable target derived grouped c) →
    (mapColumnsArgs (reboundColumn target grouped derived) args).reads.map row'.get =
        args.reads.map row.get ∧
      ev.evalArgs row' (mapColumnsArgs (reboundColumn target grouped derived) args) =
        ev.evalArgs row args
  | .nil, _, _, _ => by simp
  | .cons head tail, columns, hcolumns, hc => by
    simp only [columnsOfArgs, bind_eq_bind, bind_eq_some_iff, pure_def, some.injEq] at hcolumns
    obtain ⟨first, hfirst, second, hsecond, rfl⟩ := hcolumns
    obtain ⟨hreadsHead, hhead⟩ := eval_rebind hev h head hfirst fun c hmem =>
      hc c (mem_append_left _ hmem)
    obtain ⟨hreadsTail, htail⟩ := evalArgs_rebind hev h tail hsecond fun c hmem =>
      hc c (mem_append_right _ hmem)
    unfold rebind at hreadsHead hhead
    simp [hreadsHead, hreadsTail, hhead, htail]

end

end Pintail.Binder
