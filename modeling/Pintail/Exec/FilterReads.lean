import Pintail.Exec.Aggregates
import Pintail.Exec.Predicates

/-! # Predicates as filters read them

The conjuncts that a predicate is split into have its truth value in three-valued logic. A filter
keeps a row only where its predicate is true, so its predicate is simplified with `NULL` for false.
That goes too far where `COALESCE(x, FALSE)` is taken for `x`: the call casts `x`, and a label of an
`ENUM` is not as true as the member it names.
-/

namespace Pintail.Exec

open List

@[match_pattern] abbrev coalesceFunction : ScalarFunction := .other 6

namespace Evaluation

variable (ev : Evaluation)

def literalTruthOf : BoundExpr → Option Bool
  | .literal _ value => ev.truth value
  | _ => none

def foldBinary (op : BinaryOp) (left right : BoundExpr) (type : ExprType) : BoundExpr :=
  if op = .or ∨ op = .and then
    let absorbing : Bool := op = .or
    if ev.literalTruthOf left = some absorbing ∨ ev.literalTruthOf right = some absorbing then
      .literal ⟨some .boolean, false⟩ (.boolean absorbing)
    else if ev.literalTruthOf right = some !absorbing ∧ left.dataType = some .boolean then left
    else if ev.literalTruthOf left = some !absorbing ∧ right.dataType = some .boolean then right
    else .binary type op left right
  else .binary type op left right

def asAFilterReads : BoundExpr → BoundExpr
  | .literal _ .null => .literal ⟨some .boolean, false⟩ (.boolean false)
  | .binary type .and left right =>
    ev.foldBinary .and (asAFilterReads left) (asAFilterReads right) type
  | .binary type .or left right =>
    ev.foldBinary .or (asAFilterReads left) (asAFilterReads right) type
  | .scalar type coalesceFunction (.cons x (.cons otherwise .nil)) =>
    if ev.literalTruthOf otherwise = some false then asAFilterReads x
    else .scalar type coalesceFunction (.cons x (.cons otherwise .nil))
  | expr => expr

variable {row : Row} {expr : BoundExpr}

def truthOf (row : Row) (expr : BoundExpr) : Option Bool := ev.truth (ev.eval row expr)

def conjunction (row : Row) (parts : List BoundExpr) : Option Bool :=
  (parts.map (ev.truthOf row)).foldr kleeneAnd (some true)

/-- Whether a condition is not false is read through `AND` and `OR` as well. -/
theorem isReading_possible (row : Row) : IsReading fun expr => ev.truthOf row expr != some false := by
  constructor
  case same =>
    intro _ _ h
    rw [truthOf, truthOf, ev.eval_of_sameCondition h]
  all_goals
    intro type left right
    simp only [truthOf, eval, evaluateBinary, logic, truth_ofTruth]
    rcases ev.truth (ev.eval row left) with _ | _ | _ <;>
      rcases ev.truth (ev.eval row right) with _ | _ | _ <;> rfl

theorem conjunction_eq_true (parts : List BoundExpr) :
    ev.conjunction row parts = some true ↔ ∀ part ∈ parts, ev.keeps part row = true := by
  induction parts with
  | nil => simp [conjunction]
  | cons part parts ih =>
    rw [forall_mem_cons, ← ih]
    exact (kleeneAnd_eq_true _ _).trans (and_congr_left' (by simp [keeps, truthOf]))

theorem conjunction_ne_false (parts : List BoundExpr) : ev.conjunction row parts ≠ some false ↔
    ∀ part ∈ parts, (ev.truthOf row part != some false) = true := by
  induction parts with
  | nil => simp [conjunction]
  | cons part parts ih =>
    rw [forall_mem_cons, ← ih]
    simp only [conjunction, map_cons, foldr_cons]
    generalize (parts.map (ev.truthOf row)).foldr kleeneAnd (some true) = v
    rcases ev.truthOf row part with _ | _ | _ <;> rcases v with _ | _ | _ <;> decide

theorem conjunction_splitConjunction (expr : BoundExpr) :
    ev.conjunction row expr.splitConjunction = ev.truthOf row expr := by
  have htrue := (ev.conjunction_eq_true expr.splitConjunction).trans
    ((ev.isReading_keeps row).iff_splitConjunction expr).symm
  have hfalse := (ev.conjunction_ne_false expr.splitConjunction).trans
    ((ev.isReading_possible row).iff_splitConjunction expr).symm
  rw [keeps, ← truthOf] at htrue
  revert htrue hfalse
  rcases ev.conjunction row expr.splitConjunction with _ | _ | _ <;>
    rcases ev.truthOf row expr with _ | _ | _ <;> decide

variable {value : Bool}

theorem keeps_of_literalTruthOf (h : ev.literalTruthOf expr = some value) :
    ev.keeps expr row = value := by
  cases expr with
  | literal type v =>
    rw [keeps, eval, show ev.truth v = some value from h]
    cases value <;> rfl
  | _ => cases h

theorem keeps_literal (type : ExprType) (value : Bool) :
    ev.keeps (.literal type (.boolean value)) row = value :=
  ev.keeps_of_literalTruthOf (ev.truth_boolean value)

theorem keeps_foldBinary {op : BinaryOp} (hop : op = .and ∨ op = .or) (left right : BoundExpr)
    (type : ExprType) :
    ev.keeps (ev.foldBinary op left right type) row = ev.keeps (.binary type op left right) row := by
  rw [foldBinary, if_pos hop.symm]
  rcases hop with rfl | rfl
  all_goals
    simp only [reduceCtorEq, decide_true, Bool.not_true]
    split_ifs with habsorbed hright hleft
    · rcases habsorbed with h | h <;>
        simp [keeps_literal, keeps_and, keeps_or, ev.keeps_of_literalTruthOf h]
    · simp [keeps_and, keeps_or, ev.keeps_of_literalTruthOf hright.1]
    · simp [keeps_and, keeps_or, ev.keeps_of_literalTruthOf hleft.1]
    · rfl

/-- `COALESCE` gives its first argument that is not `NULL`, cast to the type of the call. -/
def Coalesces (cast : Option DataType → Value → Value) : Prop :=
  ∀ type args columns v w, ev.scalar coalesceFunction type args columns [v, w] =
    cast type.dataType (if v = .null then w else v)

def BuiltFrom (conditions : Set BoundExpr) : BoundExpr → Prop
  | .binary _ .and left right | .binary _ .or left right =>
    BuiltFrom conditions left ∧ BuiltFrom conditions right
  | expr => expr ∈ conditions

/-- A filter looks through a `COALESCE` with a false constant, into another predicate over the
conditions. -/
def LooksInto (conditions : Set BoundExpr) : Prop :=
  ∀ type x otherwise, .scalar type coalesceFunction (.cons x (.cons otherwise .nil)) ∈ conditions →
    ev.literalTruthOf otherwise = some false → BuiltFrom conditions x

/-- Where a condition is a `COALESCE` with a false constant, the value that the call casts is true
exactly where its first argument is. -/
def CastKeeps (cast : Option DataType → Value → Value) (row : Row) : BoundExpr → Prop
  | .scalar type coalesceFunction (.cons x (.cons otherwise .nil)) =>
    ev.literalTruthOf otherwise = some false →
      (ev.truth (cast type.dataType
          (if ev.eval row x = .null then ev.eval row otherwise else ev.eval row x)) = some true ↔
        ev.truth (ev.eval row x) = some true)
  | _ => True

variable {cast : Option DataType → Value → Value} {conditions : Set BoundExpr}

theorem keeps_coalesce_iff (hcast : ev.Coalesces cast) (type : ExprType) (x otherwise : BoundExpr)
    (hfalse : ev.literalTruthOf otherwise = some false) :
    ev.CastKeeps cast row (.scalar type coalesceFunction (.cons x (.cons otherwise .nil))) ↔
      ev.keeps x row =
        ev.keeps (.scalar type coalesceFunction (.cons x (.cons otherwise .nil))) row := by
  have hcall : ev.keeps (.scalar type coalesceFunction (.cons x (.cons otherwise .nil))) row =
      (ev.truth (cast type.dataType
        (if ev.eval row x = .null then ev.eval row otherwise else ev.eval row x)) == some true) := by
    rw [keeps, ← hcast]
    rfl
  rw [hcall, keeps, Bool.eq_iff_iff, beq_iff_eq, beq_iff_eq]
  exact ⟨fun h => (h hfalse).symm, fun h _ => h.symm⟩

theorem keeps_asAFilterReads (hcast : ev.Coalesces cast) (hlooks : ev.LooksInto conditions)
    (h : ∀ condition ∈ conditions, ev.CastKeeps cast row condition)
    (hexpr : BuiltFrom conditions expr) :
    ev.keeps (ev.asAFilterReads expr) row = ev.keeps expr row := by
  fun_induction asAFilterReads ev expr with
  | case1 type => rw [ev.keeps_literal, ev.keeps_of_eval_null rfl]
  | case2 type left right ihleft ihright =>
    rw [ev.keeps_foldBinary (.inl rfl), ev.keeps_and, ev.keeps_and, ihleft hexpr.1, ihright hexpr.2]
  | case3 type left right ihleft ihright =>
    rw [ev.keeps_foldBinary (.inr rfl), ev.keeps_or, ev.keeps_or, ihleft hexpr.1, ihright hexpr.2]
  | case4 type x otherwise hfalse ih =>
    rw [ih (hlooks type x otherwise hexpr hfalse)]
    exact (ev.keeps_coalesce_iff hcast type x otherwise hfalse).mp (h _ hexpr)
  | case5 | case6 => rfl

/-- The conjuncts have the predicate's truth value. A filter reads all predicates over some conditions
right exactly when each call it looks through casts its first argument to a value that is as true. -/
theorem splits_and_reads_iff (hcast : ev.Coalesces cast) (conditions : Set BoundExpr)
    (hlooks : ev.LooksInto conditions) (row : Row) :
    (∀ expr, BuiltFrom conditions expr →
      ev.conjunction row expr.splitConjunction = ev.truthOf row expr ∧
        ev.keeps (ev.asAFilterReads expr) row = ev.keeps expr row) ↔
      ∀ condition ∈ conditions, ev.CastKeeps cast row condition := by
  constructor
  · intro h condition hcondition
    fun_cases CastKeeps ev cast row condition with
    | case1 type x otherwise =>
      by_cases hfalse : ev.literalTruthOf otherwise = some false
      · apply (ev.keeps_coalesce_iff hcast type x otherwise hfalse).mpr
        -- both are what the filter makes of the argument
        have hcall := (h (.scalar type coalesceFunction (.cons x (.cons otherwise .nil)))
          hcondition).2
        rw [asAFilterReads, if_pos hfalse] at hcall
        exact (h x (hlooks type x otherwise hcondition hfalse)).2.symm.trans hcall
      · exact fun hf => absurd hf hfalse
    | case2 => trivial
  · intro h expr hexpr
    exact ⟨ev.conjunction_splitConjunction expr, ev.keeps_asAFilterReads hcast hlooks h hexpr⟩

end Evaluation

/-- A cast to text shows the label of a member. -/
def castSample : Option DataType → Value → Value
  | some .utf8, .enum _ label => .utf8 label
  | some .utf8, .boolean value => .utf8 (if value then "1" else "0")
  | _, value => value

/-- A member is as true as its place, and a text as the number it begins with. -/
def enumEvaluation : Evaluation where
  __ := Evaluation.sample
  truth
    | .null => none
    | .boolean value => some value
    | .enum index _ => some (index != 0)
    | .utf8 text => some ((text.toList.takeWhile Char.isDigit).any (· ≠ '0'))
    | _ => some true
  truth_null := rfl
  truth_boolean _ := rfl
  scalar
    | coalesceFunction, type, _, _, [v, w] => castSample type.dataType (if v = .null then w else v)
    | _, _, _, _, _ => .null

def statusKey : ColumnKey := ⟨⟨0, 0, "orders"⟩, 1⟩

def status : BoundExpr := .column ⟨some .utf8, true⟩ ⟨statusKey, false⟩

/-- `COALESCE(status, FALSE)`, a text since `status` is an `ENUM`. -/
def statusOrFalse : BoundExpr :=
  .scalar ⟨some .utf8, false⟩ coalesceFunction
    (.cons status (.cons (.literal ⟨some .boolean, false⟩ (.boolean false)) .nil))

/-- The label of the first member is the number it has. -/
theorem splits_and_reads_iff_status : enumEvaluation.Coalesces castSample ∧
    ∀ expr, Evaluation.BuiltFrom {status, statusOrFalse} expr →
      enumEvaluation.conjunction [(.column statusKey, .enum 1 "1")] expr.splitConjunction =
          enumEvaluation.truthOf [(.column statusKey, .enum 1 "1")] expr ∧
        enumEvaluation.keeps (enumEvaluation.asAFilterReads expr) [(.column statusKey, .enum 1 "1")] =
          enumEvaluation.keeps expr [(.column statusKey, .enum 1 "1")] := by
  have hlooks : enumEvaluation.LooksInto {status, statusOrFalse} := by
    rintro type x otherwise (h | h) -
    · cases h
    · cases h
      exact .inl rfl
  have hcast : enumEvaluation.Coalesces castSample := fun _ _ _ _ _ => rfl
  refine ⟨hcast, (enumEvaluation.splits_and_reads_iff hcast _ hlooks _).mpr ?_⟩
  rintro condition (rfl | rfl)
  · trivial
  · exact fun _ => by decide

/-- The label `a` is no number, so the call is false; the first member is true. -/
theorem statusOrFalse_read_as_true : enumEvaluation.Coalesces castSample ∧
    enumEvaluation.keeps statusOrFalse [(.column statusKey, .enum 1 "a")] = false ∧
      enumEvaluation.keeps (enumEvaluation.asAFilterReads statusOrFalse)
        [(.column statusKey, .enum 1 "a")] = true := by
  refine ⟨fun _ _ _ _ _ => rfl, by decide, ?_⟩
  rw [statusOrFalse, status, Evaluation.asAFilterReads, Evaluation.asAFilterReads]
  · decide
  all_goals nofun

end Pintail.Exec
