import Mathlib.Data.List.TakeWhile
import Mathlib.Order.Compare
import Pintail.Support.Except

/-! # Intersections and differences of sorted rows

`INTERSECT` and `EXCEPT` walk over two sorted inputs, one group of equal rows at a time. For every
class of equal rows the counts of the two inputs decide how often its first row comes out.
-/

namespace Pintail.Exec

open List Std.TransCmp

inductive ExecError
  | invalidPhysicalPlan (message : String)

/-- A sorted input with the row read ahead of it. -/
structure SortedRowCursor (ρ : Type) where
  rows : List ρ
  head : Option ρ
  exhausted : Bool
  ended : exhausted = true → head = none ∧ rows = []

namespace SortedRowCursor

variable {ρ : Type} (cmp : ρ → ρ → Ordering)

def new (rows : List ρ) : SortedRowCursor ρ := ⟨rows, none, false, nofun⟩

def remaining (cursor : SortedRowCursor ρ) : List ρ := cursor.head.toList ++ cursor.rows

def ensureHead (cursor : SortedRowCursor ρ) : SortedRowCursor ρ :=
  match cursor with
  | ⟨[], none, false, _⟩ => ⟨[], none, true, fun _ => ⟨rfl, rfl⟩⟩
  | ⟨row :: rows, none, false, _⟩ => ⟨rows, some row, false, nofun⟩
  | cursor => cursor

def countEqual (first : ρ) (count : ℕ) : List ρ → ℕ × SortedRowCursor ρ
  | [] => (count, ⟨[], none, true, fun _ => ⟨rfl, rfl⟩⟩)
  | next :: rows =>
    if cmp first next = .eq then countEqual first (count + 1) rows
    else (count, ⟨rows, some next, false, nofun⟩)

def takeGroup (cursor : SortedRowCursor ρ) : Except ExecError ((ρ × ℕ) × SortedRowCursor ρ) :=
  match cursor.ensureHead.head with
  | none => .error (.invalidPhysicalPlan "set input group is empty")
  | some first =>
    let (count, cursor') := countEqual cmp first 1 cursor.ensureHead.rows
    .ok ((first, count), cursor')

end SortedRowCursor

structure SetOpRows (ρ : Type) where
  left : SortedRowCursor ρ
  right : SortedRowCursor ρ
  keepMatching : Bool
  all : Bool
  /-- The group whose rows are coming out, and how many of them are still to come. -/
  pending : Option (ρ × ℕ)

namespace SetOpRows

variable {ρ : Type} (cmp : ρ → ρ → Ordering)

def outputCount (keepMatching all : Bool) (left right : ℕ) : ℕ :=
  if keepMatching then if all then min left right else 1
  else if all then left - right else 0

/-- One round of the loop that looks for the next group: nothing where the left input has ended, or
what the round gives and the inputs behind it. -/
def round (s : SetOpRows ρ) : Except ExecError (Option (Option (ρ × ℕ) × SetOpRows ρ)) :=
  let s := { s with left := s.left.ensureHead, right := s.right.ensureHead }
  match s.left.head, s.right.head with
  | none, _ => .ok none
  | some left, right =>
    match right.elim .lt (cmp left) with
    | .lt => do
      let ((row, leftCount), left) ← s.left.takeGroup cmp
      let group := if s.keepMatching then none else some (row, if s.all then leftCount else 1)
      .ok (some (group, { s with left }))
    | .gt => do
      let (_, right) ← s.right.takeGroup cmp
      .ok (some (none, { s with right }))
    | .eq => do
      let ((row, leftCount), left) ← s.left.takeGroup cmp
      let ((_, rightCount), right) ← s.right.takeGroup cmp
      let count := outputCount s.keepMatching s.all leftCount rightCount
      .ok (some (if 0 < count then some (row, count) else none, { s with left, right }))

end SetOpRows

section Groups

variable {ρ : Type} (cmp : ρ → ρ → Ordering)

def Sorted (rows : List ρ) : Prop := rows.Pairwise fun a b => (cmp a b).isLE = true

def groupSize (first : ρ) (rest : List ρ) : ℕ :=
  1 + (rest.takeWhile (cmp first · = .eq)).length

def behind (first : ρ) (rest : List ρ) : List ρ := rest.dropWhile (cmp first · = .eq)

def countOf (x : ρ) (rows : List ρ) : ℕ := rows.countP (cmp x · = .eq)

variable {cmp} {x first : ρ} {rest : List ρ} {y : ρ}

theorem Sorted.behind (h : Sorted cmp (first :: rest)) : Sorted cmp (behind cmp first rest) :=
  h.sublist ((dropWhile_sublist _).cons first)

theorem countOf_eq_zero {rows : List ρ} (h : ∀ y ∈ rows, cmp x y = .lt) : countOf cmp x rows = 0 :=
  countP_eq_zero.mpr fun y hy => by simp [h y hy]

variable [Std.TransCmp cmp]

theorem lt_of_mem_cons (h : Sorted cmp (first :: rest)) (hlt : cmp x first = .lt)
    (hy : y ∈ first :: rest) : cmp x y = .lt := by
  rcases mem_cons.mp hy with rfl | hy
  · exact hlt
  · exact lt_of_lt_of_isLE hlt (rel_of_pairwise_cons h hy)

theorem lt_of_mem_behind (h : Sorted cmp (first :: rest)) (hy : y ∈ behind cmp first rest) :
    cmp first y = .lt := by
  induction rest with
  | nil => cases hy
  | cons next rest ih =>
    obtain ⟨hfirst, hrest⟩ := pairwise_cons.mp h
    rw [behind, dropWhile_cons] at hy
    split_ifs at hy with heq
    · exact ih (h.sublist ((sublist_cons_self next rest).cons_cons first)) hy
    · have hlt : cmp first next = .lt := by
        cases hcmp : cmp first next <;> simp_all
      exact lt_of_mem_cons hrest hlt hy

theorem countOf_cons (h : Sorted cmp (first :: rest)) (x : ρ) :
    countOf cmp x (first :: rest) = if cmp x first = .eq then groupSize cmp first rest
      else countOf cmp x (behind cmp first rest) := by
  have hgroup : ∀ y ∈ rest.takeWhile (cmp first · = .eq), cmp x y = cmp x first := fun y hy =>
    (congr_right (by simpa using mem_takeWhile_imp hy)).symm
  have hsplit : countOf cmp x rest = countOf cmp x (rest.takeWhile (cmp first · = .eq)) +
      countOf cmp x (behind cmp first rest) := by
    rw [countOf, countOf, countOf, behind, ← countP_append, takeWhile_append_dropWhile]
  have hcons : countOf cmp x (first :: rest) =
      countOf cmp x rest + if cmp x first = .eq then 1 else 0 := by
    simp [countOf, countP_cons]
  rw [hcons, hsplit]
  split_ifs with heq
  · have hall : countOf cmp x (rest.takeWhile (cmp first · = .eq)) =
        (rest.takeWhile (cmp first · = .eq)).length :=
      countP_eq_length.mpr fun y hy => by simp [hgroup y hy, heq]
    have hnone : countOf cmp x (behind cmp first rest) = 0 := countOf_eq_zero fun y hy =>
      lt_of_eq_of_lt heq (lt_of_mem_behind h hy)
    rw [groupSize]
    omega
  · have hnone : countOf cmp x (rest.takeWhile (cmp first · = .eq)) = 0 :=
      countP_eq_zero.mpr fun y hy => by simp [hgroup y hy, heq]
    rw [hnone, Nat.add_zero, Nat.zero_add]

end Groups

namespace SortedRowCursor

variable {ρ : Type} {cmp : ρ → ρ → Ordering} {cursor : SortedRowCursor ρ} {first : ρ}
  {rest : List ρ}

theorem head_ensureHead (cursor : SortedRowCursor ρ) :
    cursor.ensureHead.head = cursor.remaining.head? := by
  rcases cursor with ⟨_ | ⟨row, rows⟩, _ | head, _ | _, ended⟩ <;> simp_all [ensureHead, remaining]

@[simp] theorem remaining_ensureHead (cursor : SortedRowCursor ρ) :
    cursor.ensureHead.remaining = cursor.remaining := by
  rcases cursor with ⟨_ | ⟨row, rows⟩, _ | head, _ | _, ended⟩ <;> simp_all [ensureHead, remaining]

theorem countEqual_spec (first : ρ) (count : ℕ) (rows : List ρ) :
    (countEqual cmp first count rows).1 + 1 = count + groupSize cmp first rows ∧
      (countEqual cmp first count rows).2.remaining = behind cmp first rows := by
  induction rows generalizing count with
  | nil => simp [countEqual, groupSize, behind, remaining]
  | cons next rows ih =>
    by_cases heq : cmp first next = .eq
    · obtain ⟨hcount, hrows⟩ := ih (count + 1)
      simp only [countEqual, heq, if_true, groupSize, behind, takeWhile_cons,
        dropWhile_cons, decide_true, length_cons] at hcount hrows ⊢
      exact ⟨by omega, hrows⟩
    · simp [countEqual, heq, groupSize, behind, remaining]

theorem takeGroup_eq_ok (h : cursor.remaining = first :: rest) :
    ∃ cursor', cursor.takeGroup cmp = .ok ((first, groupSize cmp first rest), cursor') ∧
      cursor'.remaining = behind cmp first rest := by
  have hhead : cursor.ensureHead.head = some first := by rw [head_ensureHead, h]; rfl
  have hrows : cursor.ensureHead.rows = rest := by
    have hremaining := remaining_ensureHead cursor
    rw [remaining, hhead, h] at hremaining
    exact (List.cons.inj hremaining).2
  obtain ⟨hcount, hbehind⟩ := @countEqual_spec _ cmp first 1 rest
  refine ⟨_, ?_, hbehind⟩
  simp only [takeGroup, hhead, hrows]
  rw [show (countEqual cmp first 1 rest).1 = groupSize cmp first rest by omega]

end SortedRowCursor

namespace SetOpRows

variable {ρ : Type} {cmp : ρ → ρ → Ordering} {s s' : SetOpRows ρ} {l r : ρ} {ls rs : List ρ}

/-- What a round does, by the rows still to come. -/
inductive Round (cmp : ρ → ρ → Ordering) (s : SetOpRows ρ) :
    Option (Option (ρ × ℕ) × SetOpRows ρ) → Prop
  | ended (hl : s.left.remaining = []) : Round cmp s none
  | left {l ls left right} (hl : s.left.remaining = l :: ls)
      (hlt : ∀ r ∈ s.right.remaining.head?, cmp l r = .lt)
      (hleft : left.remaining = behind cmp l ls) (hright : right.remaining = s.right.remaining) :
      Round cmp s (some (if s.keepMatching then none
        else some (l, if s.all then groupSize cmp l ls else 1), { s with left, right }))
  | right {l ls r rs left right} (hl : s.left.remaining = l :: ls)
      (hr : s.right.remaining = r :: rs) (hgt : cmp l r = .gt)
      (hleft : left.remaining = s.left.remaining) (hright : right.remaining = behind cmp r rs) :
      Round cmp s (some (none, { s with left, right }))
  | both {l ls r rs left right} (hl : s.left.remaining = l :: ls)
      (hr : s.right.remaining = r :: rs) (heq : cmp l r = .eq)
      (hleft : left.remaining = behind cmp l ls) (hright : right.remaining = behind cmp r rs)
      {count : ℕ} (hcount : count =
        outputCount s.keepMatching s.all (groupSize cmp l ls) (groupSize cmp r rs)) :
      Round cmp s (some (if 0 < count then some (l, count) else none, { s with left, right }))

theorem exists_round (cmp : ρ → ρ → Ordering) (s : SetOpRows ρ) :
    ∃ out, s.round cmp = .ok out ∧ s.Round cmp out := by
  have hlhead := s.left.head_ensureHead
  have hrhead := s.right.head_ensureHead
  cases hl : s.left.remaining with
  | nil =>
    rw [hl] at hlhead
    exact ⟨none, by simp [round, hlhead], .ended hl⟩
  | cons l ls =>
    obtain ⟨left, htake, hleft⟩ := @SortedRowCursor.takeGroup_eq_ok _ cmp _ _ _
      ((s.left.remaining_ensureHead).trans hl)
    rw [hl] at hlhead
    cases hr : s.right.remaining with
    | nil =>
      rw [hr] at hrhead
      refine ⟨_, ?_, .left hl (by simp [hr]) hleft s.right.remaining_ensureHead⟩
      simp [round, hlhead, hrhead, htake, bind, Except.bind]
    | cons r rs =>
      obtain ⟨right, htake', hright⟩ := @SortedRowCursor.takeGroup_eq_ok _ cmp _ _ _
        ((s.right.remaining_ensureHead).trans hr)
      rw [hr] at hrhead
      cases hcmp : cmp l r with
      | lt =>
        refine ⟨_, ?_, .left hl (by simpa [hr] using hcmp) hleft s.right.remaining_ensureHead⟩
        simp [round, hlhead, hrhead, hcmp, htake, bind, Except.bind]
      | gt =>
        refine ⟨_, ?_, .right hl hr hcmp s.left.remaining_ensureHead hright⟩
        simp [round, hlhead, hrhead, hcmp, htake', bind, Except.bind]
      | eq =>
        refine ⟨_, ?_, .both hl hr hcmp hleft hright rfl⟩
        simp [round, hlhead, hrhead, hcmp, htake, htake', bind, Except.bind]

def size (s : SetOpRows ρ) : ℕ := s.left.remaining.length + s.right.remaining.length

theorem size_lt_of_round {group : Option (ρ × ℕ)} (h : s.round cmp = .ok (some (group, s'))) :
    s'.size < s.size := by
  obtain ⟨out, hout, hround⟩ := exists_round cmp s
  cases hout.symm.trans h
  have hbehind (first : ρ) (rest : List ρ) :
      (behind cmp first rest).length < (first :: rest).length :=
    Nat.lt_succ_of_le (dropWhile_sublist _).length_le
  cases hround with
  | left hl _ hleft hright =>
    rw [size, size, hleft, hright, hl]
    exact Nat.add_lt_add_right (hbehind _ _) _
  | right _ hr _ hleft hright =>
    rw [size, size, hleft, hright, hr]
    exact Nat.add_lt_add_left (hbehind _ _) _
  | both hl hr _ hleft hright =>
    rw [size, size, hleft, hright, hl, hr]
    exact Nat.add_lt_add (hbehind _ _) (hbehind _ _)

def groups (cmp : ρ → ρ → Ordering) (s : SetOpRows ρ) : Except ExecError (List (ρ × ℕ)) :=
  match _ : s.round cmp with
  | .error error => .error error
  | .ok none => .ok []
  | .ok (some (group, s')) => (group.toList ++ ·) <$> groups cmp s'
termination_by s.size
decreasing_by exact size_lt_of_round ‹_›

theorem groups_of_round {out : Option (Option (ρ × ℕ) × SetOpRows ρ)}
    (h : s.round cmp = .ok out) : s.groups cmp = out.elim (.ok []) fun next =>
      (next.1.toList ++ ·) <$> next.2.groups cmp := by
  rw [groups]
  split <;> rename_i heq <;> cases heq.symm.trans h <;> rfl

def rowsOf (groups : List (ρ × ℕ)) : List ρ :=
  groups.flatMap fun (row, count) => List.replicate count row

/-- How often a class of rows is to come out, by its counts in the two inputs. -/
def resultCount (keepMatching all : Bool) (left right : ℕ) : ℕ :=
  match keepMatching, all with
  | true, true => min left right
  | false, true => left - right
  | true, false => if 0 < left ∧ 0 < right then 1 else 0
  | false, false => if 0 < left ∧ right = 0 then 1 else 0

structure Yields (cmp : ρ → ρ → Ordering) (keepMatching all : Bool) (ls rs rows : List ρ) :
    Prop where
  count : ∀ x, countOf cmp x rows =
    resultCount keepMatching all (countOf cmp x ls) (countOf cmp x rs)
  sorted : Sorted cmp rows
  mem : ∀ row ∈ rows, row ∈ ls

section Yields

variable {keepMatching all : Bool} {rows : List ρ}

@[simp] theorem resultCount_zero (right : ℕ) : resultCount keepMatching all 0 right = 0 := by
  cases keepMatching <;> cases all <;> simp [resultCount]

theorem mem_behind {first row : ρ} {rest : List ρ} (h : row ∈ behind cmp first rest) :
    row ∈ first :: rest :=
  mem_cons_of_mem first ((dropWhile_sublist _).mem h)

variable [Std.TransCmp cmp]

theorem Yields.cons {rs' : List ρ} (h : Yields cmp keepMatching all (behind cmp l ls) rs' rows)
    (hls : Sorted cmp (l :: ls)) (rs : List ρ) (count : ℕ) (hcount : ∀ x, cmp x l = .eq → count =
      resultCount keepMatching all (groupSize cmp l ls) (countOf cmp x rs))
    (hrs : ∀ x, cmp x l ≠ .eq → countOf cmp x rs = countOf cmp x rs') :
    Yields cmp keepMatching all (l :: ls) rs (List.replicate count l ++ rows) := by
  constructor
  · intro x
    have happend : countOf cmp x (List.replicate count l ++ rows) =
        (if cmp x l = .eq then count else 0) + countOf cmp x rows := by
      simp [countOf, countP_replicate]
    rw [happend, h.count, countOf_cons hls]
    split_ifs with heq
    · have hnone : countOf cmp x (behind cmp l ls) = 0 := countOf_eq_zero fun y hy =>
        lt_of_eq_of_lt heq (lt_of_mem_behind hls hy)
      rw [hnone, resultCount_zero, hcount x heq, Nat.add_zero]
    · rw [hrs x heq, Nat.zero_add]
  · refine pairwise_append.mpr ⟨?_, h.sorted, fun a ha b hb => ?_⟩
    · exact pairwise_replicate.mpr (.inr (by simp [Std.ReflCmp.compare_self]))
    · rw [eq_of_mem_replicate ha, lt_of_mem_behind hls (h.mem b hb)]
      rfl
  · intro row hrow
    rcases mem_append.mp hrow with hrow | hrow
    · rw [eq_of_mem_replicate hrow]
      exact mem_cons_self
    · exact mem_behind (h.mem row hrow)

theorem Yields.skip (h : Yields cmp keepMatching all (l :: ls) (behind cmp r rs) rows)
    (hls : Sorted cmp (l :: ls)) (hrs : Sorted cmp (r :: rs)) (hlt : cmp r l = .lt) :
    Yields cmp keepMatching all (l :: ls) (r :: rs) rows where
  count x := by
    rw [h.count, countOf_cons hrs]
    split_ifs with heq
    · have hnone : countOf cmp x (l :: ls) = 0 := countOf_eq_zero fun y hy =>
        lt_of_eq_of_lt heq (lt_of_mem_cons hls hlt hy)
      rw [hnone, resultCount_zero, resultCount_zero]
    · rfl
  sorted := h.sorted
  mem := h.mem

theorem exists_groups (hls : Sorted cmp s.left.remaining) (hrs : Sorted cmp s.right.remaining) :
    ∃ groups, s.groups cmp = .ok groups ∧ Yields cmp s.keepMatching s.all s.left.remaining
      s.right.remaining (rowsOf groups) := by
  induction hn : s.size using Nat.strong_induction_on generalizing s with
  | _ n ih =>
  obtain ⟨out, hout, hround⟩ := exists_round cmp s
  have hgroups := groups_of_round hout
  have hnext {group : Option (ρ × ℕ)} {s' : SetOpRows ρ} (h : out = some (group, s'))
      (hls : Sorted cmp s'.left.remaining) (hrs : Sorted cmp s'.right.remaining) :
      ∃ groups, s.groups cmp = .ok (group.toList ++ groups) ∧
        Yields cmp s'.keepMatching s'.all s'.left.remaining s'.right.remaining (rowsOf groups) := by
    subst h
    obtain ⟨groups, heq, hyields⟩ := ih _ (hn ▸ size_lt_of_round hout) hls hrs rfl
    refine ⟨groups, ?_, hyields⟩
    rw [hgroups, Option.elim_some, heq]
    rfl
  cases hround with
  | ended hl => exact ⟨[], hgroups, by simp [hl, countOf, rowsOf], .nil, nofun⟩
  | @left l ls left right hl hlt hleft hright =>
    rw [hl] at hls
    obtain ⟨groups, hgroups, hyields⟩ := hnext rfl (hleft ▸ hls.behind) (hright ▸ hrs)
    rw [hleft, hright] at hyields
    have hnone (x : ρ) (hx : cmp x l = .eq) : countOf cmp x s.right.remaining = 0 := by
      refine countOf_eq_zero fun y hy => lt_of_eq_of_lt hx ?_
      cases hr : s.right.remaining with
      | nil => simp [hr] at hy
      | cons r rs =>
        rw [hr] at hlt hy hrs
        exact lt_of_mem_cons hrs (hlt r rfl) hy
    have hpos : 0 < groupSize cmp l ls := Nat.lt_add_right _ Nat.one_pos
    refine ⟨_, hgroups, ?_⟩
    have hcons := hyields.cons hls s.right.remaining
      (if s.keepMatching then 0 else if s.all then groupSize cmp l ls else 1)
      (fun x hx => by
        rw [hnone x hx]
        cases s.keepMatching <;> cases s.all <;> simp [resultCount, hpos]) fun _ _ => rfl
    convert hcons using 1
    cases s.keepMatching <;> simp [rowsOf]
  | @right l ls r rs left right hl hr hgt hleft hright =>
    rw [hl] at hleft hls
    rw [hr] at hrs
    obtain ⟨groups, hgroups, hyields⟩ := hnext rfl (hleft ▸ hls) (hright ▸ hrs.behind)
    rw [hleft, hright] at hyields
    rw [hl, hr]
    exact ⟨_, hgroups, hyields.skip hls hrs (Std.OrientedCmp.lt_of_gt hgt)⟩
  | @both l ls r rs left right hl hr heq hleft hright count hcount =>
    rw [hl] at hls
    rw [hr] at hrs
    obtain ⟨groups, hgroups, hyields⟩ := hnext rfl (hleft ▸ hls.behind) (hright ▸ hrs.behind)
    rw [hleft, hright] at hyields
    have hclass (x : ρ) : cmp x l = cmp x r := congr_right heq
    have hpos (first : ρ) (rest : List ρ) : 0 < groupSize cmp first rest :=
      Nat.lt_add_right _ Nat.one_pos
    have hcons := hyields.cons hls (r :: rs) count
      (fun x hx => by
        rw [countOf_cons hrs, if_pos ((hclass x).symm.trans hx), hcount]
        cases s.keepMatching <;> cases s.all <;>
          simp [resultCount, outputCount, hpos, (hpos r rs).ne'])
      fun x hx => by rw [countOf_cons hrs, if_neg (hclass x ▸ hx)]
    refine ⟨_, hgroups, ?_⟩
    convert hcons using 1
    rcases Nat.eq_zero_or_pos count with h0 | hpos
    · simp [h0]
    · simp [rowsOf, hpos]

end Yields

section Batches

/-- The rounds up to the next group. -/
def nextGroup (cmp : ρ → ρ → Ordering) (s : SetOpRows ρ) :
    Except ExecError (Option (ρ × ℕ) × SetOpRows ρ) :=
  match _ : s.round cmp with
  | .error error => .error error
  | .ok none => .ok (none, s)
  | .ok (some (none, s')) => nextGroup cmp s'
  | .ok (some (some group, s')) => .ok (some group, s')
termination_by s.size
decreasing_by exact size_lt_of_round ‹_›

def awaitGroup (cmp : ρ → ρ → Ordering) (s : SetOpRows ρ) : Except ExecError (SetOpRows ρ) :=
  if s.pending.isNone then do
    let (group, s) ← s.nextGroup cmp
    return { s with pending := group }
  else return s

def fillBatch (cmp : ρ → ρ → Ordering) :
    ℕ → SetOpRows ρ → Except ExecError (List ρ × SetOpRows ρ)
  | 0, s => .ok ([], s)
  | room + 1, s => do
    let s ← s.awaitGroup cmp
    match s.pending with
    | none => return ([], s)
    | some (row, count) => do
      let (rows, s) ← fillBatch cmp room
        { s with pending := if count - 1 = 0 then none else some (row, count - 1) }
      return (row :: rows, s)

def defaultBatchRows : ℕ := 65536

def nextBatch (cmp : ρ → ρ → Ordering) (s : SetOpRows ρ) :
    Except ExecError (Option (List ρ) × SetOpRows ρ) := do
  let (rows, s) ← fillBatch cmp defaultBatchRows s
  return (if rows.isEmpty then none else some rows, s)

/-- The batches that come out until there are no more. -/
inductive Drains (cmp : ρ → ρ → Ordering) : SetOpRows ρ → List (List ρ) → Prop
  | ended {s s' : SetOpRows ρ} (h : s.nextBatch cmp = .ok (none, s')) : Drains cmp s []
  | batch {s s' : SetOpRows ρ} {rows : List ρ} {batches : List (List ρ)}
      (h : s.nextBatch cmp = .ok (some rows, s')) (hrest : Drains cmp s' batches) :
      Drains cmp s (rows :: batches)

/-- The rows still to come out: those of the pending group and of the groups behind it. -/
def Due (cmp : ρ → ρ → Ordering) (s : SetOpRows ρ) (rows : List ρ) : Prop :=
  ∃ groups, SetOpRows.groups cmp { s with pending := none } = .ok groups ∧
    (∀ group ∈ s.pending.toList ++ groups, 0 < group.2) ∧
    rowsOf (s.pending.toList ++ groups) = rows

theorem Round.keeps {group : Option (ρ × ℕ)} (h : s.Round cmp (some (group, s'))) :
    s'.pending = s.pending ∧ ∀ g ∈ group, 0 < g.2 := by
  cases h with
  | left =>
    refine ⟨rfl, fun g hg => ?_⟩
    split_ifs at hg with _ hall <;> cases hg
    · exact Nat.lt_add_right _ Nat.one_pos
    · exact Nat.one_pos
  | right => exact ⟨rfl, nofun⟩
  | both =>
    refine ⟨rfl, fun g hg => ?_⟩
    split_ifs at hg with hpos <;> cases hg
    exact hpos

theorem groups_cases {groups : List (ρ × ℕ)} (h : s.groups cmp = .ok groups) : ∃ out,
    s.round cmp = .ok out ∧ (out = none ∧ groups = [] ∨ ∃ group t rest, out = some (group, t) ∧
      t.pending = s.pending ∧ (∀ g ∈ group, 0 < g.2) ∧ t.groups cmp = .ok rest ∧
      groups = group.toList ++ rest) := by
  obtain ⟨out, hout, hround⟩ := exists_round cmp s
  rw [groups_of_round hout] at h
  rcases out with _ | ⟨group, t⟩
  · cases h
    exact ⟨none, hout, .inl ⟨rfl, rfl⟩⟩
  · obtain ⟨rest, hrest, rfl⟩ := Except.map_eq_ok.mp h
    exact ⟨_, hout, .inr ⟨group, t, rest, rfl, hround.keeps.1, hround.keeps.2, hrest, rfl⟩⟩

theorem pos_of_groups {groups : List (ρ × ℕ)} (h : s.groups cmp = .ok groups) :
    ∀ group ∈ groups, 0 < group.2 := by
  induction hn : s.size using Nat.strong_induction_on generalizing s groups with
  | _ n ih =>
    obtain ⟨out, hout, ⟨rfl, rfl⟩ | ⟨group, t, rest, rfl, -, hpos, hrest, rfl⟩⟩ := groups_cases h
    · exact nofun
    · intro g hg
      rcases mem_append.mp hg with hg | hg
      · exact hpos g (by simpa using hg)
      · exact ih t.size (hn ▸ size_lt_of_round hout) hrest rfl g hg

theorem nextGroup_eq {groups : List (ρ × ℕ)} (h : s.groups cmp = .ok groups)
    (hs : s.pending = none) : ∃ s', s.nextGroup cmp = .ok (groups.head?, s') ∧ s'.pending = none ∧
      s'.groups cmp = .ok groups.tail := by
  induction hn : s.size using Nat.strong_induction_on generalizing s groups with
  | _ n ih =>
    obtain ⟨out, hout, ⟨rfl, rfl⟩ | ⟨group, t, rest, rfl, ht, -, hrest, rfl⟩⟩ := groups_cases h
    · refine ⟨s, ?_, hs, h⟩
      rw [nextGroup]
      split <;> rename_i heq <;> cases heq.symm.trans hout
      rfl
    · cases group with
      | none =>
        obtain ⟨s', heq, hs'⟩ := ih t.size (hn ▸ size_lt_of_round hout) hrest (ht.trans hs) rfl
        refine ⟨s', ?_, hs'⟩
        rw [nextGroup]
        split <;> rename_i heq' <;> cases heq'.symm.trans hout
        exact heq
      | some group =>
        refine ⟨t, ?_, ht.trans hs, hrest⟩
        rw [nextGroup]
        split <;> rename_i heq <;> cases heq.symm.trans hout
        rfl

variable {rows : List ρ}

theorem groups_noPending (hs : s.pending = none) :
    SetOpRows.groups cmp { s with pending := none } = s.groups cmp := by
  rw [← hs]

theorem Due.awaitGroup (h : s.Due cmp rows) : ∃ s', s.awaitGroup cmp = .ok s' ∧
    s'.Due cmp rows ∧ (s'.pending = none → rows = []) := by
  cases hs : s.pending with
  | some group => exact ⟨s, by simp [SetOpRows.awaitGroup, hs], h, by simp [hs]⟩
  | none =>
    obtain ⟨groups, hgroups, hpos, rfl⟩ := h
    rw [groups_noPending hs] at hgroups
    obtain ⟨t, hnext, ht, hrest⟩ := nextGroup_eq hgroups hs
    refine ⟨{ t with pending := groups.head? }, ?_, ?_⟩
    · simp only [SetOpRows.awaitGroup, hs, hnext]
      rfl
    · rw [hs] at hpos ⊢
      cases groups with
      | nil => exact ⟨⟨[], (groups_noPending ht).trans hrest, hpos, rfl⟩, fun _ => rfl⟩
      | cons group rest => exact ⟨⟨rest, (groups_noPending ht).trans hrest, hpos, rfl⟩, nofun⟩

/-- A batch is as many of the rows to come as there is room for. -/
theorem Due.fillBatch (h : s.Due cmp rows) (room : ℕ) : ∃ s',
    s.fillBatch cmp room = .ok (rows.take room, s') ∧ s'.Due cmp (rows.drop room) := by
  induction room generalizing s rows with
  | zero => exact ⟨s, rfl, h⟩
  | succ room ih =>
    obtain ⟨t, hawait, ht, hended⟩ := h.awaitGroup
    cases hpending : t.pending with
    | none =>
      obtain rfl := hended hpending
      refine ⟨t, ?_, ht⟩
      simp only [SetOpRows.fillBatch, hawait, hpending, bind, Except.bind]
      rfl
    | some group =>
      obtain ⟨row, count⟩ := group
      obtain ⟨groups, hgroups, hpos, rfl⟩ := ht
      rw [hpending] at hpos ⊢
      obtain ⟨hcount, hgroupsPos⟩ := forall_mem_cons.mp hpos
      obtain ⟨count, rfl⟩ := Nat.exists_eq_succ_of_ne_zero hcount.ne'
      have hdue : Due cmp { t with pending := if count = 0 then none else some (row, count) }
          (List.replicate count row ++ rowsOf groups) := by
        by_cases hzero : count = 0
        · exact ⟨groups, hgroups, by simpa [hzero] using hgroupsPos, by simp [hzero]⟩
        · refine ⟨groups, hgroups, ?_, by simp [hzero, rowsOf]⟩
          simpa [hzero, Nat.pos_of_ne_zero hzero] using hgroupsPos
      obtain ⟨s', hfill, hs'⟩ := ih hdue
      refine ⟨s', ?_, hs'⟩
      simp only [SetOpRows.fillBatch, hawait, hpending, bind, Except.bind, Nat.succ_sub_one, hfill]
      rfl

theorem Due.drains (h : s.Due cmp rows) :
    ∃ batches, s.Drains cmp batches ∧ batches.flatten = rows := by
  induction hn : rows.length using Nat.strong_induction_on generalizing rows s with
  | _ n ih =>
    obtain ⟨s', hfill, hs'⟩ := h.fillBatch defaultBatchRows
    cases rows with
    | nil => exact ⟨[], .ended (by simp [nextBatch, hfill]; rfl), rfl⟩
    | cons row rows =>
      have hshorter : ((row :: rows).drop defaultBatchRows).length < n := by
        rw [← hn, length_drop]
        exact Nat.sub_lt (Nat.succ_pos _) (by decide)
      obtain ⟨batches, hbatches, hflatten⟩ := ih _ hshorter hs' rfl
      refine ⟨(row :: rows).take defaultBatchRows :: batches, .batch ?_ hbatches, ?_⟩
      · rw [nextBatch, hfill]
        rfl
      · rw [flatten_cons, hflatten, take_append_drop]

/-- The batches of a set operation are the rows of its groups. -/
theorem exists_batches {groups : List (ρ × ℕ)} (h : s.groups cmp = .ok groups)
    (hs : s.pending = none) : ∃ batches, s.Drains cmp batches ∧ batches.flatten = rowsOf groups := by
  apply Due.drains
  refine ⟨groups, (groups_noPending hs).trans h, ?_, by rw [hs]; rfl⟩
  rw [hs]
  exact pos_of_groups h

end Batches

/-- What a set operation gives for two sorted inputs: every class of equal rows as often as its two
counts ask for, in order, and rows of the left input only. -/
theorem setOpRows_yields [Std.TransCmp cmp] (hls : Sorted cmp ls) (hrs : Sorted cmp rs)
    (keepMatching all : Bool) :
    ∃ groups, (SetOpRows.mk (.new ls) (.new rs) keepMatching all none).groups cmp = .ok groups ∧
      Yields cmp keepMatching all ls rs (rowsOf groups) :=
  exists_groups (s := ⟨.new ls, .new rs, keepMatching, all, none⟩) hls hrs

theorem setOpRows_yields_except_all :
    ∃ groups,
      (SetOpRows.mk (.new [1, 1, 2]) (.new [1, 3]) false true none).groups compare = .ok groups ∧
        Yields (compare : ℕ → ℕ → Ordering) false true [1, 1, 2] [1, 3] (rowsOf groups) :=
  setOpRows_yields (by simp [Sorted]; decide) (by simp [Sorted]; decide) false true

end SetOpRows

end Pintail.Exec
