import Mathlib.Data.List.DropRight
import Pintail.Bytes.LittleEndian
import Pintail.Words.Order

/-! # Keys of padded words

Two words compare padded when the shorter one goes on with spaces for ever. A key takes the spaces
off the end of a word and puts one back, and keys compare letter by letter. The two orders differ
exactly on a word that continues the other one by spaces and then a letter below a space.
-/

namespace Pintail.Words

open List Ordering Std.OrientedCmp UInt8

variable {α β : Type*} [LinearOrder α] [LinearOrder β]

theorem compare_congr {a b : α} {c d : β} (hlt : a < b ↔ c < d) (hgt : b < a ↔ d < c) :
    compare a b = compare c d := by
  rcases lt_trichotomy c d with h | rfl | h
  · rw [compare_lt_iff_lt.mpr h, compare_lt_iff_lt.mpr (hlt.mpr h)]
  · have hab : a = b := le_antisymm (not_lt.mp fun h => lt_irrefl c (hgt.mp h))
      (not_lt.mp fun h => lt_irrefl c (hlt.mp h))
    rw [compare_eq_iff_eq.mpr rfl, compare_eq_iff_eq.mpr hab]
  · rw [compare_gt_iff_gt.mpr h, compare_gt_iff_gt.mpr (hgt.mpr h)]

theorem compare_append {l l' : List α} (h : l.length = l'.length) (r r' : List α) :
    compare (l ++ r) (l' ++ r') = (compare l l').then (compare r r') := by
  induction l generalizing l' with
  | nil =>
    obtain rfl : l' = [] := eq_nil_of_length_eq_zero h.symm
    rfl
  | cons x l ih =>
    cases l' with
    | nil => cases h
    | cons y l' =>
      rw [cons_append, cons_append, List.compare_cons_cons, List.compare_cons_cons,
        ih (Nat.succ_injective h), then_assoc]

theorem compare_flatMap {f : α → List β} {w : ℕ} (hw : 0 < w) (hlen : ∀ x, (f x).length = w)
    (hf : ∀ x y, compare (f x) (f y) = compare x y) (l r : List α) :
    compare (l.flatMap f) (r.flatMap f) = compare l r := by
  have hne : ∀ x : α, ∃ b bs, f x = b :: bs := fun x => exists_cons_of_length_pos (hlen x ▸ hw)
  induction l generalizing r with
  | nil =>
    cases r with
    | nil => rfl
    | cons y r =>
      obtain ⟨b, bs, hy⟩ := hne y
      rw [flatMap_cons, hy]
      rfl
  | cons x l ih =>
    cases r with
    | nil =>
      obtain ⟨b, bs, hx⟩ := hne x
      rw [flatMap_cons, hx]
      rfl
    | cons y r =>
      rw [flatMap_cons, flatMap_cons, List.compare_cons_cons,
        compare_append ((hlen x).trans (hlen y).symm), hf, ih]

def beBytes (w n : ℕ) : List UInt8 := (Bytes.leBytes w n).reverse

@[simp] theorem length_beBytes (w n : ℕ) : (beBytes w n).length = w := by
  rw [beBytes, length_reverse, Bytes.length_leBytes]

theorem beBytes_succ (w n : ℕ) : beBytes (w + 1) n = beBytes w (n / 256) ++ [UInt8.ofNat n] := by
  rw [beBytes, Bytes.leBytes, reverse_cons, beBytes]

theorem compare_div_then_mod (m n : ℕ) :
    (compare (m / 256) (n / 256)).then (compare (m % 256) (n % 256)) = compare m n := by
  rcases lt_trichotomy (m / 256) (n / 256) with h | h | h
  · rw [compare_lt_iff_lt.mpr h, compare_lt_iff_lt.mpr (show m < n by omega)]
    rfl
  · rw [h, compare_eq_iff_eq.mpr rfl]
    exact compare_congr (by omega) (by omega)
  · rw [compare_gt_iff_gt.mpr h, compare_gt_iff_gt.mpr (show m > n by omega)]
    rfl

theorem compare_ofNat (m n : ℕ) :
    compare (UInt8.ofNat m) (UInt8.ofNat n) = compare (m % 256) (n % 256) :=
  compare_congr (by rw [lt_iff_toNat_lt, toNat_ofNat', toNat_ofNat'])
    (by rw [lt_iff_toNat_lt, toNat_ofNat', toNat_ofNat'])

theorem compare_beBytes {w m n : ℕ} (hm : m < 256 ^ w) (hn : n < 256 ^ w) :
    compare (beBytes w m) (beBytes w n) = compare m n := by
  induction w generalizing m n with
  | zero =>
    obtain rfl : m = 0 := by simpa using hm
    obtain rfl : n = 0 := by simpa using hn
    rfl
  | succ w ih =>
    rw [pow_succ] at hm hn
    have hm' : m / 256 < 256 ^ w := Nat.div_lt_of_lt_mul (by rwa [mul_comm] at hm)
    have hn' : n / 256 < 256 ^ w := Nat.div_lt_of_lt_mul (by rwa [mul_comm] at hn)
    have hone : compare [UInt8.ofNat m] [UInt8.ofNat n] = compare (m % 256) (n % 256) := by
      rw [List.compare_cons_cons, compare_ofNat]
      exact then_eq
    rw [beBytes_succ, beBytes_succ, compare_append (by simp), ih hm' hn', hone,
      compare_div_then_mod]

theorem compare_uint16Bytes (a b : UInt16) :
    compare (beBytes 2 a.toNat) (beBytes 2 b.toNat) = compare a b := by
  rw [compare_beBytes a.toNat_lt b.toNat_lt]
  apply compare_congr <;> rw [UInt16.lt_iff_toNat_lt]

theorem compare_uint32Bytes (a b : UInt32) :
    compare (beBytes 4 a.toNat) (beBytes 4 b.toNat) = compare a b := by
  rw [compare_beBytes a.toNat_lt b.toNat_lt]
  apply compare_congr <;> rw [UInt32.lt_iff_toNat_lt]

section Padding

variable {space x : α} {l r : List α}

/-- Endless spaces against a word. -/
def compareSpaces (space : α) : List α → Ordering
  | [] => .eq
  | y :: r => (compare space y).then (compareSpaces space r)

/-- Words compared letter by letter, the shorter one going on with spaces. -/
def comparePadded (space : α) : List α → List α → Ordering
  | [], r => compareSpaces space r
  | x :: l, r => (compare x (r.headD space)).then (comparePadded space l r.tail)

def trimmed (space : α) (l : List α) : List α := l.rdropWhile (· == space)

def paddedKey (space : α) (l : List α) : List α := trimmed space l ++ [space]

/-- The second word goes on from the first with spaces and then a letter below a space. -/
def Dips (space : α) (l r : List α) : Prop :=
  ∃ n x rest, x < space ∧ r = trimmed space l ++ replicate (n + 1) space ++ x :: rest

theorem comparePadded_nil_right (l : List α) :
    comparePadded space l [] = (compareSpaces space l).swap := by
  induction l with
  | nil => rfl
  | cons x l ih =>
    have hx : compare x space = (compare space x).swap := eq_swap
    rw [comparePadded, compareSpaces, headD_nil, tail_nil, ih, swap_then, hx]

theorem comparePadded_swap (l r : List α) :
    comparePadded space l r = (comparePadded space r l).swap := by
  induction l generalizing r with
  | nil => rw [comparePadded_nil_right, Ordering.swap_swap, comparePadded]
  | cons x l ih =>
    cases r with
    | nil => rw [comparePadded_nil_right, comparePadded]
    | cons y r =>
      have hxy : compare x y = (compare y x).swap := eq_swap
      rw [comparePadded, comparePadded, headD_cons, headD_cons, tail_cons,
        tail_cons, Ordering.swap_then, ih, hxy]

theorem comparePadded_replicate (n : ℕ) (r : List α) :
    comparePadded space (replicate n space) r = compareSpaces space r := by
  induction n generalizing r with
  | zero => rfl
  | succ n ih =>
    rw [replicate_succ, comparePadded, ih]
    cases r with
    | nil => rw [headD_nil, compare_eq_iff_eq.mpr rfl]; rfl
    | cons y r => rfl

theorem comparePadded_append_replicate (l : List α) (n : ℕ) (r : List α) :
    comparePadded space (l ++ replicate n space) r = comparePadded space l r := by
  induction l generalizing r with
  | nil => exact comparePadded_replicate n r
  | cons x l ih => rw [cons_append, comparePadded, comparePadded, ih]

theorem comparePadded_of_length_eq (h : l.length = r.length) :
    comparePadded space l r = compare l r := by
  induction l generalizing r with
  | nil =>
    rw [eq_nil_of_length_eq_zero h.symm]
    rfl
  | cons x l ih =>
    obtain ⟨y, r, rfl⟩ := exists_cons_of_length_eq_add_one h.symm
    rw [comparePadded, List.compare_cons_cons, headD_cons, tail_cons, ih (Nat.succ_injective h)]

theorem comparePadded_eq_compare (n : ℕ) (hl : l.length ≤ n) (hr : r.length ≤ n) :
    comparePadded space l r = compare (l.rightpad n space) (r.rightpad n space) := by
  have hlen : (l.rightpad n space).length = (r.rightpad n space).length := by
    simp only [rightpad, length_append, length_replicate]
    omega
  rw [← comparePadded_of_length_eq hlen, rightpad, rightpad,
    comparePadded_append_replicate, comparePadded_swap, comparePadded_swap l,
    comparePadded_append_replicate]

instance : Std.TransCmp (comparePadded space) where
  eq_swap := comparePadded_swap _ _
  isLE_trans {l r s} hlr hrs := by
    have h {l r : List α} := @comparePadded_eq_compare α _ space l r
    rw [h (l.length + r.length + s.length) (by omega) (by omega)] at hlr hrs ⊢
    exact Std.TransCmp.isLE_trans hlr hrs

@[simp] theorem trimmed_append_space (l : List α) :
    trimmed space (l ++ [space]) = trimmed space l :=
  rdropWhile_concat_pos _ _ _ (beq_self_eq_true space)

theorem trimmed_append_singleton (hx : x ≠ space) (l : List α) :
    trimmed space (l ++ [x]) = l ++ [x] :=
  rdropWhile_concat_neg _ _ _ (by simpa using hx)

theorem exists_trimmed_append (space : α) (l : List α) :
    ∃ n, l = trimmed space l ++ replicate n space := by
  induction l using reverseRecOn with
  | nil => exact ⟨0, rfl⟩
  | append_singleton l x ih =>
    by_cases hx : x = space
    · subst hx
      obtain ⟨n, hn⟩ := ih
      refine ⟨n + 1, ?_⟩
      rw [trimmed_append_space, replicate_succ', ← append_assoc, ← hn]
    · exact ⟨0, by rw [trimmed_append_singleton hx, replicate_zero, append_nil]⟩

theorem comparePadded_trimmed (l r : List α) :
    comparePadded space (trimmed space l) (trimmed space r) = comparePadded space l r := by
  obtain ⟨m, hl⟩ := exists_trimmed_append space l
  obtain ⟨n, hr⟩ := exists_trimmed_append space r
  conv_rhs => rw [hl, hr]
  rw [comparePadded_append_replicate, comparePadded_swap, comparePadded_swap (trimmed space l),
    comparePadded_append_replicate]

theorem trimmed_append_cons (hx : x ≠ space) (l r : List α) :
    trimmed space (l ++ x :: r) = l ++ x :: trimmed space r := by
  induction r using reverseRecOn with
  | nil => exact trimmed_append_singleton hx l
  | append_singleton r y ih =>
    have hassoc : l ++ x :: (r ++ [y]) = (l ++ x :: r) ++ [y] := by simp
    by_cases hy : y = space
    · subst hy
      rw [hassoc, trimmed_append_space, trimmed_append_space, ih]
    · rw [hassoc, trimmed_append_singleton hy, trimmed_append_singleton hy, ← hassoc]

/-- Where a word that does not end in a space goes on from another one. -/
def GoesOn (space : α) (l r : List α) : Prop :=
  ∃ n x rest, x < space ∧ r = l ++ replicate (n + 1) space ++ x :: rest

theorem dips_iff_goesOn : Dips space l r ↔ GoesOn space (trimmed space l) (trimmed space r) := by
  constructor
  · rintro ⟨n, x, rest, hx, rfl⟩
    exact ⟨n, x, trimmed space rest, hx, trimmed_append_cons hx.ne _ _⟩
  · rintro ⟨n, x, rest, hx, hr⟩
    obtain ⟨m, hm⟩ := exists_trimmed_append space r
    exact ⟨n, x, rest ++ replicate m space, hx, by rw [hm, hr]; simp⟩

theorem getLast?_trimmed (l : List α) : (trimmed space l).getLast? ≠ some space := by
  intro h
  obtain ⟨l', hl'⟩ := getLast?_eq_some_iff.mp h
  have hne : trimmed space l ≠ [] := by simp [hl']
  have hlast := rdropWhile_last_not (· == space) l hne
  have heq : (trimmed space l).getLast hne = space :=
    Option.some_inj.mp ((getLast?_eq_some_getLast hne).symm.trans h)
  exact hlast (beq_iff_eq.mpr heq)

omit [LinearOrder α] in
theorem getLast?_tail (h : (x :: l).getLast? ≠ some space) : l.getLast? ≠ some space := by
  intro hl
  rw [getLast?_cons, hl] at h
  exact h rfl

/-- Spaces come before a word that does not end in one, unless its first other letter is below. -/
theorem compareSpaces_eq_lt_iff (hne : r ≠ []) (hr : r.getLast? ≠ some space) :
    compareSpaces space r = .lt ↔ ¬ ∃ n x rest, x < space ∧ r = replicate n space ++ x :: rest := by
  induction r with
  | nil => exact absurd rfl hne
  | cons y r ih =>
    rcases lt_trichotomy space y with hy | rfl | hy
    · rw [compareSpaces, compare_lt_iff_lt.mpr hy]
      apply iff_of_true rfl
      rintro ⟨n, x, rest, hx, hn⟩
      cases n with
      | zero =>
        obtain rfl : y = x := (cons.inj hn).1
        exact hy.not_gt hx
      | succ n => exact hy.ne' (cons.inj hn).1
    · have hr' : r.getLast? ≠ some space := getLast?_tail hr
      have hne' : r ≠ [] := by
        rintro rfl
        exact hr rfl
      rw [compareSpaces, compare_eq_iff_eq.mpr rfl, eq_then, ih hne' hr', not_iff_not]
      constructor
      · rintro ⟨n, x, rest, hx, rfl⟩
        exact ⟨n + 1, x, rest, hx, rfl⟩
      · rintro ⟨n, x, rest, hx, hn⟩
        cases n with
        | zero =>
          obtain rfl : space = x := (cons.inj hn).1
          exact absurd hx (lt_irrefl _)
        | succ n => exact ⟨n, x, rest, hx, (cons.inj hn).2⟩
    · rw [compareSpaces, compare_gt_iff_gt.mpr hy]
      exact iff_of_false nofun (not_not_intro ⟨0, y, r, hy, rfl⟩)

theorem goesOn_cons : GoesOn space (x :: l) (x :: r) ↔ GoesOn space l r := by
  simp [GoesOn]

theorem not_goesOn_cons {y : α} (h : x ≠ y) : ¬ GoesOn space (x :: l) (y :: r) := by
  rintro ⟨n, z, rest, -, hr⟩
  exact h (cons.inj hr).1.symm

theorem not_goesOn_nil : ¬ GoesOn space l [] := by
  rintro ⟨n, z, rest, -, hr⟩
  simp at hr

theorem compare_nil_key_iff (hr : r.getLast? ≠ some space) :
    compare [space] (r ++ [space]) = compareSpaces space r ↔ ¬ GoesOn space [] r := by
  cases r with
  | nil => exact iff_of_true Std.ReflCmp.compare_self not_goesOn_nil
  | cons y r =>
    have hkey : compare [space] (y :: r ++ [space]) = (compare space y).then .lt := by
      rw [cons_append, List.compare_cons_cons]
      cases r <;> rfl
    rw [hkey, compareSpaces]
    by_cases hy : space = y
    · subst hy
      have hne : r ≠ [] := by
        rintro rfl
        exact hr rfl
      rw [compare_eq_iff_eq.mpr rfl, eq_then, eq_then, eq_comm,
        compareSpaces_eq_lt_iff hne (getLast?_tail hr)]
      simp [GoesOn, replicate_succ]
    · refine iff_of_true ?_ ?_
      · cases hc : compare space y
        · rfl
        · exact absurd (compare_eq_iff_eq.mp hc) hy
        · rfl
      · rintro ⟨n, z, rest, -, he⟩
        exact hy (cons.inj he).1.symm

theorem compare_key_iff (hl : l.getLast? ≠ some space) (hr : r.getLast? ≠ some space) :
    compare (l ++ [space]) (r ++ [space]) = comparePadded space l r ↔
      ¬ GoesOn space l r ∧ ¬ GoesOn space r l := by
  induction l generalizing r with
  | nil =>
    rw [nil_append, comparePadded, compare_nil_key_iff hr]
    exact (and_iff_left not_goesOn_nil).symm
  | cons x l ih =>
    cases r with
    | nil =>
      have hswap : compare (x :: l ++ [space]) [space] =
          (compare [space] (x :: l ++ [space])).swap := eq_swap
      rw [comparePadded_nil_right, nil_append, hswap, swap_inj, compare_nil_key_iff hl]
      exact (and_iff_right not_goesOn_nil).symm
    | cons y r =>
      rw [cons_append, cons_append, List.compare_cons_cons, comparePadded, headD_cons, tail_cons]
      by_cases hxy : x = y
      · subst hxy
        rw [compare_eq_iff_eq.mpr rfl, eq_then, eq_then, goesOn_cons,
          goesOn_cons, ih (getLast?_tail hl) (getLast?_tail hr)]
      · refine iff_of_true ?_ ⟨not_goesOn_cons hxy, not_goesOn_cons (Ne.symm hxy)⟩
        cases hc : compare x y
        · rfl
        · exact absurd (compare_eq_iff_eq.mp hc) hxy
        · rfl

/-- Keys compare as padded words do, unless one word dips below the spaces it adds to the other. -/
theorem compare_paddedKey_iff (l r : List α) :
    compare (paddedKey space l) (paddedKey space r) = comparePadded space l r ↔
      ¬ Dips space l r ∧ ¬ Dips space r l := by
  rw [← comparePadded_trimmed l r, dips_iff_goesOn, dips_iff_goesOn]
  exact compare_key_iff (getLast?_trimmed l) (getLast?_trimmed r)

end Padding

end Pintail.Words
