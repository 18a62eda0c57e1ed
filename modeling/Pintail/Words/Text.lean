import Mathlib.Data.List.DropRight

/-! # Pieces of text

Text cut at a separator gives pieces without it, and a trimmed piece begins and ends with a
character that is not white space.
-/

namespace Pintail.Words

open List

/-- The Unicode property `White_Space`. -/
def isWhiteSpace (c : Char) : Bool :=
  let n := c.toNat
  (9 ≤ n && n ≤ 13) || n == 0x20 || n == 0x85 || n == 0xa0 || n == 0x1680 ||
    (0x2000 ≤ n && n ≤ 0x200a) || n == 0x2028 || n == 0x2029 || n == 0x202f || n == 0x205f ||
    n == 0x3000

variable {c : Char}

theorem isWhiteSpace_of_le (hlow : 33 ≤ c.toNat) (hhigh : c.toNat ≤ 126) :
    isWhiteSpace c = false := by
  simp only [isWhiteSpace, Bool.or_eq_false_iff, Bool.and_eq_false_iff, decide_eq_false_iff_not,
    beq_eq_false_iff_ne]
  omega

def trimLeft (text : List Char) : List Char := text.dropWhile isWhiteSpace

def trimEnds (text : List Char) : List Char :=
  (text.dropWhile isWhiteSpace).rdropWhile isWhiteSpace

variable {text : List Char}

theorem trimEnds_eq_self (hhead : ∀ c ∈ text.head?, isWhiteSpace c = false)
    (hlast : ∀ c ∈ text.getLast?, isWhiteSpace c = false) : trimEnds text = text := by
  have hdrop : text.dropWhile isWhiteSpace = text := by
    rw [dropWhile_eq_self_iff]
    intro hl
    rw [hhead text[0] (by rw [head?_eq_getElem?]; exact getElem?_eq_getElem hl)]
    simp
  rw [trimEnds, hdrop, rdropWhile_eq_self_iff]
  intro hl
  rw [hlast (text.getLast hl) (getLast?_eq_getLast_of_ne_nil hl)]
  simp

variable {blank text : List Char} {α : Type*}

theorem trimLeft_append (h : ∀ c ∈ blank, isWhiteSpace c = true) :
    trimLeft (blank ++ text) = trimLeft text := by
  rw [trimLeft, dropWhile_append_of_pos h, trimLeft]

theorem trimEnds_append_left (h : ∀ c ∈ blank, isWhiteSpace c = true) :
    trimEnds (blank ++ text) = trimEnds text := by
  rw [trimEnds, dropWhile_append_of_pos h, trimEnds]

theorem rdropWhile_eq_self {α : Type} [DecidableEq α] {l : List α} {a : α}
    (h : l.getLast? ≠ some a) : l.rdropWhile (· == a) = l := by
  rw [rdropWhile_eq_self_iff]
  intro hl
  rw [beq_iff_eq]
  rintro rfl
  exact h (getLast?_eq_some_getLast hl)

theorem rdropWhile_append_of_pos {p : α → Bool} {l l' : List α}
    (h : ∀ a ∈ l', p a = true) : (l ++ l').rdropWhile p = l.rdropWhile p := by
  induction l' using reverseRecOn with
  | nil => simp
  | append_singleton l' a ih =>
    rw [← append_assoc, rdropWhile_concat_pos _ _ _ (h a (by simp)),
      ih fun b hb => h b (by simp [hb])]

theorem trimEnds_append_right (h : ∀ c ∈ blank, isWhiteSpace c = true) :
    trimEnds (text ++ blank) = trimEnds text := by
  rw [trimEnds, trimEnds, dropWhile_append]
  split_ifs with hempty
  · rw [isEmpty_iff.mp hempty, dropWhile_eq_nil_iff.mpr h]
  · exact rdropWhile_append_of_pos h

theorem exists_eq_append_trimEnds (text : List Char) :
    ∃ front back, text = front ++ trimEnds text ++ back ∧
      (∀ c ∈ front, isWhiteSpace c = true) ∧ ∀ c ∈ back, isWhiteSpace c = true := by
  refine ⟨text.takeWhile isWhiteSpace, (text.dropWhile isWhiteSpace).rtakeWhile isWhiteSpace, ?_,
    fun c hc => mem_takeWhile_imp hc, fun c hc => mem_rtakeWhile_imp hc⟩
  rw [trimEnds, append_assoc, rdropWhile_append_rtakeWhile, takeWhile_append_dropWhile]

theorem mem_of_mem_trimEnds (h : c ∈ trimEnds text) : c ∈ text :=
  (dropWhile_suffix _).subset ((List.rdropWhile_prefix _ _).subset h)

theorem isWhiteSpace_head_trimEnds (h : c ∈ (trimEnds text).head?) : isWhiteSpace c = false := by
  have hpre : trimEnds text <+: text.dropWhile isWhiteSpace := rdropWhile_prefix _ _
  obtain ⟨rest, hrest⟩ := hpre
  have hhead : (text.dropWhile isWhiteSpace).head? = some c := by
    rw [← hrest, head?_append, Option.mem_def.mp h]
    rfl
  have hnot := head?_dropWhile_not isWhiteSpace text
  rwa [hhead] at hnot

theorem not_mem_of_mem_splitOn [DecidableEq α] {a : α} {text piece : List α}
    (h : piece ∈ text.splitOn a) : a ∉ piece := by
  induction text generalizing piece with
  | nil =>
    obtain rfl : piece = [] := by simpa using h
    simp
  | cons c text ih =>
    rw [List.splitOn, splitOnP_cons_eq_if_modifyHead] at h
    split_ifs at h with hc
    · rcases mem_cons.mp h with rfl | h
      · simp
      · exact ih h
    · cases hs : text.splitOnP (· == a) with
      | nil => simp [hs] at h
      | cons first rest =>
        rw [hs] at h
        rcases mem_cons.mp h with rfl | h
        · have hfirst := ih (show first ∈ text.splitOn a by simp [List.splitOn, hs])
          simp only [mem_cons, not_or]
          exact ⟨fun he => hc (by simp [he]), hfirst⟩
        · exact ih (show piece ∈ text.splitOn a by simp [List.splitOn, hs, h])

theorem splitOn_injective [DecidableEq α] (a : α) :
    Function.Injective (splitOn a) := by
  intro text other h
  have hback := congrArg [a].intercalate h
  rwa [intercalate_splitOn, intercalate_splitOn] at hback

theorem splitOn_intercalate_eq_flatMap [DecidableEq α] (a : α) {texts : List (List α)}
    (h : texts ≠ []) : ([a].intercalate texts).splitOn a = texts.flatMap (splitOn a) := by
  induction texts with
  | nil => exact absurd rfl h
  | cons text rest ih =>
    cases rest with
    | nil => simp
    | cons next rest =>
      rw [intercalate_cons_cons, append_assoc, singleton_append, splitOn_append_cons_self,
        ih (cons_ne_nil next rest)]
      rfl

end Pintail.Words
