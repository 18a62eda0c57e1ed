import Mathlib.Data.List.Nodup
import Mathlib.Order.Lattice
import Mathlib.Order.Nat

/-! # Placing a row image by the types of its columns

A row image without names is an order-preserving part of the schema. The decoder counts the ways the
image's types embed in the schema's, up to two, and where there is one it walks back through the
counts. What it returns is the only embedding.
-/

namespace Pintail.Cdc

open List

variable {τ : Type} [DecidableEq τ] (image schema : List τ)

/-- The entry for the first columns taken of the image and the first offered by the schema. -/
def ways : ℕ → ℕ → ℕ
  | 0, _ => 1
  | _ + 1, 0 => 0
  | taken + 1, offered + 1 =>
    let matched := if image[taken]? = schema[offered]? then ways taken offered else 0
    min (ways (taken + 1) offered + matched) 2

/-- Step over the offered columns that add nothing; there is no column before the first. -/
def skipBack (row : ℕ → ℕ) : ℕ → Option ℕ
  | 0 => none
  | offered + 1 =>
    if row offered = row (offered + 1) then skipBack row offered else some offered

def walkBack : ℕ → ℕ → List ℕ → Option (List ℕ)
  | 0, _, placement => some placement
  | taken + 1, offered, placement => do
    let offered ← skipBack (ways image schema (taken + 1)) offered
    walkBack taken offered (offered :: placement)

/-- Nothing is returned where the walk leaves the table. -/
def embedByType : Option (Option (List ℕ)) :=
  if schema.length < image.length then some none
  else if ways image schema image.length schema.length ≠ 1 then some none
  else some <$> walkBack image schema image.length schema.length []

/-- Increasing positions in the schema that hold the types of the image in order. -/
def Embeds (placement : List ℕ) : Prop :=
  placement.Pairwise (· < ·) ∧ placement.map (schema[·]?) = image.map some

/-- The embeddings of the first columns of the image in the first columns of the schema. -/
def embeddings : ℕ → ℕ → List (List ℕ)
  | 0, _ => [[]]
  | _ + 1, 0 => []
  | taken + 1, offered + 1 =>
    embeddings (taken + 1) offered ++
      if image[taken]? = schema[offered]? then (embeddings taken offered).map (· ++ [offered]) else []

theorem ways_eq (taken offered : ℕ) :
    ways image schema taken offered = min (embeddings image schema taken offered).length 2 := by
  fun_induction ways image schema taken offered with
  | case1 => simp [embeddings]
  | case2 => rfl
  | case3 taken offered matched ih ih' =>
    rw [embeddings, length_append]
    unfold matched
    split_ifs
    · rw [length_map]
      omega
    · rw [length_nil]
      omega

variable {image schema} {p : List ℕ} {taken offered : ℕ}

omit [DecidableEq τ] in
theorem embeds_append_singleton {type : τ} : Embeds (image ++ [type]) schema p ↔
    ∃ q x, p = q ++ [x] ∧ Embeds image schema q ∧ (∀ y ∈ q, y < x) ∧ schema[x]? = some type := by
  constructor
  · rintro ⟨hinc, hmap⟩
    rw [map_append, map_eq_append_iff] at hmap
    obtain ⟨q, last, rfl, hq, hlast⟩ := hmap
    obtain ⟨x, rfl, hx⟩ := map_eq_singleton_iff.mp hlast
    obtain ⟨hinc, -, hbelow⟩ := pairwise_append.mp hinc
    exact ⟨q, x, rfl, ⟨hinc, hq⟩, fun y hy => hbelow y hy x (mem_singleton_self x), hx⟩
  · rintro ⟨q, x, rfl, ⟨hinc, hmap⟩, hbelow, hx⟩
    constructor
    · exact pairwise_append.mpr ⟨hinc, pairwise_singleton .., by simpa using hbelow⟩
    · simp [hmap, hx]

theorem mem_embeddings (ht : taken ≤ image.length) (ho : offered ≤ schema.length) :
    p ∈ embeddings image schema taken offered ↔
      Embeds (image.take taken) schema p ∧ ∀ x ∈ p, x < offered := by
  fun_induction embeddings image schema taken offered generalizing p with
  | case1 =>
    rw [mem_singleton, take_zero, Embeds, map_nil, map_eq_nil_iff]
    constructor
    · rintro rfl
      simp
    · exact fun h => h.1.2
  | case2 taken =>
    constructor
    · exact fun h => absurd h not_mem_nil
    · rintro ⟨⟨-, hmap⟩, hlt⟩
      have hlen := congrArg List.length hmap
      rw [eq_nil_iff_forall_not_mem.mpr fun x hx => absurd (hlt x hx) (Nat.not_lt_zero x)] at hlen
      simp at hlen
      omega
  | case3 taken offered ih ih' =>
    have hget : image[taken]? = some image[taken] := getElem?_eq_getElem ht
    have hsplit : image.take (taken + 1) = image.take taken ++ [image[taken]] := by
      rw [take_add_one, hget, Option.toList_some]
    rw [mem_append, ih ht (by omega), hsplit, embeds_append_singleton]
    constructor
    · rintro (⟨hembeds, hlt⟩ | hp)
      · exact ⟨hembeds, fun x hx => (hlt x hx).trans (Nat.lt_succ_self _)⟩
      · split_ifs at hp with hmatch
        · obtain ⟨q, hq, rfl⟩ := mem_map.mp hp
          obtain ⟨hembeds, hlt⟩ := (ih' (by omega) (by omega)).mp hq
          refine ⟨⟨q, offered, rfl, hembeds, hlt, hmatch.symm.trans hget⟩, ?_⟩
          exact forall_mem_append.mpr ⟨fun x hx => (hlt x hx).trans (Nat.lt_succ_self _),
            forall_mem_singleton.mpr (Nat.lt_succ_self _)⟩
        · cases hp
    · rintro ⟨⟨q, x, rfl, hembeds, hbelow, hx⟩, hlt⟩
      rcases Nat.lt_or_eq_of_le (Nat.le_of_lt_succ (hlt x (by simp))) with hlo | rfl
      · exact .inl ⟨⟨q, x, rfl, hembeds, hbelow, hx⟩, forall_mem_append.mpr
          ⟨fun y hy => (hbelow y hy).trans hlo, forall_mem_singleton.mpr hlo⟩⟩
      · right
        rw [if_pos (hget.trans hx.symm)]
        exact mem_map_of_mem ((ih' (by omega) (by omega)).mpr ⟨hembeds, hbelow⟩)

theorem nodup_embeddings (ht : taken ≤ image.length) (ho : offered ≤ schema.length) :
    (embeddings image schema taken offered).Nodup := by
  fun_induction embeddings image schema taken offered with
  | case1 => exact nodup_singleton []
  | case2 => exact nodup_nil
  | case3 taken offered ih ih' =>
    apply List.Nodup.append (ih ht (by omega))
    · split_ifs
      · exact (ih' (by omega) (by omega)).map (append_left_injective _)
      · exact nodup_nil
    · intro p hp hq
      split_ifs at hq
      · obtain ⟨q, -, rfl⟩ := mem_map.mp hq
        have := ((mem_embeddings ht (by omega)).mp hp).2 offered (by simp)
        omega
      · cases hq

theorem walkBack_eq {placement : List ℕ} (h : embeddings image schema taken offered = [p]) :
    walkBack image schema taken offered placement = some (p ++ placement) := by
  induction taken generalizing offered p placement with
  | zero =>
    simp only [embeddings, List.cons.injEq, and_true] at h
    rw [walkBack, ← h, nil_append]
  | succ taken ih =>
    induction offered with
    | zero => cases h
    | succ offered ihskip =>
      have hone : ways image schema (taken + 1) (offered + 1) = 1 := by rw [ways_eq, h]; rfl
      rcases append_eq_singleton_iff.mp h with ⟨hnil, hp⟩ | ⟨hp, -⟩
      · split_ifs at hp with hmatch
        obtain ⟨q, hq, rfl⟩ := map_eq_singleton_iff.mp hp
        have hzero : ways image schema (taken + 1) offered = 0 := by rw [ways_eq, hnil]; rfl
        rw [walkBack, skipBack, hzero, hone, if_neg (by decide)]
        rw [Option.bind_eq_bind, Option.bind_some, ih hq, append_assoc, singleton_append]
      · have hsame : ways image schema (taken + 1) offered = 1 := by rw [ways_eq, hp]; rfl
        have hskip := ihskip hp
        rw [walkBack] at hskip ⊢
        rwa [skipBack, hsame, hone]

theorem embeds_iff : Embeds image schema p ↔
    p ∈ embeddings image schema image.length schema.length := by
  rw [mem_embeddings le_rfl le_rfl, take_length]
  refine ⟨fun h => ⟨h, fun x hx => ?_⟩, And.left⟩
  have hmem : schema[x]? ∈ image.map some := h.2 ▸ mem_map_of_mem hx
  obtain ⟨type, -, htype⟩ := mem_map.mp hmem
  exact (List.getElem?_eq_some_iff.mp htype.symm).1

theorem embeddings_eq_nil (h : offered < taken) : embeddings image schema taken offered = [] := by
  fun_induction embeddings image schema taken offered with
  | case1 => omega
  | case2 => rfl
  | case3 taken offered ih ih' =>
    rw [ih (by omega), ih' (by omega)]
    simp

/-- The decoder places an image exactly where it has one embedding, and places it so. -/
theorem embedByType_eq_some_iff (image schema : List τ) :
    ∃ result, embedByType image schema = some result ∧ ∀ p, result = some p ↔
      Embeds image schema p ∧ ∀ q, Embeds image schema q → q = p := by
  have hnodup := nodup_embeddings (le_refl image.length) (le_refl schema.length)
  have hways := ways_eq image schema image.length schema.length
  have hlong := @embeddings_eq_nil _ _ image schema image.length schema.length
  have hwalk := fun p => @walkBack_eq _ _ image schema p image.length schema.length []
  simp only [embeds_iff, embedByType, hways]
  generalize embeddings image schema image.length schema.length = all at *
  rcases all with _ | ⟨p, _ | ⟨q, rest⟩⟩
  · refine ⟨none, by simp, by simp⟩
  · have hfits : ¬ schema.length < image.length := fun hlt => absurd (hlong hlt) (cons_ne_nil _ _)
    refine ⟨some p, ?_, ?_⟩
    · simp [hfits, hwalk p rfl]
    · intro p'
      simp only [Option.some.injEq, mem_singleton]
      constructor
      · rintro rfl
        exact ⟨rfl, fun q hq => hq⟩
      · exact fun h => h.1.symm
  · refine ⟨none, by simp, fun p' => ?_⟩
    simp only [reduceCtorEq, false_iff, not_and]
    intro _ hall
    have hp := hall p mem_cons_self
    have hq := hall q (mem_cons_of_mem _ mem_cons_self)
    exact (nodup_cons.mp hnodup).1 (hp.trans hq.symm ▸ mem_cons_self)

end Pintail.Cdc
