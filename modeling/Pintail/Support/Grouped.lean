import Mathlib.Data.List.Flatten
import Mathlib.Data.List.Perm.Basic
import Mathlib.Data.List.Perm.Lattice

/-! # Groups of a list by a key

The members of a list fall into groups by their key, in the order in which the keys first occur.
When each member of a list is replaced by a nonempty block of members with its key, each group is
replaced by the blocks of its members.
-/

namespace Pintail.Grouped

open List List.Perm

variable {α β κ : Type*} [DecidableEq κ]

@[simp] def firsts (key : α → κ) : List α → List α
  | [] => []
  | a :: l => a :: (firsts key l).filter fun b => key b ≠ key a

def groupsOf (key : α → κ) (l : List α) : List (α × List α) :=
  (firsts key l).map fun a => (a, l.filter fun b => key b = key a)

variable {key : α → κ}

theorem firsts_append_of_key {k : κ} : ∀ {block l : List α},
    (∀ a ∈ block, key a = k) →
    (firsts key (block ++ l)).filter (fun b => key b ≠ k) =
      (firsts key l).filter fun b => key b ≠ k
  | [], _, _ => rfl
  | a :: block, l, h => by
    obtain ⟨ha, hblock⟩ := forall_mem_cons.mp h
    have hself : decide (key a ≠ k) = false := by simp [ha]
    rw [cons_append, firsts, filter_cons, hself, filter_filter]
    simp only [ha, Bool.and_self]
    exact firsts_append_of_key hblock

variable {l : List α} {r : α → β → Prop} {m : List β}

theorem forall₂_filter {p : α → Bool} {q : β → Bool} (hpq : ∀ a b, r a b → p a = q b)
    (h : List.Forall₂ r l m) : List.Forall₂ r (l.filter p) (m.filter q) :=
  rel_filter (fun a b hab => by simp [hpq a b hab]) h

theorem forall₂_flatMap_same {γ δ : Type*} {s : γ → δ → Prop} {f : α → List γ} {g : α → List δ}
    (h : ∀ a ∈ l, List.Forall₂ s (f a) (g a)) : List.Forall₂ s (l.flatMap f) (l.flatMap g) := by
  refine rel_flatMap (R := fun a b => a = b ∧ a ∈ l) (forall₂_same.mpr fun a ha => ⟨rfl, ha⟩) ?_
  rintro a _ ⟨rfl, ha⟩
  exact h a ha

theorem flatMap_filter_eq {γ : Type*} (l : List α) (p : α → Bool) (f : α → List γ) :
    (l.filter p).flatMap f = l.flatMap fun a => if p a then f a else [] := by
  induction l with
  | nil => rfl
  | cons a l ih =>
    rw [filter_cons, flatMap_cons, ← ih]
    split <;> simp

theorem forall₂_groupsOf_of_forall₂ {key' : β → κ} (hkey : ∀ a b, r a b → key a = key' b)
    (h : List.Forall₂ r l m) :
    List.Forall₂ (fun g g' => r g.1 g'.1 ∧ List.Forall₂ r g.2 g'.2) (groupsOf key l)
      (groupsOf key' m) := by
  have hfirsts : List.Forall₂ r (firsts key l) (firsts key' m) := by
    induction h with
    | nil => exact .nil
    | cons hab hrest ih =>
      refine .cons hab (forall₂_filter (fun c d hcd => ?_) ih)
      rw [hkey _ _ hab, hkey c d hcd]
  unfold groupsOf
  rw [forall₂_map_left_iff, forall₂_map_right_iff]
  refine hfirsts.imp fun a b hab => ⟨hab, forall₂_filter (fun c d hcd => ?_) h⟩
  rw [hkey a b hab, hkey c d hcd]

section Blocks

variable {key : α → κ} {key' : β → κ} {block : β → List α}

/-- Every member of a list stands for a nonempty block of members with its key. -/
def Blocks (key : α → κ) (key' : β → κ) (block : β → List α) (l : List β) : Prop :=
  ∀ b ∈ l, block b ≠ [] ∧ ∀ a ∈ block b, key a = key' b

variable {l : List β}

theorem forall₂_firsts (h : Blocks key key' block l) :
    List.Forall₂ (fun a b => (a ∈ block b ∧ b ∈ l)) (firsts key (l.flatMap block))
      (firsts key' l) := by
  induction l with
  | nil => exact .nil
  | cons b l ih =>
    obtain ⟨⟨hne, hkey⟩, hl⟩ := forall_mem_cons.mp h
    obtain ⟨a, rest, hblock⟩ := exists_cons_of_ne_nil hne
    have hhead : key a = key' b := hkey a (by simp [hblock])
    have hrest : ∀ a ∈ rest, key a = key' b := fun a ha => hkey a (by simp [hblock, ha])
    have htail : List.Forall₂ (fun a c => a ∈ block c ∧ c ∈ b :: l)
        (firsts key (l.flatMap block)) (firsts key' l) :=
      (ih hl).imp fun _ _ hac => ⟨hac.1, mem_cons_of_mem _ hac.2⟩
    rw [flatMap_cons, hblock, cons_append, firsts, hhead, firsts_append_of_key hrest]
    refine .cons ⟨by simp [hblock], mem_cons_self⟩ (forall₂_filter ?_ htail)
    rintro a c ⟨ha, hc⟩
    rw [(h c hc).2 a ha]

theorem filter_flatMap_blocks (h : Blocks key key' block l) (k : κ) :
    (l.flatMap block).filter (fun a => key a = k) =
      (l.filter fun b => key' b = k).flatMap block := by
  induction l with
  | nil => rfl
  | cons b l ih =>
    obtain ⟨⟨-, hkey⟩, hl⟩ := forall_mem_cons.mp h
    rw [flatMap_cons, filter_append, ih hl]
    by_cases hb : key' b = k
    · have hall : (block b).filter (fun a => key a = k) = block b :=
        filter_eq_self.mpr fun a ha => by simp [hkey a ha, hb]
      simp [hb, hall]
    · have hnone : (block b).filter (fun a => key a = k) = [] :=
        filter_eq_nil_iff.mpr fun a ha => by simp [hkey a ha, hb]
      simp [hb, hnone]

theorem forall₂_groupsOf (h : Blocks key key' block l) :
    List.Forall₂ (fun g g' => (g.1 ∈ block g'.1 ∧ g'.1 ∈ l) ∧ g.2 = g'.2.flatMap block)
      (groupsOf key (l.flatMap block)) (groupsOf key' l) := by
  unfold groupsOf
  rw [forall₂_map_left_iff, forall₂_map_right_iff]
  refine (forall₂_firsts h).imp fun a b hab => ⟨hab, ?_⟩
  rw [(h b hab.2).2 a hab.1]
  exact filter_flatMap_blocks h _

end Blocks

theorem mem_of_groupsOf {g : α × List α} (h : g ∈ groupsOf key l) : ∀ a ∈ g.2, a ∈ l := by
  obtain ⟨a, -, rfl⟩ := mem_map.mp h
  exact fun b hb => mem_of_mem_filter hb

section Firsts

variable {key : α → κ} {l : List α}

theorem filter_firsts (p : κ → Bool) (l : List α) :
    (firsts key l).filter (fun a => p (key a)) = firsts key (l.filter fun a => p (key a)) := by
  induction l with
  | nil => rfl
  | cons a l ih =>
    rw [firsts, filter_cons, filter_cons]
    have hswap : ((firsts key l).filter fun b => key b ≠ key a).filter (fun b => p (key b)) =
        ((firsts key l).filter fun b => p (key b)).filter fun b => key b ≠ key a := by
      simp [Bool.and_comm]
    rw [hswap, ih]
    split
    · rw [firsts]
    · rename_i hp
      -- a dropped member hides no later one: those with its key are dropped too
      apply filter_eq_self.mpr
      intro b hb
      rw [← ih] at hb
      have hpb := (mem_filter.mp hb).2
      exact decide_eq_true fun heq => hp (heq ▸ hpb)

theorem firsts_sublist (key : α → κ) (l : List α) : (firsts key l).Sublist l := by
  induction l with
  | nil => exact .slnil
  | cons a l ih => exact (filter_sublist.trans ih).cons_cons a

theorem groupsOf_cons (a : α) (l : List α) :
    groupsOf key (a :: l) = (a, (a :: l).filter fun b => key b = key a) ::
      groupsOf key (l.filter fun b => key b ≠ key a) := by
  unfold groupsOf
  rw [firsts, map_cons, filter_firsts (fun k => decide (k ≠ key a))]
  congr 1
  apply map_congr_left
  intro b hb
  have hne : key b ≠ key a := by
    rw [← filter_firsts (fun k => decide (k ≠ key a))] at hb
    exact of_decide_eq_true (mem_filter.mp hb).2
  rw [filter_cons_of_neg (by simpa using fun heq => hne heq.symm), filter_filter]
  congr 1
  apply filter_congr
  intro c _
  by_cases hc : key c = key b
  · simp [hc, hne]
  · simp [hc]

theorem ne_nil_of_groupsOf {g : α × List α} (h : g ∈ groupsOf key l) : g.2 ≠ [] := by
  obtain ⟨a, ha, rfl⟩ := mem_map.mp h
  refine ne_nil_of_mem (a := a) (mem_filter.mpr ⟨?_, by simp⟩)
  exact (firsts_sublist key l).mem ha

theorem flatMap_groupsOf_perm (l : List α) : ((groupsOf key l).flatMap (·.2)).Perm l := by
  match l with
  | [] => exact .refl _
  | a :: l =>
    rw [groupsOf_cons]
    have hrest := flatMap_groupsOf_perm (l.filter fun b => key b ≠ key a)
    have hsplit := filter_append_perm (fun b => key b = key a) (a :: l)
    apply (append_left _ hrest).trans
    simpa using hsplit
termination_by l.length
decreasing_by exact Nat.lt_succ_of_le (List.length_filter_le _ _)

theorem mem_key_firsts {k : κ} : (∃ a ∈ firsts key l, key a = k) ↔ ∃ a ∈ l, key a = k := by
  induction l with
  | nil => simp
  | cons a l ih =>
    simp only [firsts, mem_cons, mem_filter, exists_eq_or_imp, decide_eq_true_eq]
    by_cases hk : key a = k
    · simp [hk]
    · simp only [hk, false_or]
      rw [← ih]
      constructor
      · rintro ⟨b, ⟨hb, -⟩, rfl⟩
        exact ⟨b, hb, rfl⟩
      · rintro ⟨b, hb, rfl⟩
        exact ⟨b, ⟨hb, fun heq => hk heq.symm⟩, rfl⟩

theorem firsts_append (l m : List α) :
    firsts key (l ++ m) = firsts key l ++ (firsts key m).filter fun b => !l.any (key · = key b) := by
  induction l with
  | nil => simp
  | cons a l ih =>
    rw [cons_append, firsts, ih, firsts, filter_append, cons_append, filter_filter]
    congr 2
    apply filter_congr
    intro b _
    simp [eq_comm]

theorem firsts_append_congr {l' m m' : List α} (hl : firsts key l = firsts key l')
    (hm : firsts key m = firsts key m') : firsts key (l ++ m) = firsts key (l' ++ m') := by
  rw [firsts_append, firsts_append, hm]
  congr 1
  apply filter_congr
  intro b _
  congr 1
  rw [Bool.eq_iff_iff, any_eq_true, any_eq_true]
  simp only [decide_eq_true_eq]
  rw [← mem_key_firsts, hl, mem_key_firsts]

theorem firsts_flatMap_congr {l : List β} {f f' : β → List α}
    (h : ∀ b ∈ l, firsts key (f b) = firsts key (f' b)) :
    firsts key (l.flatMap f) = firsts key (l.flatMap f') := by
  induction l with
  | nil => rfl
  | cons b l ih =>
    obtain ⟨hb, hl⟩ := forall_mem_cons.mp h
    exact firsts_append_congr hb (ih hl)

theorem firsts_map {f : β → α} (l : List β) :
    firsts key (l.map f) = (firsts (fun b => key (f b)) l).map f := by
  induction l with
  | nil => rfl
  | cons b l ih => simp [ih, filter_map, Function.comp_def]

theorem firsts_flatMap_firsts {κ' : Type*} [DecidableEq κ'] {key' : β → κ'} {f : β → List α}
    {l : List β} (h : ∀ b ∈ l, ∀ c ∈ l, key' b = key' c → f b = f c) :
    firsts key ((firsts key' l).flatMap f) = firsts key (l.flatMap f) := by
  induction l with
  | nil => rfl
  | cons b l ih =>
    have hl : ∀ c ∈ l, ∀ d ∈ l, key' c = key' d → f c = f d := fun c hc d hd =>
      h c (mem_cons_of_mem _ hc) d (mem_cons_of_mem _ hd)
    -- what a member with the key of `b` adds is in the block of `b` already
    have hdrop : (((firsts key' l).filter fun c => key' c ≠ key' b).flatMap f).filter
          (fun a => !(f b).any (key · = key a)) =
        ((firsts key' l).flatMap f).filter fun a => !(f b).any (key · = key a) := by
      rw [filter_flatMap, filter_flatMap, flatMap_filter_eq]
      apply flatMap_congr
      intro c hc
      split
      · rfl
      · rename_i heq
        have hf : f c = f b := h c (mem_cons_of_mem _ ((firsts_sublist key' l).mem hc)) b
          mem_cons_self (by simpa using heq)
        refine (filter_eq_nil_iff.mpr fun a ha => ?_).symm
        simpa using ⟨a, hf ▸ ha, rfl⟩
    rw [firsts, flatMap_cons, flatMap_cons, firsts_append, firsts_append]
    congr 1
    have hfilter : ∀ m : List α, (firsts key m).filter (fun a => !(f b).any (key · = key a)) =
        firsts key (m.filter fun a => !(f b).any (key · = key a)) :=
      fun m => filter_firsts (fun k => !(f b).any (key · = k)) m
    rw [hfilter, hdrop, ← hfilter, ih hl]

end Firsts

section Spread

variable {π ξ γ ι : Type*} [DecidableEq ι] (outer : List π) (inner : List ξ) (key : ξ → κ)
  (block : π → ξ → List γ)

/-- Every member of the inner list beside what it gives with each member of the outer one. -/
def spread : List (γ × ξ) :=
  outer.flatMap fun p => inner.flatMap fun x => (block p x).map (·, x)

/-- The same over the groups of the inner list, each taken by its first member. -/
def spreadGroups : List (γ × List ξ) :=
  outer.flatMap fun p => (groupsOf key inner).flatMap fun g => (block p g.1).map (·, g.2)

variable {outer inner key block}

theorem flatMap_swap_perm (l : List γ) : ∀ m : List ξ,
    (m.flatMap fun x => l.map (·, x)).Perm (l.flatMap fun g => m.map (g, ·))
  | [] => by simp
  | x :: m => by
    apply (append_left _ (flatMap_swap_perm l m)).trans
    induction l with
    | nil => simp
    | cons g l ih =>
      refine .cons _ ?_
      refine perm_append_comm_assoc _ _ _ |>.trans ?_
      exact append_left _ ih

theorem filter_spreadGroups (name : γ → ι) (i : ι) (l : List (γ × List ξ)) :
    ((l.flatMap fun g => g.2.map (g.1, ·)).filter fun item => name item.1 = i).map Prod.snd =
      (l.filter fun g => name g.1 = i).flatMap Prod.snd := by
  induction l with
  | nil => rfl
  | cons g l ih =>
    rw [flatMap_cons, filter_append, map_append, ih]
    by_cases hg : name g.1 = i
    · simp [hg, filter_map, Function.comp_def]
    · simp [hg]

variable (hblock : ∀ p ∈ outer, ∀ x ∈ inner, ∀ y ∈ inner, key x = key y → block p x = block p y)

include hblock

theorem spread_perm :
    (spread outer inner block).Perm
      ((spreadGroups outer inner key block).flatMap fun g => g.2.map (g.1, ·)) := by
  unfold spread spreadGroups
  rw [flatMap_assoc]
  apply flatMap_left _
  intro p hp
  have hgroups : inner.Perm ((groupsOf key inner).flatMap (·.2)) :=
    (flatMap_groupsOf_perm inner).symm
  refine (hgroups.flatMap_right fun x => (block p x).map (·, x)).trans ?_
  rw [flatMap_assoc, flatMap_assoc]
  apply flatMap_left _
  intro g hg
  have hmembers : g.2.flatMap (fun x => (block p x).map (·, x)) =
      g.2.flatMap fun x => (block p g.1).map (·, x) := by
    obtain ⟨a, ha, rfl⟩ := mem_map.mp hg
    apply flatMap_congr
    intro x hx
    have hkey := of_decide_eq_true (mem_filter.mp hx).2
    rw [hblock p hp x (mem_of_mem_filter hx) a ((firsts_sublist key inner).mem ha) hkey]
  rw [hmembers, flatMap_map]
  exact flatMap_swap_perm _ _

theorem map_firsts_spread (name : γ → ι) :
    (firsts (fun item => name item.1) (spread outer inner block)).map Prod.fst =
      (firsts (fun item => name item.1) (spreadGroups outer inner key block)).map Prod.fst := by
  have hmap : ∀ {τ : Type _} (l : List (γ × τ)),
      (firsts (fun item => name item.1) l).map Prod.fst = firsts name (l.map Prod.fst) :=
    fun l => (firsts_map l).symm
  rw [hmap, hmap]
  simp only [spread, spreadGroups, map_flatMap, map_map, Function.comp_def, map_id']
  apply firsts_flatMap_congr
  intro p hp
  rw [groupsOf, flatMap_map]
  exact (firsts_flatMap_firsts (hblock p hp)).symm

theorem forall₂_groupsOf_spread (name : γ → ι) :
    List.Forall₂ (fun g g' => g.1.1 = g'.1.1 ∧ (g.2.map Prod.snd).Perm (g'.2.flatMap Prod.snd))
      (groupsOf (fun item => name item.1) (spread outer inner block))
      (groupsOf (fun item => name item.1) (spreadGroups outer inner key block)) := by
  have hfirsts := map_firsts_spread hblock name
  rw [← forall₂_eq_eq_eq, forall₂_map_left_iff, forall₂_map_right_iff] at hfirsts
  unfold groupsOf
  rw [forall₂_map_left_iff, forall₂_map_right_iff]
  refine hfirsts.imp fun a a' heq => ⟨heq, ?_⟩
  have hperm := ((spread_perm hblock).filter fun item => name item.1 = name a.1).map Prod.snd
  rw [filter_spreadGroups] at hperm
  simpa [heq] using hperm

end Spread

end Pintail.Grouped
