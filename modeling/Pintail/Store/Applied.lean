import Mathlib.Order.UpperLower.CompleteLattice
import Pintail.Store.Moves

/-! # The highest applied version

A replicated table remembers the highest row version it has applied, stored or not. Flushes and
merges leave it as it is, and rows raise it no further than their own versions.
-/

namespace Pintail

open Traced List

section LowerSet

variable {below : LowerSet UInt64}

theorem LowerSet.max_mem {a b : UInt64} (ha : a ∈ below) (hb : b ∈ below) : max a b ∈ below := by
  rcases max_choice a b with h | h
  · rwa [h]
  · rwa [h]

theorem LowerSet.foldl_max_mem {versions : List UInt64} {a : UInt64} (ha : a ∈ below)
    (h : ∀ version ∈ versions, version ∈ below) : versions.foldl max a ∈ below :=
  versions.foldlRecOn max ha fun _ hb version hv => LowerSet.max_mem hb (h version hv)

theorem Memtable.newestVersion_applyAll_mem {rows : List StoredRow}
    (hrows : ∀ row ∈ rows, row.version ∈ below) {table : Memtable}
    (h : ∀ version ∈ table.newestVersion, version ∈ below) :
    ∀ version ∈ (table.applyAll rows).newestVersion, version ∈ below := by
  induction rows generalizing table with
  | nil => exact h
  | cons row rows ih =>
    rw [forall_mem_cons] at hrows
    apply ih hrows.2
    intro version hv
    rw [newestVersion_apply, Option.mem_some_iff] at hv
    rw [← hv]
    cases hnewest : table.newestVersion with
    | none => exact hrows.1
    | some newest => exact LowerSet.max_mem (h newest hnewest) hrows.1

theorem Segment.maxVersion_mem {segment : Segment} (h : ∀ row ∈ segment.rows, row.version ∈ below) :
    segment.maxVersion ∈ below := by
  cases hmax : (segment.rows.map StoredRow.version).max? with
  | none => simp [segment.nonempty] at hmax
  | some version =>
    obtain ⟨row, hr, rfl⟩ := mem_map.mp (max?_mem hmax)
    rw [maxVersion, hmax]
    exact h row hr

end LowerSet

namespace StagedPieces

def rows (state : StagedPieces) : List StoredRow := (state.pieces ++ [state.piece]).flatten

variable {state : StagedPieces} {row r : StoredRow}

theorem mem_piece_take (h : r ∈ (state.take row).piece) : r = row ∨ r ∈ state.piece := by
  revert h
  unfold take
  split_ifs
  · exact fun h => (mem_append.mp h).symm.imp mem_singleton.mp mem_of_mem_dropLast
  · exact fun h => .inl (mem_singleton.mp h)
  · exact fun h => (mem_append.mp h).symm.imp_left mem_singleton.mp

theorem mem_rows_take (h : r ∈ (state.take row).rows) : r = row ∨ r ∈ state.rows := by
  have hpieces : ∀ piece ∈ (state.take row).pieces, r ∈ piece → r ∈ state.rows := by
    unfold take
    split_ifs
    all_goals exact fun piece hp hr => mem_flatten.mpr ⟨piece, by simp_all, hr⟩
  obtain ⟨piece, hp, hr⟩ := mem_flatten.mp h
  rcases mem_append.mp hp with hp | hp
  · exact .inr (hpieces piece hp hr)
  · obtain rfl := mem_singleton.mp hp
    apply (mem_piece_take hr).imp_right
    intro hr
    exact mem_flatten.mpr ⟨_, mem_append_right _ (mem_singleton_self _), hr⟩

theorem mem_rows_foldl_take {rest : List StoredRow} (h : r ∈ (rest.foldl take state).rows) :
    r ∈ rest ∨ r ∈ state.rows := by
  induction rest generalizing state with
  | nil => exact .inr h
  | cons first rest ih =>
    rcases ih h with h | h
    · exact .inl (mem_cons_of_mem _ h)
    · exact (mem_rows_take h).imp_left fun h => mem_cons.mpr (.inl h)

end StagedPieces

theorem mem_of_mem_stagedPieces {rows piece : List StoredRow} (hp : piece ∈ stagedPieces rows)
    {row : StoredRow} (hr : row ∈ piece) : row ∈ rows := by
  have hmem : row ∈ (stagedPieces rows).flatten := mem_flatten.mpr ⟨piece, hp, hr⟩
  rcases StagedPieces.mem_rows_foldl_take hmem with h | h
  · exact (perm_insertionSort _ rows).mem_iff.mp h
  · cases h

namespace TableStore

/-- The versions the replicated table has applied, or is about to publish, lie in a lower set. -/
structure Within (below : LowerSet UInt64) (store : TableStore) : Prop where
  replicated : store.options.transactional = false
  applied : store.appliedVersion ∈ below
  staged : ∀ segment ∈ store.staged, segment.maxVersion ∈ below

/-- Rows come with versions of the lower set. -/
def Admits (below : LowerSet UInt64) (_ : TableStore) : Growth → Prop
  | .write rows | .stage rows => ∀ row ∈ rows, row.version ∈ below
  | .publish | .discard => True
  | .chunk .. => False

section Moves

variable {world : World} {below : LowerSet UInt64} {s s' : TableStore} {visited : List TableStore}

theorem appliedVersion_afterFlush (h : s.options.transactional = false) (segment : Segment) :
    (s.afterFlush segment).appliedVersion = s.appliedVersion := by
  have hflushed : ∀ flushed : TableStore, flushed.commitVersion = s.flushVersion →
      flushed.memtable = .empty → flushed.appliedVersion = s.appliedVersion := by
    intro flushed hc hm
    rw [appliedVersion, appliedVersion, hc, hm, flushVersion, h]
    cases s.memtable.newestVersion <;> simp [Memtable.empty]
  unfold afterFlush
  split_ifs
  · exact hflushed _ rfl rfl
  · exact hflushed _ rfl rfl

theorem Within.newest (h : s.Within below) : ∀ version ∈ s.memtable.newestVersion,
    version ∈ below := by
  intro version hv
  refine below.lower ?_ h.applied
  rw [appliedVersion, Option.mem_def.mp hv]
  exact le_max_right _ _

theorem Within.commit (h : s.Within below) : s.commitVersion ∈ below :=
  below.lower (le_max_left _ _) h.applied

theorem Within.move (hm : Move world (Admits below) s visited s') (h : s.Within below) :
    s'.Within below := by
  cases hm with
  | ask | rowId | spawn | dropMerge | merged | rewritten | compacted | stagedIds | idTaken =>
    exact ⟨h.replicated, h.applied, h.staged⟩
  | flush hne hw =>
    refine ⟨?_, by rw [appliedVersion_afterFlush h.replicated]; exact h.applied, ?_⟩
    · unfold afterFlush
      split_ifs <;> exact h.replicated
    · unfold afterFlush
      split_ifs <;> exact h.staged
  | staged ha he hw =>
    refine ⟨h.replicated, h.applied, fun piece hp => ?_⟩
    rcases mem_append.mp hp with hp | hp
    · exact h.staged piece hp
    · obtain rfl := mem_singleton.mp hp
      apply Segment.maxVersion_mem
      intro row hr
      rw [(Segment.written_of_write hw).rows_eq] at hr
      obtain ⟨row', hr', rfl⟩ := mem_map.mp hr
      exact ha row' hr'
  | nothingNew | discarded => exact ⟨h.replicated, h.applied, nofun⟩
  | chunked ha => exact ha.elim
  | published ha hu =>
    refine ⟨h.replicated, ?_, nofun⟩
    refine LowerSet.max_mem ?_ (below.lower (le_max_right _ _) h.applied)
    change s.stagedVersion ∈ below
    rw [stagedVersion, h.replicated]
    apply LowerSet.foldl_max_mem h.commit
    intro version hv
    obtain ⟨segment, hs, rfl⟩ := mem_map.mp hv
    exact h.staged segment hs
  | written ha hs hv hp hl =>
    rename_i sequence payload rows
    refine ⟨h.replicated, LowerSet.max_mem h.commit ?_, h.staged⟩
    have hnewest := Memtable.newestVersion_applyAll_mem ha h.newest
    change (s.memtable.applyAll rows).newestVersion.getD 0 ∈ below
    cases hv : (s.memtable.applyAll rows).newestVersion with
    | none => exact below.lower UInt64.zero_le h.applied
    | some version => exact hnewest version hv

theorem Within.chain (hm : Chain (Move world (Admits below)) s visited s') (h : s.Within below) :
    s'.Within below :=
  (hm.invariant (I := fun s => s.Within below) (V := fun _ => True)
    (fun _ _ _ hm h => ⟨fun _ _ => trivial, h.move hm⟩) h).2

end Moves

section Operations

variable {world : World} {below : LowerSet UInt64} {s : TableStore} {rows : List StoredRow}

variable {E : StoreError → TableStore → Prop}
  {α : Type} {x : Traced TableStore StoreError α} {Q : α → TableStore → Prop}

theorem Within.walks (hx : Walks (Move world (Admits below)) x Q E s) (h : s.Within below) :
    (x s).final.Within below :=
  h.chain hx.1

theorem Within.upkeep (hx : Walks (Upkeep world) x Q E s) (h : s.Within below) :
    (x s).final.Within below :=
  h.walks (hx.of_step fun _ _ _ => Upkeep.move)

theorem intake_of_admits (hrows : ∀ row ∈ rows, row.version ∈ below) (schema : TableSchema)
    (staged : List Segment) : Intake world (Admits below) schema staged (fun _ => True)
      (fun _ => True) (fun _ => True) rows where
  upkeep _ _ _ _ _ := trivial
  staging _ _ _ _ _ := trivial
  after _ _ _ _ _ := trivial
  ready _ _ _ := trivial
  stage _ hp _ _ := fun row hr => hrows row (mem_of_mem_stagedPieces hp hr)
  write _ _ _ _ := ⟨hrows, trivial⟩
  publish _ _ _ _ _ := ⟨trivial, fun _ => trivial, fun _ => trivial, fun _ => trivial⟩

variable (s) in
theorem walks_ingestAdmitted (hrows : ∀ row ∈ rows, row.version ∈ below) :
    Walks (Move world (Admits below)) (ingestCdcInOrder world rows) (fun _ _ => True)
      (fun _ _ => True) s := by
  have hfresh : ∀ row ∈ s.unapplied rows, row.version ∈ below := fun row hr =>
    hrows row (mem_of_mem_filter hr)
  exact walks_bind (walks_get
    (walks_ingestCdc (fun _ => intake_of_admits hfresh _ _) trivial fun _ => trivial))

variable (s) in
theorem walks_stageAdmitted (hrows : ∀ row ∈ rows, row.version ∈ below) :
    Walks (Move world (Admits below)) (stageCdc world rows) (fun _ _ => True) (fun _ _ => True)
      s := by
  have hfresh : ∀ row ∈ s.unapplied rows, row.version ∈ below := fun row hr =>
    hrows row (mem_of_mem_filter hr)
  exact ((walks_stageCdc rfl (fun _ => intake_of_admits hfresh _ _) trivial).of_step
    fun _ _ _ hm => hm.mono fun _ _ => OnlyStage.allowed).mono (fun _ _ _ => trivial) fun _ _ => id

variable (s) in
theorem walks_publishAdmitted : Walks (Move world (Admits below)) (publishStaged world)
    (fun _ _ => True) (fun _ _ => True) s :=
  walks_publishStaged (P := fun _ => True) (fun _ _ _ _ _ => trivial) trivial
    (fun _ => trivial) (fun _ => trivial) fun _ => trivial

end Operations

end TableStore

end Pintail
