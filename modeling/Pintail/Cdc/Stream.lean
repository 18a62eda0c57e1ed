import Pintail.Cdc.Transaction
import Pintail.Store.Runs
import Pintail.Store.Stored

/-! # Applying a stream

A stream resumes above the highest row version its tables store, applies the transactions that begin
above its floor, and writes them out in batches. A table leaves out what it has applied already, and
it remembers more than it stores: a merge may drop the newest row, a deletion. So every accepted row
is stored exactly when no table has applied a version at which a transaction could still begin.
-/

namespace Pintail

open Traced List Relation TableStore

namespace TableStore

def maxRowVersion (store : TableStore) : Option UInt64 :=
  (store.manifest.segments.map Segment.maxVersion ++
    store.memtable.values.map StoredRow.version).max?

end TableStore

namespace Cdc

open StreamPosition

/-- What a flush is about to write, recorded before it writes. -/
structure CdcApplyIntent where
  floor : UInt64
  highest : UInt64
  binlogFile : List Char
  binlogPos : UInt64

def storedVersionFloor (targets : List TableStore) : UInt64 :=
  (targets.filterMap maxRowVersion).max?.getD 0

def resumeFloor (intent : Option CdcApplyIntent) (position : StreamPosition) (stored : UInt64) :
    UInt64 :=
  match intent with
  | some intent =>
    if intent.binlogFile = position.file ∧ intent.binlogPos = position.pos ∧
        stored ≤ intent.highest then
      min intent.floor stored
    else stored
  | none => stored

/-- A stream between transactions: its tables, its position, and the closed transactions that wait
to be written. -/
structure Stream where
  targets : List TableStore
  position : StreamPosition
  batch : List PendingMutation
  /-- The pieces of a spilled transaction that are staged beside each table. -/
  staged : ℕ → List (List StoredRow)

namespace Stream

def resume (intent : Option CdcApplyIntent) (targets : List TableStore)
    (position : StreamPosition) : Stream where
  targets := targets
  position := { position with
    floor := max position.floor (resumeFloor intent position (storedVersionFloor targets)) }
  batch := []
  staged := fun _ => []

def rowsFor (stream : Stream) (index : ℕ) : List StoredRow :=
  (stream.batch.filter (·.targetIndex = index)).map PendingMutation.row

def opened (stream : Stream) (gtid : Option GtidIdentity) (file : List Char) (pos : UInt64) :
    StreamPosition :=
  { stream.position with pendingGtid := gtid, file, pos }

def raised (position : StreamPosition) (mutations : List PendingMutation) : StreamPosition :=
  { position with floor := (mutations.map (·.row.version)).foldl max position.floor }

/-- Write the table's share of the batch, and publish what is staged for it. -/
def write (world : World) (stream : Stream) (index : ℕ) : Traced TableStore StoreError Unit := do
  when (!(stream.rowsFor index).isEmpty) (void (ingestCdcInOrder world (stream.rowsFor index)))
  when (!(stream.staged index).isEmpty) (void (publishStaged world))

/-- Stage the pieces of a spilled transaction; what an earlier attempt left is given up. -/
def stagePieces (world : World) (pieces : List (List StoredRow)) :
    Traced TableStore StoreError Unit := do
  discardStaged
  pieces.forM (stageCdc world)

end Stream

/-- What a stream does; each table has a world of its own around it. Only a transaction with a GTID
is compared with the floor, a batch with staged pieces is due at once, and a failed staging ends the
stream. -/
inductive StreamStep (worlds : ℕ → World) (opens : Option GtidIdentity → Prop) :
    Stream → Stream → Prop
  | transaction {s : Stream} {gtid : Option GtidIdentity} {file : List Char}
    {pos first ordinal : UInt64} {mutations : List PendingMutation} {closed : StreamPosition}
    (hopens : opens gtid) (hdue : ∀ index, s.staged index = [])
    (haccepted : gtid.isSome = true → (s.opened gtid file pos).outOfOrder first = .ok none)
    (hrows : Numbered (s.opened gtid file pos) first mutations)
    (hclosed : (Stream.raised (s.opened gtid file pos) mutations).closeTransaction ordinal =
      .ok closed) :
    StreamStep worlds opens s { s with position := closed, batch := s.batch ++ mutations }
  | spilled {s : Stream} {gtid : Option GtidIdentity} {file : List Char}
    {pos first ordinal : UInt64} {mutations : List PendingMutation} {closed : StreamPosition}
    {pieces : ℕ → List (List StoredRow)} (hopens : opens gtid) (hbatch : s.batch = [])
    (haccepted : gtid.isSome = true → (s.opened gtid file pos).outOfOrder first = .ok none)
    (hrows : Numbered (s.opened gtid file pos) first mutations)
    (hpieces : ∀ index, pieces index ≠ [] → (pieces index).flatten =
      (mutations.filter (·.targetIndex = index)).map PendingMutation.row)
    (hstaged : ∀ index target, s.targets[index]? = some target →
      (Stream.stagePieces (worlds index) (pieces index) target).result = .ok ())
    (hclosed : (Stream.raised (s.opened gtid file pos) mutations).closeTransaction ordinal =
      .ok closed) :
    StreamStep worlds opens s
      { targets := s.targets.mapIdx fun index target =>
          (Stream.stagePieces (worlds index) (pieces index) target).final
        position := closed
        batch := mutations.filter fun mutation => (pieces mutation.targetIndex).isEmpty
        staged := pieces }
  | flush {s : Stream} :
    StreamStep worlds opens s
      { s with
        targets := s.targets.mapIdx fun index target => (s.write (worlds index) index target).final
        batch := []
        staged := fun _ => [] }
  | upkeep {s : Stream} {index : ℕ} {target : TableStore} {step : WriterStep}
    (htarget : s.targets[index]? = some target) (hstep : step ∈ [.flush, .compact, .maintain]) :
    StreamStep worlds opens s
      { s with targets := s.targets.set index (step.run (worlds index) target).final }

/-- A replicated table however many change batches it has applied, with flushes, merges and
reopenings between them. -/
inductive CdcReached (world : World) : TableStore → Prop
  | opened {disk : Disk} {schema : TableSchema} {options : StoreOptions} {s : TableStore}
    (hreplicated : options.transactional = false)
    (h : (TableStore.open world schema options disk).result = .ok s) : CdcReached world s
  | applied {s : TableStore} {rows : List StoredRow} (hs : CdcReached world s)
    (h : (ingestCdcInOrder world rows s).result.isOk = true) :
    CdcReached world (ingestCdcInOrder world rows s).final
  | spilled {s : TableStore} {pieces : List (List StoredRow)} (hs : CdcReached world s)
    (h : (publishStaged world (Stream.stagePieces world pieces s).final).result.isOk = true) :
    CdcReached world (publishStaged world (Stream.stagePieces world pieces s).final).final
  | upkeep {s : TableStore} {step : WriterStep} (hs : CdcReached world s)
    (hstep : step ∈ [.flush, .compact, .maintain]) : CdcReached world (step.run world s).final

namespace Stream

/-- What waits to be written to the table. -/
def waiting (stream : Stream) (index : ℕ) : List StoredRow :=
  stream.rowsFor index ++ (stream.staged index).flatten

/-- Writing the batch stores, in every table, all that waits for it. -/
def NothingDropped (worlds : ℕ → World) (stream : Stream) : Prop :=
  ∀ index target, stream.targets[index]? = some target →
    Passes (Holds (stream.waiting index)) (stream.write (worlds index) index) target

/-- The versions below every waiting row of the table and every version a transaction may still be
accepted at. -/
def before (stream : Stream) (index : ℕ) : LowerSet UInt64 where
  carrier := {version |
    (∀ first, stream.position.Begins first → stream.position.floor < first → version < first) ∧
      ∀ row ∈ stream.rowsFor index, version < row.version}
  lower' := fun _ _ hle h =>
    ⟨fun first hb hf => hle.trans_lt (h.1 first hb hf), fun row hr => hle.trans_lt (h.2 row hr)⟩

structure Ordered (stream : Stream) : Prop where
  within : ∀ (index : ℕ) (target : TableStore), stream.targets[index]? = some target →
    target.Within (stream.before index)
  stages : ∀ (index : ℕ) (target : TableStore), stream.targets[index]? = some target →
    target.Stages (stream.staged index).flatten
  apart : ∀ index : ℕ, stream.staged index ≠ [] → stream.rowsFor index = []
  batch_le : ∀ mutation ∈ stream.batch, mutation.row.version ≤ stream.position.floor

section Steps

variable {worlds : ℕ → World} {opens : Option GtidIdentity → Prop} {s s' : Stream} {index : ℕ}

theorem mem_rows {mutations : List PendingMutation} {row : StoredRow} :
    row ∈ (mutations.filter (·.targetIndex = index)).map PendingMutation.row ↔
      ⟨index, row⟩ ∈ mutations := by
  simp only [mem_map, mem_filter, decide_eq_true_eq]
  constructor
  · rintro ⟨mutation, ⟨hm, rfl⟩, rfl⟩
    exact hm
  · exact fun h => ⟨⟨index, row⟩, ⟨h, rfl⟩, rfl⟩

theorem mem_rowsFor {stream : Stream} {row : StoredRow} :
    row ∈ stream.rowsFor index ↔ ⟨index, row⟩ ∈ stream.batch := mem_rows

theorem Ordered.nothingDropped (worlds : ℕ → World) (h : s.Ordered) : s.NothingDropped worlds := by
  intro index target ht
  by_cases hnone : s.waiting index = []
  · rw [hnone]
    exact fun _ _ => ⟨target, mem_cons_self, nofun⟩
  have hwithin := h.within index target ht
  have hstages := h.stages index target ht
  unfold waiting at hnone ⊢
  unfold write
  cases hstaged : s.staged index with
  | nil =>
    rw [hstaged, flatten_nil, append_nil] at hnone
    rw [flatten_nil, append_nil, (isEmpty_eq_false_iff.mpr hnone :)]
    exact passes_of_left (passes_of_left (passes_ingestCdcInOrder hwithin.replicated
      hwithin.applied.2))
  | cons piece pieces =>
    have hrows := h.apart index (by simp [hstaged])
    rw [hrows, hstaged, nil_append] at hnone
    rw [hstaged] at hstages
    rw [hrows, nil_append]
    have hpublish : Passes (Holds (piece :: pieces).flatten) (void (publishStaged (worlds index)))
        target := passes_of_left (passes_publishStaged hnone hstages)
    exact hpublish

variable {version : UInt64}

theorem mem_before_of_le (index : ℕ) (hnone : s.rowsFor index = [])
    (h : version ≤ s.position.floor) : version ∈ s.before index :=
  ⟨fun _ _ hf => h.trans_lt hf, by simp [hnone]⟩

theorem le_foldl_max (versions : List UInt64) (a : UInt64) : a ≤ versions.foldl max a :=
  versions.foldlRecOn max le_rfl fun _ hle _ _ => le_max_of_le_left hle

theorem le_foldl_max_of_mem {versions : List UInt64} (h : version ∈ versions)
    (a : UInt64) : version ≤ versions.foldl max a := by
  induction versions generalizing a with
  | nil => cases h
  | cons first versions ih =>
    rcases mem_cons.mp h with rfl | h
    · exact (le_max_right _ _).trans (le_foldl_max versions _)
    · exact ih h _

structure Accepts (position closed : StreamPosition) (mutations : List PendingMutation) : Prop where
  floor_le : position.floor ≤ closed.floor
  row_le : ∀ mutation ∈ mutations, mutation.row.version ≤ closed.floor
  begins : ∀ first, closed.Begins first → position.Begins first
  first : ∃ first, position.Begins first ∧ position.floor < first ∧
    ∀ mutation ∈ mutations, first ≤ mutation.row.version

variable {mutations : List PendingMutation} {closed : StreamPosition} {target : TableStore}

theorem accepts {gtid : Option GtidIdentity} {file : List Char} {pos first ordinal : UInt64}
    (hgtid : gtid.isSome = true)
    (haccepted : gtid.isSome = true → (s.opened gtid file pos).outOfOrder first = .ok none)
    (hrows : Numbered (s.opened gtid file pos) first mutations)
    (hclosed : (raised (s.opened gtid file pos) mutations).closeTransaction ordinal = .ok closed) :
    Accepts s.position closed mutations := by
  obtain ⟨hfloor, hbits, hcarry, hset, hzero⟩ := of_closeTransaction hclosed
  obtain ⟨version, hversion, hlt⟩ := outOfOrder_eq_none.mp (haccepted hgtid)
  obtain ⟨gtid, rfl⟩ := Option.isSome_iff_exists.mp hgtid
  refine ⟨?_, ?_, ?_, version, ?_, hlt, ?_⟩
  · rw [hfloor]
    exact le_foldl_max _ _
  · intro mutation hm
    rw [hfloor]
    exact le_foldl_max_of_mem (mem_map_of_mem (f := fun m => m.row.version) hm) _
  · exact fun first h => h.of_carry_le hbits hcarry hset
  · exact ⟨gtid, (hzero gtid rfl).2, hversion⟩
  · intro mutation hm
    obtain ⟨eventPosition, ordinal, he, hv⟩ := hrows mutation hm
    exact version_le hversion hv he

theorem Accepts.before (h : Accepts s.position closed mutations) (targets : List TableStore)
    (staged : ℕ → List (List StoredRow)) (hv : version ∈ s.before index) :
    version ∈ before ⟨targets, closed, s.batch ++ mutations, staged⟩ index := by
  obtain ⟨first, hbegins, hlt, hle⟩ := h.first
  refine ⟨fun later hb hf => hv.1 later (h.begins later hb) (h.floor_le.trans_lt hf), ?_⟩
  intro row hr
  rcases mem_append.mp (mem_rowsFor.mp hr) with hr | hr
  · exact hv.2 row (mem_rowsFor.mpr hr)
  · exact (hv.1 first hbegins hlt).trans_le (hle _ hr)

theorem within_mono {below above : LowerSet UInt64} (h : target.Within below)
    (hle : ∀ version ∈ below, version ∈ above) : target.Within above :=
  ⟨h.replicated, hle _ h.applied, fun segment hs => hle _ (h.staged segment hs)⟩

theorem within_stagePieces (world : World) {below : LowerSet UInt64}
    {pieces : List (List StoredRow)} (h : target.Within below)
    (hrows : ∀ rows ∈ pieces, ∀ row ∈ rows, row.version ∈ below) :
    (stagePieces world pieces target).final.Within below := by
  have hstage : ∀ s, Walks (Move world (Admits below)) (pieces.forM (stageCdc world))
      (fun _ _ => True) (fun _ _ => True) s := by
    induction pieces with
    | nil => exact fun s => walks_pure trivial
    | cons rows pieces ih =>
      rw [forall_mem_cons] at hrows
      exact fun s => (walks_stageAdmitted s hrows.1).bind fun _ s' _ => ih hrows.2 s'
  exact h.walks (walks_bind (walks_modify (.discarded trivial) (hstage _)))

theorem stages_stagePieces {world : World} {pieces : List (List StoredRow)}
    (hreplicated : target.options.transactional = false)
    (hnew : ∀ rows ∈ pieces, ∀ row ∈ rows, target.appliedVersion < row.version)
    (hok : (stagePieces world pieces target).result = .ok ()) :
    (stagePieces world pieces target).final.Stages pieces.flatten := by
  have hidle : target.withoutStaged.Idle target.appliedVersion target.withoutStaged.staged :=
    ⟨hreplicated, rfl, nofun⟩
  exact ((walks_stageAll hidle hnew).of_ok hok).1

theorem within_write (world : World) {below : LowerSet UInt64} (h : target.Within below)
    (hrows : ∀ row ∈ s.rowsFor index, row.version ∈ below) :
    (s.write world index target).final.Within below := by
  have hpublish : ∀ target, Walks (Move world (Admits below))
      (when (!(s.staged index).isEmpty) (void (publishStaged world))) (fun _ _ => True)
      (fun _ _ => True) target := fun target =>
    walks_when (fun _ => (walks_publishAdmitted target).void) fun _ => trivial
  refine h.walks (walks_bind (walks_when (fun _ => ?_) fun _ => hpublish _))
  exact (walks_ingestAdmitted target hrows).void.mono (fun _ s' _ => hpublish s') fun _ _ => id

theorem walks_upkeep (world : World) {step : WriterStep}
    (hstep : step ∈ [.flush, .compact, .maintain]) (target : TableStore) :
    Walks (Upkeep world) (step.run world) (fun _ _ => True) (fun _ _ => True) target := by
  simp only [mem_cons, not_mem_nil, or_false] at hstep
  rcases hstep with rfl | rfl | rfl
  · exact walks_flush.void.mono (fun _ _ _ => trivial) fun _ _ _ => trivial
  · exact walks_compact.void.mono (fun _ _ => id) fun _ _ _ => trivial
  · exact walks_maintain.void.mono (fun _ _ => id) fun _ _ _ => trivial

theorem staged_upkeep (world : World) {step : WriterStep}
    (hstep : step ∈ [.flush, .compact, .maintain]) (target : TableStore) :
    (step.run world target).final.staged = target.staged :=
  ((walks_upkeep world hstep target).1.invariant (I := fun s => s.staged = target.staged)
    (V := fun _ => True) (fun _ _ _ hm he => ⟨fun _ _ => trivial, hm.staged_eq.trans he⟩) rfl).2

theorem Ordered.step (hs : StreamStep worlds (·.isSome) s s') (h : s.Ordered) : s'.Ordered := by
  cases hs with
  | transaction hgtid hdue haccepted hrows hclosed =>
    have ha := accepts hgtid haccepted hrows hclosed
    refine ⟨fun index target ht => within_mono (h.within index target ht) fun version hv =>
      ha.before _ _ hv, h.stages, fun index hne => absurd (hdue index) hne, fun mutation hm => ?_⟩
    rcases mem_append.mp hm with hm | hm
    · exact (h.batch_le mutation hm).trans ha.floor_le
    · exact ha.row_le mutation hm
  | @spilled _ _ _ _ _ mutations _ pieces hgtid hbatch haccepted hrows hpieces hstaged hclosed =>
    have ha := accepts hgtid haccepted hrows hclosed
    have hmem : ∀ index, ∀ rows ∈ pieces index, ∀ row ∈ rows, ⟨index, row⟩ ∈ mutations := by
      intro index rows hp row hr
      have hrow : row ∈ (pieces index).flatten := mem_flatten.mpr ⟨rows, hp, hr⟩
      rw [hpieces index (ne_nil_of_mem hp)] at hrow
      exact mem_rows.mp hrow
    -- a table with staged pieces has no rows in the batch
    have hapart : ∀ index, pieces index ≠ [] → ∀ row, ⟨index, row⟩ ∉ mutations.filter
        fun mutation => (pieces mutation.targetIndex).isEmpty := by
      intro index hne row hm
      exact hne (isEmpty_iff.mp (mem_filter.mp hm).2)
    refine ⟨fun index target ht => ?_, fun index target ht => ?_, fun index hne =>
      eq_nil_iff_forall_not_mem.mpr fun row hr => hapart index hne row (mem_rowsFor.mp hr),
      fun mutation hm => ha.row_le mutation (mem_of_mem_filter hm)⟩
    · rw [getElem?_mapIdx, Option.map_eq_some_iff] at ht
      obtain ⟨target, ht, rfl⟩ := ht
      refine within_stagePieces _ (within_mono (h.within index target ht) fun version hv => ?_) ?_
      · have hall := ha.before s.targets s.staged hv
        refine ⟨hall.1, fun row hr => hall.2 row (mem_rowsFor.mpr ?_)⟩
        exact mem_append_right _ (mem_of_mem_filter (mem_rowsFor.mp hr))
      · intro rows hp row hr
        refine mem_before_of_le index (eq_nil_iff_forall_not_mem.mpr fun other ho => ?_)
          (ha.row_le _ (hmem index rows hp row hr))
        exact hapart index (ne_nil_of_mem hp) other (mem_rowsFor.mp ho)
    · rw [getElem?_mapIdx, Option.map_eq_some_iff] at ht
      obtain ⟨target, ht, rfl⟩ := ht
      have hwithin := h.within index target ht
      refine stages_stagePieces hwithin.replicated (fun rows hp row hr => ?_) (hstaged index target ht)
      have hall := ha.before s.targets s.staged hwithin.applied
      exact hall.2 row (mem_rowsFor.mpr (mem_append_right _ (hmem index rows hp row hr)))
  | flush =>
    refine ⟨fun index target ht => ?_, fun _ _ _ => nofun, fun _ hne => absurd rfl hne, nofun⟩
    rw [getElem?_mapIdx, Option.map_eq_some_iff] at ht
    obtain ⟨target, ht, rfl⟩ := ht
    refine within_write _ (within_mono (h.within index target ht) fun version hv => ⟨hv.1, nofun⟩) ?_
    exact fun row hr => mem_before_of_le index rfl (h.batch_le _ (mem_rowsFor.mp hr))
  | @upkeep index target step htarget hstep =>
    have hset : ∀ other changed, (s.targets.set index (step.run (worlds index) target).final)[other]? =
        some changed → s.targets[other]? = some changed ∨
          other = index ∧ changed = (step.run (worlds index) target).final := by
      intro other changed ho
      rw [getElem?_set] at ho
      split_ifs at ho with he hlt
      · exact .inr ⟨he.symm, (Option.some.inj ho).symm⟩
      · exact .inl ho
    refine ⟨fun other changed ho => ?_, fun other changed ho => ?_, h.apart, h.batch_le⟩
    · rcases hset other changed ho with ho | ⟨rfl, rfl⟩
      · exact h.within other changed ho
      · exact (h.within _ _ htarget).upkeep (walks_upkeep _ hstep target)
    · rcases hset other changed ho with ho | ⟨rfl, rfl⟩
      · exact h.stages other changed ho
      · apply (h.stages _ _ htarget).of_subset
        rw [staged_upkeep _ hstep]
        exact Subset.refl _

theorem Ordered.run (hrun : ReflTransGen (StreamStep worlds (·.isSome)) s s') (h : s.Ordered) :
    s'.Ordered := by
  induction hrun with
  | refl => exact h
  | tail _ hstep ih => exact ih.step hstep

theorem carry_le_of_run (hrun : ReflTransGen (StreamStep worlds opens) s s') :
    s'.position.slotBits = s.position.slotBits ∧ s.position.carry ≤ s'.position.carry := by
  induction hrun with
  | refl => exact ⟨rfl, le_rfl⟩
  | tail _ hstep ih =>
    cases hstep with
    | transaction _ _ _ _ hclosed | spilled _ _ _ _ _ _ hclosed =>
      obtain ⟨-, hbits, hcarry, -⟩ := of_closeTransaction hclosed
      exact ⟨hbits.trans ih.1, ih.2.trans hcarry⟩
    | flush | upkeep => exact ih

/-- Whatever slots a transaction runs on into, and whatever the stream does after it, the rows of a
later transaction are numbered above its rows. -/
theorem versions_follow_commits {position : StreamPosition} {gtid later : GtidIdentity}
    {file : List Char} {pos event event' ordinal ordinal' count version' : UInt64}
    (hgtid : position.pendingGtid = some gtid)
    (hclosed : position.closeTransaction count = .ok s.position)
    (hrun : ReflTransGen (StreamStep worlds opens) s s') (hlater : gtid.sequence < later.sequence)
    (hordinal : ordinal < count) (hv : position.version event ordinal = .ok version)
    (hv' : (s'.opened (some later) file pos).version event' ordinal' = .ok version') :
    version < version' := by
  obtain ⟨hbits, hle⟩ := carry_le_of_run hrun
  obtain ⟨-, hkept, -, -, hcarry⟩ := of_closeTransaction hclosed
  have hcarry := (hcarry gtid hgtid).1
  rw [StreamPosition.version, hgtid] at hv
  have hv := toNat_of_gtidVersion hv
  have hv' := toNat_of_gtidVersion hv'
  simp only [opened, hbits, hkept] at hv'
  rw [UInt64.lt_iff_toNat_lt] at hlater hordinal ⊢
  rw [UInt64.le_iff_toNat_le] at hle
  -- the slot in which the rows end lies below the one where the later transaction begins
  have hend := Nat.lt_mul_div_succ count.toNat (Nat.two_pow_pos position.slotBits)
  have hslot := Nat.mul_le_mul_right (2 ^ position.slotBits) (show gtid.sequence.toNat +
    position.carry.toNat + (count.toNat / 2 ^ position.slotBits + 1) ≤
      later.sequence.toNat + s'.position.carry.toNat by omega)
  rw [Nat.add_mul, Nat.mul_comm (_ + 1)] at hslot
  omega

end Steps

end Stream

namespace CdcReached

variable {world : World} {s : TableStore}

theorem staged_of_open {disk : Disk} {schema : TableSchema} {options : StoreOptions}
    (h : (TableStore.open world schema options disk).result = .ok s) :
    s.options = options ∧ s.staged = [] := by
  iterate 9 obtain ⟨_, -, h⟩ := exists_of_bind_ok h
  cases h
  exact ⟨rfl, rfl⟩

theorem staged_of_applied {rows : List StoredRow} (hs : s.staged = [])
    (h : (ingestCdcInOrder world rows s).result.isOk = true) :
    (ingestCdcInOrder world rows s).final.staged = [] := by
  have hi : ∀ rows, Intake world (fun _ _ => True) s.schema s.staged (fun s => s.staged = [])
      (fun _ => True) (fun s => s.staged = []) rows := fun rows =>
    { upkeep := fun _ _ _ hm he => hm.staged_eq.trans he
      staging := fun _ _ _ _ _ => trivial
      after := fun _ _ _ hm he => hm.staged_eq.trans he
      ready := fun _ _ _ => trivial
      stage := fun _ _ _ _ => trivial
      write := fun _ _ _ he => ⟨trivial, he⟩
      publish := fun _ _ _ _ _ => ⟨trivial, id, fun _ => rfl, fun _ => rfl⟩ }
  have hw : Walks (Move world fun _ _ => True) (ingestCdcInOrder world rows)
      (fun _ s' => s'.staged = []) (fun _ _ => True) s :=
    walks_bind (walks_get (walks_ingestCdc (fun _ => hi _) hs fun _ => hs))
  obtain ⟨outcome, hok⟩ := Except.exists_of_isOk h
  exact hw.of_ok hok

theorem staged_of_published (h : (publishStaged world s).result.isOk = true) :
    (publishStaged world s).final.staged = [] := by
  have hw : Walks (Move world fun _ _ => True) (publishStaged world)
      (fun _ s' => s'.staged = []) (fun _ _ => True) s :=
    walks_publishStaged (fun _ _ _ hm he => hm.staged_eq.trans he) trivial id (fun _ => rfl)
      fun _ => rfl
  obtain ⟨published, hok⟩ := Except.exists_of_isOk h
  exact hw.of_ok hok

theorem idle (h : CdcReached world s) : s.Within ⊤ ∧ s.staged = [] := by
  induction h with
  | opened hreplicated h =>
    obtain ⟨hoptions, hstaged⟩ := staged_of_open h
    exact ⟨⟨by rw [hoptions, hreplicated], trivial, fun _ _ => trivial⟩, hstaged⟩
  | applied _ h ih =>
    exact ⟨ih.1.walks (walks_ingestAdmitted _ fun _ _ => trivial), staged_of_applied ih.2 h⟩
  | spilled _ h ih =>
    exact ⟨(Stream.within_stagePieces world ih.1 fun _ _ _ _ => trivial).walks
      (walks_publishAdmitted _), staged_of_published h⟩
  | upkeep _ hstep ih =>
    exact ⟨ih.1.upkeep (Stream.walks_upkeep world hstep _),
      (Stream.staged_upkeep world hstep _).trans ih.2⟩

end CdcReached

namespace Stream

/-- A key that no row of the table has. -/
theorem exists_fresh_key (target : TableStore) :
    ∃ key, ∀ row : StoredRow, row.key = key → ¬ target.Stores row := by
  let long (n : ℕ) : PrimaryKey := ⟨replicate (n + 1) (.uint64 0), by simp⟩
  have hlong : Function.Injective long := fun m n h => by
    simpa [long] using congrArg (List.length ∘ PrimaryKey.parts) h
  have : Infinite PrimaryKey := .of_injective long hlong
  let held := (target.memtable.values ++ target.manifest.segments.flatMap Segment.rows).map
    StoredRow.key
  obtain ⟨key, hkey⟩ := Infinite.exists_notMem_finset held.toFinset
  rw [mem_toFinset] at hkey
  refine ⟨key, ?_⟩
  rintro row rfl (hrow | ⟨segment, hsegment, hrow⟩)
  · exact hkey (mem_map_of_mem (mem_append_left _ hrow))
  · exact hkey (mem_map.mpr ⟨row.durable, mem_append_right _ (mem_flatMap.mpr ⟨segment, hsegment,
      hrow⟩), rfl⟩)

theorem exists_dropped (worlds : ℕ → World) {stream : Stream} {target : TableStore} {first : UInt64}
    (ht : target ∈ stream.targets) (hstaged : ∀ index, stream.staged index = [])
    (hbatch : stream.batch = []) (hroom : target.lastSequence ≠ maxRowId)
    (hbegins : stream.position.Begins first) (hlt : stream.position.floor < first)
    (hle : first ≤ target.appliedVersion) :
    ∃ next, StreamStep worlds (·.isSome) stream next ∧ ¬next.NothingDropped worlds := by
  obtain ⟨index, hindex⟩ := getElem?_of_mem ht
  obtain ⟨gtid, hzero, hversion⟩ := hbegins
  obtain ⟨key, hkey⟩ := exists_fresh_key target
  let row : StoredRow := ⟨key, [], first, false⟩
  let position := stream.opened (some gtid) stream.position.file stream.position.pos
  have hclosable : ∃ closed, (raised position [⟨index, row⟩]).closeTransaction 0 = .ok closed :=
    exists_closeTransaction fun g hg => Option.some.inj hg ▸ hzero
  obtain ⟨closed, hclosed⟩ := hclosable
  have haccepted : position.outOfOrder 0 = .ok none := outOfOrder_eq_none.mpr ⟨first, hversion, hlt⟩
  have hrows : Numbered position 0 [⟨index, row⟩] := by
    intro mutation hm
    obtain rfl := mem_singleton.mp hm
    exact ⟨0, 0, le_rfl, hversion⟩
  refine ⟨_, .transaction rfl hstaged (fun _ => haccepted) hrows hclosed, fun hdrop => ?_⟩
  -- the row is taken out, so the write does nothing and the table never shows it
  have hempty : target.unapplied [row] = [] := by simpa [unapplied, row] using hle
  have hpasses := hdrop index target hindex
  have hrun : ∀ world, void (ingestCdcInOrder world [row]) target = ⟨[], target, .ok ()⟩ :=
    fun world => by rw [void, run_bind_ok (run_ingestCdcInOrder_of_applied world hroom hempty)]; rfl
  simp only [Passes, waiting, write, rowsFor, hbatch, hstaged, nil_append, filter_singleton,
    decide_true, cond_true, map_cons, map_nil, isEmpty_cons, isEmpty_nil, Bool.not_false,
    Bool.not_true, when_true, when_false, run_bind_ok (hrun _), flatten_nil, append_nil] at hpasses
  obtain ⟨v, hv, hholds⟩ := hpasses () rfl
  obtain rfl := mem_singleton.mp hv
  obtain ⟨stored, ⟨hmem, hstores⟩, -⟩ := hholds row (mem_singleton_self row)
  obtain rfl := mem_singleton.mp hmem
  exact hkey row rfl hstores

/-- A resumed stream stores every accepted row exactly when no table has applied a version at or
above one that a transaction may begin at above the floor. -/
theorem nothingDropped_iff (worlds : ℕ → World) {targets : List TableStore}
    (htargets : ∀ (index : ℕ) (target : TableStore), targets[index]? = some target →
      CdcReached (worlds index) target)
    (hroom : ∀ target ∈ targets, target.lastSequence ≠ maxRowId) (position : StreamPosition) :
    (∀ stream, ReflTransGen (StreamStep worlds (·.isSome)) (resume none targets position) stream →
        stream.NothingDropped worlds) ↔
      ∀ target ∈ targets, ∀ first, position.Begins first →
        (resume none targets position).position.floor < first → target.appliedVersion < first := by
  constructor
  · intro h target ht first hbegins hlt
    by_contra hle
    have hdropped : ∃ next, StreamStep worlds (·.isSome) (resume none targets position) next ∧
        ¬next.NothingDropped worlds :=
      exists_dropped worlds ht (fun _ => rfl) rfl (hroom target ht) hbegins hlt (not_lt.mp hle)
    obtain ⟨next, hstep, hdrop⟩ := hdropped
    exact hdrop (h next (.single hstep))
  · intro h stream hrun
    refine (Ordered.run hrun ⟨fun index target ht => ?_, fun _ _ _ => nofun,
      fun _ hne => absurd rfl hne, nofun⟩).nothingDropped worlds
    obtain ⟨hwithin, hstaged⟩ := (htargets index target ht).idle
    refine ⟨hwithin.replicated, ⟨fun first hb hf => ?_, nofun⟩, by simp [hstaged]⟩
    exact h target (mem_of_getElem? ht) first hb hf

section Sample

def gtidStart : StreamPosition :=
  ⟨.mysqlGtid, some .empty, none, "binlog.000001".toList, 4, 0, 0, defaultSlotBits⟩

def sampleOptions : StoreOptions :=
  { StoreOptions.default with compactionFanIn := 2, backgroundCompaction := false }

/-- One row, inserted by the first transaction of the source. -/
def inserted : TableStore :=
  (ingestCdcInOrder sampleWorld [⟨sampleKey, [.utf8 "a"], 16777217, false⟩]
    (fresh sampleWorld sampleSchema sampleOptions)).final

theorem cdcReached_inserted : CdcReached sampleWorld inserted := by
  have hopened : (TableStore.open sampleWorld sampleSchema sampleOptions ⟨none, none⟩).result =
      .ok (fresh sampleWorld sampleSchema sampleOptions) := by
    rw [run_open_fresh _ _ (by decide +kernel)]
  exact .applied (.opened rfl hopened) (by decide +kernel)

theorem nothingDropped_iff_inserted : CdcReached sampleWorld inserted ∧ ∀ stream,
    ReflTransGen (StreamStep (fun _ => sampleWorld) (·.isSome)) (resume none [inserted] gtidStart)
      stream → stream.NothingDropped fun _ => sampleWorld := by
  refine ⟨cdcReached_inserted, (nothingDropped_iff (fun _ => sampleWorld) (fun index target ht => ?_)
    (forall_mem_singleton.mpr (by decide +kernel)) gtidStart).mpr ?_⟩
  · obtain rfl := mem_singleton.mp (mem_of_getElem? ht)
    exact cdcReached_inserted
  · intro target ht first _ hlt
    obtain rfl := mem_singleton.mp ht
    refine lt_of_eq_of_lt ?_ hlt
    decide +kernel

/-- The row is deleted by the second transaction, and a merge drops both. -/
def emptied : TableStore :=
  let flushed := (WriterStep.flush.run sampleWorld inserted).final
  let deleted := (ingestCdcInOrder sampleWorld [⟨sampleKey, [.utf8 "a"], 33554433, true⟩]
    flushed).final
  (WriterStep.compact.run sampleWorld (WriterStep.flush.run sampleWorld deleted).final).final

theorem cdcReached_emptied : CdcReached sampleWorld emptied := by
  refine .upkeep (.upkeep (.applied (.upkeep cdcReached_inserted ?_) ?_) ?_) ?_
  · simp
  · decide +kernel
  · simp
  · simp

/-- Nothing is stored, so the numbering of a restarted source passes, and its first row is taken for
one that was applied. -/
theorem restarted_source_loses_row : ∃ next, CdcReached sampleWorld emptied ∧
    StreamStep (fun _ => sampleWorld) (·.isSome) (resume none [emptied] gtidStart) next ∧
      ¬next.NothingDropped fun _ => sampleWorld := by
  have happlied : (16777217 : UInt64) ≤ emptied.appliedVersion := by decide +kernel
  have hfloor : (resume none [emptied] gtidStart).position.floor < 16777217 := by decide +kernel
  have hdropped : ∃ next, StreamStep (fun _ => sampleWorld) (·.isSome)
      (resume none [emptied] gtidStart) next ∧ ¬next.NothingDropped fun _ => sampleWorld :=
    exists_dropped _ (mem_singleton_self _) (fun _ => rfl) rfl (by decide +kernel)
      ⟨⟨.replicate 16 0xaa, none, 1⟩, by simp, rfl⟩ hfloor happlied
  obtain ⟨next, hstep, hdrop⟩ := hdropped
  exact ⟨next, cdcReached_emptied, hstep, hdrop⟩

/-- A transaction with the sequence number; slots are two bits wide. -/
def ranOn (sequence carry : UInt64) : StreamPosition :=
  ⟨.mysqlGtid, none, some ⟨.replicate 16 0, none, sequence⟩, "binlog.000000".toList, 4, 10, carry, 2⟩

def closedRun : Stream :=
  ⟨[fresh sampleWorld sampleSchema sampleOptions], { ranOn 1 1 with pendingGtid := none }, [],
    fun _ => []⟩

/-- Between the two transactions comes one without a GTID, numbered below the floor, and the batch is
written. -/
theorem versions_follow_commits_ranOn : ∃ s',
    TransGen (StreamStep (fun _ => sampleWorld) fun _ => True) closedRun s' ∧
      (ranOn 1 0).version 4 5 = .ok 10 ∧
      (s'.opened (some ⟨.replicate 16 0, none, 2⟩) [] 4).version 4 0 = .ok 13 ∧
      (10 : UInt64) < 13 := by
  let row : StoredRow := ⟨sampleKey, [.utf8 "a"], 1, false⟩
  have hrows : Numbered (closedRun.opened none "binlog.000000".toList 4) 0 [⟨0, row⟩] := by
    intro mutation hm
    obtain rfl := mem_singleton.mp hm
    exact ⟨0, 0, le_rfl, rfl⟩
  have hclosed : (raised (closedRun.opened none "binlog.000000".toList 4)
      [⟨0, row⟩]).closeTransaction 1 = .ok closedRun.position := rfl
  have hfirst : (ranOn 1 0).closeTransaction 6 = .ok closedRun.position := rfl
  have hruns : ∃ s', TransGen (StreamStep (fun _ => sampleWorld) fun _ => True) closedRun s' ∧
      s'.position = closedRun.position :=
    ⟨_, .tail (.single (.transaction trivial (fun _ => rfl) (by simp) hrows hclosed)) .flush, rfl⟩
  obtain ⟨s', hrun, hposition⟩ := hruns
  have hv : (ranOn 1 0).version 4 5 = .ok 10 := rfl
  have hv' : (s'.opened (some ⟨.replicate 16 0, none, 2⟩) [] 4).version 4 0 = .ok 13 := by
    rw [opened, hposition]
    rfl
  exact ⟨s', hrun, hv, hv', versions_follow_commits rfl hfirst hrun.to_reflTransGen (by decide)
    (by decide) hv hv'⟩

end Sample

end Stream

end Cdc

end Pintail
