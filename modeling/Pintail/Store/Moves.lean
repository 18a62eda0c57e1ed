import Pintail.Compaction.Shown

/-! # What the operations of a table can do

Every operation is a row of moves: a flush, a merge started or published, rows appended to the log,
pieces staged and published. Each move comes with the states of the table visible on the way. What
holds across all moves holds across all operations.
-/

namespace Pintail

open Traced List Wal Except

/-- How rows come to a table: through its log, staged and then published or given up, or as chunks
of a first copy. -/
inductive Growth
  | write (rows : List StoredRow)
  | stage (rows : List StoredRow)
  | publish
  | discard
  | chunk (rows : List StoredRow) (covers : Option KeyRange)

namespace TableStore

def afterFlush (segment : Segment) (store : TableStore) : TableStore :=
  let flushed := { store.withFlushed segment with memtable := .empty }
  if store.truncateWalOnFlush then flushed.mapWal reset else flushed

def duringFlush (segment : Segment) (store : TableStore) : List TableStore :=
  store.withFlushed segment ::
    if store.truncateWalOnFlush then [store.afterFlush segment] else []

def withMerged (merge : BackgroundMerge) (groups : List (List Segment)) (store : TableStore) :
    TableStore :=
  (store.withManifest (store.manifest.merged merge.inputFiles groups.flatten)).withoutMerge

def withRewritten (merge : BackgroundMerge) (groups : List (List Segment)) (store : TableStore) :
    TableStore :=
  (store.withManifest (store.manifest.rewritten (merge.inputFiles.zip groups))).withoutMerge

/-- The open table can write: its settings are valid and its segments readable. -/
structure Healthy (store : TableStore) : Prop where
  valid : store.options.Valid
  sound : store.manifest.Sound store.schema

/-- A change an operation makes to a table, with the states visible on the way. Rows come to the
table only as `allows` says. -/
inductive Move (world : World) (allows : TableStore → Growth → Prop) :
    TableStore → List TableStore → TableStore → Prop
  | ask (s : TableStore) : Move world allows s [] s.askedAgain
  | rowId (s : TableStore) (next : UInt64) :
    Move world allows s [] { s with nextAppendRowId := next }
  | flush {s : TableStore} {segment : Segment} (hne : s.memtable.values ≠ [])
    (hw : s.writeSegment world s.manifest.nextSegmentId s.memtable.values = .ok segment) :
    Move world allows s (s.duringFlush segment) (s.afterFlush segment)
  | spawn {s : TableStore} {plan : CompactionPlan} (hplan : s.plan world = some plan) :
    Move world allows s [s.withMerge (s.backgroundMerge world plan)]
      (s.withMerge (s.backgroundMerge world plan))
  | dropMerge (s : TableStore) : Move world allows s [] s.withoutMerge
  | merged {s : TableStore} {merge : BackgroundMerge} {groups : List (List Segment)}
    (hb : s.background = some merge) (ho : merge.outcome = .ok groups) (hu : merge.upgrade = none) :
    Move world allows s [s.withMerged merge groups] (s.withMerged merge groups)
  | rewritten {s : TableStore} {merge : BackgroundMerge} {groups : List (List Segment)}
    (hb : s.background = some merge) (ho : merge.outcome = .ok groups)
    (hu : merge.upgrade.isSome = true) :
    Move world allows s [s.withRewritten merge groups] (s.withRewritten merge groups)
  | compacted {s : TableStore} {plan : CompactionPlan} {outputs : List Segment}
    (hb : s.background = none) (hplan : s.plan world = some plan)
    (ho : s.mergeOutputs world plan s.manifest.nextSegmentId = .ok outputs) :
    Move world allows s [s.withManifest (s.manifest.compacted plan.indices outputs)]
      (s.withManifest (s.manifest.compacted plan.indices outputs))
  | stagedIds {s : TableStore} {rows : List StoredRow} (ha : allows s (.stage rows))
    (he : s.stagedIds.1 = s.stagedIds.2) : Move world allows s [s.withStagedIds] s.withStagedIds
  | idTaken {s : TableStore} {rows : List StoredRow} (ha : allows s (.stage rows))
    (he : s.stagedIds.1 ≠ s.stagedIds.2) : Move world allows s [] s.withIdTaken
  | staged {s : TableStore} {rows : List StoredRow} {segment : Segment}
    (ha : allows s (.stage rows)) (he : s.stagedIds.1 ≠ s.stagedIds.2)
    (hw : s.writeSegment world s.stagedIds.1 rows = .ok segment) :
    Move world allows s [] { s.withIdTaken with staged := s.staged ++ [segment] }
  | nothingNew {s : TableStore} (ha : allows s .publish) (hu : s.unpublished = []) :
    Move world allows s [] s.withoutStaged
  | discarded {s : TableStore} (ha : allows s .discard) : Move world allows s [] s.withoutStaged
  | chunked {s : TableStore} {rows : List StoredRow} {covers : Option KeyRange}
    {chunk : Option Segment} (ha : allows s (.chunk rows covers)) (hm : s.memtable.values = [])
    (hv : ∀ row ∈ rows, s.schema.validateRow row = .ok () ∧ row.deleted = false)
    (hw : s.writeChunk world (s.chunkRows rows) = .ok chunk) :
    Move world allows s [s.withChunk covers chunk] (s.withChunk covers chunk)
  | published {s : TableStore} (ha : allows s .publish) (hu : s.unpublished ≠ []) :
    Move world allows s [s.withStagedPublished] s.withStagedPublished
  | written {s : TableStore} {sequence : UInt64} {payload : List UInt8} {rows : List StoredRow}
    (ha : allows s (.write rows)) (hs : s.lastSequence < sequence)
    (hv : ∀ row ∈ rows, s.schema.validateRow row = .ok ())
    (hp : encodeBatch sequence s.tableId s.schema rows = .ok payload)
    (hl : payload.length ≤ maxRecordLength) :
    Move world allows s
      (s.torn (record world.xxh3 payload) ++
        [s.withRows sequence (record world.xxh3 payload) rows])
      (s.withRows sequence (record world.xxh3 payload) rows)

/-- A move that brings no rows. -/
abbrev Upkeep (world : World) : TableStore → List TableStore → TableStore → Prop :=
  Move world fun _ _ => False

/-- A computation that brings no rows, and fails only on a table that cannot write. -/
abbrev Tends {α : Type} (world : World) (x : Traced TableStore StoreError α) : TableStore → Prop :=
  Walks (Upkeep world) x (fun _ _ => True) fun _ s' => ¬ s'.Healthy

variable {world : World} {allows : TableStore → Growth → Prop} {s s' : TableStore} {visited : List
  TableStore}

theorem Move.mono {allows' : TableStore → Growth → Prop}
    (ha : ∀ s growth, allows s growth → allows' s growth) (h : Move world allows s visited s') :
    Move world allows' s visited s' := by
  cases h with
  | ask => exact .ask s
  | rowId next => exact .rowId s next
  | flush hne hw => exact .flush hne hw
  | spawn hplan => exact .spawn hplan
  | dropMerge => exact .dropMerge s
  | merged hb ho hu => exact .merged hb ho hu
  | rewritten hb ho hu => exact .rewritten hb ho hu
  | compacted hb hplan ho => exact .compacted hb hplan ho
  | stagedIds hs he => exact .stagedIds (ha _ _ hs) he
  | idTaken hs he => exact .idTaken (ha _ _ hs) he
  | staged hs he hw => exact .staged (ha _ _ hs) he hw
  | nothingNew hp hu => exact .nothingNew (ha _ _ hp) hu
  | discarded hd => exact .discarded (ha _ _ hd)
  | chunked hc hm hv hw => exact .chunked (ha _ _ hc) hm hv hw
  | published hp hu => exact .published (ha _ _ hp) hu
  | written hw hs hv hp hl => exact .written (ha _ _ hw) hs hv hp hl

theorem Upkeep.move (h : Upkeep world s visited s') : Move world allows s visited s' :=
  h.mono fun _ _ => False.elim

section Upkeep

variable {world : World} {s : TableStore}

theorem run_flush_of_empty (h : s.memtable.values = []) :
    flush world s = ⟨[], s, .ok ⟨0, none⟩⟩ := by
  simp [flush, run_bind, h]

theorem run_flush (hne : s.memtable.values ≠ []) {segment : Segment}
    (hw : s.writeSegment world s.manifest.nextSegmentId s.memtable.values = .ok segment) :
    flush world s = ⟨s.duringFlush segment, s.afterFlush segment,
      .ok ⟨s.memtable.values.length, some segment.id⟩⟩ := by
  unfold duringFlush afterFlush
  cases ht : s.truncateWalOnFlush <;> simp [flush, publishFlushed, run_bind, hne, hw, ht]

theorem walks_flush : Walks (Upkeep world) (flush world) (fun _ s' => s'.memtable.values = [])
    (fun _ s' => ¬ s'.Healthy) s := by
  by_cases hne : s.memtable.values = []
  · unfold Walks
    rw [run_flush_of_empty hne]
    exact ⟨.refl s, hne⟩
  · cases hw : s.writeSegment world s.manifest.nextSegmentId s.memtable.values with
    | ok segment =>
      unfold Walks
      rw [run_flush hne hw]
      refine ⟨.single (.flush hne hw), ?_⟩
      unfold afterFlush
      split_ifs <;> rfl
    | error e =>
      have hrun : flush world s = ⟨[], s, .error e⟩ := by
        simp [flush, publishFlushed, run_bind, hne, hw]
      unfold Walks
      rw [hrun]
      refine ⟨.refl s, fun hh => ?_⟩
      obtain ⟨segment, hseg⟩ := Segment.exists_write world.xxh3 s.manifest.nextSegmentId s.schema hne
        hh.valid.blockRows_pos .adaptiveLz4 (s.memtable.values.all fun row => !row.deleted)
      rw [writeSegment, hseg] at hw
      cases hw

theorem walks_mergeFitsOnDisk (plan : CompactionPlan) :
    Walks (Upkeep world) (mergeFitsOnDisk world plan) (fun _ s' => s' = s.askedAgain)
      (fun _ s' => ¬ s'.Healthy) s := by
  refine walks_bind (walks_get (walks_bind (walks_modify (.ask s) (walks_pure rfl))))

theorem walks_publishMerge {merge : BackgroundMerge} {groups : List (List Segment)}
    (hb : s.background = some merge) (ho : merge.outcome = .ok groups) :
    Walks (Upkeep world) (publishMerge merge groups) (fun _ s' => s'.background = none)
      (fun _ s' => ¬ s'.Healthy) s := by
  refine walks_bind (walks_get ?_)
  cases hu : merge.upgrade with
  | none => exact walks_publish (.merged hb ho hu) rfl
  | some bytes =>
    simp only [Option.isSome_some, if_true]
    split_ifs
    · exact walks_modify (.dropMerge s) rfl
    · exact walks_publish (.rewritten hb ho (by rw [hu]; rfl)) rfl

theorem walks_pollBackgroundMerge : Tends world (pollBackgroundMerge world) s := by
  refine walks_bind (walks_get ?_)
  cases hb : s.background with
  | none => exact walks_pure trivial
  | some merge =>
    refine walks_bind (walks_modify (.ask s) ?_)
    split
    · exact walks_pure trivial
    · rename_i groups _ ho
      exact (walks_publishMerge (s := s.askedAgain) hb ho).bind fun _ _ _ => walks_pure trivial
    · exact walks_bind (walks_modify (.dropMerge _) (walks_pure trivial))

theorem walks_spawnBackgroundMerge : Tends world (spawnBackgroundMerge world) s := by
  refine walks_bind (walks_get ?_)
  cases hplan : s.plan world with
  | none => exact walks_pure trivial
  | some plan =>
    apply (walks_mergeFitsOnDisk plan).bind
    rintro fits _ rfl
    split_ifs
    · exact walks_publish (.spawn (s := s.askedAgain) hplan) trivial
    · exact walks_pure trivial

theorem walks_mergeInLine : Tends world (mergeInLine world) s := by
  refine walks_bind (walks_get ?_)
  split_ifs with hb
  · exact walks_pure trivial
  · rw [Bool.not_eq_true, Option.isSome_eq_false_iff, Option.isNone_iff_eq_none] at hb
    cases hplan : s.plan world with
    | none => exact walks_pure trivial
    | some plan =>
      apply (walks_mergeFitsOnDisk plan).bind
      rintro fits _ rfl
      split_ifs
      · refine walks_bind (walks_lift (fun outputs ho => walks_bind ?_) fun e he hh => ?_)
        · exact walks_publish (.compacted (s := s.askedAgain) hb hplan ho) (walks_pure trivial)
        · have hs : s.Healthy := ⟨hh.valid, hh.sound⟩
          obtain ⟨outputs, ho, -⟩ :=
            exists_mergeOutputs hs.sound world plan s.manifest.nextSegmentId hs.valid
          rw [ho] at he
          cases he
      · exact walks_pure trivial

theorem walks_compact : Tends world (compact world) s := by
  refine walks_bind (walks_get (walks_bind ?_))
  have hrest : ∀ s' : TableStore, Tends world (mergeInLine world) s' := fun s' => walks_mergeInLine
  refine walks_when (fun _ => ?_) fun _ => hrest s
  exact walks_pollBackgroundMerge.bind fun _ s' _ => walks_pure (hrest s')

theorem walks_advanceCompaction : Tends world (advanceCompaction world) s := by
  refine walks_bind (walks_get ?_)
  split_ifs
  · apply walks_pollBackgroundMerge.bind
    intro _ s' _
    refine walks_bind (walks_get (walks_when (fun _ => ?_) fun _ => trivial))
    exact walks_spawnBackgroundMerge
  · refine walks_when (fun _ => ?_) fun _ => trivial
    exact walks_compact.bind fun _ _ _ => walks_pure trivial

theorem walks_maintain : Tends world (maintain world) s := by
  refine walks_bind (walks_get ?_)
  split_ifs
  · apply walks_pollBackgroundMerge.bind
    intro _ s' _
    refine walks_bind (walks_get (walks_bind (walks_when (fun _ => ?_) fun _ => ?_)))
    · exact walks_spawnBackgroundMerge.mono
        (fun _ _ _ => walks_bind (walks_get (walks_pure trivial))) fun _ _ => id
    · exact walks_bind (walks_get (walks_pure trivial))
  · exact walks_compact.bind fun _ _ _ => walks_pure trivial

theorem walks_catchUpCompaction : Tends world (catchUpCompaction world) s := by
  refine walks_bind (walks_get (walks_when (fun _ => ?_) fun _ => trivial))
  apply walks_pollBackgroundMerge.bind
  intro _ s' _
  exact walks_when (fun _ => walks_spawnBackgroundMerge) fun _ => trivial

end Upkeep

/-- The same rows, perhaps under other keys. -/
def Rekeyed (rows rows' : List StoredRow) : Prop :=
  List.Forall₂ (fun row row' => row' = { row with key := row'.key }) rows rows'

/-- The segments the pieces were staged as; an empty piece is none. -/
def StagedAs (schema : TableSchema) (pieces : List (List StoredRow)) (segments : List Segment) :
    Prop :=
  List.Forall₂ (Segment.Written schema) (pieces.filter (· ≠ [])) segments

section Growth

variable {world : World} {allows : TableStore → Growth → Prop} {s : TableStore}
  {rows : List StoredRow} {visited : List TableStore} {s' : TableStore}

theorem Move.schema_eq_of_mem (h : Move world allows s visited s') :
    ∀ v ∈ s' :: visited, v.schema = s.schema := by
  cases h with
  | ask | rowId | dropMerge | idTaken | staged | nothingNew | discarded =>
    exact forall_mem_singleton.mpr rfl
  | spawn | merged | rewritten | compacted | stagedIds | chunked | published =>
    exact forall_mem_cons.mpr ⟨rfl, forall_mem_singleton.mpr rfl⟩
  | flush =>
    unfold duringFlush afterFlush
    split_ifs <;> simp [withFlushed, withManifest, mapWal]
  | written =>
    refine forall_mem_cons.mpr ⟨rfl, forall_mem_append.mpr
      ⟨forall_mem_map.mpr fun _ _ => rfl, forall_mem_singleton.mpr rfl⟩⟩

theorem Move.schema_eq (h : Move world allows s visited s') : s'.schema = s.schema :=
  h.schema_eq_of_mem s' mem_cons_self

theorem Upkeep.staged_eq (h : Upkeep world s visited s') : s'.staged = s.staged := by
  cases h <;> try rfl
  all_goals first | contradiction | skip
  unfold afterFlush
  split_ifs <;> rfl

theorem Upkeep.lastSequence_eq (h : Upkeep world s visited s') :
    s'.lastSequence = s.lastSequence := by
  cases h <;> try rfl
  all_goals first | contradiction | skip
  unfold afterFlush
  split_ifs <;> rfl

theorem walks_validateRows {step : TableStore → List TableStore → TableStore → Prop} :
    Walks step (validateRows rows)
      (fun _ s' => s' = s ∧ ∀ row ∈ rows, s.schema.validateRow row = .ok ())
      (fun _ s' => s' = s) s := by
  refine walks_bind (walks_get (walks_lift (fun _ h => ⟨rfl, fun row hr => ?_⟩) fun _ _ => rfl))
  exact mapError_eq_ok.mp (forM_eq_ok.mp h row hr)

theorem walks_generateAppendKeys : Walks (Upkeep world) (generateAppendKeys rows)
    (fun rows' _ => Rekeyed rows rows') (fun _ _ => True) s := by
  induction rows generalizing s with
  | nil => exact walks_pure .nil
  | cons row rows ih =>
    refine walks_bind (walks_get ?_)
    dsimp only
    split_ifs
    · exact walks_fail trivial
    · refine walks_bind (walks_modify (.rowId s _) ((ih.bind ?_)))
      exact fun rows' _ hrows => walks_pure (.cons rfl hrows)

theorem walks_preserveAppendKeys : Walks (Upkeep world) (preserveAppendKeys rows) (fun _ _ => True)
    (fun _ _ => True) s := by
  induction rows generalizing s with
  | nil => exact walks_pure trivial
  | cons row rows ih =>
    rw [preserveAppendKeys]
    split
    · split_ifs
      · exact walks_fail trivial
      · exact walks_fail trivial
      · exact walks_bind (walks_modify (.rowId s _) ih)
    · exact walks_fail trivial

theorem Rekeyed.refl (rows : List StoredRow) : Rekeyed rows rows :=
  forall₂_same.mpr fun _ _ => rfl

theorem walks_appendKeys (policy : AppendKeyPolicy) :
    Walks (Upkeep world) (appendKeys policy rows)
      (fun rows' _ => Rekeyed rows rows' ∧ (policy = .preserve → rows' = rows))
      (fun _ _ => True) s := by
  refine walks_bind (walks_get ?_)
  split_ifs
  · exact walks_pure ⟨.refl rows, fun _ => rfl⟩
  · cases policy with
    | generate => exact walks_generateAppendKeys.mono (fun _ _ h => ⟨h, nofun⟩) fun _ _ => id
    | preserve =>
      exact walks_preserveAppendKeys.bind fun _ _ _ => walks_pure ⟨.refl rows, fun _ => rfl⟩

theorem walks_stageSegment (ha : allows s (.stage rows))
    (ha' : s.stagedIds.1 = s.stagedIds.2 → allows s.withStagedIds (.stage rows)) :
    Walks (Move world allows) (stageSegment world rows)
      (fun _ s' => ∃ segments, s'.staged = s.staged ++ segments ∧ StagedAs s.schema [rows] segments)
      (fun _ _ => True) s := by
  unfold stageSegment
  split_ifs with he
  · rw [List.isEmpty_iff] at he
    exact walks_pure ⟨[], by simp, by simp [StagedAs, he]⟩
  · rw [List.isEmpty_iff] at he
    -- whether or not identifiers had to be set aside first
    have hrest : ∀ s' : TableStore, s'.staged = s.staged → s'.schema = s.schema →
        s'.stagedIds.1 ≠ s'.stagedIds.2 → allows s' (.stage rows) →
        Walks (Move world allows) (do
          let store ← get
          modify withIdTaken
          let segment ← lift (store.writeSegment world store.stagedIds.1 rows)
          modify fun store => { store with staged := store.staged ++ [segment] })
        (fun _ s' => ∃ segments, s'.staged = s.staged ++ segments ∧
          StagedAs s.schema [rows] segments) (fun _ _ => True) s' := by
      intro s' hstaged hschema hids hallow
      cases hw : s'.writeSegment world s'.stagedIds.1 rows with
      | error e =>
        refine ⟨?_, ?_⟩
        · simpa [run_bind, hw] using Chain.single (.idTaken hallow hids)
        · simp [run_bind, hw]
      | ok segment =>
        refine ⟨?_, ?_⟩
        · simpa [run_bind, hw] using Chain.single (.staged hallow hids hw)
        · have hwritten := Segment.written_of_write hw
          rw [hschema] at hwritten
          simp only [run_bind, run_get, run_modify, hw, withIdTaken, hstaged]
          exact ⟨[segment], rfl, by simp [StagedAs, he, hwritten]⟩
    refine walks_bind (walks_get (walks_bind (walks_when (fun heq => ?_) fun hne => ?_)))
    · rw [decide_eq_true_eq] at heq
      refine walks_publish (.stagedIds ha heq) (hrest _ rfl rfl ?_ (ha' heq))
      simp [withStagedIds, stagedSegmentIds]
    · exact hrest s rfl rfl (of_decide_eq_false hne) ha

theorem StagedAs.append {schema : TableSchema} {pieces pieces' : List (List StoredRow)}
    {segments segments' : List Segment} (h : StagedAs schema pieces segments)
    (h' : StagedAs schema pieces' segments') :
    StagedAs schema (pieces ++ pieces') (segments ++ segments') := by
  unfold StagedAs
  rw [filter_append]
  exact rel_append h h'

section Keeping

variable {P : TableStore → Prop}

theorem walks_of_upkeep {α : Type} {x : Traced TableStore StoreError α} {Q : α → TableStore → Prop}
    {E : StoreError → TableStore → Prop} (h : Walks (Upkeep world) x Q E s)
    (hP : ∀ s visited s', Upkeep world s visited s' → P s → P s') (hp : P s) :
    Walks (Move world allows) x (fun a s' => Q a s' ∧ P s') (fun _ _ => True) s :=
  ((h.keep hP hp).of_step fun _ _ _ => Upkeep.move).mono (fun _ _ => id) fun _ _ _ => trivial

theorem walks_stagePieces (hP : ∀ s visited s', Move world allows s visited s' → P s → P s')
    {pieces : List (List StoredRow)} (hstage : ∀ piece ∈ pieces, ∀ s, P s → allows s (.stage piece))
    (h : P s) :
    Walks (Move world allows) (pieces.forM (stageSegment world))
      (fun _ s' => P s' ∧ ∃ segments, s'.staged = s.staged ++ segments ∧
        StagedAs s.schema pieces segments) (fun _ _ => True) s := by
  induction pieces generalizing s with
  | nil => exact walks_pure ⟨h, [], by simp, by simp [StagedAs]⟩
  | cons piece pieces ih =>
    rw [forall_mem_cons] at hstage
    have hids : s.stagedIds.1 = s.stagedIds.2 → allows s.withStagedIds (.stage piece) := fun he =>
      hstage.1 _ (hP _ _ _ (.stagedIds (hstage.1 s h) he) h)
    have hwalk := (walks_stageSegment (hstage.1 s h) hids).keep
      (P := fun s' => P s' ∧ s'.schema = s.schema)
      (fun s v s' hm hp => ⟨hP s v s' hm hp.1, hm.schema_eq.trans hp.2⟩) ⟨h, rfl⟩
    refine walks_bind (hwalk.mono ?_ fun _ _ _ => trivial)
    rintro _ s' ⟨⟨segments, hstaged, has⟩, hp, hschema⟩
    refine (ih hstage.2 hp).mono ?_ fun _ _ => id
    rintro _ s'' ⟨hp'', segments', hstaged', has'⟩
    refine ⟨hp'', segments ++ segments', by rw [hstaged', hstaged, append_assoc], ?_⟩
    rw [hschema] at has'
    exact has.append has'

theorem walks_stageRows (hP : ∀ s visited s', Upkeep world s visited s' → P s → P s')
    {P' : TableStore → Prop} (hP' : ∀ s visited s', Move world allows s visited s' → P' s → P' s')
    (hready : ∀ s, P s → (s.staged = [] → s.memtable.values = []) → P' s)
    (hstage : ∀ piece ∈ stagedPieces rows, ∀ s, P' s → allows s (.stage piece)) (h : P s)
    (hne : rows ≠ []) :
    Walks (Move world allows) (stageRows world rows)
      (fun _ s' => P' s' ∧ ∃ segments, s'.staged = s.staged ++ segments ∧
        StagedAs s.schema (stagedPieces rows) segments) (fun _ _ => True) s := by
  unfold stageRows
  rw [if_neg (by simpa using hne)]
  refine walks_bind (walks_get (walks_bind (walks_when (fun _ => ?_) fun hs => ?_)))
  · refine (walks_of_upkeep (P := fun s' => P s' ∧ s'.schema = s.schema ∧ s'.staged = s.staged)
      walks_flush (fun s v s' hm hp => ⟨hP s v s' hm hp.1, hm.schema_eq.trans hp.2.1,
        hm.staged_eq.trans hp.2.2⟩) ⟨h, rfl, rfl⟩).bind ?_
    rintro _ s' ⟨hempty, hp, hschema, hstaged⟩
    refine walks_pure ((walks_stagePieces hP' hstage (hready s' hp fun _ => hempty)).mono ?_
      fun _ _ => id)
    rw [hschema, hstaged]
    exact fun _ _ => id
  · refine walks_stagePieces hP' hstage (hready s h fun he => ?_)
    rw [he] at hs
    cases hs

theorem walks_publishStaged (hP : ∀ s visited s', Upkeep world s visited s' → P s → P s')
    (ha : allows s .publish) (hnone : s.staged = [] → P s)
    (hnew : s.unpublished ≠ [] → P s.withStagedPublished)
    (hold : s.unpublished = [] → P s.withoutStaged) :
    Walks (Move world allows) (publishStaged world) (fun _ s' => P s') (fun _ _ => True) s := by
  have hadvance : ∀ s' : TableStore, P s' → Walks (Move world allows) (advanceCompaction world)
      (fun _ s'' => P s'') (fun _ _ => True) s' := fun s' hp =>
    (walks_of_upkeep walks_advanceCompaction hP hp).mono (fun _ _ h => h.2) fun _ _ => id
  have hrest : ∀ s' n, P s' → Walks (Move world allows) (do
      advanceCompaction world
      pure n : Traced TableStore StoreError ℕ) (fun _ s'' => P s'') (fun _ _ => True) s' :=
    fun s' n hp => (hadvance s' hp).bind fun _ _ h => walks_pure h
  refine walks_bind (walks_get ?_)
  split_ifs with hs
  · exact walks_pure (hnone (List.isEmpty_iff.mp hs))
  · refine (?_ : Walks (Move world allows) joinStaged (fun _ s' => P s')
      (fun _ _ => True) s).bind fun _ s' hp => walks_bind (walks_when (fun _ => ?_) fun _ => ?_)
    · refine walks_bind (walks_get ?_)
      split_ifs with hu
      · rw [List.isEmpty_iff] at hu
        exact walks_modify (.nothingNew ha hu) (hold hu)
      · rw [List.isEmpty_iff] at hu
        exact walks_publish (.published ha hu) (hnew hu)
    · generalize List.replicate s.unpublished.length () = times
      induction times generalizing s' with
      | nil => exact walks_pure (hrest s' _ hp)
      | cons _ times ih =>
        exact (hadvance s' hp).bind fun _ s'' hp => ih s'' hp
    · exact hrest s' _ hp

theorem walks_logPayload {sequence : UInt64} : Walks (Upkeep world) (logPayload sequence rows)
    (fun payload s' => s' = s ∧ ∀ p ∈ payload,
      encodeBatch sequence s.tableId s.schema rows = .ok p) (fun _ _ => True) s := by
  refine walks_bind (walks_get ?_)
  dsimp only
  split_ifs
  · exact walks_pure ⟨rfl, nofun⟩
  · refine walks_bind (walks_lift (fun payload hp => ?_) fun _ _ => trivial)
    split_ifs
    · exact walks_pure ⟨rfl, fun p hmem => by rw [hp, Option.mem_some.mp hmem]⟩
    · exact walks_pure ⟨rfl, nofun⟩

/-- Of what is allowed, the staging. -/
def OnlyStage (allows : TableStore → Growth → Prop) (s : TableStore) : Growth → Prop
  | .stage rows => allows s (.stage rows)
  | _ => False

theorem OnlyStage.allowed {growth : Growth} (h : OnlyStage allows s growth) : allows s growth := by
  cases growth with
  | stage rows => exact h
  | write | publish | discard | chunk => exact h.elim

/-- What lets rows in while `P` holds: through the log, or once `P'` holds as staged pieces, and then
`R` holds. -/
structure Intake (world : World) (allows : TableStore → Growth → Prop) (schema : TableSchema)
    (staged : List Segment) (P P' R : TableStore → Prop) (rows : List StoredRow) : Prop where
  upkeep : ∀ s visited s', Upkeep world s visited s' → P s → P s'
  staging : ∀ s visited s', Move world (OnlyStage allows) s visited s' → P' s → P' s'
  after : ∀ s visited s', Upkeep world s visited s' → R s → R s'
  ready : ∀ s, P s → (s.staged = [] → s.memtable.values = []) → P' s
  stage : ∀ piece ∈ stagedPieces rows, ∀ s, P' s → allows s (.stage piece)
  write : ∀ s sequence record, P s → allows s (.write rows) ∧ R (s.withRows sequence record rows)
  publish : ∀ s segments, P' s → s.staged = staged ++ segments →
    StagedAs schema (stagedPieces rows) segments → allows s .publish ∧ (s.staged = [] → R s) ∧
      (s.unpublished ≠ [] → R s.withStagedPublished) ∧ (s.unpublished = [] → R s.withoutStaged)

section Intake

variable {P P' R : TableStore → Prop} {sequence : UInt64}

theorem walks_ingestRows (hi : Intake world allows s.schema s.staged P P' R rows)
    (hseq : s.lastSequence < sequence) (hvalid : ∀ row ∈ rows, s.schema.validateRow row = .ok ())
    (h : P s) (hne : rows ≠ []) :
    Walks (Move world allows) (ingestRows world sequence rows) (fun _ s' => R s')
      (fun _ _ => True) s := by
  refine walks_bind (walks_get (walks_bind ?_))
  refine (walks_logPayload.of_step fun _ _ _ => Upkeep.move).mono ?_ fun _ _ => id
  rintro payload s ⟨rfl, hpayload⟩
  cases payload with
  | none =>
    have hstaged := walks_stageRows hi.upkeep hi.staging hi.ready hi.stage h hne
    refine (hstaged.of_step fun _ _ _ hm => hm.mono fun _ _ => OnlyStage.allowed).bind ?_
    rintro _ s' ⟨hp', segments, hs', has⟩
    obtain ⟨ha, hnone, hnew, hold⟩ := hi.publish s' segments hp' hs' has
    apply (walks_publishStaged hi.after ha hnone hnew hold).bind
    exact fun _ s'' hr => walks_bind (walks_get (walks_pure hr))
  | some payload =>
    dsimp only
    split_ifs with hlong
    · exact walks_fail trivial
    · obtain ⟨ha, hr⟩ := hi.write s sequence (record world.xxh3 payload) h
      refine walks_bind ⟨.single (.written ha hseq hvalid (hpayload payload rfl) (not_lt.mp hlong)),
        walks_bind (walks_get (walks_bind (walks_when (fun _ => ?_) fun _ => walks_pure hr)))⟩
      apply (walks_of_upkeep walks_flush hi.after hr).bind
      rintro _ s' ⟨-, hr'⟩
      exact (walks_of_upkeep walks_advanceCompaction hi.after hr').mono
        (fun _ _ h => walks_pure h.2) fun _ _ => id

theorem Rekeyed.validateRow {schema : TableSchema} {rows' : List StoredRow} (h : Rekeyed rows rows')
    (hv : ∀ row ∈ rows, schema.validateRow row = .ok ()) :
    ∀ row ∈ rows', schema.validateRow row = .ok () := by
  intro row' hr'
  obtain ⟨row, hr, he⟩ := List.Forall₂.exists_of_mem_right h hr'
  rw [he]
  exact hv row hr

theorem walks_ingestAtSequenceWithAppendPolicy {policy : AppendKeyPolicy}
    (hi : (∀ row ∈ rows, s.schema.validateRow row = .ok ()) → ∀ rows', Rekeyed rows rows' →
      (policy = .preserve → rows' = rows) → Intake world allows s.schema s.staged P P' R rows')
    (h : P s) (hempty : rows = [] → R s) :
    Walks (Move world allows) (ingestAtSequenceWithAppendPolicy world sequence rows policy)
      (fun _ s' => R s') (fun _ _ => True) s := by
  refine walks_bind (walks_validateRows.mono ?_ fun _ _ _ => trivial)
  rintro _ s ⟨rfl, hvalid⟩
  refine walks_bind (walks_get ?_)
  refine walks_ite (fun he => walks_pure (hempty (List.isEmpty_iff.mp he))) fun he => ?_
  rw [List.isEmpty_iff] at he
  replace hi := hi hvalid
  -- numbering the rows and catching up with merges bring no rows
  have hkeep : ∀ s0 visited s', Upkeep world s0 visited s' →
      (P s0 ∧ s0.schema = s.schema ∧ s0.staged = s.staged ∧ s0.lastSequence = s.lastSequence) →
      P s' ∧ s'.schema = s.schema ∧ s'.staged = s.staged ∧ s'.lastSequence = s.lastSequence := by
    rintro s0 visited s' hm ⟨hp, hschema, hstaged, hlast⟩
    exact ⟨(hi rows (.refl rows) fun _ => rfl).upkeep _ _ _ hm hp, hm.schema_eq.trans hschema,
      hm.staged_eq.trans hstaged, hm.lastSequence_eq.trans hlast⟩
  apply (walks_of_upkeep (walks_appendKeys policy) hkeep ⟨h, rfl, rfl, rfl⟩).bind
  rintro rows' s1 ⟨⟨hrows, hpol⟩, hs1⟩
  split_ifs with hseq
  · exact walks_fail trivial
  apply (walks_of_upkeep walks_catchUpCompaction hkeep hs1).bind
  rintro _ s2 ⟨-, hp, hschema, hstaged, hlast⟩
  have hin : Intake world allows s2.schema s2.staged P P' R rows' := by
    rw [hschema, hstaged]
    exact hi rows' hrows hpol
  refine walks_ingestRows hin (by rw [hlast]; exact not_le.mp hseq) ?_ hp ?_
  · rw [hschema]
    exact hrows.validateRow hvalid
  · rintro rfl
    exact he (List.forall₂_nil_right_iff.mp hrows)

theorem walks_nextSequence {step : TableStore → List TableStore → TableStore → Prop} :
    Walks step nextSequence
      (fun sequence s' => s' = s ∧ s.lastSequence ≠ maxRowId ∧ sequence = s.lastSequence + 1)
      (fun _ s' => s' = s) s := by
  refine walks_bind (walks_get ?_)
  split_ifs with h
  · exact walks_fail rfl
  · exact walks_pure ⟨rfl, h, rfl⟩

theorem walks_ingest (hi : (∀ row ∈ rows, s.schema.validateRow row = .ok ()) →
      ∀ rows', Rekeyed rows rows' → Intake world allows s.schema s.staged P P' R rows') (h : P s)
    (hempty : rows = [] → R s) :
    Walks (Move world allows) (ingest world rows) (fun _ s' => R s') (fun _ _ => True) s := by
  refine walks_bind (walks_nextSequence.mono ?_ fun _ _ _ => trivial)
  rintro sequence s ⟨rfl, -⟩
  exact walks_ingestAtSequenceWithAppendPolicy (fun hv rows' hr _ => hi hv rows' hr) h hempty

theorem walks_ingestCdc (hi : (∀ row ∈ rows, s.schema.validateRow row = .ok ()) →
      Intake world allows s.schema s.staged P P' R rows) (h : P s) (hempty : rows = [] → R s) :
    Walks (Move world allows) (ingestCdc world rows) (fun _ s' => R s') (fun _ _ => True) s := by
  refine walks_bind (walks_nextSequence.mono ?_ fun _ _ _ => trivial)
  rintro sequence s ⟨rfl, -⟩
  exact walks_ingestAtSequenceWithAppendPolicy (fun hv rows' _ hp => hp rfl ▸ hi hv) h hempty

theorem walks_stageCdc {fresh : List StoredRow} (hfresh : s.unapplied rows = fresh)
    (hi : (∀ row ∈ fresh, s.schema.validateRow row = .ok ()) →
      Intake world allows s.schema s.staged P P' R fresh) (h : P s) :
    Walks (Move world (OnlyStage allows)) (stageCdc world rows)
      (fun _ s' => fresh = [] ∧ P s' ∨ P' s' ∧ ∃ segments, s'.staged = s.staged ++ segments ∧
        StagedAs s.schema (stagedPieces fresh) segments) (fun _ _ => True) s := by
  refine walks_bind (walks_get ?_)
  split_ifs
  · exact walks_fail trivial
  rw [hfresh]
  refine walks_bind (walks_validateRows.mono ?_ fun _ _ _ => trivial)
  rintro _ s ⟨rfl, hvalid⟩
  replace hi := hi hvalid
  have hstage : ∀ s' : TableStore, (P s' ∧ s'.schema = s.schema ∧ s'.staged = s.staged) →
      Walks (Move world (OnlyStage allows)) (stageRows world fresh)
        (fun _ s'' => fresh = [] ∧ P s'' ∨ P' s'' ∧ ∃ segments, s''.staged = s.staged ++ segments ∧
          StagedAs s.schema (stagedPieces fresh) segments) (fun _ _ => True) s' := by
    rintro s' ⟨hp, hschema, hstaged⟩
    by_cases hne : fresh = []
    · rw [hne]
      exact walks_pure (.inl ⟨rfl, hp⟩)
    · rw [← hschema, ← hstaged]
      exact (walks_stageRows hi.upkeep hi.staging hi.ready hi.stage hp hne).mono
        (fun _ _ h => .inr h) fun _ _ => id
  refine walks_bind (walks_when (fun _ => ?_) fun _ => hstage s ⟨h, rfl, rfl⟩)
  refine (walks_of_upkeep (P := fun s' => P s' ∧ s'.schema = s.schema ∧ s'.staged = s.staged)
    walks_preserveAppendKeys ?_ ⟨h, rfl, rfl⟩).mono (fun _ s' hs' => hstage s' hs'.2) fun _ _ => id
  rintro s0 visited s' hm ⟨hp, hschema, hstaged⟩
  exact ⟨hi.upkeep _ _ _ hm hp, hm.schema_eq.trans hschema, hm.staged_eq.trans hstaged⟩

end Intake

theorem walks_ingestSnapshotChunk {covers : Option KeyRange}
    (ha : ∀ next, allows { s with nextAppendRowId := next } (.chunk rows covers)) :
    Walks (Move world allows) (ingestSnapshotChunk world rows covers) (fun _ _ => True)
      (fun _ _ => True) s := by
  refine walks_bind (walks_get (walks_ite (fun _ => walks_fail trivial) fun hm => ?_))
  have hempty : s.memtable.values = [] := by simpa using hm
  refine walks_bind (walks_lift (fun _ hok => ?_) fun _ _ => trivial)
  have hv : ∀ row ∈ rows, s.schema.validateRow row = .ok () ∧ row.deleted = false := by
    intro row hr
    obtain ⟨_, hvalid, hlive⟩ := bind_eq_ok.mp (forM_eq_ok.mp hok row hr)
    refine ⟨mapError_eq_ok.mp hvalid, ?_⟩
    by_contra hd
    rw [if_pos (Bool.eq_true_of_not_eq_false hd)] at hlive
    cases hlive
  apply walks_ite (fun _ => walks_pure trivial)
  intro _
  have hpublish : ∀ next, Walks (Move world allows) (do
      let chunk ← lift (s.writeChunk world (s.chunkRows rows))
      publish (withChunk covers chunk)
      pure (BulkIngestOutcome.mk (s.chunkRows rows).length (chunk.map Segment.id)))
      (fun _ _ => True) (fun _ _ => True) { s with nextAppendRowId := next } := fun next =>
    walks_bind (walks_lift (fun chunk hw => walks_bind (walks_publish
      (.chunked (s := { s with nextAppendRowId := next }) (ha next) hempty hv hw)
      (walks_pure trivial))) fun _ _ => trivial)
  exact walks_bind (walks_when (fun _ => walks_modify (.rowId s _) (hpublish _))
    fun _ => hpublish s.nextAppendRowId)

end Keeping

end Growth

end TableStore

end Pintail
