import Pintail.Store.Applied

/-! # Rows that reach a table

A batch above the highest applied version is stored: when the write ends, some visible state held of
each row it or a later one of the batch with its key, in the memtable or in a published segment. What
is staged beside the table is held there in the same sense, until it is published.
-/

namespace Pintail

open Traced List Versioned

/-- Each row, or a later one with its key, is among the rows with the property. -/
def Represented (rows : List StoredRow) (held : StoredRow → Prop) : Prop :=
  ∀ row ∈ rows, ∃ row', held row' ∧ row'.key = row.key ∧ row.version ≤ row'.version

theorem Represented.mono {rows : List StoredRow} {held held' : StoredRow → Prop}
    (h : Represented rows held) (hle : ∀ row, held row → held' row) : Represented rows held' := by
  intro row hr
  obtain ⟨row', hheld, hsame⟩ := h row hr
  exact ⟨row', hle row' hheld, hsame⟩

namespace StagedPieces

variable {state : StagedPieces} {row : StoredRow} {done rest : List StoredRow}

theorem rows_subset_take (hlast : ∀ previous ∈ state.piece.getLast?, previous.key ≠ row.key) :
    ∀ row' ∈ row :: state.rows, row' ∈ (state.take row).rows := by
  have hnew : (state.piece.getLast?.any fun previous => previous.key == row.key) = false := by
    cases h : state.piece.getLast? with
    | none => rfl
    | some previous => simpa using hlast previous h
  have hrows : (state.take row).rows = state.rows ++ [row] := by
    unfold take
    rw [hnew]
    simp only [Bool.false_eq_true, if_false]
    split_ifs <;> simp [rows]
  rw [hrows]
  exact fun row' hr => mem_append.mpr ((mem_cons.mp hr).symm.imp_right mem_singleton.mpr)

/-- The last row of the piece may give way to a later version of its key. -/
theorem represented_take (h : ∀ r ∈ state.piece,
      toLex (r.key, r.version) ≤ toLex (row.key, row.version))
    (hdone : Represented done (· ∈ state.rows)) :
    Represented (row :: done) (· ∈ (state.take row).rows) := by
  by_cases hlast : ∀ previous ∈ state.piece.getLast?, previous.key ≠ row.key
  · have hkept := rows_subset_take hlast
    refine forall_mem_cons.mpr ⟨⟨row, hkept row mem_cons_self, rfl, le_rfl⟩, ?_⟩
    exact hdone.mono fun row' hr => hkept row' (mem_cons_of_mem _ hr)
  · push Not at hlast
    obtain ⟨previous, hprevious, hkey⟩ := hlast
    obtain ⟨init, hpiece⟩ := getLast?_eq_some_iff.mp hprevious
    have hle : previous.version ≤ row.version := by
      have hlex := h previous (by simp [hpiece])
      rw [hkey, Prod.Lex.toLex_le_toLex] at hlex
      simpa using hlex
    have hrows : (state.take row).rows = state.pieces.flatten ++ (init ++ [row]) := by
      simp [take, rows, hpiece, hkey]
    rw [hrows]
    refine forall_mem_cons.mpr ⟨⟨row, by simp, rfl, le_rfl⟩, fun other ho => ?_⟩
    obtain ⟨row', hr, hk, hv⟩ := hdone other ho
    by_cases hgone : row' = previous
    · subst hgone
      exact ⟨row, by simp, hkey.symm.trans hk, hv.trans hle⟩
    · refine ⟨row', ?_, hk, hv⟩
      have hr : row' ∈ state.pieces.flatten ++ init := by simpa [rows, hpiece, hgone] using hr
      rw [← append_assoc]
      exact mem_append_left _ hr

theorem represented_foldl_take (hsorted : rest.Pairwise fun r r' =>
      toLex (r.key, r.version) ≤ toLex (r'.key, r'.version))
    (h : ∀ r ∈ state.piece, ∀ r' ∈ rest, toLex (r.key, r.version) ≤ toLex (r'.key, r'.version))
    (hdone : Represented done (· ∈ state.rows)) :
    Represented (rest ++ done) (· ∈ (rest.foldl take state).rows) := by
  induction rest generalizing state done with
  | nil => exact hdone
  | cons row rest ih =>
    obtain ⟨hrow, hrest⟩ := pairwise_cons.mp hsorted
    have htaken : Represented (row :: done) (· ∈ (state.take row).rows) :=
      represented_take (fun r hr => h r hr row mem_cons_self) hdone
    have hall := ih hrest (fun r hr r' hr' => ?_) htaken
    · intro other ho
      apply hall other
      simp only [mem_cons, mem_append] at ho ⊢
      tauto
    · -- what is left of the piece came before, and the row itself comes before the rest
      rcases mem_piece_take hr with rfl | hr
      · exact hrow r' hr'
      · exact h r hr r' (mem_cons_of_mem _ hr')

end StagedPieces

theorem represented_stagedPieces (rows : List StoredRow) :
    Represented rows (· ∈ (stagedPieces rows).flatten) := by
  have hsorted := pairwise_insertionSort (fun left right : StoredRow =>
    toLex (left.key, left.version) ≤ toLex (right.key, right.version)) rows
  have hall : Represented (sortRows rows ++ []) (· ∈ (stagedPieces rows).flatten) :=
    @StagedPieces.represented_foldl_take ⟨[], [], 0⟩ _ _ hsorted nofun nofun
  intro row hr
  apply hall row
  rw [append_nil]
  exact (perm_insertionSort _ rows).mem_iff.mpr hr

namespace TableStore

def Stores (store : TableStore) (row : StoredRow) : Prop :=
  row ∈ store.memtable.values ∨ ∃ segment ∈ store.manifest.segments, row.durable ∈ segment.rows

/-- The table holds the batch: of each row, it or a later one of the batch with its key. -/
def Holds (rows : List StoredRow) (store : TableStore) : Prop :=
  Represented rows fun row => row ∈ rows ∧ store.Stores row

/-- The same of what is staged beside the table. -/
def Stages (rows : List StoredRow) (store : TableStore) : Prop :=
  Represented rows fun row => row ∈ rows ∧ ∃ segment ∈ store.staged, row.durable ∈ segment.rows

variable {world : World} {allows : TableStore → Growth → Prop} {s s' : TableStore}
  {visited : List TableStore} {rows : List StoredRow}

/-- Rows reach a table only by visible changes. -/
theorem Holds.exists_visible (hm : Move world allows s visited s') (h : s'.Holds rows) :
    ∃ v ∈ s :: visited, v.Holds rows := by
  cases hm with
  | ask | rowId | dropMerge | idTaken | staged | nothingNew | discarded =>
    exact ⟨s, mem_cons_self, h⟩
  | spawn | merged | rewritten | compacted | stagedIds | chunked | published =>
    exact ⟨_, mem_cons_of_mem _ (mem_singleton_self _), h⟩
  | written => exact ⟨_, mem_cons_of_mem _ (mem_append_right _ (mem_singleton_self _)), h⟩
  | flush hne hw =>
    rename_i segment
    refine ⟨s.withFlushed segment, mem_cons_of_mem _ mem_cons_self, h.mono fun row hr => ⟨hr.1, ?_⟩⟩
    have hstores := hr.2
    -- the memtable is emptied after its segment is in the manifest
    unfold Stores afterFlush at hstores
    split_ifs at hstores
    · exact .inr (hstores.resolve_left nofun)
    · exact .inr (hstores.resolve_left nofun)

theorem holds_withRows (hnew : ∀ row ∈ rows, s.appliedVersion < row.version) (sequence : UInt64)
    (record : List UInt8) : (s.withRows sequence record rows).Holds rows := by
  intro row hr
  obtain ⟨newest, hlatest⟩ := exists_latest hr (StoredRow.versioned_key row)
  obtain ⟨hmem, hkey, hmax⟩ := IsLatest.of_latest hlatest
  have hle : row.version ≤ newest.version := hmax row hr rfl
  refine ⟨newest, ⟨hmem, .inl ?_⟩, hkey, hle⟩
  rw [StoredRow.versioned_key] at hkey
  rw [Memtable.mem_values, hkey]
  change (s.memtable.applyAll rows).rows[row.key]? = some newest
  rw [Memtable.getElem?_applyAll, hlatest]
  cases hold : s.memtable.rows[row.key]? with
  | none => rfl
  | some old =>
    obtain ⟨top, htop, hold⟩ := s.memtable.version_le _ _ hold
    have hlt : top < row.version := by
      refine lt_of_le_of_lt ?_ (hnew row hr)
      rw [appliedVersion, Option.mem_def.mp htop]
      exact le_max_right _ _
    have hle : old.version ≤ newest.version := hold.trans (hlt.le.trans hle)
    simp [pick, newer, hle]

section Staged

variable {schema : TableSchema} {staged segments : List Segment}

theorem stages_of_stagedAs (h : StagedAs schema (stagedPieces rows) segments)
    (hs : ∀ segment ∈ segments, segment ∈ s.staged) : s.Stages rows := by
  intro row hr
  obtain ⟨row', hr', hsame⟩ := represented_stagedPieces rows row hr
  obtain ⟨piece, hp, hmem⟩ := mem_flatten.mp hr'
  have hne : piece ∈ (stagedPieces rows).filter (· ≠ []) := by
    rw [mem_filter, decide_eq_true_eq]
    exact ⟨hp, ne_nil_of_mem hmem⟩
  obtain ⟨segment, hsegment, hwritten⟩ := Forall₂.exists_of_mem_left h hne
  refine ⟨row', ⟨mem_of_mem_stagedPieces hp hmem, segment, hs segment hsegment, ?_⟩, hsame⟩
  rw [hwritten.rows_eq]
  exact mem_map_of_mem hmem

theorem Stages.holds (h : s.Stages rows)
    (hm : ∀ segment ∈ s.manifest.segments ++ s.unpublished, segment ∈ s'.manifest.segments) :
    s'.Holds rows := by
  refine h.mono fun row ⟨hr, segment, hsegment, hmem⟩ => ⟨hr, .inr ?_⟩
  by_cases hnew : segment ∈ s.unpublished
  · exact ⟨segment, hm segment (mem_append_right _ hnew), hmem⟩
  · -- a segment of the same contents was published before
    simp only [unpublished, mem_filter, hsegment, true_and, Bool.not_eq_true', Bool.not_eq_false,
      any_eq_true, Bool.and_eq_true] at hnew
    obtain ⟨held, hheld, -, hsame⟩ := hnew
    simp only [Segment.sameContents, Bool.and_eq_true, beq_iff_eq] at hsame
    exact ⟨held, hm held (mem_append_left _ hheld), hsame.1.1.2 ▸ hmem⟩

theorem passes_publishStaged (hne : rows ≠ []) (h : s.Stages rows) :
    Passes (Holds rows) (publishStaged world) s := by
  apply passes_get_bind
  split_ifs with hs
  · obtain ⟨row, hr⟩ := exists_mem_of_ne_nil rows hne
    obtain ⟨-, ⟨-, segment, hsegment, -⟩, -⟩ := h row hr
    rw [List.isEmpty_iff.mp hs] at hsegment
    cases hsegment
  · have hjoin : Walks (Move world fun _ _ => True) joinStaged (fun _ s' => s'.Holds rows)
        (fun _ _ => True) s := by
      refine walks_bind (walks_get (walks_ite (fun hu => ?_) fun hu => ?_))
      · rw [List.isEmpty_iff] at hu
        refine walks_modify (.nothingNew trivial hu) (h.holds fun segment hmem => ?_)
        rwa [hu, append_nil] at hmem
      · rw [List.isEmpty_iff] at hu
        exact walks_publish (.published trivial hu) (h.holds fun _ => id)
    exact passes_of_left (hjoin.passes fun _ _ _ => Holds.exists_visible)

end Staged

/-- A replicated table that nothing is published to: it has applied the version, and what was staged
beside it stays. -/
structure Idle (version : UInt64) (staged : List Segment) (store : TableStore) : Prop where
  replicated : store.options.transactional = false
  applied : store.appliedVersion = version
  staged : staged ⊆ store.staged

theorem Idle.move {version : UInt64} {staged : List Segment}
    (hm : Move world (OnlyStage allows) s visited s') (h : s.Idle version staged) :
    s'.Idle version staged := by
  cases hm with
  | ask | rowId | spawn | dropMerge | merged | rewritten | compacted | stagedIds | idTaken =>
    exact ⟨h.replicated, h.applied, h.staged⟩
  | staged => exact ⟨h.replicated, h.applied, Subset.trans h.staged (subset_append_left _ _)⟩
  | flush hne hw =>
    refine ⟨?_, (appliedVersion_afterFlush h.replicated _).trans h.applied, ?_⟩
    · unfold afterFlush
      split_ifs <;> exact h.replicated
    · unfold afterFlush
      split_ifs <;> exact h.staged
  | nothingNew ha | discarded ha | chunked ha | published ha | written ha => exact ha.elim

theorem Idle.upkeep {version : UInt64} {staged : List Segment} (hm : Upkeep world s visited s')
    (h : s.Idle version staged) : s'.Idle version staged :=
  h.move (hm.move : Move world (OnlyStage fun _ _ => True) s visited s')

theorem intake_idle (version : UInt64) (schema : TableSchema) (staged held : List Segment)
    (rows : List StoredRow) : Intake world (fun _ _ => True) schema staged (Idle version held)
      (Idle version held) (fun _ => True) rows where
  upkeep _ _ _ hm h := h.upkeep hm
  staging _ _ _ hm h := h.move hm
  after _ _ _ _ _ := trivial
  ready _ h _ := h
  stage _ _ _ _ := trivial
  write _ _ _ _ := ⟨trivial, trivial⟩
  publish _ _ _ _ _ := ⟨trivial, fun _ => trivial, fun _ => trivial, fun _ => trivial⟩

theorem passes_ingestRows {version sequence : UInt64} (h : s.Idle version [])
    (hnew : ∀ row ∈ rows, version < row.version) (hne : rows ≠ []) (hseq : s.lastSequence < sequence)
    (hvalid : ∀ row ∈ rows, s.schema.validateRow row = .ok ()) :
    Passes (Holds rows) (ingestRows world sequence rows) s := by
  have hi : Intake world (fun _ _ => True) s.schema s.staged (Idle version []) (Idle version [])
      (fun _ => True) rows := intake_idle version _ _ _ _
  have hback : ∀ s visited s', Move world (fun _ _ => True) s visited s' → s'.Holds rows →
      ∃ v ∈ s :: visited, v.Holds rows := fun _ _ _ => Holds.exists_visible
  refine passes_get_bind ((walks_logPayload.of_step fun _ _ _ => Upkeep.move).passes_bind hback ?_)
  rintro payload s ⟨rfl, hpayload⟩
  cases payload with
  | none =>
    have hstaged := walks_stageRows hi.upkeep hi.staging hi.ready hi.stage h hne
    refine (hstaged.of_step fun _ _ _ hm => hm.mono fun _ _ _ => trivial).passes_bind hback ?_
    rintro _ s' ⟨-, segments, hs', has⟩
    refine passes_of_left (passes_publishStaged hne (stages_of_stagedAs has fun segment hmem => ?_))
    rw [hs']
    exact mem_append_right _ hmem
  | some payload =>
    dsimp only
    split_ifs with hlong
    · exact passes_fail
    · have happend : Walks (Move world fun _ _ => True) (appendRows world.xxh3 sequence payload rows)
          (fun _ s' => s'.Holds rows) (fun _ _ => True) s :=
        ⟨.single (.written trivial hseq hvalid (hpayload payload rfl) (not_lt.mp hlong)),
          holds_withRows (h.applied.symm ▸ hnew) _ _⟩
      exact passes_of_left (happend.passes hback)

theorem unapplied_of_lt (hnew : ∀ row ∈ rows, s.appliedVersion < row.version) :
    s.unapplied rows = rows :=
  filter_eq_self.mpr fun row hr => decide_eq_true (hnew row hr)

theorem run_ingestCdcInOrder_of_applied (world : World) (hroom : s.lastSequence ≠ maxRowId)
    (h : s.unapplied rows = []) :
    ingestCdcInOrder world rows s = ⟨[], s, .ok ⟨s.lastSequence, 0, 0, false⟩⟩ := by
  have hsequence : nextSequence s = ⟨[], s, .ok (s.lastSequence + 1)⟩ := by
    simp [nextSequence, run_bind, hroom]
  rw [ingestCdcInOrder, run_bind_ok run_get, h, ingestCdc, run_bind_ok hsequence]
  rfl

theorem passes_ingestCdcInOrder (hreplicated : s.options.transactional = false)
    (hnew : ∀ row ∈ rows, s.appliedVersion < row.version) :
    Passes (Holds rows) (ingestCdcInOrder world rows) s := by
  have hback : ∀ s visited s', Upkeep world s visited s' → s'.Holds rows →
      ∃ v ∈ s :: visited, v.Holds rows := fun _ _ _ => Holds.exists_visible
  apply passes_get_bind
  rw [unapplied_of_lt hnew]
  apply walks_nextSequence.passes_bind hback
  rintro sequence s ⟨rfl, hlast, rfl⟩
  apply walks_validateRows.passes_bind hback
  rintro _ s ⟨rfl, hvalid⟩
  refine passes_get_bind (passes_ite (fun he => ?_) fun he => ?_)
  · rw [List.isEmpty_iff.mp he]
    exact fun _ _ => ⟨s, mem_cons_self, nofun⟩
  rw [List.isEmpty_iff] at he
  have hkeep : ∀ s0 visited s', Upkeep world s0 visited s' →
      (s0.Idle s.appliedVersion [] ∧ s0.schema = s.schema ∧ s0.lastSequence = s.lastSequence) →
      s'.Idle s.appliedVersion [] ∧ s'.schema = s.schema ∧ s'.lastSequence = s.lastSequence :=
    fun s0 visited s' hm ⟨hidle, hschema, hsame⟩ =>
      ⟨hidle.upkeep hm, hm.schema_eq.trans hschema, hm.lastSequence_eq.trans hsame⟩
  refine ((walks_appendKeys .preserve).keep hkeep
    ⟨⟨hreplicated, rfl, nofun⟩, rfl, rfl⟩).passes_bind hback ?_
  rintro rows' s1 ⟨⟨-, hrows⟩, hs1⟩
  rw [hrows rfl]
  apply passes_ite (fun _ => passes_fail)
  intro hseq
  apply (walks_catchUpCompaction.keep hkeep hs1).passes_bind hback
  rintro _ s2 ⟨-, hidle, hschema, hsame⟩
  refine passes_ingestRows hidle hnew he ?_ (hschema ▸ hvalid)
  rw [hsame]
  exact not_le.mp hseq

theorem Stages.append {rows' : List StoredRow} (h : s.Stages rows) (h' : s.Stages rows') :
    s.Stages (rows ++ rows') := by
  refine forall_mem_append.mpr ⟨?_, ?_⟩
  · exact h.mono fun _ hr => ⟨mem_append_left _ hr.1, hr.2⟩
  · exact h'.mono fun _ hr => ⟨mem_append_right _ hr.1, hr.2⟩

theorem Stages.of_subset (h : s.Stages rows) (hs : s.staged ⊆ s'.staged) : s'.Stages rows :=
  h.mono fun _ ⟨hr, segment, hsegment, hmem⟩ => ⟨hr, segment, hs hsegment, hmem⟩

theorem walks_stageNew {version : UInt64} (h : s.Idle version s.staged)
    (hnew : ∀ row ∈ rows, version < row.version) :
    Walks (Move world (OnlyStage fun _ _ => True)) (stageCdc world rows)
      (fun _ s' => s'.Stages rows ∧ s'.Idle version s.staged) (fun _ _ => True) s := by
  have hfresh := unapplied_of_lt (h.applied.symm ▸ hnew)
  refine ((walks_stageCdc hfresh (fun _ => intake_idle version _ _ s.staged _) h).keep
    (P := fun s' => s'.Idle version s.staged) (fun _ _ _ hm h => h.move hm) h).mono ?_
      fun _ _ _ => trivial
  rintro _ s' ⟨⟨rfl, -⟩ | ⟨-, segments, hs', has⟩, hidle⟩
  · exact ⟨nofun, hidle⟩
  · refine ⟨stages_of_stagedAs has fun segment hmem => ?_, hidle⟩
    rw [hs']
    exact mem_append_right _ hmem

theorem walks_stageAll {version : UInt64} {pieces : List (List StoredRow)}
    (h : s.Idle version s.staged) (hnew : ∀ rows ∈ pieces, ∀ row ∈ rows, version < row.version) :
    Walks (Move world (OnlyStage fun _ _ => True)) (pieces.forM (stageCdc world))
      (fun _ s' => s'.Stages pieces.flatten ∧ s'.Idle version s.staged) (fun _ _ => True) s := by
  induction pieces generalizing s with
  | nil => exact walks_pure ⟨nofun, h⟩
  | cons rows pieces ih =>
    rw [forall_mem_cons] at hnew
    apply (walks_stageNew h hnew.1).bind
    rintro _ s' ⟨hrows, hidle⟩
    refine ((ih ⟨hidle.replicated, hidle.applied, Subset.refl _⟩ hnew.2)).mono ?_ fun _ _ => id
    rintro _ s'' ⟨hpieces, hlater⟩
    exact ⟨(hrows.of_subset hlater.staged).append hpieces,
      hlater.replicated, hlater.applied, Subset.trans hidle.staged hlater.staged⟩

end TableStore

end Pintail
