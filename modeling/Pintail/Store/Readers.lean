import Pintail.Store.Runs
import Pintail.Store.Snapshot

/-! # Readers beside a writer

A reader's looks fall anywhere among the states a writer makes visible. While rows are ingested,
flushed, merged and published, the snapshot shows the table as it was at one of those looks. While a
table starts over it may show a part: the log goes before the manifest does.
-/

namespace Pintail

open Versioned Traced List TableStore

/-- The states a table passes through while the writer takes the steps. -/
def timeline (world : World) : List WriterStep → TableStore → List TableStore
  | [], s => [s]
  | step :: steps, s =>
    s :: (step.run world s).visited ++ timeline world steps (step.run world s).final

namespace TableStore

section Timeline

variable {world : World} {s : TableStore} {records : List WalRecord}

theorem Coherent.rising {allows : TableStore → Growth → Prop} {visited : List TableStore}
    {s' : TableStore} (hm : Chain (Move world allows) s visited s')
    (h : s.Coherent world.xxh3 records) :
    Rising (fun a b : TableStore => a.disk.Before b.disk) (s :: visited) s' := by
  refine hm.rising (I := fun s => ∃ records, s.Coherent world.xxh3 records) (fun s => .refl s.disk)
    (fun a b c => Disk.Before.trans) (fun s visited s' hm hs => ⟨?_, ?_⟩) ⟨records, h⟩
  · obtain ⟨records, hs⟩ := hs
    have hlast : ∀ v ∈ s' :: visited, s.disk.Before v.disk := by
      rcases hs.manifest_move hm with hsame | ⟨manifest, hlt, hnew⟩
      · exact fun v hv => .inl (hsame v hv).symm
      · exact fun v hv => .inr (by rwa [Disk.generation_of_some (hnew v hv)])
    have hpair : ∀ a ∈ s' :: visited, ∀ b ∈ s' :: visited, a.disk.Before b.disk := by
      rcases hs.manifest_move hm with hsame | ⟨manifest, -, hnew⟩
      · exact fun a ha b hb => .inl ((hsame a ha).trans (hsame b hb).symm)
      · exact fun a ha b hb => .inl ((hnew a ha).trans (hnew b hb).symm)
    rw [forall_mem_cons] at hlast
    refine ⟨pairwise_cons.mpr ⟨hlast.2, pairwise_of_forall_mem_list fun a ha b hb => ?_⟩,
      forall_mem_cons.mpr ⟨hlast.1, fun a ha => ?_⟩⟩
    · exact hpair a (mem_cons_of_mem _ ha) b (mem_cons_of_mem _ hb)
    · exact hpair a (mem_cons_of_mem _ ha) s' mem_cons_self
  · obtain ⟨records, hs⟩ := hs
    exact (hs.move hm).2

theorem Coherent.timeline (h : s.Coherent world.xxh3 records) (steps : List WriterStep) :
    (∀ v ∈ timeline world steps s, v.Visible world.xxh3 ∧ v.schema = s.schema ∧
        s.disk.Before v.disk) ∧
      (timeline world steps s).Pairwise fun a b => a.disk.Before b.disk := by
  induction steps generalizing s records with
  | nil => exact ⟨by simpa [Pintail.timeline] using ⟨h.visible, .refl _⟩, pairwise_singleton _ _⟩
  | cons step steps ih =>
    have hchain : Chain (Move world fun _ _ => True) s (step.run world s).visited
        (step.run world s).final := (walks_writerStep step).1
    obtain ⟨hvisible, records', h'⟩ := h.chain hchain
    obtain ⟨hpair, hlast⟩ := h.rising hchain
    obtain ⟨hschema, hend⟩ := hchain.invariant (I := fun t => t.schema = s.schema)
      (V := fun t => t.schema = s.schema) (fun t visited t' hm ht =>
        ⟨fun v hv => (hm.schema_eq_of_mem v (mem_cons_of_mem _ hv)).trans ht,
          hm.schema_eq.trans ht⟩) rfl
    obtain ⟨hrest, hrising⟩ := ih h'
    have hcross : ∀ a ∈ s :: (step.run world s).visited,
        ∀ b ∈ Pintail.timeline world steps (step.run world s).final, a.disk.Before b.disk :=
      fun a ha b hb => (hlast a ha).trans (hrest b hb).2.2
    refine ⟨fun v hv => ?_, pairwise_append.mpr ⟨hpair, hrising, hcross⟩⟩
    rcases mem_append.mp hv with hv | hv
    · rcases mem_cons.mp hv with rfl | hv
      · exact ⟨h.visible, rfl, .refl _⟩
      · exact ⟨hvisible v hv, hschema v hv, rel_of_pairwise_cons hpair hv⟩
    · exact ⟨(hrest v hv).1, (hrest v hv).2.1.trans hend, hcross s mem_cons_self v hv⟩

end Timeline

end TableStore

namespace TableSnapshot

section Instant

variable {world : World} {store : TableStore}

theorem before_of_looks {states : List TableStore}
    (h : states.Pairwise fun a b => a.disk.Before b.disk) {looks : ℕ → Fin states.length}
    (hlooks : Monotone looks) {i j : ℕ} (hij : i ≤ j) :
    (states.get (looks i)).disk.Before (states.get (looks j)).disk := by
  rcases (hlooks hij).eq_or_lt with he | hlt
  · rw [he]
    exact .refl _
  · exact pairwise_iff_get.mp h _ _ hlt

/-- A snapshot opened while the writer works shows the table as it was at one instant of the open:
when the attempt that succeeded read the log. -/
theorem open_shows_instant (h : Process.Reached world (.running store)) (steps : List WriterStep)
    (looks : ℕ → Fin (timeline world steps store).length) (hlooks : Monotone looks)
    {snapshot : TableSnapshot} (ho : TableSnapshot.open world.xxh3 store.schema
      (fun n => ((timeline world steps store).get (looks n)).disk) = .ok snapshot) :
    ∃ a < 8,
      (∀ b < a, attemptAt world.xxh3 store.schema
        (fun n => ((timeline world steps store).get (looks n)).disk) (4 * b) = .ok none) ∧
      attemptAt world.xxh3 store.schema
        (fun n => ((timeline world steps store).get (looks n)).disk) (4 * a) = .ok (some snapshot) ∧
      ∀ k, snapshot.shown k = ((timeline world steps store).get (looks (4 * a + 1))).shown k := by
  obtain ⟨records, hc⟩ := h.sound
  obtain ⟨hstates, hpair⟩ := hc.timeline steps
  obtain ⟨a, ha, hbefore, hfound, hreads⟩ :=
    exists_reads_of_open (fun i j hij => before_of_looks hpair hlooks hij) ho
  refine ⟨a, ha, hbefore, hfound, fun k => ?_⟩
  obtain ⟨⟨records', tail, hholds, -, hshown⟩, hschema, -⟩ :=
    hstates _ (get_mem (timeline world steps store) (looks (4 * a + 1)))
  rw [hschema] at hholds hshown
  exact (hreads.shown_eq hholds k).trans (hshown k)

def sampleSteps : List WriterStep :=
  [.ingest [⟨sampleKey, [.utf8 "a"], 2, false⟩], .flush]

def sampleTimeline : List TableStore :=
  timeline sampleWorld sampleSteps
    (fresh sampleWorld sampleSchema .default)

/-- A first look before the steps, and the others after them. -/
def sampleLooks (n : ℕ) : Fin sampleTimeline.length :=
  ⟨if n = 0 then 0 else sampleTimeline.length - 1, by
    have hpos : 0 < sampleTimeline.length := Nat.succ_pos _
    split_ifs <;> omega⟩

theorem open_shows_instant_flush :
    ∃ snapshot, TableSnapshot.open sampleWorld.xxh3 sampleSchema
        (fun n => (sampleTimeline.get (sampleLooks n)).disk) = .ok snapshot ∧
      ∃ a < 8,
        (∀ b < a, attemptAt sampleWorld.xxh3 sampleSchema
          (fun n => (sampleTimeline.get (sampleLooks n)).disk) (4 * b) = .ok none) ∧
        attemptAt sampleWorld.xxh3 sampleSchema
          (fun n => (sampleTimeline.get (sampleLooks n)).disk) (4 * a) = .ok (some snapshot) ∧
        ∀ k, snapshot.shown k = (sampleTimeline.get (sampleLooks (4 * a + 1))).shown k := by
  have hlooks : Monotone sampleLooks := by
    refine fun i j hij => Fin.mk_le_mk.mpr ?_
    split_ifs <;> omega
  have hok : (TableSnapshot.open sampleWorld.xxh3 sampleSchema
      fun n => (sampleTimeline.get (sampleLooks n)).disk).isOk = true := by
    decide +kernel
  cases ho : TableSnapshot.open sampleWorld.xxh3 sampleSchema
      fun n => (sampleTimeline.get (sampleLooks n)).disk with
  | error e =>
    rw [ho] at hok
    cases hok
  | ok snapshot =>
    exact ⟨snapshot, rfl, open_shows_instant (.fresh _ _ (by decide +kernel)) sampleSteps
      sampleLooks hlooks ho⟩

end Instant

section Reset

variable {world : World} {store : TableStore}

def resetStates (world : World) (store : TableStore) : List TableStore :=
  store :: (resetForResnapshot world store).visited

/-- The rows shown are all the table showed, or none. -/
def AllOrNothing (store : TableStore) (shown : PrimaryKey → Option StoredRow) : Prop :=
  (∀ k, shown k = store.shown k) ∨ ∀ k, shown k = none

def segmentsShown (store : TableStore) (k : PrimaryKey) : Option StoredRow :=
  Versioned.shown (store.manifest.rowsUnder store.schema) k

theorem resetStates_eq :
    resetStates world store = [store, store.logCut, store.startedOver world.xxh3] := rfl

theorem pairwise_resetStates {records : List WalRecord} (h : store.Coherent world.xxh3 records) :
    (resetStates world store).Pairwise fun a b => a.disk.Before b.disk := by
  have hsame : store.disk.Before store.logCut.disk := .inl rfl
  have hlater : store.disk.Before (store.startedOver world.xxh3).disk :=
    .inr (h.generation_eq ▸ Nat.lt_succ_self _)
  have hcut : store.logCut.disk.Before (store.startedOver world.xxh3).disk :=
    .inr (h.generation_eq ▸ Nat.lt_succ_self _)
  simp [resetStates_eq, hsame, hlater, hcut]

section Files

variable {records : List WalRecord} {snapshot : TableSnapshot}

theorem exists_reads_logCut_iff (h : store.Coherent world.xxh3 records) :
    (∃ snapshot, Reads world.xxh3 store.schema store.logCut.disk snapshot) ↔
      ∃ snapshot, Reads world.xxh3 store.schema store.disk snapshot := by
  have hreplay : ∀ {disk : Disk} {records : List WalRecord} {tail : List UInt8},
      disk.Holds world.xxh3 store.schema store.manifest records tail →
      Adapts store.schema store.manifest.flushedSequence records →
      ∃ memtable recovery, Wal.recoverReadOnly world.xxh3 disk.wal = .ok recovery ∧
        replayBatches store.schema 0 store.manifest.flushedSequence recovery.batches =
          .ok memtable := by
    intro disk records tail hd ha
    obtain ⟨memtable, hm⟩ : ∃ memtable, replayBatches store.schema 0 store.manifest.flushedSequence
        (records.filterMap WalRecord.recovered) = .ok memtable :=
      ⟨_, replayBatches_eq_ok.mpr ⟨ha, rfl⟩⟩
    exact ⟨memtable, _, hd.log.recoverReadOnly_eq, by rwa [Wal.replayed_batches]⟩
  constructor
  · rintro ⟨snapshot, hr⟩
    obtain ⟨memtable, hm⟩ := hreplay h.holds h.adapts
    have he := hr.manifest_eq (h.holds_logCut)
    exact ⟨⟨store.schema, store.manifest, memtable⟩, rfl, he ▸ hr.load_eq, he ▸ hr.verify_eq, hm⟩
  · rintro ⟨snapshot, hr⟩
    obtain ⟨memtable, hm⟩ := hreplay (h.holds_logCut) nofun
    have he := hr.manifest_eq h.holds
    exact ⟨⟨store.schema, store.manifest, memtable⟩, rfl, he ▸ hr.load_eq, he ▸ hr.verify_eq, hm⟩

theorem shown_of_reads_logCut (h : store.Coherent world.xxh3 records)
    (hr : Reads world.xxh3 store.schema store.logCut.disk snapshot)
    (k : PrimaryKey) : snapshot.shown k = segmentsShown store k := by
  rw [hr.shown_eq (h.holds_logCut), diskRows, pendingRows_nil, map_nil, append_nil]
  rfl

end Files

/-- Every snapshot opened beside a reset shows all rows or none, exactly if the segments alone show
all rows or none, or the table could not be read in the first place. -/
theorem reset_all_or_nothing_iff (h : Process.Reached world (.running store)) :
    (∀ looks : ℕ → Fin (resetStates world store).length, Monotone looks → ∀ snapshot,
        TableSnapshot.open world.xxh3 store.schema
          (fun n => ((resetStates world store).get (looks n)).disk) = .ok snapshot →
        AllOrNothing store snapshot.shown) ↔
      ((∃ before, TableSnapshot.open world.xxh3 store.schema (fun _ => store.disk) = .ok before) →
        AllOrNothing store (segmentsShown store)) := by
  obtain ⟨records, hc⟩ := h.sound
  constructor
  · rintro hall ⟨before, hbefore⟩
    -- a reader whose every look falls between the two changes
    obtain ⟨snapshot, hr⟩ := (exists_reads_logCut_iff hc).mpr ⟨before, .of_open hbefore⟩
    have hshown := hall (fun _ => ⟨1, Nat.succ_lt_succ (Nat.succ_pos _)⟩) monotone_const snapshot
      hr.open_eq
    rwa [funext (shown_of_reads_logCut hc hr)] at hshown
  · intro hsegments looks hlooks snapshot ho
    obtain ⟨a, -, -, -, hr⟩ := exists_reads_of_open
      (fun i j hij => before_of_looks (pairwise_resetStates hc) hlooks hij) ho
    have hmem := get_mem (resetStates world store) (looks (4 * a + 1))
    generalize (resetStates world store).get (looks (4 * a + 1)) = v at hr hmem
    simp only [resetStates_eq, mem_cons, not_mem_nil, or_false] at hmem
    rcases hmem with rfl | rfl | rfl
    · exact .inl fun k => (hr.shown_eq hc.holds k).trans (hc.shown_eq k)
    · obtain ⟨before, hbefore⟩ := (exists_reads_logCut_iff hc).mp ⟨snapshot, hr⟩
      rw [funext (shown_of_reads_logCut hc hr)]
      exact hsegments ⟨before, hbefore.open_eq⟩
    · have hd : (store.startedOver world.xxh3).disk.Holds world.xxh3 store.schema
          (store.manifest.emptied world.xxh3 store.schema) [] [] := hc.holds_logCut.withManifest _
      exact .inr fun k => hr.shown_eq hd k

def halfFlushedSteps : List WriterStep :=
  [.ingest [⟨sampleKey, [.utf8 "a"], 2, false⟩], .flush,
    .ingest [⟨rowIdKey 8, [.utf8 "b"], 3, false⟩]]

def halfFlushed : TableStore :=
  halfFlushedSteps.foldl (fun s step => (step.run sampleWorld s).final)
    (fresh sampleWorld sampleSchema .default)

/-- The table before the last of these steps: its log is covered. -/
def flushed : TableStore :=
  (halfFlushedSteps.take 2).foldl (fun s step => (step.run sampleWorld s).final)
    (fresh sampleWorld sampleSchema .default)

theorem reset_all_or_nothing_iff_flushed :
    flushed.shown sampleKey = some ⟨sampleKey, [.utf8 "a"], 2, false⟩ ∧
      ∀ looks : ℕ → Fin (resetStates sampleWorld flushed).length, Monotone looks → ∀ snapshot,
        TableSnapshot.open sampleWorld.xxh3 flushed.schema
          (fun n => ((resetStates sampleWorld flushed).get (looks n)).disk) = .ok snapshot →
        AllOrNothing flushed snapshot.shown := by
  have hreached : Process.Reached sampleWorld (.running flushed) :=
    (Process.Reached.fresh _ _ (by decide +kernel)).write _
  have hempty : flushed.memtable.values = [] := by decide +kernel
  refine ⟨by decide +kernel, (reset_all_or_nothing_iff hreached).mpr fun _ => .inl fun k => ?_⟩
  rw [segmentsShown, TableStore.shown, TableStore.rows, hempty, map_nil, append_nil]

/-- Between the two changes of a reset a reader sees the flushed row, and not the one of the log. -/
theorem reset_shows_part :
    Process.Reached sampleWorld (.running halfFlushed) ∧
    halfFlushed.logCut ∈ resetStates sampleWorld halfFlushed ∧
    (∃ snapshot, TableSnapshot.open sampleWorld.xxh3 halfFlushed.schema
        (fun _ => halfFlushed.logCut.disk) = .ok snapshot ∧
      snapshot.shown sampleKey =
        some ⟨sampleKey, [.utf8 "a"], 2, false⟩ ∧
      snapshot.shown (rowIdKey 8) = none) ∧
    halfFlushed.shown (rowIdKey 8) =
      some ⟨rowIdKey 8, [.utf8 "b"], 3, false⟩ := by
  refine ⟨(Process.Reached.fresh _ _ (by decide +kernel)).write halfFlushedSteps,
    mem_cons_of_mem _ mem_cons_self, ?_, by decide +kernel⟩
  have hread : (TableSnapshot.open sampleWorld.xxh3 halfFlushed.schema
      fun _ => halfFlushed.logCut.disk).toOption.any (fun snapshot =>
        snapshot.shown sampleKey =
            some ⟨sampleKey, [.utf8 "a"], 2, false⟩ ∧
          snapshot.shown (rowIdKey 8) = none) = true := by
    decide +kernel
  cases ho : TableSnapshot.open sampleWorld.xxh3 halfFlushed.schema
      fun _ => halfFlushed.logCut.disk with
  | error e =>
    rw [ho] at hread
    cases hread
  | ok snapshot =>
    rw [ho] at hread
    exact ⟨snapshot, rfl, of_decide_eq_true hread⟩

end Reset

end TableSnapshot

end Pintail
