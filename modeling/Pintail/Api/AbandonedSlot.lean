import Pintail.Api.JobSlot

/-! # Slots left behind

Only the job that claimed the slot gives it back, so a claim whose job ends without a release stays
for good. Two handlers hold the slot in their own future while they await the source, and a future
is dropped when its client goes away; the reconcile handler ends with the slot in hand when it
cannot open the metadata.
-/

namespace Pintail.Api

open List Script Option

/-- Where the handler of a request waits for the source with the slot claimed. -/
def Job.awaiting : Job → Option Script
  | .remove | .retryDeadLetter => some (work (release done))
  | _ => none

/-- The jobs of a database, with what each thread was started for. -/
structure Served where
  jobs : Jobs
  started : List Job

inductive Move
  | event (event : Event)
  /-- The handler's future is dropped at its await of the source. Dropped while it asks for the
  slot, it leaves the queue, as one that has waited too long does. -/
  | drop (thread : ℕ)

def Event.job : Event → Option Job
  | .start job => some job
  | .advance _ _ => none

/-- What a request leaves when its future is dropped: the slot is not given back. -/
def Jobs.dropped (jobs : Jobs) (i : ℕ) : Jobs :=
  { jobs with threads := jobs.threads.set i ⟨done, .ended⟩ }

namespace Served

def step (served : Served) : Move → Option Served
  | .event event =>
    (served.jobs.step event).map fun jobs => ⟨jobs, served.started ++ event.job.toList⟩
  | .drop i =>
    match served.jobs.threads[i]?, served.started[i]? with
    | some thread, some job =>
      if thread.stage = .holding ∧ job.awaiting = some thread.script then
        some { served with jobs := served.jobs.dropped i }
      else none
    | _, _ => none

def run (moves : List Move) : Option Served := moves.foldlM step ⟨.idle, []⟩

end Served

/-- Whoever claimed the slot has not ended. -/
def Jobs.Held (jobs : Jobs) : Prop :=
  jobs.table.active ≠ none →
    ∃ i thread, jobs.owner = some i ∧ jobs.threads[i]? = some thread ∧ thread.stage = .holding

def reconcileClaimed : Script :=
  either (checked (either (either (work finishReconcile) finishReconcile) finishReconcile)) done

/-- No request is dropped with the slot in hand, and the metadata opens for a reconcile. -/
def Served.Keeps (served : Served) : Move → Prop
  | .event (.advance i choice) => ∀ thread, served.jobs.threads[i]? = some thread →
      thread.script = reconcileClaimed → choice = true
  | .event (.start _) => True
  | .drop _ => False

section Tended

/-- Every way through the script gives the slot back. -/
def Script.releases : Script → Bool
  | work rest | leave rest | relabel _ rest => rest.releases
  | either ok error => ok.releases && error.releases
  | release _ => true
  | _ => false

def Script.isTended (script : Script) : Bool :=
  script.releases || script = reconcileClaimed || script = leave reconcileClaimed

/-- Once the slot is granted, the script gives it back. -/
def Script.isReady : Script → Bool
  | claim _ _ granted | queue _ granted | ask _ granted =>
    granted.isTended && (leave granted).isTended
  | _ => true

structure Thread.Tended (thread : Thread) : Prop where
  fits : thread.Fits
  unclaimed : thread.stage = .unclaimed → thread.script.isReady = true
  holding : thread.stage = .holding → thread.script.isTended = true

variable {table : JobTable} {choice : Bool} {thread : Thread} {script : Script}

theorem tended_script (job : Job) : Thread.Tended ⟨job.script, .unclaimed⟩ :=
  ⟨⟨fun _ => isFree_script job, nofun, nofun, nofun⟩, fun _ => by cases job <;> decide, nofun⟩

theorem act_of_isReady (hfree : script.isFree = true) (h : script.isReady = true) :
    ((script.act table choice).2.2 = .granted → (script.act table choice).2.1.isTended = true) ∧
      ((script.act table choice).2.2 = .none → (script.act table choice).2.1.isReady = true) := by
  cases script with
  | claim name kind granted =>
    simp only [isReady, Bool.and_eq_true] at h
    rcases table.claimJob_cases name kind with hc | ⟨-, hc⟩ <;> simp [act, hc, isReady, h]
  | queue name granted =>
    constructor
    · intro heffect
      cases heffect
    · exact fun _ => h
  | ask name granted =>
    simp only [isReady, Bool.and_eq_true] at h
    cases choice with
    | false => simp [act, isReady]
    | true => cases hs : table.active <;> simp [act, hs, isReady, h]
  | leave rest =>
    cases rest with
    | done => simp [act, isReady]
    | _ => cases hfree
  | done => simp [act, isReady]
  | _ => cases hfree

theorem act_of_isTended (h : script.isTended = true)
    (hkept : script = reconcileClaimed → choice = true) :
    (script.act table choice).2.2 = .none → (script.act table choice).2.1.isTended = true := by
  have hreleases {rest : Script} (hrest : rest.releases = true) : rest.isTended = true := by
    simp [isTended, hrest]
  intro heffect
  simp only [isTended, Bool.or_eq_true, decide_eq_true_eq] at h
  rcases h with (h | rfl) | rfl
  · cases script with
    | work rest | leave rest | relabel name rest => exact hreleases h
    | either ok error =>
      simp only [releases, Bool.and_eq_true] at h
      cases choice with
      | true => exact hreleases h.1
      | false => exact hreleases h.2
    | release rest => cases heffect
    | _ => cases h
  · rw [hkept rfl]
    exact hreleases rfl
  · exact show reconcileClaimed.isTended = true by decide

/-- A thread stays tended, and one with the slot keeps it until it gives it back. -/
theorem Thread.Tended.next (h : thread.Tended) (hne : thread.script ≠ done)
    (hkept : thread.script = reconcileClaimed → choice = true) :
    (thread.next table choice).Tended ∧ (thread.stage = .holding →
      (thread.script.act table choice).2.2 = .none →
        (thread.next table choice).stage = .holding) := by
  obtain ⟨hfits, hmoves⟩ := @Thread.Fits.moves table choice _ h.fits hne
  have hready (hs : thread.stage = .unclaimed) :=
    @act_of_isReady table choice _ (h.fits.unclaimed hs) (h.unclaimed hs)
  have htended (hs : thread.stage = .holding) :=
    @act_of_isTended table choice _ (h.holding hs) hkept
  cases hmoves with
  | claims hs _ heffect _ hnext =>
    refine ⟨⟨hfits, fun hu => ?_, fun _ => (hready hs).1 heffect⟩, fun hh => ?_⟩
    · cases hnext.symm.trans hu
    · cases hs.symm.trans hh
  | releases _ heffect _ hnext =>
    refine ⟨⟨hfits, fun hu => ?_, fun hh => ?_⟩, fun _ hnone => ?_⟩
    · rw [hu] at hnext
      exact absurd hnext (by simp)
    · rw [hh] at hnext
      exact absurd hnext (by simp)
    · cases heffect.symm.trans hnone
  | works _ heffect _ hnext =>
    have hstage (hs : thread.stage = .holding) : (thread.next table choice).stage = .holding := by
      have hd : (thread.script.act table choice).2.1 ≠ done := by
        intro hd
        have := htended hs heffect
        rw [hd] at this
        cases this
      simp [Thread.next, Stage.after, heffect, hd, hs]
    refine ⟨⟨hfits, fun hu => ?_, fun hh => ?_⟩, fun hs _ => hstage hs⟩
    · rw [hu] at hnext
      exact (hready (hnext.resolve_right (by simp)).symm).2 heffect
    · rw [hh] at hnext
      exact htended (hnext.resolve_right (by simp)).symm heffect

end Tended

namespace Jobs

variable {jobs : Jobs}

structure Tended (jobs : Jobs) : Prop where
  threads : ∀ thread ∈ jobs.threads, thread.Tended
  vacant : jobs.table.active = none ↔ jobs.owner = none
  holder : ∀ i, jobs.owner = some i →
    ∃ thread, jobs.threads[i]? = some thread ∧ thread.stage = .holding

theorem Tended.held (h : jobs.Tended) : jobs.Held := by
  intro hactive
  obtain ⟨i, hi⟩ := ne_none_iff_exists'.mp (mt h.vacant.mpr hactive)
  obtain ⟨thread, hthread, hstage⟩ := h.holder i hi
  exact ⟨i, thread, hi, hthread, hstage⟩

theorem Tended.start (h : jobs.Tended) (job : Job) :
    Tended { jobs with threads := jobs.threads ++ [⟨job.script, .unclaimed⟩] } := by
  refine ⟨?_, h.vacant, fun i hi => ?_⟩
  · rw [forall_mem_append]
    exact ⟨h.threads, forall_mem_singleton.mpr (tended_script job)⟩
  · obtain ⟨thread, hthread, hstage⟩ := h.holder i hi
    have hlt := (List.getElem?_eq_some_iff.mp hthread).1
    exact ⟨thread, by rw [getElem?_append_left hlt, hthread], hstage⟩

theorem Tended.advance {i : ℕ} {choice : Bool} {thread : Thread} (h : jobs.Tended)
    (hi : jobs.threads[i]? = some thread) (hne : thread.script ≠ done)
    (hkept : thread.script = reconcileClaimed → choice = true) :
    (jobs.advance i thread choice).Tended := by
  obtain ⟨hnext, hholds⟩ := @Thread.Tended.next jobs.table choice _
    (h.threads thread (mem_of_getElem? hi)) hne hkept
  have hlen := (List.getElem?_eq_some_iff.mp hi).1
  have hself : (jobs.advance i thread choice).threads[i]? = some (thread.next jobs.table choice) := by
    simp [Jobs.advance, hlen]
  have hthreads : ∀ other ∈ (jobs.advance i thread choice).threads, other.Tended := by
    intro other hother
    rcases mem_or_eq_of_mem_set hother with hother | rfl
    · exact h.threads other hother
    · exact hnext
  obtain ⟨-, hmoves⟩ := @Thread.Fits.moves jobs.table choice _
    (h.threads thread (mem_of_getElem? hi)).fits hne
  cases hmoves with
  | claims _ _ heffect hsome hstage =>
    have howner : (jobs.advance i thread choice).owner = some i := by
      simp [Jobs.advance, heffect, ownerAfter]
    refine ⟨hthreads, iff_of_false hsome (by simp [howner]), fun j hj => ?_⟩
    obtain rfl := some.inj (howner.symm.trans hj)
    exact ⟨_, hself, hstage⟩
  | releases _ heffect hnone _ =>
    have howner : (jobs.advance i thread choice).owner = none := by
      simp [Jobs.advance, heffect, ownerAfter]
    refine ⟨hthreads, iff_of_true hnone howner, fun j hj => ?_⟩
    cases howner.symm.trans hj
  | works _ heffect hactive _ =>
    have howner : (jobs.advance i thread choice).owner = jobs.owner := by
      simp [Jobs.advance, heffect, ownerAfter]
    refine ⟨hthreads, by rw [howner, ← h.vacant]; exact hactive, fun j hj => ?_⟩
    obtain ⟨other, hother, hstage⟩ := h.holder j (howner.symm.trans hj)
    by_cases hji : j = i
    · subst hji
      obtain rfl := some.inj (hi.symm.trans hother)
      exact ⟨_, hself, hholds hstage heffect⟩
    · exact ⟨other, by simpa [Jobs.advance, Ne.symm hji] using hother, hstage⟩

end Jobs

namespace Served

variable {served served' : Served} {move : Move} {moves : List Move}

theorem tended_step (h : served.jobs.Tended) (hstep : served.step move = some served')
    (hkeeps : served.Keeps move) : served'.jobs.Tended := by
  cases move with
  | drop i => cases hkeeps
  | event event =>
    obtain ⟨jobs, hjobs, rfl⟩ := map_eq_some_iff.mp hstep
    cases event with
    | start job =>
      cases hjobs
      exact h.start job
    | advance i choice =>
      obtain ⟨thread, hi, hne, rfl⟩ := Jobs.step_advance.mp hjobs
      exact h.advance hi hne (hkeeps thread hi)

/-- In every run that drops no request with the slot in hand and opens the metadata for every
reconcile, whoever claimed the slot has not ended, in every state the run passes. -/
theorem held_of_keeps (moves : List Move)
    (h : ∀ front move served, front ++ [move] <+: moves → run front = some served →
      served.Keeps move) :
    ∀ front served, front <+: moves → run front = some served → served.jobs.Held := by
  suffices htended : ∀ front served, front <+: moves → run front = some served →
      served.jobs.Tended from
    fun front served hp hrun => (htended front served hp hrun).held
  intro front
  induction front using reverseRecOn with
  | nil =>
    intro served _ hrun
    cases hrun
    exact ⟨nofun, iff_of_true rfl rfl, nofun⟩
  | append_singleton front move ih =>
    intro served hp hrun
    obtain ⟨before, hbefore, hstep⟩ : ∃ before, run front = some before ∧
        before.step move = some served := by
      simpa [run, bind_eq_some_iff] using hrun
    exact tended_step (ih before ((prefix_append front [move]).trans hp) hbefore) hstep
      (h front move before hp hbefore)

def openedReconcile : List Move :=
  [.event (.start .reconcile), .event (.advance 0 true), .event (.advance 0 true),
    .event (.advance 0 true), .event (.advance 0 true)]

theorem held_of_openedReconcile :
    ∃ served, run openedReconcile = some served ∧ served.jobs.table.active ≠ none ∧
      served.jobs.Held := by
  refine ⟨_, rfl, nofun, held_of_keeps openedReconcile ?_ _ _ prefix_rfl rfl⟩
  intro front move served hp _
  have hmove := hp.subset (mem_append_right front (mem_singleton_self move))
  rcases mem_cons.mp hmove with rfl | hmove
  · trivial
  · obtain rfl : move = .event (.advance 0 true) := by simpa using hmove
    exact fun _ _ _ => rfl

/-- A removal waits for the source and its client goes away. -/
def droppedRemoval : List Move :=
  [.event (.start .remove), .event (.advance 0 true), .event (.advance 0 true),
    .event (.advance 0 true), .drop 0]

/-- A reconcile request has the slot and cannot open the metadata. -/
def failedReconcile : List Move :=
  [.event (.start .reconcile), .event (.advance 0 true), .event (.advance 0 true),
    .event (.advance 0 true), .event (.advance 0 false)]

theorem abandons_slot :
    (∃ served, run droppedRemoval = some served ∧ ¬ served.jobs.Held) ∧
      ∃ served, run failedReconcile = some served ∧ ¬ served.jobs.Held := by
  have hended {served : Served} (hactive : served.jobs.table.active ≠ none)
      (howner : served.jobs.owner = some 0)
      (hthread : served.jobs.threads[0]? = some ⟨done, .ended⟩) : ¬ served.jobs.Held := by
    intro h
    obtain ⟨i, thread, hi, hi', hstage⟩ := h hactive
    cases howner.symm.trans hi
    cases hthread.symm.trans hi'
    cases hstage
  constructor
  · exact ⟨_, rfl, hended nofun rfl rfl⟩
  · exact ⟨_, rfl, hended nofun rfl rfl⟩

end Served

end Pintail.Api
