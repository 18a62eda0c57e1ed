import Mathlib.Data.List.Infix

/-! # The job slot of a database

Replication cycles, snapshots, repairs, reconciliations and backups of a database take turns in one
slot. The slot names a job and its kind but not its owner: a release empties it, whoever claimed it.
Jobs are scripts whose atomic steps interleave in any order. What a job does after its last release
(`delete_dlq_record`, `after_cycle`, the audit) is left out, and so is how an operator's action asks
the holder of the slot to stop.
-/

namespace Pintail.Api

open List

inductive JobKind
  | cycle
  | automatic
  | operator
  deriving DecidableEq, Repr

structure JobSlot where
  claim : String
  kind : JobKind
  deriving DecidableEq, Repr

/-- What a database's jobs share: the slot, and how many operators wait for it. -/
structure JobTable where
  active : Option JobSlot
  waiting : ℕ
  deriving DecidableEq, Repr

namespace JobTable

def claimJob (table : JobTable) (claim : String) (kind : JobKind) : Option JobTable :=
  if kind ≠ .operator ∧ table.waiting ≠ 0 then none
  else
    match table.active with
    | none => some { table with active := some ⟨claim, kind⟩ }
    | some _ => none

theorem claimJob_cases (table : JobTable) (claim : String) (kind : JobKind) :
    table.claimJob claim kind = none ∨ table.active = none ∧
      table.claimJob claim kind = some { table with active := some ⟨claim, kind⟩ } := by
  unfold claimJob
  split_ifs
  · exact .inl rfl
  · cases hs : table.active with
    | none => exact .inr ⟨rfl, rfl⟩
    | some slot => exact .inl rfl

def relabelJob (table : JobTable) (claim : String) : JobTable :=
  { table with active := table.active.map fun slot => { slot with claim } }

def releaseJob (table : JobTable) : JobTable := { table with active := none }

end JobTable

/-- What a job still does, as far as the slot is concerned. -/
inductive Script
  | done
  | work (rest : Script)
  /-- An operation or a test that may go either way. -/
  | either (ok error : Script)
  | claim (name : String) (kind : JobKind) (granted : Script)
  /-- An operator's action joins the queue, and then asks until it is granted or gives up. -/
  | queue (name : String) (granted : Script)
  | ask (name : String) (granted : Script)
  | leave (rest : Script)
  | relabel (name : String) (rest : Script)
  | release (rest : Script)
  deriving DecidableEq, Repr

inductive Effect
  | none
  | granted
  | released

/-- One atomic step; where it may go either way, the choice decides. -/
def Script.act (table : JobTable) (choice : Bool) : Script → JobTable × Script × Effect
  | done => (table, done, .none)
  | work rest => (table, rest, .none)
  | either ok error => (table, if choice then ok else error, .none)
  | claim name kind granted =>
    match table.claimJob name kind with
    | some table => (table, granted, .granted)
    | none => (table, done, .none)
  | queue name granted =>
    ({ table with waiting := table.waiting + 1 }, ask name granted, .none)
  | ask name granted =>
    -- the action has waited for too long, or its request was dropped
    if choice = false then (table, leave done, .none)
    else
      match table.active with
      | none => ({ table with active := some ⟨name, .operator⟩ }, leave granted, .granted)
      | some _ => (table, ask name granted, .none)
  | leave rest => ({ table with waiting := table.waiting - 1 }, rest, .none)
  | relabel name rest => (table.relabelJob name, rest, .none)
  | release rest => (table.releaseJob, rest, .released)

section Scripts

open Script

/-- An operation whose failure gives the slot back. -/
def checked (rest : Script) : Script := either rest (release done)

def finishBackupError (rest : Script) : Script := work (release rest)

def completeBackupJob : Script :=
  either (work (release done)) (finishBackupError (release done))

def startJob : Script :=
  let worker := either completeBackupJob (finishBackupError done)
  let spawned := either worker (finishBackupError done)
  let started := checked (checked (either (checked spawned) (release done)))
  checked (checked (either started (release done)))

def finishSnapshotJob : Script := work (release done)

def startSnapshotHolding : Script :=
  let spawned := either (work finishSnapshotJob) finishSnapshotJob
  let found := either (checked spawned) (release done)
  checked (checked (either found (release done)))

def finishTableResnapshot : Script := work (release done)

def tableResnapshot : Script :=
  either (either (work finishTableResnapshot) finishTableResnapshot) finishTableResnapshot

def finishReconcile : Script := work (release done)

def superviseCycle : Script :=
  either (either (work (release done)) (work (release done))) (work (release done))

inductive Job
  | cycle
  | backup
  | scheduledBackup
  | resync
  | autoResync
  | reconcile
  | remove
  | retryDeadLetter
  | reset
  | resumePendingReset
  | beginSnapshotJob
  | beginOperatorSnapshot

def Job.script : Job → Script
  | cycle => claim "a replication cycle" .cycle superviseCycle
  | backup => queue "a backup" startJob
  | scheduledBackup => claim "a scheduled backup" .automatic startJob
  | resync => queue "a table resnapshot" (checked (checked tableResnapshot))
  | autoResync => claim "an automatic table resnapshot" .automatic (checked tableResnapshot)
  | reconcile =>
    let worker := either (work finishReconcile) finishReconcile
    -- without metadata the request ends and keeps the slot
    queue "a table reconciliation"
      (either (checked (either worker finishReconcile)) done)
  | remove => queue "a table removal" (work (release done))
  | retryDeadLetter => queue "a dead-letter retry" (work (release done))
  | reset =>
    queue "a factory reset" (checked (relabel "a full snapshot" startSnapshotHolding))
  | resumePendingReset => claim "a full snapshot" .automatic (checked startSnapshotHolding)
  | beginSnapshotJob => claim "a full snapshot" .automatic startSnapshotHolding
  | beginOperatorSnapshot => queue "a full snapshot" startSnapshotHolding

end Scripts

/-- How far a job has come; `released` has given the slot back and has steps left. -/
inductive Stage
  | unclaimed
  | holding
  | released
  | ended
  deriving DecidableEq, Repr

structure Thread where
  script : Script
  stage : Stage
  deriving DecidableEq, Repr

/-- The jobs of a database. The owner is the job whose claim stands in the slot, which the slot
itself does not know. -/
structure Jobs where
  table : JobTable
  owner : Option ℕ
  threads : List Thread
  deriving DecidableEq, Repr

inductive Event
  | start (job : Job)
  | advance (thread : ℕ) (choice : Bool)

def Stage.after (stage : Stage) (script : Script) : Effect → Stage
  | .granted => .holding
  | .released => if script = .done then .ended else .released
  | .none => if script = .done then .ended else stage

def Thread.next (thread : Thread) (table : JobTable) (choice : Bool) : Thread :=
  let (_, script, effect) := thread.script.act table choice
  ⟨script, thread.stage.after script effect⟩

namespace Jobs

def idle : Jobs := ⟨⟨none, 0⟩, none, []⟩

def ownerAfter (jobs : Jobs) (i : ℕ) : Effect → Option ℕ
  | .granted => some i
  | .released => none
  | .none => jobs.owner

def advance (jobs : Jobs) (i : ℕ) (thread : Thread) (choice : Bool) : Jobs :=
  let (table, _, effect) := thread.script.act jobs.table choice
  { table
    owner := jobs.ownerAfter i effect
    threads := jobs.threads.set i (thread.next jobs.table choice) }

def step (jobs : Jobs) : Event → Option Jobs
  | .start job => some { jobs with threads := jobs.threads ++ [⟨job.script, .unclaimed⟩] }
  | .advance i choice =>
    match jobs.threads[i]? with
    | none => none
    | some thread => if thread.script = .done then none else some (jobs.advance i thread choice)

def run (events : List Event) : Option Jobs := events.foldlM step idle

def Running (jobs : Jobs) (i : ℕ) : Prop :=
  ∃ thread, jobs.threads[i]? = some thread ∧ (thread.stage = .holding ∨ thread.stage = .released)

def Exclusive (jobs : Jobs) : Prop := ∀ i j, jobs.Running i → jobs.Running j → i = j

/-- A release takes away no other job's claim. -/
def ReleasesOwn (jobs : Jobs) (event : Event) : Prop :=
  ∀ i choice thread rest, event = .advance i choice → jobs.threads[i]? = some thread →
    thread.script = .release rest → jobs.table.active.isSome = true → jobs.owner = some i

def Grants (jobs : Jobs) (event : Event) : Prop :=
  ∃ i choice thread, event = .advance i choice ∧ jobs.threads[i]? = some thread ∧
    (thread.script.act jobs.table choice).2.2 = .granted

/-- A job has given the slot back and will do so once more. -/
def Lingers (jobs : Jobs) : Prop := ∃ thread ∈ jobs.threads, thread.stage = .released

end Jobs

section Discipline

open Script

/-- What a job that holds the slot may do: give it back as its last step, or twice in a row. -/
@[simp] def Script.isHeld : Script → Bool
  | done => true
  | work rest | leave rest | relabel _ rest => rest.isHeld
  | either ok error => ok.isHeld && error.isHeld
  | release done | release (release done) => true
  | _ => false

def Script.isFree : Script → Bool
  | done | leave done => true
  | claim _ _ granted | queue _ granted | ask _ granted => granted.isHeld && granted ≠ done
  | _ => false

theorem isFree_script (job : Job) : job.script.isFree = true := by
  cases job <;> decide

structure Thread.Fits (thread : Thread) : Prop where
  unclaimed : thread.stage = .unclaimed → thread.script.isFree = true
  holding : thread.stage = .holding → thread.script.isHeld = true
  released : thread.stage = .released → thread.script = release done
  ended : thread.stage = .ended → thread.script = done

variable {table : JobTable} {choice : Bool} {script rest : Script} {thread : Thread}

theorem act_of_isFree (h : script.isFree = true) :
    ((script.act table choice).2.2 = .granted ∧ table.active = none ∧
        (script.act table choice).1.active ≠ none ∧
        (script.act table choice).2.1.isHeld = true) ∨
      ((script.act table choice).2.2 = .none ∧
        (script.act table choice).1.active = table.active ∧
        (script.act table choice).2.1.isFree = true) := by
  cases script with
  | done => exact .inr ⟨rfl, rfl, rfl⟩
  | claim name kind granted =>
    simp only [isFree, Bool.and_eq_true] at h
    rcases table.claimJob_cases name kind with hc | ⟨hs, hc⟩
    · simp [act, hc, isFree]
    · simp [act, hc, hs, h.1]
  | queue name granted => exact .inr ⟨rfl, rfl, h⟩
  | ask name granted =>
    simp only [isFree, Bool.and_eq_true] at h
    cases choice with
    | false => simp [act, isFree]
    | true =>
      cases hs : table.active with
      | none => simp [act, hs, h.1]
      | some slot => simp [act, hs, isFree, h.1, h.2]
  | leave rest =>
    cases rest with
    | done => exact .inr ⟨rfl, rfl, rfl⟩
    | _ => cases h
  | _ => cases h

theorem act_of_isHeld (h : script.isHeld = true) :
    ((script.act table choice).2.2 = .released ∧ (script.act table choice).1.active = none ∧
        ((script.act table choice).2.1 = done ∨ (script.act table choice).2.1 = release done)) ∨
      ((script.act table choice).2.2 = .none ∧
        ((script.act table choice).1.active = none ↔ table.active = none) ∧
        (script.act table choice).2.1.isHeld = true) := by
  cases script with
  | done => exact .inr ⟨rfl, Iff.rfl, rfl⟩
  | work rest => exact .inr ⟨rfl, Iff.rfl, h⟩
  | either ok error =>
    simp only [isHeld, Bool.and_eq_true] at h
    refine .inr ⟨rfl, Iff.rfl, ?_⟩
    cases choice with
    | true => exact h.1
    | false => exact h.2
  | leave rest => exact .inr ⟨rfl, Iff.rfl, h⟩
  | relabel name rest => exact .inr ⟨rfl, Option.map_eq_none_iff, h⟩
  | release rest =>
    refine .inl ⟨rfl, rfl, ?_⟩
    cases rest with
    | done => exact .inl rfl
    | release rest =>
      cases rest with
      | done => exact .inr rfl
      | _ => cases h
    | _ => cases h
  | _ => cases h

/-- What a step of a job can do, by how far the job has come. -/
inductive Thread.Moves (thread : Thread) (table : JobTable) (choice : Bool) : Prop
  | claims (hstage : thread.stage = .unclaimed) (hnone : table.active = none)
    (heffect : (thread.script.act table choice).2.2 = .granted)
    (hsome : (thread.script.act table choice).1.active ≠ none)
    (hnext : (thread.next table choice).stage = .holding)
  | works (hstage : thread.stage ≠ .released)
    (heffect : (thread.script.act table choice).2.2 = .none)
    (hactive : (thread.script.act table choice).1.active = none ↔ table.active = none)
    (hnext : (thread.next table choice).stage = thread.stage ∨
      (thread.next table choice).stage = .ended)
  | releases (hstage : thread.stage = .holding ∨ thread.stage = .released)
    (heffect : (thread.script.act table choice).2.2 = .released)
    (hnone : (thread.script.act table choice).1.active = none)
    (hnext : (thread.next table choice).stage = .released ∨
      (thread.next table choice).stage = .ended)

theorem Thread.next_of_granted (h : (thread.script.act table choice).2.2 = .granted) :
    thread.next table choice = ⟨(thread.script.act table choice).2.1, .holding⟩ := by
  simp [Thread.next, h, Stage.after]

theorem Thread.next_of_released (h : (thread.script.act table choice).2.2 = .released) :
    thread.next table choice = ⟨(thread.script.act table choice).2.1,
      if (thread.script.act table choice).2.1 = .done then .ended else .released⟩ := by
  simp [Thread.next, h, Stage.after]

theorem Thread.moves_of_none (heffect : (thread.script.act table choice).2.2 = .none)
    (hactive : (thread.script.act table choice).1.active = none ↔ table.active = none)
    (hstage : thread.stage ≠ .released)
    (hfits : Thread.Fits ⟨(thread.script.act table choice).2.1, thread.stage⟩) :
    (thread.next table choice).Fits ∧ thread.Moves table choice := by
  have hnext : thread.next table choice = ⟨(thread.script.act table choice).2.1,
      if (thread.script.act table choice).2.1 = .done then .ended else thread.stage⟩ := by
    simp [Thread.next, heffect, Stage.after]
  refine ⟨?_, .works hstage heffect hactive ?_⟩
  · rw [hnext]
    split_ifs with hd
    · exact ⟨nofun, nofun, nofun, fun _ => hd⟩
    · exact hfits
  · rw [hnext]
    split_ifs <;> simp

theorem Thread.Fits.moves (h : thread.Fits) (hne : thread.script ≠ .done) :
    (thread.next table choice).Fits ∧ thread.Moves table choice := by
  cases hstage : thread.stage with
  | unclaimed =>
    rcases @act_of_isFree table choice _ (h.unclaimed hstage) with
      ⟨heffect, hnone, hsome, hheld⟩ | ⟨heffect, hactive, hfree⟩
    · have hnext := Thread.next_of_granted heffect
      refine ⟨?_, .claims hstage hnone heffect hsome (by rw [hnext])⟩
      rw [hnext]
      exact ⟨nofun, fun _ => hheld, nofun, nofun⟩
    · apply Thread.moves_of_none heffect (by rw [hactive]) (by simp [hstage])
      rw [hstage]
      exact ⟨fun _ => hfree, nofun, nofun, nofun⟩
  | holding =>
    rcases @act_of_isHeld table choice _ (h.holding hstage) with
      ⟨heffect, hnone, hrest⟩ | ⟨heffect, hactive, hheld⟩
    · have hnext := Thread.next_of_released heffect
      refine ⟨?_, .releases (.inl hstage) heffect hnone ?_⟩
      · rw [hnext]
        split_ifs with hd
        · exact ⟨nofun, nofun, nofun, fun _ => hd⟩
        · exact ⟨nofun, nofun, fun _ => hrest.resolve_left hd, nofun⟩
      · rw [hnext]
        split_ifs <;> simp
    · apply Thread.moves_of_none heffect hactive (by simp [hstage])
      rw [hstage]
      exact ⟨nofun, fun _ => hheld, nofun, nofun⟩
  | released =>
    have hact : thread.script.act table choice = (table.releaseJob, done, .released) := by
      rw [h.released hstage]
      rfl
    have hnext : thread.next table choice = ⟨done, .ended⟩ := by
      simp [Thread.next, hact, Stage.after]
    refine ⟨?_, .releases (.inr hstage) (by rw [hact]) (by rw [hact]; rfl) (by simp [hnext])⟩
    rw [hnext]
    exact ⟨nofun, nofun, nofun, fun _ => rfl⟩
  | ended => exact absurd (h.ended hstage) hne

end Discipline

namespace Jobs

variable {jobs jobs' : Jobs} {event : Event} {events : List Event} {i j : ℕ} {choice : Bool}
  {front : List Event}

/-- The slot is taken exactly while it has an owner, a job that holds it owns it, and a job that
still has to give it back a second time is alone. -/
structure Sound (jobs : Jobs) : Prop where
  fits : ∀ thread ∈ jobs.threads, thread.Fits
  vacant : jobs.table.active = none ↔ jobs.owner = none
  holder : ∀ i thread, jobs.threads[i]? = some thread → thread.stage = .holding →
    jobs.owner = some i
  alone : ∀ i thread, jobs.threads[i]? = some thread → thread.stage = .released →
    jobs.owner = none ∧ ∀ j, jobs.Running j → j = i

theorem Sound.exclusive (h : jobs.Sound) : jobs.Exclusive := by
  rintro i j ⟨thread, hi, hstage | hstage⟩ hj
  · obtain ⟨other, hother, hstage' | hstage'⟩ := hj
    · exact Option.some.inj ((h.holder i thread hi hstage).symm.trans
        (h.holder j other hother hstage'))
    · exact (h.alone j other hother hstage').2 i ⟨thread, hi, .inl hstage⟩
  · exact ((h.alone i thread hi hstage).2 j hj).symm

theorem Sound.releasesOwn (h : jobs.Sound) : jobs.ReleasesOwn event := by
  rintro i choice thread rest - hi hscript hsome
  have hfits := h.fits thread (mem_of_getElem? hi)
  cases hstage : thread.stage with
  | unclaimed =>
    have hfree := hfits.unclaimed hstage
    rw [hscript] at hfree
    cases hfree
  | holding => exact h.holder i thread hi hstage
  | released =>
    rw [h.vacant.mpr (h.alone i thread hi hstage).1] at hsome
    cases hsome
  | ended =>
    rw [hfits.ended hstage] at hscript
    cases hscript

theorem sound_idle : idle.Sound where
  fits := nofun
  vacant := iff_of_true rfl rfl
  holder := nofun
  alone := nofun

theorem getElem?_start {jobs : Jobs} {new thread : Thread}
    (h : (jobs.threads ++ [new])[j]? = some thread) (hne : thread.stage ≠ new.stage) :
    jobs.threads[j]? = some thread := by
  rw [getElem?_append] at h
  split_ifs at h
  · exact h
  · obtain rfl : new = thread := mem_singleton.mp (mem_of_getElem? h) |>.symm
    exact absurd rfl hne

theorem Sound.start (h : jobs.Sound) (job : Job) :
    Sound { jobs with threads := jobs.threads ++ [⟨job.script, .unclaimed⟩] } := by
  refine ⟨?_, h.vacant, ?_, ?_⟩
  · rw [forall_mem_append]
    refine ⟨h.fits, forall_mem_singleton.mpr ⟨fun _ => isFree_script job, nofun, nofun, nofun⟩⟩
  · intro j thread hj hstage
    exact h.holder j thread (getElem?_start hj (by simp [hstage])) hstage
  · intro j thread hj hstage
    obtain ⟨howner, halone⟩ := h.alone j thread (getElem?_start hj (by simp [hstage])) hstage
    refine ⟨howner, ?_⟩
    rintro k ⟨other, hk, hother⟩
    refine halone k ⟨other, getElem?_start hk ?_, hother⟩
    rcases hother with hother | hother <;> simp [hother]

section Advance

variable {thread other : Thread}

theorem getElem?_advance (hi : jobs.threads[i]? = some thread)
    (h : (jobs.advance i thread choice).threads[j]? = some other) :
    (j = i ∧ other = thread.next jobs.table choice) ∨
      (j ≠ i ∧ jobs.threads[j]? = some other) := by
  have hlen := (List.getElem?_eq_some_iff.mp hi).1
  by_cases hj : j = i
  · subst hj
    simpa [advance, hlen] using h.symm
  · refine .inr ⟨hj, ?_⟩
    simpa [advance, Ne.symm hj] using h

theorem Exclusive.others (h : jobs.Exclusive) (hr : jobs.Running i) (j : ℕ) (hj : j ≠ i) :
    ¬ jobs.Running j :=
  fun hrj => hj (h j i hrj hr)

/-- A step keeps the slot sound when the job it moves owns the slot while it holds it, is alone
while it runs, and leaves the owner as it was where others run. -/
theorem Sound.advance_of (h : jobs.Sound) (hi : jobs.threads[i]? = some thread)
    (hfits : (thread.next jobs.table choice).Fits)
    (hvacant : (jobs.advance i thread choice).table.active = none ↔
      (jobs.advance i thread choice).owner = none)
    (hholds : (thread.next jobs.table choice).stage = .holding →
      (jobs.advance i thread choice).owner = some i ∧ ∀ j, j ≠ i → ¬ jobs.Running j)
    (hreleased : (thread.next jobs.table choice).stage = .released →
      (jobs.advance i thread choice).owner = none ∧ ∀ j, j ≠ i → ¬ jobs.Running j)
    (hothers : ∀ j, j ≠ i → jobs.Running j → (jobs.advance i thread choice).owner = jobs.owner) :
    (jobs.advance i thread choice).Sound := by
  have hrunning {j : ℕ} (hj : j ≠ i) (hr : (jobs.advance i thread choice).Running j) :
      jobs.Running j := by
    obtain ⟨other, hother, hstage⟩ := hr
    rcases getElem?_advance hi hother with ⟨rfl, -⟩ | ⟨-, hother⟩
    · exact absurd rfl hj
    · exact ⟨other, hother, hstage⟩
  refine ⟨?_, hvacant, ?_, ?_⟩
  · intro other hother
    obtain ⟨j, hj⟩ := mem_iff_getElem?.mp hother
    rcases getElem?_advance hi hj with ⟨-, rfl⟩ | ⟨-, hj⟩
    · exact hfits
    · exact h.fits other (mem_of_getElem? hj)
  · intro j other hj hstage
    rcases getElem?_advance hi hj with ⟨rfl, rfl⟩ | ⟨hne, hj⟩
    · exact (hholds hstage).1
    · rw [hothers j hne ⟨other, hj, .inl hstage⟩]
      exact h.holder j other hj hstage
  · intro j other hj hstage
    rcases getElem?_advance hi hj with ⟨rfl, rfl⟩ | ⟨hne, hj⟩
    · refine ⟨(hreleased hstage).1, fun k hk => ?_⟩
      by_contra hkj
      exact (hreleased hstage).2 k hkj (hrunning hkj hk)
    · obtain ⟨howner, halone⟩ := h.alone j other hj hstage
      have hr : jobs.Running j := ⟨other, hj, .inr hstage⟩
      refine ⟨(hothers j hne hr).trans howner, fun k hk => ?_⟩
      by_cases hki : k = i
      · subst hki
        obtain ⟨moved, hmoved, hstage'⟩ := hk
        rcases getElem?_advance hi hmoved with ⟨-, rfl⟩ | ⟨hkk, -⟩
        · rcases hstage' with hstage' | hstage'
          · exact absurd hr ((hholds hstage').2 j hne)
          · exact absurd hr ((hreleased hstage').2 j hne)
        · exact absurd rfl hkk
      · exact halone k (hrunning hki hk)

theorem Sound.advance (h : jobs.Sound) (hi : jobs.threads[i]? = some thread)
    (hne : thread.script ≠ .done) (hgrant : jobs.Grants (.advance i choice) → ¬ jobs.Lingers) :
    (jobs.advance i thread choice).Sound := by
  obtain ⟨hfits, hmoves⟩ :=
    @Thread.Fits.moves jobs.table choice _ (h.fits thread (mem_of_getElem? hi)) hne
  cases hmoves with
  | claims hstage hnone heffect hsome hnext =>
    have howner : (jobs.advance i thread choice).owner = some i := by
      simp [Jobs.advance, heffect, ownerAfter]
    have hothers (j : ℕ) : ¬ jobs.Running j := by
      rintro ⟨other, hj, hother | hother⟩
      · cases (h.vacant.mp hnone).symm.trans (h.holder j other hj hother)
      · exact hgrant ⟨i, choice, thread, rfl, hi, heffect⟩
          ⟨other, mem_of_getElem? hj, hother⟩
    refine h.advance_of hi hfits (iff_of_false hsome (by simp [howner])) ?_ ?_ ?_
    · exact fun _ => ⟨howner, fun j _ => hothers j⟩
    · exact fun hr => absurd (hnext.symm.trans hr) nofun
    · exact fun j _ hr => absurd hr (hothers j)
  | works hstage heffect hactive hnext =>
    have howner : (jobs.advance i thread choice).owner = jobs.owner := by
      simp [Jobs.advance, heffect, ownerAfter]
    refine h.advance_of hi hfits ?_ ?_ ?_ fun _ _ _ => howner
    · rw [howner, ← h.vacant]
      exact hactive
    · intro hh
      rw [hh] at hnext
      have hholding := (hnext.resolve_right nofun).symm
      exact ⟨howner.trans (h.holder i thread hi hholding),
        h.exclusive.others ⟨thread, hi, .inl hholding⟩⟩
    · intro hr
      rw [hr] at hnext
      exact absurd (hnext.resolve_right nofun).symm hstage
  | releases hstage heffect hnone hnext =>
    have howner : (jobs.advance i thread choice).owner = none := by
      simp [Jobs.advance, heffect, ownerAfter]
    have hothers := h.exclusive.others ⟨thread, hi, hstage⟩
    refine h.advance_of hi hfits (iff_of_true hnone howner) ?_ (fun _ => ⟨howner, hothers⟩)
      fun j hj hr => absurd hr (hothers j hj)
    intro hh
    rw [hh] at hnext
    exact absurd hnext (by simp)

end Advance

theorem step_advance : jobs.step (.advance i choice) = some jobs' ↔
    ∃ thread, jobs.threads[i]? = some thread ∧ thread.script ≠ .done ∧
      jobs.advance i thread choice = jobs' := by
  rw [step]
  cases jobs.threads[i]? <;> simp

theorem Sound.step (h : jobs.Sound) (hstep : jobs.step event = some jobs')
    (hgrant : jobs.Grants event → ¬ jobs.Lingers) : jobs'.Sound := by
  cases event with
  | start job =>
    cases hstep
    exact h.start job
  | advance i choice =>
    obtain ⟨thread, hi, hne, rfl⟩ := step_advance.mp hstep
    exact h.advance hi hne hgrant

theorem run_concat : run (front ++ [event]) = some jobs' ↔
    ∃ jobs, run front = some jobs ∧ jobs.step event = some jobs' := by
  simp [run, Option.bind_eq_some_iff]

/-- In every state a run passes, no job is let in while another has yet to release the slot a
second time. -/
def Spared (events : List Event) : Prop :=
  ∀ front event jobs, front ++ [event] <+: events → run front = some jobs → jobs.Grants event →
    ¬ jobs.Lingers

theorem Spared.of_isPrefix (h : Spared events) (hp : front <+: events) : Spared front :=
  fun front' event jobs hp' => h front' event jobs (hp'.trans hp)

theorem sound_of_run (h : Spared events) (hrun : run events = some jobs) : jobs.Sound := by
  induction events using reverseRecOn generalizing jobs with
  | nil =>
    cases hrun
    exact sound_idle
  | append_singleton front event ih =>
    obtain ⟨before, hbefore, hstep⟩ := run_concat.mp hrun
    apply (ih (h.of_isPrefix (prefix_append front [event])) hbefore).step hstep
    exact h front event before prefix_rfl hbefore

theorem exists_not_exclusive (h : jobs.Sound) (hg : jobs.Grants event) (hl : jobs.Lingers) :
    ∃ jobs', jobs.step event = some jobs' ∧ ¬ jobs'.Exclusive := by
  obtain ⟨i, choice, thread, rfl, hi, heffect⟩ := hg
  obtain ⟨other, hmem, hstage⟩ := hl
  obtain ⟨j, hj⟩ := List.mem_iff_getElem?.mp hmem
  have hne : thread.script ≠ .done := by
    intro hd
    rw [hd] at heffect
    cases heffect
  have hji : j ≠ i := by
    rintro rfl
    obtain rfl := Option.some.inj (hi.symm.trans hj)
    rw [(h.fits thread hmem).released hstage] at heffect
    cases heffect
  refine ⟨jobs.advance i thread choice, step_advance.mpr ⟨thread, hi, hne, rfl⟩, fun hex => ?_⟩
  have hlen := (List.getElem?_eq_some_iff.mp hi).1
  refine hji (hex j i ⟨other, ?_, .inr hstage⟩ ⟨thread.next jobs.table choice, ?_, .inl ?_⟩)
  · simpa [advance, hji.symm] using hj
  · simp [advance, hlen]
  · rw [Thread.next_of_granted heffect]

/-- In every interleaving one job at a time runs between its claim and its last step, and releases
only its own claim, exactly when no job is let in between the two releases of a failed backup. -/
theorem exclusive_iff_spared (events : List Event) :
    ((∀ front jobs, front <+: events → run front = some jobs → jobs.Exclusive) ∧
      (∀ front event jobs, front ++ [event] <+: events → run front = some jobs →
        jobs.ReleasesOwn event)) ↔
    Spared events := by
  constructor
  · rintro ⟨hexclusive, -⟩
    induction events using reverseRecOn with
    | nil =>
      intro front event jobs hp
      simp at hp
    | append_singleton before last ih =>
      have hspared := ih fun front jobs hp =>
        hexclusive front jobs (hp.trans (prefix_append before [last]))
      intro front event jobs hp hrun hgrants hlingers
      rcases prefix_concat_iff.mp hp with heq | hp
      · obtain ⟨rfl, hlast⟩ := append_inj' heq rfl
        cases hlast
        obtain ⟨jobs', hstep, hnot⟩ :=
          exists_not_exclusive (sound_of_run hspared hrun) hgrants hlingers
        exact hnot (hexclusive _ jobs' prefix_rfl (run_concat.mpr ⟨jobs, hrun, hstep⟩))
      · exact hspared front event jobs hp hrun hgrants hlingers
  · intro h
    constructor
    · exact fun front jobs hp hrun => (sound_of_run (h.of_isPrefix hp) hrun).exclusive
    · intro front event jobs hp hrun
      have hfront := (prefix_append front [event]).trans hp
      exact (sound_of_run (h.of_isPrefix hfront) hrun).releasesOwn

/-- A scheduled backup fails and gives the slot back; a replication cycle claims it before the
backup gives it back once more. -/
def failedBackupBesideCycle : List Event :=
  [.start .scheduledBackup, .start .cycle] ++ replicate 10 (.advance 0 true) ++
    [.advance 0 false, .advance 0 true, .advance 0 true, .advance 1 true]

def besideCycle : Jobs where
  table := ⟨some ⟨"a replication cycle", .cycle⟩, 0⟩
  owner := some 1
  threads := [⟨.release .done, .released⟩, ⟨superviseCycle, .holding⟩]

theorem failedBackup_releases_cycle :
    run failedBackupBesideCycle = some besideCycle ∧ ¬ besideCycle.Exclusive ∧
      ¬ besideCycle.ReleasesOwn (.advance 0 true) ∧
      ∃ jobs, besideCycle.step (.advance 0 true) = some jobs ∧ jobs.table.active = none ∧
        jobs.Running 1 := by
  refine ⟨by decide +kernel, ?_, ?_, ?_⟩
  · intro h
    exact absurd (h 0 1 ⟨_, rfl, .inr rfl⟩ ⟨_, rfl, .inl rfl⟩) (by decide)
  · intro h
    exact absurd (h 0 true _ .done rfl rfl rfl rfl) (by decide)
  · exact ⟨_, rfl, rfl, _, rfl, .inl rfl⟩

end Jobs

section Waiting

/-- The action is counted as waiting. -/
def Script.waits : Script → Bool
  | ask .. | leave _ => true
  | _ => false

/-- A script waits only once it has queued, and no operator claims without queueing. -/
def Script.isOrderly : Script → Bool
  | done => true
  | work rest | relabel _ rest | release rest | queue _ rest | ask _ rest | leave rest =>
    !rest.waits && rest.isOrderly
  | either ok error => !ok.waits && ok.isOrderly && !error.waits && error.isOrderly
  | claim _ kind rest => kind ≠ .operator && !rest.waits && rest.isOrderly

variable {table : JobTable} {choice : Bool} {script : Script}

theorem act_of_isOrderly (h : script.isOrderly = true)
    (hle : (if script.waits then 1 else 0) ≤ table.waiting) :
    (script.act table choice).2.1.isOrderly = true ∧
      (script.act table choice).1.waiting = (table.waiting - if script.waits then 1 else 0) +
        if (script.act table choice).2.1.waits then 1 else 0 := by
  have hrest {rest : Script} {n : ℕ} (hr : (!rest.waits && rest.isOrderly) = true) :
      rest.isOrderly = true ∧ n = n + if rest.waits then 1 else 0 := by
    simp only [Bool.and_eq_true, Bool.not_eq_true'] at hr
    simp [hr]
  cases script with
  | done => exact ⟨rfl, rfl⟩
  | work rest | relabel name rest | release rest | leave rest => exact hrest h
  | queue name rest => exact ⟨h, rfl⟩
  | either ok error =>
    rw [Script.isOrderly, Bool.and_assoc, Bool.and_eq_true] at h
    cases choice with
    | true => exact hrest h.1
    | false => exact hrest h.2
  | claim name kind rest =>
    rw [Script.isOrderly, Bool.and_assoc, Bool.and_eq_true] at h
    rw [Script.act]
    rcases table.claimJob_cases name kind with hc | ⟨-, hc⟩
    · rw [hc]
      exact ⟨rfl, rfl⟩
    · rw [hc]
      exact hrest h.2
  | ask name rest =>
    have hcount : table.waiting = table.waiting - 1 + 1 := (Nat.sub_add_cancel hle).symm
    cases choice with
    | false => exact ⟨rfl, hcount⟩
    | true =>
      rw [Script.act, if_neg nofun]
      cases table.active <;> exact ⟨h, hcount⟩

namespace Jobs

variable {jobs jobs' : Jobs} {event : Event} {events : List Event}

structure Counted (jobs : Jobs) : Prop where
  orderly : ∀ thread ∈ jobs.threads, thread.script.isOrderly = true
  waiting_eq : jobs.table.waiting = jobs.threads.countP fun thread => thread.script.waits

theorem Counted.step (h : jobs.Counted) (hstep : jobs.step event = some jobs') : jobs'.Counted := by
  cases event with
  | start job =>
    cases hstep
    have hjob : job.script.isOrderly = true ∧ job.script.waits = false := by cases job <;> decide
    constructor
    · exact forall_mem_append.mpr ⟨h.orderly, forall_mem_singleton.mpr hjob.1⟩
    · simp [h.waiting_eq, hjob.2]
  | advance i choice =>
    obtain ⟨thread, hi, -, rfl⟩ := step_advance.mp hstep
    obtain ⟨hlt, hget⟩ := List.getElem?_eq_some_iff.mp hi
    have hmem := mem_of_getElem? hi
    have hle : (if thread.script.waits then 1 else 0) ≤ jobs.table.waiting := by
      rw [h.waiting_eq]
      split_ifs with hw
      · exact countP_pos_iff.mpr ⟨thread, hmem, hw⟩
      · exact Nat.zero_le _
    obtain ⟨horderly, hwaiting⟩ := @act_of_isOrderly _ choice _ (h.orderly thread hmem) hle
    constructor
    · intro other hother
      rcases mem_or_eq_of_mem_set hother with hother | rfl
      · exact h.orderly other hother
      · exact horderly
    · apply hwaiting.trans
      rw [h.waiting_eq, advance, countP_set hlt, hget]
      rfl

theorem counted_of_run (hrun : run events = some jobs) : jobs.Counted := by
  induction events using reverseRecOn generalizing jobs with
  | nil =>
    cases hrun
    exact ⟨nofun, rfl⟩
  | append_singleton front event ih =>
    obtain ⟨before, hbefore, hstep⟩ := run_concat.mp hrun
    exact (ih hbefore).step hstep

/-- While an action waits, only an action that waits is let in. -/
def OperatorsFirst (jobs : Jobs) : Prop :=
  ∀ thread ∈ jobs.threads, ∀ choice, (thread.script.act jobs.table choice).2.2 = .granted →
    (∃ other ∈ jobs.threads, other.script.waits = true) → thread.script.waits = true

/-- In every interleaving the table counts the actions of operators that wait, and while one does no
replication cycle and no automatic job is let in. -/
theorem operators_go_first (hrun : run events = some jobs) :
    jobs.table.waiting = jobs.threads.countP (fun thread => thread.script.waits) ∧
      jobs.OperatorsFirst := by
  have h := counted_of_run hrun
  refine ⟨h.waiting_eq, ?_⟩
  rintro ⟨script, stage⟩ hmem choice hgranted ⟨other, hother, hwaits⟩
  have hwaiting : jobs.table.waiting ≠ 0 := by
    rw [h.waiting_eq]
    exact (countP_pos_iff.mpr ⟨other, hother, hwaits⟩).ne'
  have horderly := h.orderly _ hmem
  cases script with
  | ask => rfl
  | leave => rfl
  | claim name kind rest =>
    simp only [Script.isOrderly, Bool.and_eq_true, decide_eq_true_eq] at horderly
    simp [Script.act, JobTable.claimJob, horderly.1.1, hwaiting] at hgranted
  | _ => cases hgranted

theorem operators_go_first_backup :
    ∃ jobs, run [.start .cycle, .start .backup, .advance 1 true] = some jobs ∧
      jobs.table.waiting = jobs.threads.countP (fun thread => thread.script.waits) ∧
      jobs.OperatorsFirst := by
  obtain ⟨jobs, hrun⟩ : ∃ jobs, run [.start .cycle, .start .backup, .advance 1 true] = some jobs :=
    ⟨_, rfl⟩
  exact ⟨jobs, hrun, operators_go_first hrun⟩

end Jobs

end Waiting

end Pintail.Api
