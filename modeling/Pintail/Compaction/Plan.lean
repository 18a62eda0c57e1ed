import Mathlib.Data.Prod.Lex
import Pintail.Store.Manifest
import Pintail.Store.Options

/-! # Planning a merge

A pass merges a few segments of similar size whose keys overlap, a whole cluster of overlapping
segments, one key range of a cluster too large for a pass, or neighbours when there are too many
files. A plan with a key range takes every segment that reaches it.
-/

namespace Pintail

open List

def sizeTierRatio : ℕ := 4

def maxWidenedFanIn : ℕ := 64

structure CompactionCandidate where
  index : ℕ
  size : ℕ
  rowCount : ℕ
  minimum : PrimaryKey
  maximum : PrimaryKey
  minVersion : UInt64
  maxVersion : UInt64
  uniqueKeys : Bool

open CompactionCandidate

/-- The key range a merge folds, from the first key up to but not including the second. -/
structure MergeWindow where
  low : Option PrimaryKey
  high : Option PrimaryKey
  deriving DecidableEq, Repr

structure CompactionPlan where
  indices : List ℕ
  debtBytes : ℕ
  window : Option MergeWindow
  catchingUp : Bool
  deriving DecidableEq, Repr

namespace CompactionCandidate

def overlaps (self other : CompactionCandidate) : Bool :=
  self.minimum ≤ other.maximum && self.maximum ≥ other.minimum

/-- Keys overlap, and everything here is at least as new as everything there, some of it newer. -/
def liesOver (self other : CompactionCandidate) : Bool :=
  self.overlaps other && self.minVersion ≥ other.maxVersion && self.maxVersion > other.maxVersion

def ofSegment (fileSize : Segment → ℕ) (index : ℕ) (segment : Segment) : CompactionCandidate where
  index := index
  size := fileSize segment
  rowCount := segment.rowCount
  minimum := segment.minKey
  maximum := segment.maxKey
  minVersion := segment.minVersion
  maxVersion := segment.maxVersion
  uniqueKeys := segment.uniqueKeys

end CompactionCandidate

namespace Compaction

def windows {α : Type} (length : ℕ) (items : List α) : List (List α) :=
  (items.tails.filter fun tail => length ≤ tail.length).map (List.take length)

def sortByKey (candidates : List CompactionCandidate) : List CompactionCandidate :=
  candidates.insertionSort fun left right => left.minimum ≤ right.minimum

def sortBySize (candidates : List CompactionCandidate) : List CompactionCandidate :=
  candidates.insertionSort fun left right =>
    toLex (left.size, left.index) ≤ toLex (right.size, right.index)

def sortByAge (candidates : List CompactionCandidate) : List CompactionCandidate :=
  candidates.insertionSort fun left right =>
    toLex (left.minVersion, left.maxVersion) ≤ toLex (right.minVersion, right.maxVersion)

def rowCount (candidates : List CompactionCandidate) : ℕ :=
  (candidates.map CompactionCandidate.rowCount).sum

def chosen (candidates : List CompactionCandidate) (candidate : CompactionCandidate) : Bool :=
  candidates.any fun member => member.index == candidate.index

def planFor (selected : List CompactionCandidate) : CompactionPlan where
  indices := selected.map index
  debtBytes := (selected.map size).sum
  window := none
  catchingUp := false

def rangesOverlap (candidates : List CompactionCandidate) : Bool :=
  let rec connected (maximum : PrimaryKey) : List CompactionCandidate → Bool
    | [] => true
    | candidate :: rest =>
      !(candidate.minimum > maximum) && connected (max maximum candidate.maximum) rest
  match sortByKey candidates with
  | [] => false
  | first :: rest => connected first.maximum rest

/-- Whether a merge would fold a segment into only some of the segments it lies over. -/
def splitsALayer (selected candidates : List CompactionCandidate) : Bool :=
  selected.any fun upper => selected.any fun lower =>
    upper.liesOver lower && candidates.any fun left =>
      !chosen selected left && upper.liesOver left && !lower.liesOver left

def reached (candidates cluster : List CompactionCandidate) : List CompactionCandidate :=
  candidates.filter fun candidate =>
    !chosen cluster candidate && cluster.any fun member => member.overlaps candidate

theorem chosen_append (left right : List CompactionCandidate) (c : CompactionCandidate) :
    chosen (left ++ right) c = (chosen left c || chosen right c) := any_append

theorem unchosen_append_lt {candidates cluster more : List CompactionCandidate}
    (hmem : ∀ c ∈ more, c ∈ candidates ∧ chosen cluster c = false) (hne : more ≠ []) :
    (candidates.filter fun c => !chosen (cluster ++ more) c).length <
      (candidates.filter fun c => !chosen cluster c).length := by
  have hsub : (candidates.filter fun c => !chosen (cluster ++ more) c) =
      (candidates.filter fun c => !chosen cluster c).filter
        fun c => !chosen (cluster ++ more) c := by
    rw [filter_filter]
    apply filter_congr
    intro c _
    rw [chosen_append]
    cases chosen cluster c <;> cases chosen more c <;> rfl
  rw [hsub, length_filter_lt_length_iff_exists]
  obtain ⟨c, hc⟩ := exists_mem_of_ne_nil more hne
  obtain ⟨hin, hout⟩ := hmem c hc
  refine ⟨c, mem_filter.mpr ⟨hin, by rw [hout]; rfl⟩, ?_⟩
  have hself : chosen more c = true := any_eq_true.mpr ⟨c, hc, beq_self_eq_true _⟩
  rw [chosen_append, hself, Bool.or_true]
  decide

/-- Everything the seed reaches through overlapping key ranges. -/
def reachedBy (candidates cluster : List CompactionCandidate) : List CompactionCandidate :=
  if _ : reached candidates cluster = [] then cluster
  else reachedBy candidates (cluster ++ reached candidates cluster)
termination_by (candidates.filter fun c => !chosen cluster c).length
decreasing_by
  refine unchosen_append_lt (fun c hc => ?_) ‹_›
  simp only [reached, List.mem_filter, Bool.and_eq_true, Bool.not_eq_true'] at hc
  exact ⟨hc.1, hc.2.1⟩

section Plan

variable (options : StoreOptions)

/-- Whether a window fits the size tier and the row budget of a pass. -/
def admitsWindow (window : List CompactionCandidate) : Bool :=
  let sizes := window.map size
  match sizes.min?, sizes.max? with
  | some smallest, some largest =>
    rowCount window ≤ options.maxCompactionInputRows && largest ≤ smallest * sizeTierRatio
  | _, _ => false

def widen (selected : List CompactionCandidate) :
    List CompactionCandidate → List CompactionCandidate
  | [] => selected
  | candidate :: rest =>
    let widened := selected ++ [candidate]
    if admitsWindow options widened && rangesOverlap widened then widen widened rest
    else selected

/-- The first size tier of overlapping segments, widened while the table is behind. -/
def tierPlan (candidates : List CompactionCandidate) : Option CompactionPlan :=
  (windows options.compactionFanIn candidates).zipIdx.findSome? fun (selected, start) =>
    if !admitsWindow options selected || !rangesOverlap selected ||
        splitsALayer selected candidates then none
    else
      let behind := candidates.length ≥ options.compactionFilePressure
      let following := (candidates.drop (start + options.compactionFanIn)).take
        (maxWidenedFanIn - options.compactionFanIn)
      let widened := widen options selected (if behind then following else [])
      if widened.length > selected.length && !splitsALayer widened candidates then
        some (planFor widened)
      else some (planFor selected)

/-- What the span of the selected keys reaches beyond them. -/
def spanReached (candidates selected : List CompactionCandidate) : List CompactionCandidate :=
  match (selected.map minimum).min?,
    (selected.map maximum).max? with
  | some low, some high => candidates.filter fun candidate =>
      candidate.minimum ≤ high && candidate.maximum ≥ low && !chosen selected candidate
  | _, _ => []

/-- An overlapping pair with every segment its span reaches, while the row budget allows. -/
def overlapCluster (candidates selected : List CompactionCandidate) : List CompactionCandidate :=
  if _ : spanReached candidates selected = [] then selected
  else if rowCount (selected ++ spanReached candidates selected) >
      options.maxCompactionInputRows then selected
  else overlapCluster candidates (selected ++ spanReached candidates selected)
termination_by (candidates.filter fun c => !chosen selected c).length
decreasing_by
  refine unchosen_append_lt (fun c hc => ?_) ‹_›
  unfold spanReached at hc
  split at hc
  · simp only [List.mem_filter, Bool.and_eq_true, Bool.not_eq_true'] at hc
    exact ⟨hc.1, hc.2.2⟩
  · cases hc

/-- The bases of a cluster, unique-key segments with nothing older over their keys, and the rest;
the candidates come oldest first. -/
def splitBases (cluster : List CompactionCandidate) (byAge : List CompactionCandidate) :
    List CompactionCandidate × List CompactionCandidate :=
  byAge.foldl (fun (bases, changes) candidate =>
    let underEverything := cluster.all fun other =>
      other.index == candidate.index || !other.overlaps candidate ||
        other.minVersion ≥ candidate.maxVersion
    if candidate.uniqueKeys && underEverything && bases.all (fun base => !base.overlaps candidate)
    then (bases ++ [candidate], changes)
    else (bases, changes ++ [candidate])) ([], [])

/-- How many of the bases the row budget takes beside the rows already counted. -/
def fitting (rows : ℕ) : List CompactionCandidate → ℕ
  | [] => 0
  | base :: rest =>
    if rows + base.rowCount ≤ options.maxCompactionInputRows then
      fitting (rows + base.rowCount) rest + 1
    else 0

/-- Whether a candidate has keys in the window, judged by its bounds. -/
def reaches (window : MergeWindow) (candidate : CompactionCandidate) : Bool :=
  window.low.all (fun low => candidate.maximum ≥ low) &&
    window.high.all (fun high => candidate.minimum < high)

/-- The keys from one base up to, but not including, the base a number of places on; open where
there is no base beyond. -/
def baseRange (bases : List CompactionCandidate) (first count : ℕ) : MergeWindow where
  low := if first > 0 then bases[first]?.map minimum else none
  high := bases[first + count]?.map minimum

/-- The merge of the selected segments over a range. Deletes are dropped inside the range, so
nothing left out may reach it. -/
def closedPlan (candidates selected : List CompactionCandidate) (window : MergeWindow) :
    Option CompactionPlan :=
  let closed := candidates.all fun candidate =>
    chosen selected candidate || !reaches window candidate
  if !closed || (window.low.isNone && window.high.isNone) then none
  else some { planFor selected with window := some window }

/-- A merge of a key range that starts at the given base: consecutive bases, as many as the row
budget takes, with every change that reaches their range. -/
def rangePlan (candidates bases changes : List CompactionCandidate)
    (oldest : CompactionCandidate) (first : ℕ) : Option CompactionPlan :=
  let fit := (bases.drop first).take (fitting options (rowCount changes) (bases.drop first))
  let window := baseRange bases first fit.length
  match fit.getLast? with
  | none => none
  | some last =>
    if oldest.minimum > last.maximum then none
    else closedPlan candidates (fit ++ changes.filter (reaches window)) window

/-- A merge of one key range of the cluster the seed belongs to. The range starts at the first base
the oldest change reaches. -/
def windowedPlan (candidates seed : List CompactionCandidate) : Option CompactionPlan :=
  let cluster := reachedBy candidates seed
  let (bases, changes) := splitBases cluster (sortByAge cluster)
  match changes with
  | [] => none
  | oldest :: _ =>
    if bases.length < 2 then none
    else
      let bases := sortByKey bases
      (bases.findIdx? fun base => base.maximum ≥ oldest.minimum).bind
        (rangePlan options candidates bases changes oldest)

/-- The plan for the first overlapping pair in key order whose rows fit a pass. -/
def pairPlan (candidates : List CompactionCandidate) : Option CompactionPlan :=
  (windows 2 candidates).findSome? fun selected =>
    if !rangesOverlap selected || rowCount selected > options.maxCompactionInputRows then none
    else
      let cluster := overlapCluster options candidates selected
      if splitsALayer cluster candidates then
        match windowedPlan options candidates cluster with
        | some plan => some plan
        -- past the budget: the whole cluster is merged
        | none => some { planFor (reachedBy candidates cluster) with catchingUp := true }
      else some (planFor cluster)

/-- A segment no other reaches that still carries deletes or a key twice. -/
def lonePlan (candidates : List CompactionCandidate) : Option CompactionPlan :=
  let lone := candidates.find? fun candidate =>
    !candidate.uniqueKeys && candidate.rowCount ≤ options.maxCompactionInputRows &&
      candidates.all fun other => other.index == candidate.index || !other.overlaps candidate
  lone.map fun candidate => planFor [candidate]

def mergeChunkRows (sampled : List StoredRow) : Option ℕ :=
  let rows := (sampled.take 256).length
  let bytes := ((sampled.take 256).map StoredRow.estimatedBytes).sum
  if rows = 0 ∨ bytes = 0 then none
  else
    let bySize := options.maxCompactionOutputBytes / max (bytes / rows) 1
    some (max (min bySize options.maxCompactionRows) 1)

/-- A merge of neighbours in key order that leaves fewer files than it took. -/
def fewerFilesPlan (chunkRows : Option ℕ) (candidates : List CompactionCandidate) :
    Option CompactionPlan :=
  (windows options.compactionFanIn candidates).findSome? fun selected =>
    if !admitsWindow options selected then none
    else
      let same := chunkRows.any fun chunkRows =>
        let full := max (chunkRows - chunkRows / 10) 1
        selected.any (fun candidate => candidate.rowCount ≥ full) ||
          rowCount selected > (selected.length - 1) * full
      if same then none else some (planFor selected)

def compactionPlan (fileSize : Segment → ℕ) (schema : TableSchema) (segments : List Segment) :
    Option CompactionPlan :=
  if segments.length < 2 then none
  else
    let bySize := sortBySize (segments.mapIdx (ofSegment fileSize))
    let byKey := sortByKey bySize
    let tier := if bySize.length ≥ options.compactionFanIn then tierPlan options bySize else none
    let sampled := do
      let first ← byKey.head?
      let segment ← segments[first.index]?
      (segment.read schema).toOption
    tier <|> pairPlan options byKey <|> lonePlan options byKey <|>
      if segments.length < options.compactionFilePressure then none
      else fewerFilesPlan options (sampled.bind (mergeChunkRows options)) byKey

variable {options} {candidates seed : List CompactionCandidate} {plan : CompactionPlan}
  {window : MergeWindow} {candidate : CompactionCandidate}

theorem mem_of_closedPlan {selected : List CompactionCandidate} {window' : MergeWindow}
    (h : closedPlan candidates selected window' = some plan) (hw : plan.window = some window)
    (hmem : candidate ∈ candidates)
    (hr : reaches window candidate = true) : candidate.index ∈ plan.indices := by
  simp only [closedPlan] at h
  split_ifs at h with hc
  cases h
  cases hw
  simp only [Bool.or_eq_true, Bool.not_eq_true', not_or, Bool.not_eq_false, all_eq_true] at hc
  have hsel : chosen selected candidate = true := by simpa [hr] using hc.1 candidate hmem
  obtain ⟨member, hmember, he⟩ := any_eq_true.mp hsel
  exact (beq_iff_eq.mp he) ▸ mem_map_of_mem hmember

theorem closedPlan_of_windowedPlan (h : windowedPlan options candidates seed = some plan) :
    ∃ selected window', closedPlan candidates selected window' = some plan := by
  simp only [windowedPlan] at h
  split at h
  · cases h
  · split_ifs at h
    obtain ⟨first, -, hrange⟩ := Option.bind_eq_some_iff.mp h
    simp only [rangePlan] at hrange
    split at hrange
    · cases hrange
    · split_ifs at hrange
      exact ⟨_, _, hrange⟩

theorem mem_of_pairPlan (h : pairPlan options candidates = some plan)
    (hw : plan.window = some window) (hmem : candidate ∈ candidates)
    (hr : reaches window candidate = true) : candidate.index ∈ plan.indices := by
  obtain ⟨selected, -, h⟩ := exists_of_findSome?_eq_some h
  dsimp only at h
  split_ifs at h
  · split at h
    · rename_i hplan
      cases h
      obtain ⟨_, _, hclosed⟩ := closedPlan_of_windowedPlan hplan
      exact mem_of_closedPlan hclosed hw hmem hr
    · cases h
      cases hw
  · cases h
    cases hw

theorem tierPlan_window (h : tierPlan options candidates = some plan) : plan.window = none := by
  obtain ⟨⟨selected, start⟩, -, h⟩ := exists_of_findSome?_eq_some h
  dsimp only at h
  split_ifs at h <;> (cases h; rfl)

theorem fewerFilesPlan_window {chunkRows : Option ℕ}
    (h : fewerFilesPlan options chunkRows candidates = some plan) : plan.window = none := by
  obtain ⟨selected, -, h⟩ := exists_of_findSome?_eq_some h
  dsimp only at h
  split_ifs at h
  cases h
  rfl

theorem mem_of_compactionPlan {fileSize : Segment → ℕ} {schema : TableSchema}
    {segments : List Segment} (h : compactionPlan options fileSize schema segments = some plan)
    (hw : plan.window = some window) {index : ℕ} {segment : Segment}
    (hs : segments[index]? = some segment)
    (hr : reaches window (.ofSegment fileSize index segment) = true) : index ∈ plan.indices := by
  have hmem : ofSegment fileSize index segment ∈
      sortByKey (sortBySize (segments.mapIdx (.ofSegment fileSize))) := by
    rw [sortByKey, mem_insertionSort, sortBySize, mem_insertionSort, mem_mapIdx]
    obtain ⟨hlt, rfl⟩ := List.getElem?_eq_some_iff.mp hs
    exact ⟨index, hlt, rfl⟩
  have hnone : plan.window ≠ none := by simp [hw]
  by_cases hsmall : segments.length < 2
  · simp [compactionPlan, hsmall] at h
  · simp only [compactionPlan, hsmall, if_false, Option.orElse_eq_orElse, Option.orElse_eq_or,
      Option.or_eq_some_iff] at h
    rcases h with h | ⟨-, h | ⟨-, h | ⟨-, h⟩⟩⟩
    · split_ifs at h
      exact absurd (tierPlan_window h) hnone
    · exact mem_of_pairPlan h hw hmem hr
    · obtain ⟨lone, -, rfl⟩ := Option.map_eq_some_iff.mp h
      exact absurd rfl hnone
    · split_ifs at h
      exact absurd (fewerFilesPlan_window h) hnone

end Plan

end Compaction

end Pintail
