import Pintail.Compaction.Plan

/-! # Running a merge

A merge streams the newest row of each key through a buffer that is written out as a segment when it
is full, and where a key range begins or ends. Deletes are dropped where nothing left out of the
merge can hold an older version of their key.
-/

namespace Pintail

open Versioned List Segment Except

namespace Compaction

def inMergeWindow (window : Option MergeWindow) (key : PrimaryKey) : Bool :=
  window.all fun window =>
    window.low.all (fun low => key ≥ low) && window.high.all (fun high => key < high)

def selected (segments : List Segment) (indices : List ℕ) : List Segment :=
  indices.filterMap fun index => segments[index]?

def unselected (segments : List Segment) (indices : List ℕ) : List Segment :=
  (segments.zipIdx.filter fun (_, index) => !indices.contains index).map Prod.fst

/-- Whether a merge of the selected segments may drop its deletes. -/
def mergeDropsTombstones (segments : List Segment) (indices : List ℕ) : Bool :=
  let merged := selected segments indices
  match (merged.map minKey).min?, (merged.map maxKey).max?,
    (merged.map maxVersion).max? with
  | some low, some high, some newest => segments.zipIdx.all fun (segment, index) =>
      indices.contains index || segment.maxKey < low || segment.minKey > high ||
        segment.minVersion > newest
  | _, _, _ => true

structure MergeBuffer where
  rows : List StoredRow
  bytes : ℕ
  wasInside : Bool
  chunks : List (List StoredRow)

namespace MergeBuffer

def close (buffer : MergeBuffer) : MergeBuffer :=
  { buffer with rows := [], bytes := 0, chunks := buffer.chunks ++ [buffer.rows] }

def closeIf (condition : Bool) (buffer : MergeBuffer) : MergeBuffer :=
  if condition then buffer.close else buffer

def push (buffer : MergeBuffer) (row : StoredRow) : MergeBuffer :=
  { buffer with rows := buffer.rows ++ [row], bytes := buffer.bytes + row.estimatedBytes }

end MergeBuffer

section Run

variable (xxh3 : List UInt8 → UInt64) (options : StoreOptions) (window : Option MergeWindow)
  (dropTombstones : Bool)

def drops (key : PrimaryKey) : Bool :=
  if window.isSome then inMergeWindow window key else dropTombstones

def keeps (winner : StoredRow) : Bool :=
  !drops window dropTombstones winner.key || !winner.deleted

def takeWinner (buffer : MergeBuffer) (winner : StoredRow) : MergeBuffer :=
  let inside := inMergeWindow window winner.key
  let crossed := window.isSome && inside != buffer.wasInside
  let buffer := buffer.closeIf (crossed && !buffer.rows.isEmpty)
  let buffer := { buffer with wasInside := inside }
  let buffer := if keeps window dropTombstones winner then buffer.push winner else buffer
  buffer.closeIf (buffer.rows.length ≥ options.maxCompactionRows ||
    buffer.bytes ≥ options.maxCompactionOutputBytes)

def mergedChunks (winners : List StoredRow) : List (List StoredRow) :=
  let buffer := winners.foldl (takeWinner options window dropTombstones) ⟨[], 0, false, []⟩
  if buffer.rows.isEmpty then buffer.chunks else buffer.chunks ++ [buffer.rows]

/-- Write the outputs under consecutive identifiers; one without deletes promises unique keys. -/
def writeChunks (schema : TableSchema) (compression : Compression) (id : ℕ) :
    List (List StoredRow) → Except StoreError (List Segment)
  | [] => .ok []
  | rows :: chunks => do
    let segment ← Segment.write xxh3 id schema rows options.blockRows compression
      (rows.all fun row => !row.deleted)
    let segments ← writeChunks schema compression (id + 1) chunks
    pure (segment :: segments)

def runMerge (schema : TableSchema) (inputs : List Segment) (compression : Compression)
    (id : ℕ) : Except StoreError (List Segment) := do
  let streams ← inputs.mapM (Segment.read schema)
  writeChunks xxh3 options schema compression id
    (mergedChunks options window dropTombstones (mergeStreams streams))

end Run

section Selection

variable {segments : List Segment} {indices : List ℕ} {segment : Segment}

theorem mem_selected :
    segment ∈ selected segments indices ↔ ∃ index ∈ indices, segments[index]? = some segment :=
  mem_filterMap

theorem mem_unselected :
    segment ∈ unselected segments indices ↔ ∃ index ∉ indices, segments[index]? = some segment := by
  simp only [unselected, mem_map, mem_filter, Prod.exists, mem_zipIdx_iff_getElem?,
    Bool.not_eq_true', contains_eq_mem, decide_eq_false_iff_not, exists_and_right]
  constructor
  · rintro ⟨_, ⟨index, hs, hi⟩, rfl⟩
    exact ⟨index, hi, hs⟩
  · rintro ⟨index, hi, hs⟩
    exact ⟨segment, ⟨index, hs, hi⟩, rfl⟩

theorem mem_iff_selected_or_unselected :
    segment ∈ segments ↔ segment ∈ selected segments indices ∨ segment ∈ unselected segments indices
    := by
  rw [mem_selected, mem_unselected, mem_iff_getElem?]
  constructor
  · rintro ⟨index, hs⟩
    by_cases hi : index ∈ indices
    · exact .inl ⟨index, hi, hs⟩
    · exact .inr ⟨index, hi, hs⟩
  · rintro (⟨index, -, hs⟩ | ⟨index, -, hs⟩) <;> exact ⟨index, hs⟩

end Selection

namespace MergeBuffer

def taken (buffer : MergeBuffer) : List StoredRow := buffer.chunks.flatten ++ buffer.rows

/-- No output is empty, and an empty buffer weighs nothing. -/
structure Tidy (buffer : MergeBuffer) : Prop where
  chunks_ne : ∀ chunk ∈ buffer.chunks, chunk ≠ []
  bytes_eq : buffer.rows = [] → buffer.bytes = 0

@[simp] theorem taken_close (buffer : MergeBuffer) : buffer.close.taken = buffer.taken := by
  simp [taken, close]

@[simp] theorem taken_closeIf (condition : Bool) (buffer : MergeBuffer) :
    (buffer.closeIf condition).taken = buffer.taken := by
  cases condition
  · rfl
  · exact taken_close buffer

@[simp] theorem taken_push (buffer : MergeBuffer) (row : StoredRow) :
    (buffer.push row).taken = buffer.taken ++ [row] := by
  simp [taken, push]

variable {buffer : MergeBuffer}

theorem tidy_closeIf {condition : Bool} (h : buffer.Tidy)
    (hne : condition = true → buffer.rows ≠ []) : (buffer.closeIf condition).Tidy := by
  cases condition with
  | false => exact h
  | true =>
    refine ⟨fun chunk hc => ?_, fun _ => rfl⟩
    rcases mem_append.mp hc with hc | hc
    · exact h.chunks_ne chunk hc
    · rw [mem_singleton.mp hc]
      exact hne rfl

theorem tidy_push (h : buffer.Tidy) (row : StoredRow) :
    (buffer.push row).Tidy := ⟨h.chunks_ne, fun he => by simp [push] at he⟩

end MergeBuffer

section Chunks

open MergeBuffer

variable {options : StoreOptions} {window : Option MergeWindow} {dropTombstones : Bool}

theorem taken_takeWinner (buffer : MergeBuffer) (winner : StoredRow) :
    (takeWinner options window dropTombstones buffer winner).taken =
      buffer.taken ++ [winner].filter (keeps window dropTombstones) := by
  have hinside : ∀ (b : MergeBuffer) (inside : Bool),
      ({ b with wasInside := inside } : MergeBuffer).taken = b.taken := fun _ _ => rfl
  simp only [takeWinner]
  split_ifs with hk
  · simp [hinside, hk]
  · simp [hinside, hk]

theorem tidy_takeWinner (hv : options.Valid) {buffer : MergeBuffer} (h : buffer.Tidy)
    (winner : StoredRow) : (takeWinner options window dropTombstones buffer winner).Tidy := by
  have hr := hv.rows_pos
  have hb := hv.outputBytes_pos
  -- a full buffer has rows, since its bounds are positive
  have hfull : ∀ b : MergeBuffer, b.Tidy → (b.closeIf
      (b.rows.length ≥ options.maxCompactionRows ||
        b.bytes ≥ options.maxCompactionOutputBytes)).Tidy := by
    intro b hb'
    apply tidy_closeIf hb'
    intro hf he
    simp [he, hb'.bytes_eq he] at hf
    omega
  apply hfull _
  have hcrossed : ∀ c, (buffer.closeIf (c && !buffer.rows.isEmpty)).Tidy := by
    refine fun c => tidy_closeIf h fun hc he => ?_
    simp [he] at hc
  split_ifs
  · refine tidy_push ?_ winner
    exact ⟨(hcrossed _).chunks_ne, (hcrossed _).bytes_eq⟩
  · exact ⟨(hcrossed _).chunks_ne, (hcrossed _).bytes_eq⟩

theorem flatten_mergedChunks (winners : List StoredRow) :
    (mergedChunks options window dropTombstones winners).flatten =
      winners.filter (keeps window dropTombstones) := by
  have hfold : ∀ buffer : MergeBuffer,
      (winners.foldl (takeWinner options window dropTombstones) buffer).taken =
        buffer.taken ++ winners.filter (keeps window dropTombstones) := by
    induction winners with
    | nil => simp
    | cons winner winners ih =>
      intro buffer
      rw [foldl_cons, ih, taken_takeWinner, append_assoc, ← filter_append]
      rfl
  have hall := hfold ⟨[], 0, false, []⟩
  unfold taken at hall
  simp only [mergedChunks]
  split_ifs with he
  · simpa [isEmpty_iff.mp he] using hall
  · simpa using hall

theorem ne_nil_of_mem_mergedChunks (hv : options.Valid) {winners chunk : List StoredRow}
    (hc : chunk ∈ mergedChunks options window dropTombstones winners) : chunk ≠ [] := by
  have hfold : ∀ buffer : MergeBuffer, buffer.Tidy →
      (winners.foldl (takeWinner options window dropTombstones) buffer).Tidy := by
    clear hc
    induction winners with
    | nil => exact fun _ h => h
    | cons winner winners ih => exact fun buffer h => ih _ (tidy_takeWinner hv h winner)
  have htidy := hfold ⟨[], 0, false, []⟩ ⟨by simp, fun _ => rfl⟩
  simp only [mergedChunks] at hc
  split_ifs at hc with he
  · exact htidy.chunks_ne chunk hc
  · rcases mem_append.mp hc with hc | hc
    · exact htidy.chunks_ne chunk hc
    · rw [mem_singleton.mp hc]
      simpa using he

end Chunks

section Outputs

variable {xxh3 : List UInt8 → UInt64} {options : StoreOptions} {window : Option MergeWindow}
  {dropTombstones : Bool} {schema : TableSchema} {compression : Compression} {id : ℕ}
  {chunks : List (List StoredRow)} {inputs outputs : List Segment}

theorem exists_writeChunks (hv : options.Valid) (hne : ∀ chunk ∈ chunks, chunk ≠ []) (id : ℕ) :
    ∃ outputs, writeChunks xxh3 options schema compression id chunks = .ok outputs := by
  induction chunks generalizing id with
  | nil => exact ⟨[], rfl⟩
  | cons rows chunks ih =>
    rw [forall_mem_cons] at hne
    obtain ⟨segments, hs⟩ := ih hne.2 (id + 1)
    obtain ⟨segment, hw⟩ := exists_write xxh3 id schema hne.1 hv.blockRows_pos
      compression (rows.all fun row => !row.deleted)
    exact ⟨segment :: segments, by rw [writeChunks, hw, hs]; rfl⟩

theorem of_writeChunks (h : writeChunks xxh3 options schema compression id chunks = .ok outputs) :
    List.Forall₂ (Segment.Written schema) chunks outputs ∧
      outputs.map Segment.id = List.range' id chunks.length := by
  induction chunks generalizing id outputs with
  | nil =>
    cases h
    exact ⟨.nil, rfl⟩
  | cons rows chunks ih =>
    rw [writeChunks, bind_eq_ok] at h
    obtain ⟨segment, hw, h⟩ := h
    obtain ⟨segments, hs, h⟩ := bind_eq_ok.mp h
    cases h
    obtain ⟨hf, hids⟩ := ih hs
    refine ⟨.cons (written_of_write hw) hf, ?_⟩
    rw [map_cons, hids, id_of_write hw, length_cons, range'_succ]

/-- What the rows of a merge's outputs are, and that the outputs are well formed. -/
structure Merged (window : Option MergeWindow) (dropTombstones : Bool) (schema : TableSchema)
    (inputs outputs : List Segment) (id : ℕ) : Prop where
  rows_eq : outputs.flatMap (rowsUnder schema) =
    (mergeStreams (inputs.map (rowsUnder schema))).filter (keeps window dropTombstones)
  wellFormed : ∀ output ∈ outputs, output.WellFormed
  written : ∀ output ∈ outputs, ∃ rows, Segment.Written schema rows output
  ids_eq : outputs.map Segment.id = List.range' id outputs.length

theorem sorted_of_mem_mergedChunks {streams : List (List StoredRow)}
    (hs : ∀ stream ∈ streams, Sorted stream) {chunk : List StoredRow}
    (hc : chunk ∈ mergedChunks options window dropTombstones (mergeStreams streams)) :
    Sorted chunk := by
  have hsub := sublist_flatten_of_mem hc
  rw [flatten_mergedChunks] at hsub
  have hlt := (pairwise_mergeStreams hs).sublist (hsub.trans filter_sublist)
  exact hlt.imp fun h => h.le

theorem rowsUnder_written (hf : List.Forall₂ (Segment.Written schema) chunks outputs)
    (hw : ∀ chunk ∈ chunks, ∀ row ∈ chunk, row.values.length = schema.columns.length)
    (hd : ∀ chunk ∈ chunks, chunk.map StoredRow.durable = chunk) :
    outputs.flatMap (rowsUnder schema) = chunks.flatten := by
  induction hf with
  | nil => rfl
  | cons h _ ih =>
    rw [forall_mem_cons] at hw hd
    rw [flatMap_cons, flatten_cons, h.rowsUnder_eq hw.1, hd.1, ih hw.2 hd.2]

theorem merged_of_runMerge (hwf : ∀ input ∈ inputs, input.WellFormed)
    (h : runMerge xxh3 options window dropTombstones schema inputs compression id = .ok outputs) :
    Merged window dropTombstones schema inputs outputs id := by
  obtain ⟨streams, hread, hwrite⟩ := bind_eq_ok.mp h
  have hstreams : streams = inputs.map (rowsUnder schema) := by
    rw [← forall₂_eq_eq_eq, forall₂_map_right_iff]
    exact forall₂_of_mapM_eq_ok hread fun _ _ _ hr => read_eq_ok hr
  subst hstreams
  have hsorted : ∀ stream ∈ inputs.map (rowsUnder schema), Sorted stream :=
    forall_mem_map.mpr fun input hi => (hwf input hi).sorted_rowsUnder schema
  obtain ⟨hf, hids⟩ := of_writeChunks hwrite
  set chunks := mergedChunks options window dropTombstones
    (mergeStreams (inputs.map (rowsUnder schema))) with hchunks
  -- every row of a chunk was read from an input
  have hrow : ∀ chunk ∈ chunks, ∀ row ∈ chunk, ∃ input ∈ inputs, row ∈ input.rowsUnder schema := by
    intro chunk hc row hr
    have hmem : row ∈ chunks.flatten := mem_flatten.mpr ⟨chunk, hc, hr⟩
    rw [flatten_mergedChunks] at hmem
    have hmerged := mem_of_mem_mergeStreams hsorted (mem_of_mem_filter hmem)
    exact mem_flatMap.mp hmerged
  have hwidth : ∀ chunk ∈ chunks, ∀ row ∈ chunk, row.values.length = schema.columns.length := by
    intro chunk hc row hr
    obtain ⟨input, -, hin⟩ := hrow chunk hc row hr
    exact length_values_rowsUnder hin
  have hdurable : ∀ chunk ∈ chunks, chunk.map StoredRow.durable = chunk := by
    intro chunk hc
    refine (map_congr_left fun row hr => ?_).trans (map_id chunk)
    obtain ⟨input, hi, hin⟩ := hrow chunk hc row hr
    exact (hwf input hi).durable_rowsUnder hin
  refine ⟨?_, fun output ho => ?_, fun output ho => ?_, ?_⟩
  · rw [rowsUnder_written hf hwidth hdurable, flatten_mergedChunks]
  · obtain ⟨chunk, hc, hw⟩ := hf.exists_of_mem_right ho
    exact hw.wellFormed (sorted_of_mem_mergedChunks hsorted hc) (hwidth chunk hc)
  · obtain ⟨chunk, -, hw⟩ := hf.exists_of_mem_right ho
    exact ⟨chunk, hw⟩
  · rw [hids, hf.length_eq]

theorem exists_runMerge (hv : options.Valid)
    (hread : ∀ input ∈ inputs, input.read schema = .ok (input.rowsUnder schema)) :
    ∃ outputs,
      runMerge xxh3 options window dropTombstones schema inputs compression id = .ok outputs := by
  have hstreams : inputs.mapM (Segment.read schema) =
      .ok (inputs.map (rowsUnder schema)) := by
    rw [mapM_eq_ok, forall₂_map_right_iff, forall₂_same]
    exact hread
  rw [runMerge, hstreams]
  exact exists_writeChunks hv (fun _ hc => ne_nil_of_mem_mergedChunks hv hc) id

/-- A merge leaves the newest row of each key, or nothing where it drops a delete. -/
theorem Merged.latest_eq (h : Merged window dropTombstones schema inputs outputs id)
    (hwf : ∀ input ∈ inputs, input.WellFormed) (k : PrimaryKey) :
    latest (outputs.flatMap (rowsUnder schema)) k =
      (latest (inputs.flatMap (rowsUnder schema)) k).filter (keeps window dropTombstones) := by
  have hsorted : ∀ stream ∈ inputs.map (rowsUnder schema), Sorted stream :=
    forall_mem_map.mpr fun input hi => (hwf input hi).sorted_rowsUnder schema
  rw [h.rows_eq, latest_filter_of_pairwise (pairwise_mergeStreams hsorted),
    latest_mergeStreams hsorted, flatMap_def]

end Outputs

end Compaction

end Pintail
