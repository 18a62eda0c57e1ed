import Pintail.Cdc.Decoder
import Pintail.Cdc.StreamPosition

/-! # The open transaction

The row changes of a source transaction are staged as versioned rows until it commits: an insert is a
live row, a delete a tombstone at the old key, and an update that moves the key a tombstone followed
by the new row at the next ordinal. Versions come from the position of the stream alone.
-/

namespace Pintail.Cdc

open Words Except

structure PendingMutation where
  targetIndex : ℕ
  row : StoredRow

structure PendingTransaction where
  /-- In the order they were staged; a spilled transaction keeps them in a file. -/
  mutations : List PendingMutation
  spilled : Bool
  retainedBytes : ℕ
  ordinal : UInt64

def PendingTransaction.empty : PendingTransaction := ⟨[], false, 0, 0⟩

/-- The rows are numbered by the position, from the first event of the transaction on. -/
def Numbered (position : StreamPosition) (first : UInt64) (mutations : List PendingMutation) :
    Prop :=
  ∀ mutation ∈ mutations, ∃ eventPosition ordinal, first ≤ eventPosition ∧
    position.version eventPosition ordinal = .ok mutation.row.version

def keylessChangeError (source : SourceTable) (update : Bool) : CdcError :=
  let change := if update then "UPDATE" else "DELETE"
  .decode s!"{source.name} {change} has no stable source key and requires resnapshot"

def laterOrdinal (ordinal count : UInt64) : Except CdcError UInt64 :=
  match checkedAdd ordinal count with
  | some ordinal => .ok ordinal
  | none => .error (.decode "mutation ordinal overflowed")

section Stage

-- a mutation takes so many bytes beside its row, and a transaction above the maximum spills
variable (mutationSize maximumBytes : ℕ)

def pushMutations (added : List PendingMutation) (ordinalBudget : UInt64)
    (pending : PendingTransaction) : Except CdcError PendingTransaction := do
  let nextOrdinal ← laterOrdinal pending.ordinal (UInt64.ofNat added.length)
  if nextOrdinal > ordinalBudget then
    .error (.decode s!"one source transaction exceeds {ordinalBudget} row mutations")
  else
    let addedBytes := (added.map fun mutation => mutation.row.estimatedBytes + mutationSize).sum
    let spills := pending.spilled || decide (pending.retainedBytes + addedBytes > maximumBytes)
    pure {
      mutations := pending.mutations ++ added
      spilled := spills
      retainedBytes := if spills then 0 else pending.retainedBytes + addedBytes
      ordinal := nextOrdinal }

variable (lib : Libraries) (source : SourceTable) (targetIndex : ℕ) (position : StreamPosition)
  (eventPosition : UInt64)

def stageRowChange (before after : Option (List Value)) (pending : PendingTransaction) :
    Except CdcError PendingTransaction :=
  let push := fun (added : List StoredRow) =>
    pushMutations mutationSize maximumBytes (added.map (PendingMutation.mk targetIndex))
      position.ordinalBudget pending
  match before, after with
  | none, some values => do
    let version ← position.version eventPosition pending.ordinal
    let key ← insertKey lib source values version
    push [⟨key, values, version, false⟩]
  | some values, none =>
    if source.key.mode = .appendRowId then .error (keylessChangeError source false)
    else do
      let key ← physicalKey lib source values
      let version ← position.version eventPosition pending.ordinal
      push [⟨key, values, version, true⟩]
  | some beforeValues, some afterValues =>
    if source.key.mode = .appendRowId then .error (keylessChangeError source true)
    else do
      let beforeKey ← physicalKey lib source beforeValues
      let afterKey ← physicalKey lib source afterValues
      if beforeKey = afterKey then do
        let version ← position.version eventPosition pending.ordinal
        push [⟨afterKey, afterValues, version, false⟩]
      else do
        let version ← position.version eventPosition pending.ordinal
        let ordinal ← laterOrdinal pending.ordinal 1
        let afterVersion ← position.version eventPosition ordinal
        push [⟨beforeKey, beforeValues, version, true⟩,
          ⟨afterKey, afterValues, afterVersion, false⟩]
  | none, none => .error (.decode "row event contains neither before nor after image")

end Stage

section Numbered

variable {mutationSize maximumBytes : ℕ} {lib : Libraries} {source : SourceTable} {targetIndex : ℕ}
  {position : StreamPosition} {eventPosition first : UInt64} {pending pending' : PendingTransaction}

theorem mutations_of_pushMutations {added : List PendingMutation} {budget : UInt64}
    (h : pushMutations mutationSize maximumBytes added budget pending = .ok pending') :
    pending'.mutations = pending.mutations ++ added := by
  obtain ⟨nextOrdinal, -, h⟩ := bind_eq_ok.mp h
  split_ifs at h
  cases h
  rfl

theorem Numbered.stageRowChange {before after : Option (List Value)}
    (hn : Numbered position first pending.mutations) (hle : first ≤ eventPosition)
    (h : stageRowChange mutationSize maximumBytes lib source targetIndex position eventPosition
      before after pending = .ok pending') : Numbered position first pending'.mutations := by
  have hpush : ∀ added : List StoredRow, (∀ row ∈ added, ∃ ordinal,
      position.version eventPosition ordinal = .ok row.version) →
      pushMutations mutationSize maximumBytes (added.map (PendingMutation.mk targetIndex))
        position.ordinalBudget pending = .ok pending' →
      Numbered position first pending'.mutations := by
    intro added hadded hok
    rw [mutations_of_pushMutations hok]
    intro mutation hm
    rcases List.mem_append.mp hm with hm | hm
    · exact hn mutation hm
    · obtain ⟨row, hr, rfl⟩ := List.mem_map.mp hm
      obtain ⟨ordinal, hv⟩ := hadded row hr
      exact ⟨eventPosition, ordinal, hle, hv⟩
  unfold Cdc.stageRowChange at h
  split at h
  · obtain ⟨version, hv, h⟩ := bind_eq_ok.mp h
    obtain ⟨key, -, h⟩ := bind_eq_ok.mp h
    exact hpush _ (by simpa using ⟨_, hv⟩) h
  · split_ifs at h
    obtain ⟨key, -, h⟩ := bind_eq_ok.mp h
    obtain ⟨version, hv, h⟩ := bind_eq_ok.mp h
    exact hpush _ (by simpa using ⟨_, hv⟩) h
  · split_ifs at h
    obtain ⟨beforeKey, -, h⟩ := bind_eq_ok.mp h
    obtain ⟨afterKey, -, h⟩ := bind_eq_ok.mp h
    split_ifs at h <;> obtain ⟨version, hv, h⟩ := bind_eq_ok.mp h
    · exact hpush _ (by simpa using ⟨_, hv⟩) h
    · obtain ⟨ordinal, -, h⟩ := bind_eq_ok.mp h
      obtain ⟨afterVersion, hv', h⟩ := bind_eq_ok.mp h
      exact hpush _ (by simpa using ⟨⟨_, hv⟩, _, hv'⟩) h
  · cases h

end Numbered

end Pintail.Cdc
