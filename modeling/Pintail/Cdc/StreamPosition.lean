import Pintail.Cdc.GtidSet

/-! # The position of a stream

A stream numbers the rows it applies by its position: a transaction with a GTID takes the version
slot of its sequence number and runs on into the next slots, any other takes its file, its offset and
the ordinal of the row. Within a transaction versions rise from the first one, which must lie above
the floor for the transaction to be applied.
-/

namespace Pintail.Cdc

open Words Except UInt64

inductive PositionKind
  | mysqlGtid
  | filePosition

def defaultSlotBits : ℕ := 24

structure StreamPosition where
  kind : PositionKind
  gtidSet : Option MysqlGtidSet
  pendingGtid : Option GtidIdentity
  file : List Char
  pos : UInt64
  /-- The highest row version the tables hold. -/
  floor : UInt64
  /-- Version slots the transactions before used beyond their own. -/
  carry : UInt64
  slotBits : ℕ

namespace StreamPosition

variable (position : StreamPosition)

def ordinalBudget : UInt64 :=
  match position.kind with
  | .mysqlGtid => 18446744073709551615
  | .filePosition => 65535

def fileIndex : Option ℕ :=
  if '.' ∈ position.file then unsigned? (2 ^ 64) (position.file.rtakeWhile (· ≠ '.')) else none

def gtidVersion (gtid : GtidIdentity) (ordinal : UInt64) : Except CdcError UInt64 :=
  let slot := gtid.sequence.toNat + position.carry.toNat
  let version := slot * 2 ^ position.slotBits + ordinal.toNat + 1
  if slot < 2 ^ (64 - position.slotBits) ∧ version < 2 ^ 64 then .ok (ofNat version)
  else .error (.decode "GTID version exceeds UInt64")

def fileVersion (eventPosition ordinal : UInt64) : Except CdcError UInt64 :=
  if ordinal.toNat + 1 ≥ 2 ^ 16 then
    .error (.decode ("one source transaction exceeds 65,535 row mutations                  " ++
      "(file-position mode; GTID mode raises the budget to 16,777,215)"))
  else
    match position.fileIndex with
    | none =>
      .error (.invalidCheckpoint
        s!"binlog file {String.ofList position.file} has no numeric suffix")
    | some index =>
      if index ≥ 2 ^ 16 then .error (.decode "binlog file index exceeds the version range")
      else if eventPosition.toNat ≥ 2 ^ 32 then
        .error (.decode "binlog event position exceeds the version range")
      else .ok (ofNat (index <<< 48 ||| eventPosition.toNat <<< 16 ||| (ordinal.toNat + 1)))

def version (eventPosition ordinal : UInt64) : Except CdcError UInt64 :=
  match position.pendingGtid with
  | some gtid => position.gtidVersion gtid ordinal
  | none => position.fileVersion eventPosition ordinal

/-- Why the transaction just opened cannot be applied in order, if it cannot. -/
def outOfOrder (eventPosition : UInt64) : Except CdcError (Option String) := do
  let first ← position.version eventPosition 0
  if first ≤ position.floor then
    let transaction := match position.pendingGtid with
      | some gtid => s!"GTID sequence {gtid.sequence}"
      | none => s!"{String.ofList position.file}:{eventPosition}"
    let stored := s!"at or below the {position.floor} already stored"
    pure (some (s!"source transaction {transaction} versions at {first}, {stored}; " ++
      "the source's transaction numbering restarted"))
  else pure none

def closeTransaction (mutations : UInt64) : Except CdcError StreamPosition :=
  match position.pendingGtid with
  | none => .ok position
  | some gtid =>
    match checkedAdd position.carry (ofNat (mutations.toNat / 2 ^ position.slotBits)) with
    | none => .error (.decode "GTID version exceeds UInt64")
    | some carry => do
      let gtidSet ← position.gtidSet.mapM (·.addEvent gtid)
      pure { position with pendingGtid := none, carry, gtidSet }

variable {position} {eventPosition eventPosition' ordinal first version : UInt64}

theorem fileVersion_eq {index : ℕ} (hordinal : ordinal.toNat + 1 < 2 ^ 16)
    (hevent : eventPosition.toNat < 2 ^ 32) :
    index <<< 48 ||| eventPosition.toNat <<< 16 ||| (ordinal.toNat + 1) =
      index * 2 ^ 48 + eventPosition.toNat * 2 ^ 16 + (ordinal.toNat + 1) := by
  have hlow : eventPosition.toNat <<< 16 ||| (ordinal.toNat + 1) =
      eventPosition.toNat <<< 16 + (ordinal.toNat + 1) :=
    (Nat.shiftLeft_add_eq_or_of_lt hordinal _).symm
  have hbound : eventPosition.toNat <<< 16 + (ordinal.toNat + 1) < 2 ^ 48 := by
    omega
  rw [Nat.or_assoc, hlow, ← Nat.shiftLeft_add_eq_or_of_lt hbound, Nat.shiftLeft_eq,
    Nat.shiftLeft_eq, Nat.add_assoc]

theorem toNat_of_gtidVersion {gtid : GtidIdentity}
    (h : position.gtidVersion gtid ordinal = .ok version) : version.toNat =
      (gtid.sequence.toNat + position.carry.toNat) * 2 ^ position.slotBits + ordinal.toNat + 1 := by
  simp only [gtidVersion] at h
  split_ifs at h with hlt
  rw [← Except.ok.inj h, toNat_ofNat_of_lt' hlt.2]

theorem toNat_of_fileVersion (h : position.fileVersion eventPosition ordinal = .ok version) :
    ∃ index, position.fileIndex = some index ∧
      version.toNat = index * 2 ^ 48 + eventPosition.toNat * 2 ^ 16 + (ordinal.toNat + 1) := by
  revert h
  fun_cases fileVersion position eventPosition ordinal with
  | case5 hordinal index hindex hi hevent =>
    rintro ⟨⟩
    refine ⟨index, hindex, ?_⟩
    rw [fileVersion_eq (by omega) (by omega)]
    exact toNat_ofNat_of_lt' (show _ < 2 ^ 64 by omega)
  | _ => nofun

theorem version_le (hfirst : position.version eventPosition 0 = .ok first)
    (h : position.version eventPosition' ordinal = .ok version)
    (hevent : eventPosition ≤ eventPosition') : first ≤ version := by
  rw [UInt64.le_iff_toNat_le] at hevent ⊢
  unfold StreamPosition.version at hfirst h
  cases hgtid : position.pendingGtid with
  | some gtid =>
    rw [hgtid] at hfirst h
    rw [toNat_of_gtidVersion hfirst, toNat_of_gtidVersion h]
    simp
  | none =>
    rw [hgtid] at hfirst h
    obtain ⟨index, hindex, hf⟩ := toNat_of_fileVersion hfirst
    obtain ⟨index', hindex', hv⟩ := toNat_of_fileVersion h
    obtain rfl : index = index' := Option.some.inj (hindex.symm.trans hindex')
    rw [hf]
    simp only [UInt64.toNat_zero]
    omega

theorem outOfOrder_eq_none : position.outOfOrder eventPosition = .ok none ↔
    ∃ first, position.version eventPosition 0 = .ok first ∧ position.floor < first := by
  unfold outOfOrder
  rw [bind_eq_ok]
  refine exists_congr fun first => and_congr_right fun _ => ?_
  split_ifs with h
  · simp [h]
  · simpa using h

theorem of_closeTransaction {mutations : UInt64} {closed : StreamPosition}
    (h : position.closeTransaction mutations = .ok closed) :
    closed.floor = position.floor ∧ closed.slotBits = position.slotBits ∧
      position.carry ≤ closed.carry ∧ closed.gtidSet.isSome = position.gtidSet.isSome ∧
      ∀ gtid ∈ position.pendingGtid,
        closed.carry.toNat = position.carry.toNat + mutations.toNat / 2 ^ position.slotBits ∧
          (position.gtidSet.isSome = true → gtid.sequence ≠ 0) := by
  revert h
  fun_cases closeTransaction position mutations with
  | case1 hgtid =>
    rintro ⟨⟩
    exact ⟨rfl, rfl, le_rfl, rfl, by simp [hgtid]⟩
  | case2 => nofun
  | case3 gtid hgtid carry hcarry =>
    intro h
    obtain ⟨gtidSet, hset, ⟨⟩⟩ := bind_eq_ok.mp h
    have hsum := checkedAdd_eq_some.mp hcarry
    rw [toNat_ofNat_of_lt' ((Nat.div_le_self _ _).trans_lt mutations.toNat_lt)] at hsum
    have hle : position.carry ≤ carry := by
      rw [le_iff_toNat_le, hsum]
      exact Nat.le_add_right _ _
    rw [hgtid]
    cases hold : position.gtidSet with
    | none =>
      rw [hold] at hset
      cases hset
      exact ⟨rfl, rfl, hle, rfl, fun _ _ => ⟨hsum, nofun⟩⟩
    | some set =>
      rw [hold] at hset
      obtain ⟨added, hadd, ⟨⟩⟩ := bind_eq_ok.mp hset
      refine ⟨rfl, rfl, hle, rfl, ?_⟩
      rintro _ ⟨⟩
      refine ⟨hsum, fun _ hzero => ?_⟩
      obtain ⟨interval, hi, -⟩ := bind_eq_ok.mp hadd
      simp [GtidIdentity.interval, hzero] at hi

theorem exists_closeTransaction
    (h : ∀ gtid ∈ position.pendingGtid, position.gtidSet.isSome = true → gtid.sequence ≠ 0) :
    ∃ closed, position.closeTransaction 0 = .ok closed := by
  unfold closeTransaction
  cases hgtid : position.pendingGtid with
  | none => exact ⟨_, rfl⟩
  | some gtid =>
    have hcarry : checkedAdd position.carry
        (UInt64.ofNat ((0 : UInt64).toNat / 2 ^ position.slotBits)) = some position.carry :=
      checkedAdd_eq_some.mpr (by simp)
    simp only [hcarry]
    cases hset : position.gtidSet with
    | none => exact ⟨_, rfl⟩
    | some set =>
      have hne : gtid.sequence.toNat ≠ 0 := fun he =>
        h gtid hgtid (by simp [hset]) (UInt64.toNat_inj.mp he)
      have hadd : set.addEvent gtid = .ok (set.insertInterval gtid.key
          ⟨_, _, by omega, le_rfl, gtid.sequence.toNat_lt⟩) := by
        rw [MysqlGtidSet.addEvent, GtidIdentity.interval, dif_neg hne]
        rfl
      exact ⟨_, bind_eq_ok.mpr ⟨_, bind_eq_ok.mpr ⟨_, hadd, rfl⟩, rfl⟩⟩

/-- A transaction with a GTID that the position could open next begins at the version. -/
def Begins (position : StreamPosition) (first : UInt64) : Prop :=
  ∃ gtid : GtidIdentity, (position.gtidSet.isSome = true → gtid.sequence ≠ 0) ∧
    position.gtidVersion gtid 0 = .ok first

theorem Begins.of_carry_le {later : StreamPosition} (h : later.Begins first)
    (hbits : later.slotBits = position.slotBits) (hcarry : position.carry ≤ later.carry)
    (hset : later.gtidSet.isSome = position.gtidSet.isSome) : position.Begins first := by
  obtain ⟨gtid, hzero, hversion⟩ := h
  have hle := UInt64.le_iff_toNat_le.mp hcarry
  simp only [gtidVersion, hbits] at hversion
  split_ifs at hversion with hlt
  have hpow : 2 ^ (64 - position.slotBits) ≤ 2 ^ 64 :=
    Nat.pow_le_pow_right (by decide) (Nat.sub_le _ _)
  have hsub : (later.carry - position.carry).toNat = later.carry.toNat - position.carry.toNat :=
    UInt64.toNat_sub_of_le _ _ hcarry
  have hsequence : (gtid.sequence + (later.carry - position.carry)).toNat =
      gtid.sequence.toNat + (later.carry.toNat - position.carry.toNat) := by
    rw [UInt64.toNat_add, hsub]
    exact Nat.mod_eq_of_lt (by omega)
  have hslot : (gtid.sequence + (later.carry - position.carry)).toNat + position.carry.toNat =
      gtid.sequence.toNat + later.carry.toNat := by omega
  refine ⟨{ gtid with sequence := gtid.sequence + (later.carry - position.carry) }, ?_, ?_⟩
  · intro hsome he
    refine hzero (hset.trans hsome) (UInt64.toNat_inj.mp ?_)
    have := congrArg UInt64.toNat he
    simp only [UInt64.toNat_zero] at this ⊢
    omega
  · simp only [gtidVersion, hslot]
    rw [if_pos hlt]
    exact hversion

end StreamPosition

end Pintail.Cdc
