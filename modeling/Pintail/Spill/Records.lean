import Mathlib.Tactic.IntervalCases
import Pintail.Bytes.Frames
import Pintail.Bytes.LittleEndian

/-! # Records of a spill file

A spill file is a row of payloads, each behind four bytes that say how long it is. The reader takes
an end of the file inside those four bytes for the end of the records.
-/

namespace Pintail.Spill

open Bytes List

inductive IoError
  | invalidInput (message : String)
  | unexpectedEof

def frame (payload : List UInt8) : List UInt8 := leBytes 4 payload.length ++ payload

def writeRecord (payload : List UInt8) : Except IoError (List UInt8) :=
  if payload.length < 2 ^ 32 then .ok (frame payload)
  else .error (.invalidInput "spill record exceeds the 4 GiB frame bound")

def writeRecords (payloads : List (List UInt8)) : Except IoError (List UInt8) :=
  List.flatten <$> payloads.mapM writeRecord

/-- The next record and the bytes behind it, or nothing where the file is taken to end. -/
def readRecord (bytes : List UInt8) : Except IoError (Option (List UInt8 × List UInt8)) :=
  if bytes.length < 4 then .ok none
  else
    let length := leNat (bytes.take 4)
    if (bytes.drop 4).length < length then .error .unexpectedEof
    else .ok (some ((bytes.drop 4).take length, (bytes.drop 4).drop length))

theorem length_lt_of_readRecord {bytes payload rest : List UInt8}
    (h : readRecord bytes = .ok (some (payload, rest))) : rest.length < bytes.length := by
  unfold readRecord at h
  dsimp only at h
  split_ifs at h <;> cases h
  rw [length_drop, length_drop]
  omega

def readRecords (bytes : List UInt8) : List (List UInt8) × Option IoError :=
  match _ : readRecord bytes with
  | .error error => ([], some error)
  | .ok none => ([], none)
  | .ok (some (payload, rest)) =>
    let (payloads, stopped) := readRecords rest
    (payload :: payloads, stopped)
termination_by bytes.length
decreasing_by exact length_lt_of_readRecord ‹_›

def offset (payloads : List (List UInt8)) (k : ℕ) : ℕ :=
  ((payloads.take k).map frame).flatten.length

def Cut (payloads : List (List UInt8)) (n k : ℕ) : Prop :=
  k ≤ payloads.length ∧ offset payloads k ≤ n ∧
    ∀ j ≤ payloads.length, offset payloads j ≤ n → j ≤ k

/-- A cut is reported: the records wholly inside it are read, and the end is clean exactly where
the cut falls between two records. -/
def Reported (payloads : List (List UInt8)) (n : ℕ)
    (read : List (List UInt8) × Option IoError) : Prop :=
  ∃ k, Cut payloads n k ∧ read.1 = payloads.take k ∧ (read.2 = none ↔ n = offset payloads k)

variable {payload rest file : List UInt8} {payloads : List (List UInt8)} {n m k : ℕ} {j : ℕ}

@[simp] theorem length_frame (payload : List UInt8) :
    (frame payload).length = 4 + payload.length := by
  simp [frame]

theorem writeRecords_eq_ok (h : writeRecords payloads = .ok file) :
    file = (payloads.map frame).flatten ∧ ∀ payload ∈ payloads, payload.length < 2 ^ 32 := by
  obtain ⟨frames, hframes, rfl⟩ := Except.map_eq_ok.mp h
  rw [Except.mapM_eq_ok] at hframes
  clear h
  induction hframes with
  | nil => simp
  | @cons payload frame payloads frames hwrite hframes ih =>
    unfold writeRecord at hwrite
    split_ifs at hwrite with hlt
    cases hwrite
    exact ⟨by simp [ih.1], forall_mem_cons.mpr ⟨hlt, ih.2⟩⟩

theorem readRecord_frame (h : payload.length < 2 ^ 32) (rest : List UInt8) :
    readRecord (frame payload ++ rest) = .ok (some (payload, rest)) := by
  have hbytes : frame payload ++ rest = leBytes 4 payload.length ++ (payload ++ rest) := by
    simp [frame]
  have hlength : leNat (leBytes 4 payload.length) = payload.length := leNat_leBytes_of_lt h
  rw [hbytes, readRecord, take_left' (length_leBytes ..), hlength]
  simp

theorem readRecords_frame (h : payload.length < 2 ^ 32) (rest : List UInt8) :
    readRecords (frame payload ++ rest) =
      (payload :: (readRecords rest).1, (readRecords rest).2) := by
  rw [readRecords]
  split <;> rename_i heq <;> rw [readRecord_frame h] at heq <;> cases heq
  rfl

theorem readRecords_append (h : ∀ payload ∈ payloads, payload.length < 2 ^ 32) (rest : List UInt8) :
    readRecords ((payloads.map frame).flatten ++ rest) =
      (payloads ++ (readRecords rest).1, (readRecords rest).2) := by
  induction payloads with
  | nil => simp
  | cons payload payloads ih =>
    rw [forall_mem_cons] at h
    rw [map_cons, flatten_cons, append_assoc, readRecords_frame h.1, ih h.2]
    rfl

theorem readRecords_take (h : payload.length < 2 ^ 32) (hm : m < (frame payload).length) :
    readRecords ((frame payload).take m) = ([], if m < 4 then none else some .unexpectedEof) := by
  have hlen : ((frame payload).take m).length = m := by
    rw [length_take, Nat.min_eq_left hm.le]
  have hread : readRecord ((frame payload).take m) =
      if m < 4 then .ok none else .error .unexpectedEof := by
    rw [readRecord, hlen]
    dsimp only
    split_ifs with hheader hshort
    · rfl
    · rfl
    · refine absurd ?_ hshort
      rw [length_frame] at hm
      rw [take_take, Nat.min_eq_left (by omega), length_drop, hlen, frame,
        take_left' (length_leBytes ..), leNat_leBytes_of_lt h]
      omega
  rw [readRecords]
  split <;> rename_i heq <;> rw [hread] at heq <;> split_ifs at heq with hheader <;> cases heq
  · simp [hheader]
  · simp [hheader]

theorem offset_mono (payloads : List (List UInt8)) (h : j ≤ k) :
    offset payloads j ≤ offset payloads k := by
  obtain ⟨between, hbetween⟩ := take_prefix_take_left (l := payloads) h
  simp [offset, ← hbetween]

theorem offset_succ (h : payloads[k]? = some payload) :
    offset payloads (k + 1) = offset payloads k + (frame payload).length := by
  simp [offset, take_add_one, h]

theorem Cut.unique (h : Cut payloads n k) (h' : Cut payloads n j) : k = j :=
  Nat.le_antisymm (h'.2.2 k h.1 h.2.1) (h.2.2 j h'.1 h'.2.1)

theorem exists_cut (h : writeRecords payloads = .ok file) (hn : n ≤ file.length) :
    ∃ k, Cut payloads n k ∧ readRecords (file.take n) = (payloads.take k,
      if n < offset payloads k + 4 then none else some .unexpectedEof) := by
  obtain ⟨rfl, hbound⟩ := writeRecords_eq_ok h
  obtain ⟨k, hk, tail, htake, hend⟩ := exists_cut_flatten (payloads.map frame) hn
  rw [length_map] at hk
  rw [← map_take] at htake
  have hlen : n = offset payloads k + tail.length := by
    rw [offset, ← length_append, ← htake, length_take, Nat.min_eq_left hn]
  rw [htake, readRecords_append fun p hp => hbound p (mem_of_mem_take hp)]
  obtain ⟨payload, m, hpayload, hm, rfl, hnext⟩ : ∃ payload m, payload.length < 2 ^ 32 ∧
      m < (frame payload).length ∧ tail = (frame payload).take m ∧
      (k < payloads.length → payloads[k]? = some payload) := by
    rcases hend with ⟨rfl, hall⟩ | ⟨c, m, hc, hm, rfl⟩
    · rw [length_map] at hall
      exact ⟨[], 0, by simp, by simp, rfl, fun hlt => by omega⟩
    · rw [getElem?_map, Option.map_eq_some_iff] at hc
      obtain ⟨payload, hpayload, rfl⟩ := hc
      exact ⟨payload, m, hbound payload (mem_of_getElem? hpayload), hm, rfl, fun _ => hpayload⟩
  rw [length_take] at hlen
  refine ⟨k, ⟨hk, by omega, fun j hj hjn => ?_⟩, ?_⟩
  · by_contra hlt
    have hsucc := offset_succ (hnext (by omega))
    have hmono := offset_mono payloads (show k + 1 ≤ j by omega)
    omega
  · simp [readRecords_take hpayload hm, hlen]

/-- The end of a cut file is reported as it is exactly where the cut falls inside no header. -/
theorem reported_iff (h : writeRecords payloads = .ok file) (hn : n ≤ file.length) :
    Reported payloads n (readRecords (file.take n)) ↔
      ¬ ∃ k < payloads.length, offset payloads k < n ∧ n < offset payloads k + 4 := by
  obtain ⟨k, hcut, hread⟩ := exists_cut h hn
  rw [hread]
  constructor
  · rintro ⟨j, hj, -, hend⟩ ⟨i, hi, hlo, hhi⟩
    obtain rfl := hcut.unique hj
    have hij : i ≤ k := hcut.2.2 i hi.le hlo.le
    have hsucc := offset_succ (getElem?_eq_getElem hi)
    rw [length_frame] at hsucc
    have hki : k ≤ i := by
      by_contra hlt
      have hmono := offset_mono payloads (show i + 1 ≤ k by omega)
      have := hcut.2.1
      omega
    obtain rfl := Nat.le_antisymm hij hki
    rw [if_pos hhi] at hend
    exact hlo.ne' (hend.mp rfl)
  · intro hheader
    refine ⟨k, hcut, rfl, ?_⟩
    have hle := hcut.2.1
    rcases hcut.1.lt_or_eq with hlt | rfl
    · have hnot : ¬ (offset payloads k < n ∧ n < offset payloads k + 4) :=
        fun hin => hheader ⟨k, hlt, hin⟩
      split_ifs with hn
      · exact iff_of_true rfl (by omega)
      · exact iff_of_false nofun (by omega)
    · rw [(writeRecords_eq_ok h).1, ← take_length (l := payloads)] at hn
      have heq : n = offset payloads payloads.length := Nat.le_antisymm hn hle
      exact iff_of_true (if_pos (by omega)) heq

def sampleFile : List UInt8 := [1, 0, 0, 0, 7, 1, 0, 0, 0, 8]

theorem reported_in_payload : writeRecords [[7], [8]] = .ok sampleFile ∧
    9 ≤ sampleFile.length ∧ Reported [[7], [8]] 9 (readRecords (sampleFile.take 9)) := by
  refine ⟨rfl, by decide, (reported_iff rfl (by decide)).mpr ?_⟩
  rintro ⟨k, hk, hin⟩
  have hk : k < 2 := hk
  revert hin
  interval_cases k <;> decide

/-- Three bytes of the second header are taken for the end of the file. -/
theorem not_reported_in_header : writeRecords [[7], [8]] = .ok sampleFile ∧
    readRecords (sampleFile.take 8) = ([[7]], none) ∧
    ¬ Reported [[7], [8]] 8 (readRecords (sampleFile.take 8)) := by
  have hread : readRecords (sampleFile.take 8) = ([[7]], none) := by
    have h := @readRecords_append [[7]] (by simp) ((frame [8]).take 3)
    rw [readRecords_take (by simp) (by simp)] at h
    exact h
  refine ⟨rfl, hread, ?_⟩
  rw [hread]
  rintro ⟨k, ⟨hk, -⟩, -, hend⟩
  have h := hend.mp rfl
  revert h
  have hk : k ≤ 2 := hk
  interval_cases k <;> decide

end Pintail.Spill
