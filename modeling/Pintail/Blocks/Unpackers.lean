import Pintail.Blocks.Encoding
import Pintail.Blocks.Unpacked

/-! # Integers unpacked into typed columns

The values of a packed block are added to its base, or summed from its first value on, as they are
unpacked. Where the width shows that no sum can leave the type none is checked. The values and the
failures are those of reading the values one by one and checking each.
-/

namespace Pintail.Blocks

open Bytes List UInt64 Except

/-- The integers of a column, kept by their 64 bits. -/
inductive Destination
  | signed
  | unsigned
  deriving DecidableEq, Repr

namespace Destination

def least : Destination → ℤ
  | signed => -2 ^ 63
  | unsigned => 0

def greatest : Destination → ℤ
  | signed => 2 ^ 63 - 1
  | unsigned => 2 ^ 64 - 1

def logicalType : Destination → LogicalType
  | signed => .int64
  | unsigned => .uint64

def name : Destination → String
  | signed => "signed"
  | unsigned => "unsigned"

def lift (destination : Destination) (kind : String) (value : ℤ) : Except String UInt64 :=
  if destination.least ≤ value ∧ value ≤ destination.greatest then .ok (ofInt value)
  else .error s!"{kind} {destination.name} integer overflow"

def addBase (destination : Destination) (base : ℤ) (normalized : UInt64) :
    Except String UInt64 := do
  let value ← orReason (checkedAdd base normalized.toNat) "bit-packed integer overflow"
  destination.lift "bit-packed" value

def push (destination : Destination) (out : List UInt64) (value : ℤ) :
    Except String (List UInt64) := do
  return out ++ [← destination.lift "delta" value]

end Destination

def maskOf (width : ℕ) : ℤ := (widthMask width).toNat

section Unpackers

variable (avx2 : Bool)

def unpackTypedInto (destination : Destination) (valueCount : ℕ) (base : ℤ) :
    Decoder (List UInt64) := do
  let (width, bytes) ← unpackHeader valueCount
  if destination.least ≤ base ∧ base + maskOf width ≤ destination.greatest ∧
      (destination = .signed → width < 64) then
    -- no sum leaves the type, so each is taken in its 64 bits
    let base := ofInt base
    if decodesWhole avx2 width valueCount then
      unpackWhole (fun bytes => unpackU64 avx2 width bytes base) width bytes valueCount
    else
      let values ← forEachUnpackedGroup avx2 width bytes valueCount
      return values.map (base + ·)
  else
    let values ← forEachUnpackedGroup avx2 width bytes valueCount
    (values.mapM (destination.addBase base) : Except String (List UInt64))

def unpackSignedInto : ℕ → ℤ → Decoder (List UInt64) := unpackTypedInto avx2 .signed

def unpackUnsignedInto : ℕ → ℤ → Decoder (List UInt64) := unpackTypedInto avx2 .unsigned

def deltaMaximum : LogicalType → Except String ℤ
  | .int64 => .ok (2 ^ 63 - 1)
  | .uint64 => .ok (2 ^ 64 - 1)
  | _ => .error "delta destination must be integer"

def addDelta (maximum current : ℤ) (delta : UInt64) : Except String ℤ :=
  orReason ((checkedAdd current delta.toNat).filter (· ≤ maximum)) "integer delta overflow"

/-- The sum of the greatest deltas a width has stays within the maximum. -/
def bounded (width count : ℕ) (first maximum : ℤ) : Prop :=
  maskOf width * count < 2 ^ 127 ∧ first + maskOf width * count ≤ maximum

instance (width count : ℕ) (first maximum : ℤ) : Decidable (bounded width count first maximum) :=
  inferInstanceAs (Decidable (_ ∧ _))

/-- The running sums, each handed on as it is reached. -/
def sumEach {σ : Type} (add : ℤ → UInt64 → Except String ℤ) (emit : σ → ℤ → Except String σ) :
    ℤ → σ → List UInt64 → Except String σ
  | _, s, [] => .ok s
  | current, s, delta :: deltas => do
    let current ← add current delta
    sumEach add emit current (← emit s current) deltas

/-- The first value of a block and its deltas, summed below the maximum of their type. -/
def unpackDelta {σ : Type} (valueCount : ℕ) (logicalType : LogicalType)
    (sum : ℕ → List UInt8 → ℤ → Except String σ) : Decoder σ :=
  if valueCount = 0 then throw "delta block cannot be empty"
  else do
    let (width, bytes) ← unpackHeader (valueCount - 1)
    (do sum width bytes (← deltaMaximum logicalType) : Except String σ)

def unpackDeltaEach {σ : Type} (emit : σ → ℤ → Except String σ) (s : σ) (valueCount : ℕ)
    (first : ℤ) (logicalType : LogicalType) : Decoder σ :=
  unpackDelta valueCount logicalType fun width bytes maximum => do
    let s ← emit s first
    let deltas ← forEachUnpackedGroup avx2 width bytes (valueCount - 1)
    if bounded width (valueCount - 1) first maximum then
      sumEach (fun current delta => .ok (current + delta.toNat)) emit first s deltas
    else sumEach (addDelta maximum) emit first s deltas

def unpackDeltaInto (destination : Destination) (valueCount : ℕ) (first : ℤ)
    (logicalType : LogicalType) : Decoder (List UInt64) :=
  unpackDelta valueCount logicalType fun width bytes maximum => do
    let lifted ← destination.lift "delta" first
    let deltas ← forEachUnpackedGroup avx2 width bytes (valueCount - 1)
    -- a bounded sum is taken in the 64 bits of the destination
    if bounded width (valueCount - 1) first maximum then return deltas.scanl (· + ·) lifted
    else sumEach (addDelta maximum) destination.push first [lifted] deltas

/-- The values of `unpack`, after those a buffer holds. -/
def unpackInto (valueCount : ℕ) (out : List UInt64) : Decoder (List UInt64) := do
  let (width, bytes) ← unpackHeader valueCount
  return out ++ (← unpackValues avx2 width bytes valueCount)

/-- The groups from `first` on whose words have a bit set, each with its word. -/
def selectedRuns (width : ℕ) (bytes : List UInt8) (first : ℕ) :
    List UInt64 → Except String (List (List UInt64 × UInt64))
  | [] => pure []
  | word :: words =>
    if word = 0 then selectedRuns width bytes (first + 1) words
    else do
      -- a run of selected groups decodes in one call
      let run := word :: words.takeWhile (· ≠ 0)
      let start := bytes.drop (first * (group * width / 8))
      let values ← unpackWholeGroups avx2 width start run.length
      let later ← selectedRuns width bytes (first + run.length) (words.dropWhile (· ≠ 0))
      return run.mapIdx (fun i word => ((values.drop (i * group)).take group, word)) ++ later
termination_by words => words.length
decreasing_by
  · exact Nat.lt_succ_self _
  · exact Nat.lt_succ_of_le (dropWhile_sublist _).length_le

/-- The groups a word selects a value of are handed on with it, the others skipped undecoded. -/
def forEachSelectedGroup (valueCount : ℕ) (words : List UInt64) :
    Decoder (List (List UInt64 × UInt64)) := do
  let (width, bytes) ← unpackHeader valueCount
  if words.length < (valueCount + group - 1) / group then
    throw "selection words are shorter than the payload"
  let wholeGroups := valueCount / group
  let groups ← (selectedRuns avx2 width bytes 0 (words.take wholeGroups) : Except String _)
  let rest := valueCount - wholeGroups * group
  let word := words.getD wholeGroups 0
  if 0 < rest ∧ word ≠ 0 then
    let reader := BitReader.new (bytes.drop (wholeGroups * (group * width / 8)))
    return groups ++ [(reader.readTimes width rest, word)]
  return groups

end Unpackers

def readInto (destination : Destination) (valueCount : ℕ) (base : ℤ) : Decoder (List UInt64) := do
  let (width, bytes) ← unpackHeader valueCount
  let values := (BitReader.new bytes).readTimes width valueCount
  (values.mapM (destination.addBase base) : Except String (List UInt64))

def readDeltaEach {σ : Type} (emit : σ → ℤ → Except String σ) (s : σ) (valueCount : ℕ)
    (first : ℤ) (logicalType : LogicalType) : Decoder σ :=
  unpackDelta valueCount logicalType fun width bytes maximum => do
    sumEach (addDelta maximum) emit first (← emit s first)
      ((BitReader.new bytes).readTimes width (valueCount - 1))

/-- The groups a word selects, each with its word. -/
def selectedGroups (groupAt : ℕ → List UInt64) (words : List UInt64) :
    List (List UInt64 × UInt64) :=
  (words.mapIdx fun i word => (groupAt i, word)).filter (·.2 ≠ 0)

def readSelected (valueCount : ℕ) (words : List UInt64) :
    Decoder (List (List UInt64 × UInt64)) := do
  let (width, bytes) ← unpackHeader valueCount
  let groups := (valueCount + group - 1) / group
  if words.length < groups then throw "selection words are shorter than the payload"
  let values := (BitReader.new bytes).readTimes width valueCount
  return selectedGroups (fun i => (values.drop (i * group)).take group) (words.take groups)

section Spec

theorem error_bind {ε α γ : Type} {e : ε} {f : α → Except ε γ} : (.error e >>= f) = .error e := rfl

variable {width count : ℕ} {bytes : List UInt8} {destination : Destination}

theorem of_run_unpackHeader {input rest : List UInt8}
    (h : (unpackHeader count).run input = .ok ((width, bytes), rest)) :
    width ≤ 64 ∧ count * width ≤ 8 * bytes.length := by
  obtain ⟨⟨w, input'⟩, -, h⟩ := bind_eq_ok.mp h
  dsimp only at h
  split at h
  · cases h
  rename_i hw
  obtain ⟨⟨b, input''⟩, -, h⟩ := bind_eq_ok.mp h
  dsimp only at h
  split at h
  · cases h
  split at h
  · cases h
  rename_i hlen
  cases h
  refine ⟨not_lt.mp hw, ?_⟩
  rw [not_not.mp hlen, bytesFor]
  omega

theorem unpackHeader_bind_congr {α : Type} {f g : ℕ × List UInt8 → Decoder α}
    (h : ∀ width bytes, width ≤ 64 → count * width ≤ 8 * bytes.length →
      f (width, bytes) = g (width, bytes)) :
    (unpackHeader count >>= f) = unpackHeader count >>= g := by
  ext input : 1
  change ((unpackHeader count).run input >>= _) = ((unpackHeader count).run input >>= _)
  cases hrun : (unpackHeader count).run input with
  | error e => rfl
  | ok result =>
    obtain ⟨⟨width, bytes⟩, rest⟩ := result
    obtain ⟨hw, hlen⟩ := of_run_unpackHeader hrun
    exact congrFun (h width bytes hw hlen) rest

theorem unpackDelta_congr {σ : Type} {logicalType : LogicalType}
    {sum sum' : ℕ → List UInt8 → ℤ → Except String σ}
    (h : ∀ width bytes maximum, width ≤ 64 → (count - 1) * width ≤ 8 * bytes.length →
      deltaMaximum logicalType = .ok maximum → sum width bytes maximum = sum' width bytes maximum) :
    unpackDelta count logicalType sum = unpackDelta count logicalType sum' := by
  unfold unpackDelta
  split_ifs
  · rfl
  apply unpackHeader_bind_congr
  intro width bytes hw hlen
  cases hmax : deltaMaximum logicalType with
  | error e => rfl
  | ok maximum =>
    dsimp only
    rw [ok_bind, ok_bind, h width bytes maximum hw hlen hmax]

theorem ofInt_add_toNat (a : ℤ) (b : UInt64) : ofInt (a + b.toNat) = ofInt a + b := by
  have hb : ofInt b.toNat = b := by
    apply UInt64.toNat_inj.mp
    have := b.toNat_lt
    rw [ofInt, toNat_ofNat']
    omega
  rw [ofInt_add, hb]

theorem toNat_le_of_mem_unpacked (hw : width ≤ 64) {start : ℕ} {v : UInt64}
    (h : v ∈ unpacked width bytes start count) : (v.toNat : ℤ) ≤ maskOf width := by
  obtain ⟨i, -, rfl⟩ := mem_map.mp h
  have hlt := field_lt bytes ((start + i) * width) width
  have hmod := Nat.mod_le (field bytes ((start + i) * width) width) (2 ^ 64)
  rw [maskOf, toNat_widthMask hw, toNat_ofNat']
  omega

theorem readTimes_new (hw : width ≤ 64) :
    (BitReader.new bytes).readTimes width count = unpacked width bytes 0 count := by
  have hat := BitReader.at_new bytes
  rw [← zero_mul width] at hat
  exact hat.readTimes hw count

theorem Destination.lift_eq_ok {kind : String} {value : ℤ} {bits : UInt64}
    (h : destination.lift kind value = .ok bits) :
    destination.least ≤ value ∧ ofInt value = bits := by
  unfold lift at h
  split_ifs at h with hfits
  exact ⟨hfits.1, ok.inj h⟩

theorem Destination.addBase_eq_ok {base : ℤ} {v : UInt64} (h : destination.least ≤ base + v.toNat)
    (h' : base + v.toNat ≤ destination.greatest) :
    destination.addBase base v = .ok (ofInt base + v) := by
  have hfits : -2 ^ 127 ≤ base + v.toNat ∧ base + v.toNat < 2 ^ 127 := by
    cases destination <;> simp only [least, greatest] at h h' <;> omega
  rw [addBase, checkedAdd, if_pos hfits, ← ofInt_add_toNat]
  exact if_pos ⟨h, h'⟩

theorem unpackTypedInto_eq (avx2 : Bool) (base : ℤ) :
    unpackTypedInto avx2 destination count base = readInto destination count base := by
  apply unpackHeader_bind_congr
  intro width bytes hw hlen
  dsimp only
  rw [readTimes_new hw, forEachUnpackedGroup_eq avx2 hw hlen]
  have hsums (h : destination.least ≤ base ∧ base + maskOf width ≤ destination.greatest) :
      (unpacked width bytes 0 count).mapM (destination.addBase base) =
        .ok ((unpacked width bytes 0 count).map (ofInt base + ·)) := by
    rw [mapM_eq_ok, forall₂_map_right_iff, forall₂_same]
    intro v hv
    have hle := toNat_le_of_mem_unpacked hw hv
    exact Destination.addBase_eq_ok (by omega) (by omega)
  split_ifs with hfits hwhole
  · rw [hsums ⟨hfits.1, hfits.2.1⟩, unpackWhole_eq avx2 hw hlen]
  · rw [hsums ⟨hfits.1, hfits.2.1⟩]
    rfl
  · rfl

section Sums

variable {deltas : List UInt64} {current maximum mask : ℤ}

/-- The deltas of a list leave room for each other below the maximum. -/
structure Room (mask maximum current : ℤ) (deltas : List UInt64) : Prop where
  le : ∀ delta ∈ deltas, (delta.toNat : ℤ) ≤ mask
  sum : current + mask * deltas.length ≤ maximum

theorem Room.tail {delta : UInt64} (h : Room mask maximum current (delta :: deltas)) :
    current + delta.toNat ≤ maximum ∧ Room mask maximum (current + delta.toNat) deltas := by
  obtain ⟨hle, hsum⟩ := h
  rw [forall_mem_cons] at hle
  rw [length_cons, Nat.cast_succ, mul_add_one] at hsum
  have hrest : 0 ≤ mask * deltas.length := by
    have : 0 ≤ mask := (Int.natCast_nonneg _).trans hle.1
    positivity
  exact ⟨by omega, hle.2, by omega⟩

theorem sumEach_addDelta {σ : Type} (emit : σ → ℤ → Except String σ) (s : σ)
    (hcurrent : -2 ^ 127 ≤ current) (hmax : maximum < 2 ^ 127)
    (h : Room mask maximum current deltas) :
    sumEach (addDelta maximum) emit current s deltas =
      sumEach (fun current delta => .ok (current + delta.toNat)) emit current s deltas := by
  induction deltas generalizing current s with
  | nil => rfl
  | cons delta deltas ih =>
    obtain ⟨hle, hrest⟩ := h.tail
    have hadd : addDelta maximum current delta = .ok (current + delta.toNat) := by
      rw [addDelta, checkedAdd, if_pos (by omega)]
      simp [orReason, Option.filter, hle]
    simp only [sumEach, hadd, ok_bind, ih _ (show -2 ^ 127 ≤ current + _ by omega) hrest]

theorem sumEach_push (out : List UInt64) (hcurrent : destination.least ≤ current)
    (hmax : maximum ≤ destination.greatest) (h : Room mask maximum current deltas) :
    sumEach (fun current delta => .ok (current + delta.toNat)) destination.push current
        (out ++ [ofInt current]) deltas =
      .ok (out ++ deltas.scanl (· + ·) (ofInt current)) := by
  induction deltas generalizing current out with
  | nil => rfl
  | cons delta deltas ih =>
    obtain ⟨hle, hrest⟩ := h.tail
    have hnext := ih (out ++ [ofInt current]) (by omega) hrest
    have hpush : destination.push (out ++ [ofInt current]) (current + delta.toNat) =
        .ok (out ++ [ofInt current] ++ [ofInt (current + delta.toNat)]) := by
      rw [Destination.push, Destination.lift, if_pos ⟨by omega, hle.trans hmax⟩]
      rfl
    rw [sumEach, ok_bind, hpush, ok_bind, hnext, ofInt_add_toNat, scanl_cons]
    simp

theorem room_of_bounded {first : ℤ} (hw : width ≤ 64) (h : bounded width count first maximum) :
    Room (maskOf width) maximum first (unpacked width bytes 0 count) :=
  ⟨fun _ => toNat_le_of_mem_unpacked hw, by rw [length_unpacked]; exact h.2⟩

theorem deltaMaximum_lt {logicalType : LogicalType} (h : deltaMaximum logicalType = .ok maximum) :
    maximum < 2 ^ 127 := by
  cases logicalType <;> cases h <;> decide

end Sums

theorem unpackDeltaEach_eq (avx2 : Bool) {σ : Type} (emit : σ → ℤ → Except String σ) (s : σ)
    (first : BitVec 128) (logicalType : LogicalType) :
    unpackDeltaEach avx2 emit s count first.toInt logicalType =
      readDeltaEach emit s count first.toInt logicalType := by
  apply unpackDelta_congr
  intro width bytes maximum hw hlen hmax
  rw [readTimes_new hw, forEachUnpackedGroup_eq avx2 hw hlen]
  apply bind_congr
  intro s
  rw [ok_bind]
  by_cases hb : bounded width (count - 1) first.toInt maximum
  · have hfirst : -2 ^ 127 ≤ first.toInt := by
      have := first.le_two_mul_toInt
      norm_num at this ⊢
      omega
    rw [if_pos hb, sumEach_addDelta emit s hfirst (deltaMaximum_lt hmax) (room_of_bounded hw hb)]
  · rw [if_neg hb]

theorem unpackDeltaInto_eq (avx2 : Bool) (first : ℤ) :
    unpackDeltaInto avx2 destination count first destination.logicalType =
      readDeltaEach destination.push [] count first destination.logicalType := by
  apply unpackDelta_congr
  intro width bytes maximum hw hlen hmax
  obtain rfl : destination.greatest = maximum := by
    cases destination <;> exact ok.inj hmax
  rw [readTimes_new hw, forEachUnpackedGroup_eq avx2 hw hlen]
  cases hlift : destination.lift "delta" first with
  | error e => rw [Destination.push, hlift, error_bind, error_bind, error_bind]
  | ok lifted =>
    have hpush : destination.push [] first = .ok [lifted] := by
      rw [Destination.push, hlift]
      rfl
    rw [ok_bind, ok_bind, hpush, ok_bind]
    by_cases hb : bounded width (count - 1) first destination.greatest
    · obtain ⟨hfirst, rfl⟩ := Destination.lift_eq_ok hlift
      have hroom := @room_of_bounded width _ bytes _ _ hw hb
      have hleast : -2 ^ 127 ≤ destination.least := by
        cases destination <;> decide
      rw [if_pos hb, sumEach_addDelta _ _ (hleast.trans hfirst) (deltaMaximum_lt hmax) hroom]
      exact (sumEach_push [] hfirst le_rfl hroom).symm
    · rw [if_neg hb]

theorem unpackInto_eq (avx2 : Bool) (out : List UInt64) :
    unpackInto avx2 count out = do
      let (width, bytes) ← unpackHeader count
      return out ++ (BitReader.new bytes).readTimes width count := by
  apply unpackHeader_bind_congr
  intro width bytes hw hlen
  dsimp only
  rw [readTimes_new hw, unpackValues_eq avx2 hw hlen]
  rfl

theorem group_bytes_mul (first width : ℕ) :
    first * group * width = 8 * (first * (group * width / 8)) := by
  have h8 : group * width / 8 = 8 * width := by
    unfold group
    omega
  rw [h8]
  unfold group
  ring

theorem take_drop_unpacked {start i : ℕ} (h : (i + 1) * group ≤ count) :
    ((unpacked width bytes start count).drop (i * group)).take group =
      unpacked width bytes (start + i * group) group := by
  rw [add_one_mul] at h
  rw [drop_unpacked, take_unpacked _ (by omega)]

section Selected

variable {f g : ℕ → List UInt64} {words words' : List UInt64}

theorem selectedGroups_append : selectedGroups f (words ++ words') =
    selectedGroups f words ++ selectedGroups (fun i => f (i + words.length)) words' := by
  rw [selectedGroups, mapIdx_append, filter_append]
  rfl

theorem selectedGroups_congr (h : ∀ i < words.length, f i = g i) :
    selectedGroups f words = selectedGroups g words := by
  have hgroups : words.mapIdx (fun i word => (f i, word)) = words.mapIdx fun i word => (g i, word) :=
    mapIdx_eq_mapIdx_iff.mpr fun i hi => congrArg (·, words[i]) (h i hi)
  rw [selectedGroups, hgroups, selectedGroups]

theorem selectedGroups_of_ne (h : ∀ word ∈ words, word ≠ 0) :
    selectedGroups f words = words.mapIdx fun i word => (f i, word) := by
  apply filter_eq_self.mpr
  intro pair hpair
  obtain ⟨i, hi, rfl⟩ := mem_mapIdx.mp hpair
  exact decide_eq_true (h _ (getElem_mem hi))

end Selected

theorem selectedRuns_eq (avx2 : Bool) (hw : width ≤ 64) {first : ℕ} {words : List UInt64}
    (h : (first + words.length) * group * width ≤ 8 * bytes.length) :
    selectedRuns avx2 width bytes first words =
      .ok (selectedGroups (fun i => unpacked width bytes ((first + i) * group) group) words) := by
  fun_induction selectedRuns avx2 width bytes first words with
  | case1 => rfl
  | case2 first words ih =>
    rw [length_cons, add_comm _ 1, ← add_assoc] at h
    rw [ih h, ← singleton_append, selectedGroups_append]
    simp only [add_assoc, add_comm 1]
    rfl
  | case3 first word words hne run start ih =>
    have hsplit : word :: words = run ++ words.dropWhile (· ≠ 0) :=
      congrArg (word :: ·) takeWhile_append_dropWhile.symm
    have hselected : ∀ w ∈ run, w ≠ 0 := by
      rw [forall_mem_cons]
      exact ⟨hne, fun w hmem => of_decide_eq_true (all_eq_true.mp all_takeWhile w hmem)⟩
    rw [hsplit, length_append, ← add_assoc] at h
    have hvalues : unpackWholeGroups avx2 width start run.length =
        .ok (unpacked width bytes (first * group) (run.length * group)) := by
      rw [← unpacked_drop (group_bytes_mul first width)]
      apply unpackWholeGroups_eq avx2 hw
      rw [length_drop, Nat.mul_sub, ← group_bytes_mul]
      rw [add_mul, add_mul, add_mul, add_mul] at h
      omega
    rw [hvalues, ok_bind, ih h, ok_bind, hsplit, selectedGroups_append,
      ← selectedGroups_of_ne hselected]
    refine congrArg ok (congrArg₂ _ (selectedGroups_congr fun i hi => ?_) ?_)
    · rw [take_drop_unpacked (Nat.mul_le_mul_right group hi), add_mul]
    · simp only [add_assoc, add_comm run.length]

theorem forEachSelectedGroup_eq (avx2 : Bool) (words : List UInt64) :
    forEachSelectedGroup avx2 count words = readSelected count words := by
  apply unpackHeader_bind_congr
  intro width bytes hw hlen
  dsimp only
  split
  · rfl
  rename_i hshort
  rw [not_lt] at hshort
  have hle : count / group * group ≤ count := Nat.div_mul_le_self _ _
  have hwhole : (words.take (count / group)).length = count / group :=
    length_take_of_le ((Nat.div_le_div_right (by unfold group; omega)).trans hshort)
  have hruns : selectedRuns avx2 width bytes 0 (words.take (count / group)) =
      .ok (selectedGroups (fun i => ((unpacked width bytes 0 count).drop (i * group)).take group)
        (words.take (count / group))) := by
    rw [selectedRuns_eq avx2 hw]
    · refine congrArg ok (selectedGroups_congr fun i hi => ?_)
      rw [hwhole] at hi
      rw [take_drop_unpacked ((Nat.mul_le_mul_right group hi).trans hle), zero_add, zero_add]
    · rw [hwhole, zero_add]
      exact (Nat.mul_le_mul_right width hle).trans hlen
  rw [hruns, readTimes_new hw, readTimes_new hw, unpacked_drop (group_bytes_mul _ width)]
  by_cases hrest : count - count / group * group = 0
  · have hgroups : (count + group - 1) / group = count / group := by
      unfold group at hrest ⊢
      omega
    rw [hgroups, hrest]
    rfl
  · have hgroups : (count + group - 1) / group = count / group + 1 := by
      unfold group at hrest ⊢
      omega
    have hlast : ((unpacked width bytes 0 count).drop (count / group * group)).take group =
        unpacked width bytes (count / group * group) (count - count / group * group) := by
      rw [drop_unpacked, zero_add, take_of_length_le]
      rw [length_unpacked]
      unfold group
      omega
    rw [hgroups] at hshort ⊢
    rw [take_add_one, getElem?_eq_getElem hshort, selectedGroups_append, hwhole,
      getD_eq_getElem _ _ hshort]
    by_cases hword : words[count / group] = 0
    · simp [selectedGroups, hword]
      rfl
    · simp [selectedGroups, hword, hlast, Nat.pos_of_ne_zero hrest]
      rfl

/-- Every way a packed block is unpacked gives what reading its values one by one gives. -/
theorem unpackers_read_one_by_one (avx2 : Bool) (count : ℕ) :
    (unpack avx2 count = do
      let (width, bytes) ← unpackHeader count
      return (BitReader.new bytes).readTimes width count) ∧
    (∀ base : BitVec 128,
      unpackSignedInto avx2 count base.toInt = readInto .signed count base.toInt ∧
        unpackUnsignedInto avx2 count base.toInt = readInto .unsigned count base.toInt) ∧
    (∀ (σ : Type) (emit : σ → ℤ → Except String σ) s (first : BitVec 128) logicalType,
      unpackDeltaEach avx2 emit s count first.toInt logicalType =
        readDeltaEach emit s count first.toInt logicalType) ∧
    ∀ destination (first : BitVec 128),
      unpackDeltaInto avx2 destination count first.toInt destination.logicalType =
        readDeltaEach destination.push [] count first.toInt destination.logicalType := by
  refine ⟨unpackHeader_bind_congr fun width bytes hw hlen => ?_, fun _ => ?_,
    fun _ emit s => unpackDeltaEach_eq avx2 emit s, fun _ _ => unpackDeltaInto_eq avx2 _⟩
  · dsimp only
    rw [readTimes_new hw, unpackValues_eq avx2 hw hlen]
    rfl
  · exact ⟨unpackTypedInto_eq avx2 _, unpackTypedInto_eq avx2 _⟩

end Spec

end Pintail.Blocks
