import Pintail.Probe.Migration

/-! # Values held through a change of declaration

What a source column of a given declaration can hold, and which of its values the refreshed
declaration holds as they are. The judgement of the two declarations is compared with that: it is
sound for every family but text, whose capacity it compares in bytes alone.
-/

namespace Pintail.Probe

open List

/-- The character sets of the source: the bytes a character takes, where the set has it. -/
structure CharacterSets where
  width : Option (List Char) → Char → Option ℕ
  inhabited : ∀ set, ∃ c n, width set c = some n
  width_le_utf8Size : ∀ {set c n}, set ∈ narrowSets → width (some set) c = some n → n ≤ c.utf8Size

namespace CharacterSets

variable (sets : CharacterSets) (set : Option (List Char))

def Within (text : List Char) : Prop := ∀ c ∈ text, ∃ n, sets.width set c = some n

def bytes (text : List Char) : ℕ := (text.map fun c => (sets.width set c).getD 0).sum

variable {sets set} {k n : ℕ} {c : Char}

@[simp] theorem bytes_nil : sets.bytes set [] = 0 := rfl

@[simp] theorem bytes_cons (c : Char) (text : List Char) :
    sets.bytes set (c :: text) = (sets.width set c).getD 0 + sets.bytes set text := by
  simp [bytes]

theorem bytes_replicate (k : ℕ) (c : Char) :
    sets.bytes set (replicate k c) = k * (sets.width set c).getD 0 := by
  simp [bytes]

theorem within_replicate (h : sets.width set c = some n) : sets.Within set (replicate k c) := by
  intro d hd
  exact ⟨n, (eq_of_mem_replicate hd) ▸ h⟩

variable {text : List Char}

theorem width_le_bytes (hc : c ∈ text) (h : sets.width set c = some n) :
    n ≤ sets.bytes set text := by
  have hmem : (sets.width set c).getD 0 ∈ text.map fun c => (sets.width set c).getD 0 :=
    mem_map_of_mem hc
  rw [h] at hmem
  exact single_le_sum (fun _ _ => Nat.zero_le _) n hmem

theorem bytes_le_utf8Bytes {name : List Char} (hn : name ∈ narrowSets)
    (h : sets.Within (some name) text) : sets.bytes (some name) text ≤ utf8Bytes text := by
  apply sum_le_sum
  intro c hc
  obtain ⟨n, hw⟩ := h c hc
  rw [hw]
  exact sets.width_le_utf8Size hn hw

theorem exists_mul_le_bytes (hin : sets.Within set text) (hne : text ≠ []) :
    ∃ c n, sets.width set c = some n ∧ text.length * n ≤ sets.bytes set text := by
  obtain ⟨c, hc, hmin⟩ := text.toFinset.exists_min_image (fun c => (sets.width set c).getD 0)
    (toFinset_nonempty_iff text |>.mpr hne)
  obtain ⟨n, hn⟩ := hin c (mem_toFinset.mp hc)
  refine ⟨c, n, hn, ?_⟩
  have hle : ∀ w ∈ text.map fun c => (sets.width set c).getD 0, n ≤ w := by
    intro w hw
    obtain ⟨d, hd, rfl⟩ := mem_map.mp hw
    have := hmin d (mem_toFinset.mpr hd)
    rwa [hn] at this
  have hcard := card_nsmul_le_sum _ n hle
  rwa [length_map] at hcard

theorem mul_bytes_le {limit : ℕ} (h : ∀ c ∈ text, k * (sets.width set c).getD 0 ≤ limit) :
    k * sets.bytes set text ≤ text.length * limit := by
  induction text with
  | nil => simp
  | cons c text ih =>
    have hc := h c mem_cons_self
    have ht := ih fun d hd => h d (mem_cons_of_mem c hd)
    rw [bytes_cons, length_cons]
    linarith

end CharacterSets

/-- What a text declaration counts: characters, or bytes in its character set. -/
inductive TextLimit
  | characters (count : ℕ)
  | bytes (count : ℕ)

end Pintail.Probe

namespace Pintail.SourceColumn

open Probe

variable (sets : CharacterSets) (column : SourceColumn)

def set : Option (List Char) := column.characterSet.map lowercase

def textLimit : TextLimit :=
  match sizedBytes column.dataType with
  | some bytes => .bytes bytes
  | none => .characters (column.numbers.headD 0)

def HoldsText (text : List Char) : Prop :=
  sets.Within column.set text ∧
    match column.textLimit with
    | .characters count => text.length ≤ count
    | .bytes count => sets.bytes column.set text ≤ count

end Pintail.SourceColumn

namespace Pintail.Probe

/-- Every text that one declaration holds is held by the other, read off the declarations: no
character is lost, and no text grows over the limit, each in the unit of its own declaration. -/
def KeepsText (sets : CharacterSets) (previous refreshed : SourceColumn) : Prop :=
  (∀ c n, sets.width previous.set c = some n →
    (match previous.textLimit with
      | .characters count => 0 < count
      | .bytes count => n ≤ count) →
    ∃ n', sets.width refreshed.set c = some n') ∧
  match previous.textLimit, refreshed.textLimit with
  | .characters count, .characters count' => count ≤ count'
  | .bytes count, .characters count' =>
    ∀ c n, sets.width previous.set c = some n → count < (count' + 1) * n
  | .characters count, .bytes count' =>
    ∀ c n n', sets.width previous.set c = some n → sets.width refreshed.set c = some n' →
      count * n' ≤ count'
  | .bytes count, .bytes count' =>
    ∀ text, sets.Within previous.set text → sets.bytes previous.set text ≤ count →
      sets.bytes refreshed.set text ≤ count'

section Text

variable {sets : CharacterSets} {previous refreshed : SourceColumn} {text : List Char}

theorem KeepsText.within (h : KeepsText sets previous refreshed)
    (ht : previous.HoldsText sets text) : sets.Within refreshed.set text := by
  obtain ⟨hin, hlimit⟩ := ht
  intro c hc
  obtain ⟨n, hn⟩ := hin c hc
  apply h.1 c n hn
  generalize previous.textLimit = limit at hlimit ⊢
  cases limit with
  | characters count => exact (List.length_pos_of_mem hc).trans_le hlimit
  | bytes count => exact (CharacterSets.width_le_bytes hc hn).trans hlimit

theorem KeepsText.holdsText (h : KeepsText sets previous refreshed)
    (ht : previous.HoldsText sets text) : refreshed.HoldsText sets text := by
  have hin' := h.within ht
  refine ⟨hin', ?_⟩
  obtain ⟨hin, hlimit⟩ := ht
  have hkeep := h.2
  generalize previous.textLimit = limit, refreshed.textLimit = limit' at hlimit hkeep ⊢
  cases limit with
  | characters count =>
    cases limit' with
    | characters count' => exact Nat.le_trans hlimit hkeep
    | bytes count' =>
      rcases Nat.eq_zero_or_pos text.length with hzero | hpos
      · rw [List.length_eq_zero_iff.mp hzero]
        exact Nat.zero_le _
      · have hmul : count * sets.bytes refreshed.set text ≤ text.length * count' := by
          apply CharacterSets.mul_bytes_le
          intro c hc
          obtain ⟨n, hn⟩ := hin c hc
          obtain ⟨n', hn'⟩ := hin' c hc
          rw [hn']
          exact hkeep c n n' hn hn'
        have hle : count * sets.bytes refreshed.set text ≤ count * count' :=
          hmul.trans (Nat.mul_le_mul_right _ hlimit)
        exact Nat.le_of_mul_le_mul_left hle (hpos.trans_le hlimit)
  | bytes count =>
    cases limit' with
    | characters count' =>
      by_contra hlong
      have hlt : count' + 1 ≤ text.length := Nat.lt_of_not_le hlong
      obtain ⟨c, n, hn, hle⟩ := CharacterSets.exists_mul_le_bytes hin
        (List.ne_nil_of_length_pos (by omega))
      have hcount := hkeep c n hn
      have hmul := Nat.mul_le_mul_right n hlt
      omega
    | bytes count' => exact hkeep text hin hlimit

/-- The condition on the declarations says exactly that every text held is still held. -/
theorem keepsText_iff : KeepsText sets previous refreshed ↔
    ∀ text, previous.HoldsText sets text → refreshed.HoldsText sets text := by
  constructor
  · intro h text ht
    exact h.holdsText ht
  · unfold KeepsText SourceColumn.HoldsText
    generalize previous.textLimit = limit, refreshed.textLimit = limit'
    intro h
    constructor
    · intro c n hn hlimit
      refine (h [c] ⟨CharacterSets.within_replicate (k := 1) hn, ?_⟩).1 c List.mem_cons_self
      cases limit with
      | characters count => exact hlimit
      | bytes count => simpa [hn] using hlimit
    · cases limit with
      | characters count =>
        have hheld {c : Char} {n : ℕ} (hn : sets.width previous.set c = some n) :=
          (h (List.replicate count c)
            ⟨CharacterSets.within_replicate hn, (List.length_replicate ..).le⟩).2
        cases limit' with
        | characters count' =>
          obtain ⟨c, n, hn⟩ := sets.inhabited previous.set
          simpa using hheld hn
        | bytes count' =>
          intro c n n' hn hn'
          simpa [CharacterSets.bytes_replicate, hn'] using hheld hn
      | bytes count =>
        cases limit' with
        | characters count' =>
          intro c n hn
          by_contra hle
          have hlong := (h (List.replicate (count' + 1) c) ⟨CharacterSets.within_replicate hn, by
            simpa [CharacterSets.bytes_replicate, hn] using hle⟩).2
          simp at hlong
        | bytes count' =>
          intro text hin hle
          exact (h text ⟨hin, hle⟩).2

end Text

/-- A value of a source column. Where the checks do not read it, its stored text comes along. -/
inductive SourceValue
  | null
  | integer (value : ℤ)
  | decimal (value : ℚ) (stored : String)
  /-- A date and time, or a time, in microseconds. -/
  | temporal (micros : ℤ) (stored : String)
  | text (value : String)
  | binary (value : List UInt8)
  | label (value : String)
  /-- The members of a `SET` value, in any order. -/
  | members (chosen : List String)
  | plain (stored : Value)

def SourceValue.stored (family : Family) : SourceValue → Value
  | .null => .null
  | .integer value =>
    if family = .signedInteger then .int64 (Int64.ofInt value)
    else .uint64 (UInt64.ofNat value.toNat)
  | .decimal _ stored | .temporal _ stored => .utf8 stored
  | .text value | .label value => .utf8 value
  | .binary value => .binary value
  | .members chosen => .utf8 (String.intercalate "," chosen)
  | .plain stored => stored

end Pintail.Probe

namespace Pintail.SourceColumn

open Probe

variable (sets : CharacterSets) (column : SourceColumn)

def HoldsInteger (value : ℤ) : Prop :=
  match column.family, column.declaration.capacity with
  | .signedInteger, some bits => -2 ^ (bits - 1) ≤ value ∧ value < 2 ^ (bits - 1)
  | .unsignedInteger, some bits | .bit, some bits => 0 ≤ value ∧ value < 2 ^ bits
  | _, _ => False

def precision : ℕ := column.numbers.headD 10

def scale : ℕ := column.numbers.getD 1 0

def HoldsDecimal (value : ℚ) : Prop :=
  column.family = .decimal ∧ (column.declaration.unsigned = true → 0 ≤ value) ∧
    ∃ units : ℤ, |units| < 10 ^ column.precision ∧ value * 10 ^ column.scale = units

def HoldsTemporal (micros : ℤ) : Prop :=
  column.family ∈ [.dateTime, .timestamp, .time] ∧
    ∃ digits, column.declaration.capacity = some digits ∧ 10 ^ (6 - digits) ∣ micros

def HoldsBinary (value : List UInt8) : Prop :=
  column.family = .binary ∧ ∃ bytes, column.declaration.capacity = some bytes ∧
    value.length ≤ bytes

/-- The members a `SET` declares, and its value as text: in the order of the declaration. -/
def setMembers : List String := (declarationLabels column.mysqlColumnType "set").getD []

def rendered (chosen : List String) : String :=
  String.intercalate "," (column.setMembers.filter (· ∈ chosen))

def Holds : SourceValue → Prop
  | .null => column.nullable = true
  | .integer value => column.HoldsInteger value
  | .decimal value _ => column.HoldsDecimal value
  | .temporal micros _ => column.HoldsTemporal micros
  | .text value => column.family = .text ∧ column.HoldsText sets value.toList
  | .binary value => column.HoldsBinary value
  | .label value => column.family = .enumeration ∧
    ∃ labels, declarationLabels column.mysqlColumnType "enum" = some labels ∧ value ∈ labels
  | .members chosen => column.family = .selection ∧
    (∃ members, declarationLabels column.mysqlColumnType "set" = some members) ∧
    chosen ⊆ column.setMembers
  | .plain _ => ∃ dataType, column.family ∈ [.float, .double, .date, .year, .json, .other dataType]

def HoldsUnchanged (previous refreshed : SourceColumn) (value : SourceValue) : Prop :=
  refreshed.Holds sets value ∧
    ∀ chosen, value = .members chosen → refreshed.rendered chosen = previous.rendered chosen

structure WellFormed : Prop where
  sized : column.family = .text ∨ column.family = .binary → column.stringBytes ≠ none
  scale_le : column.family = .decimal → column.scale ≤ column.precision
  members : column.setMembers.Nodup

end Pintail.SourceColumn
