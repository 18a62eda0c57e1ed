import Pintail.Exec.Collation
import Pintail.Types.Decimal
import Pintail.Types.TimeText
import Pintail.Types.Value

/-! # Values under a sort key

A sort compares two values by a rule that depends on the pair: members of an `ENUM` by index, a
member and a text by label, and texts as or decimals only where both read as one. Each rule
orders the values it is for. Values under different rules in one column may have no order at all.
-/

namespace Pintail

open Std Words Value Option Collation OrientedCmp

theorem transCmp_of_eq {α β : Type*} {cmp : α → α → Ordering} (cmp' : β → β → Ordering)
    [TransCmp cmp'] (f : α → β) (h : ∀ a b, cmp a b = cmp' (f a) (f b)) : TransCmp cmp where
  eq_swap := by
    simp only [h]
    exact eq_swap
  isLE_trans := by
    simp only [h]
    exact TransCmp.isLE_trans

def orderDirection (ordering : Ordering) (ascending : Bool) : Ordering :=
  if ascending then ordering else ordering.swap

theorem orderDirection_eq_eq {ordering : Ordering} {ascending : Bool} :
    orderDirection ordering ascending = .eq ↔ ordering = .eq := by
  cases ascending <;> cases ordering <;> decide

instance {α : Type*} {cmp : α → α → Ordering} [TransCmp cmp] (ascending : Bool) :
    TransCmp fun a b => orderDirection (cmp a b) ascending := by
  cases ascending with
  | true => assumption
  | false =>
    exact transCmp_of_eq (fun a b => cmp b a) id fun _ _ => (@eq_swap _ cmp _ _ _).symm

abbrev TextOrder := String → String → Ordering

def formatDecimalScaled (value : ℤ) (scale : UInt8) : String :=
  if scale = 0 then toString value
  else
    let divisor := 10 ^ scale.toNat
    (if value < 0 then "-" else "") ++ toString (value.natAbs / divisor) ++ "." ++
      String.ofList (padded scale.toNat (value.natAbs % divisor))

/-- The value at its scale, whatever the label shows. -/
def DecimalQuotient.canonical (average : DecimalQuotient) : String :=
  if average.count = 0 then average.label
  else
    (divDecimalRoundHalfUp average.units average.count.toNat).elim average.label
      (formatDecimalScaled · average.scale)

/-- A sign, the digits of the integer without leading zeros, and those of the fraction. -/
structure DecimalParts where
  negative : Bool
  integer : List Char
  fraction : List Char

def decimalParts (text : String) : Option DecimalParts :=
  let value := text.toList
  let unsigned := if value.head? = some '-' then value.tail else value
  let unsigned := if unsigned.head? = some '+' then unsigned.tail else unsigned
  let integer := unsigned.takeWhile (· ≠ '.')
  let fraction := (unsigned.dropWhile (· ≠ '.')).tail
  if integer.isEmpty || !integer.all Char.isDigit || !fraction.all Char.isDigit then none
  else
    let integer := integer.dropWhile (· = '0')
    let integer := if integer.isEmpty then ['0'] else integer
    let zero := integer = ['0'] && fraction.all (· = '0')
    some ⟨value.head? = some '-' && !zero, integer, fraction⟩

namespace DecimalParts

def compareMagnitude : DecimalParts → DecimalParts → Ordering :=
  compareLex (compareOn fun parts => parts.integer.length)
    (compareLex (compareOn integer) fun left right =>
      comparePadded '0' left.fraction right.fraction)

instance : TransCmp compareMagnitude :=
  have : TransCmp fun left right : DecimalParts =>
      comparePadded '0' left.fraction right.fraction := transCmp_of_eq _ fraction fun _ _ => rfl
  inferInstanceAs (TransCmp (compareLex _ _))

instance : Ord DecimalParts where
  compare left right :=
    if left.negative ≠ right.negative then if left.negative then .lt else .gt
    else if left.negative then (compareMagnitude left right).swap else compareMagnitude left right

instance : TransOrd DecimalParts where
  eq_swap {a b} := by
    have h : compareMagnitude a b = (compareMagnitude b a).swap := eq_swap
    cases ha : a.negative <;> cases hb : b.negative <;> simp [compare, ha, hb, h]
  isLE_trans {a b c} hab hbc := by
    cases ha : a.negative <;> cases hb : b.negative <;> cases hc : c.negative <;>
      simp [compare, ha, hb, hc] at hab hbc ⊢
    · exact TransCmp.isLE_trans hab hbc
    · exact TransCmp.isGE_trans hab hbc

end DecimalParts

namespace Value

def text : Value → Option String
  | utf8 value | enum _ value => some value
  | decimalAverage average => some average.label
  | _ => none

/-- The place of a variant; a decimal average stands with the texts. -/
def rank : Value → ℕ
  | null => 0
  | boolean _ => 1
  | int64 _ => 2
  | uint64 _ => 3
  | float64 _ => 4
  | utf8 _ | decimalAverage _ => 5
  | binary _ => 6
  | enum _ _ => 7

def number : Value → ℤ
  | boolean value => value.toNat
  | int64 value => value.toInt
  | uint64 value | enum value _ => value.toNat
  -- `total_cmp`: with the sign bit set, larger bits are smaller floats
  | float64 bits => if bits.toNat < 2 ^ 63 then bits.toNat else 2 ^ 63 - 1 - bits.toNat
  | _ => 0

def bytes : Value → List UInt8
  | binary value => value
  | _ => []

/-- Values by variant and then by what they hold, texts by an order of their own. -/
def cmpBy (texts : Value → Value → Ordering) : Value → Value → Ordering :=
  compareLex (compareOn rank)
    (compareLex (compareOn number) (compareLex texts (compareOn bytes)))

instance {texts : Value → Value → Ordering} [TransCmp texts] : TransCmp (cmpBy texts) :=
  inferInstanceAs (TransCmp (compareLex _ _))

def cmp : Value → Value → Ordering := cmpBy (compareOn fun value => value.text.getD "")

def sortText : Value → String
  | decimalAverage average => average.canonical
  | value => value.text.getD ""

end Value

namespace Exec

inductive OrderValueKind
  | ordinary | decimal | time

structure BoundOrderKey where
  ascending : Bool
  nullsFirst : Bool
  valueKind : OrderValueKind
  /-- What the name of the key's own collation stands for. -/
  collation : Option Collation

def compareParsed {β : Type} [Ord β] (parse : String → Option β) (left right : String) :
    Option Ordering := do
  return compare (← parse left) (← parse right)

def compareDecimalText : String → String → Option Ordering := compareParsed decimalParts

namespace OrderValueKind

def parsed : OrderValueKind → String → String → Option Ordering
  | ordinary => fun _ _ => none
  | decimal => compareDecimalText
  | time => compareParsed parseTimeMicros

def reads (text : String) : OrderValueKind → Bool
  | ordinary => false
  | decimal => (decimalParts text).isSome
  | time => (parseTimeMicros text).isSome

def order : OrderValueKind → TextOrder
  | ordinary => compare
  | decimal => compareOn decimalParts
  | time => compareOn parseTimeMicros

end OrderValueKind

def compareSortValues (collate : Collation → TextOrder)
    (left right : Value) (key : BoundOrderKey) (collation : Collation) : Ordering :=
  let compareUtf8Mysql := collate (key.collation.getD collation)
  match left, right with
  | .null, .null => .eq
  | .null, _ => if key.nullsFirst then .lt else .gt
  | _, .null => if key.nullsFirst then .gt else .lt
  | .enum _ label, .utf8 text => orderDirection (compareUtf8Mysql label text) key.ascending
  | .utf8 text, .enum _ label => orderDirection (compareUtf8Mysql text label) key.ascending
  | .enum _ _, .enum _ _ => orderDirection (left.cmp right) key.ascending
  | left, right =>
    if left.text.isSome && right.text.isSome then
      let (left, right) := (left.sortText, right.sortText)
      orderDirection ((key.valueKind.parsed left right).getD (compareUtf8Mysql left right))
        key.ascending
    else orderDirection (left.cmp right) key.ascending

/-- What orders the values with a text: their index, or the text as it is read or as it stands. -/
inductive Rule
  | index
  | text (reads : Bool)
  deriving DecidableEq

def BoundOrderKey.rule (key : BoundOrderKey) : Value → Option Rule
  | .enum _ _ => some .index
  | value => value.text.map fun _ => .text (key.valueKind.reads value.sortText)

variable {collate : Collation → TextOrder}
  {key : BoundOrderKey} {collation : Collation} {left right : Value}

namespace OrderValueKind

variable {kind : OrderValueKind} {left right text : String}

instance : TransCmp (kind.order) := by
  cases kind
  case ordinary => exact inferInstanceAs (TransCmp compare)
  all_goals exact inferInstanceAs (TransCmp (compareOn _))

theorem getD_parsed (ordering : Ordering) : (kind.parsed left right).getD ordering =
    if kind.reads left && kind.reads right then kind.order left right
    else ordering := by
  have h {β : Type} [Ord β] (parse : String → Option β) :
      (compareParsed parse left right).getD ordering =
        if (parse left).isSome && (parse right).isSome then compareOn parse left right
        else ordering := by
    unfold compareParsed compareOn
    cases parse left <;> cases parse right <;> rfl
  cases kind
  case ordinary => rfl
  all_goals exact h _

/-- A key that reads some text reads two texts differently. -/
theorem exists_lt (h : kind.reads text) : ∃ left right,
    kind.reads left ∧ kind.reads right ∧ kind.order left right = .lt := by
  cases kind with
  | ordinary => cases h
  | decimal => exact ⟨"1", "2", rfl, rfl, rfl⟩
  | time => refine ⟨"1:00", "2:00", ?_, ?_, ?_⟩ <;> decide +kernel

end OrderValueKind

/-- Nulls at their end, and the other values by variant and by an order of the texts. -/
def sortCmp (key : BoundOrderKey) (texts : TextOrder) : Value → Value → Ordering :=
  compareLex (compareOn fun value => if value ≠ .null then 1 else if key.nullsFirst then 0 else 2)
    fun left right => orderDirection
      (cmpBy (fun left right => texts left.sortText right.sortText) left right) key.ascending

instance {texts : TextOrder} [TransCmp texts] :
    TransCmp (sortCmp key texts) :=
  have : TransCmp fun left right : Value => texts left.sortText right.sortText :=
    transCmp_of_eq _ sortText fun _ _ => rfl
  inferInstanceAs (TransCmp (compareLex _ _))

theorem reads_of_rule {reads : Bool} (h : key.rule left = some (.text reads)) :
    key.valueKind.reads left.sortText = reads := by
  cases left <;> first | exact Rule.text.inj (some.inj h) | cases h

def Rule.compares (kind : OrderValueKind) (collate : TextOrder)
    (left right : String) : Rule → Ordering
  | index => compare left right
  | text _ => (kind.parsed left right).getD (collate left right)

/-- Values under one rule are compared by one order of their texts. -/
theorem exists_texts (collate : TextOrder) [TransCmp collate] (rule : Rule) :
    ∃ texts, TransCmp texts ∧ ∀ left right, key.rule left = some rule →
      key.rule right = some rule →
      rule.compares key.valueKind collate left.sortText right.sortText =
        texts left.sortText right.sortText := by
  rcases rule with _ | _ | _
  · exact ⟨compare, inferInstance, fun _ _ _ _ => rfl⟩
  · refine ⟨collate, inferInstance, fun left right hleft _ => ?_⟩
    rw [Rule.compares, OrderValueKind.getD_parsed, reads_of_rule hleft]
    rfl
  · refine ⟨key.valueKind.order, inferInstance, fun left right hleft hright => ?_⟩
    rw [Rule.compares, OrderValueKind.getD_parsed, reads_of_rule hleft, reads_of_rule hright]
    rfl

theorem compareSortValues_eq {texts : TextOrder} [TransCmp texts]
    (h : ∀ r ∈ key.rule left, ∀ r' ∈ key.rule right, r = r' ∧
      r.compares key.valueKind (collate (key.collation.getD collation)) left.sortText
        right.sortText = texts left.sortText right.sortText) :
    compareSortValues collate left right key collation = sortCmp key texts left right := by
  have hself (text : String) : texts text text = .eq := ReflCmp.compare_self
  cases left <;> cases right <;>
    simp_all [compareSortValues, sortCmp, compareLex, compareOn, Value.cmp, Value.cmpBy,
      rank, number, text, bytes, sortText, BoundOrderKey.rule,
      Rule.compares]
  all_goals cases key.nullsFirst <;> cases key.ascending <;> rfl

theorem compareSortValues_utf8 (left right : String) :
    compareSortValues collate (.utf8 left) (.utf8 right) key collation = orderDirection
      (if key.valueKind.reads left && key.valueKind.reads right then
        key.valueKind.order left right
      else collate (key.collation.getD collation) left right) key.ascending := by
  rw [← OrderValueKind.getD_parsed]
  rfl

section Flat

variable {K : Set (Option Rule)} {text : String}

theorem rule_utf8_mem {reads : Bool} (h : key.valueKind.reads text = reads)
    (hmem : some (.text reads) ∈ K) : key.rule (.utf8 text) ∈ K := by
  subst h
  exact hmem

variable (htrans : TransCmp fun left right : {value // key.rule value ∈ K} =>
    compareSortValues (fun _ _ _ => .eq) left right key collation)

include htrans

/-- A text ties with every member that shows it. -/
theorem index_not_mem (ht : key.rule (.utf8 text) ∈ K) : some .index ∉ K := by
  intro hi
  have heq := htrans.eq_trans (a := ⟨.enum 1 text, hi⟩) (b := ⟨.utf8 text, ht⟩)
    (c := ⟨.enum 2 text, hi⟩) (orderDirection_eq_eq.mpr rfl) (orderDirection_eq_eq.mpr rfl)
  cases orderDirection_eq_eq.mp heq

/-- A text that is not read ties with all texts. -/
theorem text_false_not_mem {other : String} (h : key.valueKind.reads text = true)
    (ht : some (.text true) ∈ K) (hother : key.valueKind.reads other = false) :
    some (.text false) ∉ K := by
  intro hf
  obtain ⟨low, high, hlow, hhigh, hlt⟩ := OrderValueKind.exists_lt h
  have heq := htrans.eq_trans (a := ⟨.utf8 low, rule_utf8_mem hlow ht⟩)
    (b := ⟨.utf8 other, rule_utf8_mem hother hf⟩) (c := ⟨.utf8 high, rule_utf8_mem hhigh ht⟩)
  simp only [compareSortValues_utf8, hlow, hhigh, hother, hlt, orderDirection_eq_eq] at heq
  cases heq rfl rfl

end Flat

theorem transCmp_compareSortValues_iff (key : BoundOrderKey)
    (collation : Collation) (K : Set (Option Rule)) :
    (∀ collate : Collation → TextOrder, (∀ c, TransCmp (collate c)) →
      TransCmp fun left right : {value // key.rule value ∈ K} =>
        compareSortValues collate left right key collation) ↔
      ∀ left right, key.rule left ∈ K → key.rule right ∈ K →
        ∀ r ∈ key.rule left, ∀ r' ∈ key.rule right, r = r' := by
  constructor
  · intro h left right hl hr r hleft r' hright
    -- a collation that tells no texts apart
    have htrans := h (fun _ _ _ => .eq) fun _ =>
      transCmp_of_eq compare (fun _ => ()) fun _ _ => rfl
    rw [mem_def.mp hleft] at hl
    rw [mem_def.mp hright] at hr
    rcases r with _ | reads <;> rcases r' with _ | reads'
    · rfl
    · exact absurd hl (index_not_mem htrans (rule_utf8_mem (reads_of_rule hright) hr))
    · exact absurd hr (index_not_mem htrans (rule_utf8_mem (reads_of_rule hleft) hl))
    · cases reads <;> cases reads'
      · rfl
      · exact absurd hl (text_false_not_mem htrans (reads_of_rule hright) hr (reads_of_rule hleft))
      · exact absurd hr (text_false_not_mem htrans (reads_of_rule hleft) hl (reads_of_rule hright))
      · rfl
  · intro hone collate hcollate
    obtain ⟨rule, hrule⟩ : ∃ rule, ∀ value, key.rule value ∈ K →
        ∀ r ∈ key.rule value, r = rule := by
      by_cases hsome : ∃ value, key.rule value ∈ K ∧ ∃ r, r ∈ key.rule value
      · obtain ⟨other, hother, rule, hrule⟩ := hsome
        exact ⟨rule, fun value hvalue r hr => hone value other hvalue hother r hr rule hrule⟩
      · exact ⟨.index, fun value hvalue r hr => absurd ⟨value, hvalue, r, hr⟩ hsome⟩
    obtain ⟨texts, htexts, h⟩ := @exists_texts key _ (hcollate _) rule
    refine transCmp_of_eq (sortCmp key texts) Subtype.val fun ⟨left, hl⟩ ⟨right, hr⟩ =>
      compareSortValues_eq fun r hleft r' hright => ?_
    obtain rfl := hrule left hl r hleft
    obtain rfl := hrule right hr r' hright
    exact ⟨rfl, h left right hleft hright⟩

section Binary

def binaryKey (kind : OrderValueKind) : BoundOrderKey := ⟨true, true, kind, none⟩

def binaryOrder (_ : Collation) (left right : String) : Ordering :=
  compareCollatedText plainWeights left right .utf8mb4Bin

instance (collation : Collation) : TransCmp (binaryOrder collation) :=
  transCmp_of_eq _ codePoints fun _ _ => rfl

def compareBinary (kind : OrderValueKind) (left right : Value) : Ordering :=
  compareSortValues binaryOrder left right (binaryKey kind) .utf8mb4Bin

/-- Texts that all read as times, and values without a text among them. -/
theorem transCmp_compareSortValues_iff_times :
    (binaryKey .time).rule (.utf8 "-1 2:03:04.5") = some (.text true) ∧
      TransCmp fun left right : {value // (binaryKey .time).rule value ∈
        ({none, some (.text true)} : Set (Option Rule))} => compareBinary .time left right := by
  refine ⟨by decide +kernel, (transCmp_compareSortValues_iff _ _ _).mpr ?_ binaryOrder fun _ =>
    inferInstance⟩
  rintro left right (hl | hl) (hr | hr) r hleft r' hright <;> rw [mem_def] at hleft hright
  all_goals simp_all

theorem compareSortValues_cycles : TransCmp (binaryOrder .utf8mb4Bin) ∧
    (compareBinary .ordinary (.enum 1 "b") (.enum 2 "a") = .lt ∧
      compareBinary .ordinary (.enum 2 "a") (.utf8 "ab") = .lt ∧
      compareBinary .ordinary (.utf8 "ab") (.enum 1 "b") = .lt) ∧
    (compareBinary .decimal (.utf8 "9") (.utf8 "10") = .lt ∧
      compareBinary .decimal (.utf8 "10") (.utf8 "5x") = .lt ∧
      compareBinary .decimal (.utf8 "5x") (.utf8 "9") = .lt) ∧
    compareBinary .time (.utf8 "9:00") (.utf8 "10:00") = .lt ∧
    compareBinary .time (.utf8 "10:00") (.utf8 "5x") = .lt ∧
    compareBinary .time (.utf8 "5x") (.utf8 "9:00") = .lt := by
  refine ⟨inferInstance, ⟨rfl, rfl, rfl⟩, ⟨rfl, rfl, rfl⟩, ?_, ?_, ?_⟩ <;> decide +kernel

end Binary

end Exec

end Pintail
