import Pintail.Words.Padded

/-! # Text collations

A text column compares under one of fourteen collations. Eleven of them weigh text by tables of
their own and pad the shorter side with spaces. Grouping and prepared sorts use the sort key of a
text, other comparisons the comparator: the two agree but for texts with a weight below a space
after spaces that the other text does not have.
-/

namespace Pintail

open Words

inductive Collation
  | latin1SwedishCi | latin1Bin
  | latin2GeneralCi | latin2Bin
  | tis620ThaiCi | tis620Bin
  | koi8RGeneralCi | koi8RBin
  | utf8mb40900AiCi | utf8mb40900AsCs
  | utf8mb4GeneralCi | utf8mb4UnicodeCi | utf8mb4Bin
  | json
  deriving DecidableEq, Repr

/-- The weight tables, and what the libraries behind the other collations answer. -/
structure Weights where
  generalCiExceptions : UInt16 → Option UInt16
  unicodeCiSingles : UInt16 → Option UInt16
  unicodeCiSequences : UInt16 → Option (List UInt16)
  unicodeCiImplicit : UInt16 → Option UInt16
  latin1Extended : Char → Option UInt8
  latin1Accents : UInt8 → UInt8
  latin2Extended : Char → Option UInt8
  latin2Table : UInt8 → UInt8
  koi8rExtended : Char → Option UInt8
  koi8rTable : UInt8 → UInt8
  aiCiKey : String → List UInt8
  compareAiCi : String → String → Ordering
  asCsKey : String → List UInt8
  compareAsCs : String → String → Ordering
  jsonSortKey : String → Option (List UInt8)

namespace Collation

def asciiUpper (byte : UInt8) : UInt8 := if 0x61 ≤ byte && byte ≤ 0x7a then byte - 32 else byte

def asciiLower (byte : UInt8) : UInt8 := if 0x41 ≤ byte && byte ≤ 0x5a then byte + 32 else byte

def isAscii (c : Char) : Bool := c.val < 128

section Encodings

variable (w : Weights)

def latin1Byte (c : Char) : Option UInt8 :=
  if c.val ≤ 0x7f || (0xa0 ≤ c.val && c.val ≤ 0xff) then some c.val.toUInt8 else w.latin1Extended c

def encodeLatin1 (text : String) : List UInt8 := text.toList.map fun c => (latin1Byte w c).getD 0x3f

def encodeExtended (extended : Char → Option UInt8) (text : String) : List UInt8 :=
  text.toList.map fun c => if isAscii c then c.val.toUInt8 else (extended c).getD 0x3f

def encodeLatin2 : String → List UInt8 := encodeExtended w.latin2Extended

def encodeKoi8r : String → List UInt8 := encodeExtended w.koi8rExtended

def tis620Byte (c : Char) : UInt8 :=
  if c.val = 0xfffd then 0xff
  else if c.val ≤ 0x9f then c.val.toUInt8
  else if (0x0e01 ≤ c.val && c.val ≤ 0x0e3a) || (0x0e3f ≤ c.val && c.val ≤ 0x0e5b) then
    (c.val - 0x0d60).toUInt8
  else 0x3f

def encodeTis620 (text : String) : List UInt8 := text.toList.map tis620Byte

end Encodings

/-- What the Thai weights have read so far: the place of the last consonant, the mark to put at the
end, and the weights. -/
structure Thai where
  position : UInt8 := 248
  lastMark : Option UInt8 := none
  key : List UInt8 := []

def Thai.isConsonant (byte : UInt8) : Bool := 0xa1 ≤ byte && byte ≤ 0xce

def Thai.isLeadingVowel (byte : UInt8) : Bool := 0xe0 ≤ byte && byte ≤ 0xe4

def Thai.mark (byte : UInt8) : Option UInt8 :=
  if byte = 0xec then some 1
  else if byte = 0xe7 then some 2
  else if 0xe8 ≤ byte && byte ≤ 0xeb then some (byte - 0xe5)
  else none

def Thai.read (s : Thai) (byte : UInt8) : Thai :=
  let position := if byte < 128 || isConsonant byte then s.position - 8 else s.position
  match mark byte with
  | some mark => { s with position := position, lastMark := some (position + mark) }
  | none => { s with position := position, key := s.key ++ [asciiLower byte] }

/-- A leading vowel goes after the consonant it stands before. -/
def Thai.readAll (s : Thai) : List UInt8 → Thai
  | [] => s
  | [byte] => s.read byte
  | byte :: next :: rest =>
    if isLeadingVowel byte && isConsonant next then
      Thai.readAll { s with key := s.key ++ [next, byte] } rest
    else Thai.readAll (s.read byte) (next :: rest)

def positionalWeights (bytes : List UInt8) : List UInt8 :=
  let s := Thai.readAll {} bytes
  match s.lastMark with
  | none => s.key
  | some mark =>
    let width := bytes.length - 1
    s.key.take width ++ List.replicate (width - s.key.length) (bytes.getLastD 0) ++ [mark]

section Weighing

variable (w : Weights)

def latin1Weights (text : String) (binary : Bool) : List UInt16 :=
  (encodeLatin1 w text).map fun byte =>
    (if binary then byte
      else if 0x61 ≤ byte && byte ≤ 0x7a then asciiUpper byte
      else if 0xc0 ≤ byte then w.latin1Accents (byte - 0xc0)
      else byte).toUInt16

def latin2Weights (text : String) (binary : Bool) : List UInt16 :=
  (encodeLatin2 w text).map fun byte => (if binary then byte else w.latin2Table byte).toUInt16

def koi8rWeights (text : String) (binary : Bool) : List UInt16 :=
  (encodeKoi8r w text).map fun byte =>
    (if binary then byte
      else if byte < 128 then asciiUpper byte
      else w.koi8rTable (byte - 128)).toUInt16

def tis620Weights (text : String) (binary : Bool) : List UInt16 :=
  let bytes := encodeTis620 text
  (if binary then bytes else positionalWeights bytes).map UInt8.toUInt16

/-- Every character above the basic plane weighs the same. -/
def generalCiWeight (c : Char) : UInt16 :=
  if isAscii c then (asciiUpper c.val.toUInt8).toUInt16
  else if 0xffff < c.val then 0xfffd
  else (w.generalCiExceptions c.val.toUInt16).getD c.val.toUInt16

def generalCiWeights (text : String) : List UInt16 := text.toList.map (generalCiWeight w)

/-- The weights of one character: none for a mark that is ignored, several for an expansion. -/
def unicodeCiPending (c : Char) : List UInt16 :=
  if 0xffff < c.val then [0xfffd]
  else
    let point := c.val.toUInt16
    match w.unicodeCiSingles point, w.unicodeCiSequences point with
    | some weight, _ => [weight]
    | none, some weights => weights
    | none, none =>
      [(w.unicodeCiImplicit point).getD 0xfbc0 + point >>> 15, point &&& 0x7fff ||| 0x8000]

def unicodeCiWeights (text : String) : List UInt16 := text.toList.flatMap (unicodeCiPending w)

def codePoints (text : String) : List UInt32 := text.toList.map Char.val

end Weighing

def singleByteSpace : UInt16 := 0x20

def generalCiSpace : UInt16 := 0x20

def unicodeCiSpace : UInt16 := 0x209

def binSpace : UInt32 := 0x20

def paddedSortKey (weights : List UInt16) (space : UInt16) : List UInt8 :=
  (paddedKey space weights).flatMap fun weight => beBytes 2 weight.toNat

section Keys

variable (w : Weights) (text : String) (binary : Bool)

def latin1SortKey : List UInt8 := paddedSortKey (latin1Weights w text binary) singleByteSpace

def latin2SortKey : List UInt8 := paddedSortKey (latin2Weights w text binary) singleByteSpace

def koi8rSortKey : List UInt8 := paddedSortKey (koi8rWeights w text binary) singleByteSpace

def tis620SortKey : List UInt8 := paddedSortKey (tis620Weights text binary) singleByteSpace

def generalCiSortKey : List UInt8 := paddedSortKey (generalCiWeights w text) generalCiSpace

def unicodeCiSortKey : List UInt8 := paddedSortKey (unicodeCiWeights w text) unicodeCiSpace

def binSortKey : List UInt8 :=
  (paddedKey binSpace (codePoints text)).flatMap fun point => beBytes 4 point.toNat

def collationSortKey : Collation → List UInt8
  | latin1SwedishCi => latin1SortKey w text false
  | latin1Bin => latin1SortKey w text true
  | tis620ThaiCi => tis620SortKey text false
  | tis620Bin => tis620SortKey text true
  | latin2GeneralCi => latin2SortKey w text false
  | latin2Bin => latin2SortKey w text true
  | koi8RGeneralCi => koi8rSortKey w text false
  | koi8RBin => koi8rSortKey w text true
  | utf8mb4GeneralCi => generalCiSortKey w text
  | utf8mb4UnicodeCi => unicodeCiSortKey w text
  | utf8mb4Bin => binSortKey text
  | json => (w.jsonSortKey text).getD (binSortKey text)
  | utf8mb40900AiCi => w.aiCiKey text
  | utf8mb40900AsCs => w.asCsKey text

end Keys

section Comparison

variable (w : Weights) (left right : String) (binary : Bool)

def compareLatin1 : Ordering :=
  comparePadded singleByteSpace (latin1Weights w left binary) (latin1Weights w right binary)

def compareLatin2 : Ordering :=
  comparePadded singleByteSpace (latin2Weights w left binary) (latin2Weights w right binary)

def compareKoi8r : Ordering :=
  comparePadded singleByteSpace (koi8rWeights w left binary) (koi8rWeights w right binary)

def compareTis620 : Ordering :=
  comparePadded singleByteSpace (tis620Weights left binary) (tis620Weights right binary)

def compareGeneralCi : Ordering :=
  comparePadded generalCiSpace (generalCiWeights w left) (generalCiWeights w right)

def compareUnicodeCi : Ordering :=
  comparePadded unicodeCiSpace (unicodeCiWeights w left) (unicodeCiWeights w right)

def compareBin : Ordering := comparePadded binSpace (codePoints left) (codePoints right)

def compareJsonText : Option Ordering := do
  return compare (← w.jsonSortKey left) (← w.jsonSortKey right)

def compareCollatedText : Collation → Ordering
  | latin1SwedishCi => compareLatin1 w left right false
  | latin1Bin => compareLatin1 w left right true
  | tis620ThaiCi => compareTis620 left right false
  | tis620Bin => compareTis620 left right true
  | latin2GeneralCi => compareLatin2 w left right false
  | latin2Bin => compareLatin2 w left right true
  | koi8RGeneralCi => compareKoi8r w left right false
  | koi8RBin => compareKoi8r w left right true
  | utf8mb4GeneralCi => compareGeneralCi w left right
  | utf8mb4UnicodeCi => compareUnicodeCi w left right
  | utf8mb4Bin => compareBin left right
  | json => (compareJsonText w left right).getD (compareBin left right)
  | utf8mb40900AiCi => w.compareAiCi left right
  | utf8mb40900AsCs => w.compareAsCs left right

def padsSpace : Collation → Bool
  | json | utf8mb40900AiCi | utf8mb40900AsCs => false
  | _ => true

/-- Under a collation, the second text goes on from the first, its trailing spaces apart, with
spaces and then a weight below a space. -/
def DipsUnder : Collation → Prop
  | latin1SwedishCi =>
    Dips singleByteSpace (latin1Weights w left false) (latin1Weights w right false)
  | latin1Bin => Dips singleByteSpace (latin1Weights w left true) (latin1Weights w right true)
  | tis620ThaiCi => Dips singleByteSpace (tis620Weights left false) (tis620Weights right false)
  | tis620Bin => Dips singleByteSpace (tis620Weights left true) (tis620Weights right true)
  | latin2GeneralCi =>
    Dips singleByteSpace (latin2Weights w left false) (latin2Weights w right false)
  | latin2Bin => Dips singleByteSpace (latin2Weights w left true) (latin2Weights w right true)
  | koi8RGeneralCi => Dips singleByteSpace (koi8rWeights w left false) (koi8rWeights w right false)
  | koi8RBin => Dips singleByteSpace (koi8rWeights w left true) (koi8rWeights w right true)
  | utf8mb4GeneralCi => Dips generalCiSpace (generalCiWeights w left) (generalCiWeights w right)
  | utf8mb4UnicodeCi => Dips unicodeCiSpace (unicodeCiWeights w left) (unicodeCiWeights w right)
  | utf8mb4Bin => Dips binSpace (codePoints left) (codePoints right)
  | json | utf8mb40900AiCi | utf8mb40900AsCs => False

end Comparison

theorem compare_paddedSortKey_iff (space : UInt16) (l r : List UInt16) :
    compare (paddedSortKey l space) (paddedSortKey r space) = comparePadded space l r ↔
      ¬ Dips space l r ∧ ¬ Dips space r l := by
  rw [paddedSortKey, paddedSortKey, compare_flatMap two_pos (fun _ => length_beBytes 2 _)
    compare_uint16Bytes]
  exact compare_paddedKey_iff l r

theorem compare_binSortKey_iff (left right : String) :
    compare (binSortKey left) (binSortKey right) = compareBin left right ↔
      ¬ Dips binSpace (codePoints left) (codePoints right) ∧
        ¬ Dips binSpace (codePoints right) (codePoints left) := by
  rw [binSortKey, binSortKey, compare_flatMap four_pos (fun _ => length_beBytes 4 _)
    compare_uint32Bytes]
  exact compare_paddedKey_iff _ _

/-- Comparing sort keys bytewise is comparing the texts, exactly when neither text adds spaces and
then a weight below a space to the other one. -/
theorem compare_collationSortKey_iff (w : Weights) {collation : Collation}
    (h : collation.padsSpace = true) (left right : String) :
    compare (collationSortKey w left collation) (collationSortKey w right collation) =
        compareCollatedText w left right collation ↔
      ¬ DipsUnder w left right collation ∧ ¬ DipsUnder w right left collation := by
  cases collation with
  | utf8mb4Bin => exact compare_binSortKey_iff left right
  | json | utf8mb40900AiCi | utf8mb40900AsCs => cases h
  | _ => exact compare_paddedSortKey_iff _ _ _

def plainWeights : Weights where
  generalCiExceptions _ := none
  unicodeCiSingles _ := none
  unicodeCiSequences _ := none
  unicodeCiImplicit _ := none
  latin1Extended _ := none
  latin1Accents := id
  latin2Extended _ := none
  latin2Table := id
  koi8rExtended _ := none
  koi8rTable := id
  aiCiKey _ := []
  compareAiCi _ _ := .eq
  asCsKey _ := []
  compareAsCs _ _ := .eq
  jsonSortKey _ := none

theorem compare_collationSortKey_iff_letters :
    compare (collationSortKey plainWeights "a " utf8mb4GeneralCi)
          (collationSortKey plainWeights "B" utf8mb4GeneralCi) =
        compareCollatedText plainWeights "a " "B" utf8mb4GeneralCi ∧
      ¬ DipsUnder plainWeights "a " "B" utf8mb4GeneralCi ∧
        ¬ DipsUnder plainWeights "B" "a " utf8mb4GeneralCi := by
  have hsame : compare (collationSortKey plainWeights "a " utf8mb4GeneralCi)
      (collationSortKey plainWeights "B" utf8mb4GeneralCi) =
        compareCollatedText plainWeights "a " "B" utf8mb4GeneralCi := by decide +kernel
  exact ⟨hsame, (compare_collationSortKey_iff plainWeights rfl "a " "B").mp hsame⟩

/-- A tab after a space weighs below the space that pads the shorter text, but the key of the
shorter text is a prefix of the other one's: no table of the collation has a part in this. -/
theorem tab_compares_before (w : Weights) :
    compareCollatedText w "a" "a \t" utf8mb4GeneralCi = .gt ∧
      compare (collationSortKey w "a" utf8mb4GeneralCi)
        (collationSortKey w "a \t" utf8mb4GeneralCi) = .lt := by
  have ha : generalCiWeights w "a" = [0x41] := rfl
  have htab : generalCiWeights w "a \t" = [0x41, 0x20, 0x09] := rfl
  rw [compareCollatedText, compareGeneralCi, collationSortKey, collationSortKey, generalCiSortKey,
    generalCiSortKey, ha, htab]
  decide

theorem collationSortKey_before_compareCollatedText :
    compareCollatedText plainWeights "a" "a \t" utf8mb4GeneralCi = .gt ∧
      compare (collationSortKey plainWeights "a" utf8mb4GeneralCi)
        (collationSortKey plainWeights "a \t" utf8mb4GeneralCi) = .lt :=
  tab_compares_before plainWeights

end Collation

end Pintail
