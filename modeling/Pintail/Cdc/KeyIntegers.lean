import Pintail.Cdc.RowImage

/-! # Integers of key columns

An integer of a key column is followed from the source through the bytes of a row image to the value
that is stored for it, for every width and sign and whether or not the table map tells the sign. The
reader of the plan and the general decoder store the same.
-/

namespace Pintail.Cdc

open Bytes Probe Reader Int List
open Int64 hiding zero_mul

section Integers

variable {w n : ℕ} {w : ℕ}

theorem top_byte_iff (hn : n < 256 ^ (w + 1)) :
    0x80 ≤ UInt8.ofNat (n / 256 ^ w) ↔ 256 ^ (w + 1) ≤ 2 * n := by
  have hlt : n / 256 ^ w < 256 := by
    rw [Nat.div_lt_iff_lt_mul (by positivity)]
    rwa [pow_succ, mul_comm] at hn
  have hle : 128 ≤ n / 256 ^ w ↔ 128 * 256 ^ w ≤ n := Nat.le_div_iff_mul_le (by positivity)
  rw [UInt8.le_iff_toNat_le, UInt8.toNat_ofNat_of_lt' (by simpa using hlt)]
  change 128 ≤ n / 256 ^ w ↔ _
  omega

theorem leNat_widened (raw : List UInt8) (hl : raw.length ≤ 8) (negative : Bool) :
    leNat (widened raw negative) =
      leNat raw + if negative then 2 ^ 64 - 256 ^ raw.length else 0 := by
  have hpow : 256 ^ raw.length * 256 ^ (8 - raw.length) = 2 ^ 64 := by
    rw [← pow_add, Nat.add_sub_cancel' hl]
    norm_num
  rw [widened, leNat_append]
  cases negative with
  | false =>
    have hz := leNat_replicate (8 - raw.length) 0
    simp only [UInt8.toNat_zero, zero_mul, mul_eq_zero, OfNat.ofNat_ne_zero, or_false] at hz
    simp [hz]
  | true =>
    have hf := leNat_replicate (8 - raw.length) 0xff
    have hval : leNat (replicate (8 - raw.length) 0xff) = 256 ^ (8 - raw.length) - 1 := by
      have h255 : (0xff : UInt8).toNat = 255 := rfl
      rw [h255] at hf
      omega
    simp [hval, Nat.mul_sub, hpow]

theorem toInt64_ofNat (k : ℕ) : (UInt64.ofNat k).toInt64 = ofInt k := by
  apply toBitVec_inj.mp
  simp

theorem ofInt_add_two_pow (v : ℤ) : ofInt (v + 2 ^ 64) = ofInt v := by
  apply toBitVec_inj.mp
  simp

def topBit (raw : List UInt8) : Bool := raw.getLast?.any (0x80 ≤ ·)

theorem topBit_leBytes (hn : n < 256 ^ (w + 1)) :
    topBit (leBytes (w + 1) n) = decide (256 ^ (w + 1) ≤ 2 * n) := by
  rw [topBit, getLast?_leBytes]
  exact decide_eq_decide.mpr (top_byte_iff hn)

theorem pow_le_word (hw : w < 8) : 256 ^ (w + 1) ≤ 2 ^ 64 :=
  (Nat.pow_le_pow_right (by norm_num) hw).trans (by norm_num)

theorem readInteger_signed (hw : w < 8) {v : ℤ} (hlow : -256 ^ (w + 1) ≤ 2 * v)
    (hhigh : 2 * v < 256 ^ (w + 1)) :
    readInteger (leBytes (w + 1) (v % 256 ^ (w + 1)).toNat) false none = .signed (ofInt v) := by
  set P : ℕ := 256 ^ (w + 1) with hP
  have hcast : ((256 : ℤ) ^ (w + 1)) = (P : ℤ) := by rfl
  have hword : P ≤ 2 ^ 64 := pow_le_word hw
  rw [hcast] at hlow hhigh ⊢
  set n : ℕ := (v % P).toNat with hn
  have hmod : (n : ℤ) = v % P := toNat_of_nonneg (emod_nonneg v (by omega))
  have hlt : n < P := by
    have := emod_lt_of_pos v (show (0 : ℤ) < P by omega)
    omega
  have hnat : leNat (leBytes (w + 1) n) = n := leNat_leBytes_of_lt hlt
  have hwide := leNat_widened (leBytes (w + 1) n) (by rw [length_leBytes]; omega)
  rw [length_leBytes, hnat] at hwide
  have htop := topBit_leBytes hlt
  rw [topBit] at htop
  unfold readInteger
  simp only [Bool.not_false, Bool.true_and, htop]
  by_cases hneg : v < 0
  · have hv : (n : ℤ) = v + P := by
      rw [hmod, ← add_emod_right, emod_eq_of_lt (by omega) (by omega)]
    have hd : decide (P ≤ 2 * n) = true := decide_eq_true (by omega)
    have hbits : ((leNat (widened (leBytes (w + 1) n) true) : ℕ) : ℤ) = v + 2 ^ 64 := by
      rw [hwide true, if_pos rfl]
      omega
    rw [hd]
    simp only [Bool.true_or, if_true, toInt64_ofNat, hbits, ofInt_add_two_pow]
  · have hv : (n : ℤ) = v := by
      rw [hmod, emod_eq_of_lt (by omega) (by omega)]
    have hd : decide (P ≤ 2 * n) = false := decide_eq_false (by omega)
    have hbits : leNat (widened (leBytes (w + 1) n) false) = n := by
      rw [hwide false]
      simp
    have hsmall : (UInt64.ofNat n).toNat < 2 ^ 63 := by
      rw [UInt64.toNat_ofNat_of_lt' (show n < 2 ^ 64 by omega)]
      omega
    rw [hd]
    simp only [Bool.false_or, hbits, decide_eq_true hsmall, if_true, toInt64_ofNat, hv]

/-- The bytes of a column declared unsigned read back as the integer, whether the table map says
that it is unsigned or not. -/
theorem readInteger_unsigned (hw : w < 8) (hn : n < 256 ^ (w + 1)) (inMap : Bool) :
    readInteger (leBytes (w + 1) n) inMap (some (w + 1)) = .unsigned (UInt64.ofNat n) := by
  have hnat : leNat (leBytes (w + 1) n) = n := leNat_leBytes_of_lt hn
  have htake (negative : Bool) :
      leNat ((widened (leBytes (w + 1) n) negative).take (w + 1)) = n := by
    have hl : (leBytes (w + 1) n).length = w + 1 := length_leBytes _ _
    rw [widened, take_left' hl, hnat]
  unfold readInteger
  generalize (!inMap && (leBytes (w + 1) n).getLast?.any (0x80 ≤ ·)) = negative
  dsimp only
  by_cases hs : (negative ||
      decide ((UInt64.ofNat (leNat (widened (leBytes (w + 1) n) negative))).toNat < 2 ^ 63)) = true
  · rw [if_pos hs]
    simp only [htake]
  · rw [if_neg hs]
    obtain rfl : negative = false := by
      simp only [Bool.or_eq_true, not_or] at hs
      simpa using hs.1
    have hwide := leNat_widened (leBytes (w + 1) n) (by rw [length_leBytes]; omega) false
    simp only [Bool.false_eq_true, if_false, Nat.add_zero, hnat] at hwide
    simp only [hwide]

end Integers

inductive SourceValue
  | integer (value : ℤ)
  | text (value : String)
  | binary (value : List UInt8)
  deriving DecidableEq, Repr

inductive IntegerType
  | tinyint | smallint | mediumint | int | bigint
  deriving DecidableEq, Repr

namespace IntegerType

def names : IntegerType → List String
  | tinyint => ["tinyint"]
  | smallint => ["smallint"]
  | mediumint => ["mediumint"]
  | int => ["int", "integer"]
  | bigint => ["bigint"]

def width : IntegerType → ℕ
  | tinyint => 1
  | smallint => 2
  | mediumint => 3
  | int => 4
  | bigint => 8

def kind : IntegerType → ColumnType
  | tinyint => .tiny
  | smallint => .short
  | mediumint => .int24
  | int => .long
  | bigint => .longlong

def signedType : IntegerType → DataType
  | tinyint => .int8
  | smallint => .int16
  | mediumint | int => .int32
  | bigint => .int64

def unsignedType : IntegerType → DataType
  | tinyint => .uint8
  | smallint => .uint16
  | mediumint | int => .uint32
  | bigint => .uint64

def Declares (type : IntegerType) (column : SourceColumn) : Prop :=
  ∃ name ∈ type.names, isType column name = true

def InRange (type : IntegerType) (unsigned : Bool) (value : ℤ) : Prop :=
  if unsigned then 0 ≤ value ∧ value < 256 ^ type.width
  else -256 ^ type.width ≤ 2 * value ∧ 2 * value < 256 ^ type.width

def image (type : IntegerType) (value : ℤ) : List UInt8 :=
  leBytes type.width (value % 256 ^ type.width).toNat

end IntegerType

variable {column : SourceColumn}

theorem isType_eq {a : String} (h : isType column a = true) (b : String) :
    isType column b = sameName a b := sameName_congr h b

def showsBoolean (column : SourceColumn) : Bool :=
  "tinyint(1)".toList.isPrefixOf (column.mysqlColumnType.toList.map Char.toLower)

namespace IntegerType

variable {type : IntegerType} {column : SourceColumn}

theorem Declares.isType_eq (h : type.Declares column) :
    ∃ name ∈ type.names, isType column = sameName name := by
  obtain ⟨name, hn, hi⟩ := h
  exact ⟨name, hn, funext (Cdc.isType_eq hi)⟩

theorem pintailType_eq (h : type.Declares column) (hp : Probed column) :
    column.pintailType =
      if type = tinyint ∧ showsBoolean column = true then .boolean
      else if declaredUnsigned column then type.unsignedType else type.signedType := by
  obtain ⟨name, hn, hi⟩ := h.isType_eq
  obtain ⟨raw, hd, hc, hm⟩ := hp
  have hname : sameName raw.dataType = sameName name := by
    rw [hd]
    exact hi
  have hbool : "tinyint(1)".toList.isPrefixOf (raw.columnType.toList.map Char.toLower) =
      showsBoolean column := by rw [hc]; rfl
  have hunsigned : decide ("unsigned".toList <:+: raw.columnType.toList.map Char.toLower) =
      declaredUnsigned column := by rw [hc]; rfl
  unfold mapMysqlType at hm
  simp only [hname, hbool, hunsigned] at hm
  rw [eq_comm]
  cases type <;> simp only [names, mem_cons, not_mem_nil, or_false] at hn
  case tinyint =>
    subst hn
    cases hb : showsBoolean column <;> simp +decide [hb, Except.map] at hm ⊢ <;> exact hm
  case int => rcases hn with rfl | rfl <;> simp +decide [Except.map] at hm ⊢ <;> exact hm
  all_goals subst hn; simp +decide [Except.map] at hm ⊢; exact hm

theorem exists_width (type : IntegerType) : ∃ w < 8, type.width = w + 1 := by
  cases type
  · exact ⟨0, by decide, rfl⟩
  · exact ⟨1, by decide, rfl⟩
  · exact ⟨2, by decide, rfl⟩
  · exact ⟨3, by decide, rfl⟩
  · exact ⟨7, by decide, rfl⟩

variable {v : ℤ}

theorem InRange.bounds {unsigned : Bool} (h : type.InRange unsigned v) :
    -2 ^ 63 ≤ v ∧ v < 2 ^ 64 := by
  cases unsigned <;> cases type <;> simp only [InRange, width, if_true, if_false,
    Bool.false_eq_true] at h <;> omega

theorem readInteger_image_signed (h : type.InRange false v) :
    readInteger (type.image v) false none = .signed (ofInt v) := by
  obtain ⟨w, hw, hwidth⟩ := type.exists_width
  rw [InRange, hwidth] at h
  rw [image, hwidth]
  exact readInteger_signed hw h.1 h.2

theorem toNat_image (h : type.InRange true v) :
    (v % 256 ^ type.width).toNat = v.toNat ∧ v.toNat < 256 ^ type.width := by
  rw [emod_eq_of_lt h.1 h.2]
  refine ⟨rfl, (toNat_lt h.1).mpr ?_⟩
  exact h.2

theorem readInteger_image_unsigned (h : type.InRange true v) (inMap : Bool) :
    readInteger (type.image v) inMap (some type.width) = .unsigned (UInt64.ofNat v.toNat) := by
  obtain ⟨w, hw, hwidth⟩ := type.exists_width
  have hv := toNat_image h
  rw [image, hv.1]
  rw [hwidth] at hv ⊢
  exact readInteger_unsigned hw hv.2 inMap

theorem declaredWidth_eq (h : type.Declares column) :
    declaredWidth column = if declaredUnsigned column then some type.width else none := by
  obtain ⟨name, hn, hi⟩ := h.isType_eq
  unfold declaredWidth
  rw [hi]
  cases declaredUnsigned column with
  | false => rfl
  | true =>
    clear hi
    revert name
    cases type <;> decide

theorem special_eq (h : type.Declares column) : special column = false := by
  obtain ⟨name, hn, hi⟩ := h.isType_eq
  unfold special
  rw [hi]
  clear hi
  revert name
  cases type <;> decide

end IntegerType

def storedValue (column : SourceColumn) : SourceValue → Value
  | .integer value =>
    if column.pintailType = .boolean then .boolean (value ≠ 0)
    else if declaredUnsigned column then .uint64 (UInt64.ofNat value.toNat)
    else .int64 (ofInt value)
  | .text value => .utf8 value
  | .binary value => .binary value

theorem decodeValue_eq {lib : Libraries} {table : String} {value adapted : MysqlValue}
    (ha : adaptBinlogValue lib column value = .ok adapted) {stored : Value}
    (hm : mapMysqlValue lib table column adapted = .ok stored) :
    decodeValue lib table column (.ok value) = .ok stored := by
  simp only [decodeValue, ha, bind, Except.bind, hm]
  rfl

namespace IntegerType

variable {type : IntegerType} {column : SourceColumn} {v : ℤ}

theorem toInt_ofInt (h : type.InRange false v) : (ofInt v).toInt = v := by
  apply toInt_ofInt_of_le h.bounds.1
  rw [InRange, if_neg Bool.false_ne_true] at h
  cases type <;> simp only [width] at h <;> omega

theorem toNat_ofNat (h : type.InRange true v) : (UInt64.ofNat v.toNat).toNat = v.toNat := by
  have hb := h.bounds
  exact UInt64.toNat_ofNat_of_lt' (show v.toNat < 2 ^ 64 by omega)

theorem InRange.nonneg (h : type.InRange true v) : 0 ≤ v := by
  exact h.1

theorem ofInt_eq_zero_iff (h : type.InRange false v) : ofInt v = 0 ↔ v = 0 := by
  rw [← toInt_inj, toInt_ofInt h]
  rfl

theorem ofNat_eq_zero_iff (h : type.InRange true v) : UInt64.ofNat v.toNat = 0 ↔ v = 0 := by
  have hpos := h.nonneg
  rw [← UInt64.toNat_inj, toNat_ofNat h]
  change v.toNat = 0 ↔ v = 0
  omega

theorem signedFits_of_inRange (h : type.InRange false v) : signedFits type.signedType v = true := by
  rw [InRange, if_neg Bool.false_ne_true] at h
  cases type <;> simp only [width] at h <;> simp [signedFits, signedType] <;> omega

theorem unsignedFits_of_inRange (h : type.InRange true v) :
    unsignedFits type.unsignedType v.toNat = true := by
  rw [InRange, if_pos rfl] at h
  cases type <;> simp only [width] at h <;> simp [unsignedFits, unsignedType] <;> omega

variable {inMap : Bool}

theorem integerValue_image (ht : type.Declares column) (hp : Probed column)
    (hmap : inMap = true → declaredUnsigned column = true)
    (hr : type.InRange (declaredUnsigned column) v) :
    ∃ target, integerTarget column.pintailType = some target ∧
      integerValue (type.image v) inMap (declaredWidth column) target =
        some (storedValue column (.integer v)) := by
  have htype := pintailType_eq ht hp
  have hwidth := declaredWidth_eq ht
  rw [hwidth]
  cases hu : declaredUnsigned column with
  | false =>
    rw [hu] at hr htype hmap
    obtain rfl : inMap = false := by simpa using hmap
    have hread := readInteger_image_signed hr
    by_cases hb : type = tinyint ∧ showsBoolean column = true
    · rw [if_pos hb] at htype
      refine ⟨.boolean, by rw [htype]; rfl, ?_⟩
      simp [integerValue, hread, storedValue, htype, ofInt_eq_zero_iff hr]
    · rw [if_neg hb] at htype
      refine ⟨.signed type.signedType, by rw [htype]; cases type <;> rfl, ?_⟩
      have hnb : column.pintailType ≠ .boolean := by rw [htype]; cases type <;> decide
      simp [integerValue, hread, toInt_ofInt hr, signedFits_of_inRange hr, storedValue, if_neg hnb,
        hu]
  | true =>
    rw [hu] at hr htype
    have hread := readInteger_image_unsigned hr inMap
    by_cases hb : type = tinyint ∧ showsBoolean column = true
    · rw [if_pos hb] at htype
      refine ⟨.boolean, by rw [htype]; rfl, ?_⟩
      simp [integerValue, hread, storedValue, htype, ofNat_eq_zero_iff hr]
    · rw [if_neg hb] at htype
      refine ⟨.unsigned type.unsignedType, by rw [htype]; cases type <;> rfl, ?_⟩
      have hnb : column.pintailType ≠ .boolean := by rw [htype]; cases type <;> decide
      simp [integerValue, hread, toNat_ofNat hr, unsignedFits_of_inRange hr, storedValue,
        if_neg hnb, hu]

theorem resolve_eq (lib : Libraries) (ht : type.Declares column) (hp : Probed column)
    {unsigned : Bool} (hmap : unsigned = true → declaredUnsigned column = true)
    (metadata : List UInt8) :
    ∃ target, integerTarget column.pintailType = some target ∧
      resolve column lib type.kind metadata unsigned =
        .integer type.width (declaredWidth column) target := by
  obtain ⟨target, htarget⟩ : ∃ target, integerTarget column.pintailType = some target := by
    rw [pintailType_eq ht hp]
    split_ifs <;> cases type <;> exact ⟨_, rfl⟩
  have hthree : ¬ (type.kind = .int24 ∧ ((!isType column "mediumint") = true ∨
      unsigned = true ∧ (declaredWidth column).isNone = true)) := by
    rintro ⟨hk, h⟩
    obtain rfl : type = mediumint := by cases type <;> first | rfl | cases hk
    rcases h with h | ⟨h, hw⟩
    · obtain ⟨name, hn, hi⟩ := ht.isType_eq
      obtain rfl : name = "mediumint" := by simpa [names] using hn
      rw [hi] at h
      exact absurd h (by decide)
    · rw [declaredWidth_eq ht, hmap h] at hw
      cases hw
  refine ⟨target, htarget, ?_⟩
  have hreader (width : ℕ) : integerReader column type.kind unsigned width =
      .integer width (declaredWidth column) target := by
    simp only [integerReader, htarget, special_eq ht, Bool.false_eq_true, if_false, if_neg hthree]
  cases type <;> exact hreader _

/-- A value of the type as the client library may hand it out: by the sign in the table map, and
three bytes possibly without theirs. -/
def ReadAs (type : IntegerType) (unsigned : Bool) (n : ℕ) (value : MysqlValue) : Prop :=
  if unsigned then value = .uint (UInt64.ofNat n) ∨ n < 2 ^ 63 ∧ value = .int (ofInt n)
  else
    value = .int (ofInt (if 2 * n < 256 ^ type.width then n else n - 256 ^ type.width)) ∨
      type = mediumint ∧ value = .int (ofInt n)

theorem toNat_toUInt64_ofInt (x : ℤ) : (ofInt x).toUInt64.toNat = (x % 2 ^ 64).toNat := by
  have hbits : (ofInt x).toUInt64 = UInt64.ofBitVec (BitVec.ofInt 64 x) := rfl
  rw [hbits]
  simp

theorem toNat_toUInt64_ofInt_mod (x : ℤ) (type : IntegerType) :
    (ofInt x).toUInt64.toNat % 256 ^ type.width = (x % 256 ^ type.width).toNat := by
  have hdvd : (256 : ℤ) ^ type.width ∣ 2 ^ 64 := by cases type <;> decide
  rw [toNat_toUInt64_ofInt]
  zify
  rw [toNat_of_nonneg (emod_nonneg _ (by decide)),
    toNat_of_nonneg (emod_nonneg _ (by positivity)), emod_emod_of_dvd _ hdvd]

variable (lib : Libraries) (ht : type.Declares column)

include ht

theorem reinterpreted_eq (value : Int64) :
    reinterpreted column value = some (UInt64.ofNat (value.toUInt64.toNat % 256 ^ type.width)) := by
  obtain ⟨name, hn, hi⟩ := ht.isType_eq
  unfold reinterpreted
  rw [hi]
  cases type <;> simp only [names, mem_cons, not_mem_nil, or_false] at hn
  case int => rcases hn with rfl | rfl <;> rfl
  all_goals subst hn; rfl

theorem adaptBinlogValue_uint (value : UInt64) :
    adaptBinlogValue lib column (.uint value) = .ok (.uint value) := by
  obtain ⟨name, hn, hi⟩ := ht.isType_eq
  unfold adaptBinlogValue
  rw [hi]
  cases type <;> simp only [names, mem_cons, not_mem_nil, or_false] at hn
  case int => rcases hn with rfl | rfl <;> rfl
  all_goals subst hn; rfl

theorem adaptBinlogValue_int_signed (hu : declaredUnsigned column = false) (value : Int64) :
    adaptBinlogValue lib column (.int value) =
      .ok (.int (if type = mediumint ∧ 0x800000 ≤ value.toInt ∧ value.toInt < 0x1000000
        then value - 0x1000000 else value)) := by
  obtain ⟨name, hn, hi⟩ := ht.isType_eq
  unfold adaptBinlogValue
  rw [hi]
  simp only [hu]
  cases type <;> simp only [names, mem_cons, not_mem_nil, or_false] at hn
  case mediumint =>
    subst hn
    by_cases h : 0x800000 ≤ value.toInt ∧ value.toInt < 0x1000000
    · simp [h]
    · have hd : decide (0x800000 ≤ value.toInt ∧ value.toInt < 0x1000000) = false :=
        decide_eq_false h
      have hsame : (if mediumint = mediumint ∧ 0x800000 ≤ value.toInt ∧ value.toInt < 0x1000000
          then value - 0x1000000 else value) = value := if_neg fun hp => h hp.2
      rw [hd, hsame]
      rfl
  case int => rcases hn with rfl | rfl <;> rfl
  all_goals subst hn; rfl

variable {value : MysqlValue}

theorem adapt_signed (hu : declaredUnsigned column = false) (hr : type.InRange false v)
    (hv : type.ReadAs false (v % 256 ^ type.width).toNat value) :
    adaptBinlogValue lib column value = .ok (.int (ofInt v)) := by
  have hto := toInt_ofInt hr
  rw [InRange, if_neg Bool.false_ne_true] at hr
  have hpos : (0 : ℤ) < 256 ^ type.width := by positivity
  have hn : ((v % 256 ^ type.width).toNat : ℤ) = v % 256 ^ type.width :=
    toNat_of_nonneg (emod_nonneg v hpos.ne')
  have hmod : v % 256 ^ type.width = if 0 ≤ v then v else v + 256 ^ type.width := by
    split_ifs with h
    · exact emod_eq_of_lt h (by omega)
    · rw [← add_emod_right, emod_eq_of_lt (by omega) (by omega)]
  rcases hv with rfl | ⟨rfl, rfl⟩
  · have hback : (if 2 * (v % 256 ^ type.width).toNat < 256 ^ type.width
        then ((v % 256 ^ type.width).toNat : ℤ)
        else (v % 256 ^ type.width).toNat - 256 ^ type.width) = v := by
      zify
      split_ifs <;> omega
    rw [hback, adaptBinlogValue_int_signed lib ht hu, if_neg]
    rintro ⟨rfl, hge, -⟩
    simp only [width] at hr
    omega
  · have hthree : (ofInt ((v % 256 ^ mediumint.width).toNat : ℤ)).toInt =
        v % 256 ^ mediumint.width := by
      rw [hn]
      apply toInt_ofInt_of_le <;> simp only [width] <;> omega
    rw [adaptBinlogValue_int_signed lib ht hu, hthree, hn, hmod]
    simp only [width] at hr ⊢
    by_cases h : 0 ≤ v
    · rw [if_pos h, if_neg (by omega)]
    · rw [if_neg h, if_pos (by simp; omega)]
      have hsub : ofInt (v + 256 ^ 3) - 0x1000000 = ofInt v := by
        apply toBitVec_inj.mp
        simp
      rw [hsub]

theorem adapt_unsigned (hu : declaredUnsigned column = true) (hr : type.InRange true v)
    (hv : type.ReadAs inMap (v % 256 ^ type.width).toNat value) :
    adaptBinlogValue lib column value = .ok (.uint (UInt64.ofNat v.toNat)) := by
  obtain ⟨hn, hlt⟩ := toNat_image hr
  rw [hn] at hv
  have hself : v % 256 ^ type.width = v := by
    exact emod_eq_of_lt hr.1 hr.2
  have hpos := hr.nonneg
  have hnat : (v.toNat : ℤ) = v := toNat_of_nonneg hpos
  have hlow (x : ℤ) (hx : x = v ∨ x = v - 256 ^ type.width) :
      adaptBinlogValue lib column (.int (ofInt x)) = .ok (.uint (UInt64.ofNat v.toNat)) := by
    have hmod : x % 256 ^ type.width = v := by
      rcases hx with rfl | rfl
      · exact hself
      · rw [sub_emod_right, hself]
    simp [adaptBinlogValue, hu, reinterpreted_eq ht, toNat_toUInt64_ofInt_mod, hmod]
  rw [ReadAs, hnat] at hv
  split_ifs at hv
  · rcases hv with rfl | ⟨-, rfl⟩
    · exact adaptBinlogValue_uint lib ht _
    · exact hlow v (.inl rfl)
  · rcases hv with rfl | ⟨-, rfl⟩
    · exact hlow v (.inl rfl)
    · exact hlow v (.inl rfl)
  · rcases hv with rfl | ⟨-, rfl⟩
    · exact hlow _ (.inr rfl)
    · exact hlow v (.inl rfl)

theorem adaptBinlogValue_of_readAs (hmap : inMap = true → declaredUnsigned column = true)
    (hr : type.InRange (declaredUnsigned column) v)
    (hv : type.ReadAs inMap (v % 256 ^ type.width).toNat value) :
    adaptBinlogValue lib column value =
      .ok (if declaredUnsigned column then .uint (UInt64.ofNat v.toNat)
        else .int (ofInt v)) := by
  cases hu : declaredUnsigned column with
  | false =>
    rw [hu] at hr hmap
    obtain rfl : inMap = false := by simpa using hmap
    exact adapt_signed lib ht hu hr hv
  | true =>
    rw [hu] at hr
    exact adapt_unsigned lib ht hu hr hv

theorem mapMysqlValue_integer (table : String) (hp : Probed column)
    (hr : type.InRange (declaredUnsigned column) v) :
    mapMysqlValue lib table column
        (if declaredUnsigned column then .uint (UInt64.ofNat v.toNat) else .int (ofInt v)) =
      .ok (storedValue column (.integer v)) := by
  have htype := pintailType_eq ht hp
  have hbit : isType column "bit" = false := by
    obtain ⟨name, hn, hi⟩ := ht.isType_eq
    rw [hi]
    clear hi
    revert name
    cases type <;> decide
  cases hu : declaredUnsigned column with
  | false =>
    rw [hu] at hr htype
    have hzero := ofInt_eq_zero_iff hr
    have hto := toInt_ofInt hr
    have hfits := signedFits_of_inRange hr
    by_cases hb : type = tinyint ∧ showsBoolean column = true
    · rw [if_pos hb] at htype
      simp [mapMysqlValue, htype, mysqlBool, storedValue, hzero]
    · rw [if_neg hb] at htype
      cases type <;> simp only [signedType] at htype hfits <;>
        simp [mapMysqlValue, htype, mysqlI64, hto, hfits, storedValue, hu]
  | true =>
    rw [hu] at hr htype
    have hzero := ofNat_eq_zero_iff hr
    have hto := toNat_ofNat hr
    have hfits := unsignedFits_of_inRange hr
    by_cases hb : type = tinyint ∧ showsBoolean column = true
    · rw [if_pos hb] at htype
      simp [mapMysqlValue, htype, mysqlBool, storedValue, hzero]
    · rw [if_neg hb] at htype
      cases type <;> simp only [unsignedType] at htype hfits <;>
        simp [mapMysqlValue, htype, mysqlU64, hto, hfits, storedValue, hu]

end IntegerType

end Pintail.Cdc
