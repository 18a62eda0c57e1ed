import Pintail.Cdc.KeyIntegers

/-! # Values of key columns

Text is written in the character set of its column and bytes without the padding of a fixed width.
Whatever a key column holds, reading its bytes off a row image gives the value to store, through the
plan and through the general decoder, unless the row is refused.
-/

namespace Pintail.Cdc

open Bytes Probe Except Reader IntegerType
open List hiding set

def textTypes : List String :=
  ["char", "varchar", "tinytext", "text", "mediumtext", "longtext"]

def binaryTypes : List String :=
  ["binary", "varbinary", "tinyblob", "blob", "mediumblob", "longblob"]

section Bytes

variable {column : SourceColumn} {name : String}

theorem pintailType_of_name (hi : isType column name = true) (hp : Probed column) :
    (name ∈ textTypes → column.pintailType = .utf8) ∧
      (name ∈ binaryTypes → column.pintailType = .binary) := by
  obtain ⟨raw, hd, hc, hm⟩ := hp
  have hname : sameName raw.dataType = sameName name := by
    rw [hd]
    exact funext (isType_eq hi)
  unfold mapMysqlType at hm
  simp only [hname] at hm
  constructor
  all_goals
    intro hn
    simp only [textTypes, binaryTypes, mem_cons, not_mem_nil, or_false] at hn
    rcases hn with rfl | rfl | rfl | rfl | rfl | rfl <;> simp +decide [Except.map] at hm <;>
      exact hm.symm

/-- The bytes of a text in the character set of its column. The text of a set the decoder does
not know may be any. -/
def TextWritten (column : SourceColumn) (text : String) (body : List UInt8) : Prop :=
  match column.characterSet with
  | none => body = utf8Bytes text
  | some set =>
    if ["utf8mb4", "utf8", "utf8mb3", "ascii"].any (sameName set) = true then body = utf8Bytes text
    else sameName set "latin1" = true → decodeLatin1 body = text

/-- The bytes a row image has of a binary value: a fixed-width one without its trailing zeros. -/
def BinaryWritten (column : SourceColumn) (value body : List UInt8) : Prop :=
  match fixedBinaryWidth column with
  | some width => value.length = width ∧ body = value.rdropWhile (· == 0)
  | none => body = value

variable {body : List UInt8} {text : String} {value body : List UInt8}

theorem transcodeText_of_written {transcoded : String} (hw : TextWritten column text body)
    (h : transcodeText column body = .ok transcoded) : transcoded = text := by
  unfold TextWritten at hw
  unfold transcodeText at h
  cases hc : column.characterSet with
  | none =>
    simp only [hc] at hw h
    subst hw
    rw [utf8?_utf8Bytes] at h
    exact (ok.inj h).symm
  | some set =>
    simp only [hc] at hw h
    split_ifs at hw h with hu hl
    · subst hw
      rw [utf8?_utf8Bytes] at h
      exact (ok.inj h).symm
    · exact (ok.inj h).symm.trans (hw hl)

theorem body_of_unicode (hw : TextWritten column text body)
    (hu : (column.characterSet.all fun set =>
      ["utf8mb4", "utf8", "utf8mb3", "ascii"].any (sameName set)) = true) :
    body = utf8Bytes text := by
  unfold TextWritten at hw
  cases hc : column.characterSet with
  | none =>
    simp only [hc] at hw
    exact hw
  | some set =>
    rw [hc, Option.all_some] at hu
    simp only [hc] at hw
    rwa [if_pos hu] at hw

theorem adaptBinlogValue_bytes (lib : Libraries) (hn : name ∈ textTypes ++ binaryTypes)
    (hi : isType column name = true) (body : List UInt8) :
    adaptBinlogValue lib column (.bytes body) = adaptBytes column body := by
  have hname : isType column = sameName name := funext (isType_eq hi)
  have hs : ∀ name ∈ textTypes ++ binaryTypes, sameName name "enum" = false ∧
      sameName name "set" = false ∧ sameName name "timestamp" = false := by decide
  obtain ⟨he, hset, ht⟩ := hs name hn
  simp [adaptBinlogValue, hname, he, hset, ht]

theorem isTextual_of_name (hi : isType column name = true) :
    (name ∈ textTypes → isTextual column = true) ∧
      (name ∈ binaryTypes → isTextual column = false) := by
  unfold isTextual
  rw [funext (isType_eq hi)]
  constructor
  all_goals
    clear hi
    revert name
    decide

theorem special_eq_false (hn : name ∈ textTypes ++ binaryTypes) (hi : isType column name = true) :
    special column = false := by
  have hs : ∀ name ∈ textTypes ++ binaryTypes,
      (sameName name "enum" || sameName name "set" || sameName name "timestamp") = false := by
    decide
  unfold special
  rw [funext (isType_eq hi)]
  exact hs name hn

theorem padFixedBinary_rdropWhile (value : List UInt8) :
    padFixedBinary (value.rdropWhile (· == 0)) value.length = value := by
  induction value using reverseRecOn with
  | nil => rfl
  | append_singleton value byte ih =>
    by_cases hb : (byte == 0) = true
    · obtain rfl := beq_iff_eq.mp hb
      have hle : (value.rdropWhile (· == 0)).length ≤ value.length :=
        (List.rdropWhile_prefix _ _).length_le
      rw [rdropWhile_concat, if_pos hb, length_append, length_singleton,
        padFixedBinary, Nat.succ_sub hle, replicate_succ', ← append_assoc]
      exact congrArg (· ++ [0]) ih
    · rw [rdropWhile_concat, if_neg hb]
      simp [padFixedBinary]

theorem pad_of_written (hw : BinaryWritten column value body) :
    padFixedBinary body ((fixedBinaryWidth column).getD 0) = value := by
  unfold BinaryWritten at hw
  cases hf : fixedBinaryWidth column with
  | none =>
    simp only [hf] at hw
    simp [padFixedBinary, hw]
  | some width =>
    simp only [hf] at hw
    obtain ⟨rfl, rfl⟩ := hw
    exact padFixedBinary_rdropWhile value

theorem decodeValue_text {lib : Libraries} {table : String} (hn : name ∈ textTypes)
    (hi : isType column name = true) (hp : Probed column) (hw : TextWritten column text body)
    (hchar : isType column "char" = true → text.toList.getLast? ≠ some ' ') {stored : Value}
    (h : decodeValue lib table column (.ok (.bytes body)) = .ok stored) : stored = .utf8 text := by
  have ha := adaptBinlogValue_bytes lib (mem_append_left _ hn) hi body
  rw [adaptBytes, if_pos ((isTextual_of_name hi).1 hn)] at ha
  cases htr : transcodeText column body with
  | error error =>
    rw [htr] at ha
    simp only [decodeValue, ha] at h
    cases h
  | ok transcoded =>
    obtain rfl := transcodeText_of_written hw htr
    rw [htr] at ha
    have hm : mapMysqlValue lib table column (.bytes (utf8Bytes transcoded)) =
        .ok (.utf8 transcoded) := by
      simp only [mapMysqlValue, (pintailType_of_name hi hp).1 hn, mysqlText, utf8?_utf8Bytes,
        reduceCtorEq, if_false]
      split_ifs with hc
      · rw [rdropWhile_eq_self_iff.mpr, String.ofList_toList]
        intro hne hlast
        exact hchar hc (getLast?_eq_some_getLast hne ▸ congrArg some (beq_iff_eq.mp hlast))
      · rfl
    rw [decodeValue_eq ha hm] at h
    exact (ok.inj h).symm

theorem decodeValue_binary (lib : Libraries) (table : String) (hn : name ∈ binaryTypes)
    (hi : isType column name = true) (hp : Probed column) (hw : BinaryWritten column value body) :
    decodeValue lib table column (.ok (.bytes body)) = .ok (.binary value) := by
  have ha := adaptBinlogValue_bytes lib (mem_append_right _ hn) hi body
  rw [adaptBytes, (isTextual_of_name hi).2 hn] at ha
  have hm : mapMysqlValue lib table column (.bytes value) = .ok (.binary value) := by
    simp [mapMysqlValue, (pintailType_of_name hi hp).2 hn, mysqlBytes, reduceCtorEq]
  have hpad := pad_of_written hw
  cases hf : fixedBinaryWidth column with
  | none =>
    simp only [hf] at ha hpad
    obtain rfl : body = value := by simpa [padFixedBinary] using hpad
    exact decodeValue_eq ha hm
  | some width =>
    simp only [hf, Option.getD_some] at ha hpad
    rw [hpad] at ha
    exact decodeValue_eq ha hm

end Bytes

/-- The client library reads integers and counted bytes as they stand in the event. -/
structure Libraries.Faithful (lib : Libraries) : Prop where
  integer : ∀ (type : IntegerType) (metadata : List UInt8) (unsigned : Bool) (n : ℕ)
    (rest : List UInt8), n < 256 ^ type.width → ∃ value,
      lib.deserialize type.kind metadata unsigned (leBytes type.width n ++ rest) =
        .ok (.ok value, rest) ∧ type.ReadAs unsigned n value
  counted : ∀ (kind : ColumnType) (metadata : List UInt8) (k : ℕ),
    lengthBytes kind metadata = some k → ∀ (unsigned : Bool) (body rest : List UInt8),
      body.length < 256 ^ k →
        lib.deserialize kind metadata unsigned (leBytes k body.length ++ (body ++ rest)) =
          .ok (.ok (.bytes body), rest)

/-- The bytes a row image has for a value of a key column: little-endian integers of the declared
width, and text and bytes after their length. A table map without signedness calls every integer
signed. -/
inductive Writes (source : SourceColumn) (column : PlanColumn) : SourceValue → List UInt8 → Prop
  | integer (type : IntegerType) (value : ℤ) : type.Declares source → column.kind = type.kind →
      (column.unsigned = true → declaredUnsigned source = true) →
      type.InRange (declaredUnsigned source) value →
      Writes source column (.integer value) (type.image value)
  | text {name : String} {k : ℕ} (value : String) (body : List UInt8) : name ∈ textTypes →
      isType source name = true → lengthBytes column.kind column.metadata = some k →
      body.length < 256 ^ k → TextWritten source value body →
      (isType source "char" = true → value.toList.getLast? ≠ some ' ') →
      Writes source column (.text value) (leBytes k body.length ++ body)
  | binary {name : String} {k : ℕ} (value body : List UInt8) : name ∈ binaryTypes →
      isType source name = true → lengthBytes column.kind column.metadata = some k →
      body.length < 256 ^ k → BinaryWritten source value body →
      Writes source column (.binary value) (leBytes k body.length ++ body)

section Reading

variable {lib : Libraries} {source : SourceColumn} {column : PlanColumn} {v : SourceValue}
  {bytes : List UInt8} {table : String} {k : ℕ} {body : List UInt8}

theorem reads_take (field : List UInt8) (table : String) :
    Reads (take field.length table) field field := by
  intro rest
  simp [take, StateT.run]

theorem Writes.deserialize (hl : lib.Faithful) (hp : Probed source)
    (h : Writes source column v bytes) (rest : List UInt8) :
    ∃ value, lib.deserialize column.kind column.metadata column.unsigned (bytes ++ rest) =
        .ok (.ok value, rest) ∧
      ∀ table stored, decodeValue lib table source (.ok value) = .ok stored →
        stored = storedValue source v := by
  cases h with
  | integer type v ht hk hu hr =>
    have hn : (v % 256 ^ type.width).toNat < 256 ^ type.width := by
      have hpos : (0 : ℤ) < 256 ^ type.width := by positivity
      rw [Int.toNat_lt (Int.emod_nonneg v hpos.ne')]
      exact Int.emod_lt_of_pos v hpos
    obtain ⟨value, hd, hv⟩ := hl.integer type column.metadata column.unsigned _ rest hn
    refine ⟨value, by rw [hk]; exact hd, fun table stored hs => ?_⟩
    rw [decodeValue_eq (adaptBinlogValue_of_readAs lib ht hu hr hv)
      (mapMysqlValue_integer lib ht table hp hr)] at hs
    exact (ok.inj hs).symm
  | text text body hn hi hk hlen hw hchar =>
    refine ⟨.bytes body, ?_, fun table stored hs => decodeValue_text hn hi hp hw hchar hs⟩
    rw [append_assoc]
    exact hl.counted _ _ _ hk _ body rest hlen
  | binary value body hn hi hk hlen hw =>
    refine ⟨.bytes body, ?_, fun table stored hs => ?_⟩
    · rw [append_assoc]
      exact hl.counted _ _ _ hk _ body rest hlen
    · rw [decodeValue_binary lib table hn hi hp hw] at hs
      exact (ok.inj hs).symm

theorem resolve_of_lengthBytes {kind : ColumnType} {metadata : List UInt8}
    (h : lengthBytes kind metadata = some k) (lib : Libraries) (unsigned : Bool) :
    resolve source lib kind metadata unsigned = bytesReader source k := by
  cases kind <;> first | (simp only [resolve, h]; done) | cases h

theorem reads_counted (target : Option SourceColumn)
    (hf : column.reader.framing = .counted k) (hlen : body.length < 256 ^ k) :
    Reads (column.read lib table target) (leBytes k body.length ++ body)
      (column.framedValue lib table target (leBytes k body.length ++ body) body) := by
  have hhead : Reads (take k table) (leBytes k body.length) (leBytes k body.length) := by
    have h := reads_take (leBytes k body.length) table
    rwa [length_leBytes] at h
  have hbody : Reads (take (leNat (leBytes k body.length)) table) body body := by
    rw [leNat_leBytes_of_lt hlen]
    exact reads_take body table
  unfold PlanColumn.read
  rw [hf]
  exact hhead.bind hbody.map

theorem reads_fixed (target : Option SourceColumn)
    (hf : column.reader.framing = .fixed body.length) :
    Reads (column.read lib table target) body (column.framedValue lib table target body body) := by
  unfold PlanColumn.read
  rw [hf]
  exact (reads_take body table).map

/-- Reading a key value off an image consumes its bytes and gives the value to store, unless the
row is refused. -/
theorem Writes.read (hl : lib.Faithful) (hp : Probed source) (h : Writes source column v bytes)
    (hreader : column.reader =
      resolve source lib column.kind column.metadata column.unsigned) :
    ∃ decoded, Reads (column.read lib table (some source)) bytes decoded ∧
      ∀ stored, decoded = .ok stored → stored = storedValue source v := by
  cases h with
  | integer type v ht hk hu hr =>
    obtain ⟨target, htarget, hres⟩ := resolve_eq lib ht hp hu column.metadata
    obtain ⟨target', htarget', hvalue⟩ := integerValue_image ht hp hu hr
    obtain rfl : target = target' := Option.some.inj (htarget.symm.trans htarget')
    rw [hk, hres] at hreader
    have hlen : (type.image v).length = type.width := length_leBytes _ _
    refine ⟨_, reads_fixed (some source) (by rw [hreader, hlen]; rfl), fun stored hs => ?_⟩
    rw [PlanColumn.framedValue, hreader] at hs
    simp only [value, hvalue] at hs
    exact (ok.inj hs).symm
  | @text name k text body hn hi hk hlen hw hchar =>
    rw [resolve_of_lengthBytes hk, bytesReader,
      special_eq_false (mem_append_left _ hn) hi, if_neg Bool.false_ne_true,
      (isTextual_of_name hi).1 hn, (pintailType_of_name hi hp).1 hn] at hreader
    dsimp only at hreader
    split_ifs at hreader with hu
    · refine ⟨_, reads_counted (some source) (by rw [hreader]; rfl) hlen, fun stored hs => ?_⟩
      rw [PlanColumn.framedValue, hreader, body_of_unicode hw hu] at hs
      simp only [value, utf8?_utf8Bytes] at hs
      exact (ok.inj hs).symm
    · refine ⟨decodeValue lib table source (.ok (.bytes body)), fun rest => ?_, fun stored hs =>
        decodeValue_text hn hi hp hw hchar hs⟩
      unfold PlanColumn.read
      rw [hreader, append_assoc]
      change column.general lib table (some source) _ = _
      rw [PlanColumn.general, hl.counted _ _ _ hk _ body rest hlen]
      rfl
  | @binary name k value body hn hi hk hlen hw =>
    rw [resolve_of_lengthBytes hk, bytesReader,
      special_eq_false (mem_append_right _ hn) hi, (isTextual_of_name hi).2 hn,
      (pintailType_of_name hi hp).2 hn] at hreader
    refine ⟨_, reads_counted (some source) (by rw [hreader]; rfl) hlen, fun stored hs => ?_⟩
    rw [PlanColumn.framedValue, hreader] at hs
    simp only [Reader.value, pad_of_written hw, Bool.false_eq_true, if_false] at hs
    exact (ok.inj hs).symm

theorem Reads.eq {d : ImageReader (Except CdcError Value)} {a b : Except CdcError Value}
    (h : Reads d bytes a) (h' : Reads d bytes b) : a = b := by
  have heq := (h []).symm.trans (h' [])
  injection heq with heq
  exact congrArg Prod.fst heq

end Reading

end Pintail.Cdc
