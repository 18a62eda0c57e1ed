import Pintail.Bytes.LittleEndian
import Pintail.Bytes.Reads
import Pintail.Store.Error
import Pintail.Support.Except

/-! # The row codec

Keys and rows are written as tagged fields with 32-bit lengths. Whatever the encoder accepts, the
decoder reads back as the durable form of the row, and stops exactly at its end.
-/

namespace Pintail

open Bytes Except UInt32

namespace Encoder

/-- A 32-bit length field; a longer collection has no encoding. -/
def length (value : ℕ) (what : String) : Except StoreError (List UInt8) :=
  if value < 2 ^ 32 then .ok (u32Bytes (ofNat value))
  else .error (.formatLimit s!"{what} exceeds u32::MAX")

def bytes (value : List UInt8) (what : String) : Except StoreError (List UInt8) := do
  let head ← length value.length what
  pure (head ++ value)

def utf8 (value : String) (what : String) : Except StoreError (List UInt8) :=
  bytes value.toByteArray.data.toList what

/-- A length field followed by the items, each with its own encoding. -/
def each {α : Type} (items : List α) (what : String) (encode : α → Except StoreError (List UInt8)) :
    Except StoreError (List UInt8) := do
  let head ← length items.length what
  let chunks ← items.mapM encode
  pure (head ++ chunks.flatten)

theorem four_le_length_each {α : Type} {items : List α} {what : String}
    {encode : α → Except StoreError (List UInt8)} {out : List UInt8}
    (h : each items what encode = .ok out) : 4 ≤ out.length := by
  obtain ⟨head, hl, h⟩ := bind_eq_ok.mp h
  obtain ⟨chunks, -, h⟩ := bind_eq_ok.mp h
  cases h
  unfold length at hl
  split at hl
  · cases hl
    simp
  · cases hl

end Encoder

open Encoder

/-- The unread part of a payload, with the failures of a malformed one. -/
abbrev Decoder := Decode UInt8 String

namespace Decoder

def u8 : Decoder UInt8 := fun
  | [] => .error "unexpected end while reading u8"
  | byte :: rest => .ok (byte, rest)

def take (length : ℕ) : Decoder (List UInt8) := fun input =>
  if input.length < length then .error s!"unexpected end while reading {length} bytes"
  else .ok (input.take length, input.drop length)

def u32 : Decoder UInt32 := do
  let field ← take 4
  pure (ofNat (leNat field))

def u64 : Decoder UInt64 := do
  let field ← take 8
  pure (UInt64.ofNat (leNat field))

def i64 : Decoder Int64 := do
  let field ← u64
  pure field.toInt64

def bytes : Decoder (List UInt8) := do
  let length ← toNat <$> u32
  take length

/-- A collection cannot hold more minimally sized elements than bytes are left. -/
def count (minimumWidth : ℕ) : Decoder ℕ := do
  let count ← toNat <$> u32
  let input ← get
  if count > input.length / minimumWidth then
    throw "collection count exceeds remaining payload"
  pure count

def each {α : Type} (minimumWidth : ℕ) (decode : Decoder α) : Decoder (List α) := do
  let count ← count minimumWidth
  decode.times count

def finish : Decoder Unit := fun input =>
  if input = [] then .ok ((), input)
  else .error s!"{input.length} trailing bytes after record payload"

def utf8 (what : String) : Decoder String := do
  let field ← bytes
  match String.fromUTF8? ⟨field.toArray⟩ with
  | some value => pure value
  | none => throw s!"invalid {what}"

end Decoder

def encodeKeyPart : KeyPart → Except StoreError (List UInt8)
  | .int64 value => .ok (0 :: i64Bytes value)
  | .uint64 value => .ok (1 :: u64Bytes value)
  | .utf8 value => (2 :: ·) <$> utf8 value "UTF-8 key"
  | .binary value => (3 :: ·) <$> bytes value "binary key"

def encodeKey (key : PrimaryKey) : Except StoreError (List UInt8) :=
  each key.parts "primary-key component count" encodeKeyPart

def encodeValue : Value → Except StoreError (List UInt8)
  | .null => .ok [0]
  | .boolean value => .ok [1, if value then 1 else 0]
  | .int64 value => .ok (2 :: i64Bytes value)
  | .uint64 value => .ok (3 :: u64Bytes value)
  | .float64 bits => .ok (4 :: u64Bytes bits)
  | .utf8 value => (5 :: ·) <$> utf8 value "UTF-8 value"
  | .binary value => (6 :: ·) <$> bytes value "binary value"
  -- the label is the durable form
  | .decimalAverage value => (5 :: ·) <$> utf8 value.label "UTF-8 value"
  | .enum _ label => (5 :: ·) <$> utf8 label "UTF-8 value"

def encodeRow (row : StoredRow) : Except StoreError (List UInt8) := do
  let key ← encodeKey row.key
  let values ← each row.values "row value count" encodeValue
  pure (key ++ values ++ u64Bytes row.version ++ [if row.deleted then 1 else 0])

def decodeKeyPart : Decoder KeyPart := do
  match ← Decoder.u8 with
  | 0 => KeyPart.int64 <$> Decoder.i64
  | 1 => KeyPart.uint64 <$> Decoder.u64
  | 2 => KeyPart.utf8 <$> Decoder.utf8 "UTF-8 key"
  | 3 => KeyPart.binary <$> Decoder.bytes
  | tag => throw s!"unknown key type tag {tag}"

def decodeKey : Decoder PrimaryKey := do
  let parts ← Decoder.each 1 decodeKeyPart
  if h : parts ≠ [] then pure ⟨parts, h⟩ else throw "a primary key cannot be empty"

def decodeValue : Decoder Value := do
  match ← Decoder.u8 with
  | 0 => pure .null
  | 1 =>
    match ← Decoder.u8 with
    | 0 => pure (.boolean false)
    | 1 => pure (.boolean true)
    | value => throw s!"invalid boolean value {value}"
  | 2 => Value.int64 <$> Decoder.i64
  | 3 => Value.uint64 <$> Decoder.u64
  | 4 => Value.float64 <$> Decoder.u64
  | 5 => Value.utf8 <$> Decoder.utf8 "UTF-8 value"
  | 6 => Value.binary <$> Decoder.bytes
  | tag => throw s!"unknown value type tag {tag}"

def decodeDeleted : Decoder Bool := do
  match ← Decoder.u8 with
  | 0 => pure false
  | 1 => pure true
  | value => throw s!"invalid tombstone flag {value}"

def decodeRow : Decoder StoredRow := do
  let key ← decodeKey
  let values ← Decoder.each 1 decodeValue
  let version ← Decoder.u64
  let deleted ← decodeDeleted
  pure { key, values, version, deleted }

namespace Decoder

theorem reads_u8 (byte : UInt8) : Reads u8 [byte] byte := fun _ => rfl

theorem reads_take (field : List UInt8) : Reads (take field.length) field field := by
  intro rest
  simp [take, StateT.run]

theorem reads_u32 (v : UInt32) : Reads u32 (u32Bytes v) v := by
  have h := (reads_take (u32Bytes v)).map (f := fun field => ofNat (leNat field))
  rwa [ofNat_leNat_u32Bytes] at h

theorem reads_u64 (v : UInt64) : Reads u64 (u64Bytes v) v := by
  have h := (reads_take (u64Bytes v)).map (f := fun field => UInt64.ofNat (leNat field))
  rwa [ofNat_leNat_u64Bytes] at h

theorem reads_i64 (v : Int64) : Reads i64 (i64Bytes v) v := by
  have h := (reads_u64 v.toUInt64).map (f := fun field => field.toInt64)
  rwa [Int64.toInt64_toUInt64] at h

variable {out : List UInt8} {what : String} {n w : ℕ}

theorem length_eq_ok (h : length n what = .ok out) : n < 2 ^ 32 ∧ out = u32Bytes (ofNat n) := by
  unfold length at h
  split at h
  · rename_i hn
    exact ⟨hn, (Except.ok.inj h).symm⟩
  · cases h

theorem reads_length (h : length n what = .ok out) : Reads (toNat <$> u32) out n := by
  obtain ⟨hn, rfl⟩ := length_eq_ok h
  have hr := (reads_u32 (ofNat n)).map (f := toNat)
  rwa [toNat_ofNat_of_lt' (by simpa using hn)] at hr

theorem reads_bytes {value out : List UInt8} (h : Encoder.bytes value what = .ok out) :
    Reads bytes out value := by
  obtain ⟨head, hl, ho⟩ := bind_eq_ok.mp h
  cases ho
  exact (reads_length hl).bind (reads_take value)

theorem reads_utf8 {value what what' : String} (h : Encoder.utf8 value what = .ok out) :
    Reads (utf8 what') out value := by
  have hv : String.fromUTF8? ⟨value.toByteArray.data.toList.toArray⟩ = some value := by
    simp [String.fromUTF8?, value.isValidUTF8, String.fromUTF8]
  apply (reads_bytes h).andThen
  simp only [hv]
  exact Reads.pure value

theorem run_count {head rest : List UInt8} (hw : 0 < w) (h : length n what = .ok head)
    (hrest : n * w ≤ rest.length) : (count w).run (head ++ rest) = .ok (n, rest) := by
  have hcount : ¬ n > rest.length / w := by
    have := (Nat.le_div_iff_mul_le hw).mpr hrest
    omega
  rw [count, StateT.run_bind, reads_length h]
  change (ite (n > rest.length / w) _ _ : Decoder ℕ) _ = _
  rw [if_neg hcount]
  rfl

theorem reads_each {α τ : Type} {d : Decoder α} {items : List τ}
    {enc : τ → Except StoreError (List UInt8)} {g : τ → α} (hw : 0 < w)
    (h : Encoder.each items what enc = .ok out)
    (hr : ∀ t ∈ items, ∀ field, enc t = .ok field → w ≤ field.length ∧ Reads d field (g t)) :
    Reads (each w d) out (items.map g) := by
  obtain ⟨head, hl, ho⟩ := bind_eq_ok.mp h
  obtain ⟨chunks, hc, ho⟩ := bind_eq_ok.mp ho
  cases ho
  have hf := forall₂_of_mapM_eq_ok hc hr
  have hwidth := length_mul_le_flatten (hf.imp fun _ _ h => h.1)
  have htimes : Reads (d.times items.length) chunks.flatten (items.map g) := by
    simpa using Reads.times (List.forall₂_map_right_iff.mpr (hf.imp fun _ _ h => h.2))
  intro rest
  have hleft : items.length * w ≤ (chunks.flatten ++ rest).length := by
    rw [List.length_append]
    exact hwidth.trans (Nat.le_add_right _ _)
  have hn := run_count hw hl hleft
  rw [List.append_assoc, each, StateT.run_bind, hn]
  exact htimes rest

theorem reads_keyPart {part : KeyPart} (h : encodeKeyPart part = .ok out) :
    1 ≤ out.length ∧ Reads decodeKeyPart out part := by
  cases part with
  | int64 value =>
    cases h
    exact ⟨by simp, (reads_u8 0).bind (reads_i64 value).map⟩
  | uint64 value =>
    cases h
    exact ⟨by simp, (reads_u8 1).bind (reads_u64 value).map⟩
  | utf8 value =>
    obtain ⟨field, hf, rfl⟩ := map_eq_ok.mp h
    exact ⟨by simp, (reads_u8 2).bind (reads_utf8 hf).map⟩
  | binary value =>
    obtain ⟨field, hf, rfl⟩ := map_eq_ok.mp h
    exact ⟨by simp, (reads_u8 3).bind (reads_bytes hf).map⟩

theorem reads_key {key : PrimaryKey} (h : encodeKey key = .ok out) : Reads decodeKey out key := by
  have hp := reads_each (g := id) Nat.one_pos h fun _ _ _ hf => reads_keyPart hf
  rw [List.map_id] at hp
  apply hp.andThen
  simp only [key.nonempty, ne_eq]
  exact Reads.pure key

theorem reads_value {value : Value} (h : encodeValue value = .ok out) :
    1 ≤ out.length ∧ Reads decodeValue out value.durable := by
  cases value with
  | null =>
    cases h
    exact ⟨by simp, (reads_u8 0).bind (Reads.pure _)⟩
  | boolean value =>
    cases h
    cases value
    · exact ⟨by simp, (reads_u8 1).bind ((reads_u8 0).bind (Reads.pure _))⟩
    · exact ⟨by simp, (reads_u8 1).bind ((reads_u8 1).bind (Reads.pure _))⟩
  | int64 value =>
    cases h
    exact ⟨by simp, (reads_u8 2).bind (reads_i64 value).map⟩
  | uint64 value =>
    cases h
    exact ⟨by simp, (reads_u8 3).bind (reads_u64 value).map⟩
  | float64 bits =>
    cases h
    exact ⟨by simp, (reads_u8 4).bind (reads_u64 bits).map⟩
  | binary value =>
    obtain ⟨field, hf, rfl⟩ := map_eq_ok.mp h
    exact ⟨by simp, (reads_u8 6).bind (reads_bytes hf).map⟩
  | utf8 label | decimalAverage _ | enum _ label =>
    obtain ⟨field, hf, rfl⟩ := map_eq_ok.mp h
    exact ⟨by simp, (reads_u8 5).bind (reads_utf8 hf).map⟩

theorem reads_deleted (deleted : Bool) :
    Reads decodeDeleted [if deleted then 1 else 0] deleted := by
  cases deleted
  · exact (reads_u8 0).bind (Reads.pure _)
  · exact (reads_u8 1).bind (Reads.pure _)

theorem reads_row {row : StoredRow} (h : encodeRow row = .ok out) :
    1 ≤ out.length ∧ Reads decodeRow out row.durable := by
  obtain ⟨key, hk, h⟩ := bind_eq_ok.mp h
  obtain ⟨values, hv, h⟩ := bind_eq_ok.mp h
  cases h
  have hvs := reads_each Nat.one_pos hv fun _ _ _ hf => reads_value hf
  refine ⟨by simp; omega, ?_⟩
  rw [List.append_assoc, List.append_assoc]
  exact (reads_key hk).bind (hvs.bind ((reads_u64 _).bind (reads_deleted _).map))

end Decoder

end Pintail
