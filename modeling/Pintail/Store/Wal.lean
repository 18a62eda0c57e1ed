import Pintail.Bytes.Frames
import Pintail.Store.Codec

/-! # The write-ahead log

A log file is a header followed by records: a 32-bit length, a payload and the payload's checksum.
A payload is either a batch of rows under its column list or a transaction commit. Reopening the
file replays complete records and cuts an incomplete last one off.
-/

namespace Pintail

open Bytes Decoder

structure WalColumn where
  id : UInt32
  dataType : DataType
  deriving DecidableEq, Repr

structure RecoveredBatch where
  sequence : UInt64
  tableId : UInt64
  columns : List WalColumn
  rows : List StoredRow

/-- A recovered commit: how many batches it covers, and where its record ends in the file. -/
structure WalCommit where
  batches : ℕ
  sequence : UInt64
  version : UInt64
  endOffset : ℕ

structure Recovery where
  batches : List RecoveredBatch
  lastSequence : UInt64
  lastCommit : Option WalCommit

namespace Wal

/-- The bytes of `PTWAL`. -/
def magic : List UInt8 := [80, 84, 87, 65, 76]

def formatVersion : UInt8 := 1

def header : List UInt8 := magic ++ [formatVersion]

def headerLength : ℕ := 6

def checksumLength : ℕ := 8

def maxRecordLength : ℕ := 128 * 1024 * 1024

/-- The table identifier of a commit record. -/
def commitTableSentinel : UInt64 := 18446744073709551615

def encodeDataType (dataType : DataType) : UInt8 :=
  match dataType.storageType with
  | .boolean => 0
  | .int64 => 1
  | .uint64 => 2
  | .float64 => 3
  | .utf8 => 4
  -- the only carrier left is `binary`
  | _ => 5

def decodeDataType : UInt8 → Except String DataType
  | 0 => .ok .boolean
  | 1 => .ok .int64
  | 2 => .ok .uint64
  | 3 => .ok .float64
  | 4 => .ok .utf8
  | 5 => .ok .binary
  | tag => .error s!"unknown WAL column type {tag}"

def encodeColumn (column : Column) : List UInt8 :=
  u32Bytes column.id ++ [encodeDataType column.dataType]

def encodeBatch (sequence tableId : UInt64) (schema : TableSchema) (rows : List StoredRow) :
    Except StoreError (List UInt8) := do
  let columns ← Encoder.each schema.columns "WAL schema column count" (pure ∘ encodeColumn)
  let rows ← Encoder.each rows "WAL batch row count" encodeRow
  pure (u64Bytes sequence ++ (u64Bytes tableId ++ (u32Bytes schema.version ++ (columns ++ rows))))

def encodeCommit (sequence version : UInt64) : List UInt8 :=
  u64Bytes sequence ++ (u64Bytes commitTableSentinel ++ u64Bytes version)

/-- A commit record's sequence and version, or `none` for the payload of a batch. -/
def decodeCommit (payload : List UInt8) : Option (UInt64 × UInt64) :=
  if payload.length ≠ 24 then none
  else
    let fields : Decoder (UInt64 × UInt64 × UInt64) := do
      let sequence ← u64
      let tableId ← u64
      let version ← u64
      finish
      pure (sequence, tableId, version)
    match fields.run payload with
    | .ok ((sequence, tableId, version), _) =>
      if tableId ≠ commitTableSentinel then none else some (sequence, version)
    | .error _ => none

def decodeColumn : Decoder WalColumn := do
  let id ← u32
  let tag ← u8
  let dataType ← monadLift (decodeDataType tag)
  pure { id, dataType }

/-- The checks of a recovered row against the columns of its record. -/
def checkRow (columns : List WalColumn) (row : StoredRow) : Except String StoredRow :=
  if row.values.length ≠ columns.length then
    .error s!"row has {row.values.length} values for {columns.length} WAL schema columns"
  else
    match (columns.zip row.values).find? fun (column, value) =>
        value.dataType.any fun dataType => !column.dataType.accepts dataType with
    | some (column, _) => .error s!"row value does not match WAL column {column.id} type"
    | none => .ok row

def decodeBatchRow (columns : List WalColumn) : Decoder StoredRow := do
  let row ← decodeRow
  monadLift (checkRow columns row)

def decodeBatch : Decoder RecoveredBatch := do
  let sequence ← u64
  let tableId ← u64
  let _schemaVersion ← u32
  let columns ← each 5 decodeColumn
  let rows ← each 1 (decodeBatchRow columns)
  finish
  pure { sequence, tableId, columns, rows }

section Recover

/-- The payload and stored checksum of the record at the front, unless the bytes end inside it. -/
def nextRecord (bytes : List UInt8) : Option ((List UInt8 × UInt64) × List UInt8) :=
  if bytes.length < 4 then none
  else
    let length := leNat (bytes.take 4)
    let body := bytes.drop 4
    if body.length < length + checksumLength then none
    else
      let checksum := UInt64.ofNat (leNat ((body.drop length).take checksumLength))
      some ((body.take length, checksum), body.drop (length + checksumLength))

def framing : Framing UInt8 (List UInt8 × UInt64) where
  next := nextRecord
  next_length {bytes content rest} h := by
    simp only [nextRecord] at h
    split_ifs at h with h4 hb
    cases h
    simp only [List.length_drop] at hb ⊢
    omega

/-- The records replayed so far and the offset at which the last of them ends. -/
structure Replay where
  recovery : Recovery
  validLength : ℕ

variable (xxh3 : List UInt8 → UInt64)

/-- Replay one complete record, which starts where the valid part of the file ends. -/
def replayRecord (replay : Replay) (record : List UInt8 × UInt64) : Except StoreError Replay :=
  let (payload, expected) := record
  let { batches, lastSequence, lastCommit } := replay.recovery
  let recordOffset := replay.validLength
  if xxh3 payload ≠ expected then
    .error (.corruptWal recordOffset "record checksum mismatch")
  else
    let position := recordOffset + (4 + payload.length + checksumLength)
    match decodeCommit payload with
    | some (sequence, version) =>
      if sequence ≤ lastSequence then
        .error (.corruptWal recordOffset s!"sequence {sequence} does not follow {lastSequence}")
      else
        let commit := { batches := batches.length, sequence, version, endOffset := position }
        .ok ⟨⟨batches, sequence, some commit⟩, position⟩
    | none =>
      match decodeBatch.run payload with
      | .error reason => .error (.corruptWal recordOffset s!"invalid record payload: {reason}")
      | .ok (batch, _) =>
        if batch.sequence ≤ lastSequence then
          .error (.corruptWal recordOffset
            s!"sequence {batch.sequence} does not follow {lastSequence}")
        else .ok ⟨⟨batches ++ [batch], batch.sequence, lastCommit⟩, position⟩

/-- The records of a log file, and the file without its torn tail if that is to be cut off. -/
def recover (truncateTornTail : Bool) (bytes : List UInt8) :
    Except StoreError (Recovery × List UInt8) := do
  if bytes.length < headerLength || bytes.take headerLength != header then
    throw (.corruptWal 0 "invalid magic or format version")
  let start : Replay := ⟨⟨[], 0, none⟩, headerLength⟩
  let replay ← framing.scan (replayRecord xxh3) start (bytes.drop headerLength)
  pure (replay.recovery, if truncateTornTail then bytes.take replay.validLength else bytes)

/-- Open the log for writing; a new file gets its header. -/
def «open» (file : List UInt8) : Except StoreError (Recovery × List UInt8) :=
  recover xxh3 true (if file = [] then header else file)

/-- The log as a reader without the writer's lock sees it; a missing file has no records. -/
def recoverReadOnly : Option (List UInt8) → Except StoreError Recovery
  | none => .ok ⟨[], 0, none⟩
  | some file => Prod.fst <$> recover xxh3 false file

end Recover

section Append

/-- A failed write or sync: the bytes of the record that reached the file, the failure's text, and
whether the rollback could cut the file back to where the record began. -/
structure AppendFault where
  written : ℕ
  error : String
  rolledBack : Bool

variable (xxh3 : List UInt8 → UInt64)

def record (payload : List UInt8) : List UInt8 :=
  u32Bytes (UInt32.ofNat payload.length) ++ (payload ++ u64Bytes (xxh3 payload))

/-- Write one record at the end of the file. A failed write is cut off again if possible. -/
def writeRecord (what : String) (payload : List UInt8) (fault : Option AppendFault)
    (file : List UInt8) : Except StoreError Unit × List UInt8 :=
  match fault with
  | none => (.ok (), file ++ record xxh3 payload)
  | some { written, error, rolledBack } =>
    if rolledBack then (.error (.io what), file)
    else
      (.error (.io s!"roll back failed WAL append after write error: {error}"),
        file ++ (record xxh3 payload).take written)

def recordTooLong (payload : List UInt8) : String :=
  s!"a WAL record of {payload.length} bytes exceeds the {maxRecordLength} the log replays"

def appendEncoded (payload : List UInt8) (fault : Option AppendFault) (file : List UInt8) :
    Except StoreError Unit × List UInt8 :=
  if payload.length > maxRecordLength then
    (.error (.formatLimit (recordTooLong payload)), file)
  else writeRecord xxh3 "append WAL record" payload fault file

def append (sequence tableId : UInt64) (schema : TableSchema) (rows : List StoredRow)
    (fault : Option AppendFault) (file : List UInt8) : Except StoreError Unit × List UInt8 :=
  match encodeBatch sequence tableId schema rows with
  | .error e => (.error e, file)
  | .ok payload => appendEncoded xxh3 payload fault file

def appendCommit (sequence version : UInt64) (fault : Option AppendFault) (file : List UInt8) :
    Except StoreError Unit × List UInt8 :=
  writeRecord xxh3 "append WAL commit record" (encodeCommit sequence version) fault file

def truncateTo (offset : ℕ) (file : List UInt8) : List UInt8 := file.take offset

def reset (file : List UInt8) : List UInt8 := truncateTo headerLength file

end Append

end Wal

end Pintail
