import Std.Data.ExtTreeMap
import Pintail.Cdc.Error
import Pintail.Intervals.Merged
import Pintail.Words.Digits
import Pintail.Words.Text
import Pintail.Support.Except

/-! # Sets of executed transactions

A set keeps for every source the intervals of its transaction numbers. The key of a source is its
UUID as the text spelled it, with the tag behind a colon; an event's UUID is spelled in lower case.
Under each key stand the intervals inserted under it, merged.
-/

namespace Pintail.Cdc

open Words

abbrev GtidInterval := Interval (2 ^ 64)

/-- The tag of a transaction: a letter or underscore, then letters, digits and underscores. -/
structure Tag where
  chars : List Char
  first : ∀ c ∈ chars.head?, c.isAlpha ∨ c = '_'
  rest : ∀ c ∈ chars, c.isAlphanum ∨ c = '_'

structure GtidIdentity where
  sid : Vector UInt8 16
  tag : Option Tag
  sequence : UInt64

def formatUuid (bytes : Vector UInt8 16) : List Char :=
  bytes.toList.zipIdx.flatMap fun (byte, index) =>
    (if index ∈ [4, 6, 8, 10] then ['-'] else []) ++
      [Nat.digitChar (byte.toNat / 16), Nat.digitChar (byte.toNat % 16)]

def formatInterval (interval : GtidInterval) : List Char :=
  Nat.toDigits 10 interval.start ++
    if interval.stop ≠ interval.start then '-' :: Nat.toDigits 10 interval.stop else []

def formatEntry (key : List Char) (intervals : List GtidInterval) : List Char :=
  key ++ intervals.flatMap fun interval => ':' :: formatInterval interval

def parseEnd (value number : List Char) : Except CdcError UInt64 :=
  match parseUnsigned (2 ^ 64) number with
  | .ok number => .ok (UInt64.ofNat number)
  | .error error =>
    .error (.invalidCheckpoint s!"invalid GTID interval {String.ofList value}: {error}")

/-- The two ends a text writes; without a dash it is both. -/
def splitEnds (value : List Char) : List Char × List Char :=
  match value.span (· ≠ '-') with
  | (first, _ :: last) => (first, last)
  | (_, []) => (value, value)

def parseInterval (value : List Char) : Except CdcError GtidInterval := do
  let start ← parseEnd value (splitEnds value).1
  let stop ← parseEnd value (splitEnds value).2
  if h : start.toNat = 0 ∨ stop.toNat < start.toNat then
    .error (.invalidCheckpoint s!"invalid GTID interval {String.ofList value}")
  else
    .ok ⟨start.toNat, stop.toNat, by omega, by omega, stop.toNat_lt⟩

def readSid (raw : List Char) : Except CdcError (List Char × List GtidInterval) :=
  match raw.splitOn ':' with
  | [] => .error (.invalidCheckpoint "GTID SID is empty")
  | [_] => .error (.invalidCheckpoint s!"GTID SID has no intervals: {String.ofList raw}")
  | uuid :: first :: rest =>
    if first.head?.any Char.isDigit then do
      let intervals ← (first :: rest).mapM parseInterval
      pure (uuid, intervals)
    else
      match rest with
      | [] =>
        .error (.invalidCheckpoint s!"tagged GTID SID has no intervals: {String.ofList raw}")
      | interval :: rest => do
        let intervals ← (interval :: rest).mapM parseInterval
        pure (uuid ++ ':' :: first, intervals)

def readSids (value : List Char) : Except CdcError (List (List Char × List GtidInterval)) :=
  (((value.splitOn ',').map trimEnds).filter (· ≠ [])).mapM readSid

def mentions (sids : List (List Char × List GtidInterval)) : List (List Char × GtidInterval) :=
  sids.flatMap fun (key, intervals) => intervals.map (key, ·)

@[ext] structure MysqlGtidSet where
  entries : Std.ExtTreeMap (List Char) (IntervalSet (2 ^ 64))

namespace MysqlGtidSet

def empty : MysqlGtidSet := ⟨∅⟩

def insertInterval (set : MysqlGtidSet) (key : List Char) (interval : GtidInterval) :
    MysqlGtidSet :=
  ⟨set.entries.alter key fun intervals => some ((intervals.getD .empty).add interval)⟩

def insertAll (set : MysqlGtidSet) (named : List (List Char × GtidInterval)) : MysqlGtidSet :=
  named.foldl (fun set (key, interval) => set.insertInterval key interval) set

def parse (value : List Char) : Except CdcError MysqlGtidSet := do
  let sids ← readSids value
  pure (empty.insertAll (mentions sids))

def display (set : MysqlGtidSet) : List Char :=
  [','].intercalate (set.entries.toList.map fun (key, set) => formatEntry key set.intervals)

end MysqlGtidSet

namespace GtidIdentity

def key (event : GtidIdentity) : List Char :=
  match event.tag with
  | none => formatUuid event.sid
  | some tag => formatUuid event.sid ++ ':' :: tag.chars

/-- What the event adds; the number zero is refused. -/
def interval (event : GtidIdentity) : Except CdcError GtidInterval :=
  if h : event.sequence.toNat = 0 then
    .error (.decode "GTID sequence zero is not a valid committed transaction")
  else
    .ok ⟨event.sequence.toNat, event.sequence.toNat, by omega, le_rfl, event.sequence.toNat_lt⟩

end GtidIdentity

namespace MysqlGtidSet

def addEvent (set : MysqlGtidSet) (event : GtidIdentity) : Except CdcError MysqlGtidSet := do
  let interval ← event.interval
  pure (set.insertInterval event.key interval)

def addEvents (set : MysqlGtidSet) (events : List GtidIdentity) : MysqlGtidSet :=
  events.foldl (fun set event =>
    match set.addEvent event with
    | .ok set => set
    | .error _ => set) set

end MysqlGtidSet

def under (key : List Char) (named : List (List Char × GtidInterval)) : List GtidInterval :=
  (named.filter (·.1 = key)).map Prod.snd

theorem under_append (key : List Char) (named more : List (List Char × GtidInterval)) :
    under key (named ++ more) = under key named ++ under key more := by
  simp [under]

theorem mem_under {key : List Char} {named : List (List Char × GtidInterval)}
    {interval : GtidInterval} : interval ∈ under key named ↔ (key, interval) ∈ named := by
  simp [under]

namespace MysqlGtidSet

theorem getElem?_insertInterval (set : MysqlGtidSet) (key : List Char) (interval : GtidInterval)
    (k : List Char) : (set.insertInterval key interval).entries[k]? =
      if key = k then some ((set.entries[k]?.getD .empty).add interval) else set.entries[k]? := by
  simp only [insertInterval, Std.ExtTreeMap.getElem?_alter, Std.LawfulEqCmp.compare_eq_iff_eq]
  split_ifs with h
  · rw [h]
  · rfl

theorem getElem?_insertAll (set : MysqlGtidSet) (named : List (List Char × GtidInterval))
    (key : List Char) : (set.insertAll named).entries[key]? =
      (under key named).foldl (fun held interval => some ((held.getD .empty).add interval))
        set.entries[key]? := by
  induction named generalizing set with
  | nil => rfl
  | cons mention named ih =>
    rw [insertAll, List.foldl_cons, ← insertAll, ih, getElem?_insertInterval, under]
    split_ifs with h <;> simp [under, h]

theorem foldl_some_add (intervals : List GtidInterval) (held : IntervalSet (2 ^ 64)) :
    intervals.foldl (fun held interval => some ((held.getD .empty).add interval)) (some held) =
      some (intervals.foldl IntervalSet.add held) := by
  induction intervals generalizing held with
  | nil => rfl
  | cons interval intervals ih => exact ih _

theorem getElem?_insertAll_empty (named : List (List Char × GtidInterval)) (key : List Char) :
    (empty.insertAll named).entries[key]? =
      if under key named = [] then none
      else some ((under key named).foldl IntervalSet.add .empty) := by
  rw [getElem?_insertAll]
  cases under key named with
  | nil => simp [empty]
  | cons interval intervals =>
    rw [List.foldl_cons, foldl_some_add]
    simp [empty]

end MysqlGtidSet

end Pintail.Cdc
