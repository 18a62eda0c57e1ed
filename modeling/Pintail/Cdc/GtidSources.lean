import Pintail.Cdc.GtidText

/-! # One list for each source

A source is one whatever the letter case of its UUID. The set goes by the spelling, so it keeps one
list for a source exactly when the text and the events spell it in one way.
-/

namespace Pintail.Cdc

open Intervals List Except GtidIdentity

def GtidIdentity.mention (event : GtidIdentity) : Option (List Char × GtidInterval) :=
  event.interval.toOption.map (event.key, ·)

def mentioned (sids : List (List Char × List GtidInterval)) (events : List GtidIdentity) :
    List (List Char × GtidInterval) :=
  mentions sids ++ events.filterMap mention

/-- The source a key stands for: the letter case of a UUID means nothing. -/
def sourceIdentity (key : List Char) : List Char :=
  (key.takeWhile (· ≠ ':')).map Char.toLower ++ key.dropWhile (· ≠ ':')

/-- No source is spelled in two ways. -/
def OneSpelling (named : List (List Char × GtidInterval)) : Prop :=
  ∀ mention ∈ named, ∀ other ∈ named,
    sourceIdentity mention.1 = sourceIdentity other.1 → mention.1 = other.1

namespace MysqlGtidSet

def intervalsOf (set : MysqlGtidSet) (identity : List Char) : List (List GtidInterval) :=
  (set.entries.toList.filter fun entry => sourceIdentity entry.1 = identity).map
    fun entry => entry.2.intervals

/-- The set keeps one merged list for each source, of exactly the numbers named for it, and is what
its text is read as. -/
structure Tracks (set : MysqlGtidSet) (named : List (List Char × GtidInterval)) : Prop where
  kept : ∀ mention ∈ named, ∃ intervals, set.intervalsOf (sourceIdentity mention.1) = [intervals] ∧
    Merged intervals ∧ ∀ n, Covers intervals n ↔ ∃ other ∈ named,
      sourceIdentity other.1 = sourceIdentity mention.1 ∧ other.2.Contains n
  only : ∀ identity, (∀ mention ∈ named, sourceIdentity mention.1 ≠ identity) →
    set.intervalsOf identity = []
  reparsed : parse set.display = .ok set

theorem insertAll_append (set : MysqlGtidSet) (named more : List (List Char × GtidInterval)) :
    (set.insertAll named).insertAll more = set.insertAll (named ++ more) := by
  simp [insertAll]

theorem addEvents_eq (set : MysqlGtidSet) (events : List GtidIdentity) :
    set.addEvents events = set.insertAll (events.filterMap mention) := by
  induction events generalizing set with
  | nil => rfl
  | cons event events ih =>
    rw [addEvents, foldl_cons, ← addEvents, ih, filterMap_cons]
    unfold addEvent mention
    cases event.interval <;> rfl

section Named

variable {named : List (List Char × GtidInterval)}

theorem mem_toList_insertAll {key : List Char} {intervals : IntervalSet (2 ^ 64)} :
    (key, intervals) ∈ (empty.insertAll named).entries.toList ↔
      under key named ≠ [] ∧ (under key named).foldl IntervalSet.add .empty = intervals := by
  rw [Std.ExtTreeMap.mem_toList_iff_getElem?_eq_some, getElem?_insertAll_empty]
  split_ifs with h <;> simp [h]

theorem listed_insertAll (h : ∀ mention ∈ named, GtidKey mention.1) :
    (empty.insertAll named).Listed := by
  intro key intervals hkey
  obtain ⟨hne, rfl⟩ :=
    mem_toList_insertAll.mp (Std.ExtTreeMap.mem_toList_iff_getElem?_eq_some.mpr hkey)
  obtain ⟨interval, hi⟩ := exists_mem_of_ne_nil _ hne
  refine ⟨h _ (mem_under.mp hi), fun he => ?_⟩
  have hc : Covers ((under key named).foldl IntervalSet.add .empty).intervals interval.start :=
    (IntervalSet.covers_foldl_add _ _ _).mpr (.inr ⟨interval, hi, le_rfl, interval.le⟩)
  rw [he] at hc
  exact covers_nil hc

theorem exists_entry {mention : List Char × GtidInterval} (h : mention ∈ named) :
    ∃ intervals, (mention.1, intervals) ∈ (empty.insertAll named).entries.toList ∧
      ∀ n, Covers intervals.intervals n ↔ ∃ other ∈ named, other.1 = mention.1 ∧
        other.2.Contains n := by
  have hne : under mention.1 named ≠ [] := ne_nil_of_mem (mem_under.mpr h)
  refine ⟨_, mem_toList_insertAll.mpr ⟨hne, rfl⟩, fun n => ?_⟩
  rw [IntervalSet.covers_foldl_add]
  constructor
  · rintro (h | ⟨interval, hi, hn⟩)
    · exact absurd h covers_nil
    · exact ⟨_, mem_under.mp hi, rfl, hn⟩
  · rintro ⟨⟨key, interval⟩, ho, rfl, hn⟩
    exact .inr ⟨interval, mem_under.mpr ho, hn⟩

theorem exists_mention {entry : List Char × IntervalSet (2 ^ 64)}
    (h : entry ∈ (empty.insertAll named).entries.toList) :
    ∃ mention ∈ named, mention.1 = entry.1 := by
  obtain ⟨interval, hi⟩ := exists_mem_of_ne_nil _ (mem_toList_insertAll.mp h).1
  exact ⟨_, mem_under.mp hi, rfl⟩

theorem filter_eq_singleton {β : Type} {entries : List (List Char × β)} {p : List Char × β → Bool}
    (hd : entries.Pairwise fun left right => left.1 ≠ right.1) {entry : List Char × β}
    (h : entry ∈ entries) (hp : ∀ e ∈ entries, p e = true ↔ e.1 = entry.1) :
    entries.filter p = [entry] := by
  induction entries with
  | nil => cases h
  | cons first entries ih =>
    obtain ⟨hfirst, hd⟩ := pairwise_cons.mp hd
    rcases mem_cons.mp h with rfl | h
    · rw [filter_cons_of_pos ((hp entry (by simp)).mpr rfl), filter_eq_nil_iff.mpr]
      intro e he hpe
      exact hfirst e he ((hp e (by simp [he])).mp hpe).symm
    · rw [filter_cons_of_neg fun hpe => hfirst entry h ((hp first (by simp)).mp hpe)]
      exact ih hd h fun e he => hp e (by simp [he])

theorem tracks_insertAll (hkeys : ∀ mention ∈ named, GtidKey mention.1) (h : OneSpelling named) :
    (empty.insertAll named).Tracks named where
  kept mention hm := by
    obtain ⟨intervals, hentry, hcovers⟩ := exists_entry hm
    refine ⟨intervals.intervals, ?_, intervals.merged, fun n => ?_⟩
    · have hp : ∀ entry ∈ (empty.insertAll named).entries.toList,
          decide (sourceIdentity entry.1 = sourceIdentity mention.1) = true ↔
            entry.1 = mention.1 := by
        intro entry he
        obtain ⟨other, ho, hkey⟩ := exists_mention he
        rw [decide_eq_true_eq, ← hkey]
        exact ⟨h other ho mention hm, fun he => by rw [he]⟩
      rw [intervalsOf, filter_eq_singleton (pairwise_toList _) hentry hp]
      rfl
    · rw [hcovers]
      refine exists_congr fun other => and_congr_right fun ho => and_congr_left fun _ => ?_
      exact ⟨fun he => by rw [he], fun he => h other ho mention hm he⟩
  only identity hnone := by
    rw [intervalsOf, map_eq_nil_iff, filter_eq_nil_iff]
    intro entry he
    obtain ⟨mention, hm, hkey⟩ := exists_mention he
    simpa [← hkey] using hnone mention hm
  reparsed := parse_display (listed_insertAll hkeys)

theorem oneSpelling_of_tracks (h : (empty.insertAll named).Tracks named) : OneSpelling named := by
  intro mention hm other ho he
  obtain ⟨intervals, hone, -⟩ := h.kept mention hm
  obtain ⟨_, hentry, -⟩ := exists_entry hm
  obtain ⟨_, hentry', -⟩ := exists_entry ho
  rw [intervalsOf, map_eq_singleton_iff] at hone
  obtain ⟨entry, hfilter, -⟩ := hone
  have hmem : ∀ e ∈ (empty.insertAll named).entries.toList,
      sourceIdentity e.1 = sourceIdentity mention.1 → e = entry := by
    intro e hin hid
    rw [← mem_singleton, ← hfilter]
    exact mem_filter.mpr ⟨hin, by simpa using hid⟩
  exact (Prod.mk.inj ((hmem _ hentry rfl).trans (hmem _ hentry' he.symm).symm)).1

end Named

/-- A parsed set that events were added to keeps one list for each source exactly when no source is
spelled in two ways. -/
theorem tracks_iff {text : List Char} {start : MysqlGtidSet} (events : List GtidIdentity)
    (h : parse text = .ok start) : ∃ sids, readSids text = .ok sids ∧
      ((start.addEvents events).Tracks (mentioned sids events) ↔ OneSpelling (mentioned sids
      events)) := by
  obtain ⟨sids, hread, he⟩ := bind_eq_ok.mp h
  cases he
  refine ⟨sids, hread, ?_⟩
  rw [addEvents_eq, insertAll_append]
  refine ⟨oneSpelling_of_tracks, tracks_insertAll fun mention hm => ?_⟩
  rcases mem_append.mp hm with hm | hm
  · obtain ⟨sid, hs, hi⟩ := mem_flatMap.mp hm
    obtain ⟨interval, -, rfl⟩ := mem_map.mp hi
    exact (gtidKey_of_readSids hread sid hs).1
  · obtain ⟨event, -, hi⟩ := mem_filterMap.mp hm
    obtain ⟨interval, -, rfl⟩ := Option.map_eq_some_iff.mp hi
    exact event.gtidKey

/-- The fourth transaction of the source whose UUID has the digit a throughout. -/
def fourthOfA : GtidIdentity := ⟨.replicate 16 0xaa, none, 4⟩

theorem tracks_iff_lower_case : ∃ start sids,
    parse "aaaaaaaa-aaaa-aaaa-aaaa-aaaaaaaaaaaa:1-3:5".toList = .ok start ∧
      readSids "aaaaaaaa-aaaa-aaaa-aaaa-aaaaaaaaaaaa:1-3:5".toList = .ok sids ∧
      (start.addEvents [fourthOfA]).Tracks (mentioned sids [fourthOfA]) := by
  have hread : readSids "aaaaaaaa-aaaa-aaaa-aaaa-aaaaaaaaaaaa:1-3:5".toList =
      .ok [("aaaaaaaa-aaaa-aaaa-aaaa-aaaaaaaaaaaa".toList,
        [⟨1, 3, by decide, by decide, by decide⟩, ⟨5, 5, by decide, by decide, by decide⟩])] := by
    rfl
  obtain ⟨sids, hsids, hiff⟩ := tracks_iff [fourthOfA] (bind_eq_ok.mpr ⟨_, hread, rfl⟩)
  obtain rfl := ok.inj (hread.symm.trans hsids)
  refine ⟨_, _, bind_eq_ok.mpr ⟨_, hread, rfl⟩, hread, hiff.mpr ?_⟩
  unfold OneSpelling
  decide +kernel

/-- A UUID in capitals: the event's number goes under a second key. -/
theorem upper_case_kept_twice : ∃ start sids,
    parse "AAAAAAAA-AAAA-AAAA-AAAA-AAAAAAAAAAAA:1-3".toList = .ok start ∧
      readSids "AAAAAAAA-AAAA-AAAA-AAAA-AAAAAAAAAAAA:1-3".toList = .ok sids ∧
      ¬(start.addEvents [fourthOfA]).Tracks (mentioned sids [fourthOfA]) := by
  have hread : readSids "AAAAAAAA-AAAA-AAAA-AAAA-AAAAAAAAAAAA:1-3".toList =
      .ok [("AAAAAAAA-AAAA-AAAA-AAAA-AAAAAAAAAAAA".toList,
        [⟨1, 3, by decide, by decide, by decide⟩])] := by
    rfl
  refine ⟨_, _, bind_eq_ok.mpr ⟨_, hread, rfl⟩, hread, fun h => ?_⟩
  rw [addEvents_eq, insertAll_append] at h
  have hone := oneSpelling_of_tracks h
  unfold OneSpelling at hone
  revert hone
  decide +kernel

end MysqlGtidSet

end Pintail.Cdc
