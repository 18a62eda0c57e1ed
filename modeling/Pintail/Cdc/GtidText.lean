import Pintail.Cdc.GtidSet

/-! # The text of a set

What a set prints is read back as the set: its keys hold no comma, at most one colon and no leading
white space, and a tag does not begin as an interval does. The keys that are read from a text or made
from an event are of this form.
-/

namespace Pintail.Cdc

open Words Except Nat Std.ExtTreeMap Char
open List hiding Vector

section Format

variable {c : Char}

theorem not_mem_toDigits (hc : c.isDigit = false) (n : ℕ) : c ∉ toDigits 10 n := by
  intro h
  have := isDigit_of_mem_toDigits (by decide) (by decide) h
  simp [hc] at this

theorem isDigit_head_toDigits (n : ℕ) : (toDigits 10 n).head?.any isDigit = true := by
  cases h : toDigits 10 n with
  | nil => exact absurd h toDigits_ne_nil
  | cons c rest =>
    exact isDigit_of_mem_toDigits (by decide) (by decide) (h ▸ mem_cons_self)

theorem parseEnd_toDigits (value : List Char) {n : ℕ} (h : n < 2 ^ 64) :
    parseEnd value (toDigits 10 n) = .ok (UInt64.ofNat n) := by
  rw [parseEnd, parseUnsigned_toDigits h]

theorem splitEnds_formatInterval (interval : GtidInterval) :
    splitEnds (formatInterval interval) =
      (toDigits 10 interval.start, toDigits 10 interval.stop) := by
  have hdash : ∀ c ∈ toDigits 10 interval.start, decide (c ≠ '-') = true := by
    intro c hc
    simp only [decide_eq_true_eq]
    rintro rfl
    exact not_mem_toDigits rfl _ hc
  rw [splitEnds, span_eq_takeWhile_dropWhile, formatInterval,
    takeWhile_append_of_pos hdash, dropWhile_append_of_pos hdash]
  by_cases h : interval.stop = interval.start <;> simp [h]

theorem parseInterval_formatInterval (interval : GtidInterval) :
    parseInterval (formatInterval interval) = .ok interval := by
  obtain ⟨start, stop, hpos, hle, hlt⟩ := interval
  rw [parseInterval, splitEnds_formatInterval]
  refine bind_eq_ok.mpr ⟨_, parseEnd_toDigits _ (hle.trans_lt hlt),
    bind_eq_ok.mpr ⟨_, parseEnd_toDigits _ hlt, ?_⟩⟩
  have hstart : (UInt64.ofNat start).toNat = start := UInt64.toNat_ofNat_of_lt' (hle.trans_lt hlt)
  have hstop : (UInt64.ofNat stop).toNat = stop := UInt64.toNat_ofNat_of_lt' hlt
  simp only [hstart, hstop]
  rw [dif_neg (by omega)]

theorem not_mem_formatInterval (hdigit : c.isDigit = false) (hdash : c ≠ '-')
    (interval : GtidInterval) : c ∉ formatInterval interval := by
  unfold formatInterval
  split_ifs <;> simp [not_mem_toDigits hdigit, hdash]

theorem isDigit_head_formatInterval (interval : GtidInterval) :
    (formatInterval interval).head?.any isDigit = true := by
  have h := isDigit_head_toDigits interval.start
  cases hd : toDigits 10 interval.start with
  | nil => exact absurd hd toDigits_ne_nil
  | cons c rest =>
    rw [hd] at h
    rw [formatInterval, hd]
    exact h

/-- A key that is read back: a UUID, or a UUID and a tag that does not begin as an interval does. -/
structure GtidKey (key : List Char) : Prop where
  comma : ',' ∉ key
  shape : ':' ∉ key ∨ ∃ uuid tag, key = uuid ++ ':' :: tag ∧ ':' ∉ uuid ∧ ':' ∉ tag ∧
    tag.head?.any isDigit = false
  start : ∀ c ∈ key.head?, isWhiteSpace c = false

theorem formatEntry_eq (key : List Char) (intervals : List GtidInterval) :
    formatEntry key intervals = [':'].intercalate (key :: intervals.map formatInterval) := by
  induction intervals generalizing key with
  | nil => simp [formatEntry]
  | cons interval intervals ih =>
    rw [map_cons, intercalate_cons_cons, ← ih]
    simp [formatEntry]

variable {intervals : List GtidInterval} {key : List Char}

theorem readSid_formatEntry (hk : GtidKey key) (hne : intervals ≠ []) :
    readSid (formatEntry key intervals) = .ok (key, intervals) := by
  have hread : (intervals.map formatInterval).mapM parseInterval = .ok intervals := by
    rw [mapM_eq_ok, forall₂_map_left_iff, forall₂_same]
    exact fun interval _ => parseInterval_formatInterval interval
  have hcolon : ∀ text ∈ intervals.map formatInterval, ':' ∉ text := by
    intro text ht
    obtain ⟨interval, -, rfl⟩ := List.mem_map.mp ht
    exact not_mem_formatInterval rfl (by decide) interval
  obtain ⟨interval, intervals, rfl⟩ := exists_cons_of_ne_nil hne
  rw [map_cons] at hread hcolon
  rw [formatEntry_eq, map_cons]
  rcases hk.shape with hu | ⟨uuid, tag, rfl, hu, ht, hd⟩
  · rw [readSid, splitOn_intercalate _ (forall_mem_cons.mpr ⟨hu, hcolon⟩) (by simp)]
    dsimp only
    rw [if_pos (isDigit_head_formatInterval interval)]
    exact bind_eq_ok.mpr ⟨_, hread, rfl⟩
  · have hparts : [':'].intercalate ((uuid ++ ':' :: tag) ::
        formatInterval interval :: intervals.map formatInterval) =
        [':'].intercalate (uuid :: tag :: formatInterval interval ::
          intervals.map formatInterval) := by
      simp
    rw [hparts, readSid, splitOn_intercalate _
      (forall_mem_cons.mpr ⟨hu, forall_mem_cons.mpr ⟨ht, hcolon⟩⟩) (by simp)]
    dsimp only
    rw [if_neg (by simp [hd])]
    exact bind_eq_ok.mpr ⟨_, hread, rfl⟩

theorem toNat_of_isDigit (h : c.isDigit = true) : 48 ≤ c.toNat ∧ c.toNat ≤ 57 := by
  simpa [isDigit, UInt32.le_iff_toNat_le] using h

theorem exists_formatEntry_eq (key : List Char) (hne : intervals ≠ []) :
    ∃ front n, formatEntry key intervals = front ++ toDigits 10 n := by
  obtain ⟨intervals, interval, rfl⟩ := (eq_nil_or_concat intervals).resolve_left hne
  rw [concat_eq_append, formatEntry, flatMap_append, flatMap_singleton, formatInterval]
  split_ifs
  · exact ⟨key ++ intervals.flatMap (fun interval => ':' :: formatInterval interval) ++
      ':' :: (toDigits 10 interval.start ++ ['-']), interval.stop, by simp⟩
  · exact ⟨key ++ intervals.flatMap (fun interval => ':' :: formatInterval interval) ++ [':'],
      interval.start, by simp⟩

theorem trimEnds_formatEntry (hk : GtidKey key) (hne : intervals ≠ []) :
    trimEnds (formatEntry key intervals) = formatEntry key intervals := by
  refine trimEnds_eq_self (fun c hc => ?_) fun c hc => ?_
  · cases hkey : key with
    | nil =>
      obtain ⟨interval, intervals, rfl⟩ := exists_cons_of_ne_nil hne
      obtain rfl : ':' = c := by simpa [formatEntry, hkey] using hc
      rfl
    | cons first rest =>
      obtain rfl : first = c := by simpa [formatEntry, hkey] using hc
      exact hk.start first (by simp [hkey])
  · obtain ⟨front, n, he⟩ := exists_formatEntry_eq key hne
    rw [he, getLast?_append_of_ne_nil _ toDigits_ne_nil] at hc
    have hd := toNat_of_isDigit
      (isDigit_of_mem_toDigits (by decide) (by decide) (mem_of_getLast? hc))
    exact isWhiteSpace_of_le (by omega) (by omega)

theorem comma_not_mem_formatEntry (hk : GtidKey key) (intervals : List GtidInterval) :
    ',' ∉ formatEntry key intervals := by
  have hinterval := not_mem_formatInterval (c := ',') rfl (by decide)
  simp [formatEntry, hk.comma, hinterval]

end Format

namespace MysqlGtidSet

/-- The keys of the set can be read back, and under each stands an interval. -/
def Listed (set : MysqlGtidSet) : Prop :=
  ∀ key intervals, set.entries[key]? = some intervals → GtidKey key ∧ intervals.intervals ≠ []

variable {set : MysqlGtidSet}

theorem readSids_display (h : set.Listed) :
    readSids set.display = .ok (set.entries.toList.map fun (key, set) => (key, set.intervals)) := by
  have hentry : ∀ entry ∈ set.entries.toList, GtidKey entry.1 ∧ entry.2.intervals ≠ [] :=
    fun entry he => h entry.1 entry.2 (mem_toList_iff_getElem?_eq_some.mp he)
  rw [readSids, display]
  generalize set.entries.toList = entries at hentry
  have hpieces : ((([','].intercalate (entries.map fun (key, set) =>
      formatEntry key set.intervals)).splitOn ',').map trimEnds).filter (· ≠ []) =
      entries.map fun (key, set) => formatEntry key set.intervals := by
    by_cases hnil : entries = []
    · simp [hnil, trimEnds]
    · have hcomma : ∀ text ∈ entries.map fun (key, set) => formatEntry key set.intervals,
          ',' ∉ text := by
        intro text ht
        obtain ⟨entry, he, rfl⟩ := List.mem_map.mp ht
        exact comma_not_mem_formatEntry (hentry entry he).1 _
      rw [splitOn_intercalate _ hcomma (by simpa using hnil), List.map_map]
      have htrim : entries.map (trimEnds ∘ fun (key, set) => formatEntry key set.intervals) =
          entries.map fun (key, set) => formatEntry key set.intervals :=
        map_congr_left fun entry he => trimEnds_formatEntry (hentry entry he).1 (hentry entry he).2
      rw [htrim, filter_eq_self]
      intro text ht
      obtain ⟨entry, he, rfl⟩ := List.mem_map.mp ht
      obtain ⟨front, n, heq⟩ := exists_formatEntry_eq entry.1 (hentry entry he).2
      simp [heq]
  rw [hpieces, mapM_eq_ok, forall₂_map_left_iff, forall₂_map_right_iff, forall₂_same]
  exact fun entry he => readSid_formatEntry (hentry entry he).1 (hentry entry he).2

theorem under_map (key other : List Char) (intervals : List GtidInterval) :
    under key (intervals.map (other, ·)) = if other = key then intervals else [] := by
  unfold under
  split_ifs with h <;> simp [filter_map, h]

theorem mentions_cons (sid : List Char × List GtidInterval)
    (sids : List (List Char × List GtidInterval)) :
    mentions (sid :: sids) = sid.2.map (sid.1, ·) ++ mentions sids := rfl

variable {sids : List (List Char × List GtidInterval)} {key : List Char}

theorem under_mentions_of_not_mem
    (h : ∀ sid ∈ sids, sid.1 ≠ key) : under key (mentions sids) = [] := by
  induction sids with
  | nil => rfl
  | cons sid sids ih =>
    rw [mentions_cons, under_append, under_map, if_neg (h sid (by simp)),
      ih fun sid hs => h sid (by simp [hs]), append_nil]

theorem under_mentions_of_mem (hd : sids.Pairwise fun left right => left.1 ≠ right.1)
    {intervals : List GtidInterval} (h : (key, intervals) ∈ sids) :
    under key (mentions sids) = intervals := by
  induction sids with
  | nil => cases h
  | cons sid sids ih =>
    obtain ⟨hfirst, hd⟩ := pairwise_cons.mp hd
    rw [mentions_cons, under_append, under_map]
    rcases mem_cons.mp h with rfl | h
    · rw [if_pos rfl, under_mentions_of_not_mem fun sid hs he => hfirst sid hs he.symm, append_nil]
    · rw [if_neg (hfirst _ h), ih hd h, nil_append]

theorem pairwise_toList (set : MysqlGtidSet) :
    set.entries.toList.Pairwise fun left right => left.1 ≠ right.1 :=
  distinct_keys_toList.imp fun hne he =>
    hne (Std.LawfulEqCmp.compare_eq_iff_eq.mpr he)

theorem parse_display (h : set.Listed) : parse set.display = .ok set := by
  refine bind_eq_ok.mpr ⟨_, readSids_display h, ?_⟩
  rw [pure_eq_ok]
  ext1
  refine ext_getElem? fun key => ?_
  rw [getElem?_insertAll_empty]
  have hdistinct : (set.entries.toList.map fun (key, set) => (key, set.intervals)).Pairwise
      fun left right => left.1 ≠ right.1 := by
    exact pairwise_map.mpr set.pairwise_toList
  cases hkey : set.entries[key]? with
  | none =>
    rw [under_mentions_of_not_mem, if_pos rfl]
    intro sid hs he
    obtain ⟨entry, hentry, rfl⟩ := List.mem_map.mp hs
    simp_all
  | some intervals =>
    have hmem : (key, intervals.intervals) ∈
        set.entries.toList.map fun (key, set) => (key, set.intervals) :=
      mem_map_of_mem (f := fun (key, set) => (key, set.intervals))
        (mem_toList_iff_getElem?_eq_some.mpr hkey)
    rw [under_mentions_of_mem hdistinct hmem, if_neg (h key intervals hkey).2,
      IntervalSet.foldl_add_intervals]

end MysqlGtidSet

theorem gtidKey_of_readSid {raw key : List Char} {intervals : List GtidInterval}
    (h : readSid raw = .ok (key, intervals)) (hcomma : ',' ∉ raw)
    (hstart : ∀ c ∈ raw.head?, isWhiteSpace c = false) : GtidKey key ∧ intervals ≠ [] := by
  have hraw : [':'].intercalate (raw.splitOn ':') = raw := intercalate_splitOn _
  have hpiece : ∀ piece ∈ raw.splitOn ':', ':' ∉ piece := fun _ => not_mem_of_mem_splitOn
  have hread : ∀ {texts : List (List Char)}, texts ≠ [] → texts.mapM parseInterval = .ok intervals →
      intervals ≠ [] := by
    rintro texts hne hm rfl
    exact hne (forall₂_nil_right_iff.mp (mapM_eq_ok.mp hm))
  -- the key stands before a colon at the beginning of the text
  have hkey : (∃ more, raw = key ++ ':' :: more) → ',' ∉ key ∧
      ∀ c ∈ key.head?, isWhiteSpace c = false := by
    rintro ⟨more, rfl⟩
    refine ⟨fun hc => hcomma (by simp [hc]), fun c hc => hstart c ?_⟩
    rw [head?_append, Option.mem_def.mp hc]
    rfl
  unfold readSid at h
  split at h
  · cases h
  · cases h
  · rename_i uuid first rest hsplit
    rw [hsplit] at hraw hpiece
    have hu := hpiece uuid (by simp)
    have hf := hpiece first (by simp)
    split_ifs at h with hdigit
    · obtain ⟨_, hm, he⟩ := bind_eq_ok.mp h
      cases he
      obtain ⟨hc, hs⟩ := hkey ⟨_, by rw [← hraw]; rfl⟩
      exact ⟨⟨hc, .inl hu, hs⟩, hread (by simp) hm⟩
    · split at h
      · cases h
      · rename_i interval rest
        obtain ⟨_, hm, he⟩ := bind_eq_ok.mp h
        cases he
        obtain ⟨hc, hs⟩ := hkey ⟨[':'].intercalate (interval :: rest), by
          rw [← hraw]
          simp⟩
        exact ⟨⟨hc, .inr ⟨uuid, first, rfl, hu, hf, by simpa using hdigit⟩, hs⟩,
          hread (by simp) hm⟩

theorem gtidKey_of_readSids {value : List Char} {sids : List (List Char × List GtidInterval)}
    (h : readSids value = .ok sids) : ∀ sid ∈ sids, GtidKey sid.1 ∧ sid.2 ≠ [] := by
  intro sid hs
  obtain ⟨raw, hr, hread⟩ := List.Forall₂.exists_of_mem_right (mapM_eq_ok.mp h) hs
  obtain ⟨piece, hp, rfl⟩ := List.mem_map.mp (List.mem_of_mem_filter hr)
  exact gtidKey_of_readSid hread (fun hc => not_mem_of_mem_splitOn hp (mem_of_mem_trimEnds hc))
    fun c hc => isWhiteSpace_head_trimEnds hc

variable {c : Char}

theorem toNat_of_isAlpha (h : c.isAlpha = true) :
    65 ≤ c.toNat ∧ c.toNat ≤ 90 ∨ 97 ≤ c.toNat ∧ c.toNat ≤ 122 := by
  simpa [isAlpha, isUpper, isLower, UInt32.le_iff_toNat_le] using h

theorem mem_formatUuid {bytes : Vector UInt8 16} (h : c ∈ formatUuid bytes) :
    c ∈ "0123456789abcdef-".toList := by
  have hhex : ∀ n < 16, digitChar n ∈ "0123456789abcdef-".toList := by decide
  obtain ⟨⟨byte, index⟩, -, hc⟩ := mem_flatMap.mp h
  have hbyte := byte.toNat_lt
  rcases mem_append.mp hc with hc | hc
  · split_ifs at hc
    · obtain rfl := mem_singleton.mp hc
      decide
    · cases hc
  · simp only [mem_cons, not_mem_nil, or_false] at hc
    rcases hc with rfl | rfl
    · exact hhex _ (by omega)
    · exact hhex _ (by omega)

theorem Tag.toNat_of_mem (tag : Tag) (h : c ∈ tag.chars) :
    48 ≤ c.toNat ∧ c.toNat ≤ 57 ∨ 65 ≤ c.toNat ∧ c.toNat ≤ 90 ∨ c.toNat = 95 ∨
      97 ≤ c.toNat ∧ c.toNat ≤ 122 := by
  rcases tag.rest c h with hc | rfl
  · rcases Bool.or_eq_true_iff.mp hc with hc | hc
    · have := toNat_of_isAlpha hc
      omega
    · exact .inl (toNat_of_isDigit hc)
  · decide

theorem GtidIdentity.gtidKey (event : GtidIdentity) : GtidKey event.key := by
  have huuid : ∀ c ∈ formatUuid event.sid, c ≠ ',' ∧ c ≠ ':' ∧ isWhiteSpace c = false := by
    have hhex : ("0123456789abcdef-".toList.all fun c =>
        c ≠ ',' ∧ c ≠ ':' ∧ 33 ≤ c.toNat ∧ c.toNat ≤ 126) = true := by decide
    intro c hc
    obtain ⟨hcomma, hcolon, hlow, hhigh⟩ :=
      of_decide_eq_true (all_eq_true.mp hhex c (mem_formatUuid hc))
    exact ⟨hcomma, hcolon, isWhiteSpace_of_le hlow hhigh⟩
  have hcomma : ',' ∉ formatUuid event.sid := fun h => (huuid _ h).1 rfl
  have hcolon : ':' ∉ formatUuid event.sid := fun h => (huuid _ h).2.1 rfl
  cases htag : event.tag with
  | none =>
    rw [key, htag]
    exact ⟨hcomma, .inl hcolon, fun c hc => (huuid c (mem_of_head? hc)).2.2⟩
  | some tag =>
    have hchars : ∀ c ∈ tag.chars, c ≠ ',' ∧ c ≠ ':' ∧ isWhiteSpace c = false := by
      intro c hc
      have := tag.toNat_of_mem hc
      refine ⟨?_, ?_, isWhiteSpace_of_le (by omega) (by omega)⟩
      · rintro rfl
        exact absurd this (by decide)
      · rintro rfl
        exact absurd this (by decide)
    have hfirst : tag.chars.head?.any isDigit = false := by
      cases hc : tag.chars.head? with
      | none => rfl
      | some c =>
        rw [Bool.eq_false_iff]
        intro hd
        have := toNat_of_isDigit hd
        rcases tag.first c hc with ha | rfl
        · have := toNat_of_isAlpha ha
          omega
        · exact absurd hd (by decide)
    rw [key, htag]
    refine ⟨?_, .inr ⟨_, tag.chars, rfl, hcolon, fun h => (hchars _ h).2.1 rfl, hfirst⟩, ?_⟩
    · simp only [mem_append, mem_cons, not_or]
      exact ⟨hcomma, by decide, fun h => (hchars _ h).1 rfl⟩
    · intro c hc
      rcases mem_append.mp (mem_of_head? hc) with hc | hc
      · exact (huuid c hc).2.2
      · rcases mem_cons.mp hc with rfl | hc
        · decide
        · exact (hchars c hc).2.2

end Pintail.Cdc
