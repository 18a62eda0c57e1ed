import Pintail.Calendar.Civil
import Pintail.Words.Digits

/-! # Canonical text of dates

Dates and date-times travel as text of a fixed shape. The parsers turn the text into days and
microseconds from 1970-01-01 and the formatters turn them back; what a formatter writes is read back
as what it was given, at the precision it was written.
-/

namespace Pintail

open Calendar Words List Option Int Or

def microsPerDay : ℤ := 86400000000

def parseDateDays (text : List Char) : Option ℤ :=
  if text.length ≠ 10 ∨ text[4]? ≠ some '-' ∨ text[7]? ≠ some '-' then none
  else do
    let year ← digits? (text.take 4)
    let month ← digits? ((text.drop 5).take 2)
    let day ← digits? ((text.drop 8).take 2)
    if 1 ≤ month ∧ month ≤ 12 ∧ 1 ≤ day ∧ (day : ℤ) ≤ monthDays year month then
      some (daysFromCivil year month day)
    else none

def parseFraction : List Char → Option ℤ
  | [] => some 0
  | dot :: digits =>
    -- a trailing dot with no fraction digits is not canonical
    if dot ≠ '.' ∨ digits = [] ∨ 6 < digits.length then none
    else (digits? digits).map fun number => (number : ℤ) * 10 ^ (6 - digits.length)

def parseDatetimeMicros (text : List Char) : Option ℤ :=
  if text.length < 19 ∨ text[10]? ≠ some ' ' ∨ text[13]? ≠ some ':' ∨ text[16]? ≠ some ':' then none
  else do
    let days ← parseDateDays (text.take 10)
    let hour ← digits? ((text.drop 11).take 2)
    let minute ← digits? ((text.drop 14).take 2)
    let second ← digits? ((text.drop 17).take 2)
    if 23 < hour ∨ 59 < minute ∨ 59 < second then none
    else do
      let micros ← parseFraction (text.drop 19)
      return (days * 86400 + hour * 3600 + minute * 60 + second) * 1000000 + micros

def dateText (date : Civil) : List Char :=
  padded 4 date.year.toNat ++ '-' :: padded 2 date.month.toNat ++ '-' :: padded 2 date.day.toNat

def formatDateDays (days : ℤ) : Option (List Char) :=
  let date := civilFromDays days
  if 0 ≤ date.year ∧ date.year ≤ 9999 then some (dateText date) else none

def clockText (daySeconds : ℤ) : List Char :=
  padded 2 (daySeconds / 3600).toNat ++ ':' :: padded 2 (daySeconds % 3600 / 60).toNat ++
    ':' :: padded 2 (daySeconds % 60).toNat

def formatDatetimeMicros (micros : ℤ) (fsp : ℕ) : Option (List Char) :=
  if 6 < fsp then none
  else
    let seconds := micros / 1000000
    let subMicros := micros % 1000000
    let date := civilFromDays (seconds / 86400)
    if ¬ (0 ≤ date.year ∧ date.year ≤ 9999) then none
    else
      let text := dateText date ++ ' ' :: clockText (seconds % 86400)
      if 0 < fsp then some (text ++ '.' :: padded fsp (subMicros / 10 ^ (6 - fsp)).toNat)
      -- a fraction in a column without one cannot be read back
      else if subMicros ≠ 0 then none
      else some text

theorem length_dateText (date : Civil) : (dateText date).length = 10 := by
  simp [dateText]

variable {year month day : List Char}

theorem date_slices (hy : year.length = 4) (hm : month.length = 2) (hd : day.length = 2) :
    (year ++ '-' :: month ++ '-' :: day).take 4 = year ∧
      ((year ++ '-' :: month ++ '-' :: day).drop 5).take 2 = month ∧
      ((year ++ '-' :: month ++ '-' :: day).drop 8).take 2 = day := by
  simp (disch := omega) [drop_append, drop_eq_nil_of_le, hy, hm, take_of_length_le]

variable {date hour minute second fraction : List Char}

theorem datetime_slices (hd : date.length = 10)
    (hh : hour.length = 2) (hm : minute.length = 2) (hs : second.length = 2) :
    let text := date ++ ' ' :: (hour ++ ':' :: minute ++ ':' :: second) ++ fraction
    text.take 10 = date ∧ (text.drop 11).take 2 = hour ∧ (text.drop 14).take 2 = minute ∧
      (text.drop 17).take 2 = second ∧ text.drop 19 = fraction := by
  refine ⟨by simp [hd], by simp [drop_append, take_append, hd, hh], ?_, ?_, ?_⟩ <;>
    simp (disch := omega) [drop_append, drop_eq_nil_of_le, hd, hh, hm]

variable {days : ℤ}

theorem parseDateDays_dateText (h0 : 0 ≤ (civilFromDays days).year)
    (h1 : (civilFromDays days).year ≤ 9999) :
    parseDateDays (dateText (civilFromDays days)) = some days := by
  obtain ⟨hm0, hm, hd0, hd, hdays⟩ := civilFromDays_spec days
  have hlen : (civilFromDays days).day ≤ 31 := hd.trans (monthDays_le ..)
  generalize civilFromDays days = date at *
  obtain ⟨year, month, day⟩ := date
  dsimp only at *
  lift year to ℕ using h0
  lift month to ℕ using by omega
  lift day to ℕ using by omega
  obtain ⟨hyear, hmonth, hday⟩ := date_slices (length_padded 4 year) (length_padded 2 month)
    (length_padded 2 day)
  rw [dateText, parseDateDays, if_neg (by simp)]
  simp only [toNat_natCast, hyear, hmonth, hday,
    digits?_padded (show 0 < 4 by decide) (show year < 10 ^ 4 by omega),
    digits?_padded (show 0 < 2 by decide) (show month < 10 ^ 2 by omega),
    digits?_padded (show 0 < 2 by decide) (show day < 10 ^ 2 by omega), bind_eq_bind,
    bind_some]
  rw [if_pos ⟨by omega, by omega, by omega, hd⟩, hdays]

variable {text : List Char}

theorem parseDatetimeMicros_clockText {date fraction : List Char} {days seconds micros : ℤ}
    (hl : date.length = 10) (hd : parseDateDays date = some days) (h0 : 0 ≤ seconds)
    (h1 : seconds < 86400) (hf : parseFraction fraction = some micros) :
    parseDatetimeMicros (date ++ ' ' :: clockText seconds ++ fraction) =
      some ((days * 86400 + seconds) * 1000000 + micros) := by
  have hshape {text : List Char} (htext : text = date ++ ' ' :: clockText seconds ++ fraction) :
      ¬ (text.length < 19 ∨ text[10]? ≠ some ' ' ∨ text[13]? ≠ some ':' ∨ text[16]? ≠ some ':') := by
    simp [htext, clockText, getElem?_append, hl]
    omega
  rw [parseDatetimeMicros, if_neg (hshape rfl), clockText]
  obtain ⟨hdate, hhour, hminute, hsecond, hrest⟩ := @datetime_slices date _ _ _ fraction hl
    (length_padded 2 (seconds / 3600).toNat) (length_padded 2 (seconds % 3600 / 60).toNat)
    (length_padded 2 (seconds % 60).toNat)
  rw [hdate, hhour, hminute, hsecond, hrest, hd,
    digits?_padded (by decide) (show (seconds / 3600).toNat < 10 ^ 2 by omega),
    digits?_padded (by decide) (show (seconds % 3600 / 60).toNat < 10 ^ 2 by omega),
    digits?_padded (by decide) (show (seconds % 60).toNat < 10 ^ 2 by omega)]
  simp only [bind_eq_bind, bind_some]
  rw [if_neg (by omega), hf]
  simp only [Option.bind_some, Option.pure_def, Option.some.injEq]
  omega

theorem parseFraction_padded {width value : ℕ} (h0 : 0 < width) (h1 : width ≤ 6)
    (h : value < 10 ^ width) :
    parseFraction ('.' :: padded width value) = some ((value : ℤ) * 10 ^ (6 - width)) := by
  have hne : padded width value ≠ [] := by
    intro hnil
    have := length_padded width value
    rw [hnil] at this
    simp at this
    omega
  rw [parseFraction, if_neg (by simp [hne, h1]), digits?_padded h0 h, length_padded]
  rfl

variable {micros : ℤ} {fsp : ℕ}

theorem parseDatetimeMicros_formatDatetimeMicros (h : formatDatetimeMicros micros fsp = some text) :
    parseDatetimeMicros text = some (micros - micros % 10 ^ (6 - fsp)) := by
  unfold formatDatetimeMicros at h
  dsimp only at h
  split_ifs at h with hfsp hyear hpos hsub
  all_goals
    cases h
    have hdate : parseDateDays (dateText (civilFromDays (micros / 1000000 / 86400))) =
        some (micros / 1000000 / 86400) := by
      apply parseDateDays_dateText <;> omega
    have h0 : 0 ≤ micros / 1000000 % 86400 := emod_nonneg _ (by decide)
    have h1 : micros / 1000000 % 86400 < 86400 := emod_lt_of_pos _ (by decide)
  · have hunit : (10 : ℤ) ^ fsp * 10 ^ (6 - fsp) = 1000000 := by
      rw [← pow_add, Nat.add_sub_cancel' (not_lt.mp hfsp)]
      rfl
    have hpow : (0 : ℤ) < 10 ^ (6 - fsp) := by positivity
    have hsub : micros % 1000000 % 10 ^ (6 - fsp) = micros % 10 ^ (6 - fsp) :=
      emod_emod_of_dvd _ ⟨10 ^ fsp, by rw [mul_comm, hunit]⟩
    have hlt : (micros % 1000000 / 10 ^ (6 - fsp)).toNat < 10 ^ fsp := by
      have hdiv : micros % 1000000 / 10 ^ (6 - fsp) < 10 ^ fsp := by
        rw [Int.ediv_lt_iff_lt_mul hpow, hunit]
        exact emod_lt_of_pos _ (by decide)
      have hnonneg : 0 ≤ micros % 1000000 / 10 ^ (6 - fsp) :=
        ediv_nonneg (emod_nonneg _ (by decide)) hpow.le
      zify
      rwa [toNat_of_nonneg hnonneg]
    rw [parseDatetimeMicros_clockText (length_dateText _) hdate h0 h1
      (parseFraction_padded hpos (not_lt.mp hfsp) hlt)]
    have hround : ((micros % 1000000 / 10 ^ (6 - fsp)).toNat : ℤ) * 10 ^ (6 - fsp) +
        micros % 10 ^ (6 - fsp) = micros % 1000000 := by
      rw [toNat_of_nonneg (ediv_nonneg (emod_nonneg _ (by decide)) hpow.le), ← hsub]
      exact ediv_mul_add_emod ..
    rw [some.injEq]
    omega
  · have hread := @parseDatetimeMicros_clockText _ [] _ _ _ (length_dateText _) hdate h0 h1 rfl
    rw [append_nil] at hread
    rw [hread]
    obtain rfl : fsp = 0 := by omega
    simp only [some.injEq]
    omega

theorem eq_take_cons_drop {l : List α} {i : ℕ} {a : α} (h : l[i]? = some a) :
    l = l.take i ++ a :: l.drop (i + 1) := by
  obtain ⟨hi, rfl⟩ := List.getElem?_eq_some_iff.mp h
  rw [← drop_eq_getElem_cons hi, take_append_drop]

theorem parseDateDays_eq_some (h : parseDateDays text = some days) :
    ∃ year month day : ℕ, text = dateText ⟨year, month, day⟩ ∧ year < 10 ^ 4 ∧ month < 10 ^ 2 ∧
      day < 10 ^ 2 ∧ (1 ≤ month ∧ month ≤ 12 ∧ 1 ≤ day ∧ (day : ℤ) ≤ monthDays year month) ∧
      daysFromCivil year month day = days := by
  unfold parseDateDays at h
  split_ifs at h with hshape
  push Not at hshape
  obtain ⟨hlen, hdash, hdash'⟩ := hshape
  simp only [bind_eq_bind, bind_eq_some_iff] at h
  obtain ⟨year, hyear, month, hmonth, day, hday, h⟩ := h
  split_ifs at h with hvalid
  cases h
  have hrest : (text.drop 5)[2]? = some '-' := by rwa [getElem?_drop]
  have hlast : (text.drop 8).take 2 = text.drop 8 := take_of_length_le (by simp; omega)
  rw [hlast] at hday
  obtain ⟨hy, hytext⟩ := digits?_eq_some hyear
  obtain ⟨hm, hmtext⟩ := digits?_eq_some hmonth
  obtain ⟨hd, hdtext⟩ := digits?_eq_some hday
  simp only [length_take, length_drop, hlen] at hy hytext hm hmtext hd hdtext
  refine ⟨year, month, day, ?_, hy, hm, hd, hvalid, rfl⟩
  rw [eq_take_cons_drop hdash, eq_take_cons_drop hrest, drop_drop, hytext, hmtext, hdtext]
  simp [dateText]

theorem parseFraction_eq_some (h : parseFraction text = some micros) :
    (text = [] ∧ micros = 0) ∨ ∃ width value : ℕ, 0 < width ∧ width ≤ 6 ∧ value < 10 ^ width ∧
      text = '.' :: padded width value ∧ micros = value * 10 ^ (6 - width) := by
  cases text with
  | nil =>
    cases h
    exact inl ⟨rfl, rfl⟩
  | cons dot digits =>
    rw [parseFraction] at h
    split_ifs at h with hshape
    push Not at hshape
    obtain ⟨rfl, hne, hlen⟩ := hshape
    simp only [bind_eq_bind, map_eq_some_iff, bind_eq_some_iff,
      Option.pure_def, Option.some.injEq] at h
    obtain ⟨_, ⟨value, hvalue, rfl⟩, rfl⟩ := h
    obtain ⟨hlt, htext⟩ := digits?_eq_some hvalue
    exact inr ⟨digits.length, value, length_pos_iff.mpr hne, hlen, hlt, by rw [← htext], rfl⟩

theorem parseDatetimeMicros_eq_some (h : parseDatetimeMicros text = some micros) :
    ∃ (date fraction : List Char) (days sub : ℤ) (hour minute second : ℕ),
      text = date ++ ' ' :: (padded 2 hour ++ ':' :: padded 2 minute ++ ':' :: padded 2 second) ++
        fraction ∧ parseDateDays date = some days ∧ parseFraction fraction = some sub ∧
      hour ≤ 23 ∧ minute ≤ 59 ∧ second ≤ 59 ∧
      micros = (days * 86400 + hour * 3600 + minute * 60 + second) * 1000000 + sub := by
  unfold parseDatetimeMicros at h
  split_ifs at h with hshape
  push Not at hshape
  obtain ⟨hlen, hspace, hcolon, hcolon'⟩ := hshape
  simp only [bind_eq_bind, bind_eq_some_iff] at h
  obtain ⟨days, hdays, hour, hhour, minute, hminute, second, hsecond, h⟩ := h
  split_ifs at h with hrange
  obtain ⟨sub, hsub, hmicros⟩ := bind_eq_some_iff.mp h
  cases hmicros
  have htwo : ∀ {n value}, n + 2 ≤ 19 → digits? ((text.drop n).take 2) = some value →
      (text.drop n).take 2 = padded 2 value := by
    intro n value hn hread
    obtain ⟨-, hpadded⟩ := digits?_eq_some hread
    rwa [length_take, length_drop, Nat.min_eq_left (by omega)] at hpadded
  have hrest : (text.drop 11)[2]? = some ':' := by rwa [getElem?_drop]
  have hrest' : (text.drop 14)[2]? = some ':' := by rwa [getElem?_drop]
  refine ⟨text.take 10, text.drop 19, days, sub, hour, minute, second, ?_, hdays, hsub, by omega,
    by omega, by omega, rfl⟩
  rw [← htwo (by decide) hhour, ← htwo (by decide) hminute, ← htwo (by decide) hsecond]
  conv_lhs => rw [eq_take_cons_drop hspace, eq_take_cons_drop hrest, drop_drop,
    eq_take_cons_drop hrest', drop_drop, ← take_append_drop 2 (text.drop 17)]
  simp

theorem parseFraction_bounds (h : parseFraction text = some micros) :
    0 ≤ micros ∧ micros < 1000000 := by
  rcases parseFraction_eq_some h with ⟨-, rfl⟩ | ⟨width, value, -, hw, hlt, -, rfl⟩
  · decide
  · have hunit : (10 : ℤ) ^ width * 10 ^ (6 - width) = 1000000 := by
      rw [← pow_add, Nat.add_sub_cancel' hw]
      rfl
    refine ⟨by positivity, ?_⟩
    rw [← hunit]
    exact mul_lt_mul_of_pos_right (by exact_mod_cast hlt) (by positivity)

theorem formatDateDays_parseDateDays (h : parseDateDays text = some days) :
    formatDateDays days = some text := by
  obtain ⟨year, month, day, rfl, hy, -, -, ⟨hm0, hm, hd0, hd⟩, rfl⟩ := parseDateDays_eq_some h
  have hcivil : civilFromDays (daysFromCivil year month day) = ⟨year, month, day⟩ :=
    civilFromDays_daysFromCivil (by omega) (by omega) (by omega) hd
  rw [formatDateDays, hcivil, if_pos (by dsimp only; omega)]

theorem formatDatetimeMicros_eq {days seconds sub : ℤ} (hd : 0 ≤ (civilFromDays days).year)
    (hd' : (civilFromDays days).year ≤ 9999) (h0 : 0 ≤ seconds) (h1 : seconds < 86400)
    (hs0 : 0 ≤ sub) (hs1 : sub < 1000000) (hfsp : fsp ≤ 6) :
    formatDatetimeMicros ((days * 86400 + seconds) * 1000000 + sub) fsp =
      let text := dateText (civilFromDays days) ++ ' ' :: clockText seconds
      if 0 < fsp then some (text ++ '.' :: padded fsp (sub / 10 ^ (6 - fsp)).toNat)
      else if sub ≠ 0 then none
      else some text := by
  have hseconds : ((days * 86400 + seconds) * 1000000 + sub) / 1000000 = days * 86400 + seconds := by
    omega
  have hsub : ((days * 86400 + seconds) * 1000000 + sub) % 1000000 = sub := by omega
  have hdays : (days * 86400 + seconds) / 86400 = days := by omega
  have hclock : (days * 86400 + seconds) % 86400 = seconds := by omega
  rw [formatDatetimeMicros, if_neg (not_lt.mpr hfsp)]
  dsimp only
  rw [hseconds, hsub, hdays, hclock, if_neg (by simp [hd, hd'])]

theorem formatDatetimeMicros_parseDatetimeMicros (h : parseDatetimeMicros text = some micros) :
    formatDatetimeMicros micros (text.drop 20).length = some text := by
  obtain ⟨date, fraction, days, sub, hour, minute, second, rfl, hdate, hfraction, hh, hm, hs, rfl⟩ :=
    parseDatetimeMicros_eq_some h
  obtain ⟨h0, h1⟩ := parseFraction_bounds hfraction
  have hformat := formatDateDays_parseDateDays hdate
  unfold formatDateDays at hformat
  dsimp only at hformat
  split_ifs at hformat with hyear
  obtain rfl : dateText (civilFromDays days) = date := by injection hformat
  have hclock : clockText (hour * 3600 + minute * 60 + second) =
      padded 2 hour ++ ':' :: padded 2 minute ++ ':' :: padded 2 second := by
    have hhour : (((hour : ℤ) * 3600 + minute * 60 + second) / 3600).toNat = hour := by omega
    have hminute : (((hour : ℤ) * 3600 + minute * 60 + second) % 3600 / 60).toNat = minute := by
      omega
    have hsecond : (((hour : ℤ) * 3600 + minute * 60 + second) % 60).toNat = second := by omega
    rw [clockText, hhour, hminute, hsecond]
  have hwhole : (days * 86400 + hour * 3600 + minute * 60 + second) =
      days * 86400 + (hour * 3600 + minute * 60 + second) := by omega
  have hlength : ((dateText (civilFromDays days) ++ ' ' :: (padded 2 hour ++ ':' :: padded 2 minute ++
      ':' :: padded 2 second) ++ fraction).drop 20).length = fraction.length - 1 := by
    simp [length_dateText]
    omega
  rw [hwhole, hlength, ← hclock]
  rcases parseFraction_eq_some hfraction with ⟨rfl, rfl⟩ | ⟨width, value, hw0, hw, hlt, rfl, rfl⟩
  · rw [formatDatetimeMicros_eq hyear.1 hyear.2 (by omega) (by omega) h0 h1 (by decide)]
    simp
  · rw [length_cons, length_padded, Nat.add_sub_cancel,
      formatDatetimeMicros_eq hyear.1 hyear.2 (by omega) (by omega) h0 h1 hw]
    simp [hw0]

def dateFields (text : List Char) : List ℕ :=
  [text.take 4, (text.drop 5).take 2, (text.drop 8).take 2].map fun digits =>
    (digits? digits).getD 0

def datetimeFields (text : List Char) : List ℕ :=
  dateFields (text.take 10) ++
    [(text.drop 11).take 2, (text.drop 14).take 2, (text.drop 17).take 2,
      (text.drop 20).rightpad 6 '0'].map fun digits => (digits? digits).getD 0

theorem dateFields_dateText {year month day : ℕ} (hy : year < 10 ^ 4) (hm : month < 10 ^ 2)
    (hd : day < 10 ^ 2) : dateFields (dateText ⟨year, month, day⟩) = [year, month, day] := by
  obtain ⟨hyear, hmonth, hday⟩ := date_slices (length_padded 4 year) (length_padded 2 month)
    (length_padded 2 day)
  simp only [dateFields, dateText, toNat_natCast, hyear, hmonth, hday, map_cons,
    map_nil, digits?_padded (show 0 < 4 by decide) hy, digits?_padded (show 0 < 2 by decide) hm,
    digits?_padded (show 0 < 2 by decide) hd, getD_some]

theorem digits?_rightpad (h : parseFraction text = some micros) :
    digits? ((text.drop 1).rightpad 6 '0') = some micros.toNat := by
  rcases parseFraction_eq_some h with ⟨rfl, rfl⟩ | ⟨width, value, hw0, hw, hlt, rfl, rfl⟩
  · rfl
  · have hpow : value * 10 ^ (6 - width) < 10 ^ (width + (6 - width)) := by
      rw [pow_add]
      exact Nat.mul_lt_mul_of_pos_right hlt (by positivity)
    have hnat : ((value : ℤ) * 10 ^ (6 - width)).toNat = value * 10 ^ (6 - width) := by
      exact_mod_cast toNat_natCast _
    rw [drop_one, tail_cons, rightpad, length_padded, padded_append_zeros,
      digits?_padded (by omega) hpow, hnat]

theorem exists_dateFields (h : parseDateDays text = some days) :
    ∃ year month day : ℕ, dateFields text = [year, month, day] ∧ 1 ≤ month ∧ month ≤ 12 ∧ 1 ≤ day ∧
      (day : ℤ) ≤ monthDays year month ∧ days = daysFromCivil year month day := by
  obtain ⟨year, month, day, rfl, hy, hm, hd, ⟨h0, h1, hday0, hday⟩, rfl⟩ := parseDateDays_eq_some h
  exact ⟨year, month, day, dateFields_dateText hy hm hd, h0, h1, hday0, hday, rfl⟩

theorem exists_datetimeFields (h : parseDatetimeMicros text = some micros) :
    ∃ (days : ℤ) (hour minute second sub : ℕ), parseDateDays (text.take 10) = some days ∧
      datetimeFields text = dateFields (text.take 10) ++ [hour, minute, second, sub] ∧
      hour ≤ 23 ∧ minute ≤ 59 ∧ second ≤ 59 ∧ sub < 1000000 ∧
      micros = (days * 86400 + hour * 3600 + minute * 60 + second) * 1000000 + sub := by
  obtain ⟨date, fraction, days, sub, hour, minute, second, rfl, hdate, hfraction, hh, hm, hs, rfl⟩ :=
    parseDatetimeMicros_eq_some h
  obtain ⟨h0, h1⟩ := parseFraction_bounds hfraction
  have hlen : date.length = 10 := by
    obtain ⟨year, month, day, rfl, -⟩ := parseDateDays_eq_some hdate
    exact length_dateText _
  obtain ⟨htake, hhour, hminute, hsecond, hrest⟩ := @datetime_slices date (padded 2 hour)
    (padded 2 minute) (padded 2 second) fraction hlen (length_padded ..) (length_padded ..)
    (length_padded ..)
  have hdigits : ∀ n ≤ 59, digits? (padded 2 n) = some n := fun n hn =>
    digits?_padded (by decide) (show n < 10 ^ 2 by omega)
  refine ⟨days, hour, minute, second, sub.toNat, by rwa [htake], ?_, hh, hm, hs, by omega, by omega⟩
  rw [datetimeFields, hhour, hminute, hsecond, ← drop_drop (i := 1) (j := 19), hrest]
  simp only [map_cons, map_nil, hdigits hour (by omega), hdigits minute hm,
    hdigits second hs, digits?_rightpad hfraction, getD_some]

variable {text text' : List Char}

theorem parseDateDays_lt {days days' : ℤ} (h : parseDateDays text = some days)
    (h' : parseDateDays text' = some days') (hlt : dateFields text < dateFields text') :
    days < days' := by
  obtain ⟨year, month, day, hfields, h0, h1, -, hday, rfl⟩ := exists_dateFields h
  obtain ⟨year', month', day', hfields', h0', h1', hday', -, rfl⟩ := exists_dateFields h'
  rw [hfields, hfields'] at hlt
  simp only [cons_lt_cons_iff, not_lt_nil, and_false, or_false] at hlt
  apply daysFromCivil_lt <;> omega

theorem parseDatetimeMicros_lt {micros micros' : ℤ}
    (h : parseDatetimeMicros text = some micros) (h' : parseDatetimeMicros text' = some micros')
    (hlt : datetimeFields text < datetimeFields text') : micros < micros' := by
  obtain ⟨days, hour, minute, second, sub, hdays, hfields, hh, hm, hs, hsub, rfl⟩ :=
    exists_datetimeFields h
  obtain ⟨days', hour', minute', second', sub', hdays', hfields', hh', hm', hs', hsub', rfl⟩ :=
    exists_datetimeFields h'
  rw [hfields, hfields'] at hlt
  have hdate : days < days' ∨ days = days' ∧ [hour, minute, second, sub] <
      [hour', minute', second', sub'] := by
    have hless := parseDateDays_lt hdays hdays'
    obtain ⟨year, month, day, hdate, -, -, -, -, rfl⟩ := exists_dateFields hdays
    obtain ⟨year', month', day', hdate', -, -, -, -, rfl⟩ := exists_dateFields hdays'
    rw [hdate, hdate'] at hlt hless
    simp only [cons_append, nil_append, cons_lt_cons_iff, not_lt_nil, and_false,
      or_false] at hlt hless ⊢
    rcases hlt with hy | ⟨rfl, hm | ⟨rfl, hd | ⟨rfl, hclock⟩⟩⟩
    · exact inl (hless (inl hy))
    · exact inl (hless (inr ⟨rfl, inl hm⟩))
    · exact inl (hless (inr ⟨rfl, inr ⟨rfl, hd⟩⟩))
    · exact inr ⟨rfl, hclock⟩
  simp only [cons_lt_cons_iff, not_lt_nil, and_false, or_false] at hdate
  omega

theorem exists_formatDatetimeMicros (hfsp : fsp ≤ 6)
    (h0 : 0 ≤ (civilFromDays (micros / 1000000 / 86400)).year)
    (h1 : (civilFromDays (micros / 1000000 / 86400)).year ≤ 9999) (hd : 10 ^ (6 - fsp) ∣ micros) :
    ∃ text, formatDatetimeMicros micros fsp = some text := by
  unfold formatDatetimeMicros
  rw [if_neg (not_lt.mpr hfsp)]
  rw [if_neg (by simp [h0, h1])]
  split_ifs with hpos hsub
  · exact ⟨_, rfl⟩
  · obtain rfl : fsp = 0 := by omega
    exact absurd (emod_eq_zero_of_dvd hd) hsub
  · exact ⟨_, rfl⟩

/-- Dates and date-times are read back from what is written and written back from what is read, and
they are read in the order of the calendar. -/
theorem canonical_exact :
    (∀ days, 0 ≤ (civilFromDays days).year → (civilFromDays days).year ≤ 9999 →
      ∃ text, formatDateDays days = some text ∧ parseDateDays text = some days) ∧
    (∀ text days, parseDateDays text = some days → formatDateDays days = some text) ∧
    (∀ fsp ≤ 6, ∀ micros : ℤ, 0 ≤ (civilFromDays (micros / 1000000 / 86400)).year →
      (civilFromDays (micros / 1000000 / 86400)).year ≤ 9999 → 10 ^ (6 - fsp) ∣ micros →
      ∃ text, formatDatetimeMicros micros fsp = some text ∧
        parseDatetimeMicros text = some micros) ∧
    (∀ fsp text micros, (text.drop 20).length = fsp → parseDatetimeMicros text = some micros →
      formatDatetimeMicros micros fsp = some text) ∧
    (∀ text text' days days', parseDateDays text = some days → parseDateDays text' = some days' →
      dateFields text < dateFields text' → days < days') ∧
    ∀ text text' micros micros', parseDatetimeMicros text = some micros →
      parseDatetimeMicros text' = some micros' → datetimeFields text < datetimeFields text' →
      micros < micros' := by
  refine ⟨?_, fun _ _ => formatDateDays_parseDateDays, ?_, ?_, fun _ _ _ _ => parseDateDays_lt,
    fun _ _ _ _ => parseDatetimeMicros_lt⟩
  · intro days h0 h1
    exact ⟨_, if_pos ⟨h0, h1⟩, parseDateDays_dateText h0 h1⟩
  · intro fsp hfsp micros h0 h1 hd
    obtain ⟨text, htext⟩ := exists_formatDatetimeMicros hfsp h0 h1 hd
    have hread := parseDatetimeMicros_formatDatetimeMicros htext
    rw [emod_eq_zero_of_dvd hd, sub_zero] at hread
    exact ⟨text, htext, hread⟩
  · rintro _ text micros rfl hread
    exact formatDatetimeMicros_parseDatetimeMicros hread

theorem canonical_exact_leapDay :
    parseDatetimeMicros "2024-02-29 23:59:59.500".toList = some 1709251199500000 ∧
      formatDatetimeMicros 1709251199500000 3 = some "2024-02-29 23:59:59.500".toList ∧
      (11016 : ℤ) < 19782 := by
  have hread : parseDatetimeMicros "2024-02-29 23:59:59.500".toList = some 1709251199500000 := by
    decide
  exact ⟨hread, canonical_exact.2.2.2.1 3 _ _ (by decide) hread,
    canonical_exact.2.2.2.2.1 "2000-02-29".toList "2024-02-29".toList _ _ (by decide) (by decide)
      (by decide)⟩

end Pintail
