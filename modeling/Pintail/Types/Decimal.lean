import Pintail.Words.Digits

/-! # Decimals rounded half away from zero

Casts, divisions and averages read decimal text at a narrower scale and divide scaled integers, both
rounding half away from zero. The reader decides digit by digit and counts the fraction digits in a
byte; the exact result is a rational rounded.
-/

namespace Pintail

open Words List Nat Option Int

def FitsI128 (n : ℤ) : Prop := -2 ^ 127 ≤ n ∧ n < 2 ^ 127

instance (n : ℤ) : Decidable (FitsI128 n) := inferInstanceAs (Decidable (_ ∧ _))

def checkedI128 (n : ℤ) : Option ℤ := if FitsI128 n then some n else none

structure Rounding where
  magnitude : ℤ := 0
  fractionDigits : ℕ := 0
  seenDot : Bool := false
  seenDigit : Bool := false
  roundUp : Bool := false

def Rounding.step (scale : UInt8) (s : Rounding) (c : Char) : Option Rounding :=
  match digit? c with
  | some digit =>
    if s.seenDot ∧ scale.toNat ≤ s.fractionDigits then
      let roundUp := if s.fractionDigits = scale.toNat then decide (5 ≤ digit) else s.roundUp
      -- the counter is a byte
      if s.fractionDigits + 1 < 256 then
        some { s with fractionDigits := s.fractionDigits + 1, seenDigit := true, roundUp }
      else none
    else do
      let magnitude ← checkedI128 (s.magnitude * 10)
      let magnitude ← checkedI128 (magnitude + digit)
      return { s with magnitude, seenDigit := true,
                      fractionDigits := s.fractionDigits + if s.seenDot then 1 else 0 }
  | none => if c = '.' ∧ s.seenDot = false then some { s with seenDot := true } else none

def scaleUp : ℕ → ℤ → Option ℤ
  | 0, magnitude => some magnitude
  | missing + 1, magnitude => do scaleUp missing (← checkedI128 (magnitude * 10))

def Rounding.finish (scale : UInt8) (s : Rounding) : Option ℤ :=
  if s.seenDigit = false then none
  else do
    let magnitude ← scaleUp (scale.toNat - s.fractionDigits) s.magnitude
    if s.roundUp then checkedI128 (magnitude + 1) else some magnitude

def readMagnitude (scale : UInt8) (rest : List Char) : Option ℤ := do
  (← rest.foldlM (Rounding.step scale) {}).finish scale

def parseDecimalRounded (text : List Char) (scale : UInt8) : Option ℤ :=
  match text with
  | [] => none
  | '-' :: rest => (readMagnitude scale rest).map fun magnitude => -magnitude
  | '+' :: rest => readMagnitude scale rest
  | text => readMagnitude scale text

def divDecimalRoundHalfUp (numerator denominator : ℤ) : Option ℤ :=
  if denominator = 0 then none
  else do
    let quotient ← checkedI128 (numerator.tdiv denominator)
    -- the remainder overflows only where the quotient does
    let remainder := numerator.tmod denominator
    if remainder = 0 then return quotient
    let doubled := 2 * remainder.natAbs
    if doubled < 2 ^ 128 ∧ denominator.natAbs ≤ doubled then
      checkedI128 (quotient + if (numerator < 0) = (denominator < 0) then 1 else -1)
    else return quotient

def roundHalfAway (q : ℚ) : ℤ := if 0 ≤ q then ⌊q + 1 / 2⌋ else -⌊-q + 1 / 2⌋

theorem roundHalfAway_neg (q : ℚ) : roundHalfAway (-q) = -roundHalfAway q := by
  unfold roundHalfAway
  rcases lt_trichotomy q 0 with h | rfl | h
  · rw [if_pos (by linarith), if_neg (not_le.mpr h), neg_neg]
  · norm_num
  · rw [if_neg (by linarith), if_pos h.le, neg_neg]

theorem roundHalfAway_div {q d r : ℕ} (hr : r < d) :
    roundHalfAway (((q * d + r : ℕ) : ℚ) / d) = (q + if d ≤ 2 * r then 1 else 0 : ℕ) := by
  have hd : (0 : ℚ) < d := by exact_mod_cast pos_of_ne_zero (by omega)
  rw [roundHalfAway, if_pos (by positivity), Int.floor_eq_iff]
  have hsum : ((q * d + r : ℕ) : ℚ) / d = q + r / d := by
    push_cast
    field_simp
  have hr' : (r : ℚ) / d < 1 := by
    rw [div_lt_one hd]
    exact_mod_cast hr
  have hr0 : 0 ≤ (r : ℚ) / d := by positivity
  have hhalf : d ≤ 2 * r ↔ (1 : ℚ) / 2 ≤ r / d := by
    rw [div_le_div_iff₀ (by norm_num) hd, one_mul, mul_comm (r : ℚ)]
    exact_mod_cast Iff.rfl
  rw [hsum]
  split_ifs with h
  · have := hhalf.mp h
    push_cast
    constructor <;> linarith
  · have := not_le.mp (mt hhalf.mpr h)
    push_cast
    constructor <;> linarith

section Digits

variable {scale : UInt8} {s : Rounding} {digits : List (Fin 10)} {m n : ℕ}

/-- The number whose digits go on from a number already read. -/
def readOn : ℕ → List (Fin 10) → ℕ
  | n, [] => n
  | n, digit :: digits => readOn (10 * n + digit.val) digits

def digitText (digits : List (Fin 10)) : List Char := digits.map fun digit => digit.val.digitChar

theorem readOn_eq (n : ℕ) (digits : List (Fin 10)) :
    readOn n digits = n * 10 ^ digits.length + readOn 0 digits := by
  induction digits generalizing n with
  | nil => simp [readOn]
  | cons digit digits ih =>
    rw [readOn, readOn, ih, ih (10 * 0 + digit.val), length_cons]
    ring

theorem readOn_lt (digits : List (Fin 10)) : readOn 0 digits < 10 ^ digits.length := by
  induction digits with
  | nil => decide
  | cons digit digits ih =>
    have hdigit : digit.val * 10 ^ digits.length ≤ 9 * 10 ^ digits.length :=
      mul_le_mul_right _ (by omega)
    rw [readOn, readOn_eq, length_cons, mul_zero, zero_add]
    omega

theorem le_readOn (n : ℕ) (digits : List (Fin 10)) : n ≤ readOn n digits := by
  rw [readOn_eq]
  exact (Nat.le_mul_of_pos_right n (by positivity)).trans (Nat.le_add_right ..)

theorem checkedI128_natCast (n : ℕ) :
    checkedI128 n = if n < 2 ^ 127 then some (n : ℤ) else none := by
  unfold checkedI128 FitsI128
  congr 1
  rw [eq_iff_iff]
  omega

/-- A bound that is checked twice: the second check passes only where the first did. -/
theorem ite_bind_eq {α β : Type} {P Q : Prop} [Decidable P] [Decidable Q] {a : α} {b : β}
    {f : α → Option β} (hQP : Q → P) (h : P → f a = if Q then some b else none) :
    ((if P then some a else none) >>= f) = if Q then some b else none := by
  by_cases hP : P
  · rw [if_pos hP]
    exact h hP
  · rw [if_neg hP, if_neg (mt hQP hP)]
    rfl

theorem Rounding.step_within (hm : s.magnitude = m)
    (h : ¬ (s.seenDot = true ∧ scale.toNat ≤ s.fractionDigits)) (digit : Fin 10) :
    s.step scale digit.val.digitChar =
      if 10 * m + digit.val < 2 ^ 127 then
        some { s with magnitude := (10 * m + digit.val : ℕ), seenDigit := true,
                      fractionDigits := s.fractionDigits + if s.seenDot then 1 else 0 }
      else none := by
  have hmul : s.magnitude * 10 = ((10 * m : ℕ) : ℤ) := by rw [hm]; push_cast; ring
  have hadd : ((10 * m : ℕ) : ℤ) + digit.val = ((10 * m + digit.val : ℕ) : ℤ) := by rfl
  rw [step, digit?_digitChar digit.isLt]
  dsimp only
  rw [if_neg h, hmul, checkedI128_natCast]
  apply ite_bind_eq (by omega)
  intro _
  rw [hadd, checkedI128_natCast]
  split_ifs <;> rfl

theorem foldlM_within (hm : s.magnitude = m) (hlt : m < 2 ^ 127)
    (h : s.seenDot = true → s.fractionDigits + digits.length ≤ scale.toNat) :
    (digitText digits).foldlM (Rounding.step scale) s =
      if readOn m digits < 2 ^ 127 then
        some { s with magnitude := readOn m digits, seenDigit := s.seenDigit || !digits.isEmpty,
                      fractionDigits := s.fractionDigits + if s.seenDot then digits.length else 0 }
      else none := by
  induction digits generalizing s m with
  | nil =>
    obtain ⟨_, _, _, _, _⟩ := s
    simp_all [digitText, readOn]
  | cons digit digits ih =>
    rw [length_cons] at h
    have hgrow := le_readOn (10 * m + digit.val) digits
    have hbelow : ¬ (s.seenDot = true ∧ scale.toNat ≤ s.fractionDigits) := by
      rintro ⟨hdot, hle⟩
      have := h hdot
      omega
    rw [digitText, map_cons, foldlM_cons, Rounding.step_within hm hbelow, readOn]
    apply ite_bind_eq (by omega)
    intro hnext
    rw [← digitText, ih rfl hnext]
    · cases s.seenDot <;> simp [add_comm, add_assoc]
    · intro hdot
      have := h hdot
      simp only [if_pos hdot]
      omega

/-- Digits behind the scale are only counted, and the first of them decides the rounding. -/
theorem foldlM_behind (hdot : s.seenDot = true) (hs : scale.toNat ≤ s.fractionDigits)
    (hc : s.fractionDigits < 256) :
    (digitText digits).foldlM (Rounding.step scale) s =
      if s.fractionDigits + digits.length < 256 then
        some { s with fractionDigits := s.fractionDigits + digits.length,
                      seenDigit := s.seenDigit || !digits.isEmpty,
                      roundUp := if s.fractionDigits = scale.toNat then
                        (digits.head?.map fun digit => decide (5 ≤ digit.val)).getD s.roundUp
                        else s.roundUp }
      else none := by
  induction digits generalizing s with
  | nil =>
    obtain ⟨_, _, _, _, _⟩ := s
    simp_all [digitText]
  | cons digit digits ih =>
    rw [digitText, map_cons, foldlM_cons, Rounding.step, digit?_digitChar digit.isLt]
    dsimp only
    rw [if_pos ⟨hdot, hs⟩, length_cons]
    apply ite_bind_eq (by omega)
    intro hnext
    have hne : s.fractionDigits + 1 ≠ scale.toNat := by omega
    rw [← digitText, ih]
    · simp [hne, add_assoc, add_comm 1]
    · exact hdot
    · exact hs.trans (le_succ _)
    · exact hnext

theorem scaleUp_natCast (missing : ℕ) (hm : m < 2 ^ 127) :
    scaleUp missing m =
      if m * 10 ^ missing < 2 ^ 127 then some ((m * 10 ^ missing : ℕ) : ℤ) else none := by
  induction missing generalizing m with
  | zero => rw [pow_zero, mul_one, if_pos hm, scaleUp]
  | succ missing ih =>
    have hmul : (m : ℤ) * 10 = ((m * 10 : ℕ) : ℤ) := by push_cast; ring
    have hpow : m * 10 ^ (missing + 1) = m * 10 * 10 ^ missing := by ring
    rw [scaleUp, hmul, checkedI128_natCast, hpow]
    have hgrow := Nat.le_mul_of_pos_right (m * 10) (show 0 < 10 ^ missing by positivity)
    exact ite_bind_eq (by omega) ih

theorem readOn_append (n : ℕ) (digits more : List (Fin 10)) :
    readOn n (digits ++ more) = readOn (readOn n digits) more := by
  induction digits generalizing n with
  | nil => rfl
  | cons digit digits ih => exact ih _

/-- The first digit of a remainder tells whether it reaches half of the divisor. -/
theorem pow_le_two_mul_readOn (digit : Fin 10) (digits : List (Fin 10)) :
    10 ^ (digits.length + 1) ≤ 2 * readOn 0 (digit :: digits) ↔ 5 ≤ digit.val := by
  have hlt := readOn_lt digits
  rw [readOn, readOn_eq, mul_zero, zero_add]
  constructor
  · by_contra hlow
    have := mul_le_mul_right (10 ^ digits.length) (show digit.val ≤ 4 by omega)
    omega
  · intro h
    have := mul_le_mul_right (10 ^ digits.length) h
    omega

end Digits

inductive Sign where
  | bare
  | plus
  | minus
  deriving DecidableEq

def Sign.text : Sign → List Char
  | .bare => []
  | .plus => ['+']
  | .minus => ['-']

/-- A decimal as it is written: a sign, digits, and a point with digits behind it. -/
structure Numeral where
  sign : Sign
  whole : List (Fin 10)
  fraction : Option (List (Fin 10))
  written : whole ≠ [] ∨ fraction.getD [] ≠ []

namespace Numeral

variable (n : Numeral) (scale : UInt8)

def behind : List (Fin 10) := n.fraction.getD []

def body : List Char :=
  digitText n.whole ++ (n.fraction.map fun digits => '.' :: digitText digits).getD []

def text : List Char := n.sign.text ++ n.body

def signed (magnitude : ℕ) : ℤ := if n.sign = .minus then -magnitude else magnitude

def value : ℚ := n.signed (readOn 0 (n.whole ++ n.behind)) / 10 ^ n.behind.length

def rounded : ℤ := roundHalfAway (n.value * 10 ^ scale.toNat)

def magnitude : ℕ :=
  readOn 0 (n.whole ++ n.behind.take scale.toNat) * 10 ^ (scale.toNat - n.behind.length) +
    if (n.behind.drop scale.toNat).head?.any (5 ≤ ·.val) then 1 else 0

theorem roundHalfAway_magnitude :
    roundHalfAway ((readOn 0 (n.whole ++ n.behind) : ℚ) / 10 ^ n.behind.length * 10 ^ scale.toNat) =
      n.magnitude scale := by
  have hsplit : readOn 0 (n.whole ++ n.behind) =
      readOn 0 (n.whole ++ n.behind.take scale.toNat) * 10 ^ (n.behind.drop scale.toNat).length +
        readOn 0 (n.behind.drop scale.toNat) := by
    rw [← readOn_eq, ← readOn_append, append_assoc, take_append_drop]
  have hlen := n.behind.length_drop (i := scale.toNat)
  rw [magnitude, hsplit]
  cases hdrop : n.behind.drop scale.toNat with
  | nil =>
    have hle : n.behind.length ≤ scale.toNat := drop_eq_nil_iff.mp hdrop
    have hpow : (10 : ℚ) ^ scale.toNat = 10 ^ n.behind.length * 10 ^ (scale.toNat -
      n.behind.length) := by
      rw [← pow_add, Nat.add_sub_cancel' hle]
    have hexact := @roundHalfAway_div (readOn 0 (n.whole ++ n.behind.take scale.toNat) *
      10 ^ (scale.toNat - n.behind.length)) 1 0 one_pos
    rw [if_neg (by decide)] at hexact
    rw [head?_nil, any_none, if_neg Bool.false_ne_true, ← hexact, hpow, readOn]
    congr 1
    push_cast
    rw [length_nil]
    field_simp
    ring
  | cons digit rest =>
    rw [hdrop, length_cons] at hlen
    have hpow : (10 : ℚ) ^ n.behind.length = 10 ^ (rest.length + 1) * 10 ^ scale.toNat := by
      rw [← pow_add]
      congr 1
      omega
    have hhalf := @roundHalfAway_div (readOn 0 (n.whole ++ n.behind.take scale.toNat))
      (10 ^ (rest.length + 1)) _ (readOn_lt (digit :: rest))
    simp only [pow_le_two_mul_readOn] at hhalf
    rw [head?_cons, any_some, show scale.toNat - n.behind.length = 0 by omega, pow_zero,
      mul_one, hpow, length_cons]
    simp only [decide_eq_true_eq]
    rw [← hhalf]
    congr 1
    push_cast
    field_simp

theorem rounded_eq : n.rounded scale = n.signed (n.magnitude scale) := by
  have h := n.roundHalfAway_magnitude scale
  unfold rounded value signed
  split_ifs
  · rw [cast_neg, cast_natCast, neg_div, neg_mul, roundHalfAway_neg, h]
  · rw [cast_natCast, h]

theorem foldlM_body :
    n.body.foldlM (Rounding.step scale) {} =
      if readOn 0 (n.whole ++ n.behind.take scale.toNat) < 2 ^ 127 ∧ n.behind.length < 256 then
        some { magnitude := readOn 0 (n.whole ++ n.behind.take scale.toNat)
               fractionDigits := n.behind.length
               seenDot := n.fraction.isSome
               seenDigit := true
               roundUp := (n.behind.drop scale.toNat).head?.any (5 ≤ ·.val) }
      else none := by
  have hread := readOn_append 0 n.whole (n.behind.take scale.toNat)
  have hgrow := le_readOn (readOn 0 n.whole) (n.behind.take scale.toNat)
  have hwritten := n.written
  rw [body, foldlM_append, @foldlM_within scale {} n.whole 0 rfl (by decide) (by simp), hread]
  apply ite_bind_eq (by omega)
  intro hwhole
  unfold behind at *
  cases hf : n.fraction with
  | none => simp_all [readOn]
  | some digits =>
    rw [hf, getD_some] at hgrow hwritten
    have hdigit : (!n.whole.isEmpty || !digits.isEmpty) = true := by
      rcases hwritten with h | h <;> simp [h]
    have hbyte := scale.toNat_lt
    rw [map_some, getD_some, getD_some]
    change (digitText digits).foldlM _ { (_ : Rounding) with seenDot := true } = _
    rcases le_total digits.length scale.toNat with hle | hge
    · rw [foldlM_within rfl hwhole (by simpa using hle), take_of_length_le hle,
        drop_eq_nil_of_le hle]
      simp [hdigit, show digits.length < 256 by omega]
    · have htext : digitText digits =
          digitText (digits.take scale.toNat) ++ digitText (digits.drop scale.toNat) := by
        rw [digitText, digitText, digitText, ← map_append, take_append_drop]
      have hlen : (digits.take scale.toNat).length = scale.toNat := length_take_of_le hge
      rw [htext, foldlM_append, foldlM_within rfl hwhole (by simp)]
      apply ite_bind_eq And.left
      intro hin
      have hdigit' : (!n.whole.isEmpty || !(digits.take scale.toNat).isEmpty ||
          !(digits.drop scale.toNat).isEmpty) = true := by
        rw [← take_append_drop scale.toNat digits] at hwritten
        simp only [ne_eq, append_eq_nil_iff, not_and_or] at hwritten
        rcases hwritten with h | h | h <;> rw [isEmpty_eq_false_iff.mpr h] <;> simp
      have hup (o : Option (Fin 10)) :
          (o.map fun digit => decide (5 ≤ digit.val)).getD false = o.any (5 ≤ ·.val) := by
        cases o <;> rfl
      rw [foldlM_behind rfl (by simp [hlen]) (by simpa [hlen] using hbyte)]
      simp only [hlen, hin, hup]
      simp [hdigit', Nat.add_sub_cancel' hge]

theorem readMagnitude_eq : readMagnitude scale n.body =
    if n.magnitude scale < 2 ^ 127 ∧ n.behind.length < 256 then some (n.magnitude scale : ℤ)
    else none := by
  have hgrow := Nat.le_mul_of_pos_right (readOn 0 (n.whole ++ n.behind.take scale.toNat))
    (show 0 < 10 ^ (scale.toNat - n.behind.length) by positivity)
  rw [readMagnitude, foldlM_body, magnitude]
  generalize readOn 0 (n.whole ++ n.behind.take scale.toNat) = m at *
  apply ite_bind_eq (fun hlt => ⟨by omega, hlt.2⟩)
  intro hm
  rw [Rounding.finish, scaleUp_natCast _ hm.1]
  generalize m * 10 ^ (scale.toNat - n.behind.length) = t at *
  apply ite_bind_eq (by omega)
  intro ht
  cases (n.behind.drop scale.toNat).head?.any (5 ≤ ·.val)
  · simpa [hm.2] using ht
  · have hsucc : (t : ℤ) + 1 = ((t + 1 : ℕ) : ℤ) := by rfl
    rw [if_pos rfl, if_pos rfl, hsucc, checkedI128_natCast]
    simp only [hm.2, and_true]

theorem parseDecimalRounded_body :
    parseDecimalRounded n.body scale = readMagnitude scale n.body := by
  have hdigit : ∀ digit : Fin 10, digit.val.digitChar ≠ '-' ∧ digit.val.digitChar ≠ '+' := by decide
  have hsign : ∀ c ∈ n.body, c ≠ '-' ∧ c ≠ '+' := by
    intro c hc
    rcases mem_append.mp hc with hc | hc
    · obtain ⟨digit, -, rfl⟩ := mem_map.mp hc
      exact hdigit digit
    · cases hf : n.fraction with
      | none => simp [hf] at hc
      | some digits =>
        rw [hf] at hc
        rcases mem_cons.mp hc with rfl | hc
        · decide
        · obtain ⟨digit, -, rfl⟩ := mem_map.mp hc
          exact hdigit digit
  unfold parseDecimalRounded
  split
  · rename_i hnil
    rw [hnil]
    rfl
  · rename_i hbody
    exact absurd rfl (hsign _ (hbody ▸ mem_cons_self)).1
  · rename_i hbody
    exact absurd rfl (hsign _ (hbody ▸ mem_cons_self)).2
  · rfl

theorem parseDecimalRounded_eq : parseDecimalRounded n.text scale =
    if n.magnitude scale < 2 ^ 127 ∧ n.behind.length < 256 then some (n.rounded scale) else none := by
  rw [rounded_eq, signed, text]
  cases hsign : n.sign with
  | plus => exact n.readMagnitude_eq scale
  | minus =>
    change (readMagnitude scale n.body).map _ = _
    rw [readMagnitude_eq, if_pos rfl]
    split_ifs <;> rfl
  | bare =>
    rw [Sign.text, nil_append, n.parseDecimalRounded_body]
    exact n.readMagnitude_eq scale

/-- The reader returns the rounded value, or nothing where that is no 128-bit integer. -/
def Exact : Prop :=
  parseDecimalRounded n.text scale = some (n.rounded scale) ∨
    parseDecimalRounded n.text scale = none ∧ ¬ FitsI128 (n.rounded scale)

theorem exact_iff : n.Exact scale ↔
    (FitsI128 (n.rounded scale) → n.behind.length < 256 ∧ n.rounded scale ≠ -2 ^ 127) := by
  have hfits : FitsI128 (n.rounded scale) ∧ n.rounded scale ≠ -2 ^ 127 ↔ n.magnitude scale < 2 ^
    127 := by
    rw [rounded_eq, signed, FitsI128]
    split_ifs <;> omega
  unfold Exact
  rw [parseDecimalRounded_eq]
  split_ifs <;> simp <;> tauto

end Numeral

variable {numerator denominator : ℤ}

theorem divDecimalRoundHalfUp_of_magnitudes {sign : ℤ} {n d : ℕ} (hd : 0 < d)
    (hn : n ≤ 2 ^ 127) (hd' : d ≤ 2 ^ 127) (hs : sign = 1 ∨ sign = -1) (h0 : denominator ≠ 0)
    (hdabs : denominator.natAbs = d) (hq : numerator.tdiv denominator = sign * (n / d : ℕ))
    (hr : (numerator.tmod denominator).natAbs = n % d)
    (hstep : n ≠ 0 → (if (numerator < 0) = (denominator < 0) then 1 else -1) = sign) :
    divDecimalRoundHalfUp numerator denominator =
      checkedI128 (sign * (n / d + if d ≤ 2 * (n % d) then 1 else 0 : ℕ)) := by
  have hlt := mod_lt n hd
  rw [divDecimalRoundHalfUp, if_neg h0, hq]
  dsimp only
  by_cases hzero : n % d = 0
  · have hrem : numerator.tmod denominator = 0 := natAbs_eq_zero.mp (hr.trans hzero)
    simp only [if_pos hrem]
    rw [if_neg (by omega)]
    cases checkedI128 (sign * (n / d : ℕ)) <;> rfl
  · have hrem : ¬ numerator.tmod denominator = 0 := fun h => hzero (by rw [← hr, h]; rfl)
    have hhalf : n / d ≤ 2 ^ 126 := by
      rw [div_le_iff_le_mul_add_pred hd]
      omega
    have hfits : checkedI128 (sign * (n / d : ℕ)) = some (sign * (n / d : ℕ)) := by
      apply if_pos
      unfold FitsI128
      generalize n / d = q at hhalf
      rcases hs with rfl | rfl <;> omega
    rw [hfits, bind_eq_bind, bind_some, hr, hdabs, hstep (by rintro rfl; simp at hzero)]
    split_ifs with hup hup' hup'
    · congr 1
      push_cast
      ring
    · exact absurd hup.2 hup'
    · exact absurd ⟨by omega, hup'⟩ hup
    · rw [add_zero, hfits]
      rfl

theorem divDecimalRoundHalfUp_eq (hn : FitsI128 numerator)
    (hd : FitsI128 denominator) (h0 : denominator ≠ 0) :
    divDecimalRoundHalfUp numerator denominator =
      checkedI128 (roundHalfAway ((numerator : ℚ) / denominator)) := by
  unfold FitsI128 at hn hd
  have hround := @roundHalfAway_div (numerator.natAbs / denominator.natAbs) denominator.natAbs _
    (mod_lt numerator.natAbs (natAbs_pos.mpr h0))
  rw [div_add_mod'] at hround
  have hdivide := fun sign hs hq hstep => @divDecimalRoundHalfUp_of_magnitudes numerator denominator
    sign numerator.natAbs denominator.natAbs (natAbs_pos.mpr h0) (by omega) (by omega) hs h0 rfl hq
    (natAbs_tmod ..) hstep
  obtain ⟨a, rfl | rfl⟩ := Int.eq_nat_or_neg numerator <;>
    obtain ⟨b, rfl | rfl⟩ := Int.eq_nat_or_neg denominator
  · rw [hdivide 1 (Or.inl rfl) (by simp) (by simp; omega), ← hround]
    simp
  · rw [hdivide (-1) (Or.inr rfl) (by simp) (by simp; omega), neg_one_mul, ← hround,
      ← roundHalfAway_neg]
    congr 2
    simp [div_neg]
  · rw [hdivide (-1) (Or.inr rfl) (by simp) (by simp; omega), neg_one_mul, ← hround,
      ← roundHalfAway_neg]
    congr 2
    simp [neg_div]
  · rw [hdivide 1 (Or.inl rfl) (by simp) (by simp; omega), ← hround]
    simp

/-- The reader is exact unless more fraction digits are written than a byte counts or the value is
the least integer, and the division is exact. -/
theorem decimals_rounded (n : Numeral) (scale : UInt8) :
    (n.Exact scale ↔
      (FitsI128 (n.rounded scale) → n.behind.length < 256 ∧ n.rounded scale ≠ -2 ^ 127)) ∧
    ∀ numerator denominator : ℤ, FitsI128 numerator → FitsI128 denominator → denominator ≠ 0 →
      divDecimalRoundHalfUp numerator denominator =
        checkedI128 (roundHalfAway ((numerator : ℚ) / denominator)) :=
  ⟨n.exact_iff scale, fun _ _ => divDecimalRoundHalfUp_eq⟩

/-- Nought with a fraction of 256 zeros. -/
def longNought : Numeral := ⟨.bare, [0], some (List.replicate 256 0), Or.inl (by decide)⟩

def leastI128 : Numeral :=
  ⟨.minus, [1, 7, 0, 1, 4, 1, 1, 8, 3, 4, 6, 0, 4, 6, 9, 2, 3, 1, 7, 3, 1, 6, 8, 7, 3, 0, 3, 7, 1, 5,
    8, 8, 4, 1, 0, 5, 7, 2, 8], none, Or.inl (by decide)⟩

theorem decimals_not_rounded :
    parseDecimalRounded longNought.text 0 = none ∧ longNought.rounded 0 = 0 ∧
      parseDecimalRounded leastI128.text 0 = none ∧ leastI128.rounded 0 = -2 ^ 127 ∧
      ¬ longNought.Exact 0 ∧ ¬ leastI128.Exact 0 := by
  have hlong : longNought.rounded 0 = 0 := by
    decide +kernel
  have hleast : leastI128.rounded 0 = -2 ^ 127 := by
    decide +kernel
  refine ⟨by decide +kernel, hlong, by decide +kernel, hleast, ?_, ?_⟩
  · rw [Numeral.exact_iff]
    decide +kernel
  · rw [Numeral.exact_iff]
    decide +kernel

theorem decimals_rounded_halves :
    Numeral.Exact ⟨.minus, [1], some [2, 5], Or.inl (by decide)⟩ 1 ∧
      divDecimalRoundHalfUp (-7) 2 = checkedI128 (roundHalfAway (-7 / 2)) := by
  refine ⟨(decimals_rounded _ 1).1.mpr ?_, ?_⟩
  · decide +kernel
  · have h := (decimals_rounded longNought 0).2 (-7) 2 (by decide) (by decide) (by decide)
    exact_mod_cast h

end Pintail
