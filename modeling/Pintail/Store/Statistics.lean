import Pintail.Store.ManifestFile

/-! # Statistics of a segment

A segment carries, for each of its columns, how many live rows hold a value and the least and the
greatest of them when all are read in one family of numbers. A list of bounds that the extremes of
some column miss is satisfied by no row of the segment.
-/

namespace Pintail

open Option Int64 List

/-- What the statistics read of texts, and the arithmetic of floats by their bits. -/
structure Measures where
  parseDecimal : String → UInt8 → Option Int
  parseExact : NativeUnits → String → Option Int64
  addFloat : UInt64 → UInt64 → UInt64
  minFloat : UInt64 → UInt64 → UInt64
  maxFloat : UInt64 → UInt64 → UInt64
  isFinite : UInt64 → Bool

inductive NumberFamily
  | int
  | uint
  | decimal
  | float
  | temporal
  deriving DecidableEq, Repr

structure Observed where
  family : NumberFamily
  integer : Int := 0
  float : UInt64 := 0

def decimalScale : DataType → Option UInt8
  | .decimal _ scale => some scale
  | _ => none

def temporalUnits : DataType → Option NativeUnits
  | .date32 => some .date
  | .dateTime64 fsp => some (.dateTime fsp)
  | _ => none

/-- A value as a number of the family its column has, if it is one. -/
def observe (measures : Measures) (dataType : DataType) (value : Value) : Option Observed :=
  match value, decimalScale dataType, temporalUnits dataType with
  | .utf8 text, some scale, _ =>
    (measures.parseDecimal text scale).map fun units => { family := .decimal, integer := units }
  | .utf8 text, none, some units =>
    (measures.parseExact units text).map fun value =>
      { family := .temporal, integer := value.toInt }
  | .int64 value, none, none => some { family := .int, integer := value.toInt }
  | .uint64 value, none, none => some { family := .uint, integer := value.toNat }
  | .float64 bits, none, none => some { family := .float, float := bits }
  | _, _, _ => none

structure Tally where
  nonNull : ℕ := 0
  intSum : Option Int := some 0
  intExtremes : Option (Int × Int) := none
  floatSum : Option UInt64 := some 0
  floatExtremes : Option (UInt64 × UInt64) := none
  family : Option NumberFamily := none
  supported : Bool := true

namespace Tally

variable (measures : Measures) (dataType : DataType)

/-- Addition of 128-bit integers, unless it overflows. -/
def checkedAdd (a b : Int) : Option Int :=
  if -2 ^ 127 ≤ a + b ∧ a + b < 2 ^ 127 then some (a + b) else none

def fold (tally : Tally) (observed : Observed) : Tally :=
  if observed.family = .float then
    { tally with
      floatSum := (tally.floatSum.map (measures.addFloat · observed.float)).filter measures.isFinite
      floatExtremes := some (tally.floatExtremes.elim (observed.float, observed.float) fun (lo, hi) =>
        (measures.minFloat lo observed.float, measures.maxFloat hi observed.float)) }
  else
    { tally with
      intSum := tally.intSum.bind (checkedAdd · observed.integer)
      intExtremes := some (tally.intExtremes.elim (observed.integer, observed.integer)
        fun (lo, hi) => (min lo observed.integer, max hi observed.integer)) }

/-- One number family a column: the first value outside it ends every statistic but the count. -/
def step (tally : Tally) (value : Value) : Tally :=
  if value = .null then tally
  else
    let counted := { tally with nonNull := tally.nonNull + 1 }
    if tally.supported then
      match observe measures dataType value with
      | none => { counted with supported := false }
      | some observed =>
        let family := tally.family.getD observed.family
        if family = observed.family then
          { counted with family := some family }.fold measures observed
        else { counted with family := some family, supported := false }
    else counted

def sum (tally : Tally) : Option SmaSum :=
  if tally.supported = false ∨ tally.nonNull = 0 then none
  else
    match tally.family with
    | some .int | some .uint => tally.intSum.map fun total => .int (BitVec.ofInt 128 total)
    | some .decimal => tally.intSum.map fun units =>
        .decimalUnits (BitVec.ofInt 128 units) ((decimalScale dataType).getD 0)
    | some .float => tally.floatSum.map .float
    | _ => none

def extremes (tally : Tally) : Option SmaExtremes :=
  if tally.supported = false ∨ tally.nonNull = 0 then none
  else
    match tally.family with
    | some .int => tally.intExtremes.map fun (lo, hi) => .int (ofInt lo) (ofInt hi)
    | some .uint => tally.intExtremes.map fun (lo, hi) =>
        .uint (UInt64.ofNat lo.toNat) (UInt64.ofNat hi.toNat)
    | some .decimal => tally.intExtremes.map fun (lo, hi) =>
        .decimalUnits (BitVec.ofInt 128 lo) (BitVec.ofInt 128 hi) ((decimalScale dataType).getD 0)
    | some .float => tally.floatExtremes.map fun (lo, hi) => .float lo hi
    | some .temporal => tally.intExtremes.bind fun (lo, hi) =>
        (temporalUnits dataType).map fun units =>
          .temporal (ofInt lo) (ofInt hi) units
    | none => none

end Tally

def liveValues (rows : List StoredRow) (index : ℕ) : List Value :=
  (rows.filter fun row => !row.deleted).map fun row => row.values.getD index .null

def columnSma (measures : Measures) (rows : List StoredRow)
    (sketches : UInt32 → Option DistinctSketch) (index : ℕ) (column : Column) : ColumnSma :=
  let tally := (liveValues rows index).foldl (Tally.step measures column.dataType) {}
  { columnId := column.id
    nonNull := UInt64.ofNat tally.nonNull
    sum := tally.sum column.dataType
    extremes := tally.extremes column.dataType
    distinct := sketches column.id }

def computeSegmentSmas (measures : Measures) (schema : TableSchema) (rows : List StoredRow)
    (sketches : UInt32 → Option DistinctSketch) : SegmentSmas :=
  let tombstones := rows.countP StoredRow.deleted
  { liveRows := UInt64.ofNat (rows.length - tombstones)
    tombstones := UInt64.ofNat tombstones
    columns := schema.columns.zipIdx.map fun (column, index) =>
      columnSma measures rows sketches index column }

inductive BoundDomain
  | int
  | uint
  | temporal (units : NativeUnits)

/-- Inclusive bounds of a column in the units of one family. -/
structure ColumnBounds where
  columnId : UInt32
  domain : BoundDomain
  lower : Option Int
  upper : Option Int

/-- The extremes as integers, where they are of the family of the bounds. -/
def BoundDomain.range : BoundDomain → SmaExtremes → Option (Int × Int)
  | .int, .int lo hi => some (lo.toInt, hi.toInt)
  | .uint, .uint lo hi => some (lo.toNat, hi.toNat)
  | .temporal units, .temporal lo hi kind =>
    if units = kind then some (lo.toInt, hi.toInt) else none
  | _, _ => none

/-- A value as an integer in the family of the bounds. -/
def BoundDomain.reading (measures : Measures) : BoundDomain → Value → Option Int
  | .int, .int64 value => some value.toInt
  | .uint, .uint64 value => some value.toNat
  | .temporal units, .utf8 text => (measures.parseExact units text).map toInt
  | _, _ => none

def ColumnBounds.misses (bound : ColumnBounds) (range : Int × Int) : Bool :=
  bound.lower.any (range.2 < ·) || bound.upper.any (range.1 > ·)

/-- Whether the statistics show that every row fails one of the bounds. -/
def smaDisjoint (smas : Option SegmentSmas) (bounds : List ColumnBounds) : Bool :=
  match smas with
  | none => false
  | some smas =>
    smas.tombstones == 0 && bounds.any fun bound =>
      match smas.columns.find? fun column => column.columnId == bound.columnId with
      | none => false
      | some column =>
        (column.nonNull == 0 && smas.liveRows > 0) ||
          ((column.extremes.bind bound.domain.range).any bound.misses)

variable {measures : Measures} {dataType : DataType}

/-- A value is read as a number in a family. -/
def Reads (measures : Measures) (dataType : DataType) (value : Value) (n : Int) :
    NumberFamily → Prop
  | .int => ∃ m : Int64, value = .int64 m ∧ n = m.toInt
  | .uint => ∃ m : UInt64, value = .uint64 m ∧ n = m.toNat
  | .temporal => ∃ text units, ∃ m : Int64, value = .utf8 text ∧
      temporalUnits dataType = some units ∧ measures.parseExact units text = some m ∧ n = m.toInt
  | .decimal | .float => True

theorem reads_of_observe {value : Value} {observed : Observed}
    (h : observe measures dataType value = some observed) :
    Reads measures dataType value observed.integer observed.family := by
  unfold observe at h
  split at h
  · obtain ⟨units, -, rfl⟩ := map_eq_some_iff.mp h
    trivial
  · rename_i text units _ hunits
    obtain ⟨n, hn, rfl⟩ := map_eq_some_iff.mp h
    exact ⟨text, units, n, rfl, hunits, hn, rfl⟩
  · cases h
    exact ⟨_, rfl, rfl⟩
  · cases h
    exact ⟨_, rfl, rfl⟩
  · cases h
    trivial
  · cases h

namespace Tally

/-- A value is read in the family of the tally and lies between its extremes. -/
structure Bounds (measures : Measures) (dataType : DataType) (tally : Tally) (value : Value)
    (observed : Observed) : Prop where
  observe_eq : observe measures dataType value = some observed
  family_eq : tally.family = some observed.family
  between : observed.family ≠ .float → ∃ lo hi, tally.intExtremes = some (lo, hi) ∧
    lo ≤ observed.integer ∧ observed.integer ≤ hi

/-- What a tally says of the values it was made from. -/
structure Holds (measures : Measures) (dataType : DataType) (values : List Value) (tally : Tally) :
    Prop where
  count : tally.nonNull = values.countP (· ≠ .null)
  bounds : tally.supported = true → ∀ value ∈ values, value ≠ .null →
    ∃ observed, Bounds measures dataType tally value observed
  attained : tally.supported = true → ∀ lo hi, tally.intExtremes = some (lo, hi) →
    ∀ n ∈ [lo, hi], ∃ value ∈ values, ∃ observed,
      observe measures dataType value = some observed ∧ observed.integer = n

theorem holds_nil : Holds measures dataType [] {} where
  count := rfl
  bounds := by simp
  attained := by simp

variable {values : List Value} {tally : Tally} {value : Value} {observed : Observed}

theorem Holds.of_unsupported (hcount : tally.nonNull = values.countP (· ≠ .null))
    (h : tally.supported = false) : Holds measures dataType values tally where
  count := hcount
  bounds := by simp [h]
  attained := by simp [h]

theorem Holds.fold (h : Holds measures dataType values tally) (hs : tally.supported = true)
    (hv : value ≠ .null) (ho : observe measures dataType value = some observed)
    (hfamily : tally.family.getD observed.family = observed.family) :
    Holds measures dataType (values ++ [value])
      ({ tally with nonNull := tally.nonNull + 1, family := some observed.family }.fold measures
        observed) := by
  have hbefore {v : Value} (hmem : v ∈ values) (hnull : v ≠ .null) : ∃ o,
      Bounds measures dataType { tally with family := some observed.family } v o := by
    obtain ⟨o, hbounds⟩ := h.bounds hs v hmem hnull
    rw [hbounds.family_eq, getD_some] at hfamily
    exact ⟨o, hbounds.observe_eq, by rw [hfamily], hbounds.between⟩
  have hattained {lo hi n : Int} (hextremes : tally.intExtremes = some (lo, hi))
      (hn : n ∈ [lo, hi]) : ∃ v ∈ values ++ [value], ∃ o,
        observe measures dataType v = some o ∧ o.integer = n := by
    obtain ⟨v, hmem, o, hov⟩ := h.attained hs lo hi hextremes n hn
    exact ⟨v, mem_append_left _ hmem, o, hov⟩
  unfold Tally.fold
  split_ifs with hf
  · refine ⟨by simp [h.count, hv], fun _ v hmem hnull => ?_, fun _ _ _ he _ => hattained he⟩
    rcases mem_append.mp hmem with hmem | hmem
    · obtain ⟨o, hbounds⟩ := hbefore hmem hnull
      exact ⟨o, hbounds.observe_eq, hbounds.family_eq, hbounds.between⟩
    · obtain rfl := mem_singleton.mp hmem
      exact ⟨observed, ho, rfl, fun hne => absurd hf hne⟩
  · refine ⟨by simp [h.count, hv], fun _ v hmem hnull => ?_, fun _ lo hi hextremes n hn => ?_⟩
    · rcases mem_append.mp hmem with hmem | hmem
      · obtain ⟨o, hbounds⟩ := hbefore hmem hnull
        refine ⟨o, hbounds.observe_eq, hbounds.family_eq, fun hne => ?_⟩
        obtain ⟨lo, hi, hextremes, hlo, hhi⟩ := hbounds.between hne
        exact ⟨min lo observed.integer, max hi observed.integer, by simp_all,
          (min_le_left _ _).trans hlo, hhi.trans (le_max_left _ _)⟩
      · obtain rfl := mem_singleton.mp hmem
        refine ⟨observed, ho, rfl, fun _ => ?_⟩
        cases hextremes : tally.intExtremes with
        | none => exact ⟨observed.integer, observed.integer, by simp, le_rfl, le_rfl⟩
        | some extremes =>
          exact ⟨min extremes.1 observed.integer, max extremes.2 observed.integer, by simp,
            min_le_right _ _, le_max_right _ _⟩
    · have hcases : n = observed.integer ∨
          ∃ lo hi, tally.intExtremes = some (lo, hi) ∧ n ∈ [lo, hi] := by
        cases hold : tally.intExtremes with
        | none =>
          obtain ⟨rfl, rfl⟩ : observed.integer = lo ∧ observed.integer = hi := by
            simpa [hold] using hextremes
          exact .inl (by simpa using hn)
        | some extremes =>
          refine or_iff_not_imp_left.mpr fun hne => ⟨_, _, rfl, ?_⟩
          rcases mem_pair.mp hn with rfl | rfl
          · rcases min_choice extremes.1 observed.integer with hm | hm <;> simp_all
          · rcases max_choice extremes.2 observed.integer with hm | hm <;> simp_all
      obtain rfl | ⟨_, _, hold, hn⟩ := hcases
      · exact ⟨value, by simp, observed, ho, rfl⟩
      · exact hattained hold hn

theorem Holds.step (h : Holds measures dataType values tally) (value : Value) :
    Holds measures dataType (values ++ [value]) (tally.step measures dataType value) := by
  by_cases hv : value = .null
  · subst hv
    rw [Tally.step]
    refine ⟨by simp [h.count], fun hs v hmem hnull => ?_, fun hs lo hi hextremes n hn => ?_⟩
    · exact h.bounds hs v (by simpa [hnull] using hmem) hnull
    · obtain ⟨v, hmem, o, hov⟩ := h.attained hs lo hi hextremes n hn
      exact ⟨v, mem_append_left _ hmem, o, hov⟩
  · have hcount : tally.nonNull + 1 = (values ++ [value]).countP (· ≠ .null) := by
      simp [h.count, hv]
    rw [Tally.step]
    dsimp only
    split_ifs with hs
    · split
      · exact .of_unsupported hcount rfl
      · rename_i observed ho
        split_ifs with hfamily
        · rw [hfamily]
          exact h.fold hs hv ho hfamily
        · exact .of_unsupported hcount rfl
    · exact .of_unsupported hcount (by simpa using hs)

theorem holds_foldl (values : List Value) :
    Holds measures dataType values (values.foldl (Tally.step measures dataType) {}) := by
  induction values using reverseRecOn with
  | nil => exact holds_nil
  | append_singleton values value ih =>
    rw [foldl_append]
    exact ih.step value

section Family

variable {lo hi : Int} {family : NumberFamily}

theorem Holds.exists_attained (h : Holds measures dataType values tally)
    (hs : tally.supported = true) (hfamily : tally.family = some family)
    (he : tally.intExtremes = some (lo, hi)) {n : Int} (hn : n ∈ [lo, hi]) :
    ∃ value, Reads measures dataType value n family := by
  obtain ⟨value, hmem, observed, ho, rfl⟩ := h.attained hs lo hi he n hn
  have hnull : value ≠ .null := by
    rintro rfl
    cases dataType <;> cases ho
  obtain ⟨observed', hbounds⟩ := h.bounds hs value hmem hnull
  obtain rfl : observed = observed' := some.inj (ho.symm.trans hbounds.observe_eq)
  obtain rfl := some.inj (hbounds.family_eq.symm.trans hfamily)
  exact ⟨value, reads_of_observe ho⟩

/-- A value lies between the extremes, also after a conversion that keeps the numbers read. -/
theorem Holds.between (h : Holds measures dataType values tally) (hs : tally.supported = true)
    (hfamily : tally.family = some family) (hf : family ≠ .float)
    (he : tally.intExtremes = some (lo, hi)) (hmem : value ∈ values) (hnull : value ≠ .null)
    (convert : Int → Int) (hconvert : ∀ v n, Reads measures dataType v n family → convert n = n) :
    ∃ n, Reads measures dataType value n family ∧ convert lo ≤ n ∧ n ≤ convert hi := by
  obtain ⟨observed, hbounds⟩ := h.bounds hs value hmem hnull
  obtain rfl : family = observed.family := some.inj (hfamily.symm.trans hbounds.family_eq)
  obtain ⟨lo', hi', he', hlo, hhi⟩ := hbounds.between hf
  obtain ⟨rfl, rfl⟩ := Prod.mk.inj (some.inj (he.symm.trans he'))
  have hextreme {n : Int} (hn : n ∈ [lo, hi]) : convert n = n := by
    obtain ⟨v, hreads⟩ := h.exists_attained hs hfamily he hn
    exact hconvert v n hreads
  refine ⟨observed.integer, reads_of_observe hbounds.observe_eq, ?_, ?_⟩
  · rwa [hextreme (by simp)]
  · rwa [hextreme (by simp)]

end Family

theorem Holds.range (h : Holds measures dataType values tally) {domain : BoundDomain}
    {extremes : SmaExtremes} {range : Int × Int} (he : tally.extremes dataType = some extremes)
    (hr : domain.range extremes = some range) (hmem : value ∈ values) (hnull : value ≠ .null) :
    ∃ n, domain.reading measures value = some n ∧ range.1 ≤ n ∧ n ≤ range.2 := by
  unfold Tally.extremes at he
  split_ifs at he with hkept
  have hs : tally.supported = true := by
    by_contra hnot
    exact hkept (.inl (by simpa using hnot))
  split at he
  · rename_i hfamily
    obtain ⟨⟨lo, hi⟩, hint, rfl⟩ := map_eq_some_iff.mp he
    cases domain <;> cases hr
    obtain ⟨_, ⟨m, rfl, rfl⟩, hlo, hhi⟩ := h.between hs hfamily (by decide) hint hmem hnull
      (fun n => (ofInt n).toInt) (by rintro _ _ ⟨m, -, rfl⟩; rw [ofInt_toInt])
    exact ⟨_, rfl, hlo, hhi⟩
  · rename_i hfamily
    obtain ⟨⟨lo, hi⟩, hint, rfl⟩ := map_eq_some_iff.mp he
    cases domain <;> cases hr
    obtain ⟨_, ⟨m, rfl, rfl⟩, hlo, hhi⟩ := h.between hs hfamily (by decide) hint hmem hnull
      (fun n => (UInt64.ofNat n.toNat).toNat) (by rintro _ _ ⟨m, -, rfl⟩; simp)
    exact ⟨_, rfl, hlo, hhi⟩
  · obtain ⟨extremes, -, rfl⟩ := map_eq_some_iff.mp he
    cases domain <;> cases hr
  · obtain ⟨extremes, -, rfl⟩ := map_eq_some_iff.mp he
    cases domain <;> cases hr
  · rename_i hfamily
    obtain ⟨⟨lo, hi⟩, hint, he⟩ := bind_eq_some_iff.mp he
    obtain ⟨units, hunits, rfl⟩ := map_eq_some_iff.mp he
    cases domain with
    | temporal kind =>
      simp only [BoundDomain.range] at hr
      split_ifs at hr with hkind
      cases hr
      obtain ⟨_, ⟨text, units', m, rfl, hu, hp, rfl⟩, hlo, hhi⟩ :=
        h.between hs hfamily (by decide) hint hmem hnull (fun n => (ofInt n).toInt)
          (by rintro _ _ ⟨_, _, m, -, -, -, rfl⟩; rw [ofInt_toInt])
      obtain rfl : units = units' := some.inj (hunits.symm.trans hu)
      rw [BoundDomain.reading, hkind, hp]
      exact ⟨_, rfl, hlo, hhi⟩
    | _ => cases hr
  · cases he

end Tally

end Pintail
