import Pintail.Cdc.KeyValues

/-! # The keys of source rows

Whether two rows that differ in the source can be told apart by the keys they are stored under: the
cells of an image are placed in the columns of the schema, on both ways through the decoder, and the
values of the key columns make the key.
-/

namespace Pintail.Cdc

open Bytes Probe List Except Option RowPlan IntegerType Prod

/-- A row image: the bitmap of its nulls, and for every column it carries the ordinal in the table
map and the bytes of the value, none for null. -/
structure RowImage where
  nulls : List UInt8
  cells : List (ℕ × Option (List UInt8))

namespace RowImage

def present (image : RowImage) : List ℕ := image.cells.map fst

def cellBytes (cells : List (ℕ × Option (List UInt8))) : List UInt8 :=
  cells.flatMap fun cell => cell.2.getD []

def bytes (image : RowImage) : List UInt8 := image.nulls ++ cellBytes image.cells

end RowImage

def Placement.index? : Placement → Option ℕ
  | .column index => some index
  | .dropped | .beyond => none

theorem Placement.index?_eq_some {placement : Placement} {index : ℕ} :
    placement.index? = some index ↔ placement = .column index := by
  cases placement <;> simp [index?]

namespace RowPlan

variable (lib : Libraries) (plan : RowPlan)

def placedIndex (cell : ℕ × Option (List UInt8)) : Option ℕ :=
  plan.columns[cell.1]?.bind fun column => column.placement.index?

def HoldsAt (cell : ℕ × Option (List UInt8)) (index : ℕ) (value : SourceValue) : Prop :=
  ∃ bytes column source, cell.2 = some bytes ∧ plan.columns[cell.1]? = some column ∧
    column.placement = .column index ∧ plan.source.columns[index]? = some source ∧
    Writes source column value bytes

/-- The image is one of the table, with these values in its key columns: it carries columns of the
table map, the bitmap marks its nulls, every value is one the plan can step over, and no schema
column has two of them. -/
structure Holds (image : RowImage) (values : List SourceValue) : Prop where
  in_map : ∀ cell ∈ image.cells, cell.1 < plan.columns.length
  nulls_length : image.nulls.length = (image.cells.length + 7) / 8
  nulls_eq : ∀ position cell, image.cells[position]? = some cell →
    isNull image.nulls position = cell.2.isNone
  stepped : ∀ cell ∈ image.cells, ∀ bytes column, cell.2 = some bytes →
    plan.columns[cell.1]? = some column → ∀ target, ∃ decoded,
      Reads (column.read lib plan.source.name target) bytes decoded
  once : (image.cells.filterMap plan.placedIndex).Nodup
  keys : List.Forall₂ (fun index value => ∃ cell ∈ image.cells, plan.HoldsAt cell index value)
    plan.key values

end RowPlan

section Setting

variable {γ : Type} {S : γ → Option (ℕ × Value) → Prop} {cells : List γ} {values final : List Value}

/-- The cells of an image one after the other: each sets a value of the row, or none. -/
inductive Sets (S : γ → Option (ℕ × Value) → Prop) : List γ → List Value → List Value → Prop
  | nil (values : List Value) : Sets S [] values values
  | keep {cell : γ} {cells : List γ} {values final : List Value} : S cell none →
      Sets S cells values final → Sets S (cell :: cells) values final
  | set {cell : γ} {cells : List γ} {values final : List Value} {index : ℕ} {value : Value} :
      S cell (some (index, value)) → Sets S cells (values.set index value) final →
      Sets S (cell :: cells) values final

variable {place : γ → Option ℕ} {index : ℕ}
  (hplace : ∀ cell index value, S cell (some (index, value)) → place cell = some index)

include hplace

theorem Sets.getElem?_of_not_placed (h : Sets S cells values final)
    (hnot : ∀ cell ∈ cells, place cell ≠ some index) : final[index]? = values[index]? := by
  induction h with
  | nil => rfl
  | keep _ _ ih => exact ih fun cell hc => hnot cell (mem_cons_of_mem _ hc)
  | @set cell _ _ _ other value hs _ ih =>
    have hne : other ≠ index := by
      rintro rfl
      exact hnot cell mem_cons_self (hplace _ _ _ hs)
    rw [ih fun cell hc => hnot cell (mem_cons_of_mem _ hc), getElem?_set_ne hne]

/-- The value of the one cell placed at an index stays. -/
theorem Sets.getElem?_of_mem (h : Sets S cells values final) (hn : (cells.filterMap place).Nodup)
    {cell : γ} (hmem : cell ∈ cells) (hp : place cell = some index) (hset : ¬ S cell none)
    (hlen : index < values.length) : ∃ value, S cell (some (index, value)) ∧
      final[index]? = some value := by
  have htail {first : γ} {cells : List γ} (hn : ((first :: cells).filterMap place).Nodup) :
      (cells.filterMap place).Nodup := hn.sublist ((sublist_cons_self _ _).filterMap _)
  induction h with
  | nil => cases hmem
  | keep hk _ ih =>
    rcases mem_cons.mp hmem with rfl | hmem
    · exact absurd hk hset
    · exact ih (htail hn) hmem hlen
  | @set first cells values final other value hs hrest ih =>
    rcases mem_cons.mp hmem with rfl | hmem
    · obtain rfl : other = index := some.inj ((hplace _ _ _ hs).symm.trans hp)
      refine ⟨value, hs, ?_⟩
      rw [filterMap_cons_some hp, nodup_cons] at hn
      rw [hrest.getElem?_of_not_placed hplace fun cell hc hc' =>
        hn.1 (mem_filterMap.mpr ⟨cell, hc, hc'⟩), getElem?_set_self hlen]
    · exact ih (htail hn) hmem (by rwa [length_set])

end Setting

section Images

variable {lib : Libraries} {plan : RowPlan} {onlyKey : Bool} {nulls : List UInt8}

variable {cell : ℕ × Option (List UInt8)} {refused : Option CdcError} {data rest : List UInt8}
  {position : ℕ} {cells : List (ℕ × Option (List UInt8))} {values final : List Value} {index : ℕ}

/-- The cells of an image from a position on, as the plan steps over them. -/
structure Stepped (lib : Libraries) (plan : RowPlan) (nulls : List UInt8) (position : ℕ)
    (cells : List (ℕ × Option (List UInt8))) : Prop where
  nulls_eq : ∀ offset cell, cells[offset]? = some cell →
    isNull nulls (position + offset) = cell.2.isNone
  stepped : ∀ cell ∈ cells, ∀ bytes column, cell.2 = some bytes →
    plan.columns[cell.1]? = some column → ∀ target, ∃ decoded,
      Reads (column.read lib plan.source.name target) bytes decoded

theorem Stepped.tail (h : Stepped lib plan nulls position (cell :: cells)) :
    Stepped lib plan nulls (position + 1) cells where
  nulls_eq offset other ho := by
    have hn := h.nulls_eq (offset + 1) other ho
    rwa [← Nat.add_assoc, Nat.add_right_comm] at hn
  stepped other ho := h.stepped other (mem_cons_of_mem _ ho)

def RowPlan.SetsCell (lib : Libraries) (plan : RowPlan) (onlyKey : Bool)
    (cell : ℕ × Option (List UInt8)) : Option (ℕ × Value) → Prop
  | none => cell.2 = none ∨ ∃ column, plan.columns[cell.1]? = some column ∧
      plan.target onlyKey column.placement = none
  | some (index, value) => ∃ bytes column, cell.2 = some bytes ∧
      plan.columns[cell.1]? = some column ∧ plan.target onlyKey column.placement = some index ∧
      Reads (column.read lib plan.source.name plan.source.columns[index]?) bytes (.ok value)

/-- A row that is not refused was refused at no cell. -/
theorem sets_of_readCells (hs : Stepped lib plan nulls position cells)
    (h : (plan.readCells lib onlyKey nulls position (cells.map fst) values refused).run
      (RowImage.cellBytes cells ++ data) = .ok ((final, none), rest)) :
    refused = none ∧ Sets (plan.SetsCell lib onlyKey) cells values final := by
  induction cells generalizing position values refused with
  | nil =>
    cases h
    exact ⟨rfl, .nil _⟩
  | cons cell cells ih =>
    rw [RowImage.cellBytes, flatMap_cons, append_assoc, map_cons, readCells] at h
    cases hc : plan.columns[cell.1]? with
    | none =>
      rw [hc] at h
      cases h
    | some column =>
      rw [hc] at h
      have hkeep : (if column.placement = .beyond then
          refuse refused (plan.beyondError cell.1) else refused) = none →
          refused = none := by
        split_ifs
        · nofun
        · exact id
      have hnull := hs.nulls_eq 0 cell rfl
      rw [Nat.add_zero] at hnull
      cases hcell : cell.2 with
      | none =>
        rw [hnull, hcell] at h
        obtain ⟨hr, hsets⟩ := ih hs.tail h
        exact ⟨hkeep hr, .keep (.inl hcell) hsets⟩
      | some bytes =>
        obtain ⟨decoded, hd⟩ := hs.stepped cell mem_cons_self bytes column hcell hc
          ((plan.target onlyKey column.placement).bind (plan.source.columns[·]?))
        simp only [hnull, hcell, isNone_some, Bool.false_eq_true, if_false, getD_some] at h
        rw [hd.run_bind] at h
        cases decoded with
        | error error => exact absurd (ih hs.tail h).1 nofun
        | ok value =>
          cases ht : plan.target onlyKey column.placement with
          | none =>
            rw [ht] at h
            obtain ⟨hr, hsets⟩ := ih hs.tail h
            exact ⟨hkeep hr, .keep (.inr ⟨column, hc, ht⟩) hsets⟩
          | some index =>
            rw [ht] at h hd
            obtain ⟨hr, hsets⟩ := ih hs.tail h
            exact ⟨hkeep hr, .set ⟨bytes, column, hcell, hc, ht, hd⟩ hsets⟩

theorem placement_of_target {placement : Placement}
    (h : plan.target onlyKey placement = some index) : placement = .column index := by
  cases placement with
  | column other =>
    rw [target] at h
    split_ifs at h
    rw [some.inj h]
  | dropped => cases h
  | beyond => cases h

theorem placedIndex_eq {column : PlanColumn} (hc : plan.columns[cell.1]? = some column)
    (hp : column.placement = .column index) : plan.placedIndex cell = some index := by
  rw [placedIndex, hc, bind_some, hp, Placement.index?]

theorem placedIndex_of_setsCell (cell : ℕ × Option (List UInt8)) (index : ℕ) (value : Value) :
    plan.SetsCell lib onlyKey cell (some (index, value)) → plan.placedIndex cell = some index := by
  rintro ⟨bytes, column, -, hcol, ht, -⟩
  exact placedIndex_eq hcol (placement_of_target ht)

end Images

section Rows

variable {lib : Libraries} {table : SourceTable} {alignment : RowAlignment}

theorem alignedIndex_eq_iff {ordinal index : ℕ} {place : Option ℕ}
    (h : alignedIndex table alignment ordinal = .ok place) :
    place = some index ↔ placementOf table alignment ordinal = .column index := by
  cases alignment with
  | positional =>
    rw [alignedIndex] at h
    split_ifs at h with hle
    rw [← ok.inj h, placementOf, if_pos (by omega)]
    simp
  | byName imageToSchema =>
    rw [← ok.inj h, placementOf]
    cases imageToSchema.getD ordinal none <;> simp

variable {cells : List (Except String MysqlValue × ℕ)} {values final : List Value}

def SetsValue (lib : Libraries) (table : SourceTable) (alignment : RowAlignment)
    (cell : Except String MysqlValue × ℕ) : Option (ℕ × Value) → Prop
  | none => ∀ index, placementOf table alignment cell.2 = .column index →
      table.columns[index]? = none
  | some (index, value) => ∃ column, placementOf table alignment cell.2 = .column index ∧
      table.columns[index]? = some column ∧
      decodeValue lib table.name column cell.1 = .ok value

theorem sets_of_decodeCells (h : cells.foldlM (decodeCell lib table alignment) values = .ok final) :
    Sets (SetsValue lib table alignment) cells values final := by
  induction cells generalizing values with
  | nil =>
    rw [pure_eq_ok.mp h]
    exact .nil _
  | cons cell cells ih =>
    obtain ⟨out, hcell, h⟩ := bind_eq_ok.mp h
    obtain ⟨place, hplace, hcell⟩ := bind_eq_ok.mp hcell
    cases hc : place.bind fun index => table.columns[index]?.map (index, ·) with
    | none =>
      rw [hc] at hcell
      cases hcell
      refine .keep (fun index hi => ?_) (ih h)
      rw [(alignedIndex_eq_iff hplace).mpr hi, bind_some, map_eq_none_iff] at hc
      exact hc
    | some pair =>
      rw [hc] at hcell
      obtain ⟨stored, hs, hcell⟩ := bind_eq_ok.mp hcell
      cases hcell
      obtain ⟨other, hother, hc⟩ := bind_eq_some_iff.mp hc
      obtain ⟨source, hsource, rfl⟩ := map_eq_some_iff.mp hc
      exact .set ⟨source, (alignedIndex_eq_iff hplace).mp hother, hsource, hs⟩ (ih h)

end Rows

def keyOfValue (column : SourceColumn) : SourceValue → KeyPart
  | .integer value =>
    if column.pintailType = .boolean then .uint64 (if value = 0 then 0 else 1)
    else if declaredUnsigned column then .uint64 (UInt64.ofNat value.toNat)
    else .int64 (Int64.ofInt value)
  | .text value => .utf8 value
  | .binary value => .binary value

theorem keyPart_storedValue (lib : Libraries) (column : SourceColumn) (value : SourceValue) :
    keyPart lib (storedValue column value) = some (keyOfValue column value) := by
  cases value with
  | integer value =>
    simp only [storedValue, keyOfValue]
    split_ifs with hb hz hu <;> simp [keyPart, *]
  | text value => rfl
  | binary value => rfl

variable {source : SourceColumn} {column : PlanColumn} {bytes : List UInt8}

theorem Writes.integer_of_boolean {v : SourceValue} (h : Writes source column v bytes)
    (hp : Probed source) (hb : source.pintailType = .boolean) : ∃ number, v = .integer number := by
  cases h with
  | integer type v => exact ⟨v, rfl⟩
  | text value body hn hi => simp [(pintailType_of_name hi hp).1 hn] at hb
  | binary value body hn hi => simp [(pintailType_of_name hi hp).2 hn] at hb

/-- Two values of one column have different parts, unless they are numbers other than zero of a
column that is read as boolean. -/
theorem keyOfValue_eq_iff (hp : Probed source) {column' : PlanColumn} {v v' : SourceValue}
    {bytes' : List UInt8} (h : Writes source column v bytes)
    (h' : Writes source column' v' bytes') :
    keyOfValue source v = keyOfValue source v' ↔
      v = v' ∨ source.pintailType = .boolean ∧ v ≠ .integer 0 ∧ v' ≠ .integer 0 := by
  by_cases hb : source.pintailType = .boolean
  · obtain ⟨n, rfl⟩ := h.integer_of_boolean hp hb
    obtain ⟨n', rfl⟩ := h'.integer_of_boolean hp hb
    by_cases hz : n = 0 <;> by_cases hz' : n' = 0 <;> simp [keyOfValue, hb, hz, hz', eq_comm]
  · simp only [hb, false_and, or_false]
    refine ⟨fun heq => ?_, congrArg _⟩
    cases h with
    | integer type v ht hk hu hr =>
      cases h' with
      | integer type' v' ht' hk' hu' hr' =>
        simp only [keyOfValue, hb, if_false] at heq
        cases hun : declaredUnsigned source with
        | true =>
          rw [hun] at hr hr'
          have hpos := hr.nonneg
          have hpos' := hr'.nonneg
          rw [hun, if_pos rfl, if_pos rfl, KeyPart.uint64.injEq, ← UInt64.toNat_inj,
            toNat_ofNat hr, toNat_ofNat hr'] at heq
          rw [SourceValue.integer.injEq]
          omega
        | false =>
          rw [hun] at hr hr'
          rw [hun, if_neg Bool.false_ne_true, if_neg Bool.false_ne_true, KeyPart.int64.injEq,
            ← Int64.toInt_inj, toInt_ofInt hr, toInt_ofInt hr'] at heq
          rw [heq]
      | _ => simp only [keyOfValue] at heq; split_ifs at heq
    | _ =>
      cases h' with
      | integer => simp only [keyOfValue] at heq; split_ifs at heq
      | _ => cases heq <;> rfl

section Told

/-- At some key column the values differ, and not as two numbers other than zero where the column is
read as boolean. -/
def Told (columns : List SourceColumn) (source source' : List SourceValue) : Prop :=
  ∃ (i : ℕ) (column : SourceColumn) (v v' : SourceValue), columns[i]? = some column ∧
    source[i]? = some v ∧ source'[i]? = some v' ∧ v ≠ v' ∧
    ¬ (column.pintailType = .boolean ∧ v ≠ .integer 0 ∧ v' ≠ .integer 0)

variable {source source' : List SourceValue} {columns : List SourceColumn}

theorem told_cons {column : SourceColumn} {v v' : SourceValue} :
    Told (column :: columns) (v :: source) (v' :: source') ↔
      (v ≠ v' ∧ ¬ (column.pintailType = .boolean ∧ v ≠ .integer 0 ∧ v' ≠ .integer 0)) ∨
        Told columns source source' := by
  constructor
  · rintro ⟨i, column', w, w', hc, hw, hw', hne, hnb⟩
    cases i with
    | zero =>
      cases hc
      cases hw
      cases hw'
      exact .inl ⟨hne, hnb⟩
    | succ i => exact .inr ⟨i, column', w, w', hc, hw, hw', hne, hnb⟩
  · rintro (⟨hne, hnb⟩ | ⟨i, column', w, w', hc, hw, hw', hne, hnb⟩)
    · exact ⟨0, column, v, v', rfl, rfl, rfl, hne, hnb⟩
    · exact ⟨i + 1, column', w, w', hc, hw, hw', hne, hnb⟩

def Written (column : SourceColumn) (value : SourceValue) : Prop :=
  ∃ planColumn bytes, Writes column planColumn value bytes

theorem parts_ne_iff_told (hp : ∀ column ∈ columns, Probed column)
    (h : List.Forall₂ Written columns source) (h' : List.Forall₂ Written columns source') :
    zipWith keyOfValue columns source ≠ zipWith keyOfValue columns source' ↔
      Told columns source source' := by
  induction h generalizing source' with
  | nil =>
    simp [Told]
  | @cons column v columns source hw _ ih =>
    cases h' with
    | @cons _ v' _ source' hw' h' =>
      obtain ⟨planColumn, bytes, hw⟩ := hw
      obtain ⟨planColumn', bytes', hw'⟩ := hw'
      have hhead := keyOfValue_eq_iff (hp column mem_cons_self) hw hw'
      have htail := ih (fun other ho => hp other (mem_cons_of_mem _ ho)) h'
      rw [told_cons, zipWith_cons_cons, zipWith_cons_cons, ne_eq, cons.injEq]
      tauto

end Told

section Keys

variable {lib : Libraries} {table : SourceTable} {alignment : RowAlignment} {plan : RowPlan}
  {described : List (ColumnType × List UInt8 × Bool)} {image : RowImage} {source : List SourceValue}

/-- A plan places the columns by the alignment, and reads each by its declaration. -/
structure RowPlan.For (lib : Libraries) (table : SourceTable) (alignment : RowAlignment)
    (plan : RowPlan) : Prop where
  source_eq : plan.source = table
  key_eq : keyIndexes table = some plan.key
  placement_eq : ∀ (ordinal : ℕ) (column : PlanColumn), plan.columns[ordinal]? = some column →
    column.placement = placementOf table alignment ordinal
  reader_eq : ∀ (ordinal : ℕ) (column : PlanColumn) (index : ℕ) (source : SourceColumn),
    plan.columns[ordinal]? = some column → column.placement = .column index →
    table.columns[index]? = some source →
    column.reader = Reader.resolve source lib column.kind column.metadata column.unsigned

theorem for_of_forColumns (h : forColumns lib table described alignment = some plan) :
    plan.For lib table alignment := by
  obtain ⟨columns, hc, h⟩ := bind_eq_some_iff.mp h
  obtain ⟨key, hk, h⟩ := bind_eq_some_iff.mp h
  cases h
  have hcolumns := mapM_eq_some.mp hc
  have hplanned (ordinal : ℕ) (column : PlanColumn) (hcol : columns[ordinal]? = some column) :
      column.placement = placementOf table alignment ordinal ∧
        ∀ index source, column.placement = .column index → table.columns[index]? = some source →
          column.reader = Reader.resolve source lib column.kind column.metadata column.unsigned := by
    obtain ⟨⟨⟨kind, metadata, unsigned⟩, position⟩, hd, hp⟩ :=
      hcolumns.exists_getElem?_left hcol
    obtain rfl : position = ordinal := by
      rw [getElem?_zipIdx, map_eq_some_iff] at hd
      obtain ⟨_, -, hd⟩ := hd
      simpa using (Prod.mk.inj hd).2.symm
    obtain ⟨reader, hr, hp⟩ := bind_eq_some_iff.mp hp
    cases hp
    refine ⟨rfl, fun index source hi hs => ?_⟩
    dsimp only at hi
    rw [hi, readerAt, hs] at hr
    exact (some.inj hr).symm
  exact ⟨rfl, hk, fun ordinal column hcol => (hplanned ordinal column hcol).1,
    fun ordinal column index source hcol => (hplanned ordinal column hcol).2 index source⟩

def DecodedAs (lib : Libraries) (plan : RowPlan) (cell : ℕ × Option (List UInt8))
    (value : Except String MysqlValue) : Prop :=
  match cell.2 with
  | none => value = .ok .null
  | some bytes => ∃ column rest, plan.columns[cell.1]? = some column ∧
      lib.deserialize column.kind column.metadata column.unsigned (bytes ++ rest) =
        .ok (value, rest)

/-- The key is computed from the image: through the plan, or from the values the client library
decodes, for an insert or another change. -/
inductive Keyed (lib : Libraries) (table : SourceTable) (alignment : RowAlignment)
    (plan : RowPlan) (image : RowImage) : PrimaryKey → Prop
  | planned {onlyKey : Bool} {data rest : List UInt8} {values : List Value} {key : PrimaryKey} :
      (plan.readImage lib image.present onlyKey).run (image.bytes ++ data) =
        .ok (.ok values, rest) →
      plan.keyOf lib values = .ok key → Keyed lib table alignment plan image key
  | decoded {row : List (Except String MysqlValue)} {values : List Value} {key : PrimaryKey} :
      List.Forall₂ (DecodedAs lib plan) image.cells row →
      decodeRow lib table row alignment image.present = .ok values →
      physicalKey lib table values = .ok key → Keyed lib table alignment plan image key
  | inserted {row : List (Except String MysqlValue)} {values : List Value} {key : PrimaryKey}
      {version : UInt64} :
      List.Forall₂ (DecodedAs lib plan) image.cells row →
      decodeRow lib table row alignment image.present = .ok values →
      insertKey lib table values version = .ok key → Keyed lib table alignment plan image key

def Stores (table : SourceTable) (values : List Value) (index : ℕ) (v : SourceValue) : Prop :=
  ∃ column, table.columns[index]? = some column ∧ Written column v ∧
    values[index]? = some (storedValue column v)

theorem RowPlan.Holds.toStepped (h : plan.Holds lib image source) :
    Stepped lib plan image.nulls 0 image.cells where
  nulls_eq offset cell hc := by
    rw [Nat.zero_add]
    exact h.nulls_eq offset cell hc
  stepped := h.stepped

variable {values : List Value}

theorem stores_of_readImage (hl : lib.Faithful) (hf : plan.For lib table alignment)
    (hp : ∀ column ∈ table.columns, Probed column) (h : plan.Holds lib image source)
    {onlyKey : Bool} {data rest : List UInt8}
    (hr : (plan.readImage lib image.present onlyKey).run (image.bytes ++ data) =
      .ok (.ok values, rest)) : List.Forall₂ (Stores table values) plan.key source := by
  have hlen : (image.present.length + 7) / 8 = image.nulls.length := by
    rw [h.nulls_length, RowImage.present, length_map]
  rw [readImage, hlen, RowImage.bytes, append_assoc,
    (reads_take image.nulls plan.source.name).run_bind] at hr
  obtain ⟨⟨⟨final, refused⟩, left⟩, hcells, hr⟩ := bind_eq_ok.mp hr
  cases refused with
  | some error => cases (Prod.mk.inj (ok.inj hr)).1
  | none =>
    obtain rfl := ok.inj (Prod.mk.inj (ok.inj hr)).1
    refine ((forall₂_and_left _ _).mpr ⟨fun _ hi => hi, h.keys⟩).imp ?_
    rintro index v ⟨hkey, cell, hmem, bytes, column, src, hb, hcol, hplace, hsrc, hw⟩
    have htable : table.columns[index]? = some src := by rw [← hf.source_eq]; exact hsrc
    have hprobed := hp src (mem_of_getElem? htable)
    obtain ⟨decoded, hread, hstored⟩ := hw.read hl hprobed
      (hf.reader_eq cell.1 column index src hcol hplace htable)
    have hsize : index < (replicate plan.source.columns.length Value.null).length := by
      rw [length_replicate]
      exact (List.getElem?_eq_some_iff.mp hsrc).1
    have hset : ¬ plan.SetsCell lib onlyKey cell none := by
      rintro (hnone | ⟨column', hcol', ht⟩)
      · simp [hb] at hnone
      · obtain rfl : column = column' := some.inj (hcol.symm.trans hcol')
        simp [hplace, target, hkey] at ht
    obtain ⟨value, ⟨bytes', column', hb', hcol', -, hread'⟩, hfinal⟩ :=
      (sets_of_readCells h.toStepped hcells).2.getElem?_of_mem placedIndex_of_setsCell h.once hmem
        (placedIndex_eq hcol hplace) hset hsize
    obtain rfl : bytes = bytes' := some.inj (hb.symm.trans hb')
    obtain rfl : column = column' := some.inj (hcol.symm.trans hcol')
    rw [hsrc] at hread'
    refine ⟨src, htable, ⟨column, bytes, hw⟩, ?_⟩
    rw [hfinal, hstored value (Reads.eq hread hread')]

variable {row : List (Except String MysqlValue)} {name : String} {index : ℕ}

theorem exists_mem_zip {R : ℕ × Option (List UInt8) → Except String MysqlValue → Prop}
    {cells : List (ℕ × Option (List UInt8))} (h : List.Forall₂ R cells row)
    {cell : ℕ × Option (List UInt8)} (hmem : cell ∈ cells) :
    ∃ value, R cell value ∧ (value, cell.1) ∈ row.zip (cells.map fst) := by
  induction h with
  | nil => cases hmem
  | cons hr _ ih =>
    rcases mem_cons.mp hmem with rfl | hmem
    · exact ⟨_, hr, mem_cons_self⟩
    · obtain ⟨value, hv, hz⟩ := ih hmem
      exact ⟨value, hv, mem_cons_of_mem _ hz⟩

theorem nodup_placed (hf : plan.For lib table alignment) (h : plan.Holds lib image source)
    (hlen : row.length = image.present.length) :
    ((row.zip image.present).filterMap fun cell =>
      (placementOf table alignment cell.2).index?).Nodup := by
  have hzip : ((row.zip image.present).filterMap fun cell =>
      (placementOf table alignment cell.2).index?) =
        image.present.filterMap fun ordinal =>
          (placementOf table alignment ordinal).index? := by
    conv_rhs => rw [← map_snd_zip hlen.ge, filterMap_map]
    rfl
  have hplaced : image.cells.filterMap plan.placedIndex =
      image.present.filterMap fun ordinal =>
        (placementOf table alignment ordinal).index? := by
    rw [RowImage.present, filterMap_map]
    apply filterMap_congr
    intro cell hc
    have hcol := getElem?_eq_getElem (h.in_map cell hc)
    rw [placedIndex, hcol, bind_some, hf.placement_eq cell.1 _ hcol]
    rfl
  rw [hzip, ← hplaced]
  exact h.once

theorem stores_of_decodeRow (hl : lib.Faithful) (hf : plan.For lib table alignment)
    (hp : ∀ column ∈ table.columns, Probed column) (h : plan.Holds lib image source)
    (hd : List.Forall₂ (DecodedAs lib plan) image.cells row)
    (hr : decodeRow lib table row alignment image.present = .ok values) :
    List.Forall₂ (Stores table values) plan.key source := by
  have hlen : row.length = image.present.length := by
    rw [RowImage.present, length_map, hd.length_eq]
  rw [decodeRow, if_neg (not_not.mpr hlen)] at hr
  apply h.keys.imp
  rintro index v ⟨cell, hmem, bytes, column, src, hb, hcol, hplace, hsrc, hw⟩
  have htable : table.columns[index]? = some src := by rw [← hf.source_eq]; exact hsrc
  obtain ⟨value, hvalue, hzip⟩ := exists_mem_zip hd hmem
  obtain ⟨column', rest, hcol', hdes⟩ : ∃ column' rest, plan.columns[cell.1]? = some column' ∧
      lib.deserialize column'.kind column'.metadata column'.unsigned (bytes ++ rest) =
        .ok (value, rest) := by
    rw [DecodedAs, hb] at hvalue
    exact hvalue
  obtain rfl : column = column' := some.inj (hcol.symm.trans hcol')
  obtain ⟨read, hread, hstored⟩ := hw.deserialize hl (hp src (mem_of_getElem? htable)) rest
  obtain rfl : value = .ok read := (Prod.mk.inj (ok.inj (hdes.symm.trans hread))).1
  have hplaced : placementOf table alignment cell.1 = .column index := by
    rw [← hf.placement_eq cell.1 column hcol, hplace]
  have hsize : index < (replicate table.columns.length Value.null).length := by
    rw [length_replicate]
    exact (List.getElem?_eq_some_iff.mp htable).1
  obtain ⟨stored, ⟨src', -, htable', hs⟩, hfinal⟩ := (sets_of_decodeCells hr).getElem?_of_mem
    (fun _ _ _ ⟨_, hp, _⟩ => Placement.index?_eq_some.mpr hp) (nodup_placed hf h hlen) hzip
    (Placement.index?_eq_some.mpr hplaced) (fun hnone => by simp [hnone index hplaced] at htable)
    hsize
  obtain rfl : src = src' := some.inj (htable.symm.trans htable')
  refine ⟨src, htable, ⟨column, bytes, hw⟩, ?_⟩
  rw [hfinal, hstored _ _ hs]

def keyColumns (table : SourceTable) : List SourceColumn :=
  table.key.columns.filterMap table.column?

theorem column?_of_columnIndex
    (h : columnIndex table name = some index) : table.column? name = table.columns[index]? := by
  rw [SourceTable.column?, find?_eq_bind_findIdx?_getElem?]
  rw [columnIndex] at h
  rw [h, bind_some]

theorem forall₂_keyColumns {names : List String} {key : List ℕ} {source : List SourceValue}
    (hk : List.Forall₂ (fun name index => columnIndex table name = some index) names key)
    (hs : List.Forall₂ (Stores table values) key source) :
    List.Forall₂ Written (names.filterMap table.column?) source ∧
      ∀ {lib : Libraries} {parts : List KeyPart}, List.Forall₂
        (fun index part => keyPart lib (values.getD index .null) = some part) key parts →
        parts = zipWith keyOfValue (names.filterMap table.column?) source := by
  induction hk generalizing source with
  | nil =>
    cases hs
    refine ⟨.nil, fun hp => ?_⟩
    cases hp
    rfl
  | cons hname _ ih =>
    cases hs with
    | cons hstore hs =>
      obtain ⟨column, hcol, hwritten, hvalue⟩ := hstore
      obtain ⟨hrest, hparts⟩ := ih hs
      have hfirst := column?_of_columnIndex hname
      rw [hcol] at hfirst
      rw [filterMap_cons_some hfirst]
      refine ⟨.cons hwritten hrest, fun {lib parts} hp => ?_⟩
      cases hp with
      | cons hpart hp =>
        rw [getD_eq_getElem?_getD, hvalue, getD_some, keyPart_storedValue] at hpart
        rw [zipWith_cons_cons, ← hparts hp, some.inj hpart]

variable {key : PrimaryKey} {indexes : List ℕ}

theorem parts_of_newKey {parts : List KeyPart} (h : newKey parts = .ok key) :
    key.parts = parts := by
  unfold newKey at h
  split_ifs at h
  rw [← ok.inj h]

theorem parts_of_keyOf (h : plan.keyOf lib values = .ok key) : List.Forall₂
      (fun index part => keyPart lib (values.getD index .null) = some part) plan.key key.parts := by
  unfold RowPlan.keyOf at h
  split_ifs at h
  obtain ⟨parts, hparts, h⟩ := bind_eq_ok.mp h
  rw [parts_of_newKey h]
  apply (mapM_eq_ok.mp hparts).imp
  intro index part hp
  unfold RowPlan.keyPartAt at hp
  cases hk : keyPart lib (values.getD index .null) with
  | none =>
    rw [hk] at hp
    cases hp
  | some found =>
    rw [hk] at hp
    rw [ok.inj hp]

theorem keyPart_of_keyPartAt {part : KeyPart} (h : keyPartAt lib table values name = .ok part)
    (hi : columnIndex table name = some index) :
    keyPart lib (values.getD index .null) = some part := by
  unfold keyPartAt at h
  rw [hi] at h
  dsimp only at h
  cases hk : keyPart lib (values.getD index .null) with
  | none =>
    rw [hk] at h
    cases h
  | some found =>
    rw [hk] at h
    rw [ok.inj h]

theorem parts_of_physicalKey (h : physicalKey lib table values = .ok key)
    (hk : List.Forall₂ (fun name index => columnIndex table name = some index)
      table.key.columns indexes) : List.Forall₂
      (fun index part => keyPart lib (values.getD index .null) = some part) indexes key.parts := by
  unfold physicalKey at h
  split_ifs at h
  obtain ⟨parts, hparts, h⟩ := bind_eq_ok.mp h
  rw [parts_of_newKey h]
  exact hk.flip.trans_of (mapM_eq_ok.mp hparts) fun hi hp => keyPart_of_keyPartAt hp hi

theorem parts_of_keyed (hl : lib.Faithful) (hf : plan.For lib table alignment)
    (hm : table.key.mode ≠ .appendRowId) (hp : ∀ column ∈ table.columns, Probed column)
    (h : plan.Holds lib image source) (hk : Keyed lib table alignment plan image key) :
    List.Forall₂ Written (keyColumns table) source ∧
      key.parts = zipWith keyOfValue (keyColumns table) source := by
  have hindexes := hf.key_eq
  rw [keyIndexes, if_neg hm] at hindexes
  have hnames := mapM_eq_some.mp hindexes
  cases hk with
  | planned hr hk =>
    have hstores := forall₂_keyColumns hnames (stores_of_readImage hl hf hp h hr)
    exact ⟨hstores.1, hstores.2 (parts_of_keyOf hk)⟩
  | decoded hd hr hk =>
    have hstores := forall₂_keyColumns hnames (stores_of_decodeRow hl hf hp h hd hr)
    exact ⟨hstores.1, hstores.2 (parts_of_physicalKey hk hnames)⟩
  | inserted hd hr hk =>
    have hstores := forall₂_keyColumns hnames (stores_of_decodeRow hl hf hp h hd hr)
    rw [insertKey, if_neg hm] at hk
    exact ⟨hstores.1, hstores.2 (parts_of_physicalKey hk hnames)⟩

/-- The keys of two row images of a table differ exactly if some key column tells their source
values apart: by any difference, but in a column read as boolean only zero from the rest. -/
theorem keys_ne_iff_told (hl : lib.Faithful) (hm : table.key.mode ≠ .appendRowId)
    (hp : ∀ column ∈ table.columns, Probed column) {alignment' : RowAlignment} {plan' : RowPlan}
    {described' : List (ColumnType × List UInt8 × Bool)}
    (hplan : forColumns lib table described alignment = some plan)
    (hplan' : forColumns lib table described' alignment' = some plan') {image' : RowImage}
    {source' : List SourceValue} (h : plan.Holds lib image source)
    (h' : plan'.Holds lib image' source') {key key' : PrimaryKey}
    (hk : Keyed lib table alignment plan image key)
    (hk' : Keyed lib table alignment' plan' image' key') :
    key ≠ key' ↔ Told (keyColumns table) source source' := by
  obtain ⟨hw, hparts⟩ := parts_of_keyed hl (for_of_forColumns hplan) hm hp h hk
  obtain ⟨hw', hparts'⟩ := parts_of_keyed hl (for_of_forColumns hplan') hm hp h' hk'
  have hprobed : ∀ column ∈ keyColumns table, Probed column := by
    intro column hc
    obtain ⟨name, -, hname⟩ := mem_filterMap.mp hc
    exact hp column (SourceTable.mem_of_column? hname)
  rw [← parts_ne_iff_told hprobed hw hw', ← hparts, ← hparts', ne_eq, ne_eq,
    PrimaryKey.parts_injective.eq_iff]

end Keys

section Flags

/-- A client library of integers and counted bytes only. -/
def plainLibraries : Libraries where
  deserialize kind metadata unsigned data :=
    match [tinyint, .smallint, .mediumint, .int, .bigint].find? (·.kind = kind) with
    | some type =>
      let n := leNat (data.take type.width)
      let read : MysqlValue :=
        if unsigned then .uint (UInt64.ofNat n)
        else .int (Int64.ofInt (if 2 * n < 256 ^ type.width then n else n - 256 ^ type.width))
      .ok (.ok read, data.drop type.width)
    | none =>
      match lengthBytes kind metadata with
      | some k =>
        let length := leNat (data.take k)
        .ok (.ok (.bytes ((data.drop k).take length)), (data.drop k).drop length)
      | none => .error "unsupported column type"
  civil _ := none
  widen _ := 0
  declarationLabels _ _ := none
  shown _ := none
  floatText _ := ""
  otherValue _ _ _ := .error "unsupported column type"

theorem faithful_plainLibraries : plainLibraries.Faithful where
  integer type metadata unsigned n rest hn := by
    have hfind : [tinyint, .smallint, .mediumint, .int, .bigint].find?
        (·.kind = type.kind) = some type := by cases type <;> rfl
    have htake : (leBytes type.width n ++ rest).take type.width = leBytes type.width n :=
      take_left' (length_leBytes _ _)
    have hdrop : (leBytes type.width n ++ rest).drop type.width = rest :=
      drop_left' (length_leBytes _ _)
    refine ⟨_, by simp only [plainLibraries, hfind, htake, hdrop, leNat_leBytes_of_lt hn]; rfl, ?_⟩
    cases unsigned
    · exact .inl rfl
    · exact .inl rfl
  counted kind metadata k hk unsigned body rest hlen := by
    have hfind : [tinyint, .smallint, .mediumint, .int, .bigint].find?
        (·.kind = kind) = none := by cases kind <;> first | rfl | cases hk
    have htake : (leBytes k body.length ++ (body ++ rest)).take k = leBytes k body.length :=
      take_left' (length_leBytes _ _)
    have hdrop : (leBytes k body.length ++ (body ++ rest)).drop k = body ++ rest :=
      drop_left' (length_leBytes _ _)
    simp only [plainLibraries, hfind, hk, htake, hdrop, leNat_leBytes_of_lt hlen, take_left,
      drop_left]

def flagColumn : SourceColumn where
  id := 1
  name := "flag"
  mysqlDataType := "tinyint"
  mysqlColumnType := "tinyint(1)"
  pintailType := .boolean
  nullable := false
  ordinal := 1

/-- `CREATE TABLE flags (flag TINYINT(1) PRIMARY KEY)` -/
def flagTable : SourceTable where
  name := "flags"
  columns := [flagColumn]
  key := { mode := .primary, columns := ["flag"] }
  sourceColumnCount := 1

def flagPlan : RowPlan where
  source := flagTable
  columns := [{ kind := .tiny, metadata := [], unsigned := false, placement := .column 0,
                reader := .integer 1 none .boolean }]
  key := [0]

def flagImage (value : UInt8) : RowImage where
  nulls := [0]
  cells := [(0, some [value])]

theorem forColumns_flagTable :
    forColumns plainLibraries flagTable [(.tiny, [], false)] .positional = some flagPlan := by
  decide +kernel

theorem probed_flagTable : ∀ column ∈ flagTable.columns, Probed column := by
  intro column hc
  obtain rfl := mem_singleton.mp hc
  exact ⟨{ name := "flag", dataType := "tinyint", columnType := "tinyint(1)" }, rfl, rfl,
    by decide +kernel⟩

variable {value : UInt8}

theorem holds_flagImage {number : ℤ} (hr : -256 ≤ 2 * number ∧ 2 * number < 256)
    (hb : leBytes 1 (number % 256).toNat = [value]) :
    flagPlan.Holds plainLibraries (flagImage value) [.integer number] where
  in_map cell hc := by
    obtain rfl := mem_singleton.mp hc
    exact Nat.one_pos
  nulls_length := by simp [flagImage]
  nulls_eq position cell hc := by
    cases position with
    | zero =>
      cases hc
      change isNull [0] 0 = false
      decide
    | succ position => cases hc
  stepped cell hc bytes column hbytes hcol target := by
    obtain rfl := mem_singleton.mp hc
    cases hbytes
    cases hcol
    exact ⟨_, reads_fixed target rfl⟩
  once := nodup_singleton 0
  keys := by
    refine .cons ⟨(0, some [value]), mem_singleton_self _, [value], _, flagColumn, rfl, rfl, rfl,
      rfl, ?_⟩ .nil
    rw [← hb]
    exact Writes.integer .tinyint number ⟨"tinyint", by decide, by decide⟩ rfl nofun hr

def flagKey : PrimaryKey := ⟨[.uint64 1], by decide⟩

def clearKey : PrimaryKey := ⟨[.uint64 0], by decide⟩

theorem keyed_flagImage {b : Bool} {key : PrimaryKey}
    (h : (flagPlan.readImage plainLibraries [0] false).run [0, value] =
      .ok (.ok [.boolean b], []))
    (hkey : flagPlan.keyOf plainLibraries [.boolean b] = .ok key) :
    Keyed plainLibraries flagTable .positional flagPlan (flagImage value) key := by
  have hr : (flagPlan.readImage plainLibraries (flagImage value).present false).run
      ((flagImage value).bytes ++ []) = .ok (.ok [.boolean b], []) := h
  exact .planned hr hkey

/-- Rows 1 and 2 of a `TINYINT(1)` key column are different rows of the source. -/
theorem nonzero_flags_share_key :
    flagPlan.Holds plainLibraries (flagImage 1) [.integer 1] ∧
      flagPlan.Holds plainLibraries (flagImage 2) [.integer 2] ∧
      Keyed plainLibraries flagTable .positional flagPlan (flagImage 1) flagKey ∧
      Keyed plainLibraries flagTable .positional flagPlan (flagImage 2) flagKey :=
  ⟨holds_flagImage (by decide) (by decide), holds_flagImage (by decide) (by decide),
    keyed_flagImage rfl rfl, keyed_flagImage rfl rfl⟩

theorem keys_ne_iff_told_flags :
    clearKey ≠ flagKey ∧ Told (keyColumns flagTable) [.integer 0] [.integer 1] := by
  have hiff : clearKey ≠ flagKey ↔ Told (keyColumns flagTable) [.integer 0] [.integer 1] :=
    keys_ne_iff_told faithful_plainLibraries (by decide) probed_flagTable forColumns_flagTable
      forColumns_flagTable (holds_flagImage (by decide) (by decide))
      (holds_flagImage (by decide) (by decide))
      (keyed_flagImage (b := false) rfl rfl : Keyed _ _ _ _ (flagImage 0) clearKey)
      (keyed_flagImage (b := true) rfl rfl : Keyed _ _ _ _ (flagImage 1) flagKey)
  exact ⟨by decide, hiff.mp (by decide)⟩

end Flags

end Pintail.Cdc
