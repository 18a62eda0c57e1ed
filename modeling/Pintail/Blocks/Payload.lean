import Pintail.Blocks.Encoding
import Pintail.Blocks.Unpacked

/-! # Payloads are decoded to their values

For each encoding the decoder reads back the present values of the block, and so does the pass that
bounds their memory beforehand.
-/

namespace Pintail.Blocks

open Bytes List Except Decoder Reads ColumnDictionary
open Option hiding map_map

variable {logicalType : LogicalType} {cells : List Cell} {out : List UInt8}

theorem decodeAll_eq_ok {α : Type} {decoder : Decoder α} {a : α} (h : Reads decoder out a) :
    decodeAll decoder out = .ok a := by
  rw [decodeAll, h.run]
  rfl

/-- A payload that decodes to its values, and whose memory can be bounded first. -/
structure Decodes (avx2 : Bool) (logicalType : LogicalType) (encoding : Encoding)
    (payload : List UInt8) (cells : List Cell) : Prop where
  values : Reads (decodeValues avx2 logicalType encoding cells.length) payload cells
  heap : logicalType.Prefixed → ∃ heap, Reads (textHeap encoding cells.length) payload heap

section Dictionaries

variable {entries entries' : List Cell} {indices : List ℕ} {fields : List (List UInt8)} {w : ℕ}

def Names (entries : List Cell) (indices : List ℕ) (cells : List Cell) : Prop :=
  List.Forall₂ (fun index cell => entries[index]? = some cell) indices cells

variable {cell : Cell} {index : ℕ}

/-- Entries grown by values that were numbered against them. -/
structure Grown (entries cells entries' : List Cell) : Prop where
  leading : entries <+: entries'
  mem : ∀ cell ∈ entries', cell ∈ entries ∨ cell ∈ cells

theorem Grown.refl (entries cells : List Cell) : Grown entries cells entries :=
  ⟨prefix_rfl, fun _ => Or.inl⟩

theorem Grown.getElem? (h : Grown entries cells entries') (hc : entries[index]? = some cell) :
    entries'[index]? = some cell := by
  obtain ⟨more, rfl⟩ := h.leading
  rw [List.getElem?_append_left (List.getElem?_eq_some_iff.mp hc).1, hc]

theorem Grown.known (h : Grown entries cells entries') (hi : entries.idxOf? cell = some index) :
    Grown entries (cell :: cells) entries' ∧ entries'[index]? = some cell := by
  refine ⟨⟨h.leading, fun c hc => (h.mem c hc).imp id (mem_cons_of_mem _)⟩, h.getElem? ?_⟩
  rw [idxOf?, findIdx?_eq_some_iff_getElem] at hi
  obtain ⟨hlt, heq, -⟩ := hi
  rw [getElem?_eq_getElem hlt, eq_of_beq heq]

theorem Grown.fresh (h : Grown (entries ++ [cell]) cells entries') :
    Grown entries (cell :: cells) entries' ∧ entries'[entries.length]? = some cell := by
  refine ⟨⟨(prefix_append entries [cell]).trans h.leading, fun c hc => ?_⟩, h.getElem? (by simp)⟩
  have := h.mem c hc
  simp only [mem_append, mem_cons] at this ⊢
  tauto

theorem numberCells_spec (h : numberCells entries cells = .ok (entries', indices)) :
    Grown entries cells entries' ∧ Names entries' indices cells := by
  fun_induction numberCells entries cells generalizing indices with
  | case1 =>
    cases h
    exact ⟨.refl _ _, .nil⟩
  | case2 _ cell _ _ hindex ih =>
    obtain ⟨⟨_, rest⟩, hrest, h⟩ := bind_eq_ok.mp h
    cases h
    obtain ⟨hg, hn⟩ := ih hrest
    obtain ⟨hg, hc⟩ := hg.known hindex
    exact ⟨hg, .cons hc hn⟩
  | case3 =>
    rename_i ih
    obtain ⟨⟨_, rest⟩, hrest, h⟩ := bind_eq_ok.mp h
    cases h
    obtain ⟨hg, hn⟩ := ih hrest
    obtain ⟨hg, hc⟩ := hg.fresh
    exact ⟨hg, .cons hc hn⟩
  | case4 => cases h

variable {dictionary dictionary' : ColumnDictionary}

theorem number_spec {result : Option (List ℕ)}
    (h : dictionary.number cells = .ok (result, dictionary')) :
    Grown dictionary.entries cells dictionary'.entries ∧
      ∀ indices ∈ result, Names dictionary'.entries indices cells := by
  fun_induction number dictionary cells generalizing result with
  | case1 =>
    cases h
    exact ⟨.refl _ _, by rintro _ ⟨⟩; exact .nil⟩
  | case2 _ cell _ index hindex ih =>
    obtain ⟨⟨rest, _⟩, hrest, h⟩ := bind_eq_ok.mp h
    cases h
    obtain ⟨hg, hn⟩ := ih hrest
    obtain ⟨hg, hc⟩ := hg.known hindex
    exact ⟨hg, Option.forall_mem_map.mpr fun indices hi => .cons hc (hn indices hi)⟩
  | case3 =>
    cases h
    exact ⟨.refl _ _, nofun⟩
  | case4 =>
    rename_i ih
    obtain ⟨⟨rest, _⟩, hrest, h⟩ := bind_eq_ok.mp h
    cases h
    obtain ⟨hg, hn⟩ := ih hrest
    obtain ⟨hg, hc⟩ := hg.fresh
    exact ⟨hg, Option.forall_mem_map.mpr fun indices hi => .cons hc (hn indices hi)⟩
  | case5 => cases h

theorem lt_listed (h : index ∈ indices) : index < listed indices := by
  suffices hfold : ∀ n, n ≤ indices.foldl (fun listed index => max listed (index + 1)) n ∧
      ∀ index ∈ indices, index < indices.foldl (fun listed index => max listed (index + 1)) n from
    (hfold 0).2 index h
  clear h
  induction indices with
  | nil => exact fun n => ⟨le_rfl, nofun⟩
  | cons i rest ih =>
    intro n
    obtain ⟨hle, hlt⟩ := ih (max n (i + 1))
    exact ⟨(le_max_left ..).trans hle, forall_mem_cons.mpr ⟨(le_max_right ..).trans hle, hlt⟩⟩

theorem names_take_listed (h : Names entries indices cells) :
    Names (entries.take (listed indices)) indices cells := by
  have hlt : ∀ index ∈ indices, index < listed indices := fun _ => lt_listed
  generalize listed indices = n at hlt
  induction h with
  | nil => exact .nil
  | @cons index cell indices cells hc _ ih =>
    refine .cons ?_ (ih fun i hi => hlt i (mem_cons_of_mem _ hi))
    rw [getElem?_take_of_lt (hlt index mem_cons_self), hc]

/-- Each field spells the place of its value among the entries. -/
def Spells (entries : List Cell) (w : ℕ) (fields : List (List UInt8)) (cells : List Cell) : Prop :=
  List.Forall₂ (fun field cell => field.length = w ∧ entries[leNat field]? = some cell) fields cells

theorem Names.spells (h : Names entries indices cells) (hlen : entries.length ≤ 2 ^ 32) :
    Spells entries 4 (indices.map fun index => u32Bytes (UInt32.ofNat index)) cells := by
  refine forall₂_map_left_iff.mpr (h.imp fun index cell hc => ⟨length_u32Bytes _, ?_⟩)
  have hindex : index < 2 ^ 32 := (List.getElem?_eq_some_iff.mp hc).1.trans_le hlen
  rw [u32Bytes, leNat_leBytes_of_lt (by simpa using (UInt32.ofNat index).toNat_lt),
    UInt32.toNat_ofNat_of_lt' hindex, hc]

theorem reads_dictionaryIndex (hw : w = 1 ∨ w = 2 ∨ w = 4) {field : List UInt8}
    (hl : field.length = w) : Reads (dictionaryIndex w) field (leNat field) := by
  rcases hw with rfl | rfl | rfl
  · obtain ⟨byte, rfl⟩ := length_eq_one_iff.mp hl
    exact (reads_u8 byte).map
  · have h := reads_take field
    rw [hl] at h
    exact h.map
  · have h := reads_take field
    rw [hl] at h
    have hlt : leNat field < 2 ^ 32 := by
      have := leNat_lt field
      rw [hl] at this
      exact this
    have hr := (h.map (f := fun field => UInt32.ofNat (leNat field))).map (f := UInt32.toNat)
    rwa [UInt32.toNat_ofNat_of_lt' hlt] at hr

theorem reads_indexed (hw : w = 1 ∨ w = 2 ∨ w = 4) (h : Spells entries w fields cells) :
    Reads ((decodeIndexed entries w).times cells.length) fields.flatten cells := by
  refine times (h.imp fun field cell hc => ?_)
  apply (reads_dictionaryIndex hw hc.1).andThen
  simp only [hc.2]
  exact pure cell

theorem reads_bounded (hw : w = 1 ∨ w = 2 ∨ w = 4) (h : Spells entries w fields cells) :
    Reads (Decode.times (do
      let index ← dictionaryIndex w
      if entries.length ≤ index then throw s!"dictionary index {index} is out of bounds")
      cells.length) fields.flatten (cells.map fun _ => ()) := by
  rw [← @length_map _ _ cells fun _ => ()]
  refine times (forall₂_map_right_iff.mpr (h.imp fun field cell hc => ?_))
  have hlt : ¬ entries.length ≤ leNat field :=
    Nat.not_le.mpr (List.getElem?_eq_some_iff.mp hc.2).1
  apply (reads_dictionaryIndex hw hc.1).andThen
  simp only [hlt]
  exact pure ()

/-- A dictionary payload: its counted entries, then one index field a value. -/
structure Laid (logicalType : LogicalType) (cells : List Cell) (out : List UInt8) where
  entries : List Cell
  typed : logicalType.Types entries
  head : List UInt8
  encoded : Encoder.each entries "block dictionary" encodeCell = .ok head
  fields : List (List UInt8)
  spells : Spells entries 4 fields cells
  out_eq : out = head ++ fields.flatten

theorem each_eq_ok {α : Type} {items : List α} {what : String}
    {encode : α → Except StoreError (List UInt8)} (h : Encoder.each items what encode = .ok out) :
    ∃ field chunks, Encoder.length items.length what = .ok field ∧
      items.mapM encode = .ok chunks ∧ out = field ++ chunks.flatten := by
  obtain ⟨field, hl, h⟩ := bind_eq_ok.mp h
  obtain ⟨chunks, hc, h⟩ := bind_eq_ok.mp h
  exact ⟨field, chunks, hl, hc, (pure_eq_ok.mp h).symm⟩

theorem laid_of_dictionaryPayload (ht : logicalType.Types entries)
    (hn : Names entries indices cells) (h : dictionaryPayload entries indices = .ok out) :
    Nonempty (Laid logicalType cells out) := by
  obtain ⟨head, hh, h⟩ := bind_eq_ok.mp h
  obtain ⟨_, _, hl, -, -⟩ := each_eq_ok hh
  exact ⟨⟨entries, ht, head, hh, _, hn.spells (length_eq_ok hl).1.le,
    (pure_eq_ok.mp h).symm⟩⟩

theorem laid_of_encodeDictionary (ht : logicalType.Types cells)
    (h : encodeDictionary cells = .ok out) : Nonempty (Laid logicalType cells out) := by
  obtain ⟨⟨entries, indices⟩, hn, h⟩ := bind_eq_ok.mp h
  obtain ⟨hgrown, hnames⟩ := numberCells_spec hn
  refine laid_of_dictionaryPayload (fun cell hc => ht cell ?_) hnames h
  exact (hgrown.mem cell hc).resolve_left not_mem_nil

theorem encode_spec {payload : Option (List UInt8)} (ht : logicalType.Types cells)
    (hd : logicalType.Types dictionary.entries)
    (h : dictionary.encode cells = .ok (payload, dictionary')) :
    logicalType.Types dictionary'.entries ∧
      ∀ out ∈ payload, Nonempty (Laid logicalType cells out) := by
  unfold encode at h
  split at h
  · cases h
    exact ⟨hd, nofun⟩
  · obtain ⟨⟨result, numbered⟩, hn, h⟩ := bind_eq_ok.mp h
    obtain ⟨hgrown, hnames⟩ := number_spec hn
    have htyped : logicalType.Types numbered.entries := fun cell hc =>
      (hgrown.mem cell hc).elim (hd cell) (ht cell)
    cases result with
    | none =>
      cases h
      exact ⟨htyped, nofun⟩
    | some indices =>
      obtain ⟨payload, hp, h⟩ := bind_eq_ok.mp h
      cases h
      refine ⟨htyped, ?_⟩
      rintro _ ⟨⟩
      exact laid_of_dictionaryPayload (fun cell hc => htyped cell (mem_of_mem_take hc))
        (names_take_listed (hnames indices rfl)) hp

theorem Laid.decodes (avx2 : Bool) (laid : Laid logicalType cells out) :
    Decodes avx2 logicalType .dictionary out cells := by
  obtain ⟨entries, ht, head, hh, fields, hs, rfl⟩ := laid
  obtain ⟨field, chunks, hl, hc, rfl⟩ := each_eq_ok hh
  rw [append_assoc]
  constructor
  · exact (reads_length hl).bind ((reads_cells ht hc).bind
      ((pure 4).bind (reads_indexed (by simp) hs)))
  · exact fun hp => ⟨_, (reads_length hl).bind ((reads_contents_times hp ht hc).bind
      ((pure 4).bind (reads_bounded (by simp) hs).map))⟩

end Dictionaries

section Narrow

variable {fields : List (List UInt8)}

theorem map_window_flatten {k : ℕ} (h : ∀ field ∈ fields, field.length = k) :
    (range fields.length).map (fun i => (fields.flatten.drop (i * k)).take k) = fields := by
  induction fields with
  | nil => rfl
  | cons field fields ih =>
    have hfield := h field mem_cons_self
    rw [length_cons, range_succ_eq_map, map_cons, map_map, flatten_cons,
      zero_mul, drop_zero, take_left' hfield]
    congr 1
    conv_rhs => rw [← ih fun f hf => h f (mem_cons_of_mem _ hf)]
    apply map_congr_left
    intro i _
    rw [Function.comp_apply, Nat.succ_mul, add_comm (i * k) k, ← drop_drop, drop_left' hfield]

theorem leNat_eq_zero {bytes : List UInt8} (h : bytes.any (· ≠ 0) = false) : leNat bytes = 0 := by
  induction bytes with
  | nil => rfl
  | cons byte bytes ih =>
    simp only [any_cons, Bool.or_eq_false_iff, decide_eq_false_iff_not, not_not] at h
    rw [leNat, h.1, ih h.2]
    rfl

variable {w : ℕ} {entries : List Cell}

theorem narrowIndex_eq_some {index field : List UInt8} (hw : w ≤ index.length)
    (h : narrowIndex w index = some field) : field.length = w ∧ leNat field = leNat index := by
  unfold narrowIndex at h
  split at h
  · cases h
  · rename_i hzero
    cases h
    have hlen := length_take_of_le hw
    have hhigh : leNat (index.drop w) = 0 := leNat_eq_zero (by simpa using hzero)
    have happend := leNat_append (index.take w) (index.drop w)
    rw [take_append_drop, hhigh] at happend
    exact ⟨hlen, happend.symm⟩

theorem Spells.length_flatten
    (h : Spells entries w fields cells) : fields.flatten.length = cells.length * w := by
  induction h with
  | nil => simp
  | cons hf _ ih =>
    rw [flatten_cons, length_append, ih, hf.1, length_cons, Nat.succ_mul, add_comm]

theorem Spells.narrow {fields narrowed : List (List UInt8)} (hw : w ≤ 4)
    (h : Spells entries 4 fields cells)
    (hn : fields.mapM (narrowIndex w) = some narrowed) : Spells entries w narrowed cells := by
  have hf := mapM_eq_some.mp hn
  apply hf.flip.trans_of h
  intro field index cell hnarrow hspell
  obtain ⟨hlen, hsame⟩ := narrowIndex_eq_some (by rw [hspell.1]; exact hw) hnarrow
  exact ⟨hlen, hsame ▸ hspell.2⟩

theorem indexWidth_eq_some {entries w : ℕ} (h : indexWidth entries = some w) : w = 1 ∨ w = 2 := by
  unfold indexWidth at h
  split_ifs at h <;> simp_all

variable {narrow : List UInt8}

theorem narrow_laid (hp : logicalType.Prefixed) (laid : Laid logicalType cells out)
    (h : narrowDictionaryPayload out cells.length = some narrow) :
    ∃ w fields, (w = 1 ∨ w = 2) ∧ Spells laid.entries w fields cells ∧
      narrow = laid.head ++ (UInt8.ofNat w :: fields.flatten) := by
  obtain ⟨entries, ht, head, hh, fields, hs, rfl⟩ := laid
  obtain ⟨field, chunks, hl, hc, rfl⟩ := each_eq_ok hh
  have hcount := reads_length hl (chunks.flatten ++ fields.flatten)
  have hentries := reads_contents_times hp ht hc fields.flatten
  have hsize := hs.length_flatten
  have hlen : ∀ field ∈ fields, field.length = 4 := fun field hf => by
    obtain ⟨cell, -, hcell⟩ := List.Forall₂.exists_of_mem_left hs hf
    exact hcell.1
  have hfields : fields.length = cells.length := hs.length_eq
  have hindexes := reads_take fields.flatten
  rw [hsize] at hindexes
  have hhead : (field ++ chunks.flatten ++ fields.flatten).length - fields.flatten.length =
      (field ++ chunks.flatten).length := by
    rw [length_append, Nat.add_sub_cancel]
  have hwindows := map_window_flatten hlen
  rw [hfields] at hwindows
  unfold narrowDictionaryPayload at h
  rw [append_assoc] at h
  simp only [hcount, hentries, hindexes.run, Except.toOption, bind_eq_bind, bind_some] at h
  obtain ⟨w, hw, h⟩ := bind_eq_some_iff.mp h
  obtain ⟨-, -, h⟩ := bind_eq_some_iff.mp h
  obtain ⟨-, -, h⟩ := bind_eq_some_iff.mp h
  obtain ⟨narrowed, hn, h⟩ := bind_eq_some_iff.mp h
  cases h
  have hn : fields.mapM (narrowIndex w) = some narrowed := by
    rw [← hwindows, mapM_map]
    exact hn
  have hwidth := indexWidth_eq_some hw
  refine ⟨w, narrowed, hwidth, hs.narrow (by omega) hn, ?_⟩
  rw [← append_assoc, hhead, take_left]

theorem reads_indexWidth (hw : w = 1 ∨ w = 2) : Reads dictionaryIndexWidth [UInt8.ofNat w] w := by
  rcases hw with rfl | rfl
  · exact (reads_u8 1).bind (pure 1)
  · exact (reads_u8 2).bind (pure 2)

theorem decodes_narrow (avx2 : Bool) (hp : logicalType.Prefixed) (laid : Laid logicalType cells out)
    {narrow : List UInt8} (h : narrowDictionaryPayload out cells.length = some narrow) :
    Decodes avx2 logicalType .narrowDictionary narrow cells := by
  obtain ⟨w, fields, hw, hs, rfl⟩ := narrow_laid hp laid h
  obtain ⟨entries, ht, head, hh, _, _, rfl⟩ := laid
  obtain ⟨field, chunks, hl, hc, rfl⟩ := each_eq_ok hh
  rw [append_assoc]
  constructor
  · exact (reads_length hl).bind ((reads_cells ht hc).bind
      ((reads_indexWidth hw).bind (reads_indexed (by omega) hs)))
  · exact fun hp => ⟨_, (reads_length hl).bind ((reads_contents_times hp ht hc).bind
      ((reads_indexWidth hw).bind (reads_bounded (by omega) hs).map))⟩

end Narrow

section Runs

def expand (runs : List (ℕ × Cell)) : List Cell :=
  runs.flatMap fun run => replicate run.1 run.2

@[simp] theorem expand_cons (run : ℕ × Cell) (runs : List (ℕ × Cell)) :
    expand (run :: runs) = replicate run.1 run.2 ++ expand runs :=
  flatMap_cons ..

def Counted (runs : List (ℕ × Cell)) : Prop := ∀ run ∈ runs, 0 < run.1 ∧ run.1 < 2 ^ 32

variable {runs runs' : List (ℕ × Cell)}

theorem pushRun_spec {cell : Cell} (h : pushRun runs cell = .ok runs') (hc : Counted runs) :
    Counted runs' ∧ expand runs' = expand runs ++ [cell] := by
  have hadd {runs : List (ℕ × Cell)} (hc : Counted runs) {length : ℕ} (hpos : 0 < length)
      (hlt : length < 2 ^ 32) : Counted (runs ++ [(length, cell)]) :=
    forall_mem_append.mpr ⟨hc, forall_mem_singleton.mpr ⟨hpos, hlt⟩⟩
  have hfresh : Counted (runs ++ [(1, cell)]) ∧
      expand (runs ++ [(1, cell)]) = expand runs ++ [cell] :=
    ⟨hadd hc one_pos (by norm_num), by simp [expand]⟩
  revert h
  fun_cases pushRun runs cell with
  | case1 length hlt hlast =>
    obtain ⟨before, rfl⟩ := getLast?_eq_some_iff.mp hlast
    rintro ⟨⟩
    rw [dropLast_concat]
    exact ⟨hadd (fun run hrun => hc run (mem_append_left _ hrun)) (Nat.succ_pos _) hlt,
      by simp [expand, replicate_succ']⟩
  | case2 => nofun
  | case3 => rintro ⟨⟩; exact hfresh
  | case4 => rintro ⟨⟩; exact hfresh

theorem foldlM_pushRun_spec (h : cells.foldlM pushRun runs = .ok runs') (hc : Counted runs) :
    Counted runs' ∧ expand runs' = expand runs ++ cells := by
  induction cells generalizing runs with
  | nil =>
    cases h
    exact ⟨hc, (append_nil _).symm⟩
  | cons cell cells ih =>
    obtain ⟨pushed, hp, h⟩ := bind_eq_ok.mp h
    obtain ⟨hc', he⟩ := pushRun_spec hp hc
    obtain ⟨hc'', he'⟩ := ih h hc'
    exact ⟨hc'', by rw [he', he, append_assoc, singleton_append]⟩

variable {runs : List (ℕ × Cell)} {run : ℕ × Cell}

theorem mem_expand (hc : Counted runs) (h : run ∈ runs) : run.2 ∈ expand runs :=
  mem_flatMap.mpr ⟨run, h, mem_replicate.mpr ⟨(hc run h).1.ne', rfl⟩⟩

theorem reads_runLength {n : ℕ} (h : n < 2 ^ 32) :
    Reads (UInt32.toNat <$> u32) (u32Bytes (UInt32.ofNat n)) n := by
  have hr := (reads_u32 (UInt32.ofNat n)).map (f := UInt32.toNat)
  rwa [UInt32.toNat_ofNat_of_lt' h] at hr

theorem encodeRun_eq_ok (h : encodeRun run = .ok out) :
    ∃ value, encodeCell run.2 = .ok value ∧ out = u32Bytes (UInt32.ofNat run.1) ++ value := by
  obtain ⟨value, hv, h⟩ := bind_eq_ok.mp h
  exact ⟨value, hv, (pure_eq_ok.mp h).symm⟩

variable {chunks : List (List UInt8)} {valueCount : ℕ}

theorem reads_runsFrom (hc : Counted runs) (ht : ∀ run ∈ runs, run.2.logicalType = some logicalType)
    (h : runs.mapM encodeRun = .ok chunks) {values : List Cell}
    (hle : values.length + (expand runs).length ≤ valueCount) :
    Reads (decodeRunsFrom logicalType valueCount runs.length values) chunks.flatten
      (values ++ expand runs) := by
  have hf := mapM_eq_ok.mp h
  clear h
  induction hf generalizing values with
  | nil =>
    rw [show expand [] = [] from rfl, append_nil]
    exact pure values
  | @cons run chunk runs chunks hrun _ ih =>
    obtain ⟨value, hv, rfl⟩ := encodeRun_eq_ok hrun
    obtain ⟨hpos, hlt⟩ := hc run mem_cons_self
    rw [expand_cons, length_append, length_replicate] at hle
    have hfits : (values ++ replicate run.1 run.2).length + (expand runs).length ≤
        valueCount := by
      rw [length_append, length_replicate]
      omega
    have hrest := ih (fun r hr => hc r (mem_cons_of_mem _ hr))
      (fun r hr => ht r (mem_cons_of_mem _ hr)) hfits
    rw [append_assoc] at hrest
    apply (reads_runLength hlt).bind
    simp only [hpos.ne']
    apply (reads_cell (ht run mem_cons_self) hv).bind
    have hfits : ¬ valueCount < values.length + run.1 := by omega
    simp only [hfits]
    exact hrest

theorem reads_runsHeap (hbound : valueCount < 2 ^ 64) (hp : logicalType.Prefixed)
    (hc : Counted runs) (ht : ∀ run ∈ runs, run.2.logicalType = some logicalType)
    (h : runs.mapM encodeRun = .ok chunks) {produced : ℕ} (heap : ℕ)
    (hle : produced + (expand runs).length ≤ valueCount) :
    ∃ heap', Reads (runsHeap valueCount runs.length produced heap) chunks.flatten
      (produced + (expand runs).length, heap') := by
  have hf := mapM_eq_ok.mp h
  clear h
  induction hf generalizing produced heap with
  | nil => exact ⟨heap, pure _⟩
  | @cons run chunk runs chunks hrun _ ih =>
    obtain ⟨value, hv, rfl⟩ := encodeRun_eq_ok hrun
    obtain ⟨hpos, hlt⟩ := hc run mem_cons_self
    rw [expand_cons, length_append, length_replicate] at hle ⊢
    have hsum : saturate (produced + run.1) = produced + run.1 := by
      unfold saturate
      omega
    obtain ⟨heap', hrest⟩ := ih (fun r hr => hc r (mem_cons_of_mem _ hr))
      (fun r hr => ht r (mem_cons_of_mem _ hr))
      (saturate (heap + saturate (run.2.contents.length * run.1)))
      (show produced + run.1 + (expand runs).length ≤ valueCount by omega)
    refine ⟨heap', ?_⟩
    rw [← add_assoc]
    apply (reads_runLength hlt).bind
    have hfits : ¬ valueCount < produced + run.1 := by omega
    simp only [hpos.ne', hsum, hfits]
    exact (reads_contents hp (ht run mem_cons_self) hv).bind hrest

theorem decodes_runs (avx2 : Bool) (hbound : cells.length < 2 ^ 64) (ht : logicalType.Types cells)
    (h : encodeRuns cells = .ok out) :
    Decodes avx2 logicalType .runLength out cells := by
  obtain ⟨runs, hr, h⟩ := bind_eq_ok.mp h
  obtain ⟨field, chunks, hl, hc, rfl⟩ := each_eq_ok h
  obtain ⟨hcounted, hexpand⟩ := foldlM_pushRun_spec hr (fun _ h => absurd h not_mem_nil)
  obtain rfl : expand runs = cells := hexpand
  have htyped : ∀ run ∈ runs, run.2.logicalType = some logicalType := fun run hrun =>
    ht _ (mem_expand hcounted hrun)
  rw [← append_nil chunks.flatten]
  constructor
  · have hfits : ([] : List Cell).length + (expand runs).length ≤ (expand runs).length := by simp
    have hread := reads_runsFrom hcounted htyped hc hfits
    exact (reads_length hl).bind (hread.bind (by simpa using pure (expand runs)))
  · intro hp
    obtain ⟨heap, hread⟩ := reads_runsHeap hbound hp hcounted htyped hc 0 (by rw [zero_add])
    exact ⟨heap, (reads_length hl).bind (hread.bind (by simpa using pure heap))⟩

end Runs

section Integers

variable {cell : Cell} {value base : ℤ} {values : List ℤ}

theorem toU64_eq_some {v : UInt64} (h : toU64 value = some v) : (v.toNat : ℤ) = value := by
  unfold toU64 at h
  split at h
  · rename_i hbounds
    cases h
    rw [UInt64.toNat_ofNat_of_lt' (by change _ < 2 ^ 64; omega), Int.toNat_of_nonneg hbounds.1]
  · cases h

theorem toU64_toNat (v : UInt64) : toU64 (v.toNat : ℤ) = some v := by
  have hlt := v.toNat_lt
  rw [toU64, if_pos ⟨by omega, by omega⟩, Int.toNat_natCast, UInt64.ofNat_toNat]

theorem toI64_eq_some {v : Int64} (h : toI64 value = some v) : v.toInt = value := by
  unfold toI64 at h
  split at h
  · rename_i hbounds
    cases h
    exact Int64.toInt_ofInt_of_le (by simpa using hbounds.1) (by simpa using hbounds.2)
  · cases h

theorem toI64_toInt (v : Int64) : toI64 v.toInt = some v := by
  have hle := v.le_toInt
  have hlt := v.toInt_lt
  rw [toI64, if_pos ⟨by simpa using hle, by simpa using hlt⟩, Int64.ofInt_toInt]

theorem orLimit_eq_ok {α : Type} {x : Option α} {reason : String} {a : α}
    (h : orLimit x reason = .ok a) : x = some a := by
  cases x with
  | none => cases h
  | some b => exact congrArg some (Except.ok.inj h)

theorem integerValue_bounds :
    integerValue logicalType cell = .ok value → -2 ^ 63 ≤ value ∧ value < 2 ^ 64 := by
  fun_cases integerValue logicalType cell with
  | case1 => rintro ⟨⟩; split <;> norm_num
  | case2 v =>
    rintro ⟨⟩
    have hle := v.le_toInt
    have hlt := v.toInt_lt
    omega
  | case3 v =>
    rintro ⟨⟩
    have hlt := v.toNat_lt
    omega
  | case4 => nofun

theorem integerFromI128_integerValue :
    integerValue logicalType cell = .ok value → integerFromI128 logicalType value = .ok cell := by
  fun_cases integerValue logicalType cell with
  | case1 b => rintro ⟨⟩; cases b <;> rfl
  | case2 v => rintro ⟨⟩; rw [integerFromI128, toI64_toInt]; rfl
  | case3 v => rintro ⟨⟩; rw [integerFromI128, toU64_toNat]; rfl
  | case4 => nofun

theorem integerValues_eq_ok (h : integerValues logicalType cells = .ok values) :
    List.Forall₂ (fun cell value => integerValue logicalType cell = .ok value) cells values :=
  (mapM_eq_ok.mp h).imp fun _ _ hv => mapError_eq_ok.mp hv

theorem checkedAdd_sub {delta : UInt64} (h : toU64 (value - base) = some delta)
    (hvalue : -2 ^ 63 ≤ value ∧ value < 2 ^ 64) : checkedAdd base delta.toNat = some value := by
  have hdelta := toU64_eq_some h
  have hsum : base + (delta.toNat : ℤ) = value := by omega
  rw [checkedAdd, hsum, if_pos ⟨by omega, by omega⟩]

theorem reads_integerBase (h : encodeIntegerBase logicalType base = .ok out) :
    Reads (decodeIntegerBase logicalType) out base := by
  cases logicalType with
  | boolean =>
    simp only [encodeIntegerBase] at h
    split at h
    · rename_i hbounds
      cases h
      have hr := (reads_u8 (UInt8.ofNat base.toNat)).map
        (f := fun base => (base.toNat : ℤ))
      rwa [UInt8.toNat_ofNat_of_lt' (by change _ < 256; omega), Int.toNat_of_nonneg hbounds.1] at hr
    · cases h
  | int64 =>
    obtain ⟨v, hv, rfl⟩ := map_eq_ok.mp h
    have hr := (reads_i64 v).map (f := Int64.toInt)
    rwa [toI64_eq_some (orLimit_eq_ok hv)] at hr
  | uint64 =>
    obtain ⟨v, hv, rfl⟩ := map_eq_ok.mp h
    have hr := (reads_u64 v).map (f := fun base => (base.toNat : ℤ))
    rwa [toU64_eq_some (orLimit_eq_ok hv)] at hr
  | float64 | utf8 | binary | primaryKey => cases h

theorem reads_bitPacked (avx2 : Bool) (h : encodeBitPacked logicalType cells = .ok out) :
    Reads (decodeBitPacked avx2 logicalType cells.length) out cells := by
  obtain ⟨⟨base, normalized⟩, hn, h⟩ := bind_eq_ok.mp h
  obtain ⟨head, hh, h⟩ := bind_eq_ok.mp h
  obtain ⟨packed, hp, h⟩ := bind_eq_ok.mp h
  obtain rfl := pure_eq_ok.mp h
  obtain ⟨values, hv, hn⟩ := bind_eq_ok.mp hn
  obtain ⟨offsets, ho, hn⟩ := bind_eq_ok.mp hn
  obtain ⟨rfl, rfl⟩ := Prod.mk.inj (pure_eq_ok.mp hn)
  have hcells := integerValues_eq_ok hv
  have hoffsets := mapM_eq_ok.mp ho
  have hback : offsets.mapM (integerFromBase logicalType (values.min?.getD 0)) = .ok cells := by
    refine mapM_eq_ok.mpr (hcells.trans_of hoffsets fun {cell value offset} hc ho => ?_).flip
    change integerFromBase logicalType (values.min?.getD 0) offset = .ok cell
    rw [integerFromBase, checkedAdd_sub (orLimit_eq_ok ho) (integerValue_bounds hc)]
    exact integerFromI128_integerValue hc
  have hlen : offsets.length = cells.length := by
    rw [← hoffsets.length_eq, ← hcells.length_eq]
  exact (reads_integerBase hh).bind ((hlen ▸ reads_packed avx2 hp).andThen (lift hback))

theorem deltas_spec {steps : List UInt64} (h : deltas (value :: values) = .ok steps)
    (hcells : List.Forall₂ (fun cell value => integerValue logicalType cell = .ok value) cells
      values) : addDeltas logicalType value steps = .ok cells ∧ steps.length = cells.length := by
  induction hcells generalizing value steps with
  | nil =>
    cases h
    exact ⟨rfl, rfl⟩
  | @cons cell next cells values hc _ ih =>
    obtain ⟨delta, hd, h⟩ := bind_eq_ok.mp h
    obtain ⟨rest, hr, h⟩ := bind_eq_ok.mp h
    cases h
    obtain ⟨hrest, hlen⟩ := ih hr
    refine ⟨?_, by rw [length_cons, hlen, length_cons]⟩
    rw [addDeltas, checkedAdd_sub (orLimit_eq_ok hd) (integerValue_bounds hc)]
    change (integerFromI128 logicalType next >>= _) = _
    rw [integerFromI128_integerValue hc]
    rw [hrest]
    rfl

theorem reads_deltaBitPacked (avx2 : Bool) (ht : logicalType.Types cells)
    (h : encodeDeltaBitPacked logicalType cells = .ok out) :
    Reads (decodeDeltaBitPacked avx2 logicalType cells.length) out cells := by
  obtain ⟨first, hf, h⟩ := bind_eq_ok.mp h
  obtain ⟨head, hh, h⟩ := bind_eq_ok.mp h
  obtain ⟨values, hv, h⟩ := bind_eq_ok.mp h
  obtain ⟨steps, hs, h⟩ := bind_eq_ok.mp h
  obtain ⟨packed, hp, h⟩ := bind_eq_ok.mp h
  obtain rfl := pure_eq_ok.mp h
  have hfirst := orLimit_eq_ok hf
  cases cells with
  | nil => cases hfirst
  | cons cell cells =>
    obtain rfl := some.inj hfirst
    cases integerValues_eq_ok hv with
    | @cons _ value _ values hc hcells =>
      obtain ⟨hback, hlen⟩ := deltas_spec hs hcells
      have hpacked : Reads (unpack avx2 ((cell :: cells).length - 1)) packed steps := by
        rw [length_cons, ← hlen]
        exact reads_packed avx2 hp
      exact (reads_cell (ht cell mem_cons_self) hh).bind
        ((lift hc).bind (hpacked.andThen ((lift hback).andThen (pure _))))

end Integers

section Payloads

variable {encoding : Encoding}

theorem decodes_payload (avx2 : Bool) {encoding : Encoding} (hbound : cells.length < 2 ^ 64)
    (hwide : encoding ≠ .narrowDictionary) (ht : logicalType.Types cells)
    (h : encodePayload logicalType encoding cells = .ok out) :
    Decodes avx2 logicalType encoding out cells := by
  cases encoding with
  | plain =>
    obtain ⟨chunks, hc, rfl⟩ := map_eq_ok.mp h
    exact ⟨reads_cells ht hc, fun hp => ⟨_, (reads_contents_times hp ht hc).map⟩⟩
  | dictionary =>
    obtain ⟨laid⟩ := laid_of_encodeDictionary ht h
    exact laid.decodes avx2
  | runLength => exact decodes_runs avx2 hbound ht h
  | bitPacked =>
    refine ⟨reads_bitPacked avx2 h, fun hp => ?_⟩
    obtain ⟨⟨base, normalized⟩, -, h⟩ := bind_eq_ok.mp h
    obtain ⟨head, hh, -⟩ := bind_eq_ok.mp h
    rcases hp with rfl | rfl <;> cases hh
  | deltaBitPacked =>
    refine ⟨reads_deltaBitPacked avx2 ht h, fun hp => ?_⟩
    obtain ⟨first, hf, h⟩ := bind_eq_ok.mp h
    obtain ⟨head, -, h⟩ := bind_eq_ok.mp h
    obtain ⟨values, hv, -⟩ := bind_eq_ok.mp h
    obtain ⟨value, -, hc⟩ := (integerValues_eq_ok hv).exists_of_mem_left
      (mem_of_mem_head? (orLimit_eq_ok hf))
    rcases hp with rfl | rfl <;> cases hc
  | narrowDictionary => exact absurd rfl hwide

theorem decodedHeapUpperBound_ok {valueCount : ℕ}
    (h : logicalType.Prefixed → ∃ heap, Reads (textHeap encoding valueCount) out heap) :
    ∃ heap, decodedHeapUpperBound out logicalType encoding valueCount = .ok heap := by
  unfold decodedHeapUpperBound
  split
  · rename_i hp
    obtain ⟨heap, hheap⟩ := h hp
    exact ⟨heap, decodeAll_eq_ok hheap⟩
  · split
    · exact ⟨_, rfl⟩
    · exact ⟨_, rfl⟩

end Payloads

end Pintail.Blocks
