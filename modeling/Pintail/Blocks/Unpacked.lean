import Pintail.Blocks.BitPacking

/-! # Packed values are read back

Value `i` of a payload of `width`-bit values is the field of `width` bits from bit `i * width` on.
Each kernel reads that field through a window of its own, and the packer writes the value there, so
packing and unpacking are inverse for every width, count and processor.
-/

namespace Pintail.Blocks

open Bytes List Nat UInt64 Except

variable {width : ℕ} {bytes : List UInt8} {base : UInt64}

def unpacked (width : ℕ) (bytes : List UInt8) (start count : ℕ) : List UInt64 :=
  (range count).map fun i => ofNat (field bytes ((start + i) * width) width)

@[simp] theorem length_unpacked (start count : ℕ) :
    (unpacked width bytes start count).length = count := by
  simp [unpacked]

theorem unpacked_append (start m n : ℕ) :
    unpacked width bytes start m ++ unpacked width bytes (start + m) n =
      unpacked width bytes start (m + n) := by
  simp [unpacked, range_add, map_append, map_map, Function.comp_def, add_assoc]

theorem unpacked_drop {k start : ℕ} (h : start * width = 8 * k) (count : ℕ) :
    unpacked width (bytes.drop k) 0 count = unpacked width bytes start count := by
  apply map_congr_left
  intro i _
  rw [field_drop, ← h, zero_add, ← add_mul]

theorem take_unpacked {m n : ℕ} (start : ℕ) (h : m ≤ n) :
    (unpacked width bytes start n).take m = unpacked width bytes start m := by
  obtain ⟨k, rfl⟩ := Nat.exists_eq_add_of_le h
  rw [← unpacked_append, take_left' (length_unpacked start m)]

theorem drop_unpacked (start m n : ℕ) :
    (unpacked width bytes start n).drop m = unpacked width bytes (start + m) (n - m) := by
  rcases le_total m n with h | h
  · obtain ⟨k, rfl⟩ := Nat.exists_eq_add_of_le h
    rw [← unpacked_append, drop_left' (length_unpacked start m), Nat.add_sub_cancel_left]
  · rw [drop_eq_nil_of_le (by simpa using h), Nat.sub_eq_zero_of_le h]
    rfl

theorem flatMap_unpacked (size count : ℕ) :
    (range count).flatMap (fun i => unpacked width bytes (i * size) size) =
      unpacked width bytes 0 (count * size) := by
  induction count with
  | zero => simp [unpacked]
  | succ count ih =>
    have h := @unpacked_append width bytes 0 (count * size) size
    rw [zero_add] at h
    rw [range_succ, flatMap_append, ih, flatMap_singleton, h, ← succ_mul]

@[simp] theorem unpacked_zero_width (start count : ℕ) :
    unpacked 0 bytes start count = replicate count 0 := by
  rw [eq_replicate_iff]
  refine ⟨length_unpacked start count, fun v hv => ?_⟩
  obtain ⟨i, -, rfl⟩ := mem_map.mp hv
  simp [field, mod_one]

theorem toNat_widthMask (h : width ≤ 64) : (widthMask width).toNat = 2 ^ width - 1 := by
  interval_cases width <;> rfl

theorem ofNat_and_widthMask (h : width ≤ 64) (n : ℕ) :
    ofNat n &&& widthMask width = ofNat (n % 2 ^ width) := by
  have hdvd : 2 ^ width ∣ 2 ^ 64 := pow_dvd_pow 2 h
  apply UInt64.toNat_inj.mp
  rw [UInt64.toNat_and, toNat_widthMask h, and_two_pow_sub_one_eq_mod, toNat_ofNat',
    mod_mod_of_dvd _ hdvd]
  exact (mod_eq_of_lt ((mod_lt n (by positivity)).trans_le
    (Nat.pow_le_pow_right (by norm_num) h))).symm

theorem toNat_word (h : bytes.length ≤ 8) : (word bytes).toNat = leNat bytes := by
  refine toNat_ofNat_of_lt' ((leNat_lt bytes).trans_le ?_)
  calc 256 ^ bytes.length ≤ 256 ^ 8 := Nat.pow_le_pow_right (by norm_num) h
    _ = UInt64.size := rfl

theorem word_shiftRight {shift : ℕ} (h : bytes.length ≤ 8) (hs : shift < 64) :
    word bytes >>> ofNat shift = ofNat (leNat bytes / 2 ^ shift) := by
  have hshift : (ofNat shift).toNat % 64 = shift := by
    rw [toNat_ofNat_of_lt' (hs.trans (by decide)), mod_eq_of_lt hs]
  have hlt : leNat bytes / 2 ^ shift < UInt64.size :=
    (div_le_self _ _).trans_lt (toNat_word h ▸ (word bytes).toNat_lt)
  apply UInt64.toNat_inj.mp
  rw [UInt64.toNat_shiftRight, hshift, toNat_word h, shiftRight_eq_div_pow, toNat_ofNat_of_lt' hlt]

theorem word_field {shift : ℕ} (hw : width ≤ 64) (h : bytes.length ≤ 8) (hs : shift < 64) :
    word bytes >>> ofNat shift &&& widthMask width = ofNat (field bytes shift width) := by
  rw [word_shiftRight h hs, ofNat_and_widthMask hw, field]

theorem field_padded (size start : ℕ) (h : start + width ≤ 8 * size) :
    field (padded size bytes) start width = field bytes start width := by
  rw [padded, field_append_zeros, field_take h]

section Kernels

theorem unpackPortable_eq (hw : width ≤ 64) (count : ℕ) :
    unpackPortable width bytes base count = (unpacked width bytes 0 count).map (base + ·) := by
  unfold unpackPortable
  split
  · rename_i h
    subst h
    rw [unpacked_zero_width, map_replicate, add_zero]
  · rw [unpacked, map_map]
    apply map_congr_left
    intro i _
    have hbit : 8 * (i * width / 8) + i * width % 8 = i * width := div_add_mod _ 8
    have hread : i * width % 8 + width ≤ 8 * 16 := by omega
    have hfield := @field_padded width (bytes.drop (i * width / 8)) 16 _ hread
    rw [add_comm, shiftRight_eq_div_pow, ofNat_and_widthMask hw]
    change base + ofNat (field _ _ _) = base + ofNat (field _ ((0 + i) * _) _)
    rw [hfield, field_drop, hbit, zero_add]

variable {lane : List UInt8}

theorem take_drop_shuffles {pair half : ℕ} (hh : half < 2) :
    ((shuffleEpi8 lane (shuffles width pair)).drop (half * 8)).take 8 =
      shuffleEpi8 lane
        ((range 8).map fun byte => UInt8.ofNat (within width pair half / 8 + byte)) := by
  interval_cases half <;> rfl

theorem shuffleEpi8_window (hl : lane.length = 16) {s : ℕ} (hs : s ≤ 8) :
    shuffleEpi8 lane ((range 8).map fun byte => UInt8.ofNat (s + byte)) = (lane.drop s).take 8 := by
  apply ext_getElem (by simp [shuffleEpi8]; omega)
  intro k hk hk'
  have hk8 : k < 8 := by simpa [shuffleEpi8] using hk
  have hsum : s + k < 16 := by omega
  have hsmall : UInt8.ofNat (s + k) < 128 := by
    interval_cases s + k <;> decide
  have hto : (UInt8.ofNat (s + k)).toNat % 16 = s + k := by
    interval_cases s + k <;> rfl
  simp only [shuffleEpi8, getElem_map, getElem_range, hsmall, if_true, hto,
    getElem_take, getElem_drop]
  rw [getD_eq_getElem?_getD, getElem?_eq_getElem (by omega), Option.getD_some]

variable {window : List UInt8} {count index : ℕ}

theorem length_lane (hl : window.length = 64) {offset : ℕ} (h : offset ≤ 48) :
    ((window.drop offset).take 16).length = 16 := by
  simp; omega

theorem within_bounds (hw : width ≤ avx2Widest) (pair half : ℕ) (hh : half < 2) :
    within width pair half ≤ 64 := by
  have hhalf : half * width ≤ 1 * width := mul_le_mul_right _ (by omega)
  unfold within avx2Widest at *
  omega

theorem within_eq (width pair half : ℕ) :
    8 * (pair * 2 * width / 8) + within width pair half = (pair * 2 + half) * width := by
  rw [within, add_mul]
  omega

theorem lane_field (hl : lane.length = 16) (hw : width ≤ avx2Widest) {s : ℕ} (hs : s ≤ 64) :
    word (shuffleEpi8 lane ((range 8).map fun byte => UInt8.ofNat (s / 8 + byte))) >>>
        ofNat (s % 8) &&& widthMask width =
      ofNat (field lane s width) := by
  unfold avx2Widest at hw
  rw [shuffleEpi8_window hl (by omega), word_field (by omega) (length_take_le _ _) (by omega),
    field_window (by omega), div_add_mod]

theorem pairOf_eq (hl : window.length = 64) (hw : width ≤ avx2Widest) {pair : ℕ} (hp : pair < 4) :
    pairOf width base window pair = (unpacked width window (pair * 2) 2).map (base + ·) := by
  have hoffset : pair * 2 * width / 8 ≤ 48 := by
    have : pair * 2 * width ≤ 6 * 57 := Nat.mul_le_mul (by omega) hw
    omega
  rw [unpacked, map_map]
  apply map_congr_left
  intro half hhalf
  rw [mem_range] at hhalf
  have hbound := within_bounds hw pair half hhalf
  have hfits : within width pair half + width ≤ 8 * 16 := by
    unfold avx2Widest at hw
    omega
  rw [add_comm, take_drop_shuffles hhalf, lane_field (length_lane hl hoffset) hw hbound,
    field_window hfits, within_eq]
  rfl

theorem run_eq (hl : window.length = 64) (hw : width ≤ avx2Widest) :
    (range 4).flatMap (pairOf width base window) = (unpacked width window 0 8).map (base + ·) := by
  refine flatMap_congr fun pair hp => pairOf_eq hl hw (mem_range.mp hp)

theorem flatMap_take_unpacked (count n : ℕ) :
    (range n).flatMap (fun i => (unpacked width bytes (i * 8) 8).take (count - i * 8)) =
      unpacked width bytes 0 (min (n * 8) count) := by
  induction n with
  | zero => simp [unpacked]
  | succ n ih =>
    rw [range_succ, flatMap_append, ih, flatMap_singleton]
    rcases le_total (n * 8) count with h | h
    · have htake : (unpacked width bytes (n * 8) 8).take (count - n * 8) =
          unpacked width bytes (0 + n * 8) (min 8 (count - n * 8)) := by
        rw [zero_add, ← take_unpacked (n * 8) (min_le_left 8 (count - n * 8))]
        rcases le_total 8 (count - n * 8) with h8 | h8
        · rw [min_eq_left h8, take_of_length_le (by simpa using h8), take_of_length_le (by simp)]
        · rw [min_eq_right h8]
      rw [htake, min_eq_left h, unpacked_append]
      congr 1
      omega
    · rw [Nat.sub_eq_zero_of_le h, take_zero, append_nil, min_eq_right h, min_eq_right (by omega)]

theorem length_padded (size : ℕ) : (padded size bytes).length = size := by
  simp [padded]; omega

theorem direct_window
    (h : index < directRuns width bytes count) : 64 ≤ (bytes.drop (index * width)).length := by
  unfold directRuns at h
  split at h
  · have hindex : index ≤ (bytes.length - 64) / width := by
      omega
    have hmul : index * width ≤ bytes.length - 64 :=
      (mul_le_mul_right width hindex).trans (div_mul_le_self _ _)
    rw [length_drop]
    omega
  · omega

theorem unpacked_window (hw : width ≤ avx2Widest)
    (h : ∀ s w, s + w ≤ 8 * 64 → field window s w = field (bytes.drop (index * width)) s w) :
    unpacked width window 0 8 = unpacked width bytes (index * 8) 8 := by
  apply map_congr_left
  intro i hi
  have hi8 : i + 1 ≤ 8 := mem_range.mp hi
  have hfit : (0 + i) * width + width ≤ 8 * 64 := by
    calc (0 + i) * width + width = (i + 1) * width := by ring
      _ ≤ 8 * 57 := Nat.mul_le_mul hi8 hw
      _ ≤ 8 * 64 := by norm_num
  rw [h _ _ hfit, field_drop]
  congr 2
  ring

theorem unpackAvx2_eq (hw : width ≤ avx2Widest) (count : ℕ) :
    unpackAvx2 width bytes base count = (unpacked width bytes 0 count).map (base + ·) := by
  have hcount : min ((count + 7) / 8 * 8) count = count := by omega
  have hruns := @flatMap_take_unpacked width bytes count ((count + 7) / 8)
  rw [hcount] at hruns
  rw [← hruns, map_flatMap]
  apply flatMap_congr
  intro index _
  rw [map_take]
  dsimp only
  congr 1
  split
  · rename_i hdirect
    have hlen := direct_window hdirect
    rw [run_eq (length_take_of_le hlen) hw]
    exact congrArg _ (unpacked_window hw fun s w h => field_take h)
  · rw [run_eq (length_padded 64) hw]
    exact congrArg _ (unpacked_window hw fun s w h => field_padded 64 s h)

theorem check_eq_ok (hw : width ≤ 64) (h : count * width ≤ 8 * bytes.length) :
    check width bytes count = .ok () := by
  have hneeded : bytesFor (count * width) ≤ bytes.length := by unfold bytesFor; omega
  rw [check, if_neg (by omega), if_neg (by omega)]

theorem unpackU64_eq (avx2 : Bool) (hw : width ≤ 64) (h : count * width ≤ 8 * bytes.length) :
    unpackU64 avx2 width bytes base count =
      .ok ((unpacked width bytes 0 count).map (base + ·)) := by
  rw [unpackU64, check_eq_ok hw h]
  split
  · rw [unpackPortable_eq hw]
    rfl
  · split
    · rw [unpackPortable_eq hw]
      rfl
    · rw [unpackAvx2_eq (by omega)]
      rfl

end Kernels

theorem unpackWholeChunked_eq {kernel : List UInt8 → ℕ → Except String (List UInt64)}
    (hkernel : ∀ bytes count, count * width ≤ 8 * bytes.length →
      kernel bytes count = .ok ((unpacked width bytes 0 count).map (base + ·)))
    {chunk valueCount done : ℕ}
    (hchunk : 0 < chunk) (h8 : 8 ∣ chunk) (hlen : valueCount * width ≤ 8 * bytes.length)
    (hdone : 8 ∣ done ∨ done = valueCount) (hle : done ≤ valueCount) :
    unpackWholeChunked kernel chunk width bytes valueCount done =
      .ok ((unpacked width bytes done (valueCount - done)).map (base + ·)) := by
  fun_induction unpackWholeChunked kernel chunk width bytes valueCount done with
  | case1 done hlt held ih =>
    obtain ⟨k, rfl⟩ : 8 ∣ done := hdone.resolve_right (by omega)
    have hstart : 8 * k * width / 8 = k * width := by
      rw [mul_assoc, Nat.mul_div_cancel_left _ (by norm_num)]
    have hfits : held * width ≤ 8 * (bytes.drop (8 * k * width / 8)).length := by
      have hsum : held * width + 8 * k * width ≤ valueCount * width := by
        rw [← add_mul]
        exact mul_le_mul_right width (by omega)
      rw [length_drop]
      omega
    have hnext : 8 ∣ 8 * k + held ∨ 8 * k + held = valueCount := by
      rcases le_total chunk (valueCount - 8 * k) with h | h
      · rw [show held = chunk from min_eq_right h]
        exact .inl (dvd_add (dvd_mul_right 8 k) h8)
      · exact .inr (by omega)
    have hjoin : held + (valueCount - (8 * k + held)) = valueCount - 8 * k := by omega
    rw [hkernel _ _ hfits, ih hnext (by omega), hstart,
      unpacked_drop (show 8 * k * width = 8 * (k * width) by ring) held]
    change ok _ = _
    rw [← map_append, unpacked_append, hjoin]
  | case2 done hlt =>
    rw [show valueCount - done = 0 by omega]
    rfl

theorem unpackWhole_eq (avx2 : Bool) (hw : width ≤ 64) {valueCount : ℕ}
    (h : valueCount * width ≤ 8 * bytes.length) :
    unpackWhole (fun bytes => unpackU64 avx2 width bytes base) width bytes valueCount =
      .ok ((unpacked width bytes 0 valueCount).map (base + ·)) := by
  have hkernel (bytes : List UInt8) (count : ℕ) (hc : count * width ≤ 8 * bytes.length) :=
    @unpackU64_eq width bytes base _ avx2 hw hc
  unfold unpackWhole
  split
  all_goals
    exact unpackWholeChunked_eq hkernel (by decide) (by decide) h (.inl (dvd_zero 8))
      (zero_le _)

theorem unpackGroupsVectored_eq (avx2 : Bool) (hw : width ≤ 64) {groups : ℕ}
    (h : groups * group * width ≤ 8 * bytes.length) :
    unpackGroupsVectored avx2 width bytes groups =
      .ok (unpacked width bytes 0 (groups * group)) := by
  unfold unpackGroupsVectored
  split
  · rename_i hone
    subst hone
    exact (unpackU64_eq avx2 hw h).trans (by simp)
  · exact (unpackWholeChunked_eq (fun bytes count hc => unpackU64_eq avx2 hw hc) (by decide)
      (by decide) h (.inl (dvd_zero 8)) (zero_le _)).trans (by simp)

theorem value_le (width : ℕ) {value : ℕ} (h : value ∈ range group) :
    value * width + width ≤ 8 * (width * 8) := by
  have h64 : value + 1 ≤ 64 := mem_range.mp h
  calc value * width + width = (value + 1) * width := by ring
    _ ≤ 64 * width := mul_le_mul_right width h64
    _ = 8 * (width * 8) := by ring

theorem unpackNarrowGroup_eq (hw : width ≤ 32) (index : ℕ) :
    unpackNarrowGroup width bytes index = unpacked width bytes (index * group) group := by
  set rest := bytes.drop (index * (width * 8)) with hrest
  set window := if width * 8 + 8 ≤ rest.length then rest.take (width * 8 + 8)
    else rest.take (width * 8) ++ replicate 8 0 with hwindow
  have hfield (s : ℕ) (hs : s + width ≤ 8 * (width * 8)) :
      field window s width = field rest s width := by
    rw [hwindow]
    split
    · exact field_take (by omega)
    · rw [field_append_zeros, field_take hs]
  apply map_congr_left
  intro value hvalue
  have hbit : 8 * (value / 8 * width + value % 8 * width / 8) + value % 8 * width % 8 =
      value * width := by
    have hdiv := div_add_mod (value % 8 * width) 8
    calc 8 * (value / 8 * width + value % 8 * width / 8) + value % 8 * width % 8
        = 8 * (value / 8) * width + (8 * (value % 8 * width / 8) + value % 8 * width % 8) := by ring
      _ = 8 * (value / 8) * width + value % 8 * width := by rw [hdiv]
      _ = value * width := by rw [← add_mul, div_add_mod]
  have hlast := value_le width hvalue
  rw [word_field (by omega) (length_take_le _ _) (by omega), field_window (by omega), hbit,
    hfield _ hlast, field_drop]
  congr 2
  unfold group
  ring

theorem testBit_word (i k : ℕ) :
    (word ((bytes.drop (i * 8)).take 8)).toNat.testBit k =
      (decide (k < 64) && (leNat bytes).testBit (64 * i + k)) := by
  rw [toNat_word (length_take_le _ _), leNat_take, leNat_drop, testBit_mod_two_pow,
    testBit_div_two_pow]
  congr 2
  ring

theorem testBit_shifted_left {value : UInt64} {shift k : ℕ} (hs : shift < 64) (hk : k < 64) :
    ((value <<< 1) <<< ofNat (63 - shift)).toNat.testBit k =
      (decide (64 ≤ k + shift) && value.toNat.testBit (k + shift - 64)) := by
  have hto : (ofNat (63 - shift)).toNat % 64 = 63 - shift := by
    rw [toNat_ofNat_of_lt' (by change _ < 2 ^ 64; omega), mod_eq_of_lt (by omega)]
  rw [UInt64.toNat_shiftLeft, hto, UInt64.toNat_shiftLeft, testBit_mod_two_pow,
    testBit_shiftLeft, testBit_mod_two_pow]
  have h64 : k - (63 - shift) < 64 := by omega
  by_cases h : 64 ≤ k + shift
  · have h1 : k ≥ 63 - shift := by omega
    have h2 : k - (63 - shift) ≥ 1 := by omega
    have h3 : k - (63 - shift) - 1 = k + shift - 64 := by omega
    simp [hk, h, h1, h2, h64, h3]
  · have h2 : ¬ (k ≥ 63 - shift ∧ k - (63 - shift) ≥ 1) := by omega
    by_cases h1 : k ≥ 63 - shift
    · have : ¬ k - (63 - shift) ≥ 1 := fun h' => h2 ⟨h1, h'⟩
      simp [h, this]
    · simp [h, h1]

theorem two_words_field (hw : width ≤ 64) (i : ℕ) {shift : ℕ} (hs : shift < 64) :
    (word ((bytes.drop (i * 8)).take 8) >>> ofNat shift |||
        (word ((bytes.drop ((i + 1) * 8)).take 8) <<< 1) <<< ofNat (63 - shift)) &&&
        widthMask width =
      ofNat (field bytes (64 * i + shift) width) := by
  have hto : (ofNat shift).toNat % 64 = shift := by
    rw [toNat_ofNat_of_lt' (by change _ < 2 ^ 64; omega), mod_eq_of_lt hs]
  have hlt : field bytes (64 * i + shift) width < UInt64.size :=
    (field_lt _ _ _).trans_le (Nat.pow_le_pow_right (by norm_num) hw)
  apply UInt64.toNat_inj.mp
  rw [UInt64.toNat_and, toNat_widthMask hw, and_two_pow_sub_one_eq_mod, toNat_ofNat_of_lt' hlt]
  apply eq_of_testBit_eq
  intro k
  rw [testBit_mod_two_pow, testBit_field]
  by_cases hk : k < width
  · rw [UInt64.toNat_or, testBit_or, testBit_shifted_left hs (by omega), testBit_word,
      UInt64.toNat_shiftRight, hto, testBit_shiftRight, testBit_word]
    by_cases h : 64 ≤ k + shift
    · have h1 : ¬ shift + k < 64 := by omega
      have h2 : k + shift - 64 < 64 := by omega
      have h3 : 64 * (i + 1) + (k + shift - 64) = 64 * i + shift + k := by omega
      simp [h, h1, h2, h3]
    · have h1 : shift + k < 64 := by omega
      simp [h, h1, add_assoc]
  · simp [hk]

theorem unpackWideGroup_eq (hw : width ≤ 64) (index : ℕ) :
    unpackWideGroup width bytes index = unpacked width bytes (index * group) group := by
  unfold unpackWideGroup
  set chunk := (bytes.drop (index * (width * 8))).take (width * 8) with hchunk
  have hword (i : ℕ) : ((range width).map fun i => word ((chunk.drop (i * 8)).take 8)).getD i 0
      = word ((chunk.drop (i * 8)).take 8) := by
    rw [getD_eq_getElem?_getD]
    by_cases hi : i < width
    · simp [getElem?_range hi]
    · have hnil : chunk.drop (i * 8) = [] := by
        refine drop_eq_nil_of_le ((length_take_le _ _).trans ?_)
        exact Nat.mul_le_mul_right 8 (Nat.le_of_not_lt hi)
      rw [getElem?_eq_none (by simpa using Nat.le_of_not_lt hi), hnil]
      rfl
  apply map_congr_left
  intro value hvalue
  have hbit : 64 * (value * width / 64) + value * width % 64 = value * width :=
    div_add_mod _ 64
  have hlast := value_le width hvalue
  simp only [hword]
  rw [two_words_field hw _ (mod_lt _ (by norm_num)), hbit, field_window hlast]
  congr 2
  unfold group
  ring

theorem unpackWholeGroups_eq (avx2 : Bool) (hw : width ≤ 64) {groups : ℕ}
    (h : groups * group * width ≤ 8 * bytes.length) :
    unpackWholeGroups avx2 width bytes groups = .ok (unpacked width bytes 0 (groups * group)) := by
  unfold unpackWholeGroups
  split
  · exact unpackGroupsVectored_eq avx2 hw h
  · split
    · rename_i hzero
      subst hzero
      rw [unpacked_zero_width]
      rfl
    · rw [← flatMap_unpacked]
      split
      · rename_i hnarrow
        exact congrArg ok
          (flatMap_congr fun index _ => unpackNarrowGroup_eq hnarrow index)
      · exact congrArg ok
          (flatMap_congr fun index _ => unpackWideGroup_eq hw index)

namespace BitReader

/-- The live bits and the bytes ahead are what is left after `consumed` bits of the payload. -/
structure At (reader : BitReader) (bytes : List UInt8) (consumed : ℕ) : Prop where
  lt : reader.accumulator < 2 ^ reader.liveBits
  left : reader.accumulator + 2 ^ reader.liveBits * leNat (reader.bytes.drop reader.cursor) =
    leNat bytes / 2 ^ consumed

variable {reader : BitReader} {consumed : ℕ}

theorem at_new (bytes : List UInt8) : (new bytes).At bytes 0 where
  lt := by simp [new]
  left := by simp [new]

theorem At.load (h : reader.At bytes consumed) {size : ℕ}
    (hlive : reader.liveBits + 8 * size ≤ 128) : (reader.load size).At bytes consumed := by
  set loaded := leNat ((reader.bytes.drop reader.cursor).take size) with hloaded
  have hlt : loaded < 2 ^ (8 * size) := by
    rw [hloaded, leNat_take]
    exact mod_lt _ (by positivity)
  have hshift : loaded <<< reader.liveBits = 2 ^ reader.liveBits * loaded := by
    rw [shiftLeft_eq, mul_comm]
  have hfits : 2 ^ reader.liveBits * loaded < 2 ^ 128 := by
    calc 2 ^ reader.liveBits * loaded < 2 ^ reader.liveBits * 2 ^ (8 * size) :=
          mul_lt_mul_of_pos_left hlt (by positivity)
      _ = 2 ^ (reader.liveBits + 8 * size) := (pow_add ..).symm
      _ ≤ 2 ^ 128 := Nat.pow_le_pow_right (by norm_num) hlive
  have hacc : (reader.load size).accumulator =
      2 ^ reader.liveBits * loaded + reader.accumulator := by
    rw [BitReader.load, hshift, Nat.mod_eq_of_lt hfits, Nat.or_comm, two_pow_add_eq_or_of_lt h.lt]
  constructor
  · rw [hacc, show (reader.load size).liveBits = reader.liveBits + 8 * size from rfl, pow_add]
    calc 2 ^ reader.liveBits * loaded + reader.accumulator
        < 2 ^ reader.liveBits * loaded + 2 ^ reader.liveBits := Nat.add_lt_add_left h.lt _
      _ = 2 ^ reader.liveBits * (loaded + 1) := by ring
      _ ≤ 2 ^ reader.liveBits * 2 ^ (8 * size) := mul_le_mul_left _ hlt
  · have hrest : leNat (reader.bytes.drop (reader.cursor + size)) =
        leNat (reader.bytes.drop reader.cursor) / 2 ^ (8 * size) := by
      rw [← drop_drop, leNat_drop]
    have hsplit := mod_add_div (leNat (reader.bytes.drop reader.cursor)) (2 ^ (8 * size))
    rw [← leNat_take] at hsplit
    rw [← h.left, hacc, show (reader.load size).liveBits = reader.liveBits + 8 * size from rfl,
      show (reader.load size).bytes.drop (reader.load size).cursor =
        reader.bytes.drop (reader.cursor + size) from rfl, hrest]
    conv_rhs => rw [← hsplit]
    ring

theorem At.fill (hw : width ≤ 64) (h : reader.At bytes consumed) :
    (reader.fill width).At bytes consumed ∧
      (width ≤ (reader.fill width).liveBits ∨
        (reader.fill width).bytes.drop (reader.fill width).cursor = []) := by
  fun_induction BitReader.fill width reader with
  | case1 reader hlive _ ih => exact ih (h.load (by omega))
  | case2 reader hlive _ _ ih => exact ih (h.load (by omega))
  | case3 reader _ _ hend => exact ⟨h, .inr (drop_eq_nil_of_le (by omega))⟩
  | case4 reader hlive => exact ⟨h, .inl (by omega)⟩

/-- Where `width` bits are live, or the live bits are all that is left, taking `width` bits leaves
the bytes ahead alone. -/
theorem take_bits {acc live ahead : ℕ} (hacc : acc < 2 ^ live) (h : width ≤ live ∨ ahead = 0) :
    (acc + 2 ^ live * ahead) % 2 ^ width = acc % 2 ^ width ∧
      (acc + 2 ^ live * ahead) / 2 ^ width = acc / 2 ^ width + 2 ^ (live - width) * ahead ∧
      acc / 2 ^ width < 2 ^ (live - width) := by
  refine ⟨?_, ?_, Nat.div_lt_of_lt_mul (hacc.trans_le ?_)⟩
  · rcases h with h | rfl
    · obtain ⟨spare, rfl⟩ := Nat.exists_eq_add_of_le h
      rw [pow_add, mul_assoc, add_mul_mod_self_left]
    · simp
  · rcases h with h | rfl
    · obtain ⟨spare, rfl⟩ := Nat.exists_eq_add_of_le h
      rw [pow_add, mul_assoc, Nat.add_mul_div_left _ _ (by positivity), Nat.add_sub_cancel_left]
    · simp
  · rw [← pow_add]
    exact Nat.pow_le_pow_right (by norm_num) (by omega)

theorem At.read (hw : width ≤ 64) (h : reader.At bytes consumed) :
    (reader.read width).1 = ofNat (field bytes consumed width) ∧
      (reader.read width).2.At bytes (consumed + width) := by
  obtain ⟨hfill, hbits⟩ := h.fill hw
  obtain ⟨hvalue, hrest, hlt⟩ := take_bits hfill.lt (hbits.imp_right (congrArg leNat))
  rw [hfill.left] at hvalue hrest
  refine ⟨?_, ?_, ?_⟩
  · rw [BitReader.read, ofNat_and_widthMask hw, ← hvalue, field]
  · rw [BitReader.read, shiftRight_eq_div_pow]
    exact hlt
  · rw [BitReader.read, Nat.shiftRight_eq_div_pow, pow_add, ← Nat.div_div_eq_div_mul, hrest]

theorem At.readTimes (hw : width ≤ 64) {start : ℕ} (h : reader.At bytes (start * width))
    (count : ℕ) : reader.readTimes width count = unpacked width bytes start count := by
  induction count generalizing reader start with
  | zero => rfl
  | succ count ih =>
    obtain ⟨hvalue, hnext⟩ := h.read hw
    rw [← succ_mul] at hnext
    rw [readTimes, ih hnext, add_comm count 1, ← unpacked_append, hvalue]
    rfl

end BitReader

section Unpacking

variable (avx2 : Bool) {valueCount : ℕ}

theorem forEachUnpackedGroup_eq (hw : width ≤ 64) (h : valueCount * width ≤ 8 * bytes.length) :
    forEachUnpackedGroup avx2 width bytes valueCount = .ok (unpacked width bytes 0 valueCount) := by
  set whole := valueCount / group * group with hwhole
  have hle : whole ≤ valueCount := div_mul_le_self _ _
  have hgroups : unpackWholeGroups avx2 width bytes (valueCount / group) =
      .ok (unpacked width bytes 0 whole) :=
    unpackWholeGroups_eq avx2 hw ((mul_le_mul_right width hle).trans h)
  have hconsumed : whole * width = 8 * (whole * width / 8) := by
    have h8 : 8 ∣ whole * width :=
      (Dvd.dvd.mul_left (by decide : 8 ∣ group) _).mul_right _
    exact (Nat.mul_div_cancel' h8).symm
  have hrest : (BitReader.new (bytes.drop (whole * width / 8))).readTimes width
      (valueCount - whole) = unpacked width bytes whole (valueCount - whole) := by
    have hat := BitReader.at_new (bytes.drop (whole * width / 8))
    rw [← zero_mul width] at hat
    rw [hat.readTimes hw, unpacked_drop hconsumed]
  rw [forEachUnpackedGroup, hgroups]
  change ok (_ ++ (BitReader.new (bytes.drop (whole * width / 8))).readTimes width
    (valueCount - whole)) = _
  have hjoin := @unpacked_append width bytes 0 whole (valueCount - whole)
  rw [zero_add, Nat.add_sub_cancel' hle] at hjoin
  rw [hrest, hjoin]

theorem unpackValues_eq (hw : width ≤ 64) (h : valueCount * width ≤ 8 * bytes.length) :
    unpackValues avx2 width bytes valueCount = .ok (unpacked width bytes 0 valueCount) := by
  unfold unpackValues
  split
  · exact (unpackWhole_eq avx2 hw h).trans (by simp)
  · exact forEachUnpackedGroup_eq avx2 hw h

end Unpacking

section Packing

variable {values : List UInt64} {k : ℕ}

theorem toNat_one_shiftLeft_uint64 (hk : k < 64) : ((1 : UInt64) <<< ofNat k).toNat = 2 ^ k := by
  interval_cases k <;> rfl

theorem and_one_shiftLeft_ne_zero (value : UInt64) (hk : k < 64) :
    value &&& (1 <<< ofNat k) ≠ 0 ↔ value.toNat.testBit k = true := by
  rw [ne_eq, ← UInt64.toNat_inj, UInt64.toNat_and, toNat_one_shiftLeft_uint64 hk, and_two_pow]
  cases value.toNat.testBit k <;> simp

def packedPositions (values : List UInt64) (width : ℕ) : List ℕ :=
  values.zipIdx.flatMap fun entry =>
    ((range width).filter fun bit => entry.1 &&& (1 <<< ofNat bit) ≠ 0).map fun bit =>
      entry.2 * width + bit

variable {out : List UInt8}

theorem pack_eq_ok {width : UInt8} (h : pack values width = .ok out) :
    values.length * width.toNat < 2 ^ 64 ∧
      out = (packedPositions values width.toNat).foldl mark
        (replicate (bytesFor (values.length * width.toNat)) 0) := by
  unfold pack at h
  dsimp only at h
  split at h
  · rename_i hbits
    refine ⟨hbits, ?_⟩
    cases h
    rw [packedPositions, foldl_flatMap]
    simp [foldl_map, foldl_filter]
  · cases h

theorem mul_add_inj {w i j b c : ℕ} (hb : b < w) (hc : c < w) (h : i * w + b = j * w + c) :
    i = j ∧ b = c := by
  have hw : 0 < w := by omega
  rw [add_comm, mul_comm, add_comm (j * w), mul_comm j] at h
  obtain ⟨hi, hb⟩ := (Nat.div_mod_unique hw).mpr ⟨h, hb⟩
  obtain ⟨hj, hc⟩ := (Nat.div_mod_unique hw).mpr ⟨rfl, hc⟩
  exact ⟨hi.symm.trans hj, hb.symm.trans hc⟩

theorem mem_packedPositions (hw : width ≤ 64) {i b : ℕ} (hi : i < values.length) (hb : b < width) :
    i * width + b ∈ packedPositions values width ↔ (values[i]).toNat.testBit b = true := by
  simp only [packedPositions, mem_flatMap, mem_map, mem_filter, mem_range,
    decide_eq_true_eq, Prod.exists, mem_zipIdx_iff_getElem?]
  constructor
  · rintro ⟨value, j, hvalue, c, ⟨hc, hbit⟩, hpos⟩
    obtain ⟨rfl, rfl⟩ := mul_add_inj hc hb hpos
    rw [getElem?_eq_getElem hi] at hvalue
    cases hvalue
    exact (and_one_shiftLeft_ne_zero _ (hc.trans_le hw)).mp hbit
  · intro hbit
    exact ⟨values[i], i, getElem?_eq_getElem hi, b,
      ⟨hb, (and_one_shiftLeft_ne_zero _ (hb.trans_le hw)).mpr hbit⟩, rfl⟩

theorem lt_of_mem_packedPositions {p : ℕ} (h : p ∈ packedPositions values width) :
    p < values.length * width := by
  simp only [packedPositions, mem_flatMap, mem_map, mem_filter, mem_range,
    Prod.exists, mem_zipIdx_iff_getElem?] at h
  obtain ⟨value, j, hvalue, c, ⟨hc, -⟩, rfl⟩ := h
  have hj : j < values.length := (List.getElem?_eq_some_iff.mp hvalue).1
  calc j * width + c < j * width + width := Nat.add_lt_add_left hc _
    _ = (j + 1) * width := (succ_mul j width).symm
    _ ≤ values.length * width := mul_le_mul_right width hj

theorem unpacked_pack {width : UInt8} (hw : width.toNat ≤ 64)
    (hfits : ∀ value ∈ values, value.toNat < 2 ^ width.toNat) (h : pack values width = .ok out) :
    unpacked width.toNat out 0 values.length = values := by
  obtain ⟨-, rfl⟩ := pack_eq_ok h
  apply ext_getElem (by simp)
  intro i hi hi'
  have hmem (p : ℕ) (hp : p ∈ packedPositions values width.toNat) :
      p < 8 * (replicate (bytesFor (values.length * width.toNat)) (0 : UInt8)).length := by
    have := lt_of_mem_packedPositions hp
    rw [length_replicate, bytesFor]
    omega
  simp only [unpacked, getElem_map, getElem_range, zero_add]
  conv_rhs => rw [← UInt64.ofNat_toNat (x := values[i])]
  congr 1
  apply eq_of_testBit_eq
  intro b
  rw [testBit_field, testBit_leNat_foldl_mark hmem, leNat_zeros, zero_testBit, Bool.false_or]
  by_cases hb : b < width.toNat
  · rw [decide_eq_true hb, Bool.true_and, Bool.eq_iff_iff, decide_eq_true_eq,
      mem_packedPositions hw hi' hb]
  · have hlt : (values[i]).toNat < 2 ^ b :=
      (hfits _ (getElem_mem hi')).trans_le
        (Nat.pow_le_pow_right (by norm_num) (Nat.le_of_not_lt hb))
    rw [decide_eq_false hb, Bool.false_and, testBit_lt_two_pow hlt]

theorem length_pack {width : UInt8} (h : pack values width = .ok out) :
    out.length = bytesFor (values.length * width.toNat) := by
  obtain ⟨-, rfl⟩ := pack_eq_ok h
  simp

theorem bit_length_le (value : UInt64) : 64 - leadingZeros value ≤ 64 := sub_le _ _

theorem lt_two_pow_bit_length (value : UInt64) : value.toNat < 2 ^ (64 - leadingZeros value) := by
  unfold leadingZeros
  split
  · rename_i h
    subst h
    decide
  · rename_i h
    have hne : value.toNat ≠ 0 := fun h0 => h (UInt64.toNat_inj.mp h0)
    have hlog : value.toNat.log2 < 64 := (log2_lt hne).mpr value.toNat_lt
    calc value.toNat < 2 ^ (value.toNat.log2 + 1) := lt_log2_self
      _ = 2 ^ (64 - (63 - value.toNat.log2)) := by congr 1; omega

theorem toNat_packedWidth (values : List UInt64) :
    (packedWidth values).toNat = 64 - leadingZeros (values.max?.getD 0) := by
  rw [packedWidth, UInt8.toNat_ofNat_of_lt' (by change _ < 256; omega)]

theorem lt_two_pow_packedWidth {value : UInt64} (h : value ∈ values) :
    value.toNat < 2 ^ (packedWidth values).toNat := by
  obtain ⟨maximum, hmax⟩ := Option.isSome_iff_exists.mp
    (isSome_max?_of_mem h)
  have hle : value ≤ maximum := (max?_eq_some_iff.mp hmax).2 value h
  rw [toNat_packedWidth, hmax]
  exact (le_iff_toNat_le.mp hle).trans_lt (lt_two_pow_bit_length maximum)

theorem reads_packed (avx2 : Bool) (h : encodePacked values = .ok out) :
    Reads (unpack avx2 values.length) out values := by
  obtain ⟨packed, hp, h⟩ := bind_eq_ok.mp h
  obtain ⟨framed, hf, h⟩ := bind_eq_ok.mp h
  cases h
  set width := packedWidth values with hwidth
  have hw : width.toNat ≤ 64 := by
    rw [toNat_packedWidth]
    exact bit_length_le _
  have hbits := (pack_eq_ok hp).1
  have hlen := length_pack hp
  have hvalues : unpackValues avx2 width.toNat packed values.length = .ok values := by
    rw [unpackValues_eq avx2 hw (by rw [hlen, bytesFor]; omega),
      unpacked_pack hw (fun value hv => lt_two_pow_packedWidth hv) hp]
  have hheader : Reads (unpackHeader values.length) (width :: framed) (width.toNat, packed) := by
    have hsmall : ¬ 64 < width := by
      exact not_lt.mpr hw
    apply (Decoder.reads_u8 width).bind
    simp only [hsmall]
    apply (Decoder.reads_bytes hf).andThen
    simp only [not_le.mpr hbits, hlen, ne_eq]
    exact Reads.pure _
  exact hheader.andThen (Reads.lift hvalues)

end Packing

end Pintail.Blocks
