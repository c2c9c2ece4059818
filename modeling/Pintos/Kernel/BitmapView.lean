import Pintos.Kernel.Bitmap

/-!
The words of a `struct bitmap` seen as the list of their bits. `Bitmap.toBits` reads bit
`i` as `bitmap_test` does, through `elem_idx` and `bit_mask`, and it is a view of the words
(`isView_toBits`): setting or clearing a bit in the words sets or clears it in the list.
Every function above `bitmap_test` and `bitmap_set` commutes with a view (the `IsView`
lemmas, one per function), so what holds of the list of bits holds of the words:

* `bitmap_words_refine_bits`: each function on the words and on the list agree;
* `bitmap_scan_first_fit`: on the words, `bitmap_scan` returns the first group of `cnt` bits
  equal to `value` at or after `start`, and `bitmap_scan_and_flip` returns the same index and
  sets exactly the bits of that group to `!value`.
-/

namespace Pintos

/-! ## One bit of a word -/

theorem toBitVec_bitMask (i : Nat) : (bitMask i).toBitVec = BitVec.twoPow 32 (i % 32) := by
  have hi : i % 32 < 32 := Nat.mod_lt _ (by decide)
  unfold bitMask ELEM_BITS
  rw [UInt32.toBitVec_shiftLeft, BitVec.shiftLeft_eq']
  simp [BitVec.twoPow, Nat.mod_eq_of_lt hi]

/-- `w & bit_mask (j)` is nonzero exactly when bit `j % 32` of `w` is set. -/
theorem and_bitMask_ne_zero (w : UInt32) (j : Nat) :
    (w &&& bitMask j != 0) = w.toBitVec.getLsbD (j % 32) := by
  have hj : j % 32 < 32 := Nat.mod_lt _ (by decide)
  have hne : BitVec.twoPow 32 (j % 32) ≠ 0#32 := by
    intro h
    have := congrArg BitVec.toNat h
    rw [BitVec.toNat_twoPow, Nat.mod_eq_of_lt (Nat.pow_lt_pow_right (by decide) hj)] at this
    simp at this
  have hzero : ∀ x : UInt32, (x == 0) = decide (x.toBitVec = 0#32) := fun x => by
    rw [Bool.eq_iff_iff, beq_iff_eq, decide_eq_true_iff, ← UInt32.toBitVec_inj]
    rfl
  rw [bne, hzero, UInt32.toBitVec_and, toBitVec_bitMask, BitVec.and_twoPow]
  split <;> simp_all

/-- The `orl` of `bitmap_mark` sets its bit and no other. -/
theorem or_bitMask_and (w : UInt32) (i j : Nat) :
    ((w ||| bitMask i) &&& bitMask j != 0) =
      (w &&& bitMask j != 0 || decide (i % 32 = j % 32)) := by
  rw [and_bitMask_ne_zero, and_bitMask_ne_zero, UInt32.toBitVec_or, BitVec.getLsbD_or,
    toBitVec_bitMask, BitVec.getLsbD_twoPow]
  simp [Nat.mod_lt _ (show 0 < 32 by decide)]

/-- The `andl` of `bitmap_reset` clears its bit and no other. -/
theorem andNot_bitMask_and (w : UInt32) (i j : Nat) :
    ((w &&& ~~~bitMask i) &&& bitMask j != 0) =
      (w &&& bitMask j != 0 && !decide (i % 32 = j % 32)) := by
  rw [and_bitMask_ne_zero, and_bitMask_ne_zero, UInt32.toBitVec_and, BitVec.getLsbD_and,
    UInt32.toBitVec_not, BitVec.getLsbD_not, toBitVec_bitMask, BitVec.getLsbD_twoPow]
  simp [Nat.mod_lt _ (show 0 < 32 by decide)]

/-! ## The bits of the words -/

namespace Bitmap

/-- Two bits in one word are the same bit when they are at the same place in it. -/
theorem eq_of_elemIdx_eq {i j : Nat} (h : elemIdx i = elemIdx j) :
    decide (i % 32 = j % 32) = decide (j = i) := by
  unfold elemIdx ELEM_BITS at h
  exact decide_eq_decide.mpr ⟨fun hm => by omega, fun hji => by rw [hji]⟩

/-- A bit below `bit_cnt` lies in one of the bitmap's words. -/
theorem elemIdx_lt (b : Bitmap) {i : Nat} (hi : i < b.bitCnt) : elemIdx i < b.bits.length := by
  rw [b.length_bits]
  unfold elemIdx elemCnt ELEM_BITS
  omega

/-- Bit `j` after the word of bit `i` is changed by `f`, which changes bit `i % 32` of a word
by `g` and no other bit: the modified word is read through the same `getD` as any other, and
only bit `i` itself sits in it at the place `f` changes. -/
theorem read_modify (b : Bitmap) {i : Nat} (hi : i < b.bitCnt) (f : UInt32 → UInt32)
    (g : Bool → Bool → Bool)
    (hf : ∀ w j, (f w &&& bitMask j != 0) = g (w &&& bitMask j != 0) (decide (i % 32 = j % 32)))
    (hg : ∀ x, g x false = x) (j : Nat) :
    ((b.bits.modify (elemIdx i) f).getD (elemIdx j) 0 &&& bitMask j != 0) =
      g (BitArray.read b j) (decide (j = i)) := by
  show _ = g (b.bits.getD (elemIdx j) 0 &&& bitMask j != 0) _
  rw [List.getD_eq_getElem?_getD, List.getD_eq_getElem?_getD, List.getElem?_modify]
  by_cases hij : elemIdx i = elemIdx j
  · -- the word of bit `i`, which the bitmap has
    rw [← hij, List.getElem?_eq_getElem (b.elemIdx_lt hi)]
    simp only [Option.map_eq_map, Option.map_some, if_true, Option.getD_some]
    rw [hf, eq_of_elemIdx_eq hij]
  · have hne : decide (j = i) = false := decide_eq_false fun h => hij (by rw [h])
    rw [hne, hg]
    cases b.bits[elemIdx j]? <;> simp [hij]

/-- Bit `j` after `bitmap_mark (b, i)`: set when it is bit `i`, as before otherwise. -/
theorem read_mark (b : Bitmap) {i : Nat} (hi : i < b.bitCnt) (j : Nat) :
    BitArray.read (BitArray.mark b i) j = (BitArray.read b j || decide (j = i)) :=
  b.read_modify hi _ (· || ·) (fun w j => or_bitMask_and w i j) Bool.or_false j

theorem read_reset (b : Bitmap) {i : Nat} (hi : i < b.bitCnt) (j : Nat) :
    BitArray.read (BitArray.reset b i) j = (BitArray.read b j && !decide (j = i)) :=
  b.read_modify hi _ (fun x y => x && !y) (fun w j => andNot_bitMask_and w i j)
    (fun x => by rw [Bool.not_false, Bool.and_true]) j

/-- The bits of a bitmap, as `bitmap_test` reads them. -/
def toBits (b : Bitmap) : List Bool := (List.range b.bitCnt).map (BitArray.read b)

@[simp] theorem length_toBits (b : Bitmap) : b.toBits.length = b.bitCnt := by
  simp [toBits]

theorem getElem_toBits (b : Bitmap) {i : Nat} (hi : i < b.toBits.length) :
    b.toBits[i] = BitArray.read b i := by
  simp [toBits]

theorem read_toBits (b : Bitmap) {i : Nat} (hi : i < b.bitCnt) :
    BitArray.read b.toBits i = BitArray.read b i := by
  rw [read_list, getD_list _ (by simpa using hi), getElem_toBits]

/-- Marking or clearing a bit of the words and of their list agree, bit by bit. -/
theorem toBits_update (b b' : Bitmap) {i : Nat} (value : Bool) (hcnt : b'.bitCnt = b.bitCnt)
    (hread : ∀ j, BitArray.read b' j = if j = i then value else BitArray.read b j) :
    b'.toBits = b.toBits.set i value := by
  apply List.ext_getElem (by simp [hcnt])
  intro j h1 h2
  rw [getElem_toBits, List.getElem_set, hread, getElem_toBits]
  by_cases hji : j = i
  · rw [if_pos hji, if_pos hji.symm]
  · rw [if_neg hji, if_neg (Ne.symm hji)]

end Bitmap

/-! ## Views -/

section View

variable {σ τ : Type} [BitArray σ] [BitArray τ]

/-- `v` shows a bitmap's storage as another's: the same bits, and a bit set or cleared in
the one is set or cleared in the other. -/
structure IsView (v : σ → τ) : Prop where
  bitCnt_eq : ∀ b, BitArray.bitCnt (v b) = BitArray.bitCnt b
  read_eq : ∀ b i, i < BitArray.bitCnt b → BitArray.read (v b) i = BitArray.read b i
  mark_eq : ∀ b i, i < BitArray.bitCnt b → v (BitArray.mark b i) = BitArray.mark (v b) i
  reset_eq : ∀ b i, i < BitArray.bitCnt b → v (BitArray.reset b i) = BitArray.reset (v b) i

variable {v : σ → τ}

namespace IsView

theorem bitmapTest_view (hv : IsView v) (b : σ) (i : Nat) :
    bitmapTest (v b) i = bitmapTest b i := by
  unfold bitmapTest
  rw [hv.bitCnt_eq]
  split_ifs with h
  · rw [hv.read_eq b i h]
  · rfl

theorem map_bitmapSet (hv : IsView v) (b : σ) (i : Nat) (value : Bool) :
    (bitmapSet b i value).map v = bitmapSet (v b) i value := by
  unfold bitmapSet bitmapMark bitmapReset
  rw [hv.bitCnt_eq]
  by_cases h : i < BitArray.bitCnt b
  · rw [if_pos h, if_pos h]
    cases value
    · exact congrArg Except.ok (hv.reset_eq b i h)
    · exact congrArg Except.ok (hv.mark_eq b i h)
  · rw [if_neg h, if_neg h]
    rfl

/-- The loop of `bitmap_set_multiple`, a `bitmap_set` at a time. -/
theorem map_setLoop (hv : IsView v) (value : Bool) :
    ∀ (k : Nat) (b : σ) (idx : Nat), (setLoop value b idx k).map v = setLoop value (v b) idx k
  | 0, _, _ => rfl
  | k + 1, b, idx => by
    rw [setLoop, setLoop, ← hv.map_bitmapSet]
    cases bitmapSet b idx value with
    | error _ => rfl
    | ok b' => exact hv.map_setLoop value k b' _

theorem map_bitmapSetMultiple (hv : IsView v) (b : σ) (start cnt : Nat) (value : Bool) :
    (bitmapSetMultiple b start cnt value).map v = bitmapSetMultiple (v b) start cnt value := by
  unfold bitmapSetMultiple
  rw [hv.bitCnt_eq]
  split_ifs
  · exact hv.map_setLoop value cnt b start
  · rfl

/-- The loop of `bitmap_contains`, a `bitmap_test` at a time. -/
theorem containsLoop_view (hv : IsView v) (b : σ) (value : Bool) :
    ∀ (idx k : Nat), containsLoop (v b) value idx k = containsLoop b value idx k
  | _, 0 => rfl
  | idx, k + 1 => by
    simp only [containsLoop, hv.bitmapTest_view, hv.containsLoop_view b value _ k]

theorem bitmapContains_view (hv : IsView v) (b : σ) (start cnt : Nat) (value : Bool) :
    bitmapContains (v b) start cnt value = bitmapContains b start cnt value := by
  unfold bitmapContains
  rw [hv.bitCnt_eq, hv.containsLoop_view]

theorem bitmapAll_view (hv : IsView v) (b : σ) (start cnt : Nat) :
    bitmapAll (v b) start cnt = bitmapAll b start cnt := by
  rw [bitmapAll, bitmapAll, hv.bitmapContains_view]

/-- The loop of `bitmap_scan`, a `bitmap_contains` at a time. -/
theorem scanLoop_view (hv : IsView v) (b : σ) (cnt : Nat) (value : Bool) :
    ∀ (i k : Nat), scanLoop (v b) cnt value i k = scanLoop b cnt value i k
  | _, 0 => rfl
  | i, k + 1 => by
    simp only [scanLoop, hv.bitmapContains_view, hv.scanLoop_view b cnt value _ k]

theorem bitmapScan_view (hv : IsView v) (b : σ) (start cnt : Nat) (value : Bool) :
    bitmapScan (v b) start cnt value = bitmapScan b start cnt value := by
  unfold bitmapScan
  rw [hv.bitCnt_eq, hv.scanLoop_view]

theorem map_bitmapScanAndFlip (hv : IsView v) (b : σ) (start cnt : Nat) (value : Bool) :
    (bitmapScanAndFlip b start cnt value).map (Prod.map v id) =
      bitmapScanAndFlip (v b) start cnt value := by
  unfold bitmapScanAndFlip
  rw [hv.bitmapScan_view]
  cases bitmapScan b start cnt value with
  | error _ => rfl
  | ok idx =>
    simp only [Trace.ok_bind]
    split_ifs
    · rw [← hv.map_bitmapSetMultiple]
      cases bitmapSetMultiple b idx cnt (!value) <;> rfl
    · rfl

/-- A group of bits is a group of the view. -/
theorem fits_iff (hv : IsView v) (b : σ) (start cnt : Nat) (value : Bool) (i : Nat) :
    Fits (v b) start cnt value i ↔ Fits b start cnt value i := by
  unfold Fits
  rw [hv.bitCnt_eq]
  constructor
  · rintro ⟨hs, hin, hall⟩
    exact ⟨hs, hin, fun j hj => by rw [← hv.read_eq b _ (by omega)]; exact hall j hj⟩
  · rintro ⟨hs, hin, hall⟩
    exact ⟨hs, hin, fun j hj => by rw [hv.read_eq b _ (by omega)]; exact hall j hj⟩

end IsView

end View

/-- The list of bits is a view of the words. -/
theorem isView_toBits : IsView Bitmap.toBits where
  bitCnt_eq b := Bitmap.length_toBits b
  read_eq b _ hi := b.read_toBits hi
  mark_eq b i hi := Bitmap.toBits_update b (BitArray.mark b i) true rfl fun j => by
    rw [b.read_mark hi j]
    by_cases hji : j = i <;> simp [hji]
  reset_eq b i hi := Bitmap.toBits_update b (BitArray.reset b i) false rfl fun j => by
    rw [b.read_reset hi j]
    by_cases hji : j = i <;> simp [hji]

/-- Every function of `bitmap.c` does to the list of a bitmap's bits what it does to the
words: the bits after a call on the words are those the same call leaves in the list, and
the answers are the same. -/
theorem bitmap_words_refine_bits (b : Bitmap) (start cnt : Nat) (value : Bool) :
    bitmapTest b.toBits start = bitmapTest b start ∧
      (bitmapSet b start value).map Bitmap.toBits = bitmapSet b.toBits start value ∧
      (bitmapSetMultiple b start cnt value).map Bitmap.toBits =
        bitmapSetMultiple b.toBits start cnt value ∧
      bitmapContains b.toBits start cnt value = bitmapContains b start cnt value ∧
      bitmapAll b.toBits start cnt = bitmapAll b start cnt ∧
      bitmapScan b.toBits start cnt value = bitmapScan b start cnt value ∧
      (bitmapScanAndFlip b start cnt value).map (Prod.map Bitmap.toBits id) =
        bitmapScanAndFlip b.toBits start cnt value :=
  ⟨isView_toBits.bitmapTest_view b start, isView_toBits.map_bitmapSet b start value,
    isView_toBits.map_bitmapSetMultiple b start cnt value,
    isView_toBits.bitmapContains_view b start cnt value, isView_toBits.bitmapAll_view b start cnt,
    isView_toBits.bitmapScan_view b start cnt value,
    isView_toBits.map_bitmapScanAndFlip b start cnt value⟩

/-! ## First fit on the words -/

/-- On the words of a bitmap of fewer than `2 ^ 32` bits, `bitmap_scan` returns the least
index at or after `start` where `cnt` bits equal to `value` start inside the map, or
`BITMAP_ERROR` if there is none; `bitmap_scan_and_flip` returns the same index, sets the
bits of that group to `!value` and leaves every other bit as it was. -/
theorem bitmap_scan_first_fit (b : Bitmap) {start cnt : Nat} {value : Bool}
    (hlen : b.bitCnt < 2 ^ 32) (hstart : start ≤ b.bitCnt) :
    ∃ idx, bitmapScan b start cnt value = .ok idx ∧
      ((Fits b start cnt value idx ∧ ∀ i < idx, ¬Fits b start cnt value i) ∨
        (idx = BITMAP_ERROR ∧ ∀ i, ¬Fits b start cnt value i)) ∧
      ∃ b', bitmapScanAndFlip b start cnt value = .ok (b', idx) ∧ b'.bitCnt = b.bitCnt ∧
        ∀ i < b.bitCnt, BitArray.read b' i =
          if idx ≠ BITMAP_ERROR ∧ idx ≤ i ∧ i < idx + cnt then !value
          else BitArray.read b i := by
  have hv := isView_toBits
  -- the same results on the list of bits
  obtain ⟨idx, hscan, hspec, l', hflip, hlen', hbits⟩ :=
    @bitmapScanAndFlip_first_fit b.toBits start cnt value (by simpa using hlen)
      (by simpa using hstart)
  have hfits : ∀ i, Fits b.toBits start cnt value i ↔ Fits b start cnt value i :=
    hv.fits_iff b start cnt value
  refine ⟨idx, by rw [← hv.bitmapScan_view]; exact hscan, ?_, ?_⟩
  · simpa only [hfits] using hspec
  · -- the words after the flip are the ones whose view is the list after it
    rw [← hv.map_bitmapScanAndFlip] at hflip
    cases hwords : bitmapScanAndFlip b start cnt value with
    | error _ => rw [hwords] at hflip; cases hflip
    | ok r =>
      obtain ⟨b', idx'⟩ := r
      rw [hwords] at hflip
      obtain ⟨rfl, rfl⟩ := Prod.mk.inj (Except.ok.inj hflip)
      have hcnt : b'.bitCnt = b.bitCnt := by simpa using hlen'
      refine ⟨b', rfl, hcnt, fun i hi => ?_⟩
      have hl := hbits i
      rw [List.getElem?_eq_getElem (by simpa [hcnt] using hi),
        List.getElem?_eq_getElem (by simpa using hi), b'.getElem_toBits,
        b.getElem_toBits] at hl
      split_ifs at hl ⊢ <;> exact Option.some_inj.mp hl

/-- The scan for two clear bits in the words of a three-bit map whose first bit is set. -/
theorem bitmap_scan_first_fit_of_three :
    (⟨3, [1], rfl⟩ : Bitmap).bitCnt < 2 ^ 32 ∧ 0 ≤ (⟨3, [1], rfl⟩ : Bitmap).bitCnt ∧
    ∃ idx, bitmapScan (⟨3, [1], rfl⟩ : Bitmap) 0 2 false = .ok idx ∧
      ((Fits (⟨3, [1], rfl⟩ : Bitmap) 0 2 false idx ∧
          ∀ i < idx, ¬Fits (⟨3, [1], rfl⟩ : Bitmap) 0 2 false i) ∨
        (idx = BITMAP_ERROR ∧ ∀ i, ¬Fits (⟨3, [1], rfl⟩ : Bitmap) 0 2 false i)) ∧
      ∃ b', bitmapScanAndFlip (⟨3, [1], rfl⟩ : Bitmap) 0 2 false = .ok (b', idx) ∧
        b'.bitCnt = (⟨3, [1], rfl⟩ : Bitmap).bitCnt ∧
        ∀ i < (⟨3, [1], rfl⟩ : Bitmap).bitCnt, BitArray.read b' i =
          if idx ≠ BITMAP_ERROR ∧ idx ≤ i ∧ i < idx + 2 then !false
          else BitArray.read (⟨3, [1], rfl⟩ : Bitmap) i :=
  ⟨by decide, by decide, bitmap_scan_first_fit _ (by decide) (by decide)⟩

example : bitmapScan (⟨3, [1], rfl⟩ : Bitmap) 0 2 false = .ok 1 := by decide

end Pintos
