import Pintos.Devices.Block
import Pintos.Lib.CInt
import Pintos.Lib.Trace

/-!
The bitmap of `lib/kernel/bitmap.c`. From the outside a bitmap is `bit_cnt` bits; inside,
bit `i` is bit `i % ELEM_BITS` of the word `i / ELEM_BITS` of `bits`. Only `bitmap_test`,
`bitmap_mark` and `bitmap_reset` touch the words, and every other function reaches the
bits through `bitmap_test` and `bitmap_set`. `BitArray` is what those three functions use:
the words of `struct bitmap` are one instance (`Bitmap`), and the list of the bits, which
the free map and the page allocator keep, is another. The functions above them are written
once, for any `BitArray`, with the `ASSERT`s of each; `BitmapView` proves the list the image
of the words under every one of them.

On the list of bits:

* `bitmapSetMultiple_eq`: `bitmap_set_multiple` sets exactly the bits of its range;
* `bitmapContains_eq`: `bitmap_contains` answers whether a bit of the range has the value;
* `bitmapScan_found`: a group that `bitmap_scan` returns lies at or after `start`, inside
  the bitmap, with every bit equal to `value`;
* `bitmapScanAndFlip_eq_ok`: what `bitmap_scan_and_flip` leaves behind, found or not;
* `bitmapScan_first_fit`: the group `bitmap_scan` returns is the first one.

Indices are `size_t`: the model reduces `start + i` modulo `2^32` where the C code adds,
and the lemmas assume `bit_cnt < 2^32`, which a `size_t` count always is.
-/

namespace Pintos

/-- `BITMAP_ERROR`, that is `SIZE_MAX`. -/
def BITMAP_ERROR : Nat := 2 ^ 32 - 1

/-! ## The words -/

/-- `ELEM_BITS`: `elem_type` is `unsigned long`, 32 bits on the 80x86. -/
def ELEM_BITS : Nat := 32

/-- `elem_idx (bit_idx)`: the word that holds a bit. -/
def elemIdx (bitIdx : Nat) : Nat := bitIdx / ELEM_BITS

/-- `bit_mask (bit_idx)`: the bit within its word. -/
def bitMask (bitIdx : Nat) : UInt32 := 1 <<< (bitIdx % ELEM_BITS).toUInt32

/-- `elem_cnt`: words of 32 bits for `bit_cnt` bits. -/
def elemCnt (bitCnt : Nat) : Nat := (bitCnt + 31) / 32

/-- `byte_cnt`, the size of the free map file. -/
def byteCnt (bitCnt : Nat) : Nat := 4 * elemCnt bitCnt

/-- `struct bitmap`: `bit_cnt` bits in the `elem_cnt (bit_cnt)` words of `bits`. -/
structure Bitmap where
  bitCnt : Nat
  bits : List UInt32
  length_bits : bits.length = elemCnt bitCnt

/-- What `bitmap_test`, `bitmap_mark` and `bitmap_reset` do to a bitmap's storage: the
number of bits, and one bit read, set or cleared. -/
class BitArray (σ : Type) where
  bitCnt : σ → Nat
  read : σ → Nat → Bool
  mark : σ → Nat → σ
  reset : σ → Nat → σ

/-- The words: `(b->bits[elem_idx (idx)] & bit_mask (idx)) != 0` reads a bit, the `orl` of
`bitmap_mark` sets it and the `andl` of `bitmap_reset` clears it. A word past the array is
memory the bitmap does not own; the model leaves it alone. -/
instance : BitArray Bitmap where
  bitCnt b := b.bitCnt
  read b idx := b.bits.getD (elemIdx idx) 0 &&& bitMask idx != 0
  mark b idx := ⟨b.bitCnt, b.bits.modify (elemIdx idx) (· ||| bitMask idx), by
    rw [List.length_modify, b.length_bits]⟩
  reset b idx := ⟨b.bitCnt, b.bits.modify (elemIdx idx) (· &&& ~~~bitMask idx), by
    rw [List.length_modify, b.length_bits]⟩

/-- The list of a bitmap's bits. -/
instance : BitArray (List Bool) where
  bitCnt b := b.length
  read b idx := b.getD idx false
  mark b idx := b.set idx true
  reset b idx := b.set idx false

/-! ## The functions -/

section Functions

variable {σ : Type} [BitArray σ]

/-- `bitmap_mark`, which writes its word without checking the index. -/
def bitmapMark (b : σ) (bitIdx : Nat) : σ := BitArray.mark b bitIdx

/-- `bitmap_reset`, which writes its word without checking the index. -/
def bitmapReset (b : σ) (bitIdx : Nat) : σ := BitArray.reset b bitIdx

def bitmapTest (b : σ) (idx : Nat) : Except Fault Bool :=
  if idx < BitArray.bitCnt b then pure (BitArray.read b idx) else throw (.assert .bitIndex)

def bitmapSet (b : σ) (idx : Nat) (value : Bool) : Except Fault σ :=
  if idx < BitArray.bitCnt b then pure (if value then bitmapMark b idx else bitmapReset b idx)
  else throw (.assert .bitIndex)

/-- The loop of `bitmap_set_multiple`, from bit `idx`, `k` bits to go. -/
def setLoop (value : Bool) : σ → Nat → Nat → Except Fault σ
  | b, _, 0 => pure b
  | b, idx, k + 1 => do
    let b ← bitmapSet b idx value
    setLoop value b (CInt.u32 (idx + 1)) k

def bitmapSetMultiple (b : σ) (start cnt : Nat) (value : Bool) : Except Fault σ :=
  if start ≤ BitArray.bitCnt b ∧ CInt.u32 (start + cnt) ≤ BitArray.bitCnt b then
    setLoop value b start cnt
  else throw (.assert .bitRange)

/-- The loop of `bitmap_contains`, from bit `idx`, `k` bits to go. -/
def containsLoop (b : σ) (value : Bool) : Nat → Nat → Except Fault Bool
  | _, 0 => pure false
  | idx, k + 1 => do
    let v ← bitmapTest b idx
    if v = value then pure true else containsLoop b value (CInt.u32 (idx + 1)) k

def bitmapContains (b : σ) (start cnt : Nat) (value : Bool) : Except Fault Bool :=
  if start ≤ BitArray.bitCnt b ∧ CInt.u32 (start + cnt) ≤ BitArray.bitCnt b then
    containsLoop b value start cnt
  else throw (.assert .bitRange)

def bitmapAll (b : σ) (start cnt : Nat) : Except Fault Bool := do
  let c ← bitmapContains b start cnt false
  pure !c

/-- The loop `for (i = start; i <= last; i++)` of `bitmap_scan`, `k` rounds to go. -/
def scanLoop (b : σ) (cnt : Nat) (value : Bool) : Nat → Nat → Except Fault Nat
  | _, 0 => pure BITMAP_ERROR
  | i, k + 1 => do
    let c ← bitmapContains b i cnt (!value)
    if c then scanLoop b cnt value (i + 1) k else pure i

def bitmapScan (b : σ) (start cnt : Nat) (value : Bool) : Except Fault Nat :=
  if start ≤ BitArray.bitCnt b then
    -- `last = bit_cnt - cnt`; the loop runs for `i = start .. last`
    if cnt ≤ BitArray.bitCnt b then
      scanLoop b cnt value start (BitArray.bitCnt b - cnt + 1 - start)
    else pure BITMAP_ERROR
  else throw (.assert .bitRange)

def bitmapScanAndFlip (b : σ) (start cnt : Nat) (value : Bool) : Except Fault (σ × Nat) := do
  let idx ← bitmapScan b start cnt value
  if idx ≠ BITMAP_ERROR then
    let b ← bitmapSetMultiple b idx cnt (!value)
    pure (b, idx)
  else pure (b, idx)

/-- A group of `cnt` bits at `i` that `bitmap_scan` looks for: at or after `start`, inside
the map, every bit equal to `value`. -/
def Fits (b : σ) (start cnt : Nat) (value : Bool) (i : Nat) : Prop :=
  start ≤ i ∧ i + cnt ≤ BitArray.bitCnt b ∧ ∀ j < cnt, BitArray.read b (i + j) = value

instance (b : σ) (start cnt : Nat) (value : Bool) (i : Nat) :
    Decidable (Fits b start cnt value i) := by
  unfold Fits
  infer_instance

end Functions

/-- The bits of `bitmap_create (bit_cnt)`: `bitmap_set_all (b, false)` clears each one. -/
def bitmapCreate (bitCnt : Nat) : List Bool := List.replicate bitCnt false

/-- Byte `k` of `b->bits`: bit `i` of the map is bit `i % 8` of byte `i / 8` on a
little-endian machine. Bits past `bit_cnt` are never set by the code; the model reads
them as `0`. -/
def bitmapByte (b : List Bool) (k : Nat) : UInt8 :=
  ((List.range 8).map fun t => if b.getD (8 * k + t) false then 2 ^ t else 0).sum.toUInt8

/-! ## The list of bits -/

section List

variable (b : List Bool)

@[simp] theorem bitCnt_list : BitArray.bitCnt b = b.length := rfl

@[simp] theorem read_list (idx : Nat) : BitArray.read b idx = b.getD idx false := rfl

theorem getD_list {n : Nat} (h : n < b.length) : b.getD n false = b[n] := by
  rw [List.getD_eq_getElem?_getD, List.getElem?_eq_getElem h]
  rfl

theorem bitmapTest_list {idx : Nat} (h : idx < b.length) : bitmapTest b idx = .ok b[idx] := by
  rw [bitmapTest, bitCnt_list, if_pos h, read_list, getD_list b h]
  rfl

theorem read_list_eq_iff {n : Nat} (h : n < b.length) (value : Bool) :
    BitArray.read b n = value ↔ b[n]? = some value := by
  rw [read_list, getD_list b h, List.getElem?_eq_getElem h, Option.some_inj]

theorem bitmapSet_list {idx : Nat} (value : Bool) (h : idx < b.length) :
    bitmapSet b idx value = .ok (b.set idx value) := by
  rw [bitmapSet, bitCnt_list, if_pos h]
  cases value <;> rfl

end List

/-! ## What each function does -/

/-- The bits `start .. start + cnt - 1` set to `value`. -/
def setRange (b : List Bool) (start cnt : Nat) (value : Bool) : List Bool :=
  b.mapIdx fun i x => if start ≤ i ∧ i < start + cnt then value else x

@[simp] theorem length_setRange (b : List Bool) (start cnt : Nat) (value : Bool) :
    (setRange b start cnt value).length = b.length := by
  simp [setRange]

theorem getElem?_setRange (b : List Bool) (start cnt : Nat) (value : Bool) (i : Nat) :
    (setRange b start cnt value)[i]? =
      if start ≤ i ∧ i < start + cnt then b[i]?.map fun _ => value else b[i]? := by
  unfold setRange
  rw [List.getElem?_mapIdx]
  split <;> cases b[i]? <;> simp_all

theorem setRange_succ (b : List Bool) (idx k : Nat) (value : Bool) (hidx : idx < b.length) :
    setRange (b.set idx value) (idx + 1) k value = setRange b idx (k + 1) value := by
  apply List.ext_getElem?
  intro i
  rw [getElem?_setRange, getElem?_setRange, List.getElem?_set]
  by_cases hi : i = idx
  · subst hi
    simp [hidx]
  · have hne : idx ≠ i := Ne.symm hi
    by_cases hr : idx + 1 ≤ i ∧ i < idx + 1 + k
    · rw [if_neg hne, if_pos hr, if_pos ⟨by omega, by omega⟩]
    · rw [if_neg hne, if_neg hr, if_neg (by omega)]

theorem setLoop_eq (value : Bool) :
    ∀ (k : Nat) (b : List Bool) (idx : Nat), idx + k ≤ b.length → b.length < 2 ^ 32 →
      setLoop value b idx k = .ok (setRange b idx k value)
  | 0, b, idx, _, _ => by
    have hid : setRange b idx 0 value = b := by
      apply List.ext_getElem?
      intro i
      rw [getElem?_setRange, if_neg (by omega)]
    rw [hid]
    rfl
  | k + 1, b, idx, hk, hlen => by
    have hset := bitmapSet_list b value (show idx < b.length by omega)
    have hnext : CInt.u32 ((idx + 1 : Nat) : Int) = idx + 1 := CInt.u32_nat (by omega)
    simp only [setLoop, hset, bind, Except.bind]
    rw [show ((idx : Int) + 1) = ((idx + 1 : Nat) : Int) by push_cast; rfl, hnext,
      setLoop_eq value k (b.set idx value) (idx + 1) (by simp; omega) (by simpa using hlen),
      setRange_succ b idx k value (by omega)]

theorem bitmapSetMultiple_eq {b : List Bool} {start cnt : Nat} (value : Bool)
    (hr : start + cnt ≤ b.length) (hlen : b.length < 2 ^ 32) :
    bitmapSetMultiple b start cnt value = .ok (setRange b start cnt value) := by
  have hu : CInt.u32 ((start + cnt : Nat) : Int) = start + cnt := CInt.u32_nat (by omega)
  rw [bitmapSetMultiple, bitCnt_list, if_pos ⟨by omega, by push_cast at hu; omega⟩]
  exact setLoop_eq value cnt b start hr hlen

theorem containsLoop_eq (b : List Bool) (value : Bool) (hlen : b.length < 2 ^ 32) :
    ∀ (k idx : Nat), idx + k ≤ b.length →
      containsLoop b value idx k = .ok (decide (∃ i < k, b[idx + i]? = some value))
  | 0, idx, _ => by simp [containsLoop]
  | k + 1, idx, hk => by
    have htest := bitmapTest_list b (show idx < b.length by omega)
    have hnext : CInt.u32 ((idx + 1 : Nat) : Int) = idx + 1 := CInt.u32_nat (by omega)
    simp only [containsLoop, htest, bind, Except.bind]
    by_cases hv : b[idx] = value
    · simp only [hv, if_true]
      congr 1
      exact (decide_eq_true ⟨0, by omega, by rw [Nat.add_zero, List.getElem?_eq_getElem (by omega), hv]⟩).symm
    · simp only [hv, if_false]
      rw [show ((idx : Int) + 1) = ((idx + 1 : Nat) : Int) by push_cast; rfl, hnext,
        containsLoop_eq b value hlen k (idx + 1) (by omega)]
      congr 1
      apply decide_eq_decide.mpr
      constructor
      · rintro ⟨i, hi, hb⟩
        exact ⟨i + 1, by omega, by rw [← hb]; congr 1; omega⟩
      · rintro ⟨i, hi, hb⟩
        cases i with
        | zero =>
          rw [Nat.add_zero, List.getElem?_eq_getElem (by omega)] at hb
          exact absurd (Option.some_inj.mp hb) hv
        | succ i => exact ⟨i, by omega, by rw [← hb]; congr 1; omega⟩

theorem bitmapContains_eq {b : List Bool} {start cnt : Nat} (value : Bool)
    (hr : start + cnt ≤ b.length) (hlen : b.length < 2 ^ 32) :
    bitmapContains b start cnt value =
      .ok (decide (∃ i < cnt, b[start + i]? = some value)) := by
  have hu : CInt.u32 ((start + cnt : Nat) : Int) = start + cnt := CInt.u32_nat (by omega)
  rw [bitmapContains, bitCnt_list, if_pos ⟨by omega, by push_cast at hu; omega⟩]
  exact containsLoop_eq b value hlen cnt start hr

theorem scanLoop_found (b : List Bool) (cnt : Nat) (value : Bool) (hlen : b.length < 2 ^ 32) :
    ∀ (k i idx : Nat), k ≤ b.length - cnt + 1 - i → cnt ≤ b.length →
      scanLoop b cnt value i k = .ok idx → idx ≠ BITMAP_ERROR →
      i ≤ idx ∧ idx + cnt ≤ b.length ∧ ∀ j < cnt, b[idx + j]? = some value
  | 0, i, idx, _, _, h, hne => by
    simp only [scanLoop, Trace.pure_eq_ok] at h
    exact absurd h.symm hne
  | k + 1, i, idx, hk, hcnt, h, hne => by
    obtain ⟨c, hc, h⟩ := Trace.bind_eq_ok h
    rw [bitmapContains_eq (!value) (by omega) hlen] at hc
    cases c with
    | true =>
      obtain ⟨hi, hrest, hall⟩ := scanLoop_found b cnt value hlen k (i + 1) idx (by omega) hcnt h hne
      exact ⟨by omega, hrest, hall⟩
    | false =>
      simp only [Bool.false_eq_true, ↓reduceIte, Trace.pure_eq_ok] at h
      subst h
      have hnone := of_decide_eq_false (Except.ok.inj hc)
      refine ⟨le_rfl, by omega, fun j hj => ?_⟩
      have hj' : i + j < b.length := by omega
      have hb : b[i + j]? ≠ some !value := fun hv => hnone ⟨j, hj, hv⟩
      rw [List.getElem?_eq_getElem hj'] at hb ⊢
      cases hb' : b[i + j] <;> cases value <;> simp_all

theorem bitmapScan_found {b : List Bool} {start cnt idx : Nat} {value : Bool}
    (hlen : b.length < 2 ^ 32) (h : bitmapScan b start cnt value = .ok idx)
    (hne : idx ≠ BITMAP_ERROR) :
    start ≤ idx ∧ idx + cnt ≤ b.length ∧ ∀ j < cnt, b[idx + j]? = some value := by
  rw [bitmapScan, bitCnt_list] at h
  split at h
  · split at h
    · exact scanLoop_found b cnt value hlen _ start idx le_rfl ‹_› h hne
    · exact absurd (Trace.pure_eq_ok.mp h).symm hne
  · cases h

/-- `bitmap_scan_and_flip` either finds a group, all `value`, and flips exactly it, or
finds none and leaves the map alone. -/
theorem bitmapScanAndFlip_eq_ok {b b' : List Bool} {start cnt idx : Nat} {value : Bool}
    (hlen : b.length < 2 ^ 32) (h : bitmapScanAndFlip b start cnt value = .ok (b', idx)) :
    (idx = BITMAP_ERROR ∧ b' = b) ∨
      (idx ≠ BITMAP_ERROR ∧ start ≤ idx ∧ idx + cnt ≤ b.length ∧
        (∀ j < cnt, b[idx + j]? = some value) ∧ b' = setRange b idx cnt (!value)) := by
  obtain ⟨i, hscan, h⟩ := Trace.bind_eq_ok h
  by_cases hne : i = BITMAP_ERROR
  · simp only [hne, ne_eq, not_true_eq_false, if_false, Trace.pure_eq_ok, Prod.mk.injEq] at h
    exact .inl ⟨h.2.symm, h.1.symm⟩
  · obtain ⟨hstart, hr, hall⟩ := bitmapScan_found hlen hscan hne
    simp only [ne_eq, hne, not_false_eq_true, if_true, bitmapSetMultiple_eq (!value) hr hlen] at h
    obtain ⟨rfl, rfl⟩ := Prod.mk.inj (Trace.pure_eq_ok.mp h)
    exact .inr ⟨hne, hstart, hr, hall, rfl⟩

/-! ## A one-pass scan

`scanLoop` asks `bitmap_contains` about every candidate group, and each question indexes
the list from its head again: evaluated in the kernel on a map that many flips have
layered, a run of allocations costs far more than the single walk the C loop makes. The
lemmas below prove the scan equal to a walk down the list that the concrete runs of the
file system evaluate instead. -/

/-- Whether the list starts with `cnt` bits, all equal to `value`. -/
def runAt (value : Bool) : Nat → List Bool → Bool
  | 0, _ => true
  | _ + 1, [] => false
  | n + 1, x :: xs => x == value && runAt value n xs

/-- The first position, counted from `i`, where `cnt` bits equal to `value` start in `l`,
or `BITMAP_ERROR`. -/
def scanRun (cnt : Nat) (value : Bool) : List Bool → Nat → Nat
  | [], i => if runAt value cnt [] then i else BITMAP_ERROR
  | x :: xs, i => if runAt value cnt (x :: xs) then i else scanRun cnt value xs (i + 1)

theorem runAt_iff (value : Bool) :
    ∀ (cnt : Nat) (l : List Bool), runAt value cnt l = true ↔ ∀ j < cnt, l[j]? = some value
  | 0, _ => by simp [runAt]
  | n + 1, [] => by
    simp only [runAt, Bool.false_eq_true, false_iff, not_forall]
    exact ⟨0, Nat.succ_pos n, by simp⟩
  | n + 1, x :: xs => by
    rw [Nat.forall_lt_succ_left]
    simp [runAt, runAt_iff value n xs]

/-- A list shorter than the group has no place for it. -/
theorem scanRun_short (cnt : Nat) (value : Bool) :
    ∀ (l : List Bool) (i : Nat), l.length < cnt → scanRun cnt value l i = BITMAP_ERROR
  | [], i, h => by
    have : runAt value cnt [] = false := by
      cases cnt with
      | zero => omega
      | succ n => rfl
    simp only [scanRun, this, Bool.false_eq_true, if_false]
  | x :: xs, i, h => by
    have : runAt value cnt (x :: xs) = false := by
      rw [← Bool.not_eq_true, runAt_iff]
      intro hall
      have := hall (x :: xs).length h
      simp at this
    simp only [scanRun, this, Bool.false_eq_true, if_false]
    exact scanRun_short cnt value xs (i + 1) (by simp at h; omega)

/-- Each round of `scanLoop` is one step of the walk: the group at `i` is all `value`
exactly when `bitmap_contains` finds no `!value` in it. -/
theorem scanLoop_eq_scanRun (b : List Bool) (cnt : Nat) (value : Bool) (hlen : b.length < 2 ^ 32) :
    ∀ (k i : Nat), i + k = b.length - cnt + 1 → i ≤ b.length → cnt ≤ b.length →
      scanLoop b cnt value i k = .ok (scanRun cnt value (b.drop i) i)
  | 0, i, hk, hi, hcnt => by
    rw [scanRun_short cnt value _ i (by simp; omega)]
    rfl
  | k + 1, i, hk, hi, hcnt => by
    have hc := @bitmapContains_eq b i cnt (!value) (by omega) hlen
    -- the group at `i` is all `value` exactly when it has no `!value`
    have hrun : runAt value cnt (b.drop i) = true ↔ ¬ ∃ j < cnt, b[i + j]? = some !value := by
      rw [runAt_iff]
      simp only [List.getElem?_drop]
      constructor
      · rintro hall ⟨j, hj, hb⟩
        rw [hall j hj] at hb
        cases value <;> simp at hb
      · intro hno j hj
        obtain ⟨x, hx⟩ : ∃ x, b[i + j]? = some x := ⟨_, List.getElem?_eq_getElem (by omega)⟩
        rw [hx]
        by_contra hne
        exact hno ⟨j, hj, by rw [hx]; cases x <;> cases value <;> simp_all⟩
    simp only [scanLoop, hc, bind, Except.bind]
    cases hd : b.drop i with
    | nil =>
      -- past the end only an empty group is left, found at once
      have hcnt0 : cnt = 0 := by
        have := congrArg List.length hd
        simp at this
        omega
      subst hcnt0
      simp [scanRun, runAt]
    | cons x xs =>
      have hxs : xs = b.drop (i + 1) := by
        rw [← List.drop_drop, hd]
        rfl
      rw [hd] at hrun
      by_cases hex : ∃ j < cnt, b[i + j]? = some !value
      · have hr : runAt value cnt (x :: xs) = false := by
          rw [← Bool.not_eq_true, hrun, not_not]
          exact hex
        have hpos : 0 < cnt := by
          obtain ⟨j, hj, _⟩ := hex
          omega
        simp only [hex, decide_true, if_true, scanRun, hr, Bool.false_eq_true, if_false]
        rw [hxs]
        exact scanLoop_eq_scanRun b cnt value hlen k (i + 1) (by omega) (by omega) hcnt
      · simp only [hex, decide_false, Bool.false_eq_true, if_false, scanRun, hrun.mpr hex,
          if_true]
        rfl

/-- `bitmap_scan` is the walk `scanRun` from `start`, on a map of fewer than `2^32` bits. -/
theorem bitmapScan_eq_scanRun {b : List Bool} {start cnt : Nat} {value : Bool}
    (hlen : b.length < 2 ^ 32) (hstart : start ≤ b.length) :
    bitmapScan b start cnt value =
      .ok (if cnt ≤ b.length then scanRun cnt value (b.drop start) start else BITMAP_ERROR) := by
  rw [bitmapScan, bitCnt_list, if_pos hstart]
  split_ifs with hcnt
  · rcases Nat.lt_or_ge (b.length - cnt + 1) start with h | h
    · -- the last candidate lies before `start`: no round is run
      rw [show b.length - cnt + 1 - start = 0 by omega,
        scanRun_short cnt value _ start (by simp; omega)]
      rfl
    · exact scanLoop_eq_scanRun b cnt value hlen _ start (by omega) hstart hcnt
  · rfl

/-- `bitmap_scan_and_flip` with the walk `scanRun` for its scan, where the two agree, and
as the C code has it otherwise. -/
def scanAndFlipRun (b : List Bool) (start cnt : Nat) (value : Bool) :
    Except Fault (List Bool × Nat) :=
  if b.length < 2 ^ 32 ∧ start ≤ b.length then
    let idx := if cnt ≤ b.length then scanRun cnt value (b.drop start) start else BITMAP_ERROR
    if idx ≠ BITMAP_ERROR then do
      let b ← bitmapSetMultiple b idx cnt (!value)
      pure (b, idx)
    else pure (b, idx)
  else bitmapScanAndFlip b start cnt value

theorem bitmapScanAndFlip_eq_run : bitmapScanAndFlip = scanAndFlipRun := by
  funext b start cnt value
  unfold scanAndFlipRun
  by_cases h : b.length < 2 ^ 32 ∧ start ≤ b.length
  · rw [if_pos h]
    unfold bitmapScanAndFlip
    rw [bitmapScan_eq_scanRun h.1 h.2]
    rfl
  · rw [if_neg h]

/-- The positions below `n`, counted from `i`, where two maps differ, in one walk down
both. -/
def diffBits : Nat → List Bool → List Bool → Nat → List Nat
  | 0, _, _, _ => []
  | n + 1, l, l', i =>
    if l.head? = l'.head? then diffBits n l.tail l'.tail (i + 1)
    else i :: diffBits n l.tail l'.tail (i + 1)

theorem diffBits_eq : ∀ (n : Nat) (l l' : List Bool) (i : Nat),
    diffBits n l l' i = ((List.range n).filter fun j => l[j]? ≠ l'[j]?).map (· + i)
  | 0, _, _, _ => rfl
  | n + 1, l, l', i => by
    -- past the head, the tails are the maps shifted by one position
    have htail : ((List.range n).filter fun j => l.tail[j]? ≠ l'.tail[j]?).map (· + (i + 1)) =
        (((List.range n).map Nat.succ).filter fun j => l[j]? ≠ l'[j]?).map (· + i) := by
      rw [List.filter_map, List.map_map]
      simp only [List.getElem?_tail, Function.comp_def, Nat.succ_eq_add_one]
      congr 1
      funext j
      omega
    rw [diffBits, diffBits_eq n l.tail l'.tail (i + 1), htail, List.range_succ_eq_map,
      List.filter_cons]
    by_cases h : l[0]? = l'[0]? <;> simp [h, List.head?_eq_getElem?]

/-- The bits where two maps differ, as the walk `diffBits` finds them. -/
theorem filter_range_ne (n : Nat) (l l' : List Bool) :
    ((List.range n).filter fun j => l[j]? ≠ l'[j]?) = diffBits n l l' 0 := by
  rw [diffBits_eq]
  simp

/-! ## First fit -/

/-- The walk stops at the first offset where a group starts, or reports that there is
none. -/
theorem scanRun_spec (cnt : Nat) (value : Bool) (l : List Bool) (i : Nat) :
    (∃ k, k ≤ l.length ∧ scanRun cnt value l i = i + k ∧ runAt value cnt (l.drop k) = true ∧
        ∀ k' < k, runAt value cnt (l.drop k') = false) ∨
      (scanRun cnt value l i = BITMAP_ERROR ∧
        ∀ k ≤ l.length, runAt value cnt (l.drop k) = false) := by
  induction l generalizing i with
  | nil =>
    cases h : runAt value cnt [] with
    | true =>
      left
      exact ⟨0, le_rfl, by simp [scanRun, h], h, fun k hk => absurd hk (Nat.not_lt_zero k)⟩
    | false =>
      right
      refine ⟨by simp [scanRun, h], fun k hk => ?_⟩
      rw [List.length_nil, Nat.le_zero] at hk
      subst hk
      exact h
  | cons x xs ih =>
    cases h : runAt value cnt (x :: xs) with
    | true =>
      left
      exact ⟨0, Nat.zero_le _, by simp [scanRun, h], h, fun k hk => absurd hk (Nat.not_lt_zero k)⟩
    | false =>
      -- the walk moves on to `xs`, one position later
      have hstep : scanRun cnt value (x :: xs) i = scanRun cnt value xs (i + 1) := by
        simp [scanRun, h]
      rcases ih (i + 1) with ⟨k, hk, he, hrun, hleast⟩ | ⟨he, hnone⟩
      · left
        refine ⟨k + 1, by simp; omega, by rw [hstep, he]; omega, by simpa using hrun, ?_⟩
        intro k' hk'
        cases k' with
        | zero => exact h
        | succ k' => simpa using hleast k' (by omega)
      · right
        refine ⟨by rw [hstep, he], fun k hk => ?_⟩
        cases k with
        | zero => exact h
        | succ k => simpa using hnone k (by simp at hk; omega)

/-- A group at `start + k` is one the walk from `start` accepts at offset `k`. -/
theorem fits_iff_runAt {b : List Bool} {start cnt : Nat} {value : Bool} {k : Nat}
    (hk : k ≤ b.length - start) (hstart : start ≤ b.length) :
    Fits b start cnt value (start + k) ↔ runAt value cnt ((b.drop start).drop k) = true := by
  rw [runAt_iff]
  simp only [Fits, List.getElem?_drop, Nat.add_assoc, bitCnt_list]
  constructor
  · rintro ⟨-, hin, hall⟩ j hj
    exact (read_list_eq_iff b (by omega) value).1 (hall j hj)
  · intro hall
    -- the group's last bit is in the map
    have hin : start + (k + cnt) ≤ b.length := by
      rcases Nat.eq_zero_or_pos cnt with rfl | hpos
      · omega
      · obtain ⟨hlt, -⟩ := List.getElem?_eq_some_iff.1 (hall (cnt - 1) (by omega))
        omega
    exact ⟨Nat.le_add_right _ _, hin, fun j hj =>
      (read_list_eq_iff b (by omega) value).2 (hall j hj)⟩

/-- `bitmap_scan` is first fit: it returns the least index at or after `start` where `cnt`
bits equal to `value` start inside the map, or `BITMAP_ERROR` if there is none. -/
theorem bitmapScan_first_fit {b : List Bool} {start cnt : Nat} {value : Bool}
    (hlen : b.length < 2 ^ 32) (hstart : start ≤ b.length) :
    ∃ idx, bitmapScan b start cnt value = .ok idx ∧
      ((Fits b start cnt value idx ∧ ∀ i < idx, ¬Fits b start cnt value i) ∨
        (idx = BITMAP_ERROR ∧ ∀ i, ¬Fits b start cnt value i)) := by
  rw [bitmapScan_eq_scanRun hlen hstart]
  by_cases hcnt : cnt ≤ b.length
  · rw [if_pos hcnt]
    rcases scanRun_spec cnt value (b.drop start) start with
      ⟨k, hk, he, hrun, hleast⟩ | ⟨he, hnone⟩
    · rw [List.length_drop] at hk
      refine ⟨start + k, by rw [he], .inl ⟨(fits_iff_runAt hk hstart).2 hrun, ?_⟩⟩
      intro i hi hfit
      obtain ⟨k', rfl⟩ := Nat.exists_eq_add_of_le hfit.1
      have := (fits_iff_runAt (by omega) hstart).1 hfit
      rw [hleast k' (by omega)] at this
      cases this
    · refine ⟨_, rfl, .inr ⟨he, fun i hfit => ?_⟩⟩
      obtain ⟨k, rfl⟩ := Nat.exists_eq_add_of_le hfit.1
      have hk : k ≤ b.length - start := by
        have : start + k + cnt ≤ b.length := hfit.2.1
        omega
      have := (fits_iff_runAt hk hstart).1 hfit
      rw [hnone k (by rw [List.length_drop]; exact hk)] at this
      cases this
  · -- a group longer than the map fits nowhere
    rw [if_neg hcnt]
    exact ⟨_, rfl, .inr ⟨rfl, fun i hfit => hcnt (by
      have : i + cnt ≤ b.length := hfit.2.1
      omega)⟩⟩

/-- `bitmap_scan_and_flip` returns what `bitmap_scan` returns and, when it found a group,
sets exactly its bits to `!value`. -/
theorem bitmapScanAndFlip_of_scan {b : List Bool} {start cnt idx : Nat} {value : Bool}
    (hlen : b.length < 2 ^ 32) (h : bitmapScan b start cnt value = .ok idx)
    (hfit : idx ≠ BITMAP_ERROR → idx + cnt ≤ b.length) :
    bitmapScanAndFlip b start cnt value =
      .ok (if idx ≠ BITMAP_ERROR then setRange b idx cnt (!value) else b, idx) := by
  unfold bitmapScanAndFlip
  rw [h, Trace.ok_bind]
  by_cases hne : idx ≠ BITMAP_ERROR
  · rw [if_pos hne, if_pos hne, bitmapSetMultiple_eq (!value) (hfit hne) hlen]
    rfl
  · rw [if_neg hne, if_neg hne]
    rfl

/-- The scan is first fit, and the flip sets exactly the group found to `!value` and leaves
every other bit alone. -/
theorem bitmapScanAndFlip_first_fit {b : List Bool} {start cnt : Nat} {value : Bool}
    (hlen : b.length < 2 ^ 32) (hstart : start ≤ b.length) :
    ∃ idx, bitmapScan b start cnt value = .ok idx ∧
      ((Fits b start cnt value idx ∧ ∀ i < idx, ¬Fits b start cnt value i) ∨
        (idx = BITMAP_ERROR ∧ ∀ i, ¬Fits b start cnt value i)) ∧
      ∃ b', bitmapScanAndFlip b start cnt value = .ok (b', idx) ∧ b'.length = b.length ∧
        ∀ i, b'[i]? =
          if idx ≠ BITMAP_ERROR ∧ idx ≤ i ∧ i < idx + cnt then some (!value) else b[i]? := by
  obtain ⟨idx, hscan, hspec⟩ := bitmapScan_first_fit hlen hstart
  -- a group found is inside the map
  have hfit : idx ≠ BITMAP_ERROR → idx + cnt ≤ b.length := by
    intro hne
    rcases hspec with ⟨hf, -⟩ | ⟨he, -⟩
    · exact hf.2.1
    · exact absurd he hne
  refine ⟨idx, hscan, hspec, _, bitmapScanAndFlip_of_scan hlen hscan hfit, ?_, fun i => ?_⟩
  · split_ifs <;> simp
  · by_cases hne : idx ≠ BITMAP_ERROR
    · rw [if_pos hne, getElem?_setRange]
      by_cases hr : idx ≤ i ∧ i < idx + cnt
      · have hi : i < b.length := by
          have := hfit hne
          omega
        rw [if_pos hr, if_pos ⟨hne, hr⟩, List.getElem?_eq_getElem hi, Option.map_some]
      · rw [if_neg hr, if_neg fun h => hr h.2]
    · rw [if_neg hne, if_neg fun h => hne h.1]

end Pintos
