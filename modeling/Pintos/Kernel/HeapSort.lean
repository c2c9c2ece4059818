import Pintos.Devices.Block
import Pintos.Lib.CInt
import Pintos.Lib.Loop
import Pintos.Lib.BinaryHeap
import Pintos.Lib.Trace
import Pintos.Kernel.Search

/-!
`sort` and `qsort` of `lib/stdlib.c`: a heap sort over the 1-based indices of `cnt`
elements of `size` bytes from `array`. `mem p` is the element whose bytes start at `p`,
which is what `compare` reads through its pointer and what `do_swap` exchanges with the
element at another such start. The indices, their products with `size` and the pointers are
32-bit `size_t` arithmetic; an element start outside the array is memory `sort` does not
own, and the model stops there with `.wildAccess`.

`heapify` is a `for (;;)` loop; on a heap of `n` elements its index grows every round, so
`n + 1` rounds of fuel are enough while `2 * i` does not wrap, which holds on every array
Pintos can hold (`ArrayFits`). There a round is one step of sift-down on the values at the
indices (`heapifyRound_eq`), and the loops are the heap library's build and sort-down.

* `sort_sorted_permutation`: `sort` and `qsort` leave the array in order under a comparison
  that stands for a total preorder, holding a permutation of its elements, with nothing
  else changed.
-/

namespace Pintos

section HeapSort

variable {α : Type} (array cnt size : Nat) (compare : α → α → Int)

/-- `array + (idx - 1) * size` for a 1-based `size_t` index. -/
def elemStart (idx : Nat) : Nat :=
  CInt.u32 (array + CInt.u32 (CInt.u32 ((idx : Int) - 1) * size))

/-- The element at `p`, faulting unless `p` starts one of the array's elements. -/
def loadElem (mem : Nat → α) (p : Nat) : Except Fault α :=
  if array ≤ p ∧ (p - array) % size = 0 ∧ (p - array) / size < cnt then pure (mem p)
  else throw .wildAccess

/-- `do_compare (array, a_idx, b_idx, size, compare, aux)`. -/
def doCompare (mem : Nat → α) (aIdx bIdx : Nat) : Except Fault Int := do
  let a ← loadElem array cnt size mem (elemStart array size aIdx)
  let b ← loadElem array cnt size mem (elemStart array size bIdx)
  pure (compare a b)

/-- `do_swap (array, a_idx, b_idx, size)`: the `size` bytes of the two elements exchanged. -/
def doSwap (mem : Nat → α) (aIdx bIdx : Nat) : Except Fault (Nat → α) := do
  let pa := elemStart array size aIdx
  let pb := elemStart array size bIdx
  let a ← loadElem array cnt size mem pa
  let b ← loadElem array cnt size mem pb
  pure (Function.update (Function.update mem pa b) pb a)

/-- One round of the loop of `heapify` on a heap of `n` elements, at index `i`: done, or the
element swapped with its larger child and the loop going on from there. -/
def heapifyRound (n : Nat) (c : (Nat → α) × Nat) :
    Except Fault ((Nat → α) ⊕ (Nat → α) × Nat) := do
  let (mem, i) := c
  let left := CInt.u32 (2 * i)
  let right := CInt.u32 (2 * i + 1)
  let max := i
  let max ← if left ≤ n then do
      let cmp ← doCompare array cnt size compare mem left max
      pure (if cmp > 0 then left else max)
    else pure max
  let max ← if right ≤ n then do
      let cmp ← doCompare array cnt size compare mem right max
      pure (if cmp > 0 then right else max)
    else pure max
  if max = i then pure (.inl mem)
  else do
    let mem ← doSwap array cnt size mem i max
    pure (.inr (mem, max))

/-- `heapify (array, i, n, size, compare, aux)`: the element at `i` floated down. -/
def heapify (n : Nat) (mem : Nat → α) (i : Nat) : Except Fault (Nat → α) :=
  Loop.run (heapifyRound array cnt size compare n) (fun _ => throw .diverge) (n + 1) (mem, i)

/-- The loop that builds the heap: `heapify` at `i`, `i - 1`, ..., `1`. -/
def buildHeap : Nat → (Nat → α) → Except Fault (Nat → α)
  | 0, mem => pure mem
  | i + 1, mem => do
    let mem ← heapify array cnt size compare cnt mem (i + 1)
    buildHeap i mem

/-- The loop that sorts the heap: for `i` from its argument down to `2`, the largest
element swapped to index `i` and the heap of `i - 1` elements repaired. -/
def sortHeap : Nat → (Nat → α) → Except Fault (Nat → α)
  | i + 2, mem => do
    let mem ← doSwap array cnt size mem 1 (i + 2)
    let mem ← heapify array cnt size compare (i + 1) mem 1
    sortHeap (i + 1) mem
  | _, mem => pure mem

/-- `sort (array, cnt, size, compare, aux)`, with its `ASSERT`s on `array` and `size`. -/
def sort (mem : Nat → α) : Except Fault (Nat → α) := do
  if array = 0 ∧ cnt ≠ 0 then throw .panic
  if size = 0 then throw .panic
  let mem ← buildHeap array cnt size compare (cnt / 2) mem
  sortHeap array cnt size compare cnt mem

/-- `qsort (array, cnt, size, compare)`, through `compare_thunk`. -/
def qsort (mem : Nat → α) : Except Fault (Nat → α) :=
  sort array cnt size compare mem

end HeapSort

/-! ## Correctness on the arrays Pintos can hold -/

/-- An array `sort` can be given: elements of at least one byte, all of them inside the
32-bit address space, and fewer than `2 ^ 31` of them, so that no `2 * i + 1` wraps for an
index `i` of the array. Pintos, with its RAM below `2 ^ 26` bytes, holds no other. -/
structure ArrayFits (array cnt size : Nat) : Prop where
  size_pos : 0 < size
  fits : array + cnt * size ≤ 2 ^ 32
  count_lt : cnt < 2 ^ 31

section Correctness

open BinaryHeap

variable {α : Type} {array cnt size : Nat} {compare : α → α → Int}

/-- The element at the 1-based index `k`. -/
def elemAt (array size : Nat) (mem : Nat → α) (k : Nat) : α := mem (array + (k - 1) * size)

/-- `mem` holds `g k` at each index `k` of the array. -/
def Stores (array cnt size : Nat) (mem g : Nat → α) : Prop :=
  ∀ k, 1 ≤ k → k ≤ cnt → elemAt array size mem k = g k

/-- `mem'` and `mem` agree off the starts of the array's elements. -/
def SameOutside (array cnt size : Nat) (mem' mem : Nat → α) : Prop :=
  ∀ p, (∀ k, 1 ≤ k → k ≤ cnt → p ≠ array + (k - 1) * size) → mem' p = mem p

theorem SameOutside.refl {mem : Nat → α} : SameOutside array cnt size mem mem := fun _ _ => rfl

theorem SameOutside.trans {mem mem' mem'' : Nat → α} (h : SameOutside array cnt size mem'' mem')
    (h' : SameOutside array cnt size mem' mem) : SameOutside array cnt size mem'' mem :=
  fun p hp => (h p hp).trans (h' p hp)

theorem ArrayFits.start_add_size
    (h : ArrayFits array cnt size) {k : Nat} (hk : 1 ≤ k) (hkc : k ≤ cnt) :
    array + (k - 1) * size + size ≤ 2 ^ 32 := by
  have hmul : (k - 1) * size + size ≤ cnt * size := by
    rw [← Nat.succ_mul]
    exact Nat.mul_le_mul_right size (by omega)
  have := h.fits
  omega

/-- No index of the array wraps: `elemStart` is the plain start of element `k`. -/
theorem ArrayFits.elemStart_eq
    (h : ArrayFits array cnt size) {k : Nat} (hk : 1 ≤ k) (hkc : k ≤ cnt) :
    elemStart array size k = array + (k - 1) * size := by
  have hlt := h.start_add_size hk hkc
  have hsz := h.size_pos
  have e1 : CInt.u32 ((k : Int) - 1) = k - 1 := by
    have := CInt.u32_of_lt (x := (k : Int) - 1) (by omega) (by have := h.count_lt; omega)
    omega
  unfold elemStart
  rw [e1, ← Nat.cast_mul, CInt.u32_nat (by omega), ← Nat.cast_add, CInt.u32_nat (by omega)]

/-- Distinct indices start distinct elements. -/
theorem ArrayFits.start_eq_iff
    (h : ArrayFits array cnt size) {k l : Nat} (hk : 1 ≤ k) (hl : 1 ≤ l) :
    array + (k - 1) * size = array + (l - 1) * size ↔ k = l := by
  constructor
  · intro he
    have := Nat.eq_of_mul_eq_mul_right h.size_pos (Nat.add_left_cancel he)
    omega
  · rintro rfl
    rfl

theorem ArrayFits.loadElem_eq (h : ArrayFits array cnt size) {k : Nat} (hk : 1 ≤ k)
    (hkc : k ≤ cnt) (mem : Nat → α) :
    loadElem array cnt size mem (elemStart array size k) = .ok (elemAt array size mem k) := by
  have hsz := h.size_pos
  rw [h.elemStart_eq hk hkc]
  unfold loadElem elemAt
  rw [if_pos ⟨Nat.le_add_right _ _, by simp,
    by rw [Nat.add_sub_cancel_left, Nat.mul_div_cancel _ hsz]; omega⟩]
  rfl

theorem ArrayFits.doCompare_eq (h : ArrayFits array cnt size) (mem : Nat → α) {a b : Nat}
    (ha : 1 ≤ a ∧ a ≤ cnt) (hb : 1 ≤ b ∧ b ≤ cnt) :
    doCompare array cnt size compare mem a b =
      .ok (compare (elemAt array size mem a) (elemAt array size mem b)) := by
  unfold doCompare
  rw [h.loadElem_eq ha.1 ha.2, h.loadElem_eq hb.1 hb.2]
  rfl

/-- `do_swap` exchanges the elements at two indices and nothing else. -/
theorem ArrayFits.doSwap_spec (h : ArrayFits array cnt size) {mem g : Nat → α}
    (hg : Stores array cnt size mem g) {a b : Nat} (ha : 1 ≤ a ∧ a ≤ cnt)
    (hb : 1 ≤ b ∧ b ≤ cnt) :
    ∃ mem', doSwap array cnt size mem a b = .ok mem' ∧
      Stores array cnt size mem' (g ∘ Equiv.swap a b) ∧ SameOutside array cnt size mem' mem := by
  unfold doSwap
  dsimp only
  rw [h.loadElem_eq ha.1 ha.2, h.loadElem_eq hb.1 hb.2, h.elemStart_eq ha.1 ha.2,
    h.elemStart_eq hb.1 hb.2]
  refine ⟨_, rfl, fun k hk hkc => ?_, fun p hp => ?_⟩
  · -- element `k` is read at its own start, which is `b`'s, `a`'s or neither
    simp only [elemAt, Function.update_apply, h.start_eq_iff hk hb.1, h.start_eq_iff hk ha.1,
      Function.comp_apply]
    by_cases hkb : k = b
    · rw [if_pos hkb, hkb, Equiv.swap_apply_right, ← hg a ha.1 ha.2]
      rfl
    · by_cases hka : k = a
      · rw [if_neg hkb, if_pos hka, hka, Equiv.swap_apply_left, ← hg b hb.1 hb.2]
        rfl
      · rw [if_neg hkb, if_neg hka, Equiv.swap_apply_of_ne_of_ne hka hkb, ← hg k hk hkc]
        rfl
  · simp only [Function.update_apply, if_neg (hp a ha.1 ha.2), if_neg (hp b hb.1 hb.2)]

/-- One comparison of a `heapify` round: the candidate `m` is replaced by `c` when `c` is
within the heap and greater. -/
theorem ArrayFits.stage_eq {β : Type} {mem g : Nat → α} (h : ArrayFits array cnt size)
    (hg : Stores array cnt size mem g) {n c m : Nat} (hn : n ≤ cnt) (hc : 1 ≤ c)
    (hm : 1 ≤ m ∧ m ≤ cnt) (jp : Nat → Except Fault β) :
    (if c ≤ n then do
        let cmp ← doCompare array cnt size compare mem c m
        let max ← pure (if cmp > 0 then c else m)
        jp max
      else do
        let max ← pure m
        jp max) =
      jp (if c ≤ n ∧ signOrder compare (g c) (g m) = .gt then c else m) := by
  by_cases hcn : c ≤ n
  · rw [if_pos hcn, h.doCompare_eq mem ⟨hc, by omega⟩ hm, hg c hc (by omega), hg m hm.1 hm.2]
    simp [hcn, signOrder_eq_gt]
  · rw [if_neg hcn]
    simp [hcn]

/-- A round of `heapify` at an index of the heap moves the element to `largest`, or stops
when it is already there. -/
theorem ArrayFits.heapifyRound_eq {mem g : Nat → α} (h : ArrayFits array cnt size)
    (hg : Stores array cnt size mem g) {n i : Nat} (hi : 1 ≤ i) (hin : i ≤ n) (hn : n ≤ cnt) :
    heapifyRound array cnt size compare n (mem, i) =
      (let max := largest (signOrder compare) g n i
      if max = i then pure (.inl mem) else do
        let mem ← doSwap array cnt size mem i max
        pure (.inr (mem, max))) := by
  -- below `2 ^ 31`, neither child index wraps
  have hc := h.count_lt
  have hl : CInt.u32 (2 * (i : Int)) = 2 * i := by
    have := CInt.u32_nat (n := 2 * i) (by omega)
    push_cast at this
    exact this
  have hr : CInt.u32 (2 * (i : Int) + 1) = 2 * i + 1 := by
    have := CInt.u32_nat (n := 2 * i + 1) (by omega)
    push_cast at this
    exact this
  unfold heapifyRound
  dsimp only
  rw [hl, hr, h.stage_eq hg hn (by omega) ⟨hi, by omega⟩, h.stage_eq hg hn (by omega) ?_]
  · rfl
  · split <;> omega

variable [Std.TransCmp (signOrder compare)]

/-- `heapify` at `i` of a heap of `n` that is a heap below `i` returns, within its fuel, a heap
from `i` on: the positions `1` to `n` rearranged, and nothing off the array changed. -/
theorem ArrayFits.heapify_spec (h : ArrayFits array cnt size) {mem g : Nat → α}
    (hg : Stores array cnt size mem g) {n i : Nat} (hi : 1 ≤ i) (hin : i ≤ n) (hn : n ≤ cnt)
    (hheap : HeapFrom (signOrder compare) g n (i + 1)) :
    ∃ mem' σ, heapify array cnt size compare n mem i = .ok mem' ∧ Fixes σ n ∧
      Stores array cnt size mem' (g ∘ σ) ∧ HeapFrom (signOrder compare) (g ∘ σ) n i ∧
      SameOutside array cnt size mem' mem := by
  -- the loop's state: the sifted element at `j`, the positions rearranged by `σ`
  let Inv : Equiv.Perm ℕ × ℕ → (Nat → α) × ℕ → Prop := fun c a =>
    a.2 = c.2 ∧ c.2 ≤ n ∧ Fixes c.1 n ∧ Stores array cnt size a.1 (g ∘ c.1) ∧
      SiftOrder (signOrder compare) (g ∘ c.1) n i c.2 ∧ SameOutside array cnt size a.1 mem
  let Q : (Nat → α) → Prop := fun mem' => ∃ σ, Fixes σ n ∧
    Stores array cnt size mem' (g ∘ σ) ∧ HeapFrom (signOrder compare) (g ∘ σ) n i ∧
      SameOutside array cnt size mem' mem
  have hstep : ∀ c a, Inv c a →
      (∃ b, heapifyRound array cnt size compare n a = .ok (.inl b) ∧ Q b) ∨
      ∃ c' a', heapifyRound array cnt size compare n a = .ok (.inr a') ∧ Inv c' a' ∧
        n + 1 - c'.2 < n + 1 - c.2 := by
    rintro ⟨σ, j⟩ ⟨memj, j'⟩ ⟨hj', hjn, hσ, hgj, ho, hout⟩
    dsimp only at hj' hjn hσ hgj ho hout ⊢
    subst j'
    have hj : 1 ≤ j := by have := ho.start; omega
    rw [h.heapifyRound_eq hgj hj hjn hn]
    by_cases hm : largest (signOrder compare) (g ∘ σ) n j = j
    · -- the element is in place: the subtree is a heap
      exact .inl ⟨memj, by simp [hm], σ, hσ, hgj, ho.finish hi hm, hout⟩
    · -- the element goes down to its greater child
      obtain ⟨hmi | ⟨hlt, hmn, -⟩, -, -⟩ :=
        @largest_spec _ (signOrder compare) _ (g ∘ σ) n j hj
      · exact absurd hmi hm
      set m := largest (signOrder compare) (g ∘ σ) n j
      obtain ⟨mem', hswap, hg', hout'⟩ :=
        h.doSwap_spec hgj (a := j) (b := m) ⟨hj, by omega⟩ ⟨by omega, by omega⟩
      refine .inr ⟨((Equiv.swap j m).trans σ, m), (mem', m), by simp [hm, hswap],
        ⟨rfl, hmn, (fixes_swap ⟨hj, hjn⟩ ⟨by omega, hmn⟩).trans hσ, hg', ho.move hi hm,
          hout'.trans hout⟩, by dsimp only; omega⟩
  obtain ⟨mem', hrun, σ, hσ, hg', hheap', hout⟩ :=
    Loop.run_variant Inv (fun c => n + 1 - c.2) Q hstep (n + 1) (Equiv.refl ℕ, i) (mem, i)
      ⟨rfl, hin, fixes_refl, hg, SiftOrder.init hheap, SameOutside.refl⟩ (by dsimp only; omega)
  exact ⟨mem', σ, hrun, hσ, hg', hheap', hout⟩

/-- The loop that builds the heap: from a heap below `i + 1`, `heapify` at `i`, ..., `1`
leaves a heap of all `cnt` elements. Induction on `i`, as the loop counts down. -/
theorem ArrayFits.buildHeap_spec (h : ArrayFits array cnt size) :
    ∀ (i : Nat) {mem g : Nat → α}, i ≤ cnt → Stores array cnt size mem g →
      HeapFrom (signOrder compare) g cnt (i + 1) →
      ∃ mem' σ, buildHeap array cnt size compare i mem = .ok mem' ∧ Fixes σ cnt ∧
        Stores array cnt size mem' (g ∘ σ) ∧ HeapFrom (signOrder compare) (g ∘ σ) cnt 1 ∧
        SameOutside array cnt size mem' mem
  | 0, mem, _, _, hg, hheap =>
    ⟨mem, Equiv.refl ℕ, rfl, fixes_refl, hg, hheap, SameOutside.refl⟩
  | i + 1, _, _, hi, hg, hheap => by
    obtain ⟨mem₁, σ₁, hheapify, hσ₁, hg₁, hheap₁, hout₁⟩ :=
      h.heapify_spec hg (Nat.succ_pos i) hi (Nat.le_refl cnt) hheap
    obtain ⟨mem₂, σ₂, hbuild, hσ₂, hg₂, hheap₂, hout₂⟩ :=
      h.buildHeap_spec i (by omega) hg₁ hheap₁
    refine ⟨mem₂, σ₂.trans σ₁, ?_, hσ₂.trans hσ₁, hg₂, hheap₂,
      hout₂.trans hout₁⟩
    rw [buildHeap, hheapify, Trace.ok_bind, hbuild]

/-- The loop that sorts the heap: from a heap of the first `i` elements, no greater than the
sorted elements after them, it leaves all `cnt` in order. Induction on `i`, as the loop
counts down; each round is a `sortdown_step`. -/
theorem ArrayFits.sortHeap_spec (h : ArrayFits array cnt size) :
    ∀ (i : Nat) {mem g : Nat → α}, i ≤ cnt → Stores array cnt size mem g →
      HeapFrom (signOrder compare) g i 1 → SortedAbove (signOrder compare) g i cnt →
      Below (signOrder compare) g i cnt →
      ∃ mem' σ, sortHeap array cnt size compare i mem = .ok mem' ∧ Fixes σ i ∧
        Stores array cnt size mem' (g ∘ σ) ∧
        SortedAbove (signOrder compare) (g ∘ σ) 0 cnt ∧
        SameOutside array cnt size mem' mem
  | 0, mem, _, _, hg, _, hsorted, hbelow =>
    ⟨mem, Equiv.refl ℕ, rfl, fixes_refl, hg, hsorted.of_below hbelow (Nat.zero_le 1),
      SameOutside.refl⟩
  | 1, mem, _, _, hg, _, hsorted, hbelow =>
    ⟨mem, Equiv.refl ℕ, rfl, fixes_refl, hg, hsorted.of_below hbelow (Nat.le_refl 1),
      SameOutside.refl⟩
  | i + 2, _, g, hi, hg, hheap, hsorted, hbelow => by
    -- the root goes to `i + 2`, and the rest of the heap, from `2`, is untouched
    obtain ⟨mem₁, hswap, hg₁, hout₁⟩ :=
      h.doSwap_spec hg (a := 1) (b := i + 2) ⟨Nat.le_refl 1, by omega⟩ ⟨by omega, hi⟩
    have hheap₁ : HeapFrom (signOrder compare) (g ∘ Equiv.swap 1 (i + 2)) (i + 1) 2 :=
      (hheap.mono (by omega) (by omega)).congr fun x hx hxn => by
        rw [Function.comp_apply, Equiv.swap_apply_of_ne_of_ne (by omega) (by omega)]
    obtain ⟨mem₂, τ, hheapify, hτ, hg₂, hheap₂, hout₂⟩ :=
      h.heapify_spec hg₁ (Nat.le_refl 1) (by omega) (by omega) hheap₁
    obtain ⟨hsorted₂, hbelow₂⟩ := sortdown_step hheap hsorted hbelow hτ
    obtain ⟨mem₃, ρ, hrest, hρ, hg₃, hsorted₃, hout₃⟩ :=
      h.sortHeap_spec (i + 1) (by omega) hg₂ hheap₂ hsorted₂ hbelow₂
    refine ⟨mem₃, ρ.trans (τ.trans (Equiv.swap 1 (i + 2))), ?_,
      (hρ.mono (by omega)).trans ((hτ.mono (by omega)).trans
        (fixes_swap ⟨Nat.le_refl 1, by omega⟩ ⟨by omega, Nat.le_refl _⟩)),
      hg₃, hsorted₃, hout₃.trans (hout₂.trans hout₁)⟩
    rw [sortHeap, hswap, Trace.ok_bind, hheapify, Trace.ok_bind, hrest]

/-- The elements of the array, read from its start, are the values at the indices `1` to
`cnt`. -/
theorem Stores.map_range {mem g : Nat → α} (hg : Stores array cnt size mem g) :
    (List.range cnt).map (fun i => mem (array + i * size)) = (List.range' 1 cnt).map g := by
  rw [List.range'_eq_map_range, List.map_map]
  refine List.map_congr_left fun i hi => ?_
  have := hg (1 + i) (by omega) (by rw [List.mem_range] at hi; omega)
  rwa [elemAt, Nat.add_sub_cancel_left] at this

/-- On an array Pintos can hold, with a comparison that stands for a total preorder, `sort`
and `qsort` return with the array in order and holding a permutation of its elements, and
nothing changed off the starts of its elements. -/
theorem sort_sorted_permutation (h : ArrayFits array cnt size) (hnull : array ≠ 0 ∨ cnt = 0)
    (mem : Nat → α) :
    ∃ mem', sort array cnt size compare mem = .ok mem' ∧
      qsort array cnt size compare mem = .ok mem' ∧
      (∀ i j, i ≤ j → j < cnt →
        (signOrder compare (mem' (array + i * size)) (mem' (array + j * size))).isLE) ∧
      ((List.range cnt).map fun i => mem' (array + i * size)).Perm
        ((List.range cnt).map fun i => mem (array + i * size)) ∧
      ∀ p, (∀ i < cnt, p ≠ array + i * size) → mem' p = mem p := by
  have hg : Stores array cnt size mem (elemAt array size mem) := fun _ _ _ => rfl
  obtain ⟨mem₁, σ₁, hbuild, hσ₁, hg₁, hheap₁, hout₁⟩ :=
    h.buildHeap_spec (cnt / 2) (by omega) hg
      (heapFrom_half : HeapFrom (signOrder compare) _ _ _)
  obtain ⟨mem₂, σ₂, hsortHeap, hσ₂, hg₂, hsorted₂, hout₂⟩ :=
    h.sortHeap_spec cnt (Nat.le_refl cnt) hg₁ hheap₁ sortedAbove_self below_self
  -- past its two `ASSERT`s, `sort` is the two loops
  have hrun : sort array cnt size compare mem = .ok mem₂ := by
    have hsz := h.size_pos
    unfold sort
    rw [if_neg (by omega), if_neg (by omega)]
    simp only [Trace.ok_bind, hbuild, hsortHeap]
  refine ⟨mem₂, hrun, hrun, fun i j hij hj => ?_, ?_, fun p hp => ?_⟩
  · have := hsorted₂ (i + 1) (j + 1) (by omega) (by omega) (by omega)
    rwa [← hg₂ (i + 1) (by omega) (by omega), ← hg₂ (j + 1) (by omega) (by omega), elemAt,
      elemAt, Nat.add_sub_cancel, Nat.add_sub_cancel] at this
  · rw [hg₂.map_range, hg.map_range]
    exact perm_of_fixes (hσ₂.trans hσ₁) _
  · exact hout₂.trans hout₁ p fun k hk hkc => hp (k - 1) (by omega)

/-- `sort` of the one-byte integers 0, -1, -2 from address `4096`. -/
theorem sort_three_descending :
    ∃ mem', sort 4096 3 1 (fun a b : Int => a - b) (fun p => -(p : Int)) = .ok mem' ∧
      qsort 4096 3 1 (fun a b : Int => a - b) (fun p => -(p : Int)) = .ok mem' ∧
      (∀ i j, i ≤ j → j < 3 → (signOrder (fun a b : Int => a - b) (mem' (4096 + i * 1))
        (mem' (4096 + j * 1))).isLE) ∧
      ((List.range 3).map fun i => mem' (4096 + i * 1)).Perm
        ((List.range 3).map fun i => -((4096 + i * 1 : Nat) : Int)) ∧
      ∀ p, (∀ i < 3, p ≠ 4096 + i * 1) → mem' p = -(p : Int) :=
  sort_sorted_permutation ⟨by decide, by decide, by decide⟩ (.inl (by decide)) _

end Correctness

end Pintos
