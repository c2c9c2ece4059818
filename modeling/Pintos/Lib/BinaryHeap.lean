import Mathlib.Data.Nat.Init
import Mathlib.Logic.Equiv.Basic
import Mathlib.Data.List.Nodup

/-!
Binary max-heaps over the positions `1`, `2`, ... of a function `g : ℕ → α`, where position
`c ≥ 2` is a child of `c / 2`, for a comparison `cmp` that is a total preorder
(`Std.TransCmp`). Sift-down is taken one round at a time: `largest` is the position a round
moves the element to, and the element goes there by composing `g` with a swap.

* `SiftOrder`: what a sift-down keeps while its element is at the hole: every parent and
  child pair off the hole in order, and the hole's children no greater than its parent;
  `SiftOrder.move` is a round that swaps, `SiftOrder.finish` the round that stops with a heap;
* `HeapFrom.le_root`: no element of a heap is greater than its root;
* `sortdown_step`: swapping the root of a heap of `n + 1` to position `n + 1` and
  rearranging the first `n` positions grows the sorted tail by one;
* `perm_of_fixes`: composing with a permutation that moves no position outside `1` to `n`
  permutes the values at those positions.
-/

namespace BinaryHeap

variable {α : Type} (cmp : α → α → Ordering)

/-- The position of the greatest of `i` and its children within `n`: the left child replaces
`i` only when it is greater, and the right child replaces that only when greater. -/
def largest (g : ℕ → α) (n i : ℕ) : ℕ :=
  let m := if 2 * i ≤ n ∧ cmp (g (2 * i)) (g i) = .gt then 2 * i else i
  if 2 * i + 1 ≤ n ∧ cmp (g (2 * i + 1)) (g m) = .gt then 2 * i + 1 else m

/-- The pairs of a parent from `k` on and its child within `n` are in order. -/
def HeapFrom (g : ℕ → α) (n k : ℕ) : Prop :=
  ∀ c, 2 ≤ c → c ≤ n → k ≤ c / 2 → (cmp (g c) (g (c / 2))).isLE

/-- A sift-down from `k` with its element at `hole`, which is `k` or in the subtree of `k`:
every pair off the hole is in order, and the hole's children are no greater than its
parent. -/
structure SiftOrder (g : ℕ → α) (n k hole : ℕ) : Prop where
  start : k ≤ hole
  inside : hole ≠ k → k ≤ hole / 2
  except : ∀ c, 2 ≤ c → c ≤ n → k ≤ c / 2 → c / 2 ≠ hole →
    (cmp (g c) (g (c / 2))).isLE
  grand : hole ≠ k → ∀ c, c / 2 = hole → c ≤ n → (cmp (g c) (g (hole / 2))).isLE

/-- The positions after `n` up to `m` are in order. -/
def SortedAbove (g : ℕ → α) (n m : ℕ) : Prop :=
  ∀ x y, n < x → x ≤ y → y ≤ m → (cmp (g x) (g y)).isLE

/-- Nothing at a position from `1` to `n` is greater than anything after `n` up to `m`. -/
def Below (g : ℕ → α) (n m : ℕ) : Prop :=
  ∀ x y, 1 ≤ x → x ≤ n → n < y → y ≤ m → (cmp (g x) (g y)).isLE

/-- `σ` moves no position outside `1` to `n`. -/
def Fixes (σ : Equiv.Perm ℕ) (n : ℕ) : Prop := ∀ x, (x = 0 ∨ n < x) → σ x = x

section Order

variable {cmp} {a b : α}

theorem isLE_of_not_gt (h : ¬cmp a b = .gt) : (cmp a b).isLE := Ordering.isLE_iff_ne_gt.mpr h

variable [Std.TransCmp cmp]

theorem isLE_refl : (cmp a a).isLE := by
  rw [@Std.ReflCmp.compare_self _ cmp _ a]
  rfl

theorem isLE_of_gt (h : cmp a b = .gt) : (cmp b a).isLE := by
  rw [Std.OrientedCmp.lt_of_gt h]
  rfl

end Order

/-! ## One round of sift-down -/

section Largest

variable {cmp} [Std.TransCmp cmp] {g : ℕ → α} {n i : ℕ}

/-- The element `largest` picks is not below `i`'s, nor below either child's, and it is `i`
or a child of `i` within `n`. -/
theorem largest_spec (hi : 1 ≤ i) :
    (largest cmp g n i = i ∨ i < largest cmp g n i ∧ largest cmp g n i ≤ n ∧
        largest cmp g n i / 2 = i) ∧
      (cmp (g i) (g (largest cmp g n i))).isLE ∧
      ∀ c, c / 2 = i → c ≤ n → (cmp (g c) (g (largest cmp g n i))).isLE := by
  -- the candidate after the left child, then the right child against it
  set m := if 2 * i ≤ n ∧ cmp (g (2 * i)) (g i) = .gt then 2 * i else i with hm
  have hmspec : (m = i ∨ m = 2 * i ∧ 2 * i ≤ n) ∧ (cmp (g i) (g m)).isLE ∧
      (2 * i ≤ n → (cmp (g (2 * i)) (g m)).isLE) := by
    by_cases hl : 2 * i ≤ n ∧ cmp (g (2 * i)) (g i) = .gt
    · rw [hm, if_pos hl]
      exact ⟨.inr ⟨rfl, hl.1⟩, isLE_of_gt hl.2, fun _ => isLE_refl⟩
    · rw [hm, if_neg hl]
      exact ⟨.inl rfl, isLE_refl, fun h => isLE_of_not_gt fun hgt => hl ⟨h, hgt⟩⟩
  obtain ⟨hmi, him, hlm⟩ := hmspec
  have hchild : ∀ c, c / 2 = i → c = 2 * i ∨ c = 2 * i + 1 := fun c hc => by omega
  unfold largest
  rw [← hm]
  by_cases hr : 2 * i + 1 ≤ n ∧ cmp (g (2 * i + 1)) (g m) = .gt
  · rw [if_pos hr]
    have hmr := isLE_of_gt hr.2
    refine ⟨.inr ⟨by omega, hr.1, by omega⟩, Std.TransCmp.isLE_trans him hmr,
      fun c hc hcn => ?_⟩
    rcases hchild c hc with rfl | rfl
    · exact Std.TransCmp.isLE_trans (hlm hcn) hmr
    · exact isLE_refl
  · rw [if_neg hr]
    refine ⟨?_, him, fun c hc hcn => ?_⟩
    · rcases hmi with h | ⟨h, hn⟩
      · exact .inl h
      · exact .inr ⟨by omega, by omega, by omega⟩
    · rcases hchild c hc with rfl | rfl
      · exact hlm hcn
      · exact isLE_of_not_gt fun hgt => hr ⟨hcn, hgt⟩

end Largest

section Sift

variable {cmp} {g : ℕ → α} {n k hole : ℕ}

/-- A heap from `k + 1` is a sift-down from `k` with its element still at `k`. -/
theorem SiftOrder.init (h : HeapFrom cmp g n (k + 1)) : SiftOrder cmp g n k k where
  start := Nat.le_refl k
  inside hne := absurd rfl hne
  except c h2 hcn hk hne := h c h2 hcn (by omega)
  grand hne := absurd rfl hne

variable [Std.TransCmp cmp]

/-- A round that swaps: the element goes down to the greater child, which comes up to the
hole. -/
theorem SiftOrder.move (o : SiftOrder cmp g n k hole) (hk : 1 ≤ k)
    (hm : largest cmp g n hole ≠ hole) :
    SiftOrder cmp (g ∘ Equiv.swap hole (largest cmp g n hole)) n k (largest cmp g n hole) := by
  obtain ⟨hmi | ⟨hlt, hmn, hmp⟩, hhm, hcm⟩ :=
    @largest_spec _ cmp _ g n hole (show 1 ≤ hole by have := o.start; omega)
  · exact absurd hmi hm
  set m := largest cmp g n hole
  -- the values after the swap, at the hole, at `m` and elsewhere
  have hsw_hole : (g ∘ Equiv.swap hole m) hole = g m := by simp
  have hsw_m : (g ∘ Equiv.swap hole m) m = g hole := by simp
  have hsw_ne : ∀ x, x ≠ hole → x ≠ m → (g ∘ Equiv.swap hole m) x = g x := by
    intro x h1 h2
    simp [Equiv.swap_apply_of_ne_of_ne h1 h2]
  have hks : k ≤ hole := o.start
  refine ⟨by omega, fun _ => by omega, fun c h2 hcn hkc hcm' => ?_, fun _ c hc hcn => ?_⟩
  · -- a pair off the new hole `m`
    by_cases hch : c / 2 = hole
    · rw [hch, hsw_hole]
      by_cases hcm'' : c = m
      · rw [hcm'', hsw_m]
        exact hhm
      · rw [hsw_ne c (by omega) hcm'']
        exact hcm c hch hcn
    · by_cases hc : c = hole
      · -- the greater child comes up under the hole's parent
        have hne : hole ≠ k := by omega
        rw [hc, hsw_hole, hsw_ne (hole / 2) (by omega) (by omega)]
        exact o.grand hne m hmp hmn
      · rw [hsw_ne c hc (by omega), hsw_ne (c / 2) hch hcm']
        exact o.except c h2 hcn hkc hch
  · -- the new hole's children were no greater than `m`, now at the old hole
    rw [hmp, hsw_hole, hsw_ne c (by omega) (by omega)]
    have := o.except c (by omega) hcn (by omega) (by omega)
    rwa [hc] at this

/-- The round that stops: the element is no smaller than its children, and the whole
subtree is a heap. -/
theorem SiftOrder.finish (o : SiftOrder cmp g n k hole) (hk : 1 ≤ k)
    (hm : largest cmp g n hole = hole) : HeapFrom cmp g n k := by
  obtain ⟨-, -, hcm⟩ :=
    @largest_spec _ cmp _ g n hole (show 1 ≤ hole by have := o.start; omega)
  intro c h2 hcn hkc
  by_cases hch : c / 2 = hole
  · have := hcm c hch hcn
    rwa [hm, ← hch] at this
  · exact o.except c h2 hcn hkc hch

end Sift

/-! ## Heaps -/

section Heap

variable {cmp} {g : ℕ → α} {n k : ℕ}

/-- A heap is a heap on fewer positions and from a later position. -/
theorem HeapFrom.mono (h : HeapFrom cmp g n k) {n' k' : ℕ} (hn : n' ≤ n) (hk : k ≤ k') :
    HeapFrom cmp g n' k' := fun c h2 hcn hkc => h c h2 (by omega) (by omega)

/-- A heap from `k` depends only on the positions from `k` to `n`. -/
theorem HeapFrom.congr {g' : ℕ → α} (h : HeapFrom cmp g n k)
    (hg : ∀ x, k ≤ x → x ≤ n → g' x = g x) : HeapFrom cmp g' n k := by
  intro c h2 hcn hkc
  rw [hg c (by omega) hcn, hg (c / 2) hkc (by omega)]
  exact h c h2 hcn hkc

/-- No position from `n / 2 + 1` on is a parent within `n`: a heap from there is trivial. -/
theorem heapFrom_half : HeapFrom cmp g n (n / 2 + 1) := fun c _ hcn hkc => by omega

variable [Std.TransCmp cmp]

/-- Nothing of a heap from `1` is greater than its root. Strong induction on the position,
up the chain of parents. -/
theorem HeapFrom.le_root (h : HeapFrom cmp g n 1) :
    ∀ x, 1 ≤ x → x ≤ n → (cmp (g x) (g 1)).isLE := by
  intro x
  induction x using Nat.strong_induction_on with
  | _ x ih =>
    intro hx hxn
    by_cases h1 : x = 1
    · rw [h1]
      exact isLE_refl
    · exact Std.TransCmp.isLE_trans (h x (by omega) hxn (by omega))
        (ih (x / 2) (by omega) (by omega) (by omega))


end Heap

/-! ## Permutations of the positions -/

section Fixes

variable {σ τ : Equiv.Perm ℕ} {n : ℕ}

theorem fixes_refl : Fixes (Equiv.refl ℕ) n := fun _ _ => rfl

theorem fixes_swap {a b : ℕ} (ha : 1 ≤ a ∧ a ≤ n) (hb : 1 ≤ b ∧ b ≤ n) :
    Fixes (Equiv.swap a b) n := fun x hx =>
  Equiv.swap_apply_of_ne_of_ne (by omega) (by omega)

theorem Fixes.trans (h : Fixes σ n) (h' : Fixes τ n) : Fixes (σ.trans τ) n := fun x hx => by
  rw [Equiv.trans_apply, h x hx, h' x hx]

theorem Fixes.mono (h : Fixes σ n) {n' : ℕ} (hn : n ≤ n') : Fixes σ n' := fun x hx =>
  h x (by omega)

/-- A permutation that moves nothing outside `1` to `n` keeps each position there inside. -/
theorem Fixes.mem (h : Fixes σ n) {x : ℕ} (hx : 1 ≤ x ∧ x ≤ n) :
    1 ≤ σ x ∧ σ x ≤ n := by
  by_contra hout
  -- the outside position `σ x` is fixed, so `σ` sends it and `x` to the same place
  have hfix := h (σ x) (by omega)
  have := σ.injective hfix
  omega

/-- The values at `1` to `n` after a permutation of those positions are the values before, in
another order. -/
theorem perm_of_fixes (h : Fixes σ n) (g : ℕ → α) :
    ((List.range' 1 n).map (g ∘ σ)).Perm ((List.range' 1 n).map g) := by
  rw [← List.map_map]
  refine List.Perm.map g ((List.perm_ext_iff_of_nodup
    (List.Nodup.map σ.injective List.nodup_range') List.nodup_range').mpr ?_)
  intro x
  simp only [List.mem_map, List.mem_range'_1]
  constructor
  · rintro ⟨y, hy, rfl⟩
    have := h.mem (x := y) (by omega)
    omega
  · intro hx
    refine ⟨σ.symm x, ?_, σ.apply_symm_apply x⟩
    by_contra hout
    have hfix := h (σ.symm x) (by omega)
    rw [σ.apply_symm_apply] at hfix
    rw [← hfix] at hout
    omega

end Fixes

/-! ## Sort-down -/

section Sortdown

variable {cmp} {g : ℕ → α} {n m : ℕ} {τ : Equiv.Perm ℕ}

/-- After the root is swapped to `n + 1` and the first `n` positions rearranged, the
positions after `n` hold what they held, with the root at `n + 1`. -/
theorem sortdown_above (hτ : Fixes τ n) {y : ℕ} (hy : n < y) :
    (g ∘ Equiv.swap 1 (n + 1) ∘ τ) y = g (Equiv.swap 1 (n + 1) y) := by
  simp [hτ y (.inr hy)]

/-- ... and each of the first `n` positions holds what one of the first `n + 1` held. -/
theorem sortdown_within (hτ : Fixes τ n) {x : ℕ} (hx : 1 ≤ x ∧ x ≤ n) :
    ∃ w, 1 ≤ w ∧ w ≤ n + 1 ∧ (g ∘ Equiv.swap 1 (n + 1) ∘ τ) x = g w := by
  have hτx := hτ.mem hx
  -- `τ x` is among the first `n`; the swap sends `1` to `n + 1` and leaves the rest
  have hw : 1 ≤ Equiv.swap 1 (n + 1) (τ x) ∧ Equiv.swap 1 (n + 1) (τ x) ≤ n + 1 := by
    rcases Nat.lt_or_ge 1 (τ x) with h1 | h1
    · rw [Equiv.swap_apply_of_ne_of_ne (by omega) (by omega)]
      omega
    · rw [show τ x = 1 by omega, Equiv.swap_apply_left]
      omega
  exact ⟨Equiv.swap 1 (n + 1) (τ x), hw.1, hw.2, rfl⟩

/-- Before the first round, nothing is sorted yet. -/
theorem sortedAbove_self : SortedAbove cmp g m m := fun _ _ hx hxy hym => by omega

theorem below_self : Below cmp g m m := fun _ _ _ _ hy hym => by omega

variable [Std.TransCmp cmp]

/-- One round of the sort-down: the root of a heap of `n + 1` is its greatest element, so
swapping it to `n + 1` and rearranging the first `n` positions (`τ`) keeps the tail
sorted and no greater than what stays in front. -/
theorem sortdown_step (hheap : HeapFrom cmp g (n + 1) 1) (hsorted : SortedAbove cmp g (n + 1) m)
    (hbelow : Below cmp g (n + 1) m) (hτ : Fixes τ n) :
    SortedAbove cmp (g ∘ Equiv.swap 1 (n + 1) ∘ τ) n m ∧
      Below cmp (g ∘ Equiv.swap 1 (n + 1) ∘ τ) n m := by
  -- after `n`, the root is at `n + 1` and everything else where it was
  have hroot : (g ∘ Equiv.swap 1 (n + 1) ∘ τ) (n + 1) = g 1 := by
    rw [sortdown_above hτ (Nat.lt_succ_self n), Equiv.swap_apply_right]
  have hrest : ∀ y, n + 1 < y → (g ∘ Equiv.swap 1 (n + 1) ∘ τ) y = g y := fun y hy => by
    rw [sortdown_above hτ (by omega), Equiv.swap_apply_of_ne_of_ne (by omega) (by omega)]
  constructor
  · intro x y hx hxy hym
    rcases Nat.lt_or_ge (n + 1) x with hx1 | hx1
    · rw [hrest x hx1, hrest y (by omega)]
      exact hsorted x y hx1 hxy hym
    · rw [show x = n + 1 by omega, hroot]
      rcases Nat.lt_or_ge (n + 1) y with hy1 | hy1
      · rw [hrest y hy1]
        exact hbelow 1 y (Nat.le_refl 1) (by omega) hy1 hym
      · rw [show y = n + 1 by omega, hroot]
        exact isLE_refl
  · intro x y hx hxn hy hym
    obtain ⟨w, hw1, hwn, hxw⟩ := sortdown_within hτ ⟨hx, hxn⟩
    rw [hxw]
    rcases Nat.lt_or_ge (n + 1) y with hy1 | hy1
    · rw [hrest y hy1]
      exact hbelow w y hw1 hwn hy1 hym
    · rw [show y = n + 1 by omega, hroot]
      exact hheap.le_root w hw1 hwn

/-- When at most one position is left in front, the whole of `1` to `m` is in order. -/
theorem SortedAbove.of_below (hsorted : SortedAbove cmp g n m) (hbelow : Below cmp g n m)
    (hn : n ≤ 1) : SortedAbove cmp g 0 m := by
  intro x y hx hxy hym
  rcases Nat.lt_or_ge n x with hnx | hnx
  · exact hsorted x y hnx hxy hym
  · rcases Nat.lt_or_ge n y with hny | hny
    · exact hbelow x y hx hnx hny hym
    · rw [show y = x by omega]
      exact isLE_refl

end Sortdown

end BinaryHeap
