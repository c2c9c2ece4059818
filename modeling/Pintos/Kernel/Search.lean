import Pintos.Devices.Block
import Pintos.Lib.Loop

/-!
`binary_search` and `bsearch` of `lib/stdlib.c`. The array holds `cnt` elements of `size`
bytes from address `array`; `elem p` is the element whose bytes start at `p`, which is what
`compare` reads through its pointer. The search narrows the byte range `[first, last)`,
computing the middle from an element count and scaling it back to bytes. The loop is a
`Loop.run` with one round per pass and `size * cnt + 1` rounds of fuel, which always
suffices (`binarySearch_ok`).

`compare` returns a `strcmp`-type result. It stands for a total preorder when the sign of
its result, `signOrder compare`, is a `Std.TransCmp`.

* `Bounds`: `first` and `last` stay on element boundaries inside the array, with every
  match between them;
* `binary_search_correct`: on a sorted array the search returns, within its fuel, a
  pointer to an element equal to the key iff there is one, and `NULL` otherwise; and only
  the elements' starts are compared, since a comparison that agrees on them gives the same
  result.
-/

namespace Pintos

/-- The order a `strcmp`-type comparison stands for: the sign of its result. -/
def signOrder {α : Type} (compare : α → α → Int) (a b : α) : Ordering :=
  Ord.compare (compare a b) 0

section signOrder

variable {α : Type} {compare : α → α → Int} {a b : α}

@[simp] theorem signOrder_eq_lt : signOrder compare a b = .lt ↔ compare a b < 0 := by
  simp [signOrder, Int.compare_eq_lt]

@[simp] theorem signOrder_eq_gt : signOrder compare a b = .gt ↔ 0 < compare a b := by
  simp [signOrder, Int.compare_eq_gt]

@[simp] theorem signOrder_eq_eq : signOrder compare a b = .eq ↔ compare a b = 0 := by
  simp [signOrder]

@[simp] theorem signOrder_isLE : (signOrder compare a b).isLE ↔ compare a b ≤ 0 := by
  simp [signOrder, Ordering.isLE_iff_ne_gt, Int.compare_eq_gt]

/-- Subtraction, the usual `strcmp`-type comparison of integers, stands for their order. -/
theorem signOrder_sub : signOrder (fun a b : Int => a - b) = Ord.compare := by
  funext a b
  simp only [signOrder]
  rcases lt_trichotomy a b with h | rfl | h
  · rw [Int.compare_eq_lt.2 h, Int.compare_eq_lt.2 (by omega)]
  · simp
  · rw [Int.compare_eq_gt.2 h, Int.compare_eq_gt.2 (by omega)]

instance : Std.TransCmp (signOrder fun a b : Int => a - b) := signOrder_sub ▸ inferInstance

end signOrder

/-- One pass of the loop of `binary_search` on the cursors `first` and `last`: the match,
`NULL` once the range is empty, or the range that is left. -/
def searchRound {α : Type} (key : α) (size : Nat) (compare : α → α → Int) (elem : Nat → α)
    (c : Nat × Nat) : Except Fault (Option Nat ⊕ Nat × Nat) :=
  let (first, last) := c
  if first < last then
    let range := (last - first) / size
    let middle := first + range / 2 * size
    let cmp := compare key (elem middle)
    if cmp < 0 then pure (.inr (first, middle))
    else if cmp > 0 then pure (.inr (middle + size, last))
    else pure (.inl (some middle))
  else pure (.inl none)

/-- `binary_search (key, array, cnt, size, compare, aux)`: the address of a match, `none`
for `NULL`. -/
def binarySearch {α : Type} (key : α) (array cnt size : Nat) (compare : α → α → Int)
    (elem : Nat → α) : Except Fault (Option Nat) :=
  Loop.run (searchRound key size compare elem) (fun _ => throw .diverge) (size * cnt + 1)
    (array, array + size * cnt)

/-- `bsearch (key, array, cnt, size, compare)`, through `compare_thunk`. -/
def bsearch {α : Type} (key : α) (array cnt size : Nat) (compare : α → α → Int)
    (elem : Nat → α) : Except Fault (Option Nat) :=
  binarySearch key array cnt size compare elem

section Search

variable {α : Type} (key : α) (array cnt size : Nat) (compare : α → α → Int) (elem : Nat → α)

/-- The cursors lie on element boundaries `a ≤ b ≤ cnt` of the array, and every element
that satisfies `inside` lies between them. -/
def Bounds (inside : Nat → Prop) (c : Nat × Nat) : Prop :=
  ∃ a b, c.1 = array + a * size ∧ c.2 = array + b * size ∧ a ≤ b ∧ b ≤ cnt ∧
    ∀ i < cnt, inside i → a ≤ i ∧ i < b

/-- What every pass needs of `inside`: an element that satisfies it lies below a middle
element above the key, and above a middle element below the key. -/
def Sided (inside : Nat → Prop) : Prop :=
  ∀ m < cnt, ∀ i < cnt, inside i →
    (compare key (elem (array + m * size)) < 0 → i < m) ∧
      (0 < compare key (elem (array + m * size)) → m < i)

variable {key array cnt size compare elem}

/-- The bytes between two element boundaries. -/
theorem range_eq (a b : Nat) : array + b * size - (array + a * size) = (b - a) * size := by
  rw [Nat.sub_mul]
  omega

/-- The middle of a range on element boundaries `a < b` is the start of element
`a + (b - a) / 2`. -/
theorem middle_eq (hsize : 0 < size) (a b : Nat) :
    array + a * size + (array + b * size - (array + a * size)) / size / 2 * size =
      array + (a + (b - a) / 2) * size := by
  rw [range_eq, Nat.mul_div_cancel _ hsize, Nat.add_mul, Nat.add_assoc]

/-- A pass over elements `a < b`, in element terms: it compares the key with element
`a + (b - a) / 2` and keeps the elements below or above it. -/
theorem searchRound_of_lt (hsize : 0 < size) {a b : Nat} (hab : a < b) :
    searchRound key size compare elem (array + a * size, array + b * size) =
      if compare key (elem (array + (a + (b - a) / 2) * size)) < 0 then
        .ok (.inr (array + a * size, array + (a + (b - a) / 2) * size))
      else if 0 < compare key (elem (array + (a + (b - a) / 2) * size)) then
        .ok (.inr (array + (a + (b - a) / 2 + 1) * size, array + b * size))
      else .ok (.inl (some (array + (a + (b - a) / 2) * size))) := by
  have hlt : array + a * size < array + b * size :=
    Nat.add_lt_add_left (Nat.mul_lt_mul_of_pos_right hab hsize) _
  simp only [searchRound, if_pos hlt, middle_eq hsize a b, gt_iff_lt]
  rw [Nat.add_assoc, ← Nat.succ_mul]
  rfl

/-- A pass over no elements ends the search with `NULL`. -/
theorem searchRound_of_empty (first : Nat) :
    searchRound key size compare elem (first, first) = .ok (.inl none) := by
  simp only [searchRound, Nat.lt_irrefl, if_false]
  rfl

/-- A pass that goes on keeps the bounds and takes at least one element off the range. -/
theorem Bounds.next (hsize : 0 < size) {inside : Nat → Prop}
    (hside : Sided key array cnt size compare elem inside) {c c' : Nat × Nat}
    (hc : Bounds array cnt size inside c)
    (h : searchRound key size compare elem c = .ok (.inr c')) :
    Bounds array cnt size inside c' ∧ c'.2 - c'.1 < c.2 - c.1 := by
  obtain ⟨first, last⟩ := c
  obtain ⟨a, b, rfl, rfl, hab, hb, hin⟩ := hc
  rcases Nat.lt_or_eq_of_le hab with hab | rfl
  swap
  · rw [searchRound_of_empty] at h
    cases h
  have hm : a + (b - a) / 2 < b := by omega
  rw [searchRound_of_lt hsize hab] at h
  split_ifs at h with hneg hpos
  · -- the key is below the middle element: the range ends there
    cases h
    refine ⟨⟨a, a + (b - a) / 2, rfl, rfl, by omega, by omega, fun i hi hi' => ?_⟩, ?_⟩
    · exact ⟨(hin i hi hi').1, (hside _ (by omega) i hi hi').1 hneg⟩
    · simp only [range_eq]
      exact Nat.mul_lt_mul_of_pos_right (by omega) hsize
  · -- the key is above it: the range starts after it
    cases h
    refine ⟨⟨a + (b - a) / 2 + 1, b, rfl, rfl, by omega, hb, fun i hi hi' => ?_⟩, ?_⟩
    · exact ⟨(hside _ (by omega) i hi hi').2 hpos, (hin i hi hi').2⟩
    · simp only [range_eq]
      exact Nat.mul_lt_mul_of_pos_right (by omega) hsize
  · cases h

/-- A pass that stops returns `NULL` only on an empty range, which holds no element that
satisfies `inside`, and otherwise the start of an element the key equals. -/
theorem Bounds.stop (hsize : 0 < size) {inside : Nat → Prop} {c : Nat × Nat} {r : Option Nat}
    (hc : Bounds array cnt size inside c)
    (h : searchRound key size compare elem c = .ok (.inl r)) :
    (r = none → ∀ i < cnt, ¬inside i) ∧
      ∀ p, r = some p → ∃ i < cnt, p = array + i * size ∧ compare key (elem p) = 0 := by
  obtain ⟨first, last⟩ := c
  obtain ⟨a, b, rfl, rfl, hab, hb, hin⟩ := hc
  rcases Nat.lt_or_eq_of_le hab with hab | rfl
  · rw [searchRound_of_lt hsize hab] at h
    split_ifs at h with hneg hpos
    · cases h
    · cases h
    · cases h
      refine ⟨fun h => (nomatch h), fun p hp => ⟨_, by omega, (Option.some.inj hp).symm, ?_⟩⟩
      rw [← Option.some.inj hp]
      omega
  · rw [searchRound_of_empty] at h
    cases h
    exact ⟨fun _ i hi hi' => by have := hin i hi hi'; omega, fun p hp => nomatch hp⟩

/-- A pass never fails. -/
theorem searchRound_ok (c : Nat × Nat) : ∃ r, searchRound key size compare elem c = .ok r := by
  obtain ⟨first, last⟩ := c
  simp only [searchRound]
  split_ifs <;> exact ⟨_, rfl⟩

/-- The search from bounds returns within any fuel above the bytes left. -/
theorem run_search_ok (hsize : 0 < size) {inside : Nat → Prop}
    (hside : Sided key array cnt size compare elem inside) (fuel : Nat) {c : Nat × Nat}
    (hc : Bounds array cnt size inside c) (hfuel : c.2 - c.1 < fuel) :
    ∃ r, Loop.run (searchRound key size compare elem) (fun _ => throw .diverge) fuel c =
        .ok r ∧
      (r = none → ∀ i < cnt, ¬inside i) ∧
      ∀ p, r = some p → ∃ i < cnt, p = array + i * size ∧ compare key (elem p) = 0 := by
  obtain ⟨r, hr⟩ := Loop.run_ok (Bounds array cnt size inside) (fun c => c.2 - c.1)
    (fun c _ => searchRound_ok c) (fun _ _ hc h => hc.next hsize hside h) fuel c hc hfuel
  refine ⟨r, hr, ?_⟩
  apply Loop.run_invariant (Bounds array cnt size inside) _ _ _ _ fuel c r hc hr
  · intro _ _ _ h
    cases h
  · intro c r hc h
    exact hc.stop hsize h
  · intro _ _ hc h
    exact (hc.next hsize hside h).1

/-- The initial range covers the whole array. -/
theorem bounds_init (inside : Nat → Prop) :
    Bounds array cnt size inside (array, array + size * cnt) :=
  ⟨0, cnt, by simp, by rw [Nat.mul_comm], Nat.zero_le _, le_rfl, fun i hi _ => ⟨Nat.zero_le _, hi⟩⟩

/-- On a sorted array, an element equal to the key lies below a middle element above the
key and above a middle element below it. -/
theorem sided_of_sorted [Std.TransCmp (signOrder compare)]
    (hsorted : ∀ i j, i ≤ j → j < cnt →
      (signOrder compare (elem (array + i * size)) (elem (array + j * size))).isLE) :
    Sided key array cnt size compare elem fun i => compare key (elem (array + i * size)) = 0 := by
  intro m hm i hi heq
  constructor
  · intro hlt
    by_contra hge
    have hki : signOrder compare key (elem (array + i * size)) = .lt :=
      Std.TransCmp.lt_of_lt_of_isLE (signOrder_eq_lt.2 hlt) (hsorted m i (by omega) hi)
    rw [signOrder_eq_lt] at hki
    omega
  · intro hgt
    by_contra hle
    have hkm : (signOrder compare key (elem (array + m * size))).isLE :=
      Std.TransCmp.isLE_trans (signOrder_isLE.2 (le_of_eq heq)) (hsorted i m (by omega) hm)
    rw [signOrder_isLE] at hkm
    omega

/-- On a sorted array of elements of `size > 0` bytes, for a comparison that stands for a
total preorder, `binary_search` and `bsearch` return within their fuel; the result is
`NULL` exactly when no element equals the key, and otherwise the start of an element that
does. The result depends on the memory only through the elements' starts, so those are all
it compares. -/
theorem binary_search_correct [Std.TransCmp (signOrder compare)] (hsize : 0 < size)
    (hsorted : ∀ i j, i ≤ j → j < cnt →
      (signOrder compare (elem (array + i * size)) (elem (array + j * size))).isLE) :
    ∃ r, binarySearch key array cnt size compare elem = .ok r ∧
      bsearch key array cnt size compare elem = .ok r ∧
      (r = none ↔ ∀ i < cnt, compare key (elem (array + i * size)) ≠ 0) ∧
      (∀ p, r = some p → ∃ i < cnt, p = array + i * size ∧ compare key (elem p) = 0) ∧
      ∀ elem' : Nat → α, (∀ i < cnt, elem' (array + i * size) = elem (array + i * size)) →
        binarySearch key array cnt size compare elem' = .ok r := by
  obtain ⟨r, hr, hnone, hsome⟩ := run_search_ok hsize (sided_of_sorted hsorted)
    (size * cnt + 1) (bounds_init _) (by simp)
  refine ⟨r, hr, hr, ⟨hnone, fun hall => ?_⟩, hsome, fun elem' helem => ?_⟩
  · cases r with
    | none => rfl
    | some p =>
      obtain ⟨i, hi, rfl, heq⟩ := hsome p rfl
      exact absurd heq (hall i hi)
  · -- from boundaries, a pass reads only an element's start, where the memories agree
    rw [← hr]
    refine Loop.run_congr (Bounds array cnt size fun _ => False) (fun c hc => ?_)
      (fun _ _ hc h => (hc.next hsize (fun _ _ _ _ h => h.elim) h).1) _ _ (bounds_init _)
    obtain ⟨first, last⟩ := c
    obtain ⟨a, b, rfl, rfl, hab, hb, -⟩ := hc
    rcases Nat.lt_or_eq_of_le hab with hab | rfl
    · rw [searchRound_of_lt hsize hab, searchRound_of_lt hsize hab, helem _ (by omega)]
    · rw [searchRound_of_empty, searchRound_of_empty]

/-- The search for 2 in the array 0, 1, 2 of one-byte integers. -/
theorem binary_search_finds_two :
    ∃ r, binarySearch (2 : Int) 0 3 1 (fun a b => a - b) (fun p => (p : Int)) = .ok r ∧
      bsearch (2 : Int) 0 3 1 (fun a b => a - b) (fun p => (p : Int)) = .ok r ∧
      (r = none ↔ ∀ i < 3, (2 : Int) - ((0 + i * 1 : Nat) : Int) ≠ 0) ∧
      (∀ p, r = some p → ∃ i < 3, p = 0 + i * 1 ∧ (2 : Int) - (p : Int) = 0) ∧
      ∀ elem' : Nat → Int, (∀ i < 3, elem' (0 + i * 1) = ((0 + i * 1 : Nat) : Int)) →
        binarySearch (2 : Int) 0 3 1 (fun a b => a - b) elem' = .ok r :=
  binary_search_correct (by decide) fun i j hij _ => by
    rw [signOrder_isLE]
    omega

example : binarySearch (2 : Int) 0 3 1 (fun a b => a - b) (fun p => (p : Int)) = .ok (some 2) := by
  decide

end Search

end Pintos
