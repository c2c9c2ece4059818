import Mathlib.Logic.Function.Basic
import Mathlib.Data.List.Range

/-!
A byte-addressed memory as a function from addresses. `store m a bs` writes the list `bs` at
`a`, `a + 1`, ... one cell after the other, `fill m a n v` sets the `n` cells from `a` to `v`
and `load m a n` reads `n` cells from `a`. A store leaves the cells outside its range alone
(`store_of_lt`, `store_of_ge`) and a load of its range gives its list back (`load_store`); a
store of a concatenation is two stores (`store_append`), and stores to disjoint ranges
commute (`store_update_comm`, `store_comm`).
A stack that grows down is a list of blocks pushed one below the other: `blockStart` says where
each one starts, and `load_store_blocks` reads it back.
-/

namespace Memory

variable {α : Type}

/-- `bs` written at `a`, `a + 1`, ..., first cell first. -/
def store (m : Nat → α) (a : Nat) : List α → Nat → α
  | [] => m
  | b :: bs => store (Function.update m a b) (a + 1) bs

/-- The `n` cells from `a`. -/
def load (m : Nat → α) (a n : Nat) : List α := (List.range n).map fun i => m (a + i)

/-- `memset (a, v, n)`: the `n` cells from `a` set to `v`. -/
def fill (m : Nat → α) (a n : Nat) (v : α) : Nat → α :=
  fun x => if a ≤ x ∧ x < a + n then v else m x

@[simp] theorem store_nil (m : Nat → α) (a : Nat) : store m a [] = m := rfl

theorem store_cons (m : Nat → α) (a : Nat) (b : α) (bs : List α) :
    store m a (b :: bs) = store (Function.update m a b) (a + 1) bs := rfl

theorem store_append (m : Nat → α) (a : Nat) (bs cs : List α) :
    store m a (bs ++ cs) = store (store m a bs) (a + bs.length) cs := by
  induction bs generalizing m a with
  | nil => rfl
  | cons b bs ih =>
    rw [List.cons_append, store_cons, store_cons, ih, List.length_cons]
    congr 1
    omega

/-- A cell outside the range keeps its value. -/
theorem store_of_not_mem {m : Nat → α} {a x : Nat} {bs : List α}
    (h : x < a ∨ a + bs.length ≤ x) : store m a bs x = m x := by
  induction bs generalizing m a with
  | nil => rfl
  | cons b bs ih =>
    simp only [List.length_cons] at h
    rw [store_cons, ih (by omega)]
    exact Function.update_of_ne (by omega) _ _

theorem store_of_lt {m : Nat → α} {a x : Nat} {bs : List α} (h : x < a) :
    store m a bs x = m x :=
  store_of_not_mem (Or.inl h)

theorem store_of_ge {m : Nat → α} {a x : Nat} {bs : List α} (h : a + bs.length ≤ x) :
    store m a bs x = m x :=
  store_of_not_mem (Or.inr h)

/-- The cell `i` of the range holds the `i`-th element. -/
theorem store_at (m : Nat → α) (a : Nat) {bs : List α} {i : Nat} (h : i < bs.length) :
    store m a bs (a + i) = bs[i] := by
  induction bs generalizing m a i with
  | nil => cases h
  | cons b bs ih =>
    rw [store_cons]
    cases i with
    | zero =>
      rw [store_of_lt (by omega), Nat.add_zero, Function.update_self, List.getElem_cons_zero]
    | succ i =>
      rw [show a + (i + 1) = a + 1 + i by omega, ih _ _ (by simpa using h), List.getElem_cons_succ]

theorem store_update_comm {m : Nat → α} {a x : Nat} {bs : List α} (v : α)
    (h : x < a ∨ a + bs.length ≤ x) :
    store (Function.update m x v) a bs = Function.update (store m a bs) x v := by
  funext y
  by_cases hy : y = x
  · subst hy
    rw [store_of_not_mem h, Function.update_self, Function.update_self]
  · rw [Function.update_of_ne hy]
    by_cases hin : y < a ∨ a + bs.length ≤ y
    · rw [store_of_not_mem hin, store_of_not_mem hin, Function.update_of_ne hy]
    · obtain ⟨i, hi, rfl⟩ : ∃ i, i < bs.length ∧ y = a + i :=
        ⟨y - a, by omega, by omega⟩
      rw [store_at _ _ hi, store_at _ _ hi]

theorem length_load (m : Nat → α) (a n : Nat) : (load m a n).length = n := by
  simp [load]

/-- A load of the range of a store reads the stored list. -/
theorem load_store (m : Nat → α) (a : Nat) (bs : List α) :
    load (store m a bs) a bs.length = bs := by
  apply List.ext_getElem (length_load _ _ _)
  intro i hi _
  simp only [load, List.getElem_map, List.getElem_range]
  exact store_at m a (by simpa [length_load] using hi)

/-- A load that ends before a store starts, or starts after it ends, does not see it. -/
theorem load_store_of_not_mem {m : Nat → α} {a b n : Nat} {bs : List α}
    (h : b + n ≤ a ∨ a + bs.length ≤ b) : load (store m a bs) b n = load m b n := by
  simp only [load]
  apply List.map_congr_left
  intro i hi
  exact store_of_not_mem (by simp only [List.mem_range] at hi; omega)

/-- Stores to disjoint ranges commute. -/
theorem store_comm {m : Nat → α} {a b : Nat} {bs cs : List α}
    (h : a + bs.length ≤ b ∨ b + cs.length ≤ a) :
    store (store m a bs) b cs = store (store m b cs) a bs := by
  funext x
  by_cases hb : a ≤ x ∧ x < a + bs.length
  · obtain ⟨i, hi, rfl⟩ : ∃ i, i < bs.length ∧ x = a + i := ⟨x - a, by omega, by omega⟩
    have hc : a + i < b ∨ b + cs.length ≤ a + i := by omega
    rw [store_of_not_mem hc, store_at _ _ hi, store_at _ _ hi]
  · have ha : x < a ∨ a + bs.length ≤ x := by omega
    rw [store_of_not_mem ha]
    by_cases hc : b ≤ x ∧ x < b + cs.length
    · obtain ⟨i, hi, rfl⟩ : ∃ i, i < cs.length ∧ x = b + i :=
        ⟨x - b, by omega, by omega⟩
      rw [store_at _ _ hi, store_at _ _ hi]
    · have hc' : x < b ∨ b + cs.length ≤ x := by omega
      rw [store_of_not_mem hc', store_of_not_mem hc', store_of_not_mem ha]

/-- A load of the middle part of a store reads that part. -/
theorem load_store_middle (m : Nat → α) (a : Nat) (bs cs ds : List α) :
    load (store m a (bs ++ cs ++ ds)) (a + bs.length) cs.length = cs := by
  rw [List.append_assoc, store_append, store_append, load_store_of_not_mem (Or.inl (Nat.le_refl _)),
    load_store]

/-- A load inside the range of a store reads the stored list from that offset. -/
theorem load_store_drop (m : Nat → α) (a : Nat) {bs : List α} {k n : Nat}
    (h : k + n ≤ bs.length) :
    load (store m a bs) (a + k) n = (bs.drop k).take n := by
  apply List.ext_getElem (by simp [length_load]; omega)
  intro i _ _
  simp only [load, List.getElem_map, List.getElem_range, List.getElem_take, List.getElem_drop]
  rw [Nat.add_assoc]
  exact store_at m a _

theorem length_reverse_flatten (bs : List (List α)) :
    bs.reverse.flatten.length = bs.flatten.length := by
  simp [List.length_flatten, List.sum_reverse]

/-! ## A stack of blocks -/

/-- Where block `i` starts when the blocks `bs` are pushed one below the other from `top`:
below `top` by the blocks up to and including it. -/
def blockStart (top : Nat) (bs : List (List α)) (i : Nat) : Nat :=
  top - (bs.take (i + 1)).flatten.length

theorem blockStart_cons_zero (top : Nat) (b : List α) (bs : List (List α)) :
    blockStart top (b :: bs) 0 = top - b.length := by
  simp [blockStart]

theorem blockStart_cons_succ (top : Nat) (b : List α) (bs : List (List α)) (i : Nat) :
    blockStart top (b :: bs) (i + 1) = blockStart (top - b.length) bs i := by
  simp only [blockStart, List.take_succ_cons, List.flatten_cons, List.length_append]
  omega

/-- The starts of all the blocks: the first one's, then those of the rest below it. -/
theorem map_blockStart_cons (top : Nat) (b : List α) (bs : List (List α)) :
    (List.range (bs.length + 1)).map (blockStart top (b :: bs)) =
      (top - b.length) :: (List.range bs.length).map (blockStart (top - b.length) bs) := by
  simp only [List.range_succ_eq_map, List.map_cons, List.map_map, blockStart_cons_zero]
  congr 1
  apply List.map_congr_left
  intro i _
  exact blockStart_cons_succ top b bs i

theorem blockStart_bounds {top : Nat} {bs : List (List α)} (h : bs.flatten.length ≤ top)
    {i : Nat} (hi : i < bs.length) :
    top - bs.flatten.length ≤ blockStart top bs i ∧
      blockStart top bs i + bs[i].length ≤ top := by
  induction bs generalizing top i with
  | nil => cases hi
  | cons b bs ih =>
    simp only [List.flatten_cons, List.length_append] at h ⊢
    cases i with
    | zero =>
      rw [blockStart_cons_zero, List.getElem_cons_zero]
      omega
    | succ k =>
      rw [blockStart_cons_succ, List.getElem_cons_succ]
      have := @ih (top - b.length) (by omega) k (by simpa using hi)
      omega

/-- Pushed from `top` down, the blocks fill the range below `top` as one store of the
reversed blocks, and a load at the start of each block reads it back. -/
theorem load_store_blocks (m : Nat → α) {top : Nat} {bs : List (List α)}
    (h : bs.flatten.length ≤ top) {i : Nat} (hi : i < bs.length) :
    load (store m (top - bs.flatten.length) bs.reverse.flatten) (blockStart top bs i) bs[i].length =
      bs[i] := by
  induction bs generalizing m top i with
  | nil => cases hi
  | cons b bs ih =>
    simp only [List.flatten_cons, List.length_append] at h
    -- the first block lies on top of the others
    have hsplit : store m (top - (b ++ bs.flatten).length) (b :: bs).reverse.flatten =
        store (store m (top - b.length - bs.flatten.length) bs.reverse.flatten)
          (top - b.length) b := by
      rw [List.reverse_cons, List.flatten_append, List.flatten_singleton, store_append,
        length_reverse_flatten, List.length_append]
      congr 2 <;> omega
    rw [List.flatten_cons, hsplit]
    cases i with
    | zero =>
      rw [blockStart_cons_zero, List.getElem_cons_zero, load_store]
    | succ k =>
      have hk : k < bs.length := by simpa using hi
      have hb := @blockStart_bounds α (top - b.length) bs (by omega) k hk
      rw [blockStart_cons_succ, List.getElem_cons_succ,
        load_store_of_not_mem (Or.inl hb.2), ih _ (by omega) hk]

end Memory
