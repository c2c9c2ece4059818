import Mathlib.Data.List.Perm.Subperm
import Pintos.Devices.Block
import Pintos.Lib.Links
import Pintos.Lib.Loop
import Pintos.Lib.RunMerge

/-!
The doubly linked lists of `lib/kernel/list.c` and `list_sort`, the natural merge sort over
them. A `struct list` at `list` is two header cells, the head at `list` and the tail at
`list + 8`, and every cell has a `prev` and a `next` link (`Links`). `list_sort` reads the
elements only through `less` and only relinks cells, so the model is the links alone and
`less` compares cells by address.

A well-formed list (`Linked`) is a `Chain`: the head, the elements and the tail linked in
order from a NULL `prev` to a NULL `next`, each once and none at NULL. The walks of
`is_sorted` and `find_end_of_run` go by induction on the cells left to walk; the loops of
`inplace_merge`, of a pass and of `list_sort` itself by `Loop.run_variant`, and a pass
refines `RunMerge.mergePass`:

* `isSorted_eq`: `is_sorted` decides that a range is in order;
* `findEndOfRun_eq`: `find_end_of_run` returns the end of the run of `RunMerge.splitRun`;
* `listSplice_spec`: `list_splice` of one cell moves it to before an earlier one;
* `inplaceMerge_spec`: `inplace_merge` relinks two runs into their `List.merge`;
* `sortPass_spec`: a pass of `list_sort` relinks the list into `RunMerge.mergePass`;
* `listSort_sorts_stably`: `list_sort` returns, for a strict weak order, a well-formed
  sorted permutation that keeps equal elements in order;
* `listSort_keeps_ties_in_order`: the same, with every group of equal elements kept in its
  input order.
-/

namespace Pintos

open Links RunMerge

section Cells

/-- `is_head (elem)`. -/
def isHead (h : Links) (elem : Nat) : Bool :=
  elem != 0 && h.prev elem == 0 && h.next elem != 0

/-- `is_interior (elem)`. -/
def isInterior (h : Links) (elem : Nat) : Bool :=
  elem != 0 && h.prev elem != 0 && h.next elem != 0

/-- `is_tail (elem)`. -/
def isTail (h : Links) (elem : Nat) : Bool :=
  elem != 0 && h.prev elem != 0 && h.next elem == 0

/-- `list_begin (list)`. -/
def listBegin (h : Links) (list : Nat) : Except Fault Nat :=
  if list = 0 then throw .panic else pure (h.next list)

/-- `list_end (list)`: `&list->tail`, the cell after the head's two pointers. -/
def listEnd (list : Nat) : Except Fault Nat :=
  if list = 0 then throw .panic else pure (list + 8)

/-- `list_next (elem)`. -/
def listNext (h : Links) (elem : Nat) : Except Fault Nat :=
  if isHead h elem || isInterior h elem then pure (h.next elem) else throw .panic

/-- `list_prev (elem)`. -/
def listPrev (h : Links) (elem : Nat) : Except Fault Nat :=
  if isInterior h elem || isTail h elem then pure (h.prev elem) else throw .panic

/-- `list_splice (before, first, last)`: the cells from `first` up to `last` (exclusive)
moved to just before `before`. -/
def listSplice (h : Links) (before first last : Nat) : Except Fault Links := do
  if !(isInterior h before || isTail h before) then throw .panic
  if first = last then return h
  let last ← listPrev h last
  if !isInterior h first then throw .panic
  if !isInterior h last then throw .panic
  pure (h.splice before first last)

/-- The cells `L` linked in order from a NULL `prev` to a NULL `next`, each once and none
at NULL. -/
structure Chain (h : Links) (L : List Nat) : Prop where
  dseg : DSeg h 0 L 0
  nodup : L.Nodup
  ne_zero : 0 ∉ L

instance (h : Links) (L : List Nat) : Decidable (Chain h L) :=
  decidable_of_iff (DSeg h 0 L 0 ∧ L.Nodup ∧ 0 ∉ L)
    ⟨fun ⟨a, b, c⟩ => ⟨a, b, c⟩, fun ⟨a, b, c⟩ => ⟨a, b, c⟩⟩

/-- A well-formed `struct list` at `list` holding the elements `l`: the head, the elements
and the tail form a `Chain` of 32-bit addresses. -/
structure Linked (h : Links) (list : Nat) (l : List Nat) : Prop where
  chain : Chain h (list :: l ++ [list + 8])
  lt : ∀ x ∈ list :: l ++ [list + 8], x < 2 ^ 32

instance (h : Links) (list : Nat) (l : List Nat) : Decidable (Linked h list l) :=
  decidable_of_iff (Chain h (list :: l ++ [list + 8]) ∧ ∀ x ∈ list :: l ++ [list + 8], x < 2 ^ 32)
    ⟨fun ⟨a, b⟩ => ⟨a, b⟩, fun ⟨a, b⟩ => ⟨a, b⟩⟩

variable {h : Links}

theorem isHead_or_isInterior (x : Nat) :
    (isHead h x || isInterior h x) = (x != 0 && h.next x != 0) := by
  simp only [isHead, isInterior, bne]
  cases h.prev x == 0 <;> simp

theorem isInterior_or_isTail (x : Nat) :
    (isInterior h x || isTail h x) = (x != 0 && h.prev x != 0) := by
  simp only [isInterior, isTail, bne]
  cases h.next x == 0 <;> simp

theorem listNext_of_ne_zero {x : Nat} (hx : x ≠ 0) (hn : h.next x ≠ 0) :
    listNext h x = .ok (h.next x) := by
  rw [listNext, isHead_or_isInterior]
  simp [hx, hn]

theorem listPrev_of_ne_zero {x : Nat} (hx : x ≠ 0) (hp : h.prev x ≠ 0) :
    listPrev h x = .ok (h.prev x) := by
  rw [listPrev, isInterior_or_isTail]
  simp [hx, hp]

theorem ne_of_nodup {L A B C : List Nat} {x y : Nat} (hnd : L.Nodup)
    (hL : L = A ++ x :: B ++ y :: C) : x ≠ y := by
  subst hL
  rw [List.nodup_append] at hnd
  exact hnd.2.2 x (by simp) y List.mem_cons_self

theorem length_le_of_lt {L : List Nat} {n : Nat} (hnd : L.Nodup) (hlt : ∀ x ∈ L, x < n) :
    L.length ≤ n := by
  have := (hnd.subperm fun x hx => List.mem_range.2 (hlt x hx)).length_le
  rwa [List.length_range] at this

/-- A well-formed list fits in the 32-bit address space with its two header cells. -/
theorem Linked.length_le {list : Nat} {l : List Nat} (hL : Linked h list l) :
    l.length + 2 ≤ 2 ^ 32 := by
  have := length_le_of_lt hL.chain.nodup hL.lt
  simp only [List.length_append, List.length_cons, List.length_nil] at this
  omega

namespace Chain

variable {L : List Nat}

theorem ne_zero_of_mem (hc : Chain h L) {x : Nat} (hx : x ∈ L) : x ≠ 0 :=
  fun h0 => hc.ne_zero (h0 ▸ hx)

/-- A chain that a relinking leaves in a permuted order is a chain, if it is linked. -/
theorem of_perm {h' : Links} {L' : List Nat} (hc : Chain h L) (hs : DSeg h' 0 L' 0)
    (hp : L'.Perm L) : Chain h' L' :=
  ⟨hs, hp.nodup_iff.2 hc.nodup, fun h0 => hc.ne_zero (hp.subset h0)⟩

theorem next_eq {A C : List Nat} {x y : Nat} (hc : Chain h L) (hL : L = A ++ x :: y :: C) :
    h.next x = y := by
  subst hL
  simpa using hc.dseg.links.2

theorem prev_eq {A C : List Nat} {x y : Nat} (hc : Chain h L) (hL : L = A ++ x :: y :: C) :
    h.prev y = x := by
  subst hL
  have hs : DSeg h 0 ((A ++ [x]) ++ y :: C) 0 := by simpa using hc.dseg
  simpa using hs.links.1

theorem listNext_eq {A C : List Nat} {x y : Nat} (hc : Chain h L) (hL : L = A ++ x :: y :: C) :
    listNext h x = .ok y := by
  rw [listNext_of_ne_zero (hc.ne_zero_of_mem (by simp [hL])) (by
    rw [hc.next_eq hL]; exact hc.ne_zero_of_mem (by simp [hL])), hc.next_eq hL]

theorem listPrev_eq {A C : List Nat} {x y : Nat} (hc : Chain h L) (hL : L = A ++ x :: y :: C) :
    listPrev h y = .ok x := by
  rw [listPrev_of_ne_zero (hc.ne_zero_of_mem (by simp [hL])) (by
    rw [hc.prev_eq hL]; exact hc.ne_zero_of_mem (by simp [hL])), hc.prev_eq hL]

/-- A cell with cells on both sides is interior. -/
theorem isInterior_eq {A C : List Nat} {x : Nat} (hc : Chain h L) (hL : L = A ++ x :: C)
    (hA : A ≠ []) (hC : C ≠ []) : isInterior h x = true := by
  obtain ⟨A, w, rfl⟩ : ∃ A' w, A = A' ++ [w] :=
    ⟨A.dropLast, A.getLast hA, (List.dropLast_append_getLast hA).symm⟩
  obtain ⟨y, C, rfl⟩ := List.exists_cons_of_ne_nil hC
  have hw : h.prev x = w := hc.prev_eq (A := A) (C := y :: C) (by simp [hL])
  have hy : h.next x = y := hc.next_eq (A := A ++ [w]) (C := C) (by simp [hL])
  simp only [isInterior, hw, hy, bne_iff_ne, ne_eq, Bool.and_eq_true]
  refine ⟨⟨?_, ?_⟩, ?_⟩ <;> exact hc.ne_zero_of_mem (by simp [hL])

end Chain

end Cells

section Splice

variable {h : Links}

/-- `list_splice (before, e, n)` with `n` the cell after `e` moves `e` to just before the
earlier cell `before`. -/
theorem listSplice_spec {A B C : List Nat} {before e n : Nat}
    (hc : Chain h (A ++ before :: B ++ e :: n :: C)) (hA : A ≠ []) :
    listSplice h before e n = .ok (h.splice before e e) ∧
      Chain (h.splice before e e) (A ++ e :: before :: B ++ n :: C) := by
  have hbefore : isInterior h before = true :=
    hc.isInterior_eq (A := A) (C := B ++ e :: n :: C) (by simp) hA (by simp)
  have he : isInterior h e = true :=
    hc.isInterior_eq (A := A ++ before :: B) (C := n :: C) (by simp) (by simp) (by simp)
  have hen : e ≠ n := ne_of_nodup hc.nodup (A := A ++ before :: B) (B := []) (C := C) (by simp)
  have hprev : listPrev h n = .ok e := hc.listPrev_eq (A := A ++ before :: B) (C := C) (by simp)
  refine ⟨?_, hc.of_perm (dseg_splice hA (List.cons_ne_nil _ _) hc.nodup hc.dseg) ?_⟩
  · simp [listSplice, hbefore, hen, hprev, he]
  · simp only [List.append_assoc, List.cons_append]
    exact List.Perm.append_left A (by simpa using (@List.perm_middle _ e (before :: B) (n :: C)).symm)

end Splice

section Walks

variable {h : Links} (less : Nat → Nat → Bool)

/-- One round of the `while` loop of `is_sorted (a, b, less, aux)`. -/
def isSortedRound (b a : Nat) : Except Fault (Bool ⊕ Nat) := do
  let a ← listNext h a
  if a = b then return .inl true
  let p ← listPrev h a
  if less a p then return .inl false
  return .inr a

/-- `is_sorted (a, b, less, aux)`. -/
def isSorted (h : Links) (a b : Nat) (less : Nat → Nat → Bool) : Except Fault Bool :=
  if a ≠ b then Loop.run (isSortedRound (h := h) less b) (fun _ => throw .diverge) (2 ^ 32) a
  else pure true

/-- One round of the `do ... while` loop of `find_end_of_run (a, b, less, aux)`. -/
def findEndOfRunRound (b a : Nat) : Except Fault (Nat ⊕ Nat) := do
  let a ← listNext h a
  if a = b then return .inl a
  let p ← listPrev h a
  if less a p then return .inl a
  return .inr a

/-- `find_end_of_run (a, b, less, aux)`; `ASSERT (less != NULL)` always holds of a Lean
function. -/
def findEndOfRun (h : Links) (a b : Nat) (less : Nat → Nat → Bool) : Except Fault Nat := do
  if a = 0 then throw .panic
  if b = 0 then throw .panic
  if a = b then throw .panic
  Loop.run (findEndOfRunRound (h := h) less b) (fun _ => throw .diverge) (2 ^ 32) a

theorem isSortedRound_last {P S : List Nat} {a b : Nat} (hc : Chain h (P ++ a :: b :: S)) :
    isSortedRound (h := h) less b a = .ok (.inl true) := by
  simp [isSortedRound, hc.listNext_eq (A := P) (C := S) rfl]

theorem isSortedRound_cons {P R S : List Nat} {a y b : Nat}
    (hc : Chain h (P ++ a :: y :: R ++ b :: S)) :
    isSortedRound (h := h) less b a = .ok (if less y a then .inl false else .inr y) := by
  have hyb : y ≠ b := ne_of_nodup hc.nodup (A := P ++ [a]) (B := R) (C := S) (by simp)
  rw [isSortedRound, hc.listNext_eq (A := P) (x := a) (y := y) (C := R ++ b :: S) (by simp),
    Trace.ok_bind, if_neg hyb,
    hc.listPrev_eq (A := P) (x := a) (y := y) (C := R ++ b :: S) (by simp), Trace.ok_bind]
  cases less y a <;> rfl

/-- The walk of `is_sorted` over the cells `a :: R` before `b`. Induction on `R`. -/
theorem isSorted_loop {b : Nat} {S : List Nat} : ∀ (R P : List Nat) (a fuel : Nat),
    Chain h (P ++ a :: R ++ b :: S) → R.length < fuel →
    Loop.run (isSortedRound (h := h) less b) (fun _ => throw .diverge) fuel a =
      .ok (decide ((a :: R).IsChain (fun x y => le less x y = true)))
  | _, _, _, 0, _, hfuel => absurd hfuel (Nat.not_lt_zero _)
  | [], P, a, fuel + 1, hc, _ => by
    rw [Loop.run_succ_of_stop (isSortedRound_last less (P := P) (by simpa using hc))]
    simp
  | y :: R, P, a, fuel + 1, hc, hfuel => by
    have hround := isSortedRound_cons less hc
    cases hya : less y a with
    | true =>
      rw [hya, if_pos rfl] at hround
      rw [Loop.run_succ_of_stop hround]
      simp [List.isChain_cons_cons, le, hya]
    | false =>
      rw [hya, if_neg Bool.false_ne_true] at hround
      rw [Loop.run_succ_of_next hround,
        isSorted_loop R (P ++ [a]) y fuel (by simpa using hc) (by simpa using hfuel)]
      simp [List.isChain_cons_cons (b := y), le, hya]

/-- `is_sorted (a, b)` over the cells `a :: R` before `b` tells whether they are in order. -/
theorem isSorted_eq {P R S : List Nat} {a b : Nat} (hc : Chain h (P ++ a :: R ++ b :: S))
    (hlen : (P ++ a :: R ++ b :: S).length ≤ 2 ^ 32) :
    isSorted h a b less = .ok (decide ((a :: R).IsChain (fun x y => le less x y = true))) := by
  have hab : a ≠ b := ne_of_nodup hc.nodup rfl
  rw [isSorted, if_pos hab]
  exact isSorted_loop less R P a _ hc (by simp at hlen; omega)

theorem findEndOfRunRound_last {P : List Nat} {a t : Nat} (hc : Chain h (P ++ [a, t])) :
    findEndOfRunRound (h := h) less t a = .ok (.inl t) := by
  simp [findEndOfRunRound, hc.listNext_eq (A := P) (C := []) rfl]

theorem findEndOfRunRound_cons {P R : List Nat} {a y t : Nat} (hc : Chain h (P ++ a :: y :: R ++ [t])) :
    findEndOfRunRound (h := h) less t a = .ok (if less y a then .inl y else .inr y) := by
  have hyt : y ≠ t := ne_of_nodup hc.nodup (A := P ++ [a]) (B := R) (C := []) (by simp)
  rw [findEndOfRunRound, hc.listNext_eq (A := P) (x := a) (y := y) (C := R ++ [t]) (by simp),
    Trace.ok_bind, if_neg hyt,
    hc.listPrev_eq (A := P) (x := a) (y := y) (C := R ++ [t]) (by simp), Trace.ok_bind]
  cases less y a <;> rfl

/-- The walk of `find_end_of_run` from `a` over the cells `R` before the tail `t`.
Induction on `R`. -/
theorem findEndOfRun_loop {t : Nat} : ∀ (R P : List Nat) (a fuel : Nat),
    Chain h (P ++ a :: R ++ [t]) → R.length < fuel →
    Loop.run (findEndOfRunRound (h := h) less t) (fun _ => throw .diverge) fuel a =
      .ok ((splitRun less a R).2.headD t)
  | _, _, _, 0, _, hfuel => absurd hfuel (Nat.not_lt_zero _)
  | [], P, a, fuel + 1, hc, _ => by
    rw [Loop.run_succ_of_stop (findEndOfRunRound_last less (P := P) (by simpa using hc))]
    rfl
  | y :: R, P, a, fuel + 1, hc, hfuel => by
    have hround := findEndOfRunRound_cons less hc
    cases hya : less y a with
    | true =>
      rw [hya, if_pos rfl] at hround
      rw [Loop.run_succ_of_stop hround]
      simp [splitRun, hya]
    | false =>
      rw [hya, if_neg Bool.false_ne_true] at hround
      rw [Loop.run_succ_of_next hround,
        findEndOfRun_loop R (P ++ [a]) y fuel (by simpa using hc) (by simpa using hfuel)]
      simp [splitRun, hya]

/-- `find_end_of_run (a, t)` for the tail `t` returns where the run of `splitRun` from `a`
ends: the first cell less than the one before it, or the tail. -/
theorem findEndOfRun_eq {P R : List Nat} {a t : Nat} (hc : Chain h (P ++ a :: R ++ [t]))
    (hlen : (P ++ a :: R ++ [t]).length ≤ 2 ^ 32) :
    findEndOfRun h a t less = .ok ((splitRun less a R).2.headD t) := by
  have ha : a ≠ 0 := hc.ne_zero_of_mem (by simp)
  have ht : t ≠ 0 := hc.ne_zero_of_mem (by simp)
  have hat : a ≠ t := ne_of_nodup hc.nodup (A := P) (B := R) (C := []) rfl
  simp only [findEndOfRun, ha, ht, hat, if_false]
  exact findEndOfRun_loop less R P a _ hc (by simp at hlen; omega)

end Walks

section Merge

variable {h : Links} (less : Nat → Nat → Bool)

/-- One round of the `while` loop of `inplace_merge (a0, a1b0, b1, less, aux)`: `a0` steps
on past a cell of the first run that goes first, or the cell at `a1b0` is spliced in
before `a0`. -/
def inplaceMergeRound (b1 : Nat) : Links × Nat × Nat → Except Fault (Links ⊕ Links × Nat × Nat)
  | (h, a0, a1b0) =>
    if a0 = a1b0 ∨ a1b0 = b1 then pure (.inl h)
    else if !less a1b0 a0 then do
      let a0 ← listNext h a0
      pure (.inr (h, a0, a1b0))
    else do
      let a1b0 ← listNext h a1b0
      let first ← listPrev h a1b0
      let h ← listSplice h a0 first a1b0
      pure (.inr (h, a0, a1b0))

/-- `inplace_merge (a0, a1b0, b1, less, aux)`. -/
def inplaceMerge (h : Links) (a0 a1b0 b1 : Nat) (less : Nat → Nat → Bool) :
    Except Fault Links := do
  if a0 = 0 then throw .panic
  if a1b0 = 0 then throw .panic
  if b1 = 0 then throw .panic
  if !(← isSorted h a0 a1b0 less) then throw .panic
  if !(← isSorted h a1b0 b1 less) then throw .panic
  Loop.run (inplaceMergeRound less b1) (fun _ => throw .diverge) (2 ^ 32) (h, a0, a1b0)

/-- `inplace_merge` part way: the cells are `P`, the merged output `M`, what is left `X`
and `Y` of the two runs, and `b1 :: S`; `a0` and `a1b0` are where `X` and `Y` start. -/
def Merging (P S : List Nat) (b1 : Nat) (M X Y : List Nat) : Links × Nat × Nat → Prop
  | (h, a0, a1b0) =>
    Chain h (P ++ M ++ X ++ Y ++ b1 :: S) ∧ a0 = (X ++ Y).headD b1 ∧ a1b0 = Y.headD b1

variable {P S : List Nat} {b1 : Nat}

theorem inplaceMergeRound_done {M X Y : List Nat} {a0 a1b0 : Nat}
    (hs : Merging P S b1 M X Y (h, a0, a1b0)) (hXY : X = [] ∨ Y = []) :
    inplaceMergeRound less b1 (h, a0, a1b0) = .ok (.inl h) := by
  obtain ⟨-, ha0, ha1b0⟩ := hs
  have hstop : a0 = a1b0 ∨ a1b0 = b1 := by
    rcases hXY with rfl | rfl
    · exact .inl (by rw [ha0, ha1b0, List.nil_append])
    · exact .inr ha1b0
  rw [inplaceMergeRound, if_pos hstop]
  rfl

/-- The cell of the first run goes first: `a0` steps on. -/
theorem inplaceMergeRound_le {M X Y : List Nat} {x y a0 a1b0 : Nat}
    (hs : Merging P S b1 M (x :: X) (y :: Y) (h, a0, a1b0)) (hyx : less y x = false) :
    ∃ s', inplaceMergeRound less b1 (h, a0, a1b0) = .ok (.inr s') ∧
      Merging P S b1 (M ++ [x]) X (y :: Y) s' := by
  obtain ⟨hc, ha0, ha1b0⟩ := hs
  simp only [List.cons_append, List.headD_cons] at ha0 ha1b0
  subst a0 a1b0
  have hxy : x ≠ y := ne_of_nodup hc.nodup (A := P ++ M) (B := X) (C := Y ++ b1 :: S) (by simp)
  have hyb : y ≠ b1 := ne_of_nodup hc.nodup (A := P ++ M ++ x :: X) (B := Y) (C := S) (by simp)
  obtain ⟨n, C, hnC, hn⟩ : ∃ n C, X ++ y :: Y ++ b1 :: S = n :: C ∧ (X ++ y :: Y).headD b1 = n := by
    cases X <;> exact ⟨_, _, rfl, rfl⟩
  have hnext : listNext h x = .ok n :=
    hc.listNext_eq (A := P ++ M) (C := C) (by simp [← hnC])
  refine ⟨(h, n, y), ?_, by simpa using hc, hn.symm, rfl⟩
  simp [inplaceMergeRound, hxy, hyb, hyx, hnext]

/-- The cell of the second run goes first: it is spliced in before `a0`. -/
theorem inplaceMergeRound_lt {M X Y : List Nat} {x y a0 a1b0 : Nat} (hP : P ≠ [])
    (hs : Merging P S b1 M (x :: X) (y :: Y) (h, a0, a1b0)) (hyx : less y x = true) :
    ∃ s', inplaceMergeRound less b1 (h, a0, a1b0) = .ok (.inr s') ∧
      Merging P S b1 (M ++ [y]) (x :: X) Y s' := by
  obtain ⟨hc, ha0, ha1b0⟩ := hs
  simp only [List.cons_append, List.headD_cons] at ha0 ha1b0
  subst a0 a1b0
  have hxy : x ≠ y := ne_of_nodup hc.nodup (A := P ++ M) (B := X) (C := Y ++ b1 :: S) (by simp)
  have hyb : y ≠ b1 := ne_of_nodup hc.nodup (A := P ++ M ++ x :: X) (B := Y) (C := S) (by simp)
  obtain ⟨n, C, hnC, hn⟩ : ∃ n C, Y ++ b1 :: S = n :: C ∧ Y.headD b1 = n := by
    cases Y <;> exact ⟨_, _, rfl, rfl⟩
  have hc' : Chain h ((P ++ M) ++ x :: X ++ y :: n :: C) := by simpa [← hnC] using hc
  have hnext : listNext h y = .ok n := hc'.listNext_eq (A := P ++ M ++ x :: X) (C := C) (by simp)
  have hprev : listPrev h n = .ok y := hc'.listPrev_eq (A := P ++ M ++ x :: X) (C := C) (by simp)
  obtain ⟨hsplice, hc''⟩ := listSplice_spec hc' (by simp [hP])
  refine ⟨(h.splice x y y, x, n), ?_, ?_, by simp, hn.symm⟩
  · simp [inplaceMergeRound, hxy, hyb, hyx, hnext, hprev, hsplice]
  · simpa [← hnC] using hc''

/-- The loop of `inplace_merge` merges what is left of the two runs. `Loop.run_variant`
over the output and the two runs, the variant being the cells left in the runs. -/
theorem inplaceMerge_loop {A B : List Nat} (hP : P ≠ []) (fuel : Nat) (M X Y : List Nat)
    (s : Links × Nat × Nat) (hs : Merging P S b1 M X Y s)
    (hm : M ++ X.merge Y (le less) = A.merge B (le less)) (hfuel : X.length + Y.length < fuel) :
    ∃ h', Loop.run (inplaceMergeRound less b1) (fun _ => throw .diverge) fuel s = .ok h' ∧
      Chain h' (P ++ A.merge B (le less) ++ b1 :: S) := by
  refine Loop.run_variant
    (fun (g : List Nat × List Nat × List Nat) s => Merging P S b1 g.1 g.2.1 g.2.2 s ∧
      g.1 ++ g.2.1.merge g.2.2 (le less) = A.merge B (le less))
    (fun g => g.2.1.length + g.2.2.length) _ ?_ fuel (M, X, Y) s ⟨hs, hm⟩ hfuel
  rintro ⟨M, X, Y⟩ ⟨h, a0, a1b0⟩ ⟨hs, hm⟩
  -- the loop stops once one run is used up: the cells are then the merge
  have hdone : X = [] ∨ Y = [] → Chain h (P ++ A.merge B (le less) ++ b1 :: S) := by
    rintro (rfl | rfl)
    · simpa [← hm] using hs.1
    · simpa [← hm] using hs.1
  cases X with
  | nil => exact .inl ⟨h, inplaceMergeRound_done less hs (.inl rfl), hdone (.inl rfl)⟩
  | cons x X =>
    cases Y with
    | nil => exact .inl ⟨h, inplaceMergeRound_done less hs (.inr rfl), hdone (.inr rfl)⟩
    | cons y Y =>
      refine .inr ?_
      cases hyx : less y x with
      | false =>
        obtain ⟨s', hround, hs'⟩ := inplaceMergeRound_le less hs hyx
        refine ⟨(M ++ [x], X, y :: Y), s', hround, ⟨hs', ?_⟩, by simp⟩
        simpa [List.cons_merge_cons, le, hyx] using hm
      | true =>
        obtain ⟨s', hround, hs'⟩ := inplaceMergeRound_lt less hP hs hyx
        refine ⟨(M ++ [y], x :: X, Y), s', hround, ⟨hs', ?_⟩, by simp⟩
        simpa [List.cons_merge_cons, le, hyx] using hm

/-- `inplace_merge (a0, a1b0, b1)` over two runs in order relinks them into their merge. -/
theorem inplaceMerge_spec {A B : List Nat} {a0 a1b0 : Nat}
    (hc : Chain h (P ++ a0 :: A ++ a1b0 :: B ++ b1 :: S)) (hP : P ≠ [])
    (hA : (a0 :: A).IsChain (fun x y => le less x y = true))
    (hB : (a1b0 :: B).IsChain (fun x y => le less x y = true))
    (hlen : (P ++ a0 :: A ++ a1b0 :: B ++ b1 :: S).length ≤ 2 ^ 32) :
    ∃ h', inplaceMerge h a0 a1b0 b1 less = .ok h' ∧
      Chain h' (P ++ (a0 :: A).merge (a1b0 :: B) (le less) ++ b1 :: S) := by
  have hsA : isSorted h a0 a1b0 less = .ok true := by
    rw [isSorted_eq less (P := P) (S := B ++ b1 :: S) (by simpa using hc) (by simp at hlen ⊢; omega)]
    simp [hA]
  have hsB : isSorted h a1b0 b1 less = .ok true := by
    rw [isSorted_eq less (P := P ++ a0 :: A) (S := S) (by simpa using hc) (by simp at hlen ⊢; omega)]
    simp [hB]
  have h0 : a0 ≠ 0 := hc.ne_zero_of_mem (by simp)
  have h1 : a1b0 ≠ 0 := hc.ne_zero_of_mem (by simp)
  have h2 : b1 ≠ 0 := hc.ne_zero_of_mem (by simp)
  simp only [inplaceMerge, h0, h1, h2, hsA, hsB, if_false]
  refine inplaceMerge_loop less hP _ [] (a0 :: A) (a1b0 :: B) (h, a0, a1b0) ?_ (by simp) ?_
  · exact ⟨by simpa using hc, rfl, rfl⟩
  · simp at hlen ⊢
    omega

end Merge

section Passes

variable {h : Links} (less : Nat → Nat → Bool)

/-- One round of the `for` loop of a pass of `list_sort (list, less, aux)`, from `a0` with
`output_run_cnt` runs output so far: the pass ends at the tail, or at the `break` when the
run from `a0` reaches it; otherwise the two runs from `a0` are merged and the loop goes on
from `b1`. -/
def sortPassRound (list : Nat) : Links × Nat × Nat →
    Except Fault ((Links × Nat) ⊕ Links × Nat × Nat)
  | (h, a0, outputRunCnt) => do
    let e ← listEnd list
    if a0 = e then return .inl (h, outputRunCnt)
    let outputRunCnt := outputRunCnt + 1
    let a1b0 ← findEndOfRun h a0 e less
    if a1b0 = e then return .inl (h, outputRunCnt)
    let b1 ← findEndOfRun h a1b0 e less
    let h ← inplaceMerge h a0 a1b0 b1 less
    return .inr (h, b1, outputRunCnt)

/-- A pass of `list_sort`: `output_run_cnt = 0` and the `for` loop from `list_begin (list)`. -/
def sortPass (h : Links) (list : Nat) (less : Nat → Nat → Bool) : Except Fault (Links × Nat) := do
  let a0 ← listBegin h list
  Loop.run (sortPassRound less list) (fun _ => throw .diverge) (2 ^ 32) (h, a0, 0)

/-- One round of the `do ... while (output_run_cnt > 1)` loop of `list_sort`. -/
def listSortRound (list : Nat) (h : Links) : Except Fault (Links ⊕ Links) := do
  let (h, outputRunCnt) ← sortPass h list less
  if outputRunCnt > 1 then pure (.inr h) else pure (.inl h)

/-- `list_sort (list, less, aux)`; `ASSERT (less != NULL)` always holds of a Lean function. -/
def listSort (h : Links) (list : Nat) (less : Nat → Nat → Bool) : Except Fault Links := do
  if list = 0 then throw .panic
  let h ← Loop.run (listSortRound less list) (fun _ => throw .diverge) (2 ^ 32) h
  let b ← listBegin h list
  let e ← listEnd list
  if !(← isSorted h b e less) then throw .panic
  pure h

/-- A pass part way over the list `l` at `list`: the cells are the head, the runs output so
far `D`, the cells `R` still to pass over and the tail; `a0` starts `R`, and `D` and
`output_run_cnt` are what the pass over `l` outputs before it comes to `R`. -/
def Passing (list : Nat) (l D R : List Nat) : Links × Nat × Nat → Prop
  | (h, a0, outputRunCnt) =>
    Chain h (list :: D ++ R ++ [list + 8]) ∧ a0 = R.headD (list + 8) ∧
      D ++ (mergePass less R).1 = (mergePass less l).1 ∧
      outputRunCnt + (mergePass less R).2 = (mergePass less l).2

variable {list : Nat} {l : List Nat}

theorem listBegin_eq (hc : Chain h (list :: l ++ [list + 8])) :
    listBegin h list = .ok (l.headD (list + 8)) := by
  have hlist : list ≠ 0 := hc.ne_zero_of_mem (by simp)
  obtain ⟨y, C, hyC, hy⟩ : ∃ y C, l ++ [list + 8] = y :: C ∧ l.headD (list + 8) = y := by
    cases l <;> exact ⟨_, _, rfl, rfl⟩
  rw [listBegin, if_neg hlist, hy, hc.next_eq (A := []) (y := y) (C := C) (by simp [← hyC])]
  rfl

theorem passing_length {D R : List Nat} {a0 cnt : Nat}
    (hs : Passing less list l D R (h, a0, cnt)) : D.length + R.length = l.length := by
  have := congrArg List.length hs.2.2.1
  rwa [List.length_append, (mergePass_perm less R).length_eq,
    (mergePass_perm less l).length_eq] at this

theorem sortPassRound_end {D : List Nat} {a0 cnt : Nat}
    (hs : Passing less list l D [] (h, a0, cnt)) :
    sortPassRound less list (h, a0, cnt) = .ok (.inl (h, cnt)) := by
  obtain ⟨hc, ha0, -⟩ := hs
  have hlist : list ≠ 0 := hc.ne_zero_of_mem (by simp)
  simp [sortPassRound, listEnd, hlist, ha0]

/-- The run from `a0` reaches the tail: the `break`. -/
theorem sortPassRound_one_run {D rest : List Nat} {x a0 cnt : Nat}
    (hs : Passing less list l D (x :: rest) (h, a0, cnt)) (hrun : (splitRun less x rest).2 = [])
    (hlen : (list :: D ++ x :: rest ++ [list + 8]).length ≤ 2 ^ 32) :
    sortPassRound less list (h, a0, cnt) = .ok (.inl (h, cnt + 1)) := by
  obtain ⟨hc, ha0, -⟩ := hs
  simp only [List.headD_cons] at ha0
  subst a0
  have hlist : list ≠ 0 := hc.ne_zero_of_mem (by simp)
  have hxt : x ≠ list + 8 := ne_of_nodup hc.nodup (A := list :: D) (B := rest) (C := []) rfl
  have hend := findEndOfRun_eq less (P := list :: D) hc hlen
  rw [hrun] at hend
  simp [sortPassRound, listEnd, hlist, hxt, hend]

/-- Two runs from `a0`: they are merged, and the pass goes on after them. -/
theorem sortPassRound_two_runs {D rest rest' : List Nat} {x y a0 cnt : Nat}
    (hs : Passing less list l D (x :: rest) (h, a0, cnt))
    (hrun : (splitRun less x rest).2 = y :: rest')
    (hlen : (list :: D ++ x :: rest ++ [list + 8]).length ≤ 2 ^ 32) :
    ∃ s', sortPassRound less list (h, a0, cnt) = .ok (.inr s') ∧
      Passing less list l
        (D ++ (x :: (splitRun less x rest).1).merge (y :: (splitRun less y rest').1) (le less))
        (splitRun less y rest').2 s' := by
  obtain ⟨hc, ha0, hD, hcnt⟩ := hs
  simp only [List.headD_cons] at ha0
  subst a0
  have hlist : list ≠ 0 := hc.ne_zero_of_mem (by simp)
  -- the cells: the head, `D`, the two runs, what follows them, and the tail
  have hrest : rest = (splitRun less x rest).1 ++ y :: rest' := by
    rw [← hrun, splitRun_append]
  have hrest' : rest' = (splitRun less y rest').1 ++ (splitRun less y rest').2 :=
    (splitRun_append less y rest').symm
  obtain ⟨b1, S, hQ, hb1⟩ : ∃ b1 S, (splitRun less y rest').2 ++ [list + 8] = b1 :: S ∧
      (splitRun less y rest').2.headD (list + 8) = b1 := by
    cases (splitRun less y rest').2 <;> exact ⟨_, _, rfl, rfl⟩
  have hcells₁ : list :: D ++ x :: rest ++ [list + 8] =
      (list :: D ++ x :: (splitRun less x rest).1) ++ y :: rest' ++ [list + 8] := by
    conv_lhs => rw [hrest]
    simp
  have hcells₂ : list :: D ++ x :: rest ++ [list + 8] = list :: D ++ x :: (splitRun less x rest).1 ++
      y :: (splitRun less y rest').1 ++ b1 :: S := by
    rw [hcells₁]
    conv_lhs => rw [hrest']
    simp [← hQ]
  have hxt : x ≠ list + 8 := ne_of_nodup hc.nodup (A := list :: D) (B := rest) (C := []) rfl
  have hyt : y ≠ list + 8 := ne_of_nodup (hcells₁ ▸ hc.nodup) rfl
  have hend₁ := findEndOfRun_eq less (P := list :: D) hc hlen
  rw [hrun] at hend₁
  have hend₂ := findEndOfRun_eq less (hcells₁ ▸ hc) (hcells₁ ▸ hlen)
  rw [hb1] at hend₂
  obtain ⟨h', hmerge, hc'⟩ := inplaceMerge_spec less (hcells₂ ▸ hc) (List.cons_ne_nil _ _)
    (isChain_splitRun less x rest) (isChain_splitRun less y rest') (hcells₂ ▸ hlen)
  refine ⟨(h', b1, cnt + 1), ?_, ?_, hb1.symm, ?_, ?_⟩
  · simp [sortPassRound, listEnd, hlist, hxt, hend₁, hyt, hend₂, hmerge]
  · simpa [← hQ] using hc'
  · rw [← hD, mergePass_of_two_runs less hrun, List.append_assoc]
  · rw [← hcnt, mergePass_of_two_runs less hrun]
    omega

/-- A pass of `list_sort` relinks the list into the output of `RunMerge.mergePass` and
counts its runs. `Loop.run_variant` over the runs output and the cells left, the variant
being the cells left. -/
theorem sortPass_spec (hc : Chain h (list :: l ++ [list + 8])) (hlen : l.length + 2 ≤ 2 ^ 32) :
    ∃ h', sortPass h list less = .ok (h', (mergePass less l).2) ∧
      Chain h' (list :: (mergePass less l).1 ++ [list + 8]) := by
  have hstep : ∀ (g : List Nat × List Nat) (s : Links × Nat × Nat), Passing less list l g.1 g.2 s →
      (∃ r, sortPassRound less list s = .ok (.inl r) ∧
        r.2 = (mergePass less l).2 ∧ Chain r.1 (list :: (mergePass less l).1 ++ [list + 8])) ∨
      ∃ (g' : List Nat × List Nat) (s' : Links × Nat × Nat), sortPassRound less list s = .ok (.inr s') ∧
        Passing less list l g'.1 g'.2 s' ∧
        g'.2.length < g.2.length := by
    rintro ⟨D, R⟩ ⟨h, a0, cnt⟩ hs
    have hlen' : (list :: D ++ R ++ [list + 8]).length ≤ 2 ^ 32 := by
      have := passing_length less hs
      simp only [List.length_append, List.length_cons, List.length_nil] at this ⊢
      omega
    obtain ⟨hc, -, hD, hcnt⟩ := id hs
    cases R with
    | nil =>
      refine .inl ⟨(h, cnt), sortPassRound_end less hs, ?_, ?_⟩
      · simpa [mergePass] using hcnt
      · simpa [← hD, mergePass] using hc
    | cons x rest =>
      cases hrun : (splitRun less x rest).2 with
      | nil =>
        refine .inl ⟨(h, cnt + 1), sortPassRound_one_run less hs hrun hlen', ?_, ?_⟩
        · simpa [mergePass_of_one_run less hrun] using hcnt
        · have hrest : rest = (splitRun less x rest).1 := by
            simpa [hrun] using (splitRun_append less x rest).symm
          rw [← hD, mergePass_of_one_run less hrun]
          simpa [← hrest] using hc
      | cons y rest' =>
        obtain ⟨s', hround, hs'⟩ := sortPassRound_two_runs less hs hrun hlen'
        refine .inr ⟨(_, _), s', hround, hs', ?_⟩
        have h₁ := length_splitRun_snd_le less y rest'
        have h₂ := length_splitRun_snd_le less x rest
        rw [hrun, List.length_cons] at h₂
        show (splitRun less y rest').2.length < (x :: rest).length
        rw [List.length_cons]
        omega
  obtain ⟨⟨h', cnt⟩, hrun, hcnt, hc'⟩ := Loop.run_variant (fun g s => Passing less list l g.1 g.2 s)
    (fun g => g.2.length) _ hstep (2 ^ 32) ([], l) (h, l.headD (list + 8), 0)
    ⟨by simpa using hc, rfl, rfl, Nat.zero_add _⟩ (by simp only; omega)
  refine ⟨h', ?_, hc'⟩
  rw [sortPass, listBegin_eq hc, Trace.ok_bind, hrun, ← hcnt]

section Order

variable [IsStrictWeakOrder Nat (fun a b => less a b = true)]

/-- The passes of `list_sort`: each keeps the list a well-formed permutation of `l` in
which every sublist of `l` in order stays a sublist, and one that outputs two runs or more
removes descents. `Loop.run_variant` over the list, the variant being its descents. -/
theorem listSort_loop (fuel : Nat) (g : List Nat) (hL : Linked h list g) (hp : g.Perm l)
    (hsub : ∀ c : List Nat, c.Sublist l → c.Pairwise (fun a b => le less a b = true) → c.Sublist g)
    (hfuel : descents less g < fuel) :
    ∃ h', Loop.run (listSortRound less list) (fun _ => throw .diverge) fuel h = .ok h' ∧
      ∃ l', Linked h' list l' ∧ l'.Perm l ∧
        (∀ c : List Nat, c.Sublist l → c.Pairwise (fun a b => le less a b = true) → c.Sublist l') ∧
        l'.IsChain (fun a b => le less a b = true) := by
  refine Loop.run_variant (fun g h => Linked h list g ∧ g.Perm l ∧
      ∀ c : List Nat, c.Sublist l → c.Pairwise (fun a b => le less a b = true) → c.Sublist g)
    (descents less) _ ?_ fuel g h ⟨hL, hp, hsub⟩ hfuel
  rintro g h ⟨hL, hp, hsub⟩
  obtain ⟨h', hpass, hc'⟩ := sortPass_spec less hL.chain hL.length_le
  have hperm : (list :: (mergePass less g).1 ++ [list + 8]).Perm (list :: g ++ [list + 8]) :=
    ((mergePass_perm less g).append_right _).cons list
  have hL' : Linked h' list (mergePass less g).1 := ⟨hc', fun x hx => hL.lt x (hperm.subset hx)⟩
  have hp' : (mergePass less g).1.Perm l := (mergePass_perm less g).trans hp
  have hsub' : ∀ c : List Nat, c.Sublist l → c.Pairwise (fun a b => le less a b = true) →
      c.Sublist (mergePass less g).1 :=
    fun c hc hpw => sublist_mergePass less g c (hsub c hc hpw) hpw
  by_cases hcnt : 1 < (mergePass less g).2
  · -- two runs or more: another pass, over a list with fewer descents
    refine .inr ⟨(mergePass less g).1, h', ?_, ⟨hL', hp', hsub'⟩,
      descents_mergePass_of_two_le less hcnt⟩
    simp [listSortRound, hpass, hcnt]
  · -- one run: the list is sorted
    refine .inl ⟨h', ?_, (mergePass less g).1, hL', hp', hsub',
      isChain_mergePass_of_count_le_one less g (by omega)⟩
    simp [listSortRound, hpass, hcnt]

/-- `list_sort` over a well-formed list returns, its final `ASSERT` passing: a well-formed
permutation in order, in which every sublist of the input that is in order stays a
sublist. -/
theorem listSort_ok (hL : Linked h list l) :
    ∃ h' l', listSort h list less = .ok h' ∧ Linked h' list l' ∧ l'.Perm l ∧
      l'.IsChain (fun a b => less b a = false) ∧
      ∀ c : List Nat, c.Sublist l → c.Pairwise (fun a b => le less a b = true) →
        c.Sublist l' := by
  have hlist : list ≠ 0 := hL.chain.ne_zero_of_mem (by simp)
  have hlen := hL.length_le
  obtain ⟨h', hrun, l', hL', hp, hsub, hsorted⟩ := listSort_loop less (2 ^ 32) l hL
    (List.Perm.refl l) (fun c hc _ => hc) (by have := descents_le_length less l; omega)
  have hlen' := hL'.length_le
  -- the final `ASSERT (is_sorted (list_begin (list), list_end (list), less, aux))`
  have hcheck : isSorted h' (l'.headD (list + 8)) (list + 8) less = .ok true := by
    cases l' with
    | nil => simp [isSorted]
    | cons x l'' =>
      rw [List.headD_cons, isSorted_eq less (P := [list]) (S := []) (by simpa using hL'.chain)
        (by simp at hlen' ⊢; omega)]
      simpa using hsorted
  refine ⟨h', l', ?_, hL', hp, ?_, hsub⟩
  · simp only [listSort, hlist, ↓reduceIte, pure_bind, hrun, Trace.ok_bind,
      listBegin_eq hL'.chain, listEnd, hcheck]
    rfl
  · refine hsorted.imp fun _ _ hab => ?_
    simpa only [le, Bool.not_eq_true'] using hab

/-- `list_sort` over a well-formed list, for a `less` that is a strict weak order, returns:
the list is well-formed, holds the same elements each once, in order (no element less than
the one before it), and an element that is not less than one before it in the input is
still after it, so equal elements keep their order. -/
theorem listSort_sorts_stably (hL : Linked h list l) :
    ∃ h' l', listSort h list less = .ok h' ∧ Linked h' list l' ∧ l'.Perm l ∧
      l'.IsChain (fun a b => less b a = false) ∧
      ∀ a b, [a, b].Sublist l → less b a = false → [a, b].Sublist l' := by
  obtain ⟨h', l', hrun, hL', hp, hsorted, hsub⟩ := listSort_ok less hL
  exact ⟨h', l', hrun, hL', hp, hsorted, fun a b hab hba => hsub [a, b] hab (by simp [le, hba])⟩

/-- `list_sort` sorts a well-formed list in place and keeps ties in order: it returns with
the list well-formed, a permutation of the input, no element less than the one before it,
and every group of elements equal under `less` in the order the input had them. -/
theorem listSort_keeps_ties_in_order (hL : Linked h list l) :
    ∃ h' l', listSort h list less = .ok h' ∧ Linked h' list l' ∧ l'.Perm l ∧
      l'.IsChain (fun a b => less b a = false) ∧
      ∀ c : List Nat, c.Sublist l →
        c.Pairwise (fun a b => less a b = false ∧ less b a = false) → c.Sublist l' := by
  obtain ⟨h', l', hrun, hL', hp, hsorted, hsub⟩ := listSort_ok less hL
  -- elements equal under `less` are in order, either way round
  exact ⟨h', l', hrun, hL', hp, hsorted,
    fun c hc heq => hsub c hc (heq.imp fun hab => by simp [le, hab.2])⟩

end Order

/-- Cells ordered by their tens: the key a `less` reads from the elements. -/
def byTens (a b : Nat) : Bool := a / 10 < b / 10

instance : IsStrictWeakOrder Nat (fun a b => byTens a b = true) where
  irrefl a := by simp [byTens]
  trans a b c := by simp only [byTens, decide_eq_true_eq]; omega
  incomp_trans a b c := by simp only [byTens, decide_eq_true_eq]; omega

/-- A list at 100 holding the cells 31, 12, 35 and 17, in that order. -/
def tensList : Links where
  prev x := if x = 31 then 100 else if x = 12 then 31 else if x = 35 then 12 else
    if x = 17 then 35 else if x = 108 then 17 else 0
  next x := if x = 100 then 31 else if x = 31 then 12 else if x = 12 then 35 else
    if x = 35 then 17 else if x = 17 then 108 else 0

theorem listSort_sorts_stably_by_tens : Linked tensList 100 [31, 12, 35, 17] ∧
    ∃ h' l', listSort tensList 100 byTens = .ok h' ∧ Linked h' 100 l' ∧
      l'.Perm [31, 12, 35, 17] ∧ l'.IsChain (fun a b => byTens b a = false) ∧
      ∀ a b, [a, b].Sublist [31, 12, 35, 17] → byTens b a = false → [a, b].Sublist l' :=
  ⟨by decide, listSort_sorts_stably byTens (by decide)⟩

theorem listSort_keeps_ties_in_order_by_tens : Linked tensList 100 [31, 12, 35, 17] ∧
    ∃ h' l', listSort tensList 100 byTens = .ok h' ∧ Linked h' 100 l' ∧
      l'.Perm [31, 12, 35, 17] ∧ l'.IsChain (fun a b => byTens b a = false) ∧
      ∀ c : List Nat, c.Sublist [31, 12, 35, 17] →
        c.Pairwise (fun a b => byTens a b = false ∧ byTens b a = false) → c.Sublist l' :=
  ⟨by decide, listSort_keeps_ties_in_order byTens (by decide)⟩

end Passes

end Pintos
