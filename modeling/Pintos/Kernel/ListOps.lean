import Pintos.Kernel.List
import Pintos.Lib.OrderedList

/-!
The other operations of `lib/kernel/list.c`, over the cells of `Pintos.Kernel.List`. Each is
specified on a well-formed list (`Linked`) by the links it leaves and the list of elements
they hold:

* `listInit_spec`: `list_init` makes an empty list;
* `listInsert_spec`, `listPushFront_spec`, `listPushBack_spec`: a fresh cell linked in;
* `listRemove_spec`, `listPopFront_spec`, `listPopBack_spec`: a cell taken out, keeping its
  own links (`Links.unlink_next_self`), so that `list_remove` returns what followed it;
* `listSize_eq`, `listEmpty_eq`: the walks that count;
* `listReverse_spec`: `list_reverse` turns the links of every cell round;
* `listInsertOrdered_spec`: `list_insert_ordered` is `List.orderedInsert`, so it keeps a
  sorted list sorted (`listInsertOrdered_keeps_sorted`);
* `listUnique_spec`, `listUnique_moves_duplicates`: `list_unique` is `List.destutter`, and
  what it drops goes to the back of `duplicates`, a second list apart from the first;
* `listMax_first_greatest`, `listMin_first_least`: the first greatest and least elements.
-/

namespace Pintos

open Links RunMerge OrderedList

section Operations

/-- `list_init (list)`. -/
def listInit (h : Links) (list : Nat) : Except Fault Links := do
  if list = 0 then throw .panic
  let h := h.setPrev list 0
  let h := h.setNext list (list + 8)
  let h := h.setPrev (list + 8) list
  pure (h.setNext (list + 8) 0)

/-- `list_rbegin (list)`. -/
def listRbegin (h : Links) (list : Nat) : Except Fault Nat :=
  if list = 0 then throw .panic else pure (h.prev (list + 8))

/-- `list_rend (list)`: `&list->head`. -/
def listRend (list : Nat) : Except Fault Nat :=
  if list = 0 then throw .panic else pure list

/-- `list_head (list)`, which returns what `list_rend` does. -/
def listHead (list : Nat) : Except Fault Nat := listRend list

/-- `list_tail (list)`, which returns what `list_end` does. -/
def listTail (list : Nat) : Except Fault Nat := listEnd list

/-- `list_insert (before, elem)`. -/
def listInsert (h : Links) (before elem : Nat) : Except Fault Links := do
  if !(isInterior h before || isTail h before) then throw .panic
  if elem = 0 then throw .panic
  pure (h.insert before elem)

/-- `list_push_front (list, elem)`. -/
def listPushFront (h : Links) (list elem : Nat) : Except Fault Links := do
  let b ← listBegin h list
  listInsert h b elem

/-- `list_push_back (list, elem)`. -/
def listPushBack (h : Links) (list elem : Nat) : Except Fault Links := do
  let e ← listEnd list
  listInsert h e elem

/-- `list_remove (elem)`: the links after the removal, and `elem->next`. -/
def listRemove (h : Links) (elem : Nat) : Except Fault (Links × Nat) := do
  if !isInterior h elem then throw .panic
  let h := h.unlink elem
  pure (h, h.next elem)

/-- `list_empty (list)`. -/
def listEmpty (h : Links) (list : Nat) : Except Fault Bool := do
  let b ← listBegin h list
  let e ← listEnd list
  pure (b == e)

/-- `list_front (list)`. -/
def listFront (h : Links) (list : Nat) : Except Fault Nat := do
  if ← listEmpty h list then throw .panic
  pure (h.next list)

/-- `list_back (list)`. -/
def listBack (h : Links) (list : Nat) : Except Fault Nat := do
  if ← listEmpty h list then throw .panic
  pure (h.prev (list + 8))

/-- `list_pop_front (list)`: the links after the removal, and the element removed. -/
def listPopFront (h : Links) (list : Nat) : Except Fault (Links × Nat) := do
  let front ← listFront h list
  let (h, _) ← listRemove h front
  pure (h, front)

/-- `list_pop_back (list)`: the links after the removal, and the element removed. -/
def listPopBack (h : Links) (list : Nat) : Except Fault (Links × Nat) := do
  let back ← listBack h list
  let (h, _) ← listRemove h back
  pure (h, back)

/-- One round of the `for` loop of `list_size (list)`. The `size_t` count stays below
`2 ^ 32` in the `2 ^ 32` rounds the loop has before it counts as endless. -/
def listSizeRound (h : Links) (list : Nat) : Nat × Nat → Except Fault (Nat ⊕ Nat × Nat)
  | (e, cnt) => do
    let t ← listEnd list
    if e = t then return .inl cnt
    let e ← listNext h e
    return .inr (e, cnt + 1)

/-- `list_size (list)`. -/
def listSize (h : Links) (list : Nat) : Except Fault Nat := do
  let e ← listBegin h list
  Loop.run (listSizeRound h list) (fun _ => throw .diverge) (2 ^ 32) (e, 0)

/-- `swap (a, b)`: the link fields `*a` and `*b` exchanged. -/
def swap (h : Links) (a b : Slot) : Links :=
  let t := h.get a
  let h := h.set a (h.get b)
  h.set b t

/-- One round of the `for` loop of `list_reverse (list)`: the links of `e` swapped, then on
to `e->prev`, now the cell that was after it. The fields of a NULL `e` are unmapped, and
touching them is a kernel page fault. -/
def listReverseRound (list : Nat) : Links × Nat → Except Fault (Links ⊕ Links × Nat)
  | (h, e) => do
    let t ← listEnd list
    if e = t then return .inl h
    if e = 0 then throw .kernelFault
    let h := swap h (.prev e) (.next e)
    return .inr (h, h.prev e)

/-- `list_reverse (list)`. -/
def listReverse (h : Links) (list : Nat) : Except Fault Links := do
  if ← listEmpty h list then return h
  let e ← listBegin h list
  let h ← Loop.run (listReverseRound list) (fun _ => throw .diverge) (2 ^ 32) (h, e)
  let h := swap h (.next list) (.prev (list + 8))
  if h.next list = 0 ∨ h.prev (list + 8) = 0 then throw .kernelFault
  pure (swap h (.prev (h.next list)) (.next (h.prev (list + 8))))

/-- One round of the `for` loop of `list_insert_ordered (list, elem, less, aux)`, which
breaks at the first element greater than `elem`. -/
def listInsertOrderedRound (h : Links) (list elem : Nat) (less : Nat → Nat → Bool) (e : Nat) :
    Except Fault (Nat ⊕ Nat) := do
  let t ← listEnd list
  if e = t then return .inl e
  if less elem e then return .inl e
  let e ← listNext h e
  return .inr e

/-- `list_insert_ordered (list, elem, less, aux)`, with `aux` folded into `less`. -/
def listInsertOrdered (h : Links) (list elem : Nat) (less : Nat → Nat → Bool) :
    Except Fault Links := do
  if list = 0 then throw .panic
  if elem = 0 then throw .panic
  let e ← listBegin h list
  let e ← Loop.run (listInsertOrderedRound h list elem less) (fun _ => throw .diverge) (2 ^ 32) e
  listInsert h e elem

/-- One round of the `while` loop of `list_unique (list, duplicates, less, aux)`: the
element after `elem` is removed if neither is less than the other, and pushed onto
`duplicates` unless that is NULL; otherwise it becomes `elem`. -/
def listUniqueRound (list duplicates : Nat) (less : Nat → Nat → Bool) :
    Links × Nat → Except Fault (Links ⊕ Links × Nat)
  | (h, elem) => do
    let next ← listNext h elem
    let t ← listEnd list
    if next = t then return .inl h
    if !less elem next && !less next elem then
      let (h, _) ← listRemove h next
      let h ← if duplicates ≠ 0 then listPushBack h duplicates next else pure h
      return .inr (h, elem)
    else
      return .inr (h, next)

/-- `list_unique (list, duplicates, less, aux)`, with a NULL `duplicates` as `0`. -/
def listUnique (h : Links) (list duplicates : Nat) (less : Nat → Nat → Bool) :
    Except Fault Links := do
  if list = 0 then throw .panic
  if ← listEmpty h list then return h
  let elem ← listBegin h list
  Loop.run (listUniqueRound list duplicates less) (fun _ => throw .diverge) (2 ^ 32) (h, elem)

/-- One round of the `for` loop of `list_max (list, less, aux)`. -/
def listMaxRound (h : Links) (list : Nat) (less : Nat → Nat → Bool) :
    Nat × Nat → Except Fault (Nat ⊕ Nat × Nat)
  | (max, e) => do
    let t ← listEnd list
    if e = t then return .inl max
    let max := if less max e then e else max
    let e ← listNext h e
    return .inr (max, e)

/-- `list_max (list, less, aux)`. -/
def listMax (h : Links) (list : Nat) (less : Nat → Nat → Bool) : Except Fault Nat := do
  let max ← listBegin h list
  let t ← listEnd list
  if max = t then return max
  let e ← listNext h max
  Loop.run (listMaxRound h list less) (fun _ => throw .diverge) (2 ^ 32) (max, e)

/-- One round of the `for` loop of `list_min (list, less, aux)`, which compares the other
way round. -/
def listMinRound (h : Links) (list : Nat) (less : Nat → Nat → Bool) :
    Nat × Nat → Except Fault (Nat ⊕ Nat × Nat)
  | (min, e) => do
    let t ← listEnd list
    if e = t then return .inl min
    let min := if less e min then e else min
    let e ← listNext h e
    return .inr (min, e)

/-- `list_min (list, less, aux)`. -/
def listMin (h : Links) (list : Nat) (less : Nat → Nat → Bool) : Except Fault Nat := do
  let min ← listBegin h list
  let t ← listEnd list
  if min = t then return min
  let e ← listNext h min
  Loop.run (listMinRound h list less) (fun _ => throw .diverge) (2 ^ 32) (min, e)

end Operations

section Cells

variable {h : Links} {list : Nat}

theorem listEnd_of_ne_zero (h0 : list ≠ 0) : listEnd list = .ok (list + 8) := by
  rw [listEnd, if_neg h0]
  rfl

theorem not_mem_of_nodup {A B : List Nat} {x : Nat} (hnd : (A ++ x :: B).Nodup) : x ∉ A :=
  fun hx => (List.nodup_append.1 hnd).2.2 x hx x List.mem_cons_self rfl

namespace Chain

/-- The cell after `x`, up to the tail `t`. -/
theorem next_headD {P R : List Nat} {x t : Nat} (hc : Chain h (P ++ x :: R ++ [t])) :
    h.next x = R.headD t := by
  obtain ⟨n, C, hnC, hn⟩ : ∃ n C, R ++ [t] = n :: C ∧ R.headD t = n := by
    cases R <;> exact ⟨_, _, rfl, rfl⟩
  rw [hn]
  exact hc.next_eq (A := P) (C := C) (by simp [← hnC])

theorem listNext_headD {P R : List Nat} {x t : Nat} (hc : Chain h (P ++ x :: R ++ [t])) :
    listNext h x = .ok (R.headD t) := by
  have hn : R.headD t ≠ 0 := by
    cases R <;> exact hc.ne_zero_of_mem (by simp)
  rw [listNext_of_ne_zero (hc.ne_zero_of_mem (by simp)) (by rwa [hc.next_headD]),
    hc.next_headD]

/-- A cell with a cell before it has a non-NULL `prev`. -/
theorem prev_ne_zero {A C : List Nat} {x : Nat} (hc : Chain h (A ++ x :: C)) (hA : A ≠ []) :
    h.prev x ≠ 0 := by
  obtain ⟨A, w, rfl⟩ : ∃ A' w, A = A' ++ [w] :=
    ⟨A.dropLast, A.getLast hA, (List.dropLast_append_getLast hA).symm⟩
  rw [hc.prev_eq (A := A) (x := w) (y := x) (C := C) (by simp)]
  exact hc.ne_zero_of_mem (x := w) (by simp)

end Chain

namespace Linked

variable {l : List Nat}

theorem ne_zero (hL : Linked h list l) : list ≠ 0 := hL.chain.ne_zero_of_mem (by simp)

theorem head_not_mem (hL : Linked h list l) : list ∉ l := fun hm =>
  (List.nodup_cons.1 hL.chain.nodup).1 (List.mem_append_left _ hm)

theorem nodup_elems (hL : Linked h list l) : l.Nodup :=
  hL.chain.nodup.sublist ((List.sublist_append_left l [list + 8]).cons list)

theorem tail_not_mem (hL : Linked h list l) : list + 8 ∉ l := fun hm =>
  not_mem_of_nodup (A := list :: l) (x := list + 8) (B := []) hL.chain.nodup
    (List.mem_cons_of_mem _ hm)

/-- The elements of a well-formed list, from the head to the tail. -/
theorem dseg_elems (hL : Linked h list l) : DSeg h list l (list + 8) := by
  have := (dseg_append 0 (list :: l) [list + 8] 0).1 hL.chain.dseg
  simpa using (dseg_cons.1 this.1).2.2

/-- The cell before the tail is the last element, or the head. -/
theorem prev_tail (hL : Linked h list l) : h.prev (list + 8) = l.getLast?.getD list := by
  have := (hL.chain.dseg.links (A := list :: l) (B := [])).1
  simpa [List.getLast?_cons] using this

theorem prev_tail_mem (hL : Linked h list l) : h.prev (list + 8) ∈ list :: l := by
  rw [hL.prev_tail]
  cases hz : l.getLast? with
  | none => exact List.mem_cons_self
  | some z => exact List.mem_cons_of_mem _ (List.mem_of_getLast? hz)

/-- A well-formed list whose cells keep their links stays one. -/
theorem frame {h' : Links} (hL : Linked h list l)
    (hkeep : ∀ x ∈ list :: l ++ [list + 8], h'.prev x = h.prev x ∧ h'.next x = h.next x) :
    Linked h' list l :=
  ⟨⟨hL.chain.dseg.frame (fun x hx => (hkeep x hx).1) (fun x hx => (hkeep x hx).2),
    hL.chain.nodup, hL.chain.ne_zero⟩, hL.lt⟩

/-- Some of the elements of a well-formed list, in their order, linked up between its head
and tail. -/
theorem of_sublist {h' : Links} {l' : List Nat} (hL : Linked h list l)
    (hs : DSeg h' 0 (list :: l' ++ [list + 8]) 0) (hp : l'.Sublist l) : Linked h' list l' := by
  have hcells : (list :: l' ++ [list + 8]).Sublist (list :: l ++ [list + 8]) :=
    (hp.append_right [list + 8]).cons_cons list
  exact ⟨⟨hs, hL.chain.nodup.sublist hcells, fun h0 => hL.chain.ne_zero (hcells.subset h0)⟩,
    fun x hx => hL.lt x (hcells.subset hx)⟩

/-- The elements of a well-formed list in another order, linked up between its head and
tail. -/
theorem of_perm {h' : Links} {l' : List Nat} (hL : Linked h list l)
    (hs : DSeg h' 0 (list :: l' ++ [list + 8]) 0) (hp : l'.Perm l) : Linked h' list l' := by
  have hcells : (list :: l' ++ [list + 8]).Perm (list :: l ++ [list + 8]) :=
    (hp.append_right [list + 8]).cons list
  exact ⟨hL.chain.of_perm hs hcells, fun x hx => hL.lt x (hcells.subset hx)⟩

/-- The elements of a well-formed list and a fresh cell, linked up between its head and
tail. -/
theorem of_perm_cons {h' : Links} {l' : List Nat} {x : Nat} (hL : Linked h list l)
    (hs : DSeg h' 0 (list :: l' ++ [list + 8]) 0) (hp : l'.Perm (x :: l))
    (hx : x ∉ list :: l ++ [list + 8]) (hx0 : x ≠ 0) (hlt : x < 2 ^ 32) : Linked h' list l' := by
  have hcells : (list :: l' ++ [list + 8]).Perm (x :: (list :: l ++ [list + 8])) :=
    ((hp.append_right [list + 8]).cons list).trans (List.Perm.swap x list _)
  refine ⟨⟨hs, hcells.nodup_iff.2 (List.nodup_cons.2 ⟨hx, hL.chain.nodup⟩), fun h0 => ?_⟩,
    fun y hy => ?_⟩
  · rcases List.mem_cons.1 (hcells.subset h0) with h0 | h0
    · exact hx0 h0.symm
    · exact hL.chain.ne_zero h0
  · rcases List.mem_cons.1 (hcells.subset hy) with rfl | hy
    · exact hlt
    · exact hL.lt y hy

end Linked

end Cells

section Specs

variable {h : Links} {list : Nat}

/-- `list_init` makes an empty list of two header cells that fit below `2 ^ 32`. -/
theorem listInit_spec (h0 : list ≠ 0) (hlt : list + 8 < 2 ^ 32) :
    ∃ h', listInit h list = .ok h' ∧ Linked h' list [] := by
  have hne : list + 8 ≠ list := by omega
  refine ⟨_, by rw [listInit, if_neg h0]; rfl, ⟨?_, ?_, ?_⟩, ?_⟩
  · simp [DSeg]
  · simp
  · simp [Ne.symm h0]
  · simp only [List.cons_append, List.nil_append, List.mem_cons, List.not_mem_nil, or_false]
    rintro x (rfl | rfl) <;> omega

/-- `list_rbegin` is the last element, or the head of an empty list. -/
theorem listRbegin_eq {l : List Nat} (hL : Linked h list l) :
    listRbegin h list = .ok (l.getLast?.getD list) := by
  rw [listRbegin, if_neg hL.ne_zero, hL.prev_tail]
  rfl

/-- `list_insert` before the first element of `B`, or the tail, links a fresh cell in
there. -/
theorem listInsert_spec {A B : List Nat} {elem : Nat} (hL : Linked h list (A ++ B))
    (he : elem ∉ list :: (A ++ B) ++ [list + 8]) (he0 : elem ≠ 0) (hlt : elem < 2 ^ 32) :
    listInsert h (B.headD (list + 8)) elem = .ok (h.insert (B.headD (list + 8)) elem) ∧
      Linked (h.insert (B.headD (list + 8)) elem) list (A ++ elem :: B) := by
  obtain ⟨before, C, hBC, hb⟩ : ∃ before C, B ++ [list + 8] = before :: C ∧
      B.headD (list + 8) = before := by
    cases B <;> exact ⟨_, _, rfl, rfl⟩
  have hcells : list :: (A ++ B) ++ [list + 8] = (list :: A) ++ before :: C := by
    simp [← hBC]
  have hc : Chain h ((list :: A) ++ before :: C) := hcells ▸ hL.chain
  have hbefore : (isInterior h before || isTail h before) = true := by
    rw [isInterior_or_isTail]
    simp [hc.ne_zero_of_mem (x := before) (by simp), hc.prev_ne_zero (A := list :: A) (by simp)]
  rw [hb]
  refine ⟨by simp [listInsert, hbefore, he0], hL.of_perm_cons ?_ List.perm_middle he he0 hlt⟩
  have := dseg_insert (by simp) hc.nodup (hcells ▸ he) hc.dseg
  simpa [← hBC] using this

/-- `list_push_front` links a fresh cell in as the first element. -/
theorem listPushFront_spec {l : List Nat} {elem : Nat} (hL : Linked h list l)
    (he : elem ∉ list :: l ++ [list + 8]) (he0 : elem ≠ 0) (hlt : elem < 2 ^ 32) :
    listPushFront h list elem = .ok (h.insert (l.headD (list + 8)) elem) ∧
      Linked (h.insert (l.headD (list + 8)) elem) list (elem :: l) := by
  obtain ⟨hins, hL'⟩ := listInsert_spec (A := []) (B := l) (by simpa using hL) (by simpa using he)
    he0 hlt
  rw [listPushFront, listBegin_eq hL.chain, Trace.ok_bind]
  exact ⟨hins, by simpa using hL'⟩

/-- `list_push_back` links a fresh cell in as the last element. -/
theorem listPushBack_spec {l : List Nat} {elem : Nat} (hL : Linked h list l)
    (he : elem ∉ list :: l ++ [list + 8]) (he0 : elem ≠ 0) (hlt : elem < 2 ^ 32) :
    listPushBack h list elem = .ok (h.insert (list + 8) elem) ∧
      Linked (h.insert (list + 8) elem) list (l ++ [elem]) := by
  obtain ⟨hins, hL'⟩ := listInsert_spec (A := l) (B := []) (by simpa using hL) (by simpa using he)
    he0 hlt
  rw [listPushBack, listEnd_of_ne_zero hL.ne_zero, Trace.ok_bind]
  exact ⟨hins, hL'⟩

/-- `list_remove` takes an element out and returns the one after it, or the tail. -/
theorem listRemove_spec {A B : List Nat} {elem : Nat} (hL : Linked h list (A ++ elem :: B)) :
    listRemove h elem = .ok (h.unlink elem, B.headD (list + 8)) ∧
      Linked (h.unlink elem) list (A ++ B) := by
  have hc : Chain h ((list :: A) ++ elem :: B ++ [list + 8]) := by simpa using hL.chain
  have hc' : Chain h ((list :: A) ++ elem :: (B ++ [list + 8])) := by simpa using hL.chain
  have hint : isInterior h elem = true := hc'.isInterior_eq rfl (by simp) (by simp)
  refine ⟨by simp [listRemove, hint, hc.next_headD], hL.of_sublist ?_
    ((List.sublist_cons_self elem B).append_left A)⟩
  have := dseg_unlink (by simp) (by simp) hc'.nodup hc'.dseg
  simpa using this

theorem listEmpty_eq {l : List Nat} (hL : Linked h list l) : listEmpty h list = .ok l.isEmpty := by
  rw [listEmpty, listBegin_eq hL.chain, Trace.ok_bind, listEnd_of_ne_zero hL.ne_zero,
    Trace.ok_bind]
  cases l with
  | nil => simp
  | cons x l =>
    have hx : x ≠ list + 8 := fun hx => hL.tail_not_mem (hx ▸ List.mem_cons_self)
    simp [hx]

theorem listFront_eq {x : Nat} {l : List Nat} (hL : Linked h list (x :: l)) :
    listFront h list = .ok x := by
  have hx : h.next list = x := hL.chain.next_eq (A := []) (C := l ++ [list + 8]) (by simp)
  simp [listFront, listEmpty_eq hL, hx]

theorem listBack_eq {x : Nat} {l : List Nat} (hL : Linked h list (l ++ [x])) :
    listBack h list = .ok x := by
  simp [listBack, listEmpty_eq hL, hL.prev_tail]

/-- `list_front` and `list_back` of an empty list fail their `ASSERT`. -/
theorem listFront_nil (hL : Linked h list []) : listFront h list = .error .panic := by
  simp [listFront, listEmpty_eq hL]
  rfl

theorem listBack_nil (hL : Linked h list []) : listBack h list = .error .panic := by
  simp [listBack, listEmpty_eq hL]
  rfl

/-- `list_pop_front` takes the first element out and returns it. -/
theorem listPopFront_spec {x : Nat} {l : List Nat} (hL : Linked h list (x :: l)) :
    listPopFront h list = .ok (h.unlink x, x) ∧ Linked (h.unlink x) list l := by
  obtain ⟨hrem, hL'⟩ := listRemove_spec (A := []) (B := l) (by simpa using hL)
  exact ⟨by simp [listPopFront, listFront_eq hL, hrem], by simpa using hL'⟩

/-- `list_pop_back` takes the last element out and returns it. -/
theorem listPopBack_spec {x : Nat} {l : List Nat} (hL : Linked h list (l ++ [x])) :
    listPopBack h list = .ok (h.unlink x, x) ∧ Linked (h.unlink x) list l := by
  obtain ⟨hrem, hL'⟩ := listRemove_spec (A := l) (B := []) hL
  exact ⟨by simp [listPopBack, listBack_eq hL, hrem], by simpa using hL'⟩

/-- The walk of `list_size` over the cells `R` before the tail, counting from `cnt`.
Induction on `R`. -/
theorem listSize_loop (h0 : list ≠ 0) : ∀ (R P : List Nat) (cnt fuel : Nat),
    Chain h (P ++ R ++ [list + 8]) → R.length < fuel →
    Loop.run (listSizeRound h list) (fun _ => throw .diverge) fuel (R.headD (list + 8), cnt) =
      .ok (cnt + R.length)
  | _, _, _, 0, _, hfuel => absurd hfuel (Nat.not_lt_zero _)
  | [], P, cnt, fuel + 1, _, _ => by
    rw [Loop.run_succ_of_stop (b := cnt)]
    · rfl
    · simp [listSizeRound, listEnd_of_ne_zero h0]
  | y :: R, P, cnt, fuel + 1, hc, hfuel => by
    have hy : y ≠ list + 8 := ne_of_nodup hc.nodup (A := P) (B := R) (C := []) (by simp)
    have hround : listSizeRound h list (y, cnt) = .ok (.inr (R.headD (list + 8), cnt + 1)) := by
      simp [listSizeRound, listEnd_of_ne_zero h0, hy, hc.listNext_headD]
    rw [List.headD_cons, Loop.run_succ_of_next hround,
      listSize_loop h0 R (P ++ [y]) (cnt + 1) fuel (by simpa using hc) (by simpa using hfuel)]
    congr 1
    simp only [List.length_cons]
    omega

/-- `list_size` counts the elements. -/
theorem listSize_eq {l : List Nat} (hL : Linked h list l) : listSize h list = .ok l.length := by
  rw [listSize, listBegin_eq hL.chain, Trace.ok_bind,
    listSize_loop hL.ne_zero l [list] 0 (2 ^ 32) hL.chain (by have := hL.length_le; omega),
    Nat.zero_add]

/-- Swapping the links of a cell outside `P` turns it round with the cells of `P`. -/
theorem swap_flip {P : List Nat} {y : Nat} (hy : y ∉ P) :
    swap (h.flip P) (.prev y) (.next y) = h.flip (P ++ [y]) := by
  simp only [swap, get_prev, get_next, set_prev, set_next, Links.flip, setPrev, setNext,
    Links.mk.injEq]
  constructor <;> funext z <;> by_cases hz : z = y <;> simp [hz, hy]

/-- The loop of `list_reverse` over the cells `R` after the cells `P` it has turned round.
Induction on `R`. -/
theorem listReverse_loop (h0 : list ≠ 0) : ∀ (R P : List Nat) (fuel : Nat),
    Chain h (list :: P ++ R ++ [list + 8]) → R.length < fuel →
    Loop.run (listReverseRound list) (fun _ => throw .diverge) fuel
      (h.flip P, R.headD (list + 8)) = .ok (h.flip (P ++ R))
  | _, _, 0, _, hfuel => absurd hfuel (Nat.not_lt_zero _)
  | [], P, fuel + 1, _, _ => by
    rw [Loop.run_succ_of_stop (b := h.flip P)]
    · simp
    · simp [listReverseRound, listEnd_of_ne_zero h0]
  | y :: R, P, fuel + 1, hc, hfuel => by
    have hy : y ≠ list + 8 := ne_of_nodup hc.nodup (A := list :: P) (B := R) (C := []) (by simp)
    have hy0 : y ≠ 0 := hc.ne_zero_of_mem (by simp)
    have hyP : y ∉ P := not_mem_of_nodup (A := P) (B := R ++ [list + 8])
      (by simpa using (List.nodup_cons.1 hc.nodup).2)
    have hnext : (h.flip (P ++ [y])).prev y = R.headD (list + 8) := by
      simp [Links.flip, hc.next_headD]
    have hround : listReverseRound list (h.flip P, y) =
        .ok (.inr (h.flip (P ++ [y]), R.headD (list + 8))) := by
      simp only [listReverseRound, listEnd_of_ne_zero h0, Trace.ok_bind, hy, hy0, if_false,
        swap_flip hyP, hnext]
      rfl
    rw [List.headD_cons, Loop.run_succ_of_next hround,
      listReverse_loop h0 R (P ++ [y]) fuel (by simpa using hc) (by simpa using hfuel)]
    simp

/-- The two swaps after the loop of `list_reverse`: the head and the tail now point to the
other ends of the elements turned round, which point back to them. -/
theorem dseg_reverse_ends {l : List Nat} {first last : Nat} (hL : Linked h list l)
    (hfirst : l.head? = some first) (hlast : l.getLast? = some last) :
    DSeg (swap (swap (h.flip l) (.next list) (.prev (list + 8))) (.prev last) (.next first)) 0
      (list :: l.reverse ++ [list + 8]) 0 := by
  have hseg := hL.dseg_elems
  have hnd := hL.nodup_elems
  have hfl : first ∈ l := List.mem_of_mem_head? hfirst
  have hll : last ∈ l := List.mem_of_getLast? hlast
  have hlist := hL.head_not_mem
  have ht := hL.tail_not_mem
  have htl : list + 8 ≠ list := by omega
  -- the links the two swaps read, and the links of the head and the tail
  have hhp : h.prev list = 0 := (hL.chain.dseg.links (A := []) (B := l ++ [list + 8])).1
  have htn : h.next (list + 8) = 0 := by
    simpa using (hL.chain.dseg.links (A := list :: l) (B := [])).2
  have hhn : h.next list = first := by simpa [hfirst] using hL.chain.dseg.2.1
  have htp : h.prev (list + 8) = last := by rw [hL.prev_tail, hlast]; rfl
  have hfp : h.prev first = list := hseg.head_prev hfirst
  have hln : h.next last = list + 8 := hseg.last_next hlast
  have hp : ∀ z, (swap (swap (h.flip l) (.next list) (.prev (list + 8))) (.prev last)
      (.next first)).prev z =
        if z = last then list else if z = list + 8 then first else (h.flip l).prev z := by
    intro z
    simp [swap, Links.flip, hll, hfl, hlist, ht, hhn, htp, hln, hfp,
      show last ≠ list + 8 from fun h' => ht (h' ▸ hll),
      show first ≠ list from fun h' => hlist (h' ▸ hfl)]
  have hn : ∀ z, (swap (swap (h.flip l) (.next list) (.prev (list + 8))) (.prev last)
      (.next first)).next z =
        if z = first then list + 8 else if z = list then last else (h.flip l).next z := by
    intro z
    simp [swap, Links.flip, hll, hfl, hlist, ht, hhn, htp, hln, hfp,
      show last ≠ list + 8 from fun h' => ht (h' ▸ hll),
      show first ≠ list from fun h' => hlist (h' ▸ hfl)]
  rw [List.cons_append, dseg_cons, dseg_append]
  simp only [List.head?_append, List.head?_reverse, hlast, Option.some_or, Option.getD_some,
    List.getLast?_reverse, hfirst, List.head?_cons]
  refine ⟨?_, ?_, ?_, ?_⟩
  · rw [hp]
    simp [show list ≠ last from fun h' => hlist (h' ▸ hll), Links.flip, hlist, hhp]
  · rw [hn]
    simp [show list ≠ first from fun h' => hlist (h' ▸ hfl)]
  · -- the elements turned round, relinked at their new ends to the head and the tail
    refine (dseg_flip hnd hseg).relink (fun x hx => ?_) (fun x hx => ?_) (fun x hx => ?_)
      (fun x hx => ?_)
    · rw [List.head?_reverse, hlast] at hx
      rw [← Option.some.inj hx, hp]
      simp
    · have hxl : x ∈ l := List.mem_reverse.1 (List.mem_of_mem_tail hx)
      have hxlast : x ≠ last := fun h' => not_mem_tail_of_head? (List.nodup_reverse.2 hnd)
        (by rw [List.head?_reverse, hlast]) (h' ▸ hx)
      rw [hp]
      simp [hxlast, show x ≠ list + 8 from fun h' => ht (h' ▸ hxl)]
    · rw [List.getLast?_reverse, hfirst] at hx
      rw [← Option.some.inj hx, hn]
      simp
    · have hxl : x ∈ l := List.mem_reverse.1 (List.mem_of_mem_dropLast hx)
      have hxfirst : x ≠ first := fun h' => not_mem_dropLast_of_getLast?
        (List.nodup_reverse.2 hnd) (by rw [List.getLast?_reverse, hfirst]) (h' ▸ hx)
      rw [hn]
      simp [hxfirst, show x ≠ list from fun h' => hlist (h' ▸ hxl)]
  · refine ⟨?_, ?_, trivial⟩
    · rw [hp]
      simp [show list + 8 ≠ last from fun h' => ht (h' ▸ hll)]
    · rw [hn]
      simp [show list + 8 ≠ first from fun h' => ht (h' ▸ hfl), Links.flip, ht, htn]

/-- `list_reverse` turns the list round. -/
theorem listReverse_spec {l : List Nat} (hL : Linked h list l) :
    ∃ h', listReverse h list = .ok h' ∧ Linked h' list l.reverse := by
  cases hl : l with
  | nil => exact ⟨h, by simp [listReverse, listEmpty_eq hL, hl], by simpa [hl] using hL⟩
  | cons first rest =>
    rw [← hl]
    obtain ⟨last, hlast⟩ := exists_getLast? (hl ▸ List.cons_ne_nil first rest : l ≠ [])
    have hfirst : l.head? = some first := by rw [hl]; rfl
    have hloop := listReverse_loop hL.ne_zero l [] (2 ^ 32) hL.chain
      (by have := hL.length_le; omega)
    have hhead : l.headD (list + 8) = first := by rw [hl]; rfl
    rw [flip_nil, List.nil_append, hhead] at hloop
    -- what the two swaps after the loop read
    have hfl : first ∈ l := List.mem_of_mem_head? hfirst
    have hll : last ∈ l := List.mem_of_getLast? hlast
    have hhn : (swap (h.flip l) (.next list) (.prev (list + 8))).next list = last := by
      simp [swap, Links.flip, hL.tail_not_mem, hL.prev_tail, hlast]
    have htp : (swap (h.flip l) (.next list) (.prev (list + 8))).prev (list + 8) = first := by
      have hhn' : h.next list = first := by simpa [hfirst] using hL.chain.dseg.2.1
      simp [swap, Links.flip, hL.head_not_mem, hhn']
    refine ⟨_, ?_, hL.of_perm (dseg_reverse_ends hL hfirst hlast) (List.reverse_perm l)⟩
    have hne : listEmpty h list = .ok false := by rw [listEmpty_eq hL, hl]; rfl
    have hbegin : listBegin h list = .ok first := by rw [listBegin_eq hL.chain, hl]; rfl
    have hl0 : last ≠ 0 := hL.chain.ne_zero_of_mem (by simp [hll])
    have hf0 : first ≠ 0 := hL.chain.ne_zero_of_mem (by simp [hfl])
    simp only [listReverse, hne, hbegin, Trace.ok_bind, Bool.false_eq_true, if_false, hloop,
      hhn, htp, hl0, hf0, or_self]
    rfl

end Specs

section Ordered

variable {h : Links} {list : Nat} (less : Nat → Nat → Bool)

/-- The search of `list_insert_ordered` over the cells `R` after `P`, where it has found no
element greater than `elem`. Induction on `R`. -/
theorem listInsertOrdered_loop (elem : Nat) (h0 : list ≠ 0) :
    ∀ (R P : List Nat) (fuel : Nat), Chain h (list :: P ++ R ++ [list + 8]) → R.length < fuel →
    ∃ A B, Loop.run (listInsertOrderedRound h list elem less) (fun _ => throw .diverge) fuel
        (R.headD (list + 8)) = .ok (B.headD (list + 8)) ∧ P ++ R = A ++ B ∧
      P ++ R.orderedInsert (fun a b => less a b = true) elem = A ++ elem :: B
  | _, _, 0, _, hfuel => absurd hfuel (Nat.not_lt_zero _)
  | [], P, fuel + 1, _, _ =>
    ⟨P, [], Loop.run_succ_of_stop (by simp [listInsertOrderedRound, listEnd_of_ne_zero h0]),
      by simp, by simp⟩
  | y :: R, P, fuel + 1, hc, hfuel => by
    have hy : y ≠ list + 8 := ne_of_nodup hc.nodup (A := list :: P) (B := R) (C := []) (by simp)
    by_cases hey : less elem y = true
    · refine ⟨P, y :: R, Loop.run_succ_of_stop ?_, rfl, ?_⟩
      · simp [listInsertOrderedRound, listEnd_of_ne_zero h0, hey]
      · rw [List.orderedInsert_cons_of_le (fun a b => less a b = true) _ hey]
    · have hround : listInsertOrderedRound h list elem less y = .ok (.inr (R.headD (list + 8))) := by
        simp [listInsertOrderedRound, listEnd_of_ne_zero h0, hy, hey, hc.listNext_headD]
      obtain ⟨A, B, hrun, hAB, hins⟩ :=
        listInsertOrdered_loop elem h0 R (P ++ [y]) fuel (by simpa using hc) (by simpa using hfuel)
      refine ⟨A, B, ?_, by simpa using hAB, ?_⟩
      · rw [List.headD_cons, Loop.run_succ_of_next hround, hrun]
      · rw [List.orderedInsert_of_not_le (fun a b => less a b = true) _ hey]
        simpa using hins

/-- `list_insert_ordered` links a fresh cell in before the first greater element. -/
theorem listInsertOrdered_spec {l : List Nat} {elem : Nat} (hL : Linked h list l)
    (he : elem ∉ list :: l ++ [list + 8]) (he0 : elem ≠ 0) (hlt : elem < 2 ^ 32) :
    ∃ h', listInsertOrdered h list elem less = .ok h' ∧
      Linked h' list (l.orderedInsert (fun a b => less a b = true) elem) := by
  obtain ⟨A, B, hrun, hAB, hins⟩ := listInsertOrdered_loop less elem hL.ne_zero l [] (2 ^ 32)
    hL.chain (by have := hL.length_le; omega)
  rw [List.nil_append] at hAB hins
  obtain ⟨hinsert, hL'⟩ := listInsert_spec (A := A) (B := B) (hAB ▸ hL) (hAB ▸ he) he0 hlt
  refine ⟨_, ?_, hins ▸ hL'⟩
  rw [listInsertOrdered, if_neg hL.ne_zero, if_neg he0, listBegin_eq hL.chain, Trace.ok_bind,
    hrun, Trace.ok_bind, hinsert]

/-- `list_insert_ordered` keeps a list sorted by a strict weak order sorted. -/
theorem listInsertOrdered_keeps_sorted [IsStrictWeakOrder Nat (fun a b => less a b = true)]
    {l : List Nat} {elem : Nat} (hL : Linked h list l)
    (hs : l.IsChain (fun a b => le less a b = true)) (he : elem ∉ list :: l ++ [list + 8])
    (he0 : elem ≠ 0) (hlt : elem < 2 ^ 32) :
    ∃ h' l', listInsertOrdered h list elem less = .ok h' ∧ Linked h' list l' ∧
      l'.Perm (elem :: l) ∧ l'.IsChain (fun a b => le less a b = true) := by
  obtain ⟨h', hrun, hL'⟩ := listInsertOrdered_spec less hL he he0 hlt
  exact ⟨h', _, hrun, hL', List.perm_orderedInsert _ elem l, isChain_orderedInsert less elem l hs⟩

/-- `list_unique` part way: the elements are `K`, `elem` and the cells `R` not yet walked;
`duplicates`, unless NULL, is a list apart from the first holding `d` and then `D`, what has
been dropped so far. -/
def Uniquing (list duplicates : Nat) (d K R D : List Nat) : Links × Nat → Prop
  | (h, elem) => Linked h list (K ++ elem :: R) ∧
      (duplicates ≠ 0 → Linked h duplicates (d ++ D) ∧
        ∀ c ∈ list :: (K ++ elem :: R) ++ [list + 8], c ∉ duplicates :: (d ++ D) ++ [duplicates + 8])

variable {duplicates : Nat} {d : List Nat}

theorem listUniqueRound_end {K D : List Nat} {elem : Nat}
    (hs : Uniquing list duplicates d K [] D (h, elem)) :
    listUniqueRound list duplicates less (h, elem) = .ok (.inl h) := by
  have hc : Chain h ((list :: K) ++ elem :: [] ++ [list + 8]) := by simpa using hs.1.chain
  simp [listUniqueRound, hc.listNext_headD, listEnd_of_ne_zero hs.1.ne_zero]

/-- The element after `elem` is less or greater than it: it becomes `elem`. -/
theorem listUniqueRound_keep {K R D : List Nat} {elem y : Nat}
    (hs : Uniquing list duplicates d K (y :: R) D (h, elem))
    (hy : less elem y = true ∨ less y elem = true) :
    listUniqueRound list duplicates less (h, elem) = .ok (.inr (h, y)) ∧
      Uniquing list duplicates d (K ++ [elem]) R D (h, y) := by
  have hc : Chain h ((list :: K) ++ elem :: y :: R ++ [list + 8]) := by simpa using hs.1.chain
  have hyt : y ≠ list + 8 :=
    ne_of_nodup hc.nodup (A := list :: K ++ [elem]) (B := R) (C := []) (by simp)
  refine ⟨?_, by simpa [Uniquing] using hs⟩
  rcases hy with hy | hy <;>
    simp [listUniqueRound, hc.listNext_headD, listEnd_of_ne_zero hs.1.ne_zero, hyt, hy]

/-- The element after `elem` is neither less nor greater than it: it is taken out, and
pushed onto `duplicates` unless that is NULL. -/
theorem listUniqueRound_drop {K R D : List Nat} {elem y : Nat}
    (hs : Uniquing list duplicates d K (y :: R) D (h, elem))
    (hy : ¬(less elem y = true ∨ less y elem = true)) :
    ∃ h', listUniqueRound list duplicates less (h, elem) = .ok (.inr (h', elem)) ∧
      Uniquing list duplicates d K R (D ++ [y]) (h', elem) := by
  obtain ⟨hL, hdup⟩ := hs
  have hc : Chain h ((list :: K) ++ elem :: y :: R ++ [list + 8]) := by simpa using hL.chain
  have hc' : Chain h ((list :: K ++ [elem]) ++ y :: R ++ [list + 8]) := by simpa using hL.chain
  have hyt : y ≠ list + 8 :=
    ne_of_nodup hc.nodup (A := list :: K ++ [elem]) (B := R) (C := []) (by simp)
  simp only [not_or, Bool.not_eq_true] at hy
  obtain ⟨hrem, hL'⟩ := listRemove_spec (A := K ++ [elem]) (B := R)
    (show Linked h list (K ++ [elem] ++ y :: R) by simpa using hL)
  have hL₁ : Linked (h.unlink y) list (K ++ elem :: R) := by simpa using hL'
  have hnext : listNext h elem = .ok y := by simpa using hc.listNext_headD
  by_cases hd0 : duplicates = 0
  · refine ⟨h.unlink y, ?_, hL₁, fun h' => absurd hd0 h'⟩
    simp [listUniqueRound, hnext, listEnd_of_ne_zero hL.ne_zero, hyt, hy.1, hy.2, hrem, hd0]
  obtain ⟨hD, hdisj⟩ := hdup hd0
  -- `y` leaves the first list, whose other cells stay apart from `duplicates`
  have hy_new : y ∉ list :: (K ++ elem :: R) ++ [list + 8] := by
    have := (List.nodup_middle.1 (by simpa using hL.chain.nodup :
      ((list :: K ++ [elem]) ++ y :: (R ++ [list + 8])).Nodup))
    simpa using (List.nodup_cons.1 this).1
  have hsub : ∀ c ∈ list :: (K ++ elem :: R) ++ [list + 8],
      c ∈ list :: (K ++ elem :: y :: R) ++ [list + 8] := by
    intro c hcm
    simp only [List.cons_append, List.mem_cons, List.mem_append] at hcm ⊢
    tauto
  have hyD : y ∉ duplicates :: (d ++ D) ++ [duplicates + 8] := hdisj y (by simp)
  -- the removal writes to cells of the first list only
  have hD₁ : Linked (h.unlink y) duplicates (d ++ D) := hD.frame fun c hcD => unlink_frame
    (fun h' => hdisj _ (by rw [hc'.next_headD]; cases R <;> simp) (h' ▸ hcD))
    (fun h' => hdisj _ (by rw [hc.prev_eq (A := list :: K) (x := elem) (y := y) (C := R ++ [list + 8]) (by simp)]; simp)
      (h' ▸ hcD))
  obtain ⟨hpush, hD₂⟩ := listPushBack_spec hD₁ hyD (hL.chain.ne_zero_of_mem (x := y) (by simp))
    (hL.lt y (by simp))
  refine ⟨(h.unlink y).insert (duplicates + 8) y, ?_, ?_, fun _ => ⟨by simpa using hD₂, ?_⟩⟩
  · simp [listUniqueRound, hnext, listEnd_of_ne_zero hL.ne_zero, hyt, hy.1, hy.2, hrem, hd0, hpush]
  · -- the push writes to `y` and to cells of `duplicates` only
    refine hL₁.frame fun c hcm => insert_frame (fun h' => hyD (h' ▸ by simp)) ?_ ?_ ?_
    · exact fun h' => hdisj c (hsub c hcm) (h' ▸ by simp)
    · exact fun h' => hy_new (h' ▸ hcm)
    · exact fun h' => hdisj c (hsub c hcm) (h' ▸ List.mem_append_left _ hD₁.prev_tail_mem)
  · intro c hcm hcD
    have hcy : c ≠ y := fun h' => hy_new (h' ▸ hcm)
    refine hdisj c (hsub c hcm) ?_
    simp only [List.cons_append, List.append_assoc, List.mem_cons, List.mem_append] at hcD ⊢
    tauto

/-- The loop of `list_unique` from `elem` over the cells `R`. Induction on `R`, each round
keeping the next element or dropping it. -/
theorem listUnique_loop : ∀ (R K D : List Nat) (h : Links) (elem fuel : Nat),
    Uniquing list duplicates d K R D (h, elem) → R.length < fuel →
    ∃ h', Loop.run (listUniqueRound list duplicates less) (fun _ => throw .diverge) fuel
        (h, elem) = .ok h' ∧
      Linked h' list (K ++ R.destutter' (fun a b => less a b = true ∨ less b a = true) elem) ∧
      (duplicates ≠ 0 → Linked h' duplicates
        (d ++ D ++ stutter (fun a b => less a b = true ∨ less b a = true) elem R))
  | _, _, _, _, _, 0, _, hfuel => absurd hfuel (Nat.not_lt_zero _)
  | [], K, D, h, elem, fuel + 1, hs, _ =>
    ⟨h, Loop.run_succ_of_stop (listUniqueRound_end less hs), by simpa using hs.1,
      fun hd0 => by simpa [stutter] using (hs.2 hd0).1⟩
  | y :: R, K, D, h, elem, fuel + 1, hs, hfuel => by
    by_cases hy : less elem y = true ∨ less y elem = true
    · obtain ⟨hround, hs'⟩ := listUniqueRound_keep less hs hy
      obtain ⟨h', hrun, hL', hD'⟩ :=
        listUnique_loop R (K ++ [elem]) D h y fuel hs' (by simpa using hfuel)
      refine ⟨h', by rw [Loop.run_succ_of_next hround, hrun], ?_, fun hd0 => ?_⟩
      · rw [List.destutter'_cons_pos (R := fun a b => less a b = true ∨ less b a = true) _ hy]
        simpa using hL'
      · rw [stutter, if_pos hy]
        exact hD' hd0
    · obtain ⟨h₁, hround, hs'⟩ := listUniqueRound_drop less hs hy
      obtain ⟨h', hrun, hL', hD'⟩ :=
        listUnique_loop R K (D ++ [y]) h₁ elem fuel hs' (by simpa using hfuel)
      refine ⟨h', by rw [Loop.run_succ_of_next hround, hrun], ?_, fun hd0 => ?_⟩
      · rw [List.destutter'_cons_neg (R := fun a b => less a b = true ∨ less b a = true) _ hy]
        exact hL'
      · rw [stutter, if_neg hy]
        simpa using hD' hd0

/-- `list_unique` on a non-empty list, from the loop's start. -/
theorem listUnique_run {x : Nat} {xs : List Nat} (hL : Linked h list (x :: xs))
    (hs : Uniquing list duplicates d [] xs [] (h, x)) :
    ∃ h', listUnique h list duplicates less = .ok h' ∧
      Linked h' list ((x :: xs).destutter (fun a b => less a b = true ∨ less b a = true)) ∧
      (duplicates ≠ 0 → Linked h' duplicates
        (d ++ stutters (fun a b => less a b = true ∨ less b a = true) (x :: xs))) := by
  obtain ⟨h', hrun, hL', hD'⟩ := listUnique_loop less xs [] [] h x (2 ^ 32) hs
    (by have := hL.length_le; simp only [List.length_cons] at this; omega)
  have hne : listEmpty h list = .ok false := by rw [listEmpty_eq hL]; rfl
  have hbegin : listBegin h list = .ok x := listBegin_eq hL.chain
  refine ⟨h', ?_, by simpa [List.destutter_cons'] using hL', fun hd0 => by
    simpa [stutters] using hD' hd0⟩
  rw [listUnique, if_neg hL.ne_zero, hne, Trace.ok_bind, hbegin, Trace.ok_bind]
  simpa using hrun

/-- `list_unique` with a NULL `duplicates` drops each element that is neither less nor
greater than the one kept before it. -/
theorem listUnique_spec {l : List Nat} (hL : Linked h list l) :
    ∃ h', listUnique h list 0 less = .ok h' ∧
      Linked h' list (l.destutter (fun a b => less a b = true ∨ less b a = true)) := by
  cases hl : l with
  | nil =>
    refine ⟨h, ?_, by simpa [hl] using hL⟩
    simp [listUnique, hL.ne_zero, listEmpty_eq hL, hl]
  | cons x xs =>
    obtain ⟨h', hrun, hL', -⟩ := listUnique_run less (hl ▸ hL)
      (show Uniquing list 0 [] [] xs [] (h, x) from
        ⟨by simpa [hl] using hL, fun h' => absurd rfl h'⟩)
    exact ⟨h', hrun, hL'⟩

/-- `list_unique` with a second list `duplicates` apart from the first moves what it drops
to the back of `duplicates`, in order, so that every element ends in one of the two. -/
theorem listUnique_moves_duplicates {l : List Nat} (hL : Linked h list l)
    (hD : Linked h duplicates d)
    (hdisj : ∀ c ∈ list :: l ++ [list + 8], c ∉ duplicates :: d ++ [duplicates + 8]) :
    ∃ h', listUnique h list duplicates less = .ok h' ∧
      Linked h' list (l.destutter (fun a b => less a b = true ∨ less b a = true)) ∧
      Linked h' duplicates (d ++ stutters (fun a b => less a b = true ∨ less b a = true) l) ∧
      (l.destutter (fun a b => less a b = true ∨ less b a = true) ++
        stutters (fun a b => less a b = true ∨ less b a = true) l).Perm l := by
  suffices hrun : ∃ h', listUnique h list duplicates less = .ok h' ∧
      Linked h' list (l.destutter (fun a b => less a b = true ∨ less b a = true)) ∧
      Linked h' duplicates (d ++ stutters (fun a b => less a b = true ∨ less b a = true) l) by
    obtain ⟨h', hrun, hL', hD'⟩ := hrun
    exact ⟨h', hrun, hL', hD', perm_destutter_append_stutters _ l⟩
  cases hl : l with
  | nil =>
    refine ⟨h, ?_, by simpa [hl] using hL, by simpa [stutters] using hD⟩
    simp [listUnique, hL.ne_zero, listEmpty_eq hL, hl]
  | cons x xs =>
    obtain ⟨h', hrun, hL', hD'⟩ := listUnique_run less (hl ▸ hL)
      (show Uniquing list duplicates d [] xs [] (h, x) from
        ⟨by simpa [hl] using hL, fun _ => ⟨by simpa using hD, by simpa [hl] using hdisj⟩⟩)
    exact ⟨h', hrun, hL', hD' hD.ne_zero⟩

/-- The walk of `list_max` from `max` over the cells `R`. Induction on `R`. -/
theorem listMax_loop (h0 : list ≠ 0) : ∀ (R P : List Nat) (max fuel : Nat),
    Chain h (list :: P ++ R ++ [list + 8]) → R.length < fuel →
    Loop.run (listMaxRound h list less) (fun _ => throw .diverge) fuel
      (max, R.headD (list + 8)) = .ok (firstMax less max R)
  | _, _, _, 0, _, hfuel => absurd hfuel (Nat.not_lt_zero _)
  | [], P, max, fuel + 1, _, _ =>
    Loop.run_succ_of_stop (by simp [listMaxRound, listEnd_of_ne_zero h0, firstMax])
  | y :: R, P, max, fuel + 1, hc, hfuel => by
    have hy : y ≠ list + 8 := ne_of_nodup hc.nodup (A := list :: P) (B := R) (C := []) (by simp)
    have hround : listMaxRound h list less (max, y) =
        .ok (.inr (if less max y then y else max, R.headD (list + 8))) := by
      simp [listMaxRound, listEnd_of_ne_zero h0, hy, hc.listNext_headD]
    rw [List.headD_cons, Loop.run_succ_of_next hround, firstMax_cons]
    exact listMax_loop h0 R (P ++ [y]) _ fuel (by simpa using hc) (by simpa using hfuel)

theorem listMax_eq {x : Nat} {xs : List Nat} (hL : Linked h list (x :: xs)) :
    listMax h list less = .ok (firstMax less x xs) := by
  have hx : x ≠ list + 8 := fun hx => hL.tail_not_mem (hx ▸ List.mem_cons_self)
  have hc : Chain h ([list] ++ x :: xs ++ [list + 8]) := hL.chain
  rw [listMax, listBegin_eq hL.chain, Trace.ok_bind, listEnd_of_ne_zero hL.ne_zero,
    Trace.ok_bind, List.headD_cons, if_neg hx, hc.listNext_headD, Trace.ok_bind]
  exact listMax_loop less hL.ne_zero xs [x] x (2 ^ 32) hL.chain
    (by have := hL.length_le; simp only [List.length_cons] at this; omega)

/-- `list_max` of an empty list is its tail. -/
theorem listMax_nil (hL : Linked h list []) : listMax h list less = .ok (list + 8) := by
  rw [listMax, listBegin_eq hL.chain, Trace.ok_bind, listEnd_of_ne_zero hL.ne_zero, Trace.ok_bind]
  simp

/-- `list_min` is `list_max` for the converse order. -/
theorem listMin_eq_listMax : listMin h list less = listMax h list (fun a b => less b a) := rfl

/-- `list_max` returns the first greatest element: every element before it is less, none
after it greater. -/
theorem listMax_first_greatest [IsStrictWeakOrder Nat (fun a b => less a b = true)]
    {l : List Nat} (hL : Linked h list l) (hl : l ≠ []) :
    ∃ A m B, l = A ++ m :: B ∧ listMax h list less = .ok m ∧
      (∀ a ∈ A, less a m = true) ∧ ∀ b ∈ B, less m b = false := by
  obtain ⟨x, xs, rfl⟩ := List.exists_cons_of_ne_nil hl
  obtain ⟨A, B, hsplit, hA, hB⟩ := firstMax_split less x xs
  exact ⟨A, _, B, hsplit, listMax_eq less hL, hA, hB⟩

/-- `list_min` returns the first least element: every element before it is greater, none
after it less. -/
theorem listMin_first_least [IsStrictWeakOrder Nat (fun a b => less a b = true)]
    {l : List Nat} (hL : Linked h list l) (hl : l ≠ []) :
    ∃ A m B, l = A ++ m :: B ∧ listMin h list less = .ok m ∧
      (∀ a ∈ A, less m a = true) ∧ ∀ b ∈ B, less b m = false := by
  have := isStrictWeakOrder_swap less
  rw [listMin_eq_listMax]
  exact listMax_first_greatest (fun a b => less b a) hL hl

end Ordered

end Pintos
