import Mathlib.Data.List.Infix

/-!
Doubly linked cells in a heap: every address has a `prev` and a `next` link, and a segment
is a list of cells linked in order between an outer cell before it and one after it.

* `dseg_append`: a segment is two segments back to back;
* `DSeg.links`: the links of a cell inside a segment;
* `DSeg.relink`: a segment whose cells keep their links, but for the `prev` of its first
  cell and the `next` of its last, is a segment between its new outer cells;
* `dseg_splice`: `splice` moves a cell to before an earlier one;
* `DSeg.frame`: writes to other cells leave a segment as it is;
* `dseg_insert`, `dseg_unlink`: `insert` links a cell in, `unlink` takes one out;
* `dseg_flip`: a segment with the links of its cells swapped is the reversed segment.
-/

/-- The `prev` and `next` links of every cell, by address. -/
structure Links where
  prev : Nat → Nat
  next : Nat → Nat

namespace Links

def setPrev (h : Links) (x v : Nat) : Links := ⟨Function.update h.prev x v, h.next⟩

def setNext (h : Links) (x v : Nat) : Links := ⟨h.prev, Function.update h.next x v⟩

variable {h h' : Links}

@[simp] theorem prev_setPrev (x v y : Nat) : (h.setPrev x v).prev y = if y = x then v else h.prev y :=
  Function.update_apply _ _ _ _

@[simp] theorem next_setPrev (x v : Nat) : (h.setPrev x v).next = h.next := rfl

@[simp] theorem prev_setNext (x v : Nat) : (h.setNext x v).prev = h.prev := rfl

@[simp] theorem next_setNext (x v y : Nat) : (h.setNext x v).next y = if y = x then v else h.next y :=
  Function.update_apply _ _ _ _

/-- The writes that move the cells `first .. last` to before `before`: they are unlinked
from their neighbours, which are linked to each other, and linked in between `before` and
the cell before it. Each write reads the links as the writes before it left them. -/
def splice (h : Links) (before first last : Nat) : Links :=
  let h := h.setNext (h.prev first) (h.next last)
  let h := h.setPrev (h.next last) (h.prev first)
  let h := h.setPrev first (h.prev before)
  let h := h.setNext last before
  let h := h.setNext (h.prev before) first
  h.setPrev before last

/-- The cells `L` linked in order, from the cell `p` before the first to the cell `n` after
the last. -/
def DSeg (h : Links) : Nat → List Nat → Nat → Prop
  | _, [], _ => True
  | p, x :: L, n => h.prev x = p ∧ h.next x = L.head?.getD n ∧ DSeg h x L n

instance decDSeg (h : Links) : ∀ p L n, Decidable (DSeg h p L n)
  | _, [], _ => isTrue trivial
  | p, x :: L, n =>
    haveI := decDSeg h x L n
    inferInstanceAs (Decidable (h.prev x = p ∧ h.next x = L.head?.getD n ∧ DSeg h x L n))

theorem dseg_cons {p x n : Nat} {L : List Nat} :
    DSeg h p (x :: L) n ↔ h.prev x = p ∧ h.next x = L.head?.getD n ∧ DSeg h x L n := Iff.rfl

/-- A segment is two segments back to back. Induction on the first. -/
theorem dseg_append : ∀ (p : Nat) (L₁ L₂ : List Nat) (n : Nat),
    DSeg h p (L₁ ++ L₂) n ↔ DSeg h p L₁ (L₂.head?.getD n) ∧ DSeg h (L₁.getLast?.getD p) L₂ n
  | p, [], L₂, n => by simp [DSeg]
  | p, x :: L₁, L₂, n => by
    rw [List.cons_append, dseg_cons, dseg_cons, dseg_append x L₁ L₂ n, List.getLast?_cons,
      Option.getD_some]
    cases L₁ <;> simp [and_assoc]

/-- The links of a cell inside a segment. -/
theorem DSeg.links {p x n : Nat} {A B : List Nat} (hs : DSeg h p (A ++ x :: B) n) :
    h.prev x = A.getLast?.getD p ∧ h.next x = B.head?.getD n := by
  obtain ⟨-, hx⟩ := (dseg_append p A (x :: B) n).1 hs
  exact ⟨hx.1, hx.2.1⟩

/-- A segment re-linked at its ends: its cells keep their links, but for the `prev` of the
first and the `next` of the last. Induction on the segment. -/
theorem DSeg.relink : ∀ {p p' n n' : Nat} {L : List Nat}, DSeg h p L n →
    (∀ x, L.head? = some x → h'.prev x = p') → (∀ x ∈ L.tail, h'.prev x = h.prev x) →
    (∀ x, L.getLast? = some x → h'.next x = n') → (∀ x ∈ L.dropLast, h'.next x = h.next x) →
    DSeg h' p' L n'
  | _, _, _, _, [], _, _, _, _, _ => trivial
  | p, p', n, n', x :: L, hs, hhead, htail, hlast, hinit => by
    obtain ⟨-, hnext, hs⟩ := dseg_cons.1 hs
    refine ⟨hhead x rfl, ?_, ?_⟩
    · cases L with
      | nil => exact hlast x rfl
      | cons y L => rw [hinit x (by simp), hnext]; rfl
    · cases L with
      | nil => trivial
      | cons y L =>
        refine DSeg.relink hs (fun z hz => ?_) (fun z hz => htail z (List.mem_of_mem_tail hz))
          (fun z hz => hlast z (by simpa using hz)) (fun z hz => hinit z ?_)
        · rw [Option.some.inj hz.symm, htail y List.mem_cons_self]
          exact hs.1
        · rw [List.dropLast_cons_cons]
          exact List.mem_cons_of_mem _ hz

theorem DSeg.head_prev {p n x : Nat} {L : List Nat} (hs : DSeg h p L n) (hx : L.head? = some x) :
    h.prev x = p := by
  cases L with
  | nil => cases hx
  | cons y L => rw [← Option.some.inj hx]; exact hs.1

theorem DSeg.last_next {p n x : Nat} {L : List Nat} (hs : DSeg h p L n) (hx : L.getLast? = some x) :
    h.next x = n := by
  obtain ⟨A, rfl⟩ : ∃ A, L = A ++ [x] := ⟨L.dropLast, (List.dropLast_append_getLast? x hx).symm⟩
  simpa using hs.links.2

theorem not_mem_tail_of_head? {L : List Nat} {x : Nat} (hnd : L.Nodup) (hx : L.head? = some x) :
    x ∉ L.tail := by
  cases L with
  | nil => cases hx
  | cons y L =>
    rw [← Option.some.inj hx]
    exact (List.nodup_cons.1 hnd).1

theorem not_mem_dropLast_of_getLast? {L : List Nat} {x : Nat} (hnd : L.Nodup)
    (hx : L.getLast? = some x) : x ∉ L.dropLast := by
  have hL := List.dropLast_append_getLast? x hx
  rw [← hL, List.nodup_append] at hnd
  exact fun hm => hnd.2.2 x hm x (List.mem_singleton_self x) rfl

/-- The links after moving one cell `e` to before `before`, where the writes of `splice`
touch six distinct links. -/
theorem splice_links {before e la pf hc : Nat} (hpf : h.prev e = pf) (hhc : h.next e = hc)
    (hla : h.prev before = la) (hbe : before ≠ e) (hbc : before ≠ hc) (hep : e ≠ pf) :
    (h.splice before e e).prev = (fun y => if y = before then e else if y = e then la else
        if y = hc then pf else h.prev y) ∧
      (h.splice before e e).next = (fun y => if y = la then e else if y = e then before else
        if y = pf then hc else h.next y) := by
  simp only [splice]
  constructor
  · funext y
    simp only [prev_setPrev, prev_setNext, next_setNext, hpf, hhc, hla, hep, hbc, hbe,
      ↓reduceIte]
  · funext y
    simp only [next_setNext, prev_setPrev, next_setPrev, prev_setNext, hpf, hhc, hla, hep, hbc,
      hbe, ↓reduceIte]

/-- `splice h before e e` moves the cell `e` to just before the earlier cell `before`. The
cells before `before` and after `e` are not empty, so the six links it writes are all
inside the segment. -/
theorem dseg_splice {p n before e : Nat} {A B C : List Nat} (hA : A ≠ []) (hC : C ≠ [])
    (hnd : (A ++ before :: B ++ e :: C).Nodup) (hs : DSeg h p (A ++ before :: B ++ e :: C) n) :
    DSeg (h.splice before e e) p (A ++ e :: before :: B ++ C) n := by
  obtain ⟨la, hla⟩ : ∃ la, A.getLast? = some la := by
    cases hA' : A.getLast? with
    | none => exact absurd (List.getLast?_eq_none_iff.1 hA') hA
    | some la => exact ⟨la, rfl⟩
  obtain ⟨hc, C', rfl⟩ := List.exists_cons_of_ne_nil hC
  have hpf : (before :: B).getLast? = some ((before :: B).getLast (List.cons_ne_nil _ _)) :=
    List.getLast?_eq_some_getLast _
  set pf := (before :: B).getLast (List.cons_ne_nil _ _)
  -- the pieces of the segment, and the links that `splice` reads
  have hlast : (A ++ before :: B).getLast?.getD p = pf := by
    rw [List.getLast?_append, hpf]
    rfl
  have hsplit := (dseg_append p (A ++ before :: B) (e :: hc :: C') n).1 hs
  rw [hlast] at hsplit
  obtain ⟨he_prev, he_next, hCseg⟩ := dseg_cons.1 hsplit.2
  obtain ⟨hAseg, hBseg⟩ := (dseg_append p A (before :: B) e).1 hsplit.1
  simp only [List.head?_cons, Option.getD_some] at he_next hAseg
  rw [hla, Option.getD_some] at hBseg
  -- each written cell lies in one piece only
  rw [List.nodup_append, List.nodup_append] at hnd
  obtain ⟨⟨hndA, hndB, hAB⟩, hndC, hABC⟩ := hnd
  have hlaA : la ∈ A := List.mem_of_getLast? hla
  have hpfB : pf ∈ before :: B := List.getLast_mem _
  have hbA : before ∉ A := fun hb => hAB before hb before List.mem_cons_self rfl
  have heAB : e ∉ A ++ before :: B := fun he => hABC e he e List.mem_cons_self rfl
  have hcAB : hc ∉ A ++ before :: B := fun hh => hABC hc hh hc (by simp) rfl
  have hlaB : la ∉ before :: B := fun hl => hAB la hlaA la hl rfl
  have hlaC : la ∉ e :: hc :: C' := fun hl => hABC la (by simp [hlaA]) la hl rfl
  have hpfC : pf ∉ e :: hc :: C' := fun hp => hABC pf (by simp [hpfB]) pf hp rfl
  have heC : e ∉ hc :: C' := (List.nodup_cons.1 hndC).1
  have hec : e ≠ hc := fun h' => heC (h' ▸ List.mem_cons_self)
  obtain ⟨hprev', hnext'⟩ := splice_links he_prev he_next hBseg.1
    (fun h' => heAB (h' ▸ by simp)) (fun h' => hcAB (h' ▸ by simp))
    (fun h' => hpfC (h' ▸ by simp))
  -- the new order, piece by piece
  rw [dseg_append p (A ++ e :: before :: B) (hc :: C') n, dseg_append p A (e :: before :: B)]
  rw [List.getLast?_append, List.getLast?_cons_cons, hpf, hla]
  simp only [Option.some_or, Option.getD_some, List.head?_cons]
  refine ⟨⟨?_, ?_, ?_, ?_⟩, ?_⟩
  · -- the cells before `before` keep their links, but the last now points to `e`
    refine hAseg.relink (fun x hx => ?_) (fun x hx => ?_) (fun x hx => ?_) (fun x hx => ?_)
    · have hxA := List.mem_of_mem_head? hx
      rw [hprev']
      simp only [show x ≠ before from fun h' => hbA (h' ▸ hxA),
        show x ≠ e from fun h' => heAB (h' ▸ List.mem_append_left _ hxA),
        show x ≠ hc from fun h' => hcAB (h' ▸ List.mem_append_left _ hxA), if_false]
      exact hAseg.head_prev hx
    · have hxA := List.mem_of_mem_tail hx
      rw [hprev']
      simp only [show x ≠ before from fun h' => hbA (h' ▸ hxA),
        show x ≠ e from fun h' => heAB (h' ▸ List.mem_append_left _ hxA),
        show x ≠ hc from fun h' => hcAB (h' ▸ List.mem_append_left _ hxA), if_false]
    · rw [hla] at hx
      rw [hnext', ← Option.some.inj hx]
      simp
    · have hxA := List.mem_of_mem_dropLast hx
      rw [hnext']
      simp only [show x ≠ la from fun h' => not_mem_dropLast_of_getLast? hndA hla (h' ▸ hx),
        show x ≠ e from fun h' => heAB (h' ▸ List.mem_append_left _ hxA),
        show x ≠ pf from hAB x hxA pf hpfB, if_false]
  · rw [hprev']
    simp [show e ≠ before from fun h' => heAB (h' ▸ by simp)]
  · rw [hnext']
    simp [show e ≠ la from fun h' => hlaC (h' ▸ by simp)]
  · -- `before` and the cells after it up to `e` now sit between `e` and `hc`
    refine hBseg.relink (fun x hx => ?_) (fun x hx => ?_) (fun x hx => ?_) (fun x hx => ?_)
    · rw [← Option.some.inj hx, hprev']
      simp
    · have hxB : x ∈ before :: B := List.mem_of_mem_tail hx
      rw [hprev']
      simp only [show x ≠ before from fun h' => not_mem_tail_of_head? hndB rfl (h' ▸ hx),
        show x ≠ e from fun h' => heAB (h' ▸ List.mem_append_right _ hxB),
        show x ≠ hc from fun h' => hcAB (h' ▸ List.mem_append_right _ hxB), if_false]
    · rw [hpf] at hx
      rw [← Option.some.inj hx, hnext']
      simp [show pf ≠ la from fun h' => hlaB (h' ▸ hpfB),
        show pf ≠ e from fun h' => hpfC (h' ▸ by simp)]
    · have hxB := List.mem_of_mem_dropLast hx
      rw [hnext']
      simp only [show x ≠ la from fun h' => hlaB (h' ▸ hxB),
        show x ≠ e from fun h' => heAB (h' ▸ List.mem_append_right _ hxB),
        show x ≠ pf from fun h' => not_mem_dropLast_of_getLast? hndB hpf (h' ▸ hx), if_false]
  · -- the cells after `e` keep their links, but the first now points back to `pf`
    refine hCseg.relink (fun x hx => ?_) (fun x hx => ?_) (fun x hx => ?_) (fun x hx => ?_)
    · rw [← Option.some.inj hx, hprev']
      simp [show hc ≠ before from fun h' => hcAB (h' ▸ by simp), Ne.symm hec]
    · have hxC : x ∈ e :: hc :: C' := List.mem_cons_of_mem _ (List.mem_of_mem_tail hx)
      rw [hprev']
      simp only [show x ≠ before from fun h' => hABC before (by simp) x hxC h'.symm,
        show x ≠ e from fun h' => heC (h' ▸ List.mem_of_mem_tail hx),
        show x ≠ hc from fun h' => not_mem_tail_of_head? (List.nodup_cons.1 hndC).2 rfl (h' ▸ hx),
        if_false]
    · have hxC : x ∈ e :: hc :: C' := List.mem_cons_of_mem _ (List.mem_of_getLast? hx)
      rw [hnext']
      simp only [show x ≠ la from fun h' => hlaC (h' ▸ hxC),
        show x ≠ e from fun h' => heC (h' ▸ List.mem_of_getLast? hx),
        show x ≠ pf from fun h' => hpfC (h' ▸ hxC), if_false]
      exact hCseg.last_next hx
    · have hxC : x ∈ e :: hc :: C' := List.mem_cons_of_mem _ (List.mem_of_mem_dropLast hx)
      rw [hnext']
      simp only [show x ≠ la from fun h' => hlaC (h' ▸ hxC),
        show x ≠ e from fun h' => heC (h' ▸ List.mem_of_mem_dropLast hx),
        show x ≠ pf from fun h' => hpfC (h' ▸ hxC), if_false]

/-- A segment whose cells keep their links is a segment. -/
theorem DSeg.frame {p n : Nat} {L : List Nat} (hs : DSeg h p L n)
    (hprev : ∀ x ∈ L, h'.prev x = h.prev x) (hnext : ∀ x ∈ L, h'.next x = h.next x) :
    DSeg h' p L n :=
  hs.relink (fun x hx => (hprev x (List.mem_of_mem_head? hx)).trans (hs.head_prev hx))
    (fun x hx => hprev x (List.mem_of_mem_tail hx))
    (fun x hx => (hnext x (List.mem_of_getLast? hx)).trans (hs.last_next hx))
    (fun x hx => hnext x (List.mem_of_mem_dropLast hx))

theorem exists_getLast? {L : List Nat} (hL : L ≠ []) : ∃ x, L.getLast? = some x :=
  ⟨L.getLast hL, List.getLast?_eq_some_getLast hL⟩

/-- The writes that link the cell `elem` in between `before` and the cell before it. -/
def insert (h : Links) (before elem : Nat) : Links :=
  let h := h.setPrev elem (h.prev before)
  let h := h.setNext elem before
  let h := h.setNext (h.prev before) elem
  h.setPrev before elem

theorem insert_links {before elem la : Nat} (hla : h.prev before = la) (hbe : before ≠ elem) :
    (h.insert before elem).prev =
        (fun y => if y = before then elem else if y = elem then la else h.prev y) ∧
      (h.insert before elem).next =
        (fun y => if y = la then elem else if y = elem then before else h.next y) := by
  simp only [insert]
  constructor
  · funext y
    simp only [prev_setPrev, prev_setNext, hla, hbe, ↓reduceIte]
  · funext y
    simp only [next_setPrev, next_setNext, prev_setNext, prev_setPrev, hla, hbe, ↓reduceIte]

/-- `insert` leaves the links of the other cells as they are. -/
theorem insert_frame {before elem c : Nat} (hbe : before ≠ elem) (hcb : c ≠ before)
    (hce : c ≠ elem) (hcl : c ≠ h.prev before) :
    (h.insert before elem).prev c = h.prev c ∧ (h.insert before elem).next c = h.next c := by
  obtain ⟨hp, hn⟩ := insert_links (h := h) rfl hbe
  simp [hp, hn, hcb, hce, hcl]

/-- `insert h before elem` links a cell from outside a segment in before one of its cells
that has a cell before it. -/
theorem dseg_insert {p n before elem : Nat} {A C : List Nat} (hA : A ≠ [])
    (hnd : (A ++ before :: C).Nodup) (he : elem ∉ A ++ before :: C)
    (hs : DSeg h p (A ++ before :: C) n) :
    DSeg (h.insert before elem) p (A ++ elem :: before :: C) n := by
  obtain ⟨la, hla⟩ := exists_getLast? hA
  obtain ⟨hAseg, hBseg⟩ := (dseg_append p A (before :: C) n).1 hs
  rw [hla, Option.getD_some] at hBseg
  simp only [List.head?_cons, Option.getD_some] at hAseg
  rw [List.nodup_append] at hnd
  obtain ⟨hndA, hndB, hAB⟩ := hnd
  have hlaA : la ∈ A := List.mem_of_getLast? hla
  have hbA : before ∉ A := fun hb => hAB before hb before List.mem_cons_self rfl
  have heA : elem ∉ A := fun h' => he (List.mem_append_left _ h')
  have heB : elem ∉ before :: C := fun h' => he (List.mem_append_right _ h')
  have hlaB : la ∉ before :: C := fun hl => hAB la hlaA la hl rfl
  have hbe : before ≠ elem := fun h' => heB (h' ▸ List.mem_cons_self)
  obtain ⟨hprev', hnext'⟩ := insert_links hBseg.1 hbe
  rw [dseg_append p A (elem :: before :: C) n, hla, Option.getD_some]
  simp only [List.head?_cons, Option.getD_some]
  refine ⟨?_, ?_, ?_, ?_⟩
  · -- the cells before `before` keep their links, but the last now points to `elem`
    refine hAseg.relink (fun x hx => ?_) (fun x hx => ?_) (fun x hx => ?_) (fun x hx => ?_)
    · have hxA := List.mem_of_mem_head? hx
      rw [hprev']
      simp only [show x ≠ before from fun h' => hbA (h' ▸ hxA),
        show x ≠ elem from fun h' => heA (h' ▸ hxA), if_false]
      exact hAseg.head_prev hx
    · have hxA := List.mem_of_mem_tail hx
      rw [hprev']
      simp only [show x ≠ before from fun h' => hbA (h' ▸ hxA),
        show x ≠ elem from fun h' => heA (h' ▸ hxA), if_false]
    · rw [hla] at hx
      rw [hnext', ← Option.some.inj hx]
      simp
    · have hxA := List.mem_of_mem_dropLast hx
      rw [hnext']
      simp only [show x ≠ la from fun h' => not_mem_dropLast_of_getLast? hndA hla (h' ▸ hx),
        show x ≠ elem from fun h' => heA (h' ▸ hxA), if_false]
  · rw [hprev']
    simp [show elem ≠ before from fun h' => heB (h' ▸ List.mem_cons_self)]
  · rw [hnext']
    simp [show elem ≠ la from fun h' => heA (h' ▸ hlaA)]
  · -- `before` and the cells after it now hang from `elem`
    refine hBseg.relink (fun x hx => ?_) (fun x hx => ?_) (fun x hx => ?_) (fun x hx => ?_)
    · rw [← Option.some.inj hx, hprev']
      simp
    · have hxB : x ∈ before :: C := List.mem_of_mem_tail hx
      rw [hprev']
      simp only [show x ≠ before from fun h' => not_mem_tail_of_head? hndB rfl (h' ▸ hx),
        show x ≠ elem from fun h' => heB (h' ▸ hxB), if_false]
    · have hxB : x ∈ before :: C := List.mem_of_getLast? hx
      rw [hnext']
      simp only [show x ≠ la from fun h' => hlaB (h' ▸ hxB),
        show x ≠ elem from fun h' => heB (h' ▸ hxB), if_false]
      exact hBseg.last_next hx
    · have hxB : x ∈ before :: C := List.mem_of_mem_dropLast hx
      rw [hnext']
      simp only [show x ≠ la from fun h' => hlaB (h' ▸ hxB),
        show x ≠ elem from fun h' => heB (h' ▸ hxB), if_false]

/-- The writes that take the cell `x` out: the cells on either side are linked to each
other. -/
def unlink (h : Links) (x : Nat) : Links :=
  let h := h.setNext (h.prev x) (h.next x)
  h.setPrev (h.next x) (h.prev x)

/-- The cell taken out keeps its own links. -/
@[simp] theorem unlink_next_self (x : Nat) : (h.unlink x).next x = h.next x := by
  simp [unlink]

@[simp] theorem unlink_prev_self (x : Nat) : (h.unlink x).prev x = h.prev x := by
  simp [unlink]

theorem unlink_links (x : Nat) :
    (h.unlink x).prev = (fun y => if y = h.next x then h.prev x else h.prev y) ∧
      (h.unlink x).next = (fun y => if y = h.prev x then h.next x else h.next y) := by
  constructor <;> funext y <;> simp [unlink]

/-- `unlink` leaves the links of the cells other than the neighbours as they are. -/
theorem unlink_frame {x c : Nat} (hcn : c ≠ h.next x) (hcp : c ≠ h.prev x) :
    (h.unlink x).prev c = h.prev c ∧ (h.unlink x).next c = h.next c := by
  obtain ⟨hp, hn⟩ := unlink_links (h := h) x
  simp [hp, hn, hcn, hcp]

/-- `unlink h x` takes a cell with cells on both sides out of a segment. -/
theorem dseg_unlink {p n x : Nat} {A C : List Nat} (hA : A ≠ []) (hC : C ≠ [])
    (hnd : (A ++ x :: C).Nodup) (hs : DSeg h p (A ++ x :: C) n) :
    DSeg (h.unlink x) p (A ++ C) n := by
  obtain ⟨la, hla⟩ := exists_getLast? hA
  obtain ⟨hc, C', rfl⟩ := List.exists_cons_of_ne_nil hC
  obtain ⟨hAseg, hxseg⟩ := (dseg_append p A (x :: hc :: C') n).1 hs
  rw [hla, Option.getD_some] at hxseg
  simp only [List.head?_cons, Option.getD_some] at hAseg
  obtain ⟨hxp, hxn, hCseg⟩ := dseg_cons.1 hxseg
  simp only [List.head?_cons, Option.getD_some] at hxn
  rw [List.nodup_append] at hnd
  obtain ⟨hndA, hndC, hAC⟩ := hnd
  have hlaA : la ∈ A := List.mem_of_getLast? hla
  have hcA : hc ∉ A := fun h' => hAC hc h' hc (by simp) rfl
  have hlaC : la ∉ hc :: C' := fun h' => hAC la hlaA la (List.mem_cons_of_mem _ h') rfl
  obtain ⟨hprev', hnext'⟩ := unlink_links (h := h) x
  rw [hxp, hxn] at hprev' hnext'
  rw [dseg_append p A (hc :: C') n, hla, Option.getD_some]
  simp only [List.head?_cons, Option.getD_some]
  constructor
  · -- the cells before `x` keep their links, but the last now points past `x`
    refine hAseg.relink (fun y hy => ?_) (fun y hy => ?_) (fun y hy => ?_) (fun y hy => ?_)
    · rw [hprev']
      simp only [show y ≠ hc from fun h' => hcA (h' ▸ List.mem_of_mem_head? hy), if_false]
      exact hAseg.head_prev hy
    · rw [hprev']
      simp only [show y ≠ hc from fun h' => hcA (h' ▸ List.mem_of_mem_tail hy), if_false]
    · rw [hla] at hy
      rw [hnext', ← Option.some.inj hy]
      simp
    · rw [hnext']
      simp only [show y ≠ la from fun h' => not_mem_dropLast_of_getLast? hndA hla (h' ▸ hy),
        if_false]
  · -- the cells after `x` keep their links, but the first now points back before `x`
    refine hCseg.relink (fun y hy => ?_) (fun y hy => ?_) (fun y hy => ?_) (fun y hy => ?_)
    · rw [← Option.some.inj hy, hprev']
      simp
    · rw [hprev']
      simp only [show y ≠ hc from fun h' =>
        not_mem_tail_of_head? (List.nodup_cons.1 hndC).2 rfl (h' ▸ hy), if_false]
    · rw [hnext']
      simp only [show y ≠ la from fun h' => hlaC (h' ▸ List.mem_of_getLast? hy), if_false]
      exact hCseg.last_next hy
    · rw [hnext']
      simp only [show y ≠ la from fun h' => hlaC (h' ▸ List.mem_of_mem_dropLast hy), if_false]

/-- The links of the cells `S` turned round: the `prev` and the `next` of each swapped. -/
def flip (h : Links) (S : List Nat) : Links :=
  ⟨fun y => if y ∈ S then h.next y else h.prev y, fun y => if y ∈ S then h.prev y else h.next y⟩

@[simp] theorem flip_nil : h.flip [] = h := by
  simp [flip]

/-- A link field: the `prev` or the `next` of a cell. -/
inductive Slot where
  | prev (x : Nat)
  | next (x : Nat)
  deriving DecidableEq

/-- The link a field holds. -/
def get (h : Links) : Slot → Nat
  | .prev x => h.prev x
  | .next x => h.next x

/-- A store to a field. -/
def set (h : Links) : Slot → Nat → Links
  | .prev x, v => h.setPrev x v
  | .next x, v => h.setNext x v

@[simp] theorem get_prev (x : Nat) : h.get (.prev x) = h.prev x := rfl

@[simp] theorem get_next (x : Nat) : h.get (.next x) = h.next x := rfl

@[simp] theorem set_prev (x v : Nat) : h.set (.prev x) v = h.setPrev x v := rfl

@[simp] theorem set_next (x v : Nat) : h.set (.next x) v = h.setNext x v := rfl

/-- A segment with its cells turned round is the reversed segment, between the same outer
cells the other way round. Induction on the segment. -/
theorem dseg_flip : ∀ {p n : Nat} {L : List Nat}, L.Nodup → DSeg h p L n →
    DSeg (h.flip L) n L.reverse p
  | _, _, [], _, _ => trivial
  | p, n, x :: L, hnd, hs => by
    obtain ⟨hxp, hxn, hs⟩ := dseg_cons.1 hs
    obtain ⟨hx, hnd⟩ := List.nodup_cons.1 hnd
    have ih : DSeg (h.flip (x :: L)) n L.reverse x :=
      (dseg_flip hnd hs).frame (fun y hy => by simp [flip, List.mem_reverse.1 hy])
        (fun y hy => by simp [flip, List.mem_reverse.1 hy])
    rw [List.reverse_cons, dseg_append]
    refine ⟨by simpa using ih, ?_, ?_, trivial⟩
    · simp [flip, hxn, List.getLast?_reverse]
    · simp [flip, hxp]

end Links
