import Mathlib.Data.List.Destutter
import Mathlib.Data.List.Sort
import Pintos.Lib.RunMerge

/-!
Lists under a Boolean strict weak order `less`, with `RunMerge.le` the order kept by a
sorted list: inserting before the first greater element, dropping neighbours that are
neither less than the other, and the first greatest element.

* `isChain_orderedInsert`: inserting before the first greater element keeps a list sorted;
* `perm_destutter_append_stutters`: what `List.destutter` keeps and what it drops
  (`stutters`) make up the list;
* `firstMax_split`: the first greatest element has only smaller elements before it and no
  greater one after it.
-/

namespace OrderedList

open RunMerge

variable {α : Type} (less : α → α → Bool)

/-- The elements `List.destutter' R a` drops, in order. -/
def stutter (R : α → α → Prop) [DecidableRel R] : α → List α → List α
  | _, [] => []
  | a, b :: l => if R a b then stutter R b l else b :: stutter R a l

open List in
/-- What `destutter'` keeps and what it drops make up the list. Induction on the list. -/
theorem perm_destutter'_append_stutter (R : α → α → Prop) [DecidableRel R] :
    ∀ (a : α) (l : List α), (l.destutter' R a ++ stutter R a l).Perm (a :: l)
  | a, [] => by simp [stutter]
  | a, b :: l => by
    rw [List.destutter'_cons, stutter]
    split
    · exact (perm_destutter'_append_stutter R b l).cons a
    · calc l.destutter' R a ++ b :: stutter R a l
          _ ~ b :: (l.destutter' R a ++ stutter R a l) := List.perm_middle
          _ ~ b :: a :: l := (perm_destutter'_append_stutter R a l).cons b
          _ ~ a :: b :: l := List.Perm.swap a b l

/-- The elements `List.destutter R` drops, in order. -/
def stutters (R : α → α → Prop) [DecidableRel R] : List α → List α
  | [] => []
  | a :: l => stutter R a l

/-- Nothing is lost or doubled: what `destutter` keeps and what it drops make up the list. -/
theorem perm_destutter_append_stutters (R : α → α → Prop) [DecidableRel R] :
    ∀ l : List α, (l.destutter R ++ stutters R l).Perm l
  | [] => by simp [stutters]
  | a :: l => by
    rw [List.destutter_cons', stutters]
    exact perm_destutter'_append_stutter R a l

/-- The element of `x :: xs` that a walk keeps when it moves on only to greater elements. -/
def firstMax (x : α) (xs : List α) : α :=
  xs.foldl (fun m e => if less m e then e else m) x

theorem firstMax_cons (m e : α) (xs : List α) :
    firstMax less m (e :: xs) = firstMax less (if less m e then e else m) xs := rfl

section Order

variable [IsStrictWeakOrder α (fun a b => less a b = true)]

theorem less_asymm {a b : α} (h : less a b = true) : less b a = false := by
  by_contra h'
  rw [Bool.not_eq_false] at h'
  exact @Std.Irrefl.irrefl _ (fun a b => less a b = true) _ a
    (@IsTrans.trans _ (fun a b => less a b = true) _ _ _ _ h h')

theorem less_trans {a b c : α} (hab : less a b = true) (hbc : less b c = true) :
    less a c = true :=
  @IsTrans.trans _ (fun a b => less a b = true) _ _ _ _ hab hbc

/-- An element not greater than `m` is less than anything greater than `m`. -/
theorem less_of_less_of_not_less {m b e : α} (hme : less m e = true) (hmb : less m b = false) :
    less b e = true := by
  by_contra hbe
  have := le_trans less e b m (by simpa [le] using hbe) (by simp [le, hmb])
  simp [le, hme] at this

/-- Inserting before the first greater element keeps a list in `le` order. Recursion on
the list, two elements at a time. -/
theorem isChain_orderedInsert (x : α) : ∀ l : List α,
    l.IsChain (fun a b => le less a b = true) →
      (l.orderedInsert (fun a b => less a b = true) x).IsChain (fun a b => le less a b = true)
  | [], _ => List.isChain_singleton x
  | [b], _ => by
    by_cases hxb : less x b = true
    · simp [hxb, le, less_asymm less hxb]
    · simp [hxb, le]
  | b :: c :: l, hc => by
    rw [List.isChain_cons_cons] at hc
    by_cases hxb : less x b = true
    · rw [List.orderedInsert_cons_of_le (fun a b => less a b = true) _ hxb, List.isChain_cons_cons]
      exact ⟨by simp [le, less_asymm less hxb], List.isChain_cons_cons.2 hc⟩
    · have ih := isChain_orderedInsert x (c :: l) hc.2
      rw [List.orderedInsert_of_not_le (fun a b => less a b = true) _ hxb]
      by_cases hxc : less x c = true
      · rw [List.orderedInsert_cons_of_le (fun a b => less a b = true) _ hxc] at ih ⊢
        exact List.isChain_cons_cons.2 ⟨by simpa [le] using hxb, ih⟩
      · rw [List.orderedInsert_of_not_le (fun a b => less a b = true) _ hxc] at ih ⊢
        exact List.isChain_cons_cons.2 ⟨hc.1, ih⟩

/-- The walk of `firstMax` from `m`, with `A` the elements before `m` and `B` those after
it so far. Induction on what is left to walk. -/
theorem foldl_max_split : ∀ (xs A B : List α) (m : α), (∀ a ∈ A, less a m = true) →
    (∀ b ∈ B, less m b = false) →
    ∃ A' B', A ++ m :: B ++ xs = A' ++ firstMax less m xs :: B' ∧
      (∀ a ∈ A', less a (firstMax less m xs) = true) ∧
      ∀ b ∈ B', less (firstMax less m xs) b = false
  | [], A, B, m, hA, hB => ⟨A, B, by simp [firstMax], hA, hB⟩
  | e :: xs, A, B, m, hA, hB => by
    rw [firstMax_cons]
    by_cases hme : less m e = true
    · rw [if_pos hme]
      obtain ⟨A', B', heq, hA', hB'⟩ := foldl_max_split xs (A ++ m :: B) [] e
        (fun a ha => by
          rcases List.mem_append.1 ha with ha | ha
          · exact less_trans less (hA a ha) hme
          · rcases List.mem_cons.1 ha with rfl | hb
            · exact hme
            · exact less_of_less_of_not_less less hme (hB a hb))
        (by simp)
      exact ⟨A', B', by simpa using heq, hA', hB'⟩
    · rw [if_neg hme]
      obtain ⟨A', B', heq, hA', hB'⟩ := foldl_max_split xs A (B ++ [e]) m hA
        (fun b hb => by
          rcases List.mem_append.1 hb with hb | hb
          · exact hB b hb
          · simpa [List.mem_singleton.1 hb] using hme)
      exact ⟨A', B', by simpa using heq, hA', hB'⟩

/-- The first greatest element: everything before it is less, nothing after it greater. -/
theorem firstMax_split (x : α) (xs : List α) :
    ∃ A B, x :: xs = A ++ firstMax less x xs :: B ∧
      (∀ a ∈ A, less a (firstMax less x xs) = true) ∧
      ∀ b ∈ B, less (firstMax less x xs) b = false := by
  simpa using foldl_max_split less xs [] [] x (by simp) (by simp)

end Order

/-- The converse of a strict weak order is one. -/
theorem isStrictWeakOrder_swap [IsStrictWeakOrder α (fun a b => less a b = true)] :
    IsStrictWeakOrder α (fun a b => less b a = true) where
  irrefl a := @Std.Irrefl.irrefl _ (fun a b => less a b = true) _ a
  trans _ _ _ hab hbc := @IsTrans.trans _ (fun a b => less a b = true) _ _ _ _ hbc hab
  incomp_trans a b c hab hbc :=
    (@IsStrictWeakOrder.incomp_trans _ (fun a b => less a b = true) _ a b c
      ⟨hab.2, hab.1⟩ ⟨hbc.2, hbc.1⟩).symm

end OrderedList
