import Mathlib.Data.List.Perm.Basic

/-!
A finite set keyed by an equivalence: a list of elements no two of which are related
(`Keyed`), with the operations of a set whose members stand for their classes. `find` gives
the member related to a key, `insert` adds a key whose class has no member, `replace` puts a
key in place of the member of its class, and `delete` takes that member out. The order of
the list is of no account: the representation up to `List.Perm` is the set.

* `find_eq_some`, `find_eq_none`: what `find` returns in a keyed list;
* `find_perm`, `Keyed.perm`: a keyed list in another order has the same members by class;
* `keyed_insert`, `keyed_replace`, `keyed_delete`: the operations keep the lists keyed;
* `find_insert`, `find_replace`, `find_delete`: how each operation changes what `find`
  returns, so that a keyed list is a map from classes to their members.
-/

namespace KeyedSet

variable {α : Type} (r : α → α → Bool)

/-- No two elements of `S` are related. -/
def Keyed (S : List α) : Prop := S.Pairwise fun a b => r a b = false

/-- The first element of `S` related to `e`. -/
def find (S : List α) (e : α) : Option α := S.find? fun x => r x e

/-- `e` added if nothing in `S` is related to it; the member related to `e`. -/
def insert (S : List α) (e : α) : List α × Option α :=
  match find r S e with
  | some x => (S, some x)
  | none => (e :: S, none)

/-- `e` added in place of the member related to it; that member. -/
def replace [DecidableEq α] (S : List α) (e : α) : List α × Option α :=
  match find r S e with
  | some x => (e :: S.erase x, some x)
  | none => (e :: S, none)

/-- The member related to `e` taken out; that member. -/
def delete [DecidableEq α] (S : List α) (e : α) : List α × Option α :=
  match find r S e with
  | some x => (S.erase x, some x)
  | none => (S, none)

variable {r}

theorem find_eq_none {S : List α} {e : α} : find r S e = none ↔ ∀ x ∈ S, r x e = false := by
  simp [find]

theorem find_mem {S : List α} {e x : α} (h : find r S e = some x) : x ∈ S ∧ r x e = true := by
  unfold find at h
  have hp := List.find?_some h
  exact ⟨List.mem_of_find?_eq_some h, hp⟩

/-- After `insert`, the class of `e` has a member: the one before, or `e`. Other classes
keep theirs. -/
theorem find_insert {S : List α} (e e' : α) :
    find r (insert r S e).1 e' =
      if (find r S e).isNone && r e e' then some e else find r S e' := by
  unfold insert
  split
  · rename_i x hf
    simp [hf]
  · rename_i hf
    rw [hf]
    cases he : r e e' <;> simp [find, he]

section Equivalence

variable (hr : Equivalence fun a b => r a b = true)
include hr

theorem rel_comm (a b : α) : r a b = r b a := by
  cases hab : r a b <;> cases hba : r b a
  · rfl
  · exact absurd (hr.symm hba) (by simp [hab])
  · exact absurd (hr.symm hab) (by simp [hba])
  · rfl

/-- Two related members of a keyed list are one. Induction on the list. -/
theorem Keyed.eq_of_rel {S : List α} (hS : Keyed r S) {x y : α} (hx : x ∈ S) (hy : y ∈ S)
    (hxy : r x y = true) : x = y := by
  induction hS with
  | nil => cases hx
  | @cons a S ha _ ih =>
    rcases List.mem_cons.1 hx with rfl | hx' <;> rcases List.mem_cons.1 hy with rfl | hy'
    · rfl
    · simp [ha y hy'] at hxy
    · have hax := ha x hx'
      rw [rel_comm hr] at hax
      simp [hax] at hxy
    · exact ih hx' hy'

/-- A keyed list holds each element once, as each is related to itself. -/
theorem Keyed.nodup {S : List α} (hS : Keyed r S) : S.Nodup :=
  hS.imp fun {a b} hab h => by subst h; simp [hr.refl a] at hab

theorem Keyed.perm {S T : List α} (hS : Keyed r S) (hp : S.Perm T) : Keyed r T :=
  List.Pairwise.perm hS hp fun {a b} h => by rwa [rel_comm hr]

theorem find_eq_some {S : List α} (hS : Keyed r S) {e x : α} :
    find r S e = some x ↔ x ∈ S ∧ r x e = true := by
  refine ⟨find_mem, fun ⟨hx, hxe⟩ => ?_⟩
  cases hf : find r S e with
  | none => simp [find_eq_none.1 hf x hx] at hxe
  | some y =>
    obtain ⟨hy, hye⟩ := find_mem hf
    have hyx : r y x = true := hr.trans hye (hr.symm hxe)
    rw [hS.eq_of_rel hr hy hx hyx]

/-- What `find` returns does not depend on the order of a keyed list. -/
theorem find_perm {S T : List α} (hS : Keyed r S) (hp : S.Perm T) (e : α) :
    find r T e = find r S e := by
  cases hf : find r S e with
  | none => exact find_eq_none.2 fun x hx => find_eq_none.1 hf x (hp.symm.subset hx)
  | some x =>
    obtain ⟨hx, hxe⟩ := find_mem hf
    exact (find_eq_some hr (hS.perm hr hp)).2 ⟨hp.subset hx, hxe⟩

/-- A key whose class has no member can join a keyed list. -/
theorem keyed_cons {S : List α} (hS : Keyed r S) {e : α} (he : find r S e = none) :
    Keyed r (e :: S) :=
  List.Pairwise.cons (fun x hx => by rw [rel_comm hr]; exact find_eq_none.1 he x hx) hS

theorem keyed_insert {S : List α} (hS : Keyed r S) (e : α) : Keyed r (insert r S e).1 := by
  unfold insert
  split
  · exact hS
  · exact keyed_cons hr hS ‹_›

variable [DecidableEq α]

/-- Taking out a member that is not related to `e'` leaves what `find` gives for `e'`. -/
theorem find_erase_of_not_rel {S : List α} (hS : Keyed r S) {x e' : α}
    (hx : r x e' = false) : find r (S.erase x) e' = find r S e' := by
  cases hf : find r S e' with
  | none => exact find_eq_none.2 fun y hy => find_eq_none.1 hf y (List.erase_sublist.subset hy)
  | some y =>
    obtain ⟨hy, hye'⟩ := find_mem hf
    have hyx : y ≠ x := fun h => by simp [h, hx] at hye'
    exact (find_eq_some hr (hS.sublist List.erase_sublist)).2
      ⟨(List.mem_erase_of_ne hyx).2 hy, hye'⟩

/-- The member of the class of `e` taken out, no member is related to `e`. -/
theorem find_erase {S : List α} (hS : Keyed r S) {e x : α} (hf : find r S e = some x) :
    find r (S.erase x) e = none := by
  refine find_eq_none.2 fun y hy => ?_
  cases hye : r y e with
  | false => rfl
  | true =>
    have hyx : r y x = true := hr.trans hye (hr.symm (find_mem hf).2)
    have hxy : y = x := hS.eq_of_rel hr (List.erase_sublist.subset hy) (find_mem hf).1 hyx
    subst hxy
    exact absurd hy (hS.nodup hr).not_mem_erase

theorem keyed_replace {S : List α} (hS : Keyed r S) (e : α) : Keyed r (replace r S e).1 := by
  unfold replace
  split
  · rename_i x hf
    exact keyed_cons hr (hS.sublist List.erase_sublist) (find_erase hr hS hf)
  · exact keyed_cons hr hS ‹_›

omit hr in
theorem keyed_delete {S : List α} (hS : Keyed r S) (e : α) : Keyed r (delete r S e).1 := by
  unfold delete
  split
  · exact hS.sublist List.erase_sublist
  · exact hS

/-- After `replace`, `e` is the member of its class; other classes keep theirs. -/
theorem find_replace {S : List α} (hS : Keyed r S) (e e' : α) :
    find r (replace r S e).1 e' = if r e e' then some e else find r S e' := by
  unfold replace
  split
  · rename_i x hf
    cases he : r e e'
    · -- `x` is in the class of `e`, so not in that of `e'`
      have hx : r x e' = false := by
        cases hxe' : r x e'
        · rfl
        · simpa [he] using hr.trans (hr.symm (find_mem hf).2) hxe'
      rw [if_neg (by simp), ← find_erase_of_not_rel hr hS hx]
      simp [find, he]
    · simp [find, he]
  · cases he : r e e' <;> simp [find, he]

/-- After `delete`, the class of `e` has no member; other classes keep theirs. -/
theorem find_delete {S : List α} (hS : Keyed r S) (e e' : α) :
    find r (delete r S e).1 e' = if r e e' then none else find r S e' := by
  unfold delete
  split
  · rename_i x hf
    cases he : r e e'
    · have hx : r x e' = false := by
        cases hxe' : r x e'
        · rfl
        · simpa [he] using hr.trans (hr.symm (find_mem hf).2) hxe'
      rw [if_neg (by simp), find_erase_of_not_rel hr hS hx]
    · -- the class of `e'` is that of `e`, whose one member is gone
      rw [if_pos rfl]
      refine find_eq_none.2 fun y hy => ?_
      have := find_eq_none.1 (find_erase hr hS hf) y hy
      cases hye' : r y e'
      · rfl
      · simp [hr.trans hye' (hr.symm he)] at this
  · rename_i hf
    cases he : r e e'
    · rfl
    · refine find_eq_none.2 fun y hy => ?_
      cases hye' : r y e'
      · rfl
      · simpa [find_eq_none.1 hf y hy] using hr.trans hye' (hr.symm he)

end Equivalence

end KeyedSet
