import Pintos.Kernel.ListOps

/-!
Families of `struct list`s that share no cell, as the buckets of a hash table do: `Lists h F`
says that every list of `F`, a head address with its elements, is well formed under the links
`h`, and that no cell lies in two of them. An operation of `lib/kernel/list.c` on one list of a
family writes only links of that list's cells, or of a fresh cell it links in, so the other
lists keep theirs:

* `Lists.update`: one list of a family replaced by a well-formed list at the same head, all of
  whose new elements are fresh, under links that agree with the old ones elsewhere;
* `Lists.pushFront`, `Lists.remove`, `Lists.reinit`: `list_push_front`, `list_remove` and
  `list_init` on a list of a family;
* `Lists.init`: `list_init` of a new list whose two cells are fresh;
* `Lists.fresh_of_remove`: a cell taken out of its list is in no list of the family.
-/

namespace Pintos

open Links

/-- The cells of the `struct list` at `p.1` holding `p.2`: the head, the elements, the tail. -/
def listCells (p : Nat × List Nat) : List Nat := p.1 :: p.2 ++ [p.1 + 8]

/-- `x` is a cell of no list of `F`. -/
def Fresh (F : List (Nat × List Nat)) (x : Nat) : Prop := ∀ p ∈ F, x ∉ listCells p

/-- Well-formed lists at the heads of `F` holding its elements, no two sharing a cell. -/
structure Lists (h : Links) (F : List (Nat × List Nat)) : Prop where
  linked : ∀ p ∈ F, Linked h p.1 p.2
  disjoint : F.Pairwise fun p q => ∀ x ∈ listCells p, x ∉ listCells q

section Cells

variable {h : Links} {list : Nat} {l : List Nat}

@[simp] theorem mem_listCells {p : Nat × List Nat} {x : Nat} :
    x ∈ listCells p ↔ x = p.1 ∨ x ∈ p.2 ∨ x = p.1 + 8 := by
  simp [listCells]

theorem fresh_append {F G : List (Nat × List Nat)} {x : Nat} :
    Fresh (F ++ G) x ↔ Fresh F x ∧ Fresh G x := by
  simp only [Fresh, List.mem_append]
  exact ⟨fun h => ⟨fun p hp => h p (.inl hp), fun p hp => h p (.inr hp)⟩,
    fun h p hp => hp.elim (h.1 p) (h.2 p)⟩

theorem fresh_cons {F : List (Nat × List Nat)} {p : Nat × List Nat} {x : Nat} :
    Fresh (p :: F) x ↔ x ∉ listCells p ∧ Fresh F x := by
  simp [Fresh]

/-- The neighbours of an element are cells of its list. -/
theorem Linked.links_mem (hL : Linked h list l) {e : Nat} (he : e ∈ l) :
    h.prev e ∈ listCells (list, l) ∧ h.next e ∈ listCells (list, l) := by
  obtain ⟨A, B, rfl⟩ := List.append_of_mem he
  have hs : DSeg h 0 ((list :: A) ++ e :: (B ++ [list + 8])) 0 := by simpa using hL.chain.dseg
  obtain ⟨hp, hn⟩ := hs.links
  obtain ⟨w, hw⟩ := exists_getLast? (L := list :: A) (by simp)
  obtain ⟨n, C, hnC⟩ : ∃ n C, B ++ [list + 8] = n :: C := by
    cases B <;> exact ⟨_, _, rfl⟩
  have hwm : w ∈ list :: A := List.mem_of_getLast? hw
  have hnm : n ∈ B ++ [list + 8] := hnC ▸ List.mem_cons_self
  rw [hp, hw, Option.getD_some, hn, hnC, List.head?_cons, Option.getD_some]
  simp only [List.mem_cons, List.mem_append] at hwm hnm
  constructor <;> simp only [mem_listCells, List.mem_append, List.mem_cons] <;> tauto

/-- The first element, or the tail of an empty list, has the head before it. -/
theorem Linked.prev_headD (hL : Linked h list l) : h.prev (l.headD (list + 8)) = list := by
  cases l with
  | nil => exact hL.chain.prev_eq (A := []) (C := []) rfl
  | cons y l => exact hL.chain.prev_eq (A := []) (C := l ++ [list + 8]) (by simp)

/-- `list_init` writes the links of the head and the tail only. -/
theorem listInit_frame {h' : Links} (hi : listInit h list = .ok h') {x : Nat} (hx : x ≠ list)
    (hx8 : x ≠ list + 8) : h'.prev x = h.prev x ∧ h'.next x = h.next x := by
  by_cases h0 : list = 0
  · simp [listInit, h0] at hi
    cases hi
  · simp only [listInit, h0, if_false] at hi
    cases hi
    simp [hx, hx8]

end Cells

namespace Lists

variable {h : Links} {F F₁ F₂ : List (Nat × List Nat)} {p : Nat × List Nat}

theorem disjoint_symm {p q : Nat × List Nat} (hpq : ∀ x ∈ listCells p, x ∉ listCells q) :
    ∀ x ∈ listCells q, x ∉ listCells p :=
  fun x hq hp => hpq x hp hq

/-- The list `p` of a family apart from the others. -/
theorem middle (hF : Lists h (F₁ ++ p :: F₂)) :
    Linked h p.1 p.2 ∧ (∀ q ∈ F₁ ++ F₂, ∀ x ∈ listCells p, x ∉ listCells q) ∧
      Lists h (F₁ ++ F₂) := by
  have hd := (List.pairwise_middle disjoint_symm).1 hF.disjoint
  rw [List.pairwise_cons] at hd
  refine ⟨hF.linked p (by simp), hd.1, fun q hq => hF.linked q ?_, hd.2⟩
  simp only [List.mem_append, List.mem_cons] at hq ⊢
  tauto

/-- One list of a family replaced by another at the same head, under links that agree with
the old ones off the cells of the two. -/
theorem update {h' : Links} {l : List Nat} (hF : Lists h (F₁ ++ p :: F₂))
    (hL : Linked h' p.1 l) (hnew : ∀ x ∈ l, x ∈ p.2 ∨ Fresh (F₁ ++ F₂) x)
    (hkeep : ∀ x, x ∉ listCells p → x ∉ l →
      h'.prev x = h.prev x ∧ h'.next x = h.next x) :
    Lists h' (F₁ ++ (p.1, l) :: F₂) := by
  obtain ⟨-, hp, hrest⟩ := hF.middle
  -- every cell of the new list is one of the old list or a fresh one
  have hcell : ∀ x ∈ listCells (p.1, l), x ∈ listCells p ∨ Fresh (F₁ ++ F₂) x := by
    intro x hx
    rcases mem_listCells.1 hx with rfl | hx | rfl
    · exact .inl (by simp)
    · exact (hnew x hx).imp (fun hx => by simp [hx]) id
    · exact .inl (by simp)
  refine ⟨fun q hq => ?_, (List.pairwise_middle disjoint_symm).2
    (List.pairwise_cons.2 ⟨fun q hq x hx => ?_, hrest.disjoint⟩)⟩
  · have hq' : q = (p.1, l) ∨ q ∈ F₁ ++ F₂ := by
      simp only [List.mem_append, List.mem_cons] at hq ⊢
      tauto
    rcases hq' with rfl | hq'
    · exact hL
    · refine (hrest.linked q hq').frame fun x hx => hkeep x (disjoint_symm (hp q hq') x hx) ?_
      intro hxl
      rcases hnew x hxl with hxp | hfr
      · exact hp q hq' x (by simp [hxp]) hx
      · exact hfr q hq' hx
  · rcases hcell x hx with hxp | hfr
    · exact hp q hq x hxp
    · exact hfr q hq

/-- `list_push_front` of a fresh cell onto one list of a family. -/
theorem pushFront (hF : Lists h (F₁ ++ p :: F₂)) {e : Nat} (he : Fresh (F₁ ++ p :: F₂) e)
    (he0 : e ≠ 0) (hlt : e < 2 ^ 32) :
    listPushFront h p.1 e = .ok (h.insert (p.2.headD (p.1 + 8)) e) ∧
      Lists (h.insert (p.2.headD (p.1 + 8)) e) (F₁ ++ (p.1, e :: p.2) :: F₂) := by
  obtain ⟨hL, -, -⟩ := hF.middle
  have hep : e ∉ listCells p := he p (by simp)
  have hrest : Fresh (F₁ ++ F₂) e := fun q hq => he q (by
    simp only [List.mem_append, List.mem_cons] at hq ⊢
    tauto)
  obtain ⟨hpush, hL'⟩ := listPushFront_spec hL hep he0 hlt
  refine ⟨hpush, hF.update hL' (fun x hx => ?_) fun x hx hxl => ?_⟩
  · rcases List.mem_cons.1 hx with rfl | hx
    · exact .inr hrest
    · exact .inl hx
  · -- `list_insert` writes the links of `e`, of the cell it goes before and of the head
    have hb : p.2.headD (p.1 + 8) ∈ listCells p := by
      rcases hq : p.2 with _ | ⟨y, l⟩ <;> simp [hq]
    refine insert_frame (fun hbe => hep (hbe ▸ hb)) (fun hxb => hx (hxb ▸ hb))
      (fun hxe => hxl (hxe ▸ List.mem_cons_self)) ?_
    rw [hL.prev_headD]
    exact fun hxh => hx (hxh ▸ by simp)

/-- `list_remove` of an element of one list of a family. -/
theorem remove {a : Nat} {A B : List Nat} {e : Nat}
    (hF : Lists h (F₁ ++ (a, A ++ e :: B) :: F₂)) :
    listRemove h e = .ok (h.unlink e, B.headD (a + 8)) ∧
      Lists (h.unlink e) (F₁ ++ (a, A ++ B) :: F₂) := by
  obtain ⟨hL, -, -⟩ := hF.middle
  obtain ⟨hrem, hL'⟩ := listRemove_spec hL
  refine ⟨hrem, hF.update hL' (fun x hx => .inl ?_) fun x hx _ => ?_⟩
  · simp only [List.mem_append, List.mem_cons] at hx ⊢
    tauto
  · obtain ⟨hp, hn⟩ := hL.links_mem (e := e) (by simp)
    exact unlink_frame (fun h' => hx (h' ▸ hn)) (fun h' => hx (h' ▸ hp))

/-- A cell taken out of its list is in no list of the family. -/
theorem fresh_of_remove {a : Nat} {A B : List Nat} {e : Nat}
    (hF : Lists h (F₁ ++ (a, A ++ e :: B) :: F₂)) : Fresh (F₁ ++ (a, A ++ B) :: F₂) e := by
  obtain ⟨hL, hp, -⟩ := hF.middle
  have hecell : e ∈ listCells (a, A ++ e :: B) := by simp
  have hnd := hL.chain.nodup
  have hself : e ∉ listCells (a, A ++ B) := by
    simp only [mem_listCells]
    rintro (rfl | hx | rfl)
    · exact hL.head_not_mem (by simp)
    · exact (List.nodup_middle.1 hL.nodup_elems |> List.nodup_cons.1).1 hx
    · exact hL.tail_not_mem (by simp)
  intro q hq
  have hq' : q = (a, A ++ B) ∨ q ∈ F₁ ++ F₂ := by
    simp only [List.mem_append, List.mem_cons] at hq ⊢
    tauto
  rcases hq' with rfl | hq'
  · exact hself
  · exact hp q hq' e hecell

/-- `list_init` of a list of a family empties it, whatever it held. -/
theorem reinit (hF : Lists h (F₁ ++ p :: F₂)) :
    ∃ h', listInit h p.1 = .ok h' ∧ Lists h' (F₁ ++ (p.1, []) :: F₂) := by
  obtain ⟨hL, -, -⟩ := hF.middle
  obtain ⟨h', hi, hL'⟩ := listInit_spec hL.ne_zero (hL.lt _ (by simp))
  refine ⟨h', hi, hF.update hL' (by simp) fun x hx _ => listInit_frame hi ?_ ?_⟩
  · exact fun h => hx (h ▸ by simp)
  · exact fun h => hx (h ▸ by simp)

/-- `list_init` of a new list, whose head and tail are fresh cells below `2 ^ 32`. -/
theorem init (hF : Lists h F) {a : Nat} (ha : Fresh F a) (ha8 : Fresh F (a + 8)) (h0 : a ≠ 0)
    (hlt : a + 8 < 2 ^ 32) : ∃ h', listInit h a = .ok h' ∧ Lists h' (F ++ [(a, [])]) := by
  obtain ⟨h', hi, hL'⟩ := listInit_spec h0 hlt
  refine ⟨h', hi, fun q hq => ?_, List.pairwise_append.2 ⟨hF.disjoint, by simp, ?_⟩⟩
  · rcases List.mem_append.1 hq with hq | hq
    · refine (hF.linked q hq).frame fun x hx => listInit_frame hi ?_ ?_
      · exact fun h => ha q hq (h ▸ hx)
      · exact fun h => ha8 q hq (h ▸ hx)
    · rw [List.mem_singleton.1 hq]
      exact hL'
  · intro q hq r hr x hx hxr
    rw [List.mem_singleton.1 hr] at hxr
    rcases mem_listCells.1 hxr with rfl | hx' | rfl
    · exact ha q hq hx
    · simp at hx'
    · exact ha8 q hq hx

theorem sublist {G : List (Nat × List Nat)} (hF : Lists h F) (hs : G.Sublist F) : Lists h G :=
  ⟨fun q hq => hF.linked q (hs.subset hq), hF.disjoint.sublist hs⟩

end Lists

end Pintos
