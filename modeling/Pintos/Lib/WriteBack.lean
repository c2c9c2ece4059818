import Mathlib.Logic.Function.Basic
import Mathlib.Data.List.Nodup

/-!
A write-back cache in front of a store, as a list of lines searched from the front.
`view` is what a reader sees: the first line for a key, otherwise the store. The lemmas
say how each list operation a cache performs (fill at the front, drop the back line after
writing it back, change a line in place, write back every dirty line) moves the view, and
which of them keep the cache invariants: a bounded number of lines, distinct keys, and
clean lines equal to the store.
-/

namespace WriteBack

variable {K V : Type} [DecidableEq K]

structure Line (K V : Type) where
  key : K
  val : V
  dirty : Bool

def view : List (Line K V) → (K → V) → K → V
  | [], store, k => store k
  | l :: ls, store, k => if l.key = k then l.val else view ls store k

def keys (ls : List (Line K V)) : List K := ls.map Line.key

/-- Writing one line back: only a dirty line reaches the store. -/
def flush (store : K → V) (l : Line K V) : K → V :=
  if l.dirty then Function.update store l.key l.val else store

/-- Every clean line holds what the store holds. -/
def Clean (ls : List (Line K V)) (store : K → V) : Prop :=
  ∀ l ∈ ls, l.dirty = false → l.val = store l.key

/-- The invariant of a cache of at most `cap` lines over `store`. -/
structure Valid (cap : Nat) (ls : List (Line K V)) (store : K → V) : Prop where
  length_le : ls.length ≤ cap
  nodup : (keys ls).Nodup
  clean : Clean ls store

/-! ## The view -/

theorem flush_of_ne {k : K} {l : Line K V} (store : K → V) (h : k ≠ l.key) :
    flush store l k = store k := by
  unfold flush
  split
  · exact Function.update_of_ne h _ _
  · rfl

@[simp] theorem view_nil (store : K → V) (k : K) : view [] store k = store k := rfl

theorem view_cons (l : Line K V) (ls : List (Line K V)) (store : K → V) (k : K) :
    view (l :: ls) store k = if l.key = k then l.val else view ls store k := rfl

omit [DecidableEq K] in
@[simp] theorem keys_nil : keys ([] : List (Line K V)) = [] := rfl

omit [DecidableEq K] in
@[simp] theorem keys_cons (l : Line K V) (ls : List (Line K V)) :
    keys (l :: ls) = l.key :: keys ls := rfl

theorem view_cons_eq_update (l : Line K V) (ls : List (Line K V)) (store : K → V) :
    view (l :: ls) store = Function.update (view ls store) l.key l.val := by
  funext k
  rw [view_cons, Function.update_apply]
  by_cases h : l.key = k
  · simp [h]
  · simp [h, Ne.symm h]

theorem view_of_not_mem {ls : List (Line K V)} {k : K} (store : K → V) (h : k ∉ keys ls) :
    view ls store k = store k := by
  induction ls with
  | nil => rfl
  | cons l ls ih =>
    simp only [keys_cons, List.mem_cons, not_or] at h
    rw [view_cons, if_neg (Ne.symm h.1), ih h.2]

theorem view_of_mem {ls : List (Line K V)} {l : Line K V} (store : K → V)
    (hnd : (keys ls).Nodup) (hl : l ∈ ls) : view ls store l.key = l.val := by
  induction ls with
  | nil => simp at hl
  | cons m ls ih =>
    simp only [keys_cons, List.nodup_cons] at hnd
    rw [view_cons]
    rcases List.mem_cons.mp hl with rfl | hl
    · simp
    · have hne : m.key ≠ l.key := fun he => hnd.1 (he ▸ List.mem_map_of_mem hl)
      rw [if_neg hne, ih hnd.2 hl]

/-- A line for a key the cache does not hold, filled from the store, changes no view. -/
theorem view_cons_of_not_mem {ls : List (Line K V)} {k : K} (store : K → V) (b : Bool)
    (h : k ∉ keys ls) : view (⟨k, store k, b⟩ :: ls) store = view ls store := by
  funext k'
  rw [view_cons]
  split
  · next he => subst he; exact (view_of_not_mem store h).symm
  · rfl

/-- Evicting the back line, after writing it back, changes no view. -/
theorem view_dropLast_flush {ls : List (Line K V)} (store : K → V) (hc : Clean ls store)
    (hne : ls ≠ []) : view ls.dropLast (flush store (ls.getLast hne)) = view ls store := by
  induction ls with
  | nil => exact absurd rfl hne
  | cons l ls ih =>
    funext k
    cases ls with
    | nil =>
      change flush store l k = view [l] store k
      rw [view_cons, view_nil, flush]
      cases hd : l.dirty
      · have hv := hc l (by simp) hd
        by_cases hk : l.key = k
        · subst hk; simp [hv]
        · simp [hk]
      · by_cases hk : l.key = k
        · subst hk; simp
        · simp [hk, Ne.symm hk]
    | cons m rest =>
      have hc' : Clean (m :: rest) store := fun x hx => hc x (List.mem_cons_of_mem l hx)
      rw [List.dropLast_cons_cons, List.getLast_cons (List.cons_ne_nil m rest), view_cons,
        view_cons, ih hc' (List.cons_ne_nil m rest)]

/-- Writing the front line back, when no later line has its key, leaves the view of the
rest as the view of the whole. -/
theorem view_flush_cons {l : Line K V} {ls : List (Line K V)} (store : K → V)
    (hk : l.key ∉ keys ls) (hl : l.dirty = false → l.val = store l.key) :
    view ls (flush store l) = view (l :: ls) store := by
  funext k
  rw [view_cons]
  split
  · next he =>
    subst he
    rw [view_of_not_mem _ hk, flush]
    cases hd : l.dirty
    · exact (hl hd).symm
    · simp
  · next hne =>
    induction ls with
    | nil => exact flush_of_ne store (Ne.symm hne)
    | cons m ls ih =>
      simp only [keys_cons, List.mem_cons, not_or] at hk
      rw [view_cons, view_cons, ih hk.2]

/-- Marking every line clean changes no view. -/
theorem view_map_clean (ls : List (Line K V)) (store : K → V) :
    view (ls.map fun l => { l with dirty := false }) store = view ls store := by
  funext k
  induction ls with
  | nil => rfl
  | cons l ls ih => simp only [List.map_cons, view_cons, ih]

/-- The view at `k` depends on the store only when no line holds `k`. -/
theorem view_congr_store {ls : List (Line K V)} {store store' : K → V} (k : K)
    (h : k ∉ keys ls → store k = store' k) : view ls store k = view ls store' k := by
  induction ls with
  | nil => exact h (by simp)
  | cons l ls ih =>
    rw [view_cons, view_cons]
    split
    · rfl
    · next hne => exact ih fun hk => h (by simp [hk, Ne.symm hne])

/-- Over its own view, a cache shows that view again. -/
theorem view_view (ls : List (Line K V)) (store : K → V) :
    view ls (view ls store) = view ls store := by
  funext k
  exact view_congr_store k (view_of_not_mem store)

/-! ## The scan from the front -/

/-- The position and the line of the first line for `k`. -/
def locate : List (Line K V) → K → Option (Nat × Line K V)
  | [], _ => none
  | l :: ls, k => if l.key = k then some (0, l) else (locate ls k).map fun p => (p.1 + 1, p.2)

theorem locate_eq_none_iff {ls : List (Line K V)} {k : K} : locate ls k = none ↔ k ∉ keys ls := by
  induction ls with
  | nil => simp [locate]
  | cons l ls ih =>
    simp only [locate, keys_cons, List.mem_cons, not_or]
    by_cases h : l.key = k
    · simp [h]
    · simp [h, ih, Ne.symm h]

theorem locate_key {ls : List (Line K V)} {k : K} {pos : Nat} {l : Line K V}
    (h : locate ls k = some (pos, l)) : l.key = k := by
  induction ls generalizing pos with
  | nil => simp [locate] at h
  | cons m ls ih =>
    simp only [locate] at h
    split at h
    · cases h; assumption
    · obtain ⟨⟨p, l'⟩, hp, he⟩ := Option.map_eq_some_iff.mp h
      cases he
      exact ih hp

theorem locate_getElem? {ls : List (Line K V)} {k : K} {pos : Nat} {l : Line K V}
    (h : locate ls k = some (pos, l)) : ls[pos]? = some l := by
  induction ls generalizing pos with
  | nil => simp [locate] at h
  | cons m ls ih =>
    simp only [locate] at h
    split at h
    · cases h; rfl
    · obtain ⟨⟨p, l'⟩, hp, he⟩ := Option.map_eq_some_iff.mp h
      cases he
      exact ih hp

theorem locate_mem_keys {ls : List (Line K V)} {k : K} {pos : Nat} {l : Line K V}
    (h : locate ls k = some (pos, l)) : k ∈ keys ls :=
  locate_key h ▸ List.mem_map_of_mem (List.mem_of_getElem? (locate_getElem? h))

theorem view_of_locate {ls : List (Line K V)} {k : K} {pos : Nat} {l : Line K V}
    (store : K → V) (h : locate ls k = some (pos, l)) : view ls store k = l.val := by
  induction ls generalizing pos with
  | nil => simp [locate] at h
  | cons m ls ih =>
    simp only [locate] at h
    rw [view_cons]
    split at h
    · cases h; rw [if_pos ‹_›]
    · obtain ⟨⟨p, l'⟩, hp, he⟩ := Option.map_eq_some_iff.mp h
      cases he
      rw [if_neg ‹_›, ih hp]

/-- A line changed in place, at the position `locate` found for `k`, changes the view at
`k` only. -/
theorem view_modify {ls : List (Line K V)} {k : K} {pos : Nat} {l : Line K V}
    (f : Line K V → Line K V) (hf : ∀ l, (f l).key = l.key) (h : locate ls k = some (pos, l))
    (store : K → V) : view (ls.modify pos f) store = Function.update (view ls store) k (f l).val := by
  induction ls generalizing pos with
  | nil => simp [locate] at h
  | cons m ls ih =>
    funext k'
    simp only [locate] at h
    split at h
    · next hm =>
      cases h
      rw [List.modify_zero_cons, Function.update_apply, view_cons, view_cons, hf]
      by_cases hk : k' = k
      · subst hk; simp [hm]
      · simp [hk, hm, Ne.symm hk]
    · next hm =>
      obtain ⟨⟨p, l'⟩, hp, he⟩ := Option.map_eq_some_iff.mp h
      cases he
      rw [List.modify_succ_cons, Function.update_apply, view_cons, view_cons, ih hp,
        Function.update_apply]
      by_cases hk : k' = k
      · subst hk; simp [hm]
      · simp [hk]

/-! ## The invariants -/

omit [DecidableEq K] in
theorem keys_modify (ls : List (Line K V)) (pos : Nat) (f : Line K V → Line K V)
    (hf : ∀ l, (f l).key = l.key) : keys (ls.modify pos f) = keys ls := by
  induction ls generalizing pos with
  | nil => simp
  | cons m ls ih =>
    cases pos with
    | zero => simp [hf]
    | succ p => simp [ih]

omit [DecidableEq K] in
/-- A line made dirty in place keeps the clean lines clean. -/
theorem clean_modify_dirty {ls : List (Line K V)} {store : K → V} (hc : Clean ls store)
    (pos : Nat) (g : V → V) :
    Clean (ls.modify pos fun l => { l with val := g l.val, dirty := true }) store := by
  intro l hl hd
  obtain ⟨i, hi, hget⟩ := List.getElem_of_mem hl
  rw [List.getElem_modify] at hget
  split at hget
  · subst hget; simp at hd
  · exact hc l (hget ▸ List.getElem_mem _) hd

omit [DecidableEq K] in
/-- An empty cache is valid over any store. -/
theorem valid_nil (cap : Nat) (store : K → V) : Valid cap [] store where
  length_le := Nat.zero_le cap
  nodup := List.nodup_nil
  clean := fun _ h => nomatch h

omit [DecidableEq K] in
/-- The cache after a miss: the new line in front of the lines the slot search left. -/
theorem valid_cons {cap : Nat} {ls : List (Line K V)} {store : K → V} {l : Line K V}
    (hlen : ls.length < cap) (hnd : (keys ls).Nodup) (hc : Clean ls store)
    (hk : l.key ∉ keys ls) (hl : l.dirty = false → l.val = store l.key) :
    Valid cap (l :: ls) store where
  length_le := hlen
  nodup := List.nodup_cons.mpr ⟨hk, hnd⟩
  clean := by
    intro m hm hd
    rcases List.mem_cons.mp hm with rfl | hm
    · exact hl hd
    · exact hc m hm hd

/-- Dropping the back line after writing it back keeps the rest valid for the new store. -/
theorem valid_dropLast_flush {cap : Nat} {ls : List (Line K V)} {store : K → V}
    (hv : Valid cap ls store) (hne : ls ≠ []) :
    ls.dropLast.length < ls.length ∧ (keys ls.dropLast).Nodup ∧
      Clean ls.dropLast (flush store (ls.getLast hne)) ∧
      ∀ k ∉ keys ls, k ∉ keys ls.dropLast := by
  have hsub : (keys ls.dropLast).Sublist (keys ls) := by
    unfold keys
    rw [List.map_dropLast]
    exact List.dropLast_sublist _
  have hsplit : ls.dropLast ++ [ls.getLast hne] = ls := List.dropLast_append_getLast hne
  refine ⟨?_, hv.nodup.sublist hsub, ?_, fun k hk hk' => hk (hsub.subset hk')⟩
  · have := List.length_pos_of_ne_nil hne
    simp only [List.length_dropLast]
    omega
  · intro l hl hd
    have hne' : l.key ≠ (ls.getLast hne).key := by
      have hnd := hv.nodup
      rw [← hsplit] at hnd
      simp only [keys, List.map_append, List.map_cons, List.map_nil] at hnd
      exact fun he => (List.nodup_append.mp hnd).2.2 _ (List.mem_map_of_mem hl) _
        (List.mem_singleton_self _) he
    have hl' : l ∈ ls := by rw [← hsplit]; exact List.mem_append_left _ hl
    rw [hv.clean l hl' hd, flush]
    split
    · rw [Function.update_apply, if_neg hne']
    · rfl

end WriteBack
