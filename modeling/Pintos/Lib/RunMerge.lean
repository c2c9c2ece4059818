import Mathlib.Data.List.Chain
import Mathlib.Order.Defs.Unbundled

/-!
Natural merge sort on lists, by passes. A pass cuts the list into its maximal runs from the
front and merges them two by two with `List.merge`; the passes go on until one outputs a
single run. The order is a Boolean `less`, and neighbours `a, b` in a run keep
`le a b := !less b a`.

* `mergePass_perm`: a pass permutes the list;
* `sublist_mergePass`: a sublist whose elements are in `le` order stays a sublist of the
  pass, so equal elements keep their order;
* `descents_mergePass_lt`: a pass that outputs two runs or more has fewer descents than
  its input, which bounds the number of passes;
* `isChain_mergePass_of_count_le_one`: a pass that outputs at most one run leaves a
  sorted list.
-/

namespace RunMerge

variable {α : Type} (less : α → α → Bool)

/-- `b` is not less than `a`: the order of neighbours in a run. -/
def le (a b : α) : Bool := !less b a

/-- The run after the element `p`: the elements of `l` up to the first that is less than
the one before it, and the rest of `l`. -/
def splitRun : α → List α → List α × List α
  | _, [] => ([], [])
  | p, y :: ys => if less y p then ([], y :: ys) else (y :: (splitRun y ys).1, (splitRun y ys).2)

/-- The descents of a list: neighbours `a, b` with `b` less than `a`. -/
def descents : List α → Nat
  | a :: b :: l => (if less b a then 1 else 0) + descents (b :: l)
  | _ => 0

section Runs

theorem splitRun_append : ∀ (p : α) (l : List α),
    (splitRun less p l).1 ++ (splitRun less p l).2 = l
  | _, [] => rfl
  | p, y :: ys => by
    rw [splitRun]
    split
    · rfl
    · rw [List.cons_append, splitRun_append y ys]

theorem length_splitRun_snd_le (p : α) (l : List α) : (splitRun less p l).2.length ≤ l.length := by
  have := congrArg List.length (splitRun_append less p l)
  rw [List.length_append] at this
  omega

/-- A run is in `le` order from the element before it. -/
theorem isChain_splitRun : ∀ (p : α) (l : List α),
    (p :: (splitRun less p l).1).IsChain (fun a b => le less a b = true)
  | p, [] => List.IsChain.singleton p
  | p, y :: ys => by
    rw [splitRun]
    split
    · exact List.IsChain.singleton p
    · rename_i hyp
      exact List.IsChain.cons_cons (by simpa [le] using hyp) (isChain_splitRun y ys)

/-- Where a run stops before the end, the next element is a descent. -/
theorem descents_cons : ∀ (p : α) (l : List α),
    descents less (p :: l) =
      if (splitRun less p l).2 = [] then 0 else 1 + descents less (splitRun less p l).2
  | p, [] => rfl
  | p, y :: ys => by
    rw [descents, splitRun]
    split
    · simp
    · rw [Nat.zero_add]
      exact descents_cons y ys

theorem descents_le_length : ∀ l : List α, descents less l ≤ l.length
  | a :: b :: l => by
    have := descents_le_length (b :: l)
    rw [descents, List.length_cons]
    split <;> omega
  | [] | [_] => Nat.zero_le _

theorem descents_eq_zero_of_isChain : ∀ {l : List α},
    l.IsChain (fun a b => le less a b = true) → descents less l = 0
  | [], _ => rfl
  | [_], _ => rfl
  | a :: b :: l, h => by
    rw [List.isChain_cons_cons] at h
    have hba : less b a = false := by simpa [le] using h.1
    rw [descents, hba, descents_eq_zero_of_isChain h.2]
    rfl

/-- A descent can only stand between two lists or inside one of them. -/
theorem descents_append_le : ∀ (l₁ l₂ : List α),
    descents less (l₁ ++ l₂) ≤ descents less l₁ + 1 + descents less l₂
  | [], l₂ => by simp [descents]
  | [a], [] => by simp [descents]
  | [a], b :: l₂ => by
    simp only [List.cons_append, List.nil_append, descents]
    split <;> omega
  | a :: b :: l₁, l₂ => by
    simp only [List.cons_append, descents]
    have := descents_append_le (b :: l₁) l₂
    simp only [List.cons_append] at this
    omega

end Runs

/-- One pass: the first two runs merged, then the pass over what follows them, with the
number of runs the pass outputs. -/
def mergePass : List α → List α × Nat
  | [] => ([], 0)
  | x :: rest =>
    match h : (splitRun less x rest).2 with
    | [] => (x :: (splitRun less x rest).1, 1)
    | y :: rest' =>
      ((x :: (splitRun less x rest).1).merge (y :: (splitRun less y rest').1) (le less) ++
          (mergePass (splitRun less y rest').2).1,
        (mergePass (splitRun less y rest').2).2 + 1)
termination_by l => l.length
decreasing_by
  have h₁ := length_splitRun_snd_le less y rest'
  have h₂ := length_splitRun_snd_le less x rest
  rw [h, List.length_cons] at h₂
  rw [List.length_cons]
  omega

section Pass

/-- A pass over a list that is one run. -/
theorem mergePass_of_one_run {x : α} {rest : List α} (h : (splitRun less x rest).2 = []) :
    mergePass less (x :: rest) = (x :: (splitRun less x rest).1, 1) := by
  rw [mergePass]
  split <;> simp_all

/-- A pass over a list of two runs or more. -/
theorem mergePass_of_two_runs {x y : α} {rest rest' : List α}
    (h : (splitRun less x rest).2 = y :: rest') :
    mergePass less (x :: rest) =
      ((x :: (splitRun less x rest).1).merge (y :: (splitRun less y rest').1) (le less) ++
          (mergePass less (splitRun less y rest').2).1,
        (mergePass less (splitRun less y rest').2).2 + 1) := by
  rw [mergePass]
  split <;> simp_all

/-- The list a pass starts from: its first run, the second, and the rest. -/
theorem eq_runs {x y : α} {rest rest' : List α} (h : (splitRun less x rest).2 = y :: rest') :
    x :: rest = (x :: (splitRun less x rest).1) ++ (y :: (splitRun less y rest').1) ++
      (splitRun less y rest').2 := by
  have h₁ := splitRun_append less x rest
  rw [h] at h₁
  simp only [List.cons_append, List.append_assoc, splitRun_append, h₁]

theorem mergePass_perm (l : List α) : (mergePass less l).1.Perm l := by
  fun_induction mergePass less l with
  | case1 => exact List.Perm.refl _
  | case2 x rest h =>
    have := splitRun_append less x rest
    rw [h, List.append_nil] at this
    rw [this]
  | case3 x rest y rest' h ih =>
    rw [eq_runs less h]
    exact ((List.merge_perm_append (le less)).append ih)

section Order

variable [IsStrictWeakOrder α (fun a b => less a b = true)]

theorem le_trans (a b c : α) : le less a b = true → le less b c = true → le less a c = true := by
  simp only [le, Bool.not_eq_true']
  intro hba hcb
  by_contra hca
  rw [Bool.not_eq_false] at hca
  have hbc : less b c = false := by
    by_contra h'
    rw [Bool.not_eq_false] at h'
    exact absurd (@IsTrans.trans _ (fun a b => less a b = true) _ _ _ _ h' hca) (by simp [hba])
  have hab : less a b = false := by
    by_contra h'
    rw [Bool.not_eq_false] at h'
    exact absurd (@IsTrans.trans _ (fun a b => less a b = true) _ _ _ _ hca h') (by simp [hcb])
  have := (@IsStrictWeakOrder.incomp_trans _ (fun a b => less a b = true) _ c b a
    ⟨by simp [hcb], by simp [hbc]⟩ ⟨by simp [hba], by simp [hab]⟩).1
  exact this hca

theorem le_total (a b : α) : (le less a b || le less b a) = true := by
  simp only [le, Bool.or_eq_true, Bool.not_eq_true']
  by_contra h
  simp only [not_or, Bool.not_eq_false] at h
  exact @Std.Irrefl.irrefl _ (fun a b => less a b = true) _ a
    (@IsTrans.trans _ (fun a b => less a b = true) _ _ _ _ h.2 h.1)

theorem pairwise_of_isChain {l : List α} (h : l.IsChain (fun a b => le less a b = true)) :
    l.Pairwise (fun a b => le less a b = true) :=
  haveI : Trans (fun a b => le less a b = true) (fun a b => le less a b = true)
      (fun a b => le less a b = true) := ⟨fun hab hbc => le_trans less _ _ _ hab hbc⟩
  h.pairwise

theorem isChain_merge {l₁ l₂ : List α} (h₁ : l₁.IsChain (fun a b => le less a b = true))
    (h₂ : l₂.IsChain (fun a b => le less a b = true)) :
    (l₁.merge l₂ (le less)).IsChain (fun a b => le less a b = true) :=
  (List.pairwise_merge (le_trans less) (le_total less) l₁ l₂ (pairwise_of_isChain less h₁)
    (pairwise_of_isChain less h₂)).isChain

end Order

end Pass

/-! ## Stability -/

section Stable

variable [IsStrictWeakOrder α (fun a b => less a b = true)]

/-- `merge` keeps a sublist of each side in place when every element kept from the left is
`le` every element kept from the right. Induction on both lists, as `merge` recurses. -/
theorem sublist_merge : ∀ (l₁ l₂ c₁ c₂ : List α),
    l₁.Pairwise (fun a b => le less a b = true) → c₁.Sublist l₁ → c₂.Sublist l₂ →
      (∀ a ∈ c₁, ∀ b ∈ c₂, le less a b = true) → (c₁ ++ c₂).Sublist (l₁.merge l₂ (le less))
  | [], l₂, c₁, c₂, _, h₁, h₂, _ => by
    rw [List.sublist_nil.1 h₁]
    simpa using h₂
  | x :: l₁, [], c₁, c₂, _, h₁, h₂, _ => by
    rw [List.sublist_nil.1 h₂]
    simpa using h₁
  | x :: l₁, y :: l₂, c₁, c₂, hp, h₁, h₂, hc => by
    rw [List.cons_merge_cons]
    split
    · -- `x` goes first: it is kept or not
      cases h₁ with
      | cons _ h₁ =>
        exact (sublist_merge l₁ (y :: l₂) c₁ c₂ hp.tail h₁ h₂ hc).cons x
      | cons_cons _ h₁ =>
        exact (sublist_merge l₁ (y :: l₂) _ c₂ hp.tail h₁ h₂
          fun a ha b hb => hc a (List.mem_cons_of_mem _ ha) b hb).cons_cons x
    · -- `y` goes first; if it is kept, nothing is kept from the left
      rename_i hxy
      cases h₂ with
      | cons _ h₂ => exact (sublist_merge (x :: l₁) l₂ c₁ c₂ hp h₁ h₂ hc).cons y
      | cons_cons _ h₂ =>
        rename_i c₂'
        have hc₁ : c₁ = [] := by
          rw [List.eq_nil_iff_forall_not_mem]
          intro a ha
          have hay := hc a ha y List.mem_cons_self
          rcases List.mem_cons.1 (h₁.subset ha) with rfl | hal
          · exact hxy hay
          · exact hxy (le_trans less _ _ _ (List.rel_of_pairwise_cons hp hal) hay)
        subst hc₁
        exact (sublist_merge (x :: l₁) l₂ [] c₂' hp (List.nil_sublist _) h₂ (by simp)).cons_cons y

/-- A pass keeps every sublist in `le` order as a sublist. Induction along the pass. -/
theorem sublist_mergePass (l : List α) : ∀ c : List α,
    c.Sublist l → c.Pairwise (fun a b => le less a b = true) → c.Sublist (mergePass less l).1 := by
  fun_induction mergePass less l with
  | case1 => exact fun c hc _ => hc
  | case2 x rest h =>
    have := splitRun_append less x rest
    rw [h, List.append_nil] at this
    rw [this]
    exact fun c hc _ => hc
  | case3 x rest y rest' h ih =>
    intro c hc hpw
    rw [eq_runs less h] at hc
    obtain ⟨c₁₂, c₃, rfl, h₁₂, h₃⟩ := List.sublist_append_iff.1 hc
    obtain ⟨c₁, c₂, rfl, h₁, h₂⟩ := List.sublist_append_iff.1 h₁₂
    rw [List.pairwise_append, List.pairwise_append] at hpw
    have hmerge := sublist_merge less _ _ c₁ c₂
      (pairwise_of_isChain less (isChain_splitRun less x rest)) h₁ h₂ hpw.1.2.2
    exact hmerge.append (ih c₃ h₃ hpw.2.1)

end Stable

/-! ## The number of passes -/

section Count

theorem mergePass_count_eq_zero {l : List α} : (mergePass less l).2 = 0 ↔ l = [] := by
  cases l with
  | nil => simp [mergePass]
  | cons x rest =>
    rw [mergePass]
    split <;> simp

/-- A pass outputs at most half the runs, rounded up: `2 * count ≤ runs + 1`, where a
nonempty list has one run more than it has descents. -/
theorem two_mul_count_le (l : List α) : 2 * (mergePass less l).2 ≤ descents less l + 2 := by
  fun_induction mergePass less l with
  | case1 => simp
  | case2 x rest h => simp
  | case3 x rest y rest' h ih =>
    rw [descents_cons less x rest, h, if_neg (List.cons_ne_nil _ _), descents_cons less y rest']
    split
    · rename_i h₂
      rw [h₂, (mergePass_count_eq_zero less).2 rfl]
      omega
    · omega

variable [IsStrictWeakOrder α (fun a b => less a b = true)]

/-- The output of a pass has fewer descents than it has runs. -/
theorem descents_mergePass_lt (l : List α) :
    descents less (mergePass less l).1 < (mergePass less l).2 ∨ (mergePass less l).1 = [] := by
  fun_induction mergePass less l with
  | case1 => exact .inr rfl
  | case2 x rest h =>
    exact .inl (by rw [descents_eq_zero_of_isChain less (isChain_splitRun less x rest)]; omega)
  | case3 x rest y rest' h ih =>
    refine .inl ?_
    dsimp only
    have hm := descents_eq_zero_of_isChain less
      (isChain_merge less (isChain_splitRun less x rest) (isChain_splitRun less y rest'))
    rcases ih with ih | ih
    · have := descents_append_le less
        ((x :: (splitRun less x rest).1).merge (y :: (splitRun less y rest').1) (le less))
        (mergePass less (splitRun less y rest').2).1
      omega
    · rw [ih, List.append_nil, hm]
      omega

/-- A pass that outputs two runs or more removes descents. -/
theorem descents_mergePass_of_two_le {l : List α} (h : 2 ≤ (mergePass less l).2) :
    descents less (mergePass less l).1 < descents less l := by
  have hcount := two_mul_count_le less l
  rcases descents_mergePass_lt less l with hlt | hnil
  · omega
  · rw [hnil, show descents less [] = 0 from rfl]
    omega

/-- A pass that outputs at most one run leaves a sorted list. -/
theorem isChain_mergePass_of_count_le_one (l : List α) :
    (mergePass less l).2 ≤ 1 → (mergePass less l).1.IsChain (fun a b => le less a b = true) := by
  fun_induction mergePass less l with
  | case1 => exact fun _ => List.IsChain.nil
  | case2 x rest h => exact fun _ => isChain_splitRun less x rest
  | case3 x rest y rest' h ih =>
    intro hcount
    rw [(mergePass_count_eq_zero less).1 (by omega : (mergePass less (splitRun less y rest').2).2 = 0)]
    rw [show (mergePass less []).1 = [] by simp [mergePass], List.append_nil]
    exact isChain_merge less (isChain_splitRun less x rest) (isChain_splitRun less y rest')

end Count

end RunMerge
