import Mathlib.Data.Nat.Init
import Pintos.Lib.Trace

/-!
Loops bounded by fuel, the form a C `while` loop takes here: a round of the body either
stops with a result (`.inl`) or goes on from a new state (`.inr`), and a loop that runs out
of fuel has a result of its own.

* `run_invariant`: a property kept by every round that goes on, and implied at each way
  out, holds of the result;
* `run_fuel`: a measure that every round going on decreases, and at zero makes the body
  stop as running out of fuel would, bounds the rounds, so any fuel from that measure up
  gives the same result;
* `run_ok`: a body that never fails, with such a measure, returns within any fuel above
  the measure;
* `run_congr`: two bodies that agree wherever an invariant of one of them holds run the
  same;
* `run_advance`: rounds that each step a position on by one are skipped in one go;
* `run_add_of_ok`: a loop that returned within some fuel returns the same with more, when
  running out of fuel is an error;
* `run_variant`: an invariant and a variant over an abstract state that the loop's state
  represents: a round either stops with a good result or goes on to a smaller abstract
  state, so the loop returns a good result within any fuel above the variant.

A `for` loop over a list whose rounds each append to an accumulated list appends all their
lists in turn (`foldlM_append`), and a loop over `m * n` indices is a nest of two
(`flatMap_range_mul`).
-/

namespace Loop

variable {α β ε : Type}

/-- At most `fuel` rounds of `body` from `a`; `exhausted` gives the result when the fuel
runs out. -/
def run (body : α → Except ε (β ⊕ α)) (exhausted : α → Except ε β) : Nat → α → Except ε β
  | 0, a => exhausted a
  | fuel + 1, a => body a >>= fun
    | .inl b => pure b
    | .inr a' => run body exhausted fuel a'

variable {body : α → Except ε (β ⊕ α)} {exhausted : α → Except ε β}

@[simp] theorem run_zero (a : α) : run body exhausted 0 a = exhausted a := rfl

theorem run_succ_of_stop {fuel : Nat} {a : α} {b : β} (h : body a = .ok (.inl b)) :
    run body exhausted (fuel + 1) a = .ok b := by
  rw [run, h]
  rfl

theorem run_succ_of_next {fuel : Nat} {a a' : α} (h : body a = .ok (.inr a')) :
    run body exhausted (fuel + 1) a = run body exhausted fuel a' := by
  rw [run, h]
  rfl

/-- A body that stops as running out of fuel would ends the loop with that result. -/
theorem run_succ_of_exhausted {fuel : Nat} {a : α} (h : body a = (exhausted a).map .inl) :
    run body exhausted (fuel + 1) a = exhausted a := by
  rw [run, h]
  cases exhausted a <;> rfl

/-- The rule of a loop invariant. Induction on the fuel. -/
theorem run_invariant (P : α → Prop) (Q : β → Prop)
    (hexhausted : ∀ a b, P a → exhausted a = .ok b → Q b)
    (hstop : ∀ a b, P a → body a = .ok (.inl b) → Q b)
    (hnext : ∀ a a', P a → body a = .ok (.inr a') → P a') :
    ∀ (fuel : Nat) (a : α) (b : β), P a → run body exhausted fuel a = .ok b → Q b := by
  intro fuel
  induction fuel with
  | zero => exact hexhausted
  | succ fuel ih =>
    intro a b ha h
    cases hb : body a with
    | error e =>
      rw [run, hb] at h
      cases h
    | ok r =>
      cases r with
      | inl b' =>
        rw [run_succ_of_stop hb] at h
        cases h
        exact hstop a b ha hb
      | inr a' =>
        rw [run_succ_of_next hb] at h
        exact ih a' b (hnext a a' ha hb) h

/-- The rule of a loop variant: the loop takes at most `μ a` rounds from `a`. Strong
induction on the measure. -/
theorem run_fuel (P : α → Prop) (μ : α → Nat)
    (hnext : ∀ a a', P a → body a = .ok (.inr a') → P a' ∧ μ a' < μ a)
    (hzero : ∀ a, P a → μ a = 0 → body a = (exhausted a).map .inl) :
    ∀ (fuel : Nat) (a : α), P a → μ a ≤ fuel →
      run body exhausted fuel a = run body exhausted (μ a) a := by
  intro fuel a ha hfuel
  induction hμ : μ a using Nat.strong_induction_on generalizing fuel a with
  | _ n ih =>
    cases n with
    | zero =>
      cases fuel with
      | zero => rfl
      | succ fuel => exact run_succ_of_exhausted (hzero a ha hμ)
    | succ n =>
      obtain ⟨fuel, rfl⟩ : ∃ f, fuel = f + 1 := ⟨fuel - 1, by omega⟩
      cases hb : body a with
      | error e => rw [run, run, hb]; rfl
      | ok r =>
        cases r with
        | inl b => rw [run_succ_of_stop hb, run_succ_of_stop hb]
        | inr a' =>
          obtain ⟨ha', hlt⟩ := hnext a a' ha hb
          rw [run_succ_of_next hb, run_succ_of_next hb,
            ih (μ a') (by omega) fuel a' ha' (by omega) rfl,
            ih (μ a') (by omega) n a' ha' (by omega) rfl]

/-- The rule of a loop variant for termination: a body that does not fail where `P` holds,
and that keeps `P` and decreases `μ` in every round that goes on, returns a result within
any fuel above `μ`. Induction on the fuel. -/
theorem run_ok (P : α → Prop) (μ : α → Nat) (hbody : ∀ a, P a → ∃ r, body a = .ok r)
    (hnext : ∀ a a', P a → body a = .ok (.inr a') → P a' ∧ μ a' < μ a) :
    ∀ (fuel : Nat) (a : α), P a → μ a < fuel → ∃ b, run body exhausted fuel a = .ok b := by
  intro fuel
  induction fuel with
  | zero => intro a _ h; exact absurd h (Nat.not_lt_zero _)
  | succ fuel ih =>
    intro a ha hlt
    obtain ⟨r, hr⟩ := hbody a ha
    cases r with
    | inl b => exact ⟨b, run_succ_of_stop hr⟩
    | inr a' =>
      obtain ⟨ha', hμ⟩ := hnext a a' ha hr
      rw [run_succ_of_next hr]
      exact ih a' ha' (by omega)

/-- Two bodies that agree on every state where an invariant `P` of the first holds give
the same loop from such a state. Induction on the fuel. -/
theorem run_congr {body' : α → Except ε (β ⊕ α)} (P : α → Prop)
    (hsame : ∀ a, P a → body' a = body a)
    (hnext : ∀ a a', P a → body a = .ok (.inr a') → P a') :
    ∀ (fuel : Nat) (a : α), P a → run body' exhausted fuel a = run body exhausted fuel a := by
  intro fuel
  induction fuel with
  | zero => intro _ _; rfl
  | succ fuel ih =>
    intro a ha
    rw [run, run, hsame a ha]
    cases hb : body a with
    | error e => rfl
    | ok r =>
      cases r with
      | inl b => rfl
      | inr a' => exact ih a' (hnext a a' ha hb)

/-- Rounds that each go on from a position to the next: `k` of them from `a` bring the loop
to `a + k`. Induction on `k`. -/
theorem run_advance {body : Nat → Except ε (β ⊕ Nat)} {exhausted : Nat → Except ε β} :
    ∀ (k fuel a : Nat), (∀ i < k, body (a + i) = .ok (.inr (a + i + 1))) →
      run body exhausted (fuel + k) a = run body exhausted fuel (a + k) := by
  intro k
  induction k with
  | zero => intro fuel a _; rfl
  | succ k ih =>
    intro fuel a h
    have h0 : body a = .ok (.inr (a + 1)) := by simpa using h 0 (by omega)
    have hrest : ∀ i < k, body (a + 1 + i) = .ok (.inr (a + 1 + i + 1)) := fun i hi => by
      simpa [Nat.add_assoc, Nat.add_comm 1 i] using h (i + 1) (by omega)
    rw [← Nat.add_assoc, run_succ_of_next h0, ih fuel (a + 1) hrest, Nat.add_right_comm,
      Nat.add_assoc]

/-- More fuel does not change a result the loop reached, when running out of fuel is an
error. Induction on the fuel. -/
theorem run_add_of_ok (hex : ∀ a b, exhausted a ≠ .ok b) :
    ∀ (fuel : Nat) (a : α) (b : β) (n : Nat),
      run body exhausted fuel a = .ok b → run body exhausted (fuel + n) a = .ok b := by
  intro fuel
  induction fuel with
  | zero => intro a b _ h; exact absurd h (hex a b)
  | succ fuel ih =>
    intro a b n h
    cases hb : body a with
    | error e =>
      rw [run, hb] at h
      cases h
    | ok r =>
      cases r with
      | inl b' =>
        rw [Nat.add_right_comm, run_succ_of_stop hb]
        rw [run_succ_of_stop hb] at h
        exact h
      | inr a' =>
        rw [Nat.add_right_comm, run_succ_of_next hb]
        rw [run_succ_of_next hb] at h
        exact ih a' b n h

/-- The rule of a loop invariant and variant over an abstract state `g` that the state `a`
of the loop represents (`Inv g a`). Induction on the fuel. -/
theorem run_variant {γ : Type} (Inv : γ → α → Prop) (μ : γ → Nat) (Q : β → Prop)
    (hstep : ∀ g a, Inv g a → (∃ b, body a = .ok (.inl b) ∧ Q b) ∨
      ∃ g' a', body a = .ok (.inr a') ∧ Inv g' a' ∧ μ g' < μ g) :
    ∀ (fuel : Nat) (g : γ) (a : α), Inv g a → μ g < fuel →
      ∃ b, run body exhausted fuel a = .ok b ∧ Q b := by
  intro fuel
  induction fuel with
  | zero => intro g a _ h; exact absurd h (Nat.not_lt_zero _)
  | succ fuel ih =>
    intro g a ha hlt
    rcases hstep g a ha with ⟨b, hb, hq⟩ | ⟨g', a', hb, ha', hμ⟩
    · exact ⟨b, run_succ_of_stop hb, hq⟩
    · rw [run_succ_of_next hb]
      exact ih g' a' ha' (by omega)

/-! ## Loops over a list -/

/-- Rounds that each append `g x` to the accumulated list append them all, in the order of
the list. Induction on the list. -/
theorem foldlM_append {γ : Type} {f : List β → γ → Except ε (List β)} {g : γ → List β} :
    ∀ {l : List γ}, (∀ x ∈ l, ∀ acc, f acc x = .ok (acc ++ g x)) →
      ∀ acc, l.foldlM f acc = .ok (acc ++ l.flatMap g)
  | [], _, acc => by simp [pure, Except.pure]
  | x :: l, hf, acc => by
    have hx : f acc x = .ok (acc ++ g x) := hf x List.mem_cons_self acc
    have hl : ∀ y ∈ l, ∀ acc, f acc y = .ok (acc ++ g y) := fun y hy =>
      hf y (List.mem_cons_of_mem x hy)
    rw [List.foldlM_cons, hx]
    show l.foldlM f (acc ++ g x) = _
    rw [foldlM_append hl, List.flatMap_cons, List.append_assoc]

/-- The indices below `m * n`, in order, are the `n` indices of each of `m` blocks. Induction
on `m`. -/
theorem flatMap_range_mul {γ : Type} (n : Nat) (F : Nat → List γ) :
    ∀ m, (List.range (m * n)).flatMap F =
      (List.range m).flatMap fun i => (List.range n).flatMap fun j => F (n * i + j)
  | 0 => by simp
  | m + 1 => by
    rw [Nat.succ_mul, List.range_add, List.flatMap_append, flatMap_range_mul n F m,
      List.range_succ, List.flatMap_append, List.flatMap_map, List.flatMap_singleton,
      Nat.mul_comm m n]

end Loop
