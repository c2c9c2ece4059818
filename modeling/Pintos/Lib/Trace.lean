import Mathlib.Logic.Relation
import Mathlib.Data.List.Forall2

/-!
Runs of a system whose steps can fail. A step takes a state and a label to a new state and
an output, or to an error; `run` replays a list of labels and collects the outputs. An
invariant that every successful step keeps holds after every successful run
(`run_invariant`), also one that follows a summary of the labels (`run_foldl_invariant`),
and a step function that agrees, step by step, with an abstract one
through an abstraction map gives the same outputs over whole runs (`run_simulation`).
`Reachable` is the same closure as a relation, for systems whose steps are chosen rather
than replayed.
-/

namespace Trace

/-- Peels one bind of `Except`, the shape of every sequential step. -/
theorem bind_eq_ok {ε α β : Type} {x : Except ε α} {f : α → Except ε β} {b : β}
    (h : x >>= f = .ok b) : ∃ a, x = .ok a ∧ f a = .ok b := by
  cases x with
  | error e => cases h
  | ok a => exact ⟨a, rfl, h⟩

@[simp] theorem pure_eq_ok {ε α : Type} {a b : α} : (pure a : Except ε α) = .ok b ↔ a = b :=
  ⟨fun h => Except.ok.inj h, fun h => h ▸ rfl⟩

@[simp] theorem ok_bind {ε α β : Type} {a : α} {f : α → Except ε β} :
    (Except.ok a : Except ε α) >>= f = f a := rfl

@[simp] theorem throw_ne_ok {ε α : Type} {e : ε} {b : α} : (throw e : Except ε α) ≠ .ok b :=
  fun h => by cases h

/-- A computation whose projected result is known returns: the form in which a concrete
run, evaluated on a decidable projection, gives its whole result back. -/
theorem map_eq_ok {ε α β : Type} {f : α → β} {x : Except ε α} {b : β} (h : x.map f = .ok b) :
    ∃ a, x = .ok a ∧ f a = b := by
  cases x with
  | error e => cases h
  | ok a => exact ⟨a, rfl, Except.ok.inj h⟩

variable {ε σ L ω : Type}

/-- The error a computation stops with, `none` when it returns. -/
def errorOf {α : Type} : Except ε α → Option ε
  | .error e => some e
  | .ok _ => none

/-- C's `a && b` where `b` changes the state: `b` runs only when `a` holds. -/
def seqAnd (a : Bool) (s : σ) (b : σ → Except ε (σ × Bool)) : Except ε (σ × Bool) :=
  if a then b s else pure (s, false)

@[simp] theorem seqAnd_true (s : σ) (b : σ → Except ε (σ × Bool)) : seqAnd true s b = b s := rfl

@[simp] theorem seqAnd_false (s : σ) (b : σ → Except ε (σ × Bool)) :
    seqAnd false s b = pure (s, false) := rfl

/-- Replays the labels in order, collecting the outputs; the first error ends the run. -/
def run (step : σ → L → Except ε (σ × ω)) : σ → List L → Except ε (σ × List ω)
  | s, [] => pure (s, [])
  | s, a :: as => do
    let (s, o) ← step s a
    let (s, os) ← run step s as
    pure (s, o :: os)

theorem run_invariant {step : σ → L → Except ε (σ × ω)} (inv : σ → Prop)
    (hstep : ∀ s a s' o, inv s → step s a = .ok (s', o) → inv s') :
    ∀ (as : List L) (s s' : σ) (os : List ω), inv s → run step s as = .ok (s', os) → inv s'
  | [], s, s', os, hs, h => by
    simp only [run, pure_eq_ok, Prod.mk.injEq] at h
    exact h.1 ▸ hs
  | a :: as, s, s', os, hs, h => by
    obtain ⟨⟨s1, o⟩, h1, h⟩ := bind_eq_ok h
    obtain ⟨⟨s2, os'⟩, h2, h⟩ := bind_eq_ok h
    simp only [pure_eq_ok, Prod.mk.injEq] at h
    exact h.1 ▸ run_invariant inv hstep as s1 s2 os' (hstep s a s1 o hs h1) h2

/-- An invariant indexed by a summary of the labels so far: a step whose label and output
`ok` admits takes it from `g` to `next g a`, so a run whose every step `ok` admits ends in
the summary of all its labels. -/
theorem run_foldl_invariant {τ : Type} {step : σ → L → Except ε (σ × ω)} (inv : τ → σ → Prop)
    (next : τ → L → τ) (ok : L → ω → Prop)
    (hstep : ∀ g s a s' o, inv g s → step s a = .ok (s', o) → ok a o → inv (next g a) s') :
    ∀ (as : List L) (g : τ) (s s' : σ) (os : List ω), inv g s → run step s as = .ok (s', os) →
      List.Forall₂ ok as os → inv (as.foldl next g) s'
  | [], g, s, s', os, hs, h, _ => by
    simp only [run, pure_eq_ok, Prod.mk.injEq] at h
    exact h.1 ▸ hs
  | a :: as, g, s, s', os, hs, h, hok => by
    obtain ⟨⟨s1, o⟩, h1, h⟩ := bind_eq_ok h
    obtain ⟨⟨s2, os'⟩, h2, h⟩ := bind_eq_ok h
    simp only [pure_eq_ok, Prod.mk.injEq] at h
    obtain ⟨rfl, rfl⟩ := h
    cases hok with
    | cons ha hrest =>
      exact run_foldl_invariant inv next ok hstep as (next g a) s1 s2 os'
        (hstep g s a s1 o hs h1 ha) h2 hrest

/-- The run of a total step function, as an abstract specification states one. -/
def runSpec {τ : Type} (spec : τ → L → τ × ω) : τ → List L → τ × List ω
  | t, [] => (t, [])
  | t, a :: as =>
    let (t, o) := spec t a
    let (t, os) := runSpec spec t as
    (t, o :: os)

/-- A step function that refines an abstract one, from every state where `inv` holds and
for every label `ok` admits, gives the abstract outputs over every run, and ends in the
abstraction of its final state. -/
theorem run_simulation {τ : Type} {step : σ → L → Except ε (σ × ω)} (abs : σ → τ)
    (spec : τ → L → τ × ω) (inv : σ → Prop) (ok : L → Prop)
    (hinv : ∀ s a s' o, inv s → ok a → step s a = .ok (s', o) → inv s')
    (hsim : ∀ s a s' o, inv s → ok a → step s a = .ok (s', o) → spec (abs s) a = (abs s', o)) :
    ∀ (as : List L) (s s' : σ) (os : List ω), inv s → (∀ a ∈ as, ok a) →
      run step s as = .ok (s', os) → runSpec spec (abs s) as = (abs s', os)
  | [], s, s', os, _, _, h => by
    simp only [run, pure_eq_ok, Prod.mk.injEq] at h
    obtain ⟨rfl, rfl⟩ := h
    rfl
  | a :: as, s, s', os, hs, hok, h => by
    obtain ⟨⟨s1, o⟩, h1, h⟩ := bind_eq_ok h
    obtain ⟨⟨s2, os'⟩, h2, h⟩ := bind_eq_ok h
    simp only [pure_eq_ok, Prod.mk.injEq] at h
    obtain ⟨rfl, rfl⟩ := h
    have ha := hok a List.mem_cons_self
    have ih := run_simulation abs spec inv ok hinv hsim as s1 s2 os'
      (hinv s a s1 o hs ha h1) (fun b hb => hok b (List.mem_cons_of_mem a hb)) h2
    simp only [runSpec, hsim s a s1 o hs ha h1, ih]

/-- The states a system of guarded steps reaches from `s₀`: `step s a = some s'` when the
label `a` is enabled in `s` and leads to `s'`. -/
inductive Reachable (step : σ → L → Option σ) (s₀ : σ) : σ → Prop where
  | refl : Reachable step s₀ s₀
  | tail {s s' : σ} (a : L) : Reachable step s₀ s → step s a = some s' → Reachable step s₀ s'

/-- An invariant of the start state that every enabled step keeps holds in every reachable
state. -/
theorem Reachable.invariant {step : σ → L → Option σ} {s₀ s : σ} (inv : σ → Prop)
    (h₀ : inv s₀) (hstep : ∀ s a s', inv s → step s a = some s' → inv s')
    (h : Reachable step s₀ s) : inv s := by
  induction h with
  | refl => exact h₀
  | tail a _ ha ih => exact hstep _ a _ ih ha

/-- The guarded steps of `as` in order, `none` from the first one not enabled. -/
def replay (step : σ → L → Option σ) : σ → List L → Option σ
  | s, [] => some s
  | s, a :: as => (step s a).bind fun s => replay step s as

/-- A replayed schedule ends in a reachable state. -/
theorem Reachable.replay {step : σ → L → Option σ} {s₀ : σ} :
    ∀ (as : List L) {s s' : σ}, Reachable step s₀ s → Trace.replay step s as = some s' →
      Reachable step s₀ s'
  | [], _, _, h, hr => by
    cases hr
    exact h
  | a :: as, s, _, h, hr => by
    cases ha : step s a with
    | none => simp [Trace.replay, ha] at hr
    | some s₁ =>
      simp only [Trace.replay, ha, Option.bind_some] at hr
      exact Reachable.replay as (h.tail a ha) hr

end Trace
