import Mathlib.Data.List.Basic

/-!
Threads that share a state and interleave their steps. Each thread has a local state; a
step of one thread reads and updates the shared state and its own local state, or fails.
A schedule lists the thread that takes each step.

A thread run alone is `solo`; a schedule that gives one thread `n` steps in a row runs
its `solo` of `n` steps (`run_replicate`), and schedules compose (`run_append`).
-/

namespace Interleave

variable {σ π ε : Type}

/-- A step of thread `i`; a schedule that names no thread leaves everything as it is. -/
def stepAt (step : σ → π → Except ε (σ × π)) (s : σ × List π) (i : Nat) :
    Except ε (σ × List π) :=
  match s.2[i]? with
  | none => pure s
  | some p => do
    let (g, p) ← step s.1 p
    pure (g, s.2.set i p)

/-- The steps of a schedule, in order; the first failing step ends the run. -/
def run (step : σ → π → Except ε (σ × π)) : σ × List π → List Nat → Except ε (σ × List π)
  | s, [] => pure s
  | s, i :: is => do
    let s ← stepAt step s i
    run step s is

/-- `n` steps of one thread alone. -/
def solo (step : σ → π → Except ε (σ × π)) : Nat → σ → π → Except ε (σ × π)
  | 0, g, p => pure (g, p)
  | n + 1, g, p => do
    let (g, p) ← step g p
    solo step n g p

variable {step : σ → π → Except ε (σ × π)}

theorem run_append (as bs : List Nat) :
    ∀ s : σ × List π, run step s (as ++ bs) = run step s as >>= fun s => run step s bs := by
  induction as with
  | nil => intro s; rfl
  | cons i as ih =>
    intro s
    simp only [List.cons_append, run, ih, bind_assoc]

theorem solo_add (a b : Nat) :
    ∀ (g : σ) (p : π), solo step (a + b) g p =
      solo step a g p >>= fun (g, p) => solo step b g p := by
  induction a with
  | zero => intro g p; simp [solo]
  | succ a ih =>
    intro g p
    rw [Nat.add_right_comm, solo, solo, bind_assoc]
    congr 1
    funext r
    exact ih r.1 r.2

/-- `n` steps of thread `i` in a row are its run alone, written back into its slot. -/
theorem run_replicate (i : Nat) :
    ∀ (n : Nat) (g : σ) (ps : List π) (p : π), ps[i]? = some p →
      run step (g, ps) (List.replicate n i) =
        solo step n g p >>= fun (g, p) => pure (g, ps.set i p) := by
  intro n
  induction n with
  | zero =>
    intro g ps p hp
    obtain ⟨hi, hpi⟩ := List.getElem?_eq_some_iff.mp hp
    simp [run, solo, ← hpi]
  | succ n ih =>
    intro g ps p hp
    have hi : i < ps.length := (List.getElem?_eq_some_iff.mp hp).1
    simp only [List.replicate_succ, run, stepAt, hp, solo, bind_assoc]
    congr 1
    funext r
    rw [pure_bind, ih r.1 (ps.set i r.2) r.2 (List.getElem?_set_self hi)]
    simp only [List.set_set]

end Interleave
