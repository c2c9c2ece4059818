import Pintos.Userprog.WaitStatus

/-!
What holds of the wait protocol in every state a run reaches.

`ChildrenLinked`: every record in a thread's `children` list is live and names that
thread as its parent, and no record is listed twice. Each call of the protocol keeps it
(`waitStep_linked`): `destroy_wait_status` frees a record only as it unlinks it from its
parent's list. So in every reachable state

* `findChildWs_reachable`: `find_child_ws` over a thread's `children` reads only live
  records;
* `wait_never_faults`: `process_wait` by a running thread never faults: the record it
  frees is its own child's, unlinked from its own live list.

The fault the run in `WaitStatus` shows is in a child's exit, which unlinks its record
from a dead parent's list.
-/

namespace Pintos.Userprog

open WaitState

/-- Every record in a thread's `children` is live and has that thread as its parent, and
no record is listed twice. -/
def ChildrenLinked (s : WaitState) : Prop :=
  ∀ (t : Nat) (th : Thread), s.threads[t]? = some th → th.children.Nodup ∧
    ∀ ws ∈ th.children, ∃ w : WaitStatus, s.heap[ws]? = some w ∧ w.freed = false ∧ w.parent = t

theorem waitInit_linked : ChildrenLinked waitInit := by
  intro t th ht
  cases t with
  | zero =>
    simp only [waitInit, List.getElem?_cons_zero, Option.some.injEq] at ht
    subst ht
    exact ⟨List.nodup_nil, fun _ h => by cases h⟩
  | succ t => simp [waitInit] at ht

/-! ## Reading and writing the state -/

theorem getWs_eq_ok {s : WaitState} {ws : Nat} {w : WaitStatus} (h : s.getWs ws = .ok w) :
    s.heap[ws]? = some w ∧ w.freed = false := by
  unfold getWs at h
  split at h
  · next hw =>
    split at h
    · cases h
    · next hf =>
      cases h
      exact ⟨hw, by simpa using hf⟩
  · cases h

theorem getThread_eq_ok {s : WaitState} {t : Nat} {th : Thread} (h : s.getThread t = .ok th) :
    s.threads[t]? = some th := by
  unfold getThread at h
  split at h
  · next ht => cases h; exact ht
  · cases h

theorem ownWs_eq_ok {th : Thread} {ws : Nat} (h : ownWs th = .ok ws) : th.waitStatus = some ws := by
  unfold ownWs at h
  split at h
  · next ws' hws => cases h; exact hws
  · cases h

/-- `decrement_and_destroy_if_zero` in one piece: the count one lower, and the record
destroyed when that made it zero. -/
theorem decrementAndDestroyIfZero_eq_ok {s s' : WaitState} {ws : Nat} {d : Bool}
    (hd : decrementAndDestroyIfZero s ws = .ok (s', d)) :
    ∃ w, s.heap[ws]? = some w ∧ w.freed = false ∧
      (w.referenceCount - 1 ≠ 0 ∧ d = false ∧
          s' = s.setWs ws { w with referenceCount := w.referenceCount - 1 } ∨
        w.referenceCount - 1 = 0 ∧ d = true ∧
          destroyWaitStatus (s.setWs ws { w with referenceCount := w.referenceCount - 1 }) ws =
            .ok s') := by
  obtain ⟨w, hw, hd⟩ := Trace.bind_eq_ok hd
  obtain ⟨hw, hf⟩ := getWs_eq_ok hw
  refine ⟨w, hw, hf, ?_⟩
  dsimp only at hd
  split at hd
  · next hzero =>
    obtain ⟨s₂, h₂, hd⟩ := Trace.bind_eq_ok hd
    simp only [Trace.pure_eq_ok, Prod.mk.injEq] at hd
    obtain ⟨rfl, rfl⟩ := hd
    exact Or.inr ⟨hzero, rfl, h₂⟩
  · next hzero =>
    simp only [Trace.pure_eq_ok, Prod.mk.injEq] at hd
    obtain ⟨rfl, rfl⟩ := hd
    exact Or.inl ⟨hzero, rfl, rfl⟩

/-- `process_exit` in one piece: `decrement_all_references` on the thread's own record, the
`sema_up` of `dead`, the loop over its `children`, and the thread marked dying. -/
theorem processExit_eq_ok {s s' : WaitState} {t : Nat} (he : processExit s t = .ok s') :
    ∃ (th : Thread) (ws : Nat) (s₂ : WaitState) (d : Bool) (s₃ : WaitState) (th₃ : Thread)
      (s₁ : WaitState) (th₁ : Thread),
      s.threads[t]? = some th ∧ th.waitStatus = some ws ∧
      decrementAndDestroyIfZero s ws = .ok (s₂, d) ∧ signalDead s₂ ws d = .ok s₃ ∧
      s₃.threads[t]? = some th₃ ∧ decrementChildren s₃ th₃.children = .ok s₁ ∧
      s₁.threads[t]? = some th₁ ∧ s' = s₁.setThread t { th₁ with pc := .dying } := by
  obtain ⟨s₁, h₁, he⟩ := Trace.bind_eq_ok he
  obtain ⟨th₁, hth₁, he⟩ := Trace.bind_eq_ok he
  simp only [Trace.pure_eq_ok] at he
  obtain ⟨th, hth, h₁⟩ := Trace.bind_eq_ok h₁
  obtain ⟨ws, hws, h₁⟩ := Trace.bind_eq_ok h₁
  obtain ⟨⟨s₂, d⟩, h₂, h₁⟩ := Trace.bind_eq_ok h₁
  obtain ⟨s₃, h₃, h₁⟩ := Trace.bind_eq_ok h₁
  obtain ⟨th₃, hth₃, h₁⟩ := Trace.bind_eq_ok h₁
  exact ⟨th, ws, s₂, d, s₃, th₃, s₁, th₁, getThread_eq_ok hth, ownWs_eq_ok hws, h₂, h₃,
    getThread_eq_ok hth₃, h₁, getThread_eq_ok hth₁, he.symm⟩

/-- `start_process` in one piece: a command with a word, and the thread's own record, which
gets `done_loading` raised and the thread running, or, after a failed load, the failure
written as well and the thread exited. -/
theorem startProcess_eq_ok {s s' : WaitState} {t : Nat} {command : List UInt8} {success : Bool}
    (hs : startProcess s t command success = .ok s') :
    ∃ th ws, s.threads[t]? = some th ∧ th.waitStatus = some ws ∧
      strtokR (command.takeWhile (· != 0)) ≠ none ∧
      ((success = true ∧ ∃ s₁, s.modifyWs ws (fun w => { w with doneLoading := w.doneLoading + 1 }) =
          .ok s₁ ∧ s' = s₁.setThread t { th with pc := .running }) ∨
        (success = false ∧ ∃ s₁, s.modifyWs ws (fun w =>
          { w with exitStatus := 1, loadError := 1, doneLoading := w.doneLoading + 1 }) = .ok s₁ ∧
            processExit s₁ t = .ok s')) := by
  obtain ⟨th, hth, hs⟩ := Trace.bind_eq_ok hs
  -- a command with no word has stopped at `strlcpy`'s `ASSERT`
  split at hs
  · cases hs
  next hword =>
  obtain ⟨ws, hws, hs⟩ := Trace.bind_eq_ok hs
  refine ⟨th, ws, getThread_eq_ok hth, ownWs_eq_ok hws, hword, ?_⟩
  cases success with
  | true =>
    obtain ⟨s₁, h₁, hs⟩ := Trace.bind_eq_ok hs
    exact .inl ⟨rfl, s₁, h₁, (Trace.pure_eq_ok.mp hs).symm⟩
  | false =>
    obtain ⟨s₁, h₁, hs⟩ := Trace.bind_eq_ok hs
    exact .inr ⟨rfl, s₁, h₁, hs⟩

/-- Overwriting a record with one of the same parent and the same `freed`. -/
theorem linked_setWs {s : WaitState} {ws : Nat} {w w' : WaitStatus} (h : ChildrenLinked s)
    (hw : s.heap[ws]? = some w) (hp : w'.parent = w.parent) (hf : w'.freed = w.freed) :
    ChildrenLinked (s.setWs ws w') := by
  intro t th ht
  obtain ⟨hnd, hmem⟩ := h t th ht
  refine ⟨hnd, fun ws' hws' => ?_⟩
  obtain ⟨w₁, h₁, hf₁, hp₁⟩ := hmem ws' hws'
  by_cases heq : ws' = ws
  · subst heq
    rw [hw] at h₁
    cases h₁
    have hlt : ws' < s.heap.length := (List.getElem?_eq_some_iff.mp hw).1
    exact ⟨w', List.getElem?_set_self hlt, hf ▸ hf₁, hp ▸ hp₁⟩
  · exact ⟨w₁, by rw [setWs, List.getElem?_set_ne (Ne.symm heq)]; exact h₁, hf₁, hp₁⟩

/-- Overwriting a record that no list holds. -/
theorem linked_setWs_unlisted {s : WaitState} {ws : Nat} {w' : WaitStatus}
    (h : ChildrenLinked s)
    (hnot : ∀ (t : Nat) (th : Thread), s.threads[t]? = some th → ws ∉ th.children) :
    ChildrenLinked (s.setWs ws w') := by
  intro t th ht
  obtain ⟨hnd, hmem⟩ := h t th ht
  refine ⟨hnd, fun ws' hws' => ?_⟩
  have hne : ws' ≠ ws := fun heq => hnot t th ht (heq ▸ hws')
  obtain ⟨w₁, h₁, hf₁, hp₁⟩ := hmem ws' hws'
  exact ⟨w₁, by rw [setWs, List.getElem?_set_ne (Ne.symm hne)]; exact h₁, hf₁, hp₁⟩

/-- Giving thread `t` a list of live records that name it. -/
theorem linked_setThread {s : WaitState} {t : Nat} {th' : Thread} (h : ChildrenLinked s)
    (hnd : th'.children.Nodup)
    (hmem : ∀ ws ∈ th'.children, ∃ w, s.heap[ws]? = some w ∧ w.freed = false ∧ w.parent = t) :
    ChildrenLinked (s.setThread t th') := by
  intro t' th ht
  by_cases heq : t' = t
  · subst heq
    rw [setThread, List.getElem?_set, if_pos rfl] at ht
    split at ht
    · cases ht
      exact ⟨hnd, hmem⟩
    · cases ht
  · rw [setThread, List.getElem?_set_ne (Ne.symm heq)] at ht
    exact h t' th ht

/-- Changing where thread `t` is, its list kept. -/
theorem linked_setPc {s : WaitState} {t : Nat} {th : Thread} (h : ChildrenLinked s)
    (ht : s.threads[t]? = some th) (pc : ThreadPc) :
    ChildrenLinked (s.setThread t { th with pc }) :=
  linked_setThread h (h t th ht).1 (h t th ht).2

/-- Changing a live record without touching its parent or `freed`. -/
theorem linked_modifyWs {s s' : WaitState} {ws : Nat} {f : WaitStatus → WaitStatus}
    (h : ChildrenLinked s) (hm : s.modifyWs ws f = .ok s')
    (hf : ∀ w, (f w).parent = w.parent ∧ (f w).freed = w.freed) : ChildrenLinked s' := by
  obtain ⟨w, hw, hm⟩ := Trace.bind_eq_ok hm
  cases hm
  exact linked_setWs h (getWs_eq_ok hw).1 (hf w).1 (hf w).2

/-! ## Each function of the protocol -/

theorem linked_threadCreate {s s' : WaitState} {t tid : Nat} {command : List UInt8}
    (h : ChildrenLinked s) (hc : threadCreate s t command = .ok (s', tid)) :
    ChildrenLinked s' := by
  obtain ⟨th, ht, hc⟩ := Trace.bind_eq_ok hc
  simp only [Trace.pure_eq_ok, Prod.mk.injEq] at hc
  obtain ⟨rfl, -⟩ := hc
  have ht := getThread_eq_ok ht
  -- the records of a list are below `heap.length`, where the new record goes
  have hold : ∀ (t' : Nat) (th' : Thread), s.threads[t']? = some th' →
      ∀ ws ∈ th'.children, ws < s.heap.length :=
    fun t' th' ht' ws hws => by
      obtain ⟨w, hw, -⟩ := (h t' th' ht').2 ws hws
      exact (List.getElem?_eq_some_iff.mp hw).1
  let s₁ : WaitState := ⟨s.heap ++ [⟨s.threads.length, 0, 0, 2, 0, 0, t, false⟩],
    s.threads ++ [⟨some s.heap.length, [], .loading command⟩]⟩
  have hheap : ∀ ws, ws < s.heap.length → s₁.heap[ws]? = s.heap[ws]? :=
    fun ws hws => List.getElem?_append_left hws
  have h₁ : ChildrenLinked s₁ := by
    intro t' th' ht'
    by_cases hlt : t' < s.threads.length
    · rw [List.getElem?_append_left hlt] at ht'
      obtain ⟨hnd, hmem⟩ := h t' th' ht'
      refine ⟨hnd, fun ws hws => ?_⟩
      rw [hheap ws (hold t' th' ht' ws hws)]
      exact hmem ws hws
    · -- the new thread, with no children
      have hnew : s₁.threads[t']? = some ⟨some s.heap.length, [], .loading command⟩ ∨
          s₁.threads[t']? = none := by
        simp only [s₁, List.getElem?_append_right (Nat.le_of_not_lt hlt)]
        cases hk : t' - s.threads.length with
        | zero => left; rfl
        | succ k => right; rfl
      rcases hnew with hnew | hnew
      · rw [hnew] at ht'
        cases ht'
        exact ⟨List.nodup_nil, fun _ h => by cases h⟩
      · rw [hnew] at ht'
        cases ht'
  have hlen : s₁.heap[s.heap.length]? = some ⟨s.threads.length, 0, 0, 2, 0, 0, t, false⟩ := by
    simp [s₁]
  obtain ⟨hnd, hmem⟩ := h t th ht
  refine linked_setThread h₁ ?_ ?_
  · exact List.nodup_cons.mpr ⟨fun hin => Nat.lt_irrefl _ (hold t th ht _ hin), hnd⟩
  · intro ws hws
    rcases List.mem_cons.mp hws with rfl | hws
    · exact ⟨_, hlen, rfl, rfl⟩
    · rw [hheap ws (hold t th ht ws hws)]
      exact hmem ws hws

theorem linked_destroyWaitStatus {s s' : WaitState} {ws : Nat} (h : ChildrenLinked s)
    (hd : destroyWaitStatus s ws = .ok s') : ChildrenLinked s' := by
  obtain ⟨w, hw, hd⟩ := Trace.bind_eq_ok hd
  obtain ⟨p, hp, hd⟩ := Trace.bind_eq_ok hd
  have hw := (getWs_eq_ok hw).1
  have hp := getThread_eq_ok hp
  split at hd
  · cases hd
  · cases hd
    -- unlink from the parent's list, then free the record no list holds any more
    have hnd := (h w.parent p hp).1
    have h₁ : ChildrenLinked (s.setThread w.parent { p with children := p.children.erase ws }) :=
      linked_setThread h (hnd.erase ws)
        (fun ws' hws' => (h w.parent p hp).2 ws' (List.mem_of_mem_erase hws'))
    refine linked_setWs_unlisted h₁ fun t th ht hin => ?_
    by_cases heq : t = w.parent
    · subst heq
      rw [setThread, List.getElem?_set, if_pos rfl] at ht
      split at ht
      · cases ht
        exact hnd.not_mem_erase hin
      · cases ht
    · rw [setThread, List.getElem?_set_ne (Ne.symm heq)] at ht
      obtain ⟨w₁, h₁, -, hp₁⟩ := (h t th ht).2 ws hin
      rw [hw] at h₁
      cases h₁
      exact heq hp₁.symm

theorem linked_decrementAndDestroyIfZero {s s' : WaitState} {ws : Nat} {destroyed : Bool}
    (h : ChildrenLinked s) (hd : decrementAndDestroyIfZero s ws = .ok (s', destroyed)) :
    ChildrenLinked s' := by
  obtain ⟨w, hw, -, hd⟩ := decrementAndDestroyIfZero_eq_ok hd
  have h₁ : ChildrenLinked (s.setWs ws { w with referenceCount := w.referenceCount - 1 }) :=
    linked_setWs h hw rfl rfl
  rcases hd with ⟨-, -, rfl⟩ | ⟨-, -, h₂⟩
  · exact h₁
  · exact linked_destroyWaitStatus h₁ h₂

theorem linked_decrementChildren :
    ∀ {l : List Nat} {s s' : WaitState}, ChildrenLinked s →
      decrementChildren s l = .ok s' → ChildrenLinked s'
  | [], s, s', h, hd => by
    simp only [decrementChildren, Trace.pure_eq_ok] at hd
    exact hd ▸ h
  | ws :: rest, s, s', h, hd => by
    obtain ⟨⟨s₁, _⟩, h₁, hd⟩ := Trace.bind_eq_ok hd
    exact linked_decrementChildren (linked_decrementAndDestroyIfZero h h₁) hd

theorem linked_signalDead {s s' : WaitState} {ws : Nat} {destroyed : Bool}
    (h : ChildrenLinked s) (hd : signalDead s ws destroyed = .ok s') : ChildrenLinked s' := by
  unfold signalDead at hd
  cases destroyed with
  | true =>
    simp only [if_true, Trace.pure_eq_ok] at hd
    exact hd ▸ h
  | false =>
    simp only [Bool.false_eq_true, if_false] at hd
    exact linked_modifyWs h hd fun _ => ⟨rfl, rfl⟩

theorem linked_processExit {s s' : WaitState} {t : Nat} (h : ChildrenLinked s)
    (he : processExit s t = .ok s') : ChildrenLinked s' := by
  obtain ⟨_, _, _, _, _, _, _, _, -, -, h₂, h₃, -, h₁, hth₁, rfl⟩ := processExit_eq_ok he
  exact linked_setPc (linked_decrementChildren
    (linked_signalDead (linked_decrementAndDestroyIfZero h h₂) h₃) h₁) hth₁ .dying

theorem linked_finishWait {s s' : WaitState} {ws : Nat} {r : Option Int}
    (h : ChildrenLinked s) (hf : finishWait s ws = .ok (s', r)) : ChildrenLinked s' := by
  obtain ⟨w, hw, hf⟩ := Trace.bind_eq_ok hf
  have h₁ : ChildrenLinked (s.setWs ws { w with dead := w.dead - 1 }) :=
    linked_setWs h (getWs_eq_ok hw).1 rfl rfl
  obtain ⟨s₂, h₂, hf⟩ := Trace.bind_eq_ok hf
  simp only [Trace.pure_eq_ok, Prod.mk.injEq] at hf
  obtain ⟨rfl, -⟩ := hf
  exact linked_destroyWaitStatus h₁ h₂

theorem linked_processExecute {s s' : WaitState} {t : Nat} {command : List UInt8}
    {r : Option Int} (h : ChildrenLinked s) (he : processExecute s t command = .ok (s', r)) :
    ChildrenLinked s' := by
  obtain ⟨⟨s₁, tid⟩, h₁, he⟩ := Trace.bind_eq_ok he
  have hs₁ := linked_threadCreate h h₁
  obtain ⟨th, ht, he⟩ := Trace.bind_eq_ok he
  obtain ⟨found, -, he⟩ := Trace.bind_eq_ok he
  cases found with
  | none =>
    simp only [Trace.pure_eq_ok, Prod.mk.injEq] at he
    obtain ⟨rfl, -⟩ := he
    exact hs₁
  | some ws =>
    simp only [Trace.pure_eq_ok, Prod.mk.injEq] at he
    obtain ⟨rfl, -⟩ := he
    exact linked_setPc hs₁ (getThread_eq_ok ht) _

theorem linked_processWait {s s' : WaitState} {t tid : Nat} {r : Option Int}
    (h : ChildrenLinked s) (hw : processWait s t tid = .ok (s', r)) : ChildrenLinked s' := by
  obtain ⟨th, ht, hw⟩ := Trace.bind_eq_ok hw
  obtain ⟨found, -, hw⟩ := Trace.bind_eq_ok hw
  cases found with
  | none =>
    simp only [Trace.pure_eq_ok, Prod.mk.injEq] at hw
    obtain ⟨rfl, -⟩ := hw
    exact h
  | some ws =>
    obtain ⟨w, -, hw⟩ := Trace.bind_eq_ok hw
    split at hw
    · simp only [Trace.pure_eq_ok, Prod.mk.injEq] at hw
      obtain ⟨rfl, -⟩ := hw
      exact linked_setPc h (getThread_eq_ok ht) _
    · exact linked_finishWait h hw

theorem linked_resume {s s' : WaitState} {t : Nat} {r : Option Int}
    (h : ChildrenLinked s) (hr : resume s t = .ok (s', r)) : ChildrenLinked s' := by
  obtain ⟨th, ht, hr⟩ := Trace.bind_eq_ok hr
  have ht := getThread_eq_ok ht
  split at hr
  · -- blocked in `process_execute`
    obtain ⟨w, hw, hr⟩ := Trace.bind_eq_ok hr
    have hw := (getWs_eq_ok hw).1
    split at hr
    · simp only [Trace.pure_eq_ok, Prod.mk.injEq] at hr
      obtain ⟨rfl, -⟩ := hr
      exact h
    · simp only [Trace.pure_eq_ok, Prod.mk.injEq] at hr
      obtain ⟨rfl, -⟩ := hr
      have h₁ : ChildrenLinked (s.setWs _ { w with doneLoading := w.doneLoading - 1 }) :=
        linked_setWs h hw rfl rfl
      exact linked_setPc h₁ ht _
  · -- blocked in `process_wait`
    obtain ⟨w, -, hr⟩ := Trace.bind_eq_ok hr
    split at hr
    · simp only [Trace.pure_eq_ok, Prod.mk.injEq] at hr
      obtain ⟨rfl, -⟩ := hr
      exact h
    · exact linked_finishWait (linked_setPc h ht _) hr
  · simp only [Trace.pure_eq_ok, Prod.mk.injEq] at hr
    obtain ⟨rfl, -⟩ := hr
    exact h

theorem linked_startProcess {s s' : WaitState} {t : Nat} {command : List UInt8} {success : Bool}
    (h : ChildrenLinked s) (hs : startProcess s t command success = .ok s') :
    ChildrenLinked s' := by
  obtain ⟨th, ws, ht, -, -, ⟨-, s₁, h₁, rfl⟩ | ⟨-, s₁, h₁, hs⟩⟩ := startProcess_eq_ok hs
  · -- `modifyWs` leaves the threads as they were
    obtain ⟨w, -, h₁'⟩ := Trace.bind_eq_ok h₁
    cases h₁'
    exact linked_setPc (linked_modifyWs h h₁ (fun _ => ⟨rfl, rfl⟩)) ht _
  · exact linked_processExit (linked_modifyWs h h₁ (fun _ => ⟨rfl, rfl⟩)) hs

theorem linked_threadExitWithStatus {s s' : WaitState} {t : Nat} {status : Int}
    (h : ChildrenLinked s) (he : threadExitWithStatus s t status = .ok s') :
    ChildrenLinked s' := by
  obtain ⟨th, -, he⟩ := Trace.bind_eq_ok he
  obtain ⟨ws, -, he⟩ := Trace.bind_eq_ok he
  obtain ⟨s₁, h₁, he⟩ := Trace.bind_eq_ok he
  exact linked_processExit (linked_modifyWs h h₁ (fun _ => ⟨rfl, rfl⟩)) he

/-! ## Runs -/

/-- Every step of the protocol keeps the lists linked. -/
theorem waitStep_linked {s s' : WaitState} {c : WaitCall} {out : Option Int}
    (h : ChildrenLinked s) (hs : waitStep s c = .ok (s', out)) : ChildrenLinked s' := by
  rcases waitStep_eq_ok hs with rfl | ⟨th, -, -, hs⟩
  · exact h
  cases c with
  | execute t command => exact linked_processExecute h hs
  | startProcess t success => exact linked_startProcess h hs.1
  | wait t tid => exact linked_processWait h hs
  | exit t status => exact linked_threadExitWithStatus h hs.1
  | resume t => exact linked_resume h hs

/-- Every state a run of the protocol reaches has its lists linked. -/
theorem run_linked {calls : List WaitCall} {s : WaitState} {outs : List (Option Int)}
    (hrun : Trace.run waitStep waitInit calls = .ok (s, outs)) : ChildrenLinked s :=
  Trace.run_invariant ChildrenLinked (fun _ _ _ _ hs h => waitStep_linked hs h) calls
    waitInit s outs waitInit_linked hrun

/-! ## What the invariant gives -/

/-- `find_child_ws` over a list of live records answers without a fault. -/
theorem findChildWs_ok_of_live {s : WaitState} {tid : Nat} :
    ∀ {l : List Nat}, (∀ ws ∈ l, ∃ w, s.heap[ws]? = some w ∧ w.freed = false) →
      ∃ r, findChildWs s tid l = .ok r
  | [], _ => ⟨none, rfl⟩
  | ws :: rest, hl => by
    obtain ⟨w, hw, hf⟩ := hl ws List.mem_cons_self
    have hget : s.getWs ws = .ok w := by simp [getWs, hw, hf]
    have hrest : ∃ r, findChildWs s tid rest = .ok r :=
      findChildWs_ok_of_live fun ws' h' => hl ws' (List.mem_cons_of_mem ws h')
    obtain ⟨r, hr⟩ := hrest
    simp only [findChildWs, hget]
    by_cases htid : w.tid = tid
    · exact ⟨some ws, by simp [htid]⟩
    · exact ⟨r, by simp [htid, hr]⟩

/-- In every reachable state, `find_child_ws` over a thread's `children` reads only live
records. -/
theorem findChildWs_reachable {calls : List WaitCall} {s : WaitState}
    {outs : List (Option Int)} (hrun : Trace.run waitStep waitInit calls = .ok (s, outs))
    {t : Nat} {th : Thread} (ht : s.threads[t]? = some th) (tid : Nat) :
    ∃ r, findChildWs s tid th.children = .ok r :=
  findChildWs_ok_of_live fun ws hws => by
    obtain ⟨w, hw, hf, -⟩ := ((run_linked hrun) t th ht).2 ws hws
    exact ⟨w, hw, hf⟩

/-- `destroy_wait_status` on a record of a live thread's own list: `list_remove` writes
only that live list. -/
theorem destroyWaitStatus_own {s : WaitState} {t ws : Nat} {th : Thread}
    (h : ChildrenLinked s) (ht : s.threads[t]? = some th) (hpc : th.pc ≠ .dying)
    (hws : ws ∈ th.children) : ∃ s', destroyWaitStatus s ws = .ok s' := by
  obtain ⟨w, hw, hf, hp⟩ := (h t th ht).2 ws hws
  have hget : s.getWs ws = .ok w := by simp [getWs, hw, hf]
  have hthr : s.getThread w.parent = .ok th := by simp [getThread, hp, ht]
  simp only [destroyWaitStatus, hget, hthr, Trace.ok_bind]
  rw [if_neg fun hc => hpc hc.1]
  exact ⟨_, rfl⟩

/-- In every reachable state, `process_wait` by a running thread ends without a fault, for
every tid: it answers `-1`, blocks, or frees a record of its own live list. -/
theorem wait_never_faults {calls : List WaitCall} {s : WaitState} {outs : List (Option Int)}
    (hrun : Trace.run waitStep waitInit calls = .ok (s, outs)) {t : Nat} {th : Thread}
    (ht : s.threads[t]? = some th) (hpc : th.pc = .running) (tid : Nat) :
    ∃ r, waitStep s (.wait t tid) = .ok r := by
  have h := run_linked hrun
  have hthr : s.getThread t = .ok th := by simp [getThread, ht]
  obtain ⟨found, hfound⟩ := findChildWs_reachable hrun ht tid
  have hen : WaitCall.enabled th.pc (.wait t tid) = true := by
    simp [WaitCall.enabled, hpc]
  simp only [waitStep, WaitCall.thread, ht, hen, if_true, processWait, hthr, hfound,
    Trace.ok_bind]
  cases found with
  | none => exact ⟨_, rfl⟩
  | some ws =>
    -- the record found is live and in `t`'s own list
    obtain ⟨hmem, w, hw, -⟩ := (findChildWs_eq_ok hfound).1 ws rfl
    simp only [hw, Trace.ok_bind]
    split
    · exact ⟨_, rfl⟩
    · obtain ⟨hw', hf⟩ := getWs_eq_ok hw
      obtain ⟨w₂, hw₂, hf₂, hp₂⟩ := (h t th ht).2 ws hmem
      rw [hw'] at hw₂
      cases hw₂
      -- `finish_wait` writes `dead`, then destroys the record
      have h₁ : ChildrenLinked (s.setWs ws { w with dead := w.dead - 1 }) :=
        linked_setWs h hw' rfl rfl
      have ht₁ : (s.setWs ws { w with dead := w.dead - 1 }).threads[t]? = some th := ht
      obtain ⟨s', hs'⟩ := destroyWaitStatus_own h₁ ht₁ (by simp [hpc]) hmem
      simp only [finishWait, hw, hs', Trace.ok_bind]
      exact ⟨_, rfl⟩

/-- After thread `0` has started child `1` and resumed, the state the run reaches, in
which thread `0` runs and may wait. -/
theorem wait_after_execute_returns :
    let s : WaitState := ⟨[⟨1, 0, 0, 2, 0, 0, 0, false⟩],
      [⟨none, [0], .running⟩, ⟨some 0, [], .running⟩]⟩
    Trace.run waitStep waitInit [.execute 0 [chr 'x'], .startProcess 1 true, .resume 0] =
        .ok (s, [none, none, some 1]) ∧
      s.threads[0]? = some ⟨none, [0], .running⟩ ∧ ∃ r, waitStep s (.wait 0 1) = .ok r := by
  intro s
  have hrun : Trace.run waitStep waitInit [.execute 0 [chr 'x'], .startProcess 1 true, .resume 0] =
      .ok (s, [none, none, some 1]) := by decide
  have ht : s.threads[0]? = some ⟨none, [0], .running⟩ := rfl
  exact ⟨hrun, ht, wait_never_faults hrun ht rfl 1⟩

end Pintos.Userprog
