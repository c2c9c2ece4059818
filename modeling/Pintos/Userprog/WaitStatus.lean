import Pintos.Devices.Block
import Pintos.Lib.Trace
import Pintos.Userprog.ArgStack

/-!
The wait protocol of `userprog/process.c` and `threads/thread.c`. A parent and each of its
children share a `struct wait_status`, made by `thread_create` with `reference_count` 2
and linked into the parent's `children` list. Each side drops its reference when it exits,
and `process_wait` frees the record after the child has signalled `dead`.

The kernel heap holds the records at their addresses, with whether `free` has been
called; a thread keeps its `children` list until it exits, when `thread_schedule_tail`
frees its page. Reading or writing a record or a list after it was freed stops the model
with `Fault.wildAccess`. A step is one of the calls of the protocol, or a blocked
`sema_down` going on once its semaphore is up. A thread in `start_process` carries the
command line `process_execute` handed it; one with no word stops the kernel at `strlcpy`'s
`ASSERT` (`startProcess_without_words`).

* `findChildWs_eq_ok`: `find_child_ws` answers with a live record of the list carrying
  the tid asked for, or none when no record of the list carries it;
* `processWait_not_child`: `process_wait` on a tid none of the caller's records carries
  returns `-1` and changes nothing.

A child that outlives its parent frees its record through the parent's freed list; the
run at the end shows it.
-/

namespace Pintos.Userprog

/-- `TID_ERROR`. -/
def TID_ERROR : Int := -1

/-- `struct wait_status`: the semaphores `dead` and `done_loading` as their counts, and
the thread whose `children` list holds `elem`. -/
structure WaitStatus where
  tid : Nat
  dead : Nat
  exitStatus : Int
  referenceCount : Int
  doneLoading : Nat
  loadError : Int
  parent : Nat
  freed : Bool
  deriving DecidableEq, Repr

/-- Where a thread is: in `start_process` before `load` returns, with the command line
`process_execute` handed it, in user code, blocked in `process_execute` or `process_wait` on
the record at `ws`, or dead. -/
inductive ThreadPc where
  | loading (command : List UInt8)
  | running
  | execute (ws : Nat)
  | wait (ws : Nat)
  | dying
  deriving DecidableEq, Repr

/-- In `start_process`, before `load` returns. -/
@[simp] def ThreadPc.isLoading : ThreadPc → Bool
  | .loading _ => true
  | _ => false

/-- The command line of a thread in `start_process`; no other thread reads one. -/
def ThreadPc.command : ThreadPc → List UInt8
  | .loading command => command
  | _ => []

/-- The fields of `struct thread` the protocol uses; `children` front first. -/
structure Thread where
  waitStatus : Option Nat
  children : List Nat
  pc : ThreadPc
  deriving DecidableEq, Repr

/-- The records by address, and the threads by tid. -/
structure WaitState where
  heap : List WaitStatus
  threads : List Thread
  deriving DecidableEq, Repr

namespace WaitState

/-- The record at `ws`; one that was freed cannot be read. -/
def getWs (s : WaitState) (ws : Nat) : Except Fault WaitStatus :=
  match s.heap[ws]? with
  | some w => if w.freed then throw .wildAccess else pure w
  | none => throw .wildAccess

def setWs (s : WaitState) (ws : Nat) (w : WaitStatus) : WaitState :=
  { s with heap := s.heap.set ws w }

/-- Changes the live record at `ws`. -/
def modifyWs (s : WaitState) (ws : Nat) (f : WaitStatus → WaitStatus) :
    Except Fault WaitState := do
  let w ← s.getWs ws
  pure (s.setWs ws (f w))

def getThread (s : WaitState) (t : Nat) : Except Fault Thread :=
  match s.threads[t]? with
  | some th => pure th
  | none => throw .wildAccess

def setThread (s : WaitState) (t : Nat) (th : Thread) : WaitState :=
  { s with threads := s.threads.set t th }

end WaitState

open WaitState

/-- `thread_current ()->wait_status`: the initial thread has none, and using it faults. -/
def ownWs (th : Thread) : Except Fault Nat :=
  match th.waitStatus with
  | some ws => pure ws
  | none => throw .kernelFault

/-- `thread_create` by thread `t`: a new thread in `start_process (command)`, with the
record of `init_wait_status` (`reference_count` 2) pushed to the front of `t`'s
`children`. -/
def threadCreate (s : WaitState) (t : Nat) (command : List UInt8) :
    Except Fault (WaitState × Nat) := do
  let th ← s.getThread t
  let tid := s.threads.length
  let ws := s.heap.length
  let s : WaitState := ⟨s.heap ++ [⟨tid, 0, 0, 2, 0, 0, t, false⟩],
    s.threads ++ [⟨some ws, [], .loading command⟩]⟩
  pure (s.setThread t { th with children := ws :: th.children }, tid)

/-- `find_child_ws (children, tid)`. -/
def findChildWs (s : WaitState) (tid : Nat) : List Nat → Except Fault (Option Nat)
  | [] => pure none
  | ws :: rest => do
    let w ← s.getWs ws
    if w.tid = tid then pure (some ws) else findChildWs s tid rest

/-- `destroy_wait_status (ws)`: `list_remove (&ws->elem)`, then `free`. `list_remove`
writes the neighbours of `elem`, and at either end of the list one of them is the head or
the tail inside the parent's `struct thread`. -/
def destroyWaitStatus (s : WaitState) (ws : Nat) : Except Fault WaitState := do
  let w ← s.getWs ws
  let p ← s.getThread w.parent
  if p.pc = .dying ∧ (p.children.head? = some ws ∨ p.children.getLast? = some ws) then
    throw .wildAccess
  else
    let s := s.setThread w.parent { p with children := p.children.erase ws }
    pure (s.setWs ws { w with freed := true })

/-- `decrement_and_destroy_if_zero (ws)`: whether the record was destroyed. -/
def decrementAndDestroyIfZero (s : WaitState) (ws : Nat) :
    Except Fault (WaitState × Bool) := do
  let w ← s.getWs ws
  let w := { w with referenceCount := w.referenceCount - 1 }
  let s := s.setWs ws w
  if w.referenceCount = 0 then do
    let s ← destroyWaitStatus s ws
    pure (s, true)
  else pure (s, false)

/-- The loop of `decrement_all_references` over the exiting thread's `children`. -/
def decrementChildren (s : WaitState) : List Nat → Except Fault WaitState
  | [] => pure s
  | ws :: rest => do
    let (s, _) ← decrementAndDestroyIfZero s ws
    decrementChildren s rest

/-- `sema_up (&ws->dead)` unless the record was just destroyed. -/
def signalDead (s : WaitState) (ws : Nat) (destroyed : Bool) : Except Fault WaitState :=
  if destroyed then pure s else s.modifyWs ws fun w => { w with dead := w.dead + 1 }

/-- `decrement_all_references (cur->wait_status)` for thread `t`. -/
def decrementAllReferences (s : WaitState) (t : Nat) : Except Fault WaitState := do
  let th ← s.getThread t
  let ws ← ownWs th
  let (s, destroyed) ← decrementAndDestroyIfZero s ws
  let s ← signalDead s ws destroyed
  let th ← s.getThread t
  decrementChildren s th.children

/-- `process_exit` of thread `t`, and the end of `thread_exit`: the thread dies and its
page is freed. -/
def processExit (s : WaitState) (t : Nat) : Except Fault WaitState := do
  let s ← decrementAllReferences s t
  let th ← s.getThread t
  pure (s.setThread t { th with pc := .dying })

/-- `thread_exit_with_status (status)` by thread `t`, from `exit` or from `kill`. -/
def threadExitWithStatus (s : WaitState) (t : Nat) (status : Int) :
    Except Fault WaitState := do
  let th ← s.getThread t
  let ws ← ownWs th
  let s ← s.modifyWs ws fun w => { w with exitStatus := status }
  processExit s t

/-- `start_process (command)` of thread `t` once `load` (and `load_arguments_to_stack`)
returned `success`: `sema_up (&ws->done_loading)`, and on failure `exit_status` and
`load_error` set to 1 and `thread_exit`. Before `load`, `strlcpy (t->name, argv[0], ...)`
copies the first word: `get_word_list` finds none when its first `strtok_r` finds no token,
`get_argv_from_list` then leaves `argv[0]` the `NULL` that ends `argv`, and `strlcpy`'s
`ASSERT (src != NULL)` stops the kernel before any `sema_up`. -/
def startProcess (s : WaitState) (t : Nat) (command : List UInt8) (success : Bool) :
    Except Fault WaitState := do
  let th ← s.getThread t
  if strtokR (command.takeWhile (· != 0)) = none then throw .panic
  else
  let ws ← ownWs th
  if success then do
    let s ← s.modifyWs ws fun w => { w with doneLoading := w.doneLoading + 1 }
    pure (s.setThread t { th with pc := .running })
  else do
    let s ← s.modifyWs ws fun w =>
      { w with exitStatus := 1, loadError := 1, doneLoading := w.doneLoading + 1 }
    processExit s t

/-- `start_process` of a command with no word stops at `strlcpy`'s `ASSERT`, whatever `load`
would return. -/
theorem startProcess_without_words {s : WaitState} {t : Nat} {command : List UInt8}
    {th : Thread} (ht : s.threads[t]? = some th)
    (hw : strtokR (command.takeWhile (· != 0)) = none) (success : Bool) :
    startProcess s t command success = .error .panic := by
  simp [startProcess, getThread, ht, hw]
  rfl

/-- `process_execute (command)` by thread `t`: `thread_create`, `find_child_ws`, then
`sema_down (&ws->done_loading)`, where `t` blocks: the child has not run yet. -/
def processExecute (s : WaitState) (t : Nat) (command : List UInt8) :
    Except Fault (WaitState × Option Int) := do
  let (s, tid) ← threadCreate s t command
  let th ← s.getThread t
  let found ← findChildWs s tid th.children
  match found with
  | none => pure (s, some TID_ERROR)
  | some ws => pure (s.setThread t { th with pc := .execute ws }, none)

/-- The end of `process_wait` once `sema_down (&ws->dead)` returns: `exit_status`, then
`destroy_wait_status`. -/
def finishWait (s : WaitState) (ws : Nat) : Except Fault (WaitState × Option Int) := do
  let w ← s.getWs ws
  let s := s.setWs ws { w with dead := w.dead - 1 }
  let s ← destroyWaitStatus s ws
  pure (s, some w.exitStatus)

/-- `process_wait (child_tid)` by thread `t`: `-1` at once when no record of `t` carries
the tid; otherwise `t` blocks until `dead` is up. -/
def processWait (s : WaitState) (t tid : Nat) : Except Fault (WaitState × Option Int) := do
  let th ← s.getThread t
  let found ← findChildWs s tid th.children
  match found with
  | none => pure (s, some (-1))
  | some ws => do
    let w ← s.getWs ws
    if w.dead = 0 then pure (s.setThread t { th with pc := .wait ws }, none)
    else finishWait s ws

/-- A blocked `sema_down` of thread `t` goes on once its semaphore is up: `process_execute`
returns `TID_ERROR` if the child failed to load and its tid otherwise, and `process_wait`
finishes. -/
def resume (s : WaitState) (t : Nat) : Except Fault (WaitState × Option Int) := do
  let th ← s.getThread t
  match th.pc with
  | .execute ws => do
    let w ← s.getWs ws
    if w.doneLoading = 0 then pure (s, none)
    else
      let s := (s.setWs ws { w with doneLoading := w.doneLoading - 1 }).setThread t
        { th with pc := .running }
      pure (s, some (if w.loadError ≠ 0 then TID_ERROR else w.tid))
  | .wait ws => do
    let w ← s.getWs ws
    if w.dead = 0 then pure (s, none)
    else finishWait (s.setThread t { th with pc := .running }) ws
  | _ => pure (s, none)

/-- The steps of the protocol, each by the thread it names. -/
inductive WaitCall where
  | execute (t : Nat) (command : List UInt8)
  | startProcess (t : Nat) (success : Bool)
  | wait (t tid : Nat)
  | exit (t : Nat) (status : Int)
  | resume (t : Nat)
  deriving DecidableEq, Repr

namespace WaitCall

def thread : WaitCall → Nat
  | .execute t _ | .startProcess t _ | .wait t _ | .exit t _ | .resume t => t

/-- Whether a thread at `pc` can take the step. -/
def enabled (pc : ThreadPc) : WaitCall → Bool
  | .execute _ _ | .wait _ _ | .exit _ _ => pc == .running
  | .startProcess _ _ => pc.isLoading
  | .resume _ =>
    match pc with
    | .execute _ | .wait _ => true
    | _ => false

end WaitCall

/-- One step of the protocol, with what the call returned if it returned. A step its
thread cannot take leaves the state as it is; `start_process` runs on the command line its
thread was created with. -/
def waitStep (s : WaitState) (c : WaitCall) : Except Fault (WaitState × Option Int) :=
  match s.threads[c.thread]? with
  | some th =>
    if c.enabled th.pc then
      match c with
      | .execute t command => processExecute s t command
      | .startProcess t success => do
        let s ← startProcess s t th.pc.command success
        pure (s, none)
      | .wait t tid => processWait s t tid
      | .exit t status => do
        let s ← threadExitWithStatus s t status
        pure (s, none)
      | .resume t => resume s t
    else pure (s, none)
  | none => pure (s, none)

/-- A step that returns either changed nothing or ran the call of a thread that could take
it. -/
theorem waitStep_eq_ok {s s' : WaitState} {c : WaitCall} {out : Option Int}
    (hs : waitStep s c = .ok (s', out)) :
    s' = s ∨ ∃ th, s.threads[c.thread]? = some th ∧ c.enabled th.pc = true ∧
      match c with
      | .execute t command => processExecute s t command = .ok (s', out)
      | .startProcess t success => startProcess s t th.pc.command success = .ok s' ∧ out = none
      | .wait t tid => processWait s t tid = .ok (s', out)
      | .exit t status => threadExitWithStatus s t status = .ok s' ∧ out = none
      | .resume t => resume s t = .ok (s', out) := by
  unfold waitStep at hs
  split at hs
  · next th hth =>
    split at hs
    · next hen =>
      refine .inr ⟨th, hth, hen, ?_⟩
      cases c with
      | startProcess t success =>
        obtain ⟨s₁, h₁, hs⟩ := Trace.bind_eq_ok hs
        simp only [Trace.pure_eq_ok, Prod.mk.injEq] at hs
        exact ⟨hs.1 ▸ h₁, hs.2.symm⟩
      | exit t status =>
        obtain ⟨s₁, h₁, hs⟩ := Trace.bind_eq_ok hs
        simp only [Trace.pure_eq_ok, Prod.mk.injEq] at hs
        exact ⟨hs.1 ▸ h₁, hs.2.symm⟩
      | _ => exact hs
    · simp only [Trace.pure_eq_ok, Prod.mk.injEq] at hs
      exact .inl hs.1.symm
  · simp only [Trace.pure_eq_ok, Prod.mk.injEq] at hs
    exact .inl hs.1.symm

/-- The initial thread, in user code with no `wait_status`, and an empty heap. -/
def waitInit : WaitState := ⟨[], [⟨none, [], .running⟩]⟩

/-! ## `find_child_ws` and `process_wait` -/

/-- `find_child_ws` answers with a live record of the list that carries `tid`, or none
when every record of the list carries another tid. -/
theorem findChildWs_eq_ok {s : WaitState} {tid : Nat} :
    ∀ {l : List Nat} {r : Option Nat}, findChildWs s tid l = .ok r →
      (∀ ws, r = some ws → ws ∈ l ∧ ∃ w, s.getWs ws = .ok w ∧ w.tid = tid) ∧
        (r = none → ∀ ws ∈ l, ∃ w, s.getWs ws = .ok w ∧ w.tid ≠ tid)
  | [], r, h => by
    simp only [findChildWs, Trace.pure_eq_ok] at h
    subst h
    exact ⟨fun _ h => (by cases h), fun _ _ h => (by cases h)⟩
  | ws :: rest, r, h => by
    obtain ⟨w, hw, h⟩ := Trace.bind_eq_ok h
    split at h
    · next htid =>
      simp only [Trace.pure_eq_ok] at h
      subst h
      refine ⟨?_, fun h => by cases h⟩
      rintro _ ⟨⟩
      exact ⟨List.mem_cons_self, w, hw, htid⟩
    · next htid =>
      obtain ⟨hsome, hnone⟩ := findChildWs_eq_ok h
      refine ⟨fun ws' h' => ?_, fun h' ws' hmem => ?_⟩
      · obtain ⟨hmem, hw'⟩ := hsome ws' h'
        exact ⟨List.mem_cons_of_mem ws hmem, hw'⟩
      · rcases List.mem_cons.mp hmem with rfl | hmem
        · exact ⟨w, hw, htid⟩
        · exact hnone h' ws' hmem

/-- `process_wait` on a tid that no record of the caller carries returns `-1` and leaves
the state as it was. -/
theorem processWait_not_child {s s' : WaitState} {t tid : Nat} {th : Thread} {r : Option Int}
    (ht : s.getThread t = .ok th)
    (hnot : ∀ ws ∈ th.children, ∃ w, s.getWs ws = .ok w ∧ w.tid ≠ tid)
    (h : processWait s t tid = .ok (s', r)) : s' = s ∧ r = some (-1) := by
  unfold processWait at h
  obtain ⟨th', ht', h⟩ := Trace.bind_eq_ok h
  rw [ht] at ht'
  cases ht'
  obtain ⟨found, hf, h⟩ := Trace.bind_eq_ok h
  cases found with
  | none =>
    simp only [Trace.pure_eq_ok, Prod.mk.injEq] at h
    exact ⟨h.1.symm, h.2.symm⟩
  | some ws =>
    -- a record found carries `tid`, which no record of the list does
    obtain ⟨hmem, w, hw, htid⟩ := (findChildWs_eq_ok hf).1 ws rfl
    obtain ⟨w', hw', htid'⟩ := hnot ws hmem
    rw [hw] at hw'
    cases hw'
    exact absurd htid htid'

/-! ## A parent that exits first -/

/-- The initial thread starts `P` (thread `1`), which starts `C` (thread `2`); both load,
and each `process_execute` returns the child's tid. `P` exits first: its own record and
`C`'s drop to one reference, and `P`'s page, with its `children` list, is freed. When `C`
exits, its record drops to zero and `destroy_wait_status` runs `list_remove` on an `elem`
whose neighbours are the head and the tail of `P`'s freed list. -/
theorem child_exit_after_parent_writes_freed_list :
    (Trace.run waitStep waitInit [.execute 0 [chr 'x'], .startProcess 1 true, .resume 0,
      .execute 1 [chr 'x'], .startProcess 2 true, .resume 1, .exit 1 0]).map Prod.snd =
        .ok [none, none, some 1, none, none, some 2, none] ∧
      Trace.errorOf (Trace.run waitStep waitInit [.execute 0 [chr 'x'], .startProcess 1 true,
        .resume 0, .execute 1 [chr 'x'], .startProcess 2 true, .resume 1, .exit 1 0, .exit 2 0]) =
        some .wildAccess := by
  decide

end Pintos.Userprog
