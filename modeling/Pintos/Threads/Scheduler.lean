import Pintos.Devices.Block
import Pintos.Lib.Trace

/-!
The scheduler of `threads/thread.c` and the semaphores of `threads/synch.c` that block and
wake its threads: `thread_init`, `thread_start`, `thread_create`, `thread_block`,
`thread_unblock`, `thread_yield`, `thread_exit`, `schedule` with `next_thread_to_run` and
`thread_schedule_tail`, the idle thread, `sema_down` and `sema_up`.

Interrupts are off inside each of these functions, so a call runs as one step until its thread
blocks or returns. A step is a call by the running thread, the rest of a `sema_down` loop that
a woken thread resumes, an interrupt handler's `sema_up` or forced `thread_yield` while
interrupts are on, or a turn of the idle thread's loop. Threads are known by their tid, the
first `allocate_tid` giving `initial_thread` tid `1`; a thread whose page
`thread_schedule_tail` has freed is `none`. `running_thread ()` is `cur`. A failed `ASSERT`
stops the kernel: `.panic`.
-/

namespace Pintos.Threads

/-- `enum thread_status`. -/
inductive ThreadStatus where
  | running
  | ready
  | blocked
  | dying
  deriving DecidableEq, Repr

/-- Where the code of a thread stands between two steps. -/
inductive SchedPc where
  /-- kernel code with interrupts on, which may call any function of the scheduler -/
  | kernel
  /-- in `thread_start`, after `intr_enable ()`, before `sema_down (&idle_started)` -/
  | starting
  /-- in the loop of `sema_down` on semaphore `k`, blocked or woken -/
  | semaDown (k : Nat)
  /-- the idle thread before `idle ()` has set `idle_thread` -/
  | idleStart
  /-- the idle thread in its `for` loop -/
  | idleLoop
  deriving DecidableEq, Repr

/-- Interrupts are on there, so that an interrupt handler may run `sema_up` or force a
`thread_yield`: everywhere but inside `sema_down`. -/
def SchedPc.interruptible : SchedPc → Bool
  | .semaDown _ => false
  | _ => true

/-- The fields of a `struct thread` the scheduler reads: `status`, and where its code
stands. -/
structure Thread where
  status : ThreadStatus
  pc : SchedPc
  deriving DecidableEq, Repr

/-- `struct semaphore`. -/
structure Semaphore where
  value : Nat
  waiters : List Nat
  deriving DecidableEq, Repr

/-- The threads by tid, `running_thread ()`, `ready_list`, `all_list`, `idle_thread` (`NULL`
as `none`), the kernel's semaphores by number and the `next_tid` of `allocate_tid`. -/
structure Sched where
  threads : Nat → Option Thread
  cur : Nat
  readyList : List Nat
  allList : List Nat
  idleThread : Option Nat
  semas : Nat → Semaphore
  nextTid : Nat

/-- `initial_thread`, by its tid. -/
def initialThread : Nat := 1

/-- The semaphore `idle_started` of `thread_start`. -/
def idleStarted : Nat := 0

namespace Sched

/-- The status of thread `t`, `none` once its page is freed. -/
def status (s : Sched) (t : Nat) : Option ThreadStatus := (s.threads t).map (·.status)

/-- Where the code of thread `t` stands. -/
def pcOf (s : Sched) (t : Nat) : Option SchedPc := (s.threads t).map (·.pc)

/-- Thread `t` with status `st`. -/
@[simps cur readyList allList idleThread semas nextTid]
def setStatus (s : Sched) (t : Nat) (st : ThreadStatus) : Sched :=
  { s with
    threads := Function.update s.threads t ((s.threads t).map fun th => { th with status := st }) }

/-- Thread `t` with its code at `pc`. -/
@[simps cur readyList allList idleThread semas nextTid]
def setPc (s : Sched) (t : Nat) (pc : SchedPc) : Sched :=
  { s with threads := Function.update s.threads t ((s.threads t).map fun th => { th with pc }) }

/-- `palloc_free_page (t)`. -/
@[simps cur readyList allList idleThread semas nextTid]
def free (s : Sched) (t : Nat) : Sched := { s with threads := Function.update s.threads t none }

@[simps threads cur readyList allList idleThread nextTid]
def setSema (s : Sched) (k : Nat) (sm : Semaphore) : Sched :=
  { s with semas := Function.update s.semas k sm }

/-- `list_push_back (&ready_list, &t->elem)`. -/
@[simps threads cur readyList allList idleThread semas nextTid]
def pushReady (s : Sched) (t : Nat) : Sched := { s with readyList := s.readyList ++ [t] }

/-- `init_thread (t, name, priority)`: a blocked thread, pushed onto `all_list`. -/
@[simps cur readyList allList idleThread semas nextTid]
def initThread (s : Sched) (t : Nat) (pc : SchedPc) : Sched :=
  { s with threads := Function.update s.threads t (some ⟨.blocked, pc⟩),
           allList := s.allList ++ [t] }

end Sched

open Sched

/-- `allocate_tid ()`. -/
def allocateTid (s : Sched) : Nat × Sched := (s.nextTid, { s with nextTid := s.nextTid + 1 })

/-- `thread_current ()`: `running_thread ()`, with its `ASSERT`s that it is a thread and
running. -/
def threadCurrent (s : Sched) : Except Fault Thread :=
  match s.threads s.cur with
  | some th => if th.status = .running then pure th else throw .panic
  | none => throw .panic

/-- `thread_unblock (t)`. -/
def threadUnblock (s : Sched) (t : Nat) : Except Fault Sched :=
  match s.threads t with
  | some th => if th.status = .blocked then pure ((s.pushReady t).setStatus t .ready)
    else throw .panic
  | none => throw .panic

/-- `next_thread_to_run ()`: the thread it returns (`NULL` as `none`), with `ready_list` after
its `list_pop_front`. -/
def nextThreadToRun (s : Sched) : Option Nat × Sched :=
  match s.readyList with
  | [] => (s.idleThread, s)
  | t :: ts => (some t, { s with readyList := ts })

/-- `thread_schedule_tail (prev)`, run by the thread `schedule` switched to: it runs, and a
dying `prev` other than `initial_thread` has its page freed. -/
def threadScheduleTail (s : Sched) (prev : Option Nat) : Except Fault Sched := do
  let s := s.setStatus s.cur .running
  match prev with
  | some p =>
    if s.status p = some .dying ∧ p ≠ initialThread then
      if p = s.cur then throw .panic else pure (s.free p)
    else pure s
  | none => pure s

/-- `schedule ()`: the running thread, whose status its caller changed, gives way to
`next_thread_to_run ()`. -/
def schedule (s : Sched) : Except Fault Sched := do
  let cur := s.cur
  let (next, s) := nextThreadToRun s
  if s.status cur = some .running then throw .panic
  match next with
  | none => throw .panic
  | some n =>
    if (s.threads n).isNone then throw .panic
    let prev := if cur ≠ n then some cur else none
    threadScheduleTail { s with cur := n } prev

/-- `thread_block ()`. -/
def threadBlock (s : Sched) : Except Fault Sched := do
  let _ ← threadCurrent s
  schedule (s.setStatus s.cur .blocked)

/-- `thread_yield ()`: the idle thread is not queued. -/
def threadYield (s : Sched) : Except Fault Sched := do
  let _ ← threadCurrent s
  let s := if s.idleThread ≠ some s.cur then s.pushReady s.cur else s
  schedule (s.setStatus s.cur .ready)

/-- `thread_exit ()` from its `intr_disable ()`: off `all_list`, dying, and `schedule`. -/
def threadExit (s : Sched) : Except Fault Sched := do
  let _ ← threadCurrent s
  let s := { s with allList := s.allList.erase s.cur }
  schedule (s.setStatus s.cur .dying)

/-- `thread_create (name, priority, function, aux)` by the running thread, with
`palloc_get_page` succeeding or not, for a thread whose code starts at `pc`: its tid, or
`none` for `TID_ERROR`. The tid is drawn before `init_thread` here, as threads are known by
it. -/
def threadCreate (s : Sched) (ok : Bool) (pc : SchedPc) : Except Fault (Sched × Option Nat) := do
  if !ok then return (s, none)
  let (tid, s) := allocateTid s
  let s := s.initThread tid pc
  let _ ← threadCurrent s
  let s ← threadUnblock s tid
  return (s, some tid)

/-- The loop of `sema_down (sema)` from its test, by the running thread: it queues and blocks
while the value is `0`, and takes one otherwise. -/
def semaDown (s : Sched) (k : Nat) : Except Fault Sched := do
  let sm := s.semas k
  if sm.value = 0 then
    let _ ← threadCurrent s
    let s := s.setSema k { sm with waiters := sm.waiters ++ [s.cur] }
    threadBlock (s.setPc s.cur (.semaDown k))
  else pure ((s.setSema k { sm with value := sm.value - 1 }).setPc s.cur .kernel)

/-- `sema_up (sema)`: the first waiter, if any, is unblocked. -/
def semaUp (s : Sched) (k : Nat) : Except Fault Sched :=
  let sm := s.semas k
  match sm.waiters with
  | [] => pure (s.setSema k { sm with value := sm.value + 1 })
  | w :: ws => do
    let s ← threadUnblock (s.setSema k { sm with waiters := ws }) w
    pure (s.setSema k { s.semas k with value := (s.semas k).value + 1 })

/-- The start of `idle ()`: `idle_thread = thread_current ()`, then
`sema_up (idle_started)`, with the idle thread's code in its loop. -/
def idleStart (s : Sched) : Except Fault Sched := do
  let _ ← threadCurrent s
  let s := { s with idleThread := some s.cur }
  semaUp (s.setPc s.cur .idleLoop) idleStarted

/-- `thread_init ()`: the running thread becomes `initial_thread`; every semaphore is as
`sema_init (sema, 0)` leaves it. -/
def threadInit : Sched :=
  let (tid, s) := allocateTid ⟨fun _ => none, initialThread, [], [], none, fun _ => ⟨0, []⟩, 1⟩
  (s.initThread tid .kernel).setStatus tid .running

/-- `thread_start ()` up to its `sema_down (&idle_started)`: `sema_init (&idle_started, 0)`,
and the idle thread created, with `palloc_get_page` succeeding or not. -/
def threadStart (s : Sched) (ok : Bool) : Except Fault Sched := do
  let s := s.setSema idleStarted ⟨0, []⟩
  let (s, _) ← threadCreate s ok .idleStart
  pure (s.setPc s.cur .starting)

/-- A step: a call of the running thread, the rest of a `sema_down` or of `thread_start`
that the running thread resumes, or a turn of the idle thread. An interrupt handler's
`sema_up` and a forced `thread_yield` are `semaUp` and `yield`. -/
inductive SchedCall where
  | create (ok : Bool)
  | semaDown (k : Nat)
  | semaUp (k : Nat)
  | yield
  | exit
  | resume
  | idleStart
  | idleBlock
  deriving DecidableEq, Repr

namespace Sched

def step (s : Sched) : SchedCall → Except Fault Sched
  | .create ok => do
    let (s, _) ← threadCreate s ok .kernel
    pure s
  | .semaDown k => Threads.semaDown s k
  | .semaUp k => Threads.semaUp s k
  | .yield => threadYield s
  | .exit => threadExit s
  | .resume =>
    match s.pcOf s.cur with
    | some .starting => Threads.semaDown s idleStarted
    | some (.semaDown k) => Threads.semaDown s k
    | _ => pure s
  | .idleStart => Threads.idleStart s
  | .idleBlock => threadBlock s

/-- Which steps the running thread's code allows: kernel code may call anything, on the
semaphores other than `idle_started`; a thread in `sema_down` or in `thread_start` goes on
with it; an interrupt handler runs where interrupts are on; the idle thread runs its own
code. -/
def enabled (s : Sched) : SchedCall → Bool
  | .create _ | .exit => s.pcOf s.cur == some .kernel
  | .semaDown k => s.pcOf s.cur == some .kernel && k != idleStarted
  | .semaUp k => (s.pcOf s.cur).any SchedPc.interruptible && k != idleStarted
  | .yield => (s.pcOf s.cur).any SchedPc.interruptible
  | .resume => match s.pcOf s.cur with
    | some .starting | some (.semaDown _) => true
    | _ => false
  | .idleStart => s.pcOf s.cur == some .idleStart
  | .idleBlock => s.pcOf s.cur == some .idleLoop

/-- The steps that run without a failed `ASSERT`. -/
def next (s : Sched) (a : SchedCall) : Option Sched :=
  if s.enabled a then (s.step a).toOption else none

end Sched

end Pintos.Threads

namespace Pintos.Threads.Sched

/-! ## What each update does to a thread -/

section Api

variable (s : Sched) (t u : Nat)

/-- A state built from `s` with its threads kept has their statuses. -/
@[simp] theorem status_mk (c : Nat) (r a : List Nat) (i : Option Nat) (sm : Nat → Semaphore)
    (n : Nat) : (Sched.mk s.threads c r a i sm n).status u = s.status u := rfl

@[simp] theorem pcOf_mk (c : Nat) (r a : List Nat) (i : Option Nat) (sm : Nat → Semaphore)
    (n : Nat) : (Sched.mk s.threads c r a i sm n).pcOf u = s.pcOf u := rfl

@[simp] theorem status_setStatus (st : ThreadStatus) :
    (s.setStatus t st).status u = if u = t then (s.status t).map fun _ => st else s.status u := by
  by_cases h : u = t
  · subst h
    simp [status, setStatus, Option.map_map, Function.comp_def]
  · simp [status, setStatus, h]

@[simp] theorem pcOf_setStatus (st : ThreadStatus) : (s.setStatus t st).pcOf u = s.pcOf u := by
  by_cases h : u = t
  · subst h
    simp [pcOf, setStatus, Option.map_map, Function.comp_def]
  · simp [pcOf, setStatus, h]

@[simp] theorem status_setPc (pc : SchedPc) : (s.setPc t pc).status u = s.status u := by
  by_cases h : u = t
  · subst h
    simp [status, setPc, Option.map_map, Function.comp_def]
  · simp [status, setPc, h]

@[simp] theorem pcOf_setPc (pc : SchedPc) :
    (s.setPc t pc).pcOf u = if u = t then (s.pcOf t).map fun _ => pc else s.pcOf u := by
  by_cases h : u = t
  · subst h
    simp [pcOf, setPc, Option.map_map, Function.comp_def]
  · simp [pcOf, setPc, h]

@[simp] theorem status_free : (s.free t).status u = if u = t then none else s.status u := by
  by_cases h : u = t <;> simp [status, free, h]

@[simp] theorem pcOf_free : (s.free t).pcOf u = if u = t then none else s.pcOf u := by
  by_cases h : u = t <;> simp [pcOf, free, h]

@[simp] theorem status_initThread (pc : SchedPc) :
    (s.initThread t pc).status u = if u = t then some .blocked else s.status u := by
  by_cases h : u = t <;> simp [status, initThread, h]

@[simp] theorem pcOf_initThread (pc : SchedPc) :
    (s.initThread t pc).pcOf u = if u = t then some pc else s.pcOf u := by
  by_cases h : u = t <;> simp [pcOf, initThread, h]

@[simp] theorem status_setSema (k : Nat) (sm : Semaphore) : (s.setSema k sm).status u = s.status u :=
  rfl

@[simp] theorem pcOf_setSema (k : Nat) (sm : Semaphore) : (s.setSema k sm).pcOf u = s.pcOf u :=
  rfl

@[simp] theorem status_pushReady : (s.pushReady t).status u = s.status u := rfl

@[simp] theorem pcOf_pushReady : (s.pushReady t).pcOf u = s.pcOf u := rfl

@[simp] theorem semas_setSema (k k' : Nat) (sm : Semaphore) :
    (s.setSema k sm).semas k' = if k' = k then sm else s.semas k' := by
  simp [setSema, Function.update_apply]

theorem status_eq_none : s.status t = none ↔ s.threads t = none := by
  simp [status]

theorem pcOf_eq_none : s.pcOf t = none ↔ s.status t = none := by
  simp [status, pcOf]

end Api

/-! ## The invariant -/

/-- What the invariant asks of one thread `t`: the lists hold it as its status and its code
say, and the idle thread is the one `idle_thread` names. -/
structure Placed (s : Sched) (t : Nat) : Prop where
  ready : t ∈ s.readyList ↔ s.status t = some .ready ∧ s.idleThread ≠ some t
  all : t ∈ s.allList ↔ s.status t ≠ none ∧ s.status t ≠ some .dying
  waiters : ∀ k, t ∈ (s.semas k).waiters ↔
    s.status t = some .blocked ∧ s.pcOf t = some (.semaDown k)
  blocked : s.status t = some .blocked →
    (∃ k, s.pcOf t = some (.semaDown k)) ∨ s.idleThread = some t
  dying : s.status t = some .dying → s.pcOf t = some .kernel
  idleLoop : s.pcOf t = some .idleLoop ↔ s.idleThread = some t
  idleStart : s.pcOf t = some .idleStart → s.idleThread = none

/-- The part of the invariant that also holds inside `schedule`: every thread placed, no list
holding a thread twice, and no thread at a tid not yet drawn. -/
structure Queues (s : Sched) : Prop where
  placed : ∀ t, s.Placed t
  ready_nodup : s.readyList.Nodup
  all_nodup : s.allList.Nodup
  waiters_nodup : ∀ k, (s.semas k).waiters.Nodup
  fresh : ∀ t, s.nextTid ≤ t → s.status t = none

/-- The scheduler's invariant between two steps: the running thread is `running_thread ()`,
only `initial_thread` stays dying, and until `idle ()` has set `idle_thread` its thread is
ready to run or running. -/
structure Inv (s : Sched) : Prop extends Queues s where
  running : ∀ t, s.status t = some .running ↔ t = s.cur
  dying : ∀ t, s.status t = some .dying → t = initialThread
  idle : s.idleThread = none →
    ∃ i, (∀ u, s.pcOf u = some .idleStart ↔ u = i) ∧ (i ∈ s.readyList ∨ i = s.cur)

/-- The invariant when `schedule` is called: the running thread has given up its status, and
before `idle_thread` is set the idle thread is on `ready_list`. -/
structure PreInv (s : Sched) : Prop extends Queues s where
  cur : s.status s.cur ≠ none
  running : ∀ t, s.status t ≠ some .running
  dying : ∀ t, s.status t = some .dying → t = initialThread ∨ t = s.cur
  idle : s.idleThread = none →
    ∃ i, (∀ u, s.pcOf u = some .idleStart ↔ u = i) ∧ i ∈ s.readyList

section Frame

variable {s s' : Sched} {t : Nat}

/-- A thread whose entry, lists and the idle thread an update leaves as they are stays
placed. -/
theorem Placed.frame (h : s.Placed t) (hs : s'.status t = s.status t) (hp : s'.pcOf t = s.pcOf t)
    (hr : t ∈ s'.readyList ↔ t ∈ s.readyList) (ha : t ∈ s'.allList ↔ t ∈ s.allList)
    (hw : ∀ k, t ∈ (s'.semas k).waiters ↔ t ∈ (s.semas k).waiters)
    (hi : s'.idleThread = s.idleThread) : s'.Placed t where
  ready := by rw [hr, h.ready, hs, hi]
  all := by rw [ha, h.all, hs]
  waiters k := by rw [hw, h.waiters, hs, hp]
  blocked := by rw [hs, hp, hi]; exact h.blocked
  dying := by rw [hs, hp]; exact h.dying
  idleLoop := by rw [hp, hi]; exact h.idleLoop
  idleStart := by rw [hp, hi]; exact h.idleStart

/-- A placed thread with a status is on no list but the ones its status puts it on; in
particular the running thread is on none. -/
theorem Placed.not_mem_ready (h : s.Placed t) (hs : s.status t ≠ some .ready) :
    t ∉ s.readyList := fun hm => hs (h.ready.1 hm).1

theorem Placed.not_mem_waiters (h : s.Placed t) (hs : s.status t ≠ some .blocked) (k : Nat) :
    t ∉ (s.semas k).waiters := fun hm => hs ((h.waiters k).1 hm).1

/-- The idle thread's code is in its loop, so it is never dying, nor waiting on a
semaphore. -/
theorem Placed.idle_pc (h : s.Placed t) (hi : s.idleThread = some t) :
    s.pcOf t = some .idleLoop := h.idleLoop.2 hi

theorem Queues.lt_nextTid (h : s.Queues) (ht : s.status t ≠ none) : t < s.nextTid := by
  by_contra hlt
  exact ht (h.fresh t (Nat.le_of_not_lt hlt))

end Frame

/-! ## What each function does -/

section Spec

variable {s m : Sched} {t n : Nat}

theorem threadCurrent_ok (h : s.status s.cur = some .running) : ∃ th, threadCurrent s = .ok th := by
  unfold threadCurrent
  cases hth : s.threads s.cur with
  | none => simp [status, hth] at h
  | some th =>
    simp only [status, hth, Option.map_some, Option.some.injEq] at h
    exact ⟨th, by simp [h]⟩

theorem threadUnblock_eq (h : s.status t = some .blocked) :
    threadUnblock s t = .ok ((s.pushReady t).setStatus t .ready) := by
  unfold threadUnblock
  cases hth : s.threads t with
  | none => simp [status, hth] at h
  | some th =>
    simp only [status, hth, Option.map_some, Option.some.injEq] at h
    simp [h]

theorem nextThreadToRun_nil (h : s.readyList = []) : nextThreadToRun s = (s.idleThread, s) := by
  simp [nextThreadToRun, h]

theorem nextThreadToRun_cons {ts : List Nat} (h : s.readyList = t :: ts) :
    nextThreadToRun s = (some t, { s with readyList := ts }) := by
  simp [nextThreadToRun, h]

/-- `thread_schedule_tail` frees the thread `schedule` switched from when it is dying and not
`initial_thread`. -/
def Freed (m : Sched) (c n : Nat) : Prop := c ≠ n ∧ m.status c = some .dying ∧ c ≠ initialThread

instance (m : Sched) (c n : Nat) : Decidable (Freed m c n) :=
  inferInstanceAs (Decidable (_ ∧ _ ∧ _))

/-- The state `schedule` leaves when it switches from `c` to `n`, `m` being what
`next_thread_to_run` left. -/
def switchTo (m : Sched) (c n : Nat) : Sched :=
  let m' := ({ m with cur := n } : Sched).setStatus n .running
  if Freed m c n then m'.free c else m'

theorem threadScheduleTail_eq (m : Sched) (c n : Nat) :
    threadScheduleTail { m with cur := n } (if c ≠ n then some c else none) =
      .ok (switchTo m c n) := by
  by_cases hcn : c = n
  · simp [threadScheduleTail, switchTo, Freed, hcn]
  · by_cases hf : Freed m c n
    · have hd : m.status c = some .dying ∧ c ≠ initialThread := hf.2
      simp [threadScheduleTail, switchTo, hf, hcn, hd]
    · have hd : ¬ (m.status c = some .dying ∧ c ≠ initialThread) := fun hd => hf ⟨hcn, hd⟩
      simp only [threadScheduleTail, switchTo, hf]
      simp [hcn, hd]

theorem schedule_eq (h : nextThreadToRun s = (some n, m)) (hm : m.threads = s.threads)
    (hc : s.status s.cur ≠ some .running) (hn : s.status n ≠ none) :
    schedule s = .ok (switchTo m s.cur n) := by
  have hs : m.status = s.status := by
    funext u
    simp [status, hm]
  have hth : m.threads n ≠ none := by
    rw [hm]
    exact fun h => hn ((status_eq_none s n).2 h)
  simp only [schedule, h, hs, hc, if_false]
  simp only [Option.isNone_iff_eq_none, hth, if_false]
  exact threadScheduleTail_eq m s.cur n

end Spec

/-! ## `schedule` restores the invariant -/

section Switch

variable {s m : Sched} {c n u : Nat}

@[simp] theorem switchTo_cur : (switchTo m c n).cur = n := by
  unfold switchTo; split <;> rfl

@[simp] theorem switchTo_readyList : (switchTo m c n).readyList = m.readyList := by
  unfold switchTo; split <;> rfl

@[simp] theorem switchTo_allList : (switchTo m c n).allList = m.allList := by
  unfold switchTo; split <;> rfl

@[simp] theorem switchTo_idleThread : (switchTo m c n).idleThread = m.idleThread := by
  unfold switchTo; split <;> rfl

@[simp] theorem switchTo_semas : (switchTo m c n).semas = m.semas := by
  unfold switchTo; split <;> rfl

@[simp] theorem switchTo_nextTid : (switchTo m c n).nextTid = m.nextTid := by
  unfold switchTo; split <;> rfl

theorem status_switchTo (hn : m.status n ≠ none) :
    (switchTo m c n).status u =
      if u = n then some .running else if u = c ∧ Freed m c n then none else m.status u := by
  obtain ⟨x, hx⟩ := Option.ne_none_iff_exists'.mp hn
  unfold switchTo
  by_cases hf : Freed m c n
  · have hcn : c ≠ n := hf.1
    by_cases hu : u = n
    · simp [hf, hu, hx, hcn.symm]
    · simp [hf, hu]
  · by_cases hu : u = n <;> simp [hf, hu, hx]

theorem pcOf_switchTo :
    (switchTo m c n).pcOf u = if u = c ∧ Freed m c n then none else m.pcOf u := by
  unfold switchTo
  by_cases hf : Freed m c n <;> simp [hf]

/-- Every thread stays placed when `schedule` switches to `n`, a thread that is on no
semaphore's list and not dying. -/
theorem switchTo_placed (h : s.PreInv) (hm : m = { s with readyList := s.readyList.erase n })
    (hn : s.status n ≠ none) (hnd : s.status n ≠ some .dying)
    (hnw : ∀ k, n ∉ (s.semas k).waiters) (u : Nat) : (switchTo m s.cur n).Placed u := by
  subst hm
  have hP := h.placed u
  have hs := status_switchTo (m := { s with readyList := s.readyList.erase n }) (c := s.cur) (u := u) hn
  have hp := pcOf_switchTo (m := { s with readyList := s.readyList.erase n }) (c := s.cur)
    (n := n) (u := u)
  simp only [status_mk, pcOf_mk] at hs hp
  by_cases hun : u = n
  · -- the thread switched to runs, and it was on no list but `ready_list`
    subst hun
    have hnc : ¬ (u = s.cur ∧ Freed { s with readyList := s.readyList.erase u } s.cur u) :=
      fun hc => hc.2.1 hc.1.symm
    simp only [↓reduceIte] at hs
    simp only [hnc, if_false] at hp
    constructor
    · simp [hs, h.ready_nodup.not_mem_erase]
    · simp [hs, hP.all, hn, hnd]
    · intro k
      simp [hs, hnw k]
    · simp [hs]
    · simp [hs]
    · rw [hp, switchTo_idleThread]; exact hP.idleLoop
    · rw [hp, switchTo_idleThread]; exact hP.idleStart
  · simp only [hun, if_false] at hs
    by_cases hf : u = s.cur ∧ Freed { s with readyList := s.readyList.erase n } s.cur n
    · -- the dying thread switched from has its page freed: it was on no list
      rw [if_pos hf] at hs hp
      have hd : s.status u = some .dying := by simpa [hf.1] using hf.2.2.1
      have hk := hP.dying hd
      constructor
      · simp [hs, List.mem_erase_of_ne hun, hP.not_mem_ready (by simp [hd])]
      · simp [hs, hP.all, hd]
      · intro k
        simp [hs, hP.not_mem_waiters (by simp [hd])]
      · simp [hs]
      · simp [hs]
      · simp only [hp, switchTo_idleThread, reduceCtorEq, false_iff]
        intro hi
        simp [hP.idle_pc hi] at hk
      · simp [hp]
    · simp only [hf, if_false] at hs hp
      exact hP.frame hs hp (by simp [List.mem_erase_of_ne hun]) (by simp) (by simp) (by simp)

/-- The state `schedule` leaves when it switches to `n` keeps the invariant. -/
theorem switchTo_inv (h : s.PreInv) (hm : m = { s with readyList := s.readyList.erase n })
    (hn : s.status n ≠ none) (hnd : s.status n ≠ some .dying)
    (hnw : ∀ k, n ∉ (s.semas k).waiters) : (switchTo m s.cur n).Inv := by
  have hP := switchTo_placed h hm hn hnd hnw
  subst hm
  have hs := fun u => status_switchTo (m := { s with readyList := s.readyList.erase n })
    (c := s.cur) (u := u) hn
  have hp := fun u => pcOf_switchTo (m := { s with readyList := s.readyList.erase n })
    (c := s.cur) (n := n) (u := u)
  simp only [status_mk, pcOf_mk] at hs hp
  refine { placed := hP, ready_nodup := ?_, all_nodup := ?_, waiters_nodup := ?_, fresh := ?_,
           running := ?_, dying := ?_, idle := ?_ }
  · simpa using h.ready_nodup.erase n
  · simpa using h.all_nodup
  · simpa using h.waiters_nodup
  · intro t ht
    simp only [switchTo_nextTid] at ht
    have htn : t ≠ n := by
      rintro rfl
      exact absurd (h.lt_nextTid hn) (Nat.not_lt.2 ht)
    rw [hs, if_neg htn]
    split_ifs
    · rfl
    · exact h.fresh t ht
  · intro t
    by_cases htn : t = n
    · simp [hs, htn]
    · rw [hs, if_neg htn]
      split_ifs <;> simp [htn, h.running t]
  · intro t ht
    by_cases htn : t = n
    · simp [hs, htn] at ht
    · rw [hs, if_neg htn] at ht
      split_ifs at ht with hf
      rcases h.dying t ht with hi | hc
      · exact hi
      · -- a dying thread switched from that is not freed is `initial_thread`
        by_contra hni
        exact hf ⟨hc, hc ▸ htn, by simpa [hc] using ht, hc ▸ hni⟩
  · intro hid
    obtain ⟨i, hu, hi⟩ := h.idle (by simpa using hid)
    refine ⟨i, fun u => ?_, ?_⟩
    · rw [hp u]
      split_ifs with hf
      · -- the freed thread was dying, its code in the kernel, so it is not the idle thread
        have hk := (h.placed u).dying (by simpa [hf.1] using hf.2.2.1)
        constructor
        · intro hc
          simp at hc
        · intro hui
          rw [(hu u).2 hui] at hk
          simp at hk
      · exact hu u
    · by_cases hin : i = n
      · right
        simp [hin]
      · left
        simp [List.mem_erase_of_ne hin, hi]

/-- `schedule`, called with the invariant of its callers, switches to a thread without a failed
`ASSERT` and leaves the invariant between steps. -/
theorem schedule_inv (h : s.PreInv) : ∃ s', schedule s = .ok s' ∧ s'.Inv := by
  cases hr : s.readyList with
  | nil =>
    -- `ready_list` is empty: `idle_thread` is set, and the idle thread runs
    obtain ⟨i, hi⟩ : ∃ i, s.idleThread = some i := by
      cases hid : s.idleThread with
      | none =>
        obtain ⟨j, -, hj⟩ := h.idle hid
        simp [hr] at hj
      | some i => exact ⟨i, rfl⟩
    have hpc := (h.placed i).idle_pc hi
    have hn : s.status i ≠ none := by
      intro hc
      rw [← pcOf_eq_none, hpc] at hc
      simp at hc
    have hnd : s.status i ≠ some .dying := fun hd => by simp [(h.placed i).dying hd] at hpc
    have hnw : ∀ k, i ∉ (s.semas k).waiters := fun k hw => by
      simp [(((h.placed i).waiters k).1 hw).2] at hpc
    have hm : s = { s with readyList := s.readyList.erase i } := by
      have he : s.readyList.erase i = s.readyList := by rw [hr]; rfl
      rw [he]
    exact ⟨_, schedule_eq (by rw [nextThreadToRun_nil hr, hi]) rfl (h.running _) hn,
      switchTo_inv h hm hn hnd hnw⟩
  | cons n ts =>
    -- the head of `ready_list` runs
    have hready := ((h.placed n).ready.1 (by simp [hr])).1
    have hn : s.status n ≠ none := by simp [hready]
    have hnd : s.status n ≠ some .dying := by simp [hready]
    have hnw : ∀ k, n ∉ (s.semas k).waiters := (h.placed n).not_mem_waiters (by simp [hready])
    exact ⟨_, schedule_eq (nextThreadToRun_cons hr) rfl (h.running _) hn,
      switchTo_inv h (by simp [hr]) hn hnd hnw⟩

end Switch

/-! ## The calls that give up the processor -/

section Give

variable {s : Sched}

theorem nodup_push {l : List Nat} {a : Nat} (h : l.Nodup) (ha : a ∉ l) : (l ++ [a]).Nodup := by
  simp only [List.nodup_append, h, List.nodup_cons, List.not_mem_nil, not_false_eq_true,
    List.nodup_nil, and_self, List.mem_singleton, true_and]
  intro b hb c hc hbc
  subst hc hbc
  exact ha hb

theorem threadCurrent_seq {α : Type} (h : s.status s.cur = some .running) (x : Except Fault α) :
    (threadCurrent s >>= fun _ => x) = x := by
  obtain ⟨th, hth⟩ := threadCurrent_ok h
  rw [hth]
  rfl

theorem Inv.cur_running (h : s.Inv) : s.status s.cur = some .running := (h.running s.cur).2 rfl

/-- The running thread is on no list but `all_list`. -/
theorem Inv.cur_not_mem_ready (h : s.Inv) : s.cur ∉ s.readyList :=
  (h.placed s.cur).not_mem_ready (by simp [h.cur_running])

theorem Inv.cur_not_mem_waiters (h : s.Inv) (k : Nat) : s.cur ∉ (s.semas k).waiters :=
  (h.placed s.cur).not_mem_waiters (by simp [h.cur_running]) k

theorem Inv.cur_mem_all (h : s.Inv) : s.cur ∈ s.allList :=
  (h.placed s.cur).all.2 (by simp [h.cur_running])

theorem Inv.ne_cur_of_fresh (h : s.Inv) {t : Nat} (ht : s.nextTid ≤ t) : t ≠ s.cur := by
  rintro rfl
  have hc := h.cur_running
  simp [h.fresh _ ht] at hc

theorem Inv.not_running (h : s.Inv) {u : Nat} (hu : u ≠ s.cur) : s.status u ≠ some .running :=
  fun hr => hu ((h.running u).1 hr)

/-- `thread_yield ()`: the running thread is queued unless it is the idle thread. -/
theorem threadYield_preInv (h : s.Inv) :
    ((if s.idleThread ≠ some s.cur then s.pushReady s.cur else s).setStatus s.cur .ready).PreInv := by
  have hc := h.cur_running
  have hy : (if s.idleThread ≠ some s.cur then s.pushReady s.cur else s) =
      { s with readyList :=
          if s.idleThread = some s.cur then s.readyList else s.readyList ++ [s.cur] } := by
    by_cases hi : s.idleThread = some s.cur
    · rw [if_neg (not_not.2 hi), if_pos hi]
    · rw [if_pos hi, if_neg hi]
      rfl
  -- `ready_list` after the push: the running thread joins it unless it is the idle thread
  have hr : ∀ u, u ∈ (if s.idleThread = some s.cur then s.readyList else s.readyList ++ [s.cur]) ↔
      u ∈ s.readyList ∨ (u = s.cur ∧ s.idleThread ≠ some s.cur) := by
    intro u
    split <;> simp [*]
  rw [hy]
  refine { placed := fun u => ?_, ready_nodup := ?_, all_nodup := ?_, waiters_nodup := ?_,
           fresh := ?_, cur := ?_, running := ?_, dying := ?_, idle := ?_ }
  · have hP := h.placed u
    by_cases hu : u = s.cur
    · subst hu
      constructor
      · simp [hr, hc, h.cur_not_mem_ready]
      · simp [hc, h.cur_mem_all]
      · intro k
        simp [h.cur_not_mem_waiters k, hc]
      · simp [hc]
      · simp [hc]
      · simpa using hP.idleLoop
      · simpa using hP.idleStart
    · exact hP.frame (by simp [hu]) (by simp) (by simp [hr, hu]) (by simp) (by simp) (by simp)
  · simp only [setStatus_readyList]
    split
    · exact h.ready_nodup
    · exact nodup_push h.ready_nodup h.cur_not_mem_ready
  · simpa using h.all_nodup
  · simpa using h.waiters_nodup
  · intro t ht
    simp only [setStatus_nextTid] at ht
    simp [h.fresh t ht, h.ne_cur_of_fresh ht]
  · simp [hc]
  · intro t
    by_cases ht : t = s.cur
    · simp [ht, hc]
    · simpa [ht] using h.not_running ht
  · intro t ht
    exact .inl (h.dying t (by by_cases hu : t = s.cur <;> simp_all))
  · intro hid
    replace hid : s.idleThread = none := by simpa using hid
    obtain ⟨i, hu, hi⟩ := h.idle hid
    refine ⟨i, fun u => by simpa using hu u, ?_⟩
    simp only [setStatus_readyList, hr]
    rcases hi with hi | rfl
    · exact .inl hi
    · exact .inr ⟨rfl, by simp [hid]⟩

theorem threadYield_inv (h : s.Inv) : ∃ s', threadYield s = .ok s' ∧ s'.Inv := by
  have hcur : (if s.idleThread ≠ some s.cur then s.pushReady s.cur else s).cur = s.cur := by
    split <;> rfl
  rw [threadYield, threadCurrent_seq h.cur_running]
  simp only [hcur]
  exact schedule_inv (threadYield_preInv h)

/-- `thread_exit ()` by kernel code: the running thread leaves `all_list` and dies. -/
theorem threadExit_preInv (h : s.Inv) (hpc : s.pcOf s.cur = some .kernel) :
    ({ s with allList := s.allList.erase s.cur }.setStatus s.cur .dying).PreInv := by
  have hc := h.cur_running
  have hi : s.idleThread ≠ some s.cur := fun hi => by simp [(h.placed s.cur).idle_pc hi] at hpc
  refine { placed := fun u => ?_, ready_nodup := ?_, all_nodup := ?_, waiters_nodup := ?_,
           fresh := ?_, cur := ?_, running := ?_, dying := ?_, idle := ?_ }
  · have hP := h.placed u
    by_cases hu : u = s.cur
    · subst hu
      constructor
      · simp [hc, h.cur_not_mem_ready]
      · simp [hc, h.all_nodup.not_mem_erase]
      · intro k
        simp [h.cur_not_mem_waiters k, hc]
      · simp [hc]
      · simpa [hc] using hpc
      · simp [hpc, hi]
      · simp [hpc]
    · exact hP.frame (by simp [hu]) (by simp) (by simp) (by simp [List.mem_erase_of_ne hu])
        (by simp) (by simp)
  · simpa using h.ready_nodup
  · simpa using h.all_nodup.erase s.cur
  · simpa using h.waiters_nodup
  · intro t ht
    simp only [setStatus_nextTid] at ht
    simp [h.fresh t ht, h.ne_cur_of_fresh ht]
  · simp [hc]
  · intro t
    by_cases ht : t = s.cur
    · simp [ht, hc]
    · simpa [ht] using h.not_running ht
  · intro t ht
    by_cases hu : t = s.cur
    · exact .inr hu
    · exact .inl (h.dying t (by simpa [hu] using ht))
  · intro hid
    replace hid : s.idleThread = none := by simpa using hid
    obtain ⟨i, hu, hi⟩ := h.idle hid
    refine ⟨i, fun u => by simpa using hu u, ?_⟩
    rcases hi with hi | rfl
    · simpa using hi
    · simp [(hu s.cur).2 rfl] at hpc

theorem threadExit_inv (h : s.Inv) (hpc : s.pcOf s.cur = some .kernel) :
    ∃ s', threadExit s = .ok s' ∧ s'.Inv := by
  rw [threadExit, threadCurrent_seq h.cur_running]
  exact schedule_inv (threadExit_preInv h hpc)

/-- The idle thread blocks: `thread_block ()` in its loop. -/
theorem idleBlock_preInv (h : s.Inv) (hi : s.idleThread = some s.cur) :
    (s.setStatus s.cur .blocked).PreInv := by
  have hc := h.cur_running
  have hpc := (h.placed s.cur).idle_pc hi
  refine { placed := fun u => ?_, ready_nodup := ?_, all_nodup := ?_, waiters_nodup := ?_,
           fresh := ?_, cur := ?_, running := ?_, dying := ?_, idle := ?_ }
  · have hP := h.placed u
    by_cases hu : u = s.cur
    · subst hu
      constructor
      · simp [hc, h.cur_not_mem_ready]
      · simp [hc, h.cur_mem_all]
      · intro k
        simp [h.cur_not_mem_waiters k, hpc]
      · simp [hi]
      · simp [hc]
      · simp [hpc, hi]
      · simp [hpc]
    · exact hP.frame (by simp [hu]) (by simp) (by simp) (by simp) (by simp) (by simp)
  · simpa using h.ready_nodup
  · simpa using h.all_nodup
  · simpa using h.waiters_nodup
  · intro t ht
    simp only [setStatus_nextTid] at ht
    simp [h.fresh t ht, h.ne_cur_of_fresh ht]
  · simp [hc]
  · intro t
    by_cases ht : t = s.cur
    · simp [ht, hc]
    · simpa [ht] using h.not_running ht
  · intro t ht
    exact .inl (h.dying t (by by_cases hu : t = s.cur <;> simp_all))
  · intro hid
    simp [hi] at hid

/-- `sema_down (sema)` that finds the value `0`: the running thread joins the waiters and
blocks. Its code is not the idle thread's. -/
theorem semaBlock_preInv (h : s.Inv) (k : Nat) (hpc : s.pcOf s.cur ≠ some .idleLoop)
    (hps : s.pcOf s.cur ≠ some .idleStart) :
    (((s.setSema k { s.semas k with waiters := (s.semas k).waiters ++ [s.cur] }).setPc s.cur
      (.semaDown k)).setStatus s.cur .blocked).PreInv := by
  have hc := h.cur_running
  have hi : s.idleThread ≠ some s.cur := fun hi => hpc ((h.placed s.cur).idle_pc hi)
  obtain ⟨p, hp⟩ : ∃ p, s.pcOf s.cur = some p :=
    Option.ne_none_iff_exists'.mp (by simp [pcOf_eq_none, hc])
  refine { placed := fun u => ?_, ready_nodup := ?_, all_nodup := ?_, waiters_nodup := ?_,
           fresh := ?_, cur := ?_, running := ?_, dying := ?_, idle := ?_ }
  · have hP := h.placed u
    by_cases hu : u = s.cur
    · subst hu
      constructor
      · simp [hc, h.cur_not_mem_ready]
      · simp [hc, h.cur_mem_all]
      · intro k'
        by_cases hk : k' = k
        · subst hk
          simp [hc, hp]
        · simp [hk, h.cur_not_mem_waiters k', Ne.symm hk]
      · simp [hp]
      · simp [hc]
      · simp [hi]
      · simp
    · exact hP.frame (by simp [hu]) (by simp [hu]) (by simp) (by simp)
        (fun k' => by by_cases hk : k' = k <;> simp [hk, hu]) (by simp)
  · simpa using h.ready_nodup
  · simpa using h.all_nodup
  · intro k'
    by_cases hk : k' = k
    · subst hk
      simpa using nodup_push (h.waiters_nodup k') (h.cur_not_mem_waiters k')
    · simpa [hk] using h.waiters_nodup k'
  · intro t ht
    simp only [setStatus_nextTid] at ht
    simp [h.fresh t ht, h.ne_cur_of_fresh ht]
  · simp [hc]
  · intro t
    by_cases ht : t = s.cur
    · simp [ht, hc]
    · simpa [ht] using h.not_running ht
  · intro t ht
    exact .inl (h.dying t (by by_cases hu : t = s.cur <;> simp_all))
  · intro hid
    replace hid : s.idleThread = none := by simpa using hid
    obtain ⟨i, hu, hi⟩ := h.idle hid
    have hic : i ≠ s.cur := by
      rintro rfl
      exact hps ((hu _).2 rfl)
    refine ⟨i, fun u => ?_, by simpa [hic] using hi⟩
    by_cases huc : u = s.cur
    · subst huc
      simpa using fun e => hic e.symm
    · simpa [huc] using hu u

theorem threadBlock_seq (h : s.status s.cur = some .running) :
    threadBlock s = schedule (s.setStatus s.cur .blocked) := by
  rw [threadBlock, threadCurrent_seq h]

end Give

/-! ## The calls that keep the processor -/

section Keep

variable {s : Sched}

/-- `sema_down (sema)` that finds a positive value takes one and returns to kernel code. -/
theorem semaTake_inv (h : s.Inv) (k : Nat) (hpc : s.pcOf s.cur ≠ some .idleLoop)
    (hps : s.pcOf s.cur ≠ some .idleStart) :
    ((s.setSema k { s.semas k with value := (s.semas k).value - 1 }).setPc s.cur .kernel).Inv := by
  have hc := h.cur_running
  have hi : s.idleThread ≠ some s.cur := fun hi => hpc ((h.placed s.cur).idle_pc hi)
  obtain ⟨p, hp⟩ : ∃ p, s.pcOf s.cur = some p :=
    Option.ne_none_iff_exists'.mp (by simp [pcOf_eq_none, hc])
  refine { placed := fun u => ?_, ready_nodup := ?_, all_nodup := ?_, waiters_nodup := ?_,
           fresh := ?_, running := ?_, dying := ?_, idle := ?_ }
  · have hP := h.placed u
    by_cases hu : u = s.cur
    · subst hu
      constructor
      · simp [hc, h.cur_not_mem_ready]
      · simp [hc, h.cur_mem_all]
      · intro k'
        by_cases hk : k' = k <;> simp [hk, hc, h.cur_not_mem_waiters]
      · simp [hc]
      · simp [hc]
      · simp [hp, hi]
      · simp [hp]
    · exact hP.frame (by simp) (by simp [hu]) (by simp) (by simp)
        (fun k' => by by_cases hk : k' = k <;> simp [hk]) (by simp)
  · simpa using h.ready_nodup
  · simpa using h.all_nodup
  · intro k'
    by_cases hk : k' = k
    · subst hk
      simpa using h.waiters_nodup k'
    · simpa [hk] using h.waiters_nodup k'
  · intro t ht
    simpa using h.fresh t (by simpa using ht)
  · intro t
    simpa using h.running t
  · intro t ht
    exact h.dying t (by simpa using ht)
  · intro hid
    replace hid : s.idleThread = none := by simpa using hid
    obtain ⟨i, hu, hi'⟩ := h.idle hid
    have hic : i ≠ s.cur := by
      rintro rfl
      exact hps ((hu _).2 rfl)
    refine ⟨i, fun u => ?_, by simpa using hi'⟩
    by_cases huc : u = s.cur
    · subst huc
      simpa [hp] using fun e => hic e.symm
    · simpa [huc] using hu u

theorem semaDown_inv (h : s.Inv) (k : Nat) (hpc : s.pcOf s.cur ≠ some .idleLoop)
    (hps : s.pcOf s.cur ≠ some .idleStart) : ∃ s', semaDown s k = .ok s' ∧ s'.Inv := by
  by_cases hv : (s.semas k).value = 0
  · -- the value is `0`: queue and block
    have hb := semaBlock_preInv h k hpc hps
    rw [semaDown, if_pos hv, threadCurrent_seq h.cur_running,
      threadBlock_seq (by simpa using h.cur_running)]
    exact schedule_inv (by simpa using hb)
  · exact ⟨_, by simp [semaDown, hv], semaTake_inv h k hpc hps⟩

theorem semaUp_cons_eq {k w : Nat} {ws : List Nat} (hw : (s.semas k).waiters = w :: ws)
    (hb : s.status w = some .blocked) :
    semaUp s k = .ok ((((s.setSema k { s.semas k with waiters := ws }).pushReady w).setStatus w
      .ready).setSema k ⟨(s.semas k).value + 1, ws⟩) := by
  simp [semaUp, hw, threadUnblock_eq (s := s.setSema k _) (by simpa using hb)]

/-- `sema_up (sema)`: the first waiter, blocked in `sema_down`, becomes ready. -/
theorem semaUp_inv (h : s.Inv) (k : Nat) : ∃ s', semaUp s k = .ok s' ∧ s'.Inv := by
  cases hw : (s.semas k).waiters with
  | nil =>
    refine ⟨s.setSema k { s.semas k with value := (s.semas k).value + 1 }, by simp [semaUp, hw], ?_⟩
    refine { placed := fun u => ?_, ready_nodup := ?_, all_nodup := ?_, waiters_nodup := ?_,
             fresh := ?_, running := ?_, dying := ?_, idle := ?_ }
    · exact (h.placed u).frame (by simp) (by simp) (by simp) (by simp)
        (fun k' => by by_cases hk : k' = k <;> simp [hk]) (by simp)
    · simpa using h.ready_nodup
    · simpa using h.all_nodup
    · intro k'
      by_cases hk : k' = k
      · simp [hk, hw]
      · simpa [hk] using h.waiters_nodup k'
    · intro t ht
      simpa using h.fresh t (by simpa using ht)
    · intro t
      simpa using h.running t
    · intro t ht
      exact h.dying t (by simpa using ht)
    · intro hid
      simpa using h.idle (by simpa using hid)
  | cons w ws =>
    -- the first waiter is blocked in `sema_down` on `k`, so it is neither ready nor idle
    have hwk := ((h.placed w).waiters k).1 (by simp [hw])
    have hwi : s.idleThread ≠ some w := fun hi => by simp [(h.placed w).idle_pc hi] at hwk
    have hwr : w ∉ s.readyList := (h.placed w).not_mem_ready (by simp [hwk.1])
    have hnd : (w :: ws).Nodup := hw ▸ h.waiters_nodup k
    have hwc : w ≠ s.cur := by
      rintro rfl
      simp [h.cur_running] at hwk
    refine ⟨_, semaUp_cons_eq hw hwk.1, ?_⟩
    refine { placed := fun u => ?_, ready_nodup := ?_, all_nodup := ?_, waiters_nodup := ?_,
             fresh := ?_, running := ?_, dying := ?_, idle := ?_ }
    · have hP := h.placed u
      by_cases hu : u = w
      · subst hu
        constructor
        · simp [hwk.1, hwi]
        · simp [hP.all, hwk.1]
        · intro k'
          by_cases hk : k' = k
          · subst hk
            simpa [hwk.1] using (List.nodup_cons.1 hnd).1
          · -- it waits on `k` only
            have hm : u ∉ (s.semas k').waiters := fun hm => by
              have hk' := ((hP.waiters k').1 hm).2
              rw [hwk.2, Option.some.injEq, SchedPc.semaDown.injEq] at hk'
              exact hk hk'.symm
            simp [hk, hwk.1, hm]
        · simp [hwk.1]
        · simp [hwk.1]
        · simp [hwk.2, hwi]
        · simp [hwk.2]
      · refine hP.frame (by simp [hu]) (by simp) (by simp [hu]) (by simp) (fun k' => ?_) (by simp)
        by_cases hk : k' = k
        · subst hk
          simp [hw, hu]
        · simp [hk]
    · simpa using nodup_push h.ready_nodup hwr
    · simpa using h.all_nodup
    · intro k'
      by_cases hk : k' = k
      · subst hk
        simpa using (List.nodup_cons.1 hnd).2
      · simpa [hk] using h.waiters_nodup k'
    · intro t ht
      replace ht : s.nextTid ≤ t := by simpa using ht
      have htw : t ≠ w := by
        rintro rfl
        simp [h.fresh _ ht] at hwk
      simp [htw, h.fresh t ht]
    · intro t
      by_cases htw : t = w
      · subst htw
        simp [hwk.1, hwc]
      · simpa [htw] using h.running t
    · intro t ht
      by_cases htw : t = w
      · subst htw
        simp [hwk.1] at ht
      · exact h.dying t (by simpa [htw] using ht)
    · intro hid
      obtain ⟨i, hu, hi⟩ := h.idle (by simpa using hid)
      refine ⟨i, fun u => by simpa using hu u, ?_⟩
      rcases hi with hi | hi
      · exact .inl (by simp [hi])
      · exact .inr (by simpa using hi)

theorem threadCreate_eq (hr : s.status s.cur = some .running) (hn : s.nextTid ≠ s.cur)
    (pc : SchedPc) :
    threadCreate s true pc = .ok (((({ s with nextTid := s.nextTid + 1 } : Sched).initThread
      s.nextTid pc).pushReady s.nextTid).setStatus s.nextTid .ready, some s.nextTid) := by
  set X := ({ s with nextTid := s.nextTid + 1 } : Sched).initThread s.nextTid pc with hX
  have hc : X.status X.cur = some .running := by
    simp [hX, Ne.symm hn, hr]
  have hb : X.status s.nextTid = some .blocked := by simp [hX]
  simp only [threadCreate, allocateTid, Bool.not_true, Bool.false_eq_true, if_false]
  rw [threadCurrent_seq hc, threadUnblock_eq hb]
  rfl

/-- `thread_create` of a kernel thread: the new thread is ready, at the back of
`ready_list`. -/
theorem threadCreate_inv (h : s.Inv) (ok : Bool) :
    ∃ s' r, threadCreate s ok .kernel = .ok (s', r) ∧ s'.Inv := by
  cases ok with
  | false => exact ⟨s, none, rfl, h⟩
  | true =>
  refine ⟨_, _, threadCreate_eq h.cur_running (h.ne_cur_of_fresh (le_refl _)) .kernel, ?_⟩
  -- the new thread's tid was never drawn: it is on no list and not the idle thread
  have ht := h.fresh s.nextTid (le_refl _)
  have htr : s.nextTid ∉ s.readyList := (h.placed _).not_mem_ready (by simp [ht])
  have hta : s.nextTid ∉ s.allList := fun hm => by simp [((h.placed _).all.1 hm).1] at ht
  have hti : s.idleThread ≠ some s.nextTid := fun hi => by
    have hp := (h.placed _).idle_pc hi
    rw [(pcOf_eq_none _ _).2 ht] at hp
    simp at hp
  refine { placed := fun u => ?_, ready_nodup := ?_, all_nodup := ?_, waiters_nodup := ?_,
           fresh := ?_, running := ?_, dying := ?_, idle := ?_ }
  · have hP := h.placed u
    by_cases hu : u = s.nextTid
    · subst hu
      constructor
      · simp [hti]
      · simp
      · intro k
        simp [hP.not_mem_waiters (by simp [ht]) k]
      · simp
      · simp
      · simp [hti]
      · simp
    · exact hP.frame (by simp [hu]) (by simp [hu]) (by simp [hu]) (by simp [hu]) (by simp)
        (by simp)
  · simpa using nodup_push h.ready_nodup htr
  · simpa using nodup_push h.all_nodup hta
  · simpa using h.waiters_nodup
  · intro t htt
    replace htt : s.nextTid + 1 ≤ t := by simpa using htt
    simp [Nat.ne_of_gt htt, h.fresh t (by omega)]
  · intro t
    by_cases htn : t = s.nextTid
    · subst htn
      simp [h.ne_cur_of_fresh (le_refl _)]
    · simpa [htn] using h.running t
  · intro t htd
    by_cases htn : t = s.nextTid
    · subst htn
      simp at htd
    · exact h.dying t (by simpa [htn] using htd)
  · intro hid
    obtain ⟨i, hu, hi⟩ := h.idle (by simpa using hid)
    have hin : i ≠ s.nextTid := by
      rintro rfl
      have hp := (hu s.nextTid).2 rfl
      rw [(pcOf_eq_none _ _).2 ht] at hp
      simp at hp
    refine ⟨i, fun u => ?_, ?_⟩
    · by_cases hun : u = s.nextTid
      · subst hun
        simpa using Ne.symm hin
      · simpa [hun] using hu u
    · rcases hi with hi | hi
      · exact .inl (by simp [hi])
      · exact .inr (by simpa using hi)

/-- The start of `idle ()`: the idle thread names itself `idle_thread`. -/
theorem idleSet_inv (h : s.Inv) (hpc : s.pcOf s.cur = some .idleStart) :
    (({ s with idleThread := some s.cur } : Sched).setPc s.cur .idleLoop).Inv := by
  have hc := h.cur_running
  have hid := (h.placed s.cur).idleStart hpc
  obtain ⟨i, hu, -⟩ := h.idle hid
  -- the running thread is the one idle thread of `thread_start`
  have hic : s.cur = i := (hu s.cur).1 hpc
  refine { placed := fun u => ?_, ready_nodup := ?_, all_nodup := ?_, waiters_nodup := ?_,
           fresh := ?_, running := ?_, dying := ?_, idle := ?_ }
  · have hP := h.placed u
    by_cases huc : u = s.cur
    · subst huc
      constructor
      · simp [hc, h.cur_not_mem_ready]
      · simp [hc, h.cur_mem_all]
      · intro k
        simp [hc, h.cur_not_mem_waiters k]
      · simp [hc]
      · simp [hc]
      · simp [hpc]
      · simp [hpc]
    · have hne : some s.cur ≠ some u := fun e => huc (Option.some.inj e).symm
      have hns : s.pcOf u ≠ some .idleStart := fun hs => huc (((hu u).1 hs).trans hic.symm)
      constructor
      · simpa [huc, hne, hid] using hP.ready
      · simpa using hP.all
      · intro k
        simpa [huc] using hP.waiters k
      · intro hb
        simpa [hid, hne, huc] using hP.blocked (by simpa using hb)
      · intro hd
        simpa [huc] using hP.dying (by simpa using hd)
      · simpa [huc, hne, hid] using hP.idleLoop
      · simp [huc, hns]
  · simpa using h.ready_nodup
  · simpa using h.all_nodup
  · simpa using h.waiters_nodup
  · intro t ht
    simpa using h.fresh t (by simpa using ht)
  · intro t
    simpa using h.running t
  · intro t ht
    exact h.dying t (by simpa using ht)
  · intro hid'
    simp at hid'

theorem idleStart_inv (h : s.Inv) (hpc : s.pcOf s.cur = some .idleStart) :
    ∃ s', idleStart s = .ok s' ∧ s'.Inv := by
  rw [idleStart, threadCurrent_seq h.cur_running]
  exact semaUp_inv (idleSet_inv h hpc) idleStarted

end Keep


/-! ## Every step keeps the invariant -/

section Run

variable {s s' : Sched} {a : SchedCall}

/-- From a state that keeps the invariant, every step the running thread's code allows runs
without a failed `ASSERT` and keeps it. -/
theorem Inv.step (h : s.Inv) (ha : s.enabled a = true) : ∃ s', s.step a = .ok s' ∧ s'.Inv := by
  cases a with
  | create ok =>
    obtain ⟨s', r, hc, hi⟩ := threadCreate_inv h ok
    exact ⟨s', by simp [Sched.step, hc], hi⟩
  | semaDown k =>
    have hpc : s.pcOf s.cur = some .kernel := by
      simp only [enabled, Bool.and_eq_true, beq_iff_eq] at ha
      exact ha.1
    exact semaDown_inv h k (by simp [hpc]) (by simp [hpc])
  | semaUp k => exact semaUp_inv h k
  | yield => exact threadYield_inv h
  | exit => exact threadExit_inv h (by simpa [enabled] using ha)
  | resume =>
    -- the running thread goes on with the `sema_down` it is in
    cases hp : s.pcOf s.cur with
    | none => simp [enabled, hp] at ha
    | some p =>
      cases p with
      | starting =>
        simpa [Sched.step, hp] using semaDown_inv h idleStarted (by simp [hp]) (by simp [hp])
      | semaDown k =>
        simpa [Sched.step, hp] using semaDown_inv h k (by simp [hp]) (by simp [hp])
      | _ => simp [enabled, hp] at ha
  | idleStart => exact idleStart_inv h (by simpa [enabled] using ha)
  | idleBlock =>
    have hi := (h.placed s.cur).idleLoop.1 (by simpa [enabled] using ha)
    rw [Sched.step, threadBlock_seq h.cur_running]
    exact schedule_inv (idleBlock_preInv h hi)

theorem Inv.next (h : s.Inv) (hn : s.next a = some s') : s'.Inv := by
  unfold Sched.next at hn
  split at hn
  · obtain ⟨s'', hs, hi⟩ := h.step ‹_›
    rw [hs] at hn
    cases hn
    exact hi
  · cases hn

/-- A state that keeps the invariant can always go on: the running thread's code allows a
step, and it runs. -/
theorem Inv.progress (h : s.Inv) : ∃ a s', s.next a = some s' := by
  have hen : ∃ a, s.enabled a = true := by
    obtain ⟨p, hp⟩ : ∃ p, s.pcOf s.cur = some p :=
      Option.ne_none_iff_exists'.mp (by simp [pcOf_eq_none, h.cur_running])
    cases p with
    | kernel => exact ⟨.yield, by simp [enabled, hp, SchedPc.interruptible]⟩
    | starting => exact ⟨.resume, by simp [enabled, hp]⟩
    | semaDown k => exact ⟨.resume, by simp [enabled, hp]⟩
    | idleStart => exact ⟨.idleStart, by simp [enabled, hp]⟩
    | idleLoop => exact ⟨.idleBlock, by simp [enabled, hp]⟩
  obtain ⟨a, ha⟩ := hen
  obtain ⟨s', hs, -⟩ := h.step ha
  exact ⟨a, s', by simp [Sched.next, ha, hs, Except.toOption]⟩

end Run

/-! ## From `thread_start` on -/

section Boot

theorem threadInit_status (u : Nat) :
    threadInit.status u = if u = initialThread then some .running else none := by
  unfold initialThread
  by_cases hu : u = 1 <;>
    simp [threadInit, allocateTid, initThread, setStatus, status, hu, initialThread]

theorem threadInit_pcOf (u : Nat) :
    threadInit.pcOf u = if u = initialThread then some .kernel else none := by
  unfold initialThread
  by_cases hu : u = 1 <;>
    simp [threadInit, allocateTid, initThread, setStatus, pcOf, hu, initialThread]

/-- After `thread_init`, `thread_start` leaves `initial_thread` running in it and the idle
thread ready: the invariant holds. -/
theorem threadStart_inv : ∃ s, threadStart threadInit true = .ok s ∧ s.Inv := by
  have hr : (threadInit.setSema idleStarted ⟨0, []⟩).status
      (threadInit.setSema idleStarted ⟨0, []⟩).cur = some .running := by decide
  have hn : (threadInit.setSema idleStarted ⟨0, []⟩).nextTid ≠
      (threadInit.setSema idleStarted ⟨0, []⟩).cur := by decide
  refine ⟨_, by rw [threadStart, threadCreate_eq hr hn]; rfl, ?_⟩
  -- `initial_thread` (tid 1) runs in `thread_start`; the idle thread (tid 2) is ready
  have hcur : threadInit.cur = 1 := rfl
  have htid : threadInit.nextTid = 2 := rfl
  have hready : threadInit.readyList = [] := rfl
  have hall : threadInit.allList = [1] := rfl
  have hidle : threadInit.idleThread = none := rfl
  have hsema : ∀ k, threadInit.semas k = ⟨0, []⟩ := fun _ => rfl
  simp only [setStatus_cur, pushReady_cur, initThread_cur, setSema_cur, hcur]
  refine { placed := fun u => ?_, ready_nodup := ?_, all_nodup := ?_, waiters_nodup := ?_,
           fresh := ?_, running := ?_, dying := ?_, idle := ?_ }
  · by_cases h1 : u = 1
    · subst h1
      constructor <;> simp [threadInit_status, threadInit_pcOf, initialThread, htid, hready,
        hall, hidle, hsema]
    · by_cases h2 : u = 2
      · subst h2
        constructor <;> simp [htid, hready, hall, hidle, hsema]
      · constructor <;> simp [threadInit_status, threadInit_pcOf, initialThread, htid, hready,
          hall, hidle, hsema, h1, h2]
  · simp [hready]
  · simp [hall, htid]
  · intro k
    simp [hsema]
  · intro t ht
    replace ht : 3 ≤ t := by simpa [htid] using ht
    have h1 : t ≠ 1 := by omega
    have h2 : t ≠ 2 := by omega
    simp [threadInit_status, initialThread, h1, h2, htid]
  · intro t
    by_cases h2 : t = 2
    · simp [h2, htid]
    · by_cases h1 : t = 1 <;> simp [threadInit_status, initialThread, h1, h2, htid]
  · intro t ht
    by_cases h2 : t = 2
    · simp [h2, htid] at ht
    · simp [threadInit_status, h2, htid] at ht
  · intro _
    refine ⟨2, fun u => ?_, .inl (by simp [hready, htid])⟩
    by_cases h1 : u = 1
    · simp [h1, htid]
    · by_cases h2 : u = 2
      · simp [h2, htid]
      · simp [threadInit_pcOf, initialThread, h1, h2, htid]


/-- Every state the scheduler reaches from `thread_start` keeps the invariant. -/
theorem reachable_inv {s₀ s : Sched} (h₀ : threadStart threadInit true = .ok s₀)
    (h : Trace.Reachable Sched.next s₀ s) : s.Inv := by
  obtain ⟨b, hb, hi⟩ := threadStart_inv
  rw [hb, Except.ok.injEq] at h₀
  subst h₀
  exact h.invariant Sched.Inv hi (fun _ _ _ hs hn => hs.next hn)

end Boot

end Pintos.Threads.Sched
