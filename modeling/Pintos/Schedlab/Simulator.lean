import Mathlib
import Pintos.Lib.Loop

/-!
The scheduling simulator of the `schedlab` notebook: tasks, the thread model
`Thread.run`, the processor model `Machine`, the queues `FIFOQueue`, `SRTFQueue` and
`TwoLevelFeedbackQueue`, and the loops `scheduler` and `mlfq2`.

Python objects are shared by reference: a thread sits in `cpu.threads` and, at the same
time, in the ready queue or the I/O list. Here `Machine.threads` holds the thread records
in arrival order, and the queues and the I/O list hold indices into it. Python's integers
are `Int`. `last_queued`, `remaining_burst` and `wakeup_time` start as `None`; the first is
read only by a dequeue after an enqueue stamped it, the third only for a thread that
`io_wait` put in the I/O list, and the second only as a truth value, for which `None` and
`0` are alike, so all three start at `0` here. The `while` loops run on fuel, `simFuel`
rounds, and a loop that outruns it stops with `diverge`.

* `srtf_wait_time_stays_zero`: `SRTFQueue.dequeue` never adds the time a thread waited,
  so under `srtf` a thread that waited ends with `wait_time = 0`.
-/

namespace Pintos.Schedlab

/-- What the simulator raises on its paths: `pop` from an empty deque, `remove (None)`,
`None > 0`, and `diverge` for a `while` loop that outruns its fuel. -/
inductive PyError
  | indexError
  | valueError
  | typeError
  | diverge
deriving DecidableEq, Repr

/-- `Task (arrival, total, burst_fun, io_burst_fun)`, with its number `task`. -/
structure Task where
  task : Nat
  arrivalTime : Int
  totalRunTime : Int
  cpuBurst : Int → Int
  ioBurst : Int → Int
deriving Inhabited

/-- A `Thread` object: the task it runs and its bookkeeping. -/
structure Thread where
  task : Task
  elapsedTime : Int
  lastQueued : Int
  waitTime : Int
  remainingBurst : Int
  wakeupTime : Int
deriving Inhabited

/-- `Thread (task)`. -/
def Thread.new (task : Task) : Thread := ⟨task, 0, 0, 0, 0, 0⟩

/-- `remaining ()`. -/
def Thread.remaining (th : Thread) : Int := th.task.totalRunTime - th.elapsedTime

/-- The status `run` returns: `'cpu'`, `'io'` or `'done'`. -/
inductive Status
  | cpu
  | io
  | done
deriving DecidableEq, Repr

/-- `run (q)`: how long the thread runs for quantum `q` (`0`: non-preemptive), its status
and the I/O time that follows a completed burst, and the thread advanced. The I/O time is
read only with status `'io'`, where the code has set it; it is `0` otherwise. -/
def Thread.run (th : Thread) (q : Int) : (Int × Status × Int) × Thread :=
  let (runLen, status, ioTime, th) : Int × Status × Int × Thread :=
    if th.remainingBurst ≠ 0 then
      -- still completing a burst
      let runLen := if q > 0 then min q (min th.remainingBurst th.remaining)
        else min th.remainingBurst th.remaining
      let th := { th with remainingBurst := th.remainingBurst - runLen,
                          elapsedTime := th.elapsedTime + runLen }
      if th.remainingBurst ≠ 0 then (runLen, .cpu, 0, th)
      else (runLen, .io, th.task.ioBurst th.elapsedTime, th)
    else
      -- starting a new burst
      let burst := th.task.cpuBurst th.elapsedTime
      let runLen :=
        if burst = 0 ∧ q = 0 then th.remaining
        else if burst = 0 then min q th.remaining
        else if q = 0 then min burst th.remaining
        else min q (min burst th.remaining)
      let th := { th with elapsedTime := th.elapsedTime + runLen }
      if burst = 0 then (runLen, .cpu, 0, th)
      else if runLen < burst then (runLen, .cpu, 0, { th with remainingBurst := burst - runLen })
      else (runLen, .io, th.task.ioBurst th.elapsedTime, th)
  -- the status is overridden once the thread is finished
  ((runLen, if th.remaining ≤ 0 then .done else status, ioTime), th)

/-- `cpu.threads [i]`, for an index that a queue or the I/O list holds. -/
def threadAt (threads : List Thread) (i : Nat) : Thread := threads.getD i default

/-- The entries of `Machine.log`. -/
inductive LogEntry
  | start (time : Int)
  | ioWait (time : Int) (task : Task) (waitTime : Int)
  | arrive (time : Int) (task : Task) (readyLen : Nat)
  | wakeup (time : Int) (task : Task) (readyLen : Nat)
  | idle (time : Int) (duration : Int)
  | run (time : Int) (task : Task) (runTime : Int) (readyLen : Nat) (weight : Int)
  | stop (time : Int)

/-- The order `sorted (tasks, key = lambda x: x.arrival_time)` sorts by. -/
def ArrivesBy (a b : Task) : Prop := a.arrivalTime ≤ b.arrivalTime

instance : DecidableRel ArrivesBy := fun _ _ => inferInstanceAs (Decidable (_ ≤ _))

/-- `TaskStream (tasks).tasks`: Python's sort is stable, and so is insertion sort. -/
def TaskStream.new (tasks : List Task) : List Task := tasks.insertionSort ArrivesBy

/-- `next_arrival ()`. -/
def TaskStream.nextArrival (tasks : List Task) : Option Int := tasks.head?.map Task.arrivalTime

/-- `enter_tasks (time)`: the threads of the tasks arrived by `time`, in order, and the tasks
left in the stream. -/
def TaskStream.enterTasks (tasks : List Task) (time : Int) : List Thread × List Task :=
  ((tasks.filter fun t => t.arrivalTime ≤ time).map Thread.new,
    tasks.filter fun t => ¬t.arrivalTime ≤ time)

/-- What `Machine` uses of its ready queue: `enqueue`, which is what `arrive` and `wake` do
in every queue class of the notebook, `empty`, `__len__` and `weight`. The queue holds
indices into the thread list, which `enqueue` stamps. -/
class ReadyQueue (Q : Type) where
  enqueue : List Thread → Q → Nat → Int → List Thread × Q
  empty : Q → Bool
  len : Q → Nat
  weight : List Thread → Q → Int

/-- A queue class that `scheduler` runs: its constructor and its `dequeue`. -/
class SchedQueue (Q : Type) extends ReadyQueue Q where
  new : Q
  dequeue : List Thread → Q → Int → Except PyError (Nat × List Thread × Q)

/-- The truth value of an `int` or `None`. -/
def truthy : Option Int → Bool
  | none => false
  | some x => x != 0

/-- `Machine`: its clock, its log, all threads so far, the threads in I/O wait, the tasks still
to arrive and the ready queue. -/
structure Machine (Q : Type) where
  time : Int
  log : List LogEntry
  threads : List Thread
  io : List Nat
  future : List Task
  ready : Q

namespace Machine

variable {Q : Type} [ReadyQueue Q]

/-- `pending ()`. -/
def pending (m : Machine Q) : Bool := !m.future.isEmpty || !m.io.isEmpty

/-- `min ([t.wakeup_time for t in self.io])`, for a nonempty I/O list. -/
def minWakeup (m : Machine Q) (i : Nat) (rest : List Nat) : Int :=
  rest.foldl (fun w j => min w (threadAt m.threads j).wakeupTime) (threadAt m.threads i).wakeupTime

/-- `next_start ()`. -/
def nextStart (m : Machine Q) : Option Int :=
  let nextTaskstart := TaskStream.nextArrival m.future
  match m.io with
  | i :: rest =>
    match nextTaskstart with
    | some s => if s ≠ 0 then some (min s (m.minWakeup i rest)) else some (m.minWakeup i rest)
    | none => some (m.minWakeup i rest)
  | [] => nextTaskstart

/-- `io_wait (thread, wait_time)`. -/
def ioWait (m : Machine Q) (thread : Nat) (waitTime : Int) : Machine Q :=
  { m with
    threads := m.threads.modify thread fun th => { th with wakeupTime := m.time + waitTime }
    io := m.io ++ [thread]
    log := m.log ++ [.ioWait m.time (threadAt m.threads thread).task waitTime] }

/-- The body of the loop over `enter_tasks (self.time)`. -/
def arrive (m : Machine Q) (th : Thread) : Machine Q :=
  let (threads, ready) :=
    ReadyQueue.enqueue (m.threads ++ [th]) m.ready m.threads.length th.task.arrivalTime
  { m with
    threads := threads
    ready := ready
    log := m.log ++ [.arrive th.task.arrivalTime th.task (ReadyQueue.len ready)] }

/-- The body of the loop over `self.io.copy ()`. -/
def wake (m : Machine Q) (thread : Nat) : Machine Q :=
  let th := threadAt m.threads thread
  if th.wakeupTime ≤ m.time then
    let (threads, ready) := ReadyQueue.enqueue m.threads m.ready thread th.wakeupTime
    { m with
      threads := threads
      ready := ready
      io := m.io.erase thread
      log := m.log ++ [.wakeup th.wakeupTime th.task (ReadyQueue.len ready)] }
  else m

/-- `_arrivals ()`: the tasks arrived by now enter the ready queue, then the threads whose
I/O completed by now. -/
def arrivals (m : Machine Q) : Machine Q :=
  let (entered, future) := TaskStream.enterTasks m.future m.time
  let m := entered.foldl arrive { m with future }
  m.io.foldl wake m

/-- `idle ()`. -/
def idle (m : Machine Q) : Except PyError (Machine Q) :=
  if m.pending then
    match m.nextStart with
    | none => throw .typeError
    | some idleTime =>
      if idleTime > 0 then
        pure (arrivals { m with log := m.log ++ [.idle m.time (idleTime - m.time)], time := idleTime })
      else pure m
  else pure m

/-- `run (run_time, thread)`. -/
def run (m : Machine Q) (runTime : Int) (thread : Nat) : Machine Q :=
  arrivals { m with
    log := m.log ++ [.run m.time (threadAt m.threads thread).task runTime
      (ReadyQueue.len m.ready) (ReadyQueue.weight m.threads m.ready)]
    time := m.time + runTime }

/-- `stop ()`. -/
def stop (m : Machine Q) : Machine Q := { m with log := m.log ++ [.stop m.time] }

/-- `Machine (task_stream, ready)`. -/
def new (tasks : List Task) (ready : Q) : Machine Q :=
  arrivals ⟨0, [.start 0], [], [], TaskStream.new tasks, ready⟩

end Machine

/-- `FIFOQueue`: the deque, its left end first. -/
structure FIFOQueue where
  queue : List Nat

namespace FIFOQueue

/-- `enqueue (thread, at_time)`. -/
def enqueue (threads : List Thread) (r : FIFOQueue) (thread : Nat) (atTime : Int) :
    List Thread × FIFOQueue :=
  (threads.modify thread fun th => { th with lastQueued := atTime }, ⟨thread :: r.queue⟩)

/-- `dequeue (at_time)`. -/
def dequeue (threads : List Thread) (r : FIFOQueue) (atTime : Int) :
    Except PyError (Nat × List Thread × FIFOQueue) :=
  match r.queue.getLast? with
  | none => throw .indexError
  | some thread =>
    pure (thread,
      threads.modify thread fun th => { th with waitTime := th.waitTime + (atTime - th.lastQueued) },
      ⟨r.queue.dropLast⟩)

/-- `empty ()`. -/
def empty (r : FIFOQueue) : Bool := r.queue.length == 0

/-- `weight ()`. -/
def weight (threads : List Thread) (r : FIFOQueue) : Int :=
  (r.queue.map fun i => (threadAt threads i).task.totalRunTime - (threadAt threads i).elapsedTime).sum

instance : SchedQueue FIFOQueue where
  enqueue := enqueue
  empty := empty
  len r := r.queue.length
  weight := weight
  new := ⟨[]⟩
  dequeue := dequeue

end FIFOQueue

/-- `SRTFQueue (FIFOQueue)`: the same deque with its own `dequeue`. -/
structure SRTFQueue extends FIFOQueue

namespace SRTFQueue

/-- The loop of `dequeue`: the first thread of least remaining time, with that time; `none`
(`srt_thread = None`) for an empty deque. -/
def shortest (threads : List Thread) (queue : List Nat) : Option (Int × Nat) :=
  queue.foldl (fun srt i =>
    let rt := (threadAt threads i).remaining
    match srt with
    | some (t, _) => if rt < t then some (rt, i) else srt
    | none => some (rt, i)) none

/-- `dequeue (at_time)`: the thread is removed with no change to its `wait_time`. -/
def dequeue (threads : List Thread) (r : SRTFQueue) (_atTime : Int) :
    Except PyError (Nat × List Thread × SRTFQueue) :=
  match shortest threads r.queue with
  | none => throw .valueError
  | some (_, thread) => pure (thread, threads, ⟨⟨r.queue.erase thread⟩⟩)

instance : SchedQueue SRTFQueue where
  enqueue threads r thread atTime :=
    let (threads, q) := FIFOQueue.enqueue threads r.toFIFOQueue thread atTime
    (threads, ⟨q⟩)
  empty r := FIFOQueue.empty r.toFIFOQueue
  len r := r.queue.length
  weight threads r := FIFOQueue.weight threads r.toFIFOQueue
  new := ⟨⟨[]⟩⟩
  dequeue := dequeue

end SRTFQueue

/-- The loop of `scheduler (tasks, q, queue_class)`: a round of `while not ready.empty () or
cpu.next_start ()`, or `cpu.stop ()` once the condition fails. -/
def schedulerRound {Q : Type} [SchedQueue Q] (q : Int) (cpu : Machine Q) :
    Except PyError (Machine Q ⊕ Machine Q) :=
  if !ReadyQueue.empty cpu.ready || truthy cpu.nextStart then
    if ReadyQueue.empty cpu.ready then .inr <$> cpu.idle
    else do
      let (thread, threads, ready) ← SchedQueue.dequeue cpu.threads cpu.ready cpu.time
      let ((runTime, status, ioTime), th) := (threadAt threads thread).run q
      let cpu := Machine.run { cpu with threads := threads.set thread th, ready := ready } runTime thread
      if status = .io ∧ ioTime > 0 then pure (.inr (cpu.ioWait thread ioTime))
      else if status ≠ .done then
        let (threads, ready) := ReadyQueue.enqueue cpu.threads cpu.ready thread cpu.time
        pure (.inr { cpu with threads := threads, ready := ready })
      else pure (.inr cpu)
  else pure (.inl cpu.stop)

/-- The rounds of fuel the simulator loops run on: two per unit of work and one per task,
and one for the last test of the condition. -/
def simFuel (tasks : List Task) : Nat :=
  2 * (tasks.map fun t => t.totalRunTime.toNat).sum + tasks.length + 1

/-- `scheduler (tasks, q, queue_class)`: the machine after `cpu.stop ()`. -/
def scheduler (tasks : List Task) (q : Int) (Q : Type) [SchedQueue Q] : Except PyError (Machine Q) :=
  Loop.run (schedulerRound q) (fun _ => throw .diverge) (simFuel tasks)
    (Machine.new tasks (SchedQueue.new : Q))

/-- `round_robin (tasks, q)`. -/
def roundRobin (tasks : List Task) (q : Int) : Except PyError (Machine FIFOQueue) :=
  scheduler tasks q FIFOQueue

/-- `fcfs (tasks)`. -/
def fcfs (tasks : List Task) : Except PyError (Machine FIFOQueue) := roundRobin tasks 0

/-- `srtf (tasks, q)`. -/
def srtf (tasks : List Task) (q : Int) : Except PyError (Machine SRTFQueue) :=
  scheduler tasks q SRTFQueue

/-- `TwoLevelFeedbackQueue (q_int, q_cpu)`: the interactive deque and its quantum, and the
deque of threads that used up their quantum, with its own. -/
structure TwoLevelFeedbackQueue where
  queue : List Nat
  q : Int
  qCpu : Int
  cpuQueue : List Nat

namespace TwoLevelFeedbackQueue

/-- `enqueue (thread, at_time)`: into the interactive deque. -/
def enqueue (threads : List Thread) (r : TwoLevelFeedbackQueue) (thread : Nat) (atTime : Int) :
    List Thread × TwoLevelFeedbackQueue :=
  (threads.modify thread fun th => { th with lastQueued := atTime },
    { r with queue := thread :: r.queue })

/-- `enqueue_cpu (thread, at_time)`: into the non-interactive deque. -/
def enqueueCpu (threads : List Thread) (r : TwoLevelFeedbackQueue) (thread : Nat) (atTime : Int) :
    List Thread × TwoLevelFeedbackQueue :=
  (threads.modify thread fun th => { th with lastQueued := atTime },
    { r with cpuQueue := thread :: r.cpuQueue })

/-- `dequeue (at_time)`: the oldest interactive thread with quantum `q`, else the oldest other
one with `q_cpu`. -/
def dequeue (threads : List Thread) (r : TwoLevelFeedbackQueue) (atTime : Int) :
    Except PyError (Nat × Int × List Thread × TwoLevelFeedbackQueue) := do
  let (thread, quanta, r) ← if r.queue.length = 0 then
      match r.cpuQueue.getLast? with
      | none => throw .indexError
      | some thread => pure (thread, r.qCpu, { r with cpuQueue := r.cpuQueue.dropLast })
    else
      match r.queue.getLast? with
      | none => throw .indexError
      | some thread => pure (thread, r.q, { r with queue := r.queue.dropLast })
  pure (thread, quanta,
    threads.modify thread fun th => { th with waitTime := th.waitTime + (atTime - th.lastQueued) }, r)

/-- `empty ()`. -/
def empty (r : TwoLevelFeedbackQueue) : Bool := r.queue.isEmpty && r.cpuQueue.isEmpty

/-- `weight ()`. -/
def weight (threads : List Thread) (r : TwoLevelFeedbackQueue) : Int :=
  (r.queue.map fun i => (threadAt threads i).remaining).sum +
    (r.cpuQueue.map fun i => (threadAt threads i).remaining).sum

instance : ReadyQueue TwoLevelFeedbackQueue where
  enqueue := enqueue
  empty := empty
  len r := r.queue.length + r.cpuQueue.length
  weight := weight

end TwoLevelFeedbackQueue

/-- The loop of `mlfq2 (tasks, q1, q2)`: a thread that used up its quantum goes to the
non-interactive deque, one back from a zero-length I/O wait to the interactive one. -/
def mlfq2Round (cpu : Machine TwoLevelFeedbackQueue) :
    Except PyError (Machine TwoLevelFeedbackQueue ⊕ Machine TwoLevelFeedbackQueue) :=
  if !cpu.ready.empty || truthy cpu.nextStart then
    if cpu.ready.empty then .inr <$> cpu.idle
    else do
      let (thread, quanta, threads, ready) ← cpu.ready.dequeue cpu.threads cpu.time
      let ((runTime, status, ioTime), th) := (threadAt threads thread).run quanta
      let cpu := Machine.run { cpu with threads := threads.set thread th, ready := ready } runTime thread
      if status = .io ∧ ioTime > 0 then pure (.inr (cpu.ioWait thread ioTime))
      else if status = .cpu then
        let (threads, ready) := cpu.ready.enqueueCpu cpu.threads thread cpu.time
        pure (.inr { cpu with threads := threads, ready := ready })
      else if status ≠ .done then
        let (threads, ready) := cpu.ready.enqueue cpu.threads thread cpu.time
        pure (.inr { cpu with threads := threads, ready := ready })
      else pure (.inr cpu)
  else pure (.inl cpu.stop)

/-- `mlfq2 (tasks, q1, q2)`. -/
def mlfq2 (tasks : List Task) (q1 q2 : Int) : Except PyError (Machine TwoLevelFeedbackQueue) :=
  Loop.run mlfq2Round (fun _ => throw .diverge) (simFuel tasks)
    (Machine.new tasks ⟨[], q1, q2, []⟩)

/-- The `'run'` entries of a log: start, task and duration. -/
def runEntries (log : List LogEntry) : List (Int × Task × Int) :=
  log.filterMap fun
    | .run time task runTime _ _ => some (time, task, runTime)
    | _ => none

/-- The `'io wait'` entries of a log: start, task and duration. -/
def ioEntries (log : List LogEntry) : List (Int × Task × Int) :=
  log.filterMap fun
    | .ioWait time task waitTime => some (time, task, waitTime)
    | _ => none

/-- The `'idle'` entries of a log: start and duration. -/
def idleEntries (log : List LogEntry) : List (Int × Int) :=
  log.filterMap fun
    | .idle time duration => some (time, duration)
    | _ => none

/-- Two one-unit tasks that arrive together. -/
def twoTasks : List Task :=
  [⟨1, 0, 1, fun _ => 0, fun _ => 0⟩, ⟨2, 0, 1, fun _ => 0, fun _ => 0⟩]

/-- Under `srtf` the second task runs first and the first one, which arrived at `0`, runs at
`1`; yet both threads end with `wait_time = 0`. `fcfs` counts the unit the second one
waits. -/
theorem srtf_wait_time_stays_zero :
    (srtf twoTasks 0).map (fun cpu => (runEntries cpu.log).map fun r => (r.1, r.2.1.task)) =
        .ok [(0, 2), (1, 1)] ∧
      (srtf twoTasks 0).map (fun cpu => cpu.threads.map fun th => (th.task.task, th.waitTime)) =
        .ok [(1, 0), (2, 0)] ∧
      (fcfs twoTasks).map (fun cpu => cpu.threads.map fun th => (th.task.task, th.waitTime)) =
        .ok [(1, 0), (2, 1)] :=
  ⟨rfl, rfl, rfl⟩

end Pintos.Schedlab
