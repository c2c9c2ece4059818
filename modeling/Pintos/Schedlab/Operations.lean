import Pintos.Schedlab.Simulator

/-!
What the operations of the `schedlab` simulator do, one at a time: `Thread.run`, the queue
classes' `enqueue` and `dequeue`, and the machine's `_arrivals`, `io_wait` and `idle`, stated by
the threads they change, the threads the queues hold and the entries they log. Python's shared
thread objects are indices here, so the queues' bookkeeping (`last_queued`, `wait_time`) changes
threads in place: `SameRun` says two thread lists differ in nothing else.
-/

namespace Pintos.Schedlab

/-! ## Threads -/

/-- The fields of a thread that say how far it has run: all but `last_queued` and
`wait_time`, which only the queues write. -/
def Thread.core (th : Thread) : Task × Int × Int × Int :=
  (th.task, th.elapsedTime, th.remainingBurst, th.wakeupTime)

theorem Thread.core_eq_iff {x y : Thread} : x.core = y.core ↔ x.task = y.task ∧
    x.elapsedTime = y.elapsedTime ∧ x.remainingBurst = y.remainingBurst ∧
    x.wakeupTime = y.wakeupTime := by
  simp [Thread.core]

theorem Thread.remaining_of_core {x y : Thread} (h : x.core = y.core) : x.remaining = y.remaining := by
  obtain ⟨ht, he, -, -⟩ := Thread.core_eq_iff.mp h
  rw [Thread.remaining, Thread.remaining, ht, he]

/-- Two thread lists that differ at most in the queues' bookkeeping. -/
def SameRun (a b : List Thread) : Prop := a.map Thread.core = b.map Thread.core

namespace SameRun

variable {a b c : List Thread}

theorem refl (a : List Thread) : SameRun a a := rfl

theorem trans (h : SameRun a b) (h' : SameRun b c) : SameRun a c := Eq.trans h h'

theorem length (h : SameRun a b) : a.length = b.length := by
  rw [← List.length_map (f := Thread.core), h, List.length_map]

theorem core (h : SameRun a b) (k : Nat) : (threadAt a k).core = (threadAt b k).core := by
  have := congrArg (fun l => l.getD k (default : Thread).core) h
  simpa only [threadAt, List.getD_map] using this

theorem task (h : SameRun a b) (k : Nat) : (threadAt a k).task = (threadAt b k).task :=
  congrArg Prod.fst (h.core k)

theorem elapsedTime (h : SameRun a b) (k : Nat) :
    (threadAt a k).elapsedTime = (threadAt b k).elapsedTime :=
  congrArg (fun c => c.2.1) (h.core k)

theorem remainingBurst (h : SameRun a b) (k : Nat) :
    (threadAt a k).remainingBurst = (threadAt b k).remainingBurst :=
  congrArg (fun c => c.2.2.1) (h.core k)

theorem wakeupTime (h : SameRun a b) (k : Nat) :
    (threadAt a k).wakeupTime = (threadAt b k).wakeupTime :=
  congrArg (fun c => c.2.2.2) (h.core k)

theorem remaining (h : SameRun a b) (k : Nat) :
    (threadAt a k).remaining = (threadAt b k).remaining := by
  rw [Thread.remaining, Thread.remaining, h.task, h.elapsedTime]

/-- Whatever depends only on the threads' cores is the same for the two lists. Induction on the
first list. -/
theorem map_eq {β : Type} (f : Thread → β) (hf : ∀ x y, x.core = y.core → f x = f y) :
    ∀ {a b : List Thread}, SameRun a b → a.map f = b.map f
  | [], [], _ => rfl
  | x :: a, y :: b, h => by
    obtain ⟨hxy, hab⟩ := List.cons_eq_cons.mp h
    rw [List.map_cons, List.map_cons, hf x y hxy, map_eq f hf hab]

theorem map_task (h : SameRun a b) : a.map Thread.task = b.map Thread.task := by
  have := congrArg (List.map Prod.fst) h
  simpa only [List.map_map, Function.comp_def, Thread.core] using this

theorem map_elapsedTime (h : SameRun a b) : a.map Thread.elapsedTime = b.map Thread.elapsedTime := by
  have := congrArg (List.map fun c => c.2.1) h
  simpa only [List.map_map, Function.comp_def, Thread.core] using this

theorem append (h : SameRun a b) (c : List Thread) : SameRun (a ++ c) (b ++ c) := by
  rw [SameRun, List.map_append, List.map_append, h]

theorem set (h : SameRun a b) (k : Nat) (th : Thread) : SameRun (a.set k th) (b.set k th) := by
  rw [SameRun, List.map_set, List.map_set, h]

end SameRun

/-- A change of one thread that keeps `g` of it keeps `g` of the list. Induction on the list. -/
theorem map_modify {β : Type} (g : Thread → β) {f : Thread → Thread} (hf : ∀ th, g (f th) = g th) :
    ∀ (a : List Thread) (k : Nat), (a.modify k f).map g = a.map g
  | [], _ => by rw [List.modify_nil]
  | th :: a, 0 => by rw [List.modify_zero_cons, List.map_cons, List.map_cons, hf]
  | th :: a, k + 1 => by rw [List.modify_succ_cons, List.map_cons, List.map_cons, map_modify g hf a k]

/-- A change of a thread that keeps its core keeps the list the same run. -/
theorem sameRun_modify (a : List Thread) (k : Nat) {f : Thread → Thread}
    (hf : ∀ th, (f th).core = th.core) : SameRun a (a.modify k f) :=
  (map_modify Thread.core hf a k).symm

/-! ## Thread lists by index -/

/-- The sum of `f` over a list with one element replaced. Induction on the list. -/
theorem sum_map_set {α M : Type} [AddCommMonoid M] (f : α → M) :
    ∀ (l : List α) (k : Nat) (x : α) (hk : k < l.length),
      ((l.set k x).map f).sum + f l[k] = (l.map f).sum + f x
  | a :: l, 0, x, _ => by simp [add_comm, add_left_comm]
  | a :: l, k + 1, x, hk => by
    have := sum_map_set f l k x (by simpa using hk)
    simp only [List.set_cons_succ, List.map_cons, List.sum_cons, List.getElem_cons_succ]
    rw [add_assoc, this, add_assoc]

section ThreadAt

variable {l : List Thread} {j k : Nat}

theorem threadAt_eq_getElem (h : k < l.length) : threadAt l k = l[k] := by
  simp [threadAt, List.getD_eq_getElem?_getD, h]

theorem threadAt_set_self (h : k < l.length) (th : Thread) : threadAt (l.set k th) k = th := by
  simp [threadAt, List.getD_eq_getElem?_getD, h]

theorem threadAt_set_ne (h : j ≠ k) (th : Thread) : threadAt (l.set j th) k = threadAt l k := by
  simp [threadAt, List.getD_eq_getElem?_getD, h]

theorem threadAt_modify_self (h : k < l.length) (f : Thread → Thread) :
    threadAt (l.modify k f) k = f (threadAt l k) := by
  simp [threadAt, List.getD_eq_getElem?_getD, h]

theorem threadAt_modify_ne (h : j ≠ k) (f : Thread → Thread) :
    threadAt (l.modify j f) k = threadAt l k := by
  simp [threadAt, List.getD_eq_getElem?_getD, h]

theorem threadAt_append_left (h : k < l.length) (l' : List Thread) :
    threadAt (l ++ l') k = threadAt l k := by
  simp [threadAt, List.getD_eq_getElem?_getD, List.getElem?_append_left h]

theorem threadAt_append_length (l l' : List Thread) (i : Nat) :
    threadAt (l ++ l') (l.length + i) = threadAt l' i := by
  simp [threadAt, List.getD_eq_getElem?_getD, List.getElem?_append_right]

/-- Replacing a thread by one that runs the same task keeps the list of tasks. -/
theorem map_task_set (hk : k < l.length) {th : Thread} (h : th.task = (threadAt l k).task) :
    (l.set k th).map Thread.task = l.map Thread.task := by
  refine List.ext_getElem (by simp) fun i _ _ => ?_
  by_cases hik : k = i
  · subst hik; simp [h, threadAt_eq_getElem hk]
  · simp [hik]

theorem mem_iff_threadAt {th : Thread} : th ∈ l ↔ ∃ k < l.length, threadAt l k = th := by
  rw [List.mem_iff_getElem]
  constructor
  · rintro ⟨k, hk, rfl⟩
    exact ⟨k, hk, by simp [threadAt, List.getD_eq_getElem?_getD, hk]⟩
  · rintro ⟨k, hk, rfl⟩
    exact ⟨k, hk, by simp [threadAt, List.getD_eq_getElem?_getD, hk]⟩

end ThreadAt

/-! ## `Thread.run` -/

/-- What `run (q)` does to a thread with work left, for a quantum that is `0` or positive and
bursts that are not negative: it runs at least one unit and at most what is left, and reports
`'done'` exactly when nothing is left. -/
theorem Thread.run_spec {th : Thread} {q : Int} (hq : 0 ≤ q) (hrem : 0 < th.remaining)
    (hb : 0 ≤ th.remainingBurst) (hburst : ∀ x, 0 ≤ th.task.cpuBurst x) {runLen ioTime : Int}
    {status : Status} {th' : Thread} (h : th.run q = ((runLen, status, ioTime), th')) :
    0 < runLen ∧ runLen ≤ th.remaining ∧ th'.task = th.task ∧
      th'.elapsedTime = th.elapsedTime + runLen ∧ 0 ≤ th'.remainingBurst ∧
      th'.wakeupTime = th.wakeupTime ∧ (status = .done ↔ th'.remaining = 0) := by
  have hc := hburst th.elapsedTime
  simp only [Thread.run, Thread.remaining] at h hrem ⊢
  -- one case for each way through `run`: a burst going on or a new one, preempted or not,
  -- and the thread finished or not
  split_ifs at h <;> simp only [Prod.mk.injEq] at h <;> obtain ⟨⟨rfl, rfl, rfl⟩, rfl⟩ := h
  all_goals
    dsimp only at *
    refine ⟨?_, ?_, rfl, rfl, ?_, rfl, ?_⟩ <;> (try simp only [reduceCtorEq, false_iff, true_iff]) <;>
      omega

/-! ## Ready queues

What the proofs need of a queue class is the list of the threads it holds, `contents`, and how
`enqueue`, `empty` and `dequeue` change it. -/

/-- An operation that puts thread `k` in a queue holding the threads `contents`, and that
changes the threads only in the queues' bookkeeping. -/
def Requeues {Q : Type} (contents : Q → List Nat)
    (enq : List Thread → Q → Nat → Int → List Thread × Q) : Prop :=
  ∀ threads r k t, (contents (enq threads r k t).2).Perm (k :: contents r) ∧
    SameRun threads (enq threads r k t).1

/-- A ready queue with the threads `contents`. -/
class LawfulReady (Q : Type) [ReadyQueue Q] where
  contents : Q → List Nat
  requeues_enqueue : Requeues contents ReadyQueue.enqueue
  empty_iff : ∀ r, ReadyQueue.empty r = true ↔ contents r = []

/-- A queue class of `scheduler`: it starts empty, and its `dequeue` takes one of its threads
and fails only on an empty queue. -/
class LawfulSched (Q : Type) [SchedQueue Q] extends LawfulReady Q where
  contents_new : contents SchedQueue.new = []
  dequeue_ok : ∀ threads (r : Q) t, contents r ≠ [] → ∃ k threads' r',
    SchedQueue.dequeue threads r t = .ok (k, threads', r') ∧
      (contents r).Perm (k :: contents r') ∧ SameRun threads threads'

/-- The last thread of a nonempty deque, and the deque without it. -/
theorem exists_last {l : List Nat} (h : l ≠ []) :
    ∃ k, l.getLast? = some k ∧ l.Perm (k :: l.dropLast) := by
  obtain ⟨k, hk⟩ := Option.ne_none_iff_exists'.mp (mt List.getLast?_eq_none_iff.mp h)
  have hperm := List.perm_append_singleton k l.dropLast
  rw [List.dropLast_append_getLast? k hk] at hperm
  exact ⟨k, hk, hperm⟩

namespace FIFOQueue

theorem requeues_enqueue : Requeues queue enqueue := fun threads _ k _ =>
  ⟨List.Perm.refl _, sameRun_modify threads k fun _ => rfl⟩

theorem dequeue_ok (threads : List Thread) (r : FIFOQueue) (t : Int) (h : r.queue ≠ []) :
    ∃ k threads' r', dequeue threads r t = .ok (k, threads', r') ∧
      r.queue.Perm (k :: r'.queue) ∧ SameRun threads threads' := by
  obtain ⟨k, hk, hperm⟩ := exists_last h
  exact ⟨k, _, _, by rw [dequeue, hk]; rfl, hperm, sameRun_modify threads k
    (f := fun th => { th with waitTime := th.waitTime + (t - th.lastQueued) }) fun _ => rfl⟩

instance : LawfulSched FIFOQueue where
  contents := queue
  requeues_enqueue := requeues_enqueue
  empty_iff r := by
    show (r.queue.length == 0) = true ↔ _
    simp
  contents_new := rfl
  dequeue_ok := dequeue_ok

end FIFOQueue

/-- A fold whose step keeps the accumulator or replaces it by `g` of the element keeps any
property of its start that every such `g` value has. Induction on the list. -/
theorem foldl_keep_or_replace {α β : Type} {F : β → α → β} (g : α → β) (P : β → Prop)
    (hF : ∀ b a, F b a = b ∨ F b a = g a) :
    ∀ (l : List α) (b : β), P b → (∀ a ∈ l, P (g a)) → P (l.foldl F b)
  | [], _, hb, _ => hb
  | a :: l, b, hb, hg => by
    rw [List.foldl_cons]
    refine foldl_keep_or_replace g P hF l (F b a) ?_ fun a' ha' => hg a' (List.mem_cons_of_mem a ha')
    rcases hF b a with h | h
    · rwa [h]
    · rw [h]
      exact hg a List.mem_cons_self

namespace SRTFQueue

/-- The loop of `dequeue` finds a thread of a nonempty deque. -/
theorem shortest_cons (threads : List Thread) (a : Nat) (l : List Nat) :
    ∃ k ∈ a :: l, shortest threads (a :: l) = some ((threadAt threads k).remaining, k) := by
  rw [shortest, List.foldl_cons]
  refine foldl_keep_or_replace (fun i => some ((threadAt threads i).remaining, i))
    (fun s => ∃ k ∈ a :: l, s = some ((threadAt threads k).remaining, k)) ?_ l _
    ⟨a, List.mem_cons_self, rfl⟩ fun k hk => ⟨k, List.mem_cons_of_mem a hk, rfl⟩
  rintro (_ | ⟨t, j⟩) i
  · exact .inr rfl
  · dsimp only
    split_ifs
    · exact .inr rfl
    · exact .inl rfl

theorem dequeue_ok (threads : List Thread) (r : SRTFQueue) (t : Int) (h : r.queue ≠ []) :
    ∃ k threads' r', dequeue threads r t = .ok (k, threads', r') ∧
      r.queue.Perm (k :: r'.queue) ∧ SameRun threads threads' := by
  obtain ⟨a, l, hq⟩ := List.exists_cons_of_ne_nil h
  obtain ⟨k, hk, hs⟩ := shortest_cons threads a l
  rw [← hq] at hk hs
  exact ⟨k, _, _, by rw [dequeue, hs]; rfl, List.perm_cons_erase hk, SameRun.refl threads⟩

instance : LawfulSched SRTFQueue where
  contents r := r.queue
  requeues_enqueue threads r k t := FIFOQueue.requeues_enqueue threads r.toFIFOQueue k t
  empty_iff r := by
    show (r.queue.length == 0) = true ↔ _
    simp
  contents_new := rfl
  dequeue_ok := dequeue_ok

end SRTFQueue

namespace TwoLevelFeedbackQueue

/-- Both deques, the interactive one first. -/
def contents (r : TwoLevelFeedbackQueue) : List Nat := r.queue ++ r.cpuQueue

theorem requeues_enqueue : Requeues contents enqueue := fun threads _ k _ =>
  ⟨List.Perm.refl _, sameRun_modify threads k fun _ => rfl⟩

theorem requeues_enqueueCpu : Requeues contents enqueueCpu := fun threads _ k _ =>
  ⟨List.perm_middle, sameRun_modify threads k fun _ => rfl⟩

instance : LawfulReady TwoLevelFeedbackQueue where
  contents := contents
  requeues_enqueue := requeues_enqueue
  empty_iff r := by
    show (r.queue.isEmpty && r.cpuQueue.isEmpty) = true ↔ _
    simp [contents]

/-- `dequeue` takes a thread of a nonempty queue, with one of its two quanta, and keeps them. -/
theorem dequeue_ok (threads : List Thread) (r : TwoLevelFeedbackQueue) (t : Int)
    (h : contents r ≠ []) :
    ∃ k quanta threads' r', dequeue threads r t = .ok (k, quanta, threads', r') ∧
      (contents r).Perm (k :: contents r') ∧ SameRun threads threads' ∧
      (quanta = r.q ∨ quanta = r.qCpu) ∧ r'.q = r.q ∧ r'.qCpu = r.qCpu := by
  have hrun : ∀ k : Nat, SameRun threads (threads.modify k fun th =>
      { th with waitTime := th.waitTime + (t - th.lastQueued) }) :=
    fun k => sameRun_modify threads k fun _ => rfl
  by_cases hq : r.queue = []
  · obtain ⟨k, hk, hperm⟩ := exists_last (l := r.cpuQueue) (by simpa [contents, hq] using h)
    refine ⟨k, r.qCpu, _, { r with cpuQueue := r.cpuQueue.dropLast }, ?_, ?_, hrun k,
      .inr rfl, rfl, rfl⟩
    · simp [dequeue, hq, hk, bind, Except.bind, pure, Except.pure]
    · simpa [contents, hq] using hperm
  · obtain ⟨k, hk, hperm⟩ := exists_last hq
    have hlen : r.queue.length ≠ 0 := mt List.length_eq_zero_iff.mp hq
    refine ⟨k, r.q, _, { r with queue := r.queue.dropLast }, ?_, ?_, hrun k, .inl rfl, rfl, rfl⟩
    · simp [dequeue, hlen, hk, bind, Except.bind, pure, Except.pure]
    · exact hperm.append_right r.cpuQueue
end TwoLevelFeedbackQueue

/-! ## The log -/

@[simp] theorem runEntries_append (a b : List LogEntry) :
    runEntries (a ++ b) = runEntries a ++ runEntries b := List.filterMap_append

@[simp] theorem ioEntries_append (a b : List LogEntry) :
    ioEntries (a ++ b) = ioEntries a ++ ioEntries b := List.filterMap_append

@[simp] theorem idleEntries_append (a b : List LogEntry) :
    idleEntries (a ++ b) = idleEntries a ++ idleEntries b := List.filterMap_append

/-- Log entries that are neither runs, nor I/O waits, nor idles: what `_arrivals` writes. -/
def Quiet (log : List LogEntry) : Prop :=
  runEntries log = [] ∧ ioEntries log = [] ∧ idleEntries log = []

theorem Quiet.nil : Quiet [] := ⟨rfl, rfl, rfl⟩

theorem Quiet.append {a b : List LogEntry} (ha : Quiet a) (hb : Quiet b) : Quiet (a ++ b) := by
  simp only [Quiet, runEntries_append, ioEntries_append, idleEntries_append, ha.1, ha.2.1,
    ha.2.2, hb.1, hb.2.1, hb.2.2, List.append_nil, and_self]

theorem Quiet.arrive (t : Int) (T : Task) (n : Nat) : Quiet [.arrive t T n] := ⟨rfl, rfl, rfl⟩

theorem Quiet.wakeup (t : Int) (T : Task) (n : Nat) : Quiet [.wakeup t T n] := ⟨rfl, rfl, rfl⟩

/-! ## The machine's operations -/

namespace Machine

variable {Q : Type} [ReadyQueue Q]

theorem arrive_eq (m : Machine Q) (th : Thread) : arrive m th =
    { m with
      threads := (ReadyQueue.enqueue (m.threads ++ [th]) m.ready m.threads.length th.task.arrivalTime).1
      ready := (ReadyQueue.enqueue (m.threads ++ [th]) m.ready m.threads.length th.task.arrivalTime).2
      log := m.log ++ [.arrive th.task.arrivalTime th.task (ReadyQueue.len
        (ReadyQueue.enqueue (m.threads ++ [th]) m.ready m.threads.length th.task.arrivalTime).2)] } :=
  rfl

theorem wake_of_le {m : Machine Q} {k : Nat} (h : (threadAt m.threads k).wakeupTime ≤ m.time) :
    wake m k =
      { m with
        threads := (ReadyQueue.enqueue m.threads m.ready k (threadAt m.threads k).wakeupTime).1
        ready := (ReadyQueue.enqueue m.threads m.ready k (threadAt m.threads k).wakeupTime).2
        io := m.io.erase k
        log := m.log ++ [.wakeup (threadAt m.threads k).wakeupTime (threadAt m.threads k).task
          (ReadyQueue.len (ReadyQueue.enqueue m.threads m.ready k
            (threadAt m.threads k).wakeupTime).2)] } := by
  rw [wake, if_pos h]

theorem wake_of_lt {m : Machine Q} {k : Nat} (h : m.time < (threadAt m.threads k).wakeupTime) :
    wake m k = m := by
  rw [wake, if_neg (not_le.mpr h)]

/-- The units of work left: the time left of every thread and of every task still to arrive. -/
def work (m : Machine Q) : Nat :=
  (m.threads.map fun th => th.remaining.toNat).sum + (m.future.map fun T => T.totalRunTime.toNat).sum

/-- A bound on the rounds left, as `simFuel` counts them: two per unit of work, one per thread
in I/O wait and one per task still to arrive. -/
def rounds (m : Machine Q) : Nat := 2 * m.work + m.io.length + m.future.length

variable [LawfulReady Q]

open LawfulReady (contents)

/-- The loop over `enter_tasks` appends the new threads and puts their indices in the ready
queue. Induction on the threads. -/
theorem foldl_arrive : ∀ (ths : List Thread) (m : Machine Q), ∃ quiet,
    (ths.foldl arrive m).time = m.time ∧ (ths.foldl arrive m).io = m.io ∧
    (ths.foldl arrive m).future = m.future ∧ (ths.foldl arrive m).log = m.log ++ quiet ∧
    Quiet quiet ∧ SameRun (m.threads ++ ths) (ths.foldl arrive m).threads ∧
    (contents (ths.foldl arrive m).ready).Perm
      (List.range' m.threads.length ths.length ++ contents m.ready)
  | [], m => ⟨[], rfl, rfl, rfl, (List.append_nil _).symm, Quiet.nil,
      by rw [List.append_nil]; exact SameRun.refl _, List.Perm.refl _⟩
  | th :: ths, m => by
    obtain ⟨hperm, hrun⟩ := LawfulReady.requeues_enqueue (m.threads ++ [th]) m.ready
      m.threads.length th.task.arrivalTime
    obtain ⟨quiet, htime, hio, hfuture, hlog, hquiet, hrun', hperm'⟩ :=
      foldl_arrive ths (arrive m th)
    have hlen : (arrive m th).threads.length = m.threads.length + 1 := by
      rw [arrive_eq, ← hrun.length, List.length_append, List.length_singleton]
    refine ⟨_ ++ quiet, htime, hio, hfuture, by rw [List.foldl_cons, hlog, arrive_eq,
      List.append_assoc], (Quiet.arrive _ _ _).append hquiet, ?_, ?_⟩
    · have := hrun.append ths
      rw [List.append_assoc, List.singleton_append] at this
      exact this.trans hrun'
    · rw [List.foldl_cons]
      refine hperm'.trans ?_
      rw [hlen, List.length_cons, List.range'_succ]
      exact (hperm.append_left _).trans List.perm_middle

/-- The loop over `self.io.copy ()` moves the threads whose I/O is over from the I/O list to
the ready queue. Induction on the rest `L` of the copy, with the threads `A` kept so far. -/
theorem foldl_wake : ∀ (L A : List Nat) (m : Machine Q), m.io = A ++ L → (A ++ L).Nodup →
    ∃ quiet, (L.foldl wake m).time = m.time ∧ (L.foldl wake m).future = m.future ∧
      (L.foldl wake m).log = m.log ++ quiet ∧ Quiet quiet ∧
      SameRun m.threads (L.foldl wake m).threads ∧
      (L.foldl wake m).io = A ++ L.filter (fun k => m.time < (threadAt m.threads k).wakeupTime) ∧
      (contents (L.foldl wake m).ready ++ (L.foldl wake m).io).Perm (contents m.ready ++ m.io)
  | [], A, m, hio, _ => ⟨[], rfl, rfl, (List.append_nil _).symm, Quiet.nil, SameRun.refl _,
      by rw [List.filter_nil, List.append_nil, ← List.append_nil A, ← hio]; rfl, List.Perm.refl _⟩
  | k :: L, A, m, hio, hnd => by
    rw [List.foldl_cons]
    by_cases hk : (threadAt m.threads k).wakeupTime ≤ m.time
    · -- the thread's I/O is over: it goes from the I/O list to the ready queue
      obtain ⟨hperm, hrun⟩ := LawfulReady.requeues_enqueue m.threads m.ready k
        (threadAt m.threads k).wakeupTime
      have hkA : k ∉ A := fun h =>
        (List.nodup_cons.mp (List.nodup_middle.mp hnd)).1 (List.mem_append_left L h)
      have hw := wake_of_le hk
      have hio' : (wake m k).io = A ++ L := by
        rw [hw, hio, List.erase_append_right _ hkA, List.erase_cons_head]
      obtain ⟨quiet, htime, hfuture, hlog, hquiet, hrun', hio'', hperm'⟩ :=
        foldl_wake L A (wake m k) hio' (hnd.sublist ((List.sublist_cons_self k L).append_left A))
      have hrun₁ : SameRun m.threads (wake m k).threads := by rw [hw]; exact hrun
      have htime₁ : (wake m k).time = m.time := by rw [hw]
      refine ⟨_ ++ quiet, htime.trans htime₁, hfuture.trans (by rw [hw]),
        by rw [hlog, hw, List.append_assoc], (Quiet.wakeup _ _ _).append hquiet, hrun₁.trans hrun',
        ?_, ?_⟩
      · rw [hio'', List.filter_cons_of_neg (by simpa using hk)]
        congr 1
        exact List.filter_congr fun j _ => by rw [htime₁, hrun₁.wakeupTime j]
      · refine hperm'.trans ?_
        rw [hio', hio, hw]
        calc List.Perm (contents (ReadyQueue.enqueue m.threads m.ready k
                (threadAt m.threads k).wakeupTime).2 ++ (A ++ L))
              ((k :: contents m.ready) ++ (A ++ L)) := hperm.append_right _
          _ = k :: ((contents m.ready ++ A) ++ L) := by simp
          List.Perm _ ((contents m.ready ++ A) ++ k :: L) := List.perm_middle.symm
          _ = contents m.ready ++ (A ++ k :: L) := by simp
    · -- the thread stays in the I/O list
      have hw := wake_of_lt (not_le.mp hk)
      rw [hw]
      obtain ⟨quiet, htime, hfuture, hlog, hquiet, hrun, hio', hperm⟩ :=
        foldl_wake L (A ++ [k]) m (by rw [hio, List.append_assoc, List.singleton_append])
          (by rwa [List.append_assoc, List.singleton_append])
      refine ⟨quiet, htime, hfuture, hlog, hquiet, hrun, ?_, hperm⟩
      rw [hio', List.filter_cons_of_pos (by simpa using hk), List.append_assoc,
        List.singleton_append]

/-- The threads that `enter_tasks` takes out of `future` at time `t`. -/
def entering (future : List Task) (t : Int) : List Task := future.filter fun T => T.arrivalTime ≤ t

/-- A fold of `min` stays below its start and every value it takes the minimum with. Induction
on the list. -/
theorem foldl_min_le {f : Nat → Int} : ∀ (l : List Nat) (a : Int),
    l.foldl (fun w j => min w (f j)) a ≤ a ∧ ∀ j ∈ l, l.foldl (fun w j => min w (f j)) a ≤ f j
  | [], a => ⟨le_refl a, by simp⟩
  | j :: l, a => by
    obtain ⟨h1, h2⟩ := foldl_min_le l (min a (f j))
    rw [List.foldl_cons]
    refine ⟨h1.trans (min_le_left _ _), fun i hi => ?_⟩
    rcases List.mem_cons.mp hi with rfl | hi
    · exact h1.trans (min_le_right _ _)
    · exact h2 i hi

omit [ReadyQueue Q] [LawfulReady Q] in
/-- `min ([t.wakeup_time for t in self.io])` is the wake-up time of a thread in I/O wait, and
no later than any of them. -/
theorem minWakeup_spec (m : Machine Q) (i : Nat) (rest : List Nat) :
    (∀ j ∈ i :: rest, m.minWakeup i rest ≤ (threadAt m.threads j).wakeupTime) ∧
      ∃ j ∈ i :: rest, m.minWakeup i rest = (threadAt m.threads j).wakeupTime := by
  obtain ⟨h1, h2⟩ := foldl_min_le (f := fun j => (threadAt m.threads j).wakeupTime) rest
    (threadAt m.threads i).wakeupTime
  refine ⟨fun j hj => ?_, ?_⟩
  · rcases List.mem_cons.mp hj with rfl | hj
    · exact h1
    · exact h2 j hj
  · refine foldl_keep_or_replace (fun j => (threadAt m.threads j).wakeupTime)
      (fun x => ∃ j ∈ i :: rest, x = (threadAt m.threads j).wakeupTime)
      (fun b a => min_choice b _) rest _ ⟨i, List.mem_cons_self, rfl⟩
      fun j hj => ⟨j, List.mem_cons_of_mem i hj, rfl⟩

/-- What `_arrivals` does to a machine `m`, with `a` the machine after it. -/
structure Arrived (m a : Machine Q) : Prop where
  time : a.time = m.time
  future : a.future = m.future.filter fun T => ¬T.arrivalTime ≤ m.time
  log : ∃ quiet, a.log = m.log ++ quiet ∧ Quiet quiet
  threads : SameRun (m.threads ++ (entering m.future m.time).map Thread.new) a.threads
  io : a.io = m.io.filter fun k => m.time < (threadAt m.threads k).wakeupTime
  perm : (contents a.ready ++ a.io).Perm
    (List.range' m.threads.length (entering m.future m.time).length ++ contents m.ready ++ m.io)

/-- `_arrivals` as the two loops do it, for an I/O list of distinct threads. -/
theorem arrivals_spec (m : Machine Q) (hnd : m.io.Nodup)
    (hlt : ∀ k ∈ m.io, k < m.threads.length) : Arrived m (arrivals m) := by
  obtain ⟨q₁, ht₁, hio₁, hf₁, hlog₁, hq₁, hrun₁, hperm₁⟩ :=
    foldl_arrive ((entering m.future m.time).map Thread.new)
      { m with future := m.future.filter fun T => ¬T.arrivalTime ≤ m.time }
  generalize hs : ((entering m.future m.time).map Thread.new).foldl arrive
    { m with future := m.future.filter fun T => ¬T.arrivalTime ≤ m.time } = s at *
  have ha : arrivals m = s.io.foldl wake s := by rw [← hs]; rfl
  replace hio₁ : s.io = m.io := hio₁
  rw [hio₁] at ha
  obtain ⟨q₂, ht₂, hf₂, hlog₂, hq₂, hrun₂, hio₂, hperm₂⟩ :=
    foldl_wake m.io [] s (by rw [hio₁, List.nil_append]) (by rwa [List.nil_append])
  rw [ha]
  refine ⟨ht₂.trans ht₁, hf₂.trans hf₁, ⟨q₁ ++ q₂, by rw [hlog₂, hlog₁, List.append_assoc],
    hq₁.append hq₂⟩, hrun₁.trans hrun₂, ?_, ?_⟩
  · rw [hio₂, List.nil_append]
    refine List.filter_congr fun k hk => ?_
    rw [ht₁, ← hrun₁.wakeupTime k, threadAt_append_left (hlt k hk)]
  · rw [List.length_map] at hperm₁
    refine hperm₂.trans ?_
    rw [hio₁]
    exact hperm₁.append_right m.io

namespace Arrived

variable {m a : Machine Q} (h : Arrived m a)
include h

theorem length : a.threads.length = m.threads.length + (entering m.future m.time).length := by
  rw [← h.threads.length, List.length_append, List.length_map]

theorem runEntries : runEntries a.log = runEntries m.log := by
  obtain ⟨quiet, hlog, hq⟩ := h.log
  rw [hlog, runEntries_append, hq.1, List.append_nil]

theorem ioEntries : ioEntries a.log = ioEntries m.log := by
  obtain ⟨quiet, hlog, hq⟩ := h.log
  rw [hlog, ioEntries_append, hq.2.1, List.append_nil]

theorem idleEntries : idleEntries a.log = idleEntries m.log := by
  obtain ⟨quiet, hlog, hq⟩ := h.log
  rw [hlog, idleEntries_append, hq.2.2, List.append_nil]

/-- A thread that was there keeps its core. -/
theorem core_old {k : Nat} (hk : k < m.threads.length) :
    (threadAt a.threads k).core = (threadAt m.threads k).core := by
  rw [← h.threads.core k, threadAt_append_left hk]

/-- The `i`-th new thread is the `i`-th task that entered, not yet run. -/
theorem core_new {i : Nat} (hi : i < (entering m.future m.time).length) :
    (threadAt a.threads (m.threads.length + i)).core =
      (Thread.new (entering m.future m.time)[i]).core := by
  rw [← h.threads.core, threadAt_append_length]
  simp [threadAt, List.getD_eq_getElem?_getD, hi]

/-- An index of the machine after is a thread that was there, or a thread that entered. -/
theorem cases {k : Nat} (hk : k < a.threads.length) :
    (k < m.threads.length ∧ (threadAt a.threads k).core = (threadAt m.threads k).core) ∨
      (m.threads.length ≤ k ∧ ∃ T ∈ m.future, T.arrivalTime ≤ m.time ∧
        (threadAt a.threads k).core = (Thread.new T).core) := by
  by_cases hlt : k < m.threads.length
  · exact .inl ⟨hlt, h.core_old hlt⟩
  · have hi : k - m.threads.length < (entering m.future m.time).length := by
      have := h.length; omega
    have hT := List.mem_filter.mp (List.getElem_mem hi)
    refine .inr ⟨by omega, _, hT.1, by simpa using hT.2, ?_⟩
    rw [← h.core_new hi, Nat.add_sub_cancel' (by omega)]

theorem mem_queued {k : Nat} : k ∈ contents a.ready ++ a.io ↔
    (m.threads.length ≤ k ∧ k < a.threads.length) ∨ k ∈ contents m.ready ++ m.io := by
  rw [h.perm.mem_iff, List.append_assoc, List.mem_append, List.mem_range'_1, h.length]

/-- `_arrivals` moves work from the tasks to the threads. -/
theorem work_eq : a.work = m.work := by
  have hrun := SameRun.map_eq (fun th => th.remaining.toNat)
    (fun x y hc => by rw [Thread.remaining_of_core hc]) h.threads
  have hsplit := List.filter_append_perm (fun T : Task => decide (T.arrivalTime ≤ m.time)) m.future
  simp only [decide_not.symm] at hsplit
  rw [work, work, ← hrun, h.future, List.map_append, List.sum_append, add_assoc,
    ← (hsplit.map fun T => T.totalRunTime.toNat).sum_eq, List.map_append, List.sum_append]
  simp [entering, Thread.remaining, Thread.new, Function.comp_def]

/-- `_arrivals` takes out of the I/O list and the tasks still to arrive, and strictly if a task
arrives or an I/O is over by now. -/
theorem rounds_le : a.rounds ≤ m.rounds := by
  rw [rounds, rounds, h.work_eq, h.io, h.future]
  have := List.length_filter_le (fun k => decide (m.time < (threadAt m.threads k).wakeupTime)) m.io
  have := List.length_filter_le (fun T : Task => decide ¬T.arrivalTime ≤ m.time) m.future
  omega

theorem rounds_lt (hdue : (∃ T ∈ m.future, T.arrivalTime ≤ m.time) ∨
    ∃ k ∈ m.io, (threadAt m.threads k).wakeupTime ≤ m.time) : a.rounds < m.rounds := by
  rw [rounds, rounds, h.work_eq, h.io, h.future]
  have := List.length_filter_le (fun k => decide (m.time < (threadAt m.threads k).wakeupTime)) m.io
  have := List.length_filter_le (fun T : Task => decide ¬T.arrivalTime ≤ m.time) m.future
  rcases hdue with ⟨T, hT, hle⟩ | ⟨k, hk, hle⟩
  · have := (List.length_filter_lt_length_iff_exists
      (p := fun T : Task => decide ¬T.arrivalTime ≤ m.time)).mpr ⟨T, hT, by simpa using hle⟩
    omega
  · have := (List.length_filter_lt_length_iff_exists
      (p := fun k => decide (m.time < (threadAt m.threads k).wakeupTime))).mpr
        ⟨k, hk, by simpa using hle⟩
    omega

end Arrived

omit [LawfulReady Q] in
/-- `_arrivals` only enqueues, so it keeps whatever `enqueue` keeps of the ready queue.
Induction on the two loops. -/
theorem arrivals_ready (P : Q → Prop)
    (hP : ∀ threads r k t, P r → P (ReadyQueue.enqueue threads r k t).2) {m : Machine Q}
    (hm : P m.ready) : P m.arrivals.ready := by
  have harrive : ∀ (ths : List Thread) (s : Machine Q), P s.ready → P (ths.foldl arrive s).ready := by
    intro ths
    induction ths with
    | nil => exact fun _ hs => hs
    | cons th ths ih => exact fun s hs => ih _ (hP _ _ _ _ hs)
  have hwake : ∀ (L : List Nat) (s : Machine Q), P s.ready → P (L.foldl wake s).ready := by
    intro L
    induction L with
    | nil => exact fun _ hs => hs
    | cons k L ih =>
      intro s hs
      refine ih _ ?_
      by_cases hk : (threadAt s.threads k).wakeupTime ≤ s.time
      · rw [wake_of_le hk]; exact hP _ _ _ _ hs
      · rw [wake_of_lt (not_le.mp hk)]; exact hs
  exact hwake _ _ (harrive _ _ hm)

omit [LawfulReady Q] in
/-- `idle ()` only enqueues, so it keeps whatever `enqueue` keeps of the ready queue. -/
theorem idle_ready (P : Q → Prop)
    (hP : ∀ threads r k t, P r → P (ReadyQueue.enqueue threads r k t).2) {m m' : Machine Q}
    (h : m.idle = .ok m') (hm : P m.ready) : P m'.ready := by
  unfold Machine.idle at h
  split at h
  · split at h
    · cases h
    · split at h
      · cases h; exact arrivals_ready P hP hm
      · cases h; exact hm
  · cases h; exact hm

end Machine

end Pintos.Schedlab
