import Pintos.Schedlab.Operations

/-!
The `schedlab` simulator conserves work and terminates. `Machine.Inv` is the invariant of a run:
the threads and the tasks still to arrive are the workload, the queues and the I/O list hold
exactly the threads with work left, and the log so far shows runs that never overlap, each
after its task's arrival and outside its I/O waits, that add up to the time the threads ran,
and idle intervals in which no task was ready. Every operation keeps it, `scheduler` and
`mlfq2` run within their fuel because each round lowers `Machine.rounds`, and a machine that
stops shows `Conserves`.

* `simulator_conserves_work`: for every workload, `fcfs`, `round_robin`, `srtf` and `mlfq2`
  end, and their log and threads show `Conserves`.
-/

namespace Pintos.Schedlab

/-! ## What a run keeps -/

/-- How long the task numbered `n` ran, by the `'run'` entries `runs`. -/
def runTimeOf (runs : List (Int × Task × Int)) (n : Nat) : Int :=
  ((runs.filter fun r => r.2.1.task = n).map fun r => r.2.2).sum

@[simp] theorem runTimeOf_nil (n : Nat) : runTimeOf [] n = 0 := rfl

@[simp] theorem runTimeOf_append (a b : List (Int × Task × Int)) (n : Nat) :
    runTimeOf (a ++ b) n = runTimeOf a n + runTimeOf b n := by
  simp [runTimeOf, List.filter_append]

@[simp] theorem runTimeOf_singleton (r : Int × Task × Int) (n : Nat) :
    runTimeOf [r] n = if r.2.1.task = n then r.2.2 else 0 := by
  by_cases h : r.2.1.task = n <;> simp [runTimeOf, h]

/-- A task that has no `'run'` entry has run for no time. -/
theorem runTimeOf_eq_zero {runs : List (Int × Task × Int)} {n : Nat}
    (h : ∀ r ∈ runs, r.2.1.task ≠ n) : runTimeOf runs n = 0 := by
  rw [runTimeOf, List.filter_eq_nil_iff.mpr fun r hr => by simpa using h r hr, List.map_nil,
    List.sum_nil]

/-- While the machine idles over `e` (start and duration), task `T` is not ready: it has not
arrived, or it waits for I/O all through `e`, or it ran all its time before `e`. -/
def IdleOk (log : List LogEntry) (e : Int × Int) (T : Task) : Prop :=
  e.1 + e.2 ≤ T.arrivalTime ∨
    (∃ w ∈ ioEntries log, w.2.1.task = T.task ∧ w.1 ≤ e.1 ∧ e.1 + e.2 ≤ w.1 + w.2.2) ∨
    runTimeOf ((runEntries log).filter fun r => r.1 < e.1) T.task = T.totalRunTime

/-- What holds of an idle interval stays true as the log grows by entries from its start on. -/
theorem IdleOk.mono {log log' : List LogEntry} {e : Int × Int} {T : Task} (h : IdleOk log e T)
    (rs : List (Int × Task × Int)) (hrun : runEntries log' = runEntries log ++ rs)
    (hrs : ∀ r ∈ rs, e.1 ≤ r.1) (hio : ∀ w ∈ ioEntries log, w ∈ ioEntries log') :
    IdleOk log' e T := by
  rcases h with h | ⟨w, hw, h⟩ | h
  · exact .inl h
  · exact .inr (.inl ⟨w, hio w hw, h⟩)
  · refine .inr (.inr ?_)
    have hnil : rs.filter (fun r => r.1 < e.1) = [] :=
      List.filter_eq_nil_iff.mpr fun r hr => by simpa using hrs r hr
    rw [hrun, List.filter_append, hnil, List.append_nil, h]

/-- What holds of an idle interval depends only on the runs and the I/O waits of the log. -/
theorem IdleOk.of_entries {log log' : List LogEntry} {e : Int × Int} {T : Task}
    (h : IdleOk log e T) (hrun : runEntries log' = runEntries log)
    (hio : ioEntries log' = ioEntries log) : IdleOk log' e T :=
  h.mono [] (by rw [hrun, List.append_nil]) (by simp) (by rw [hio]; exact fun w hw => hw)

/-- The workloads of the simulator: every task runs for at least one unit, its CPU bursts are
not negative, and no task is in it twice: `Task.__init__` numbers every new task from the class
counter `task_number`, so distinct tasks have distinct numbers. -/
structure Workload (tasks : List Task) : Prop where
  total_pos : ∀ T ∈ tasks, 1 ≤ T.totalRunTime
  burst_nonneg : ∀ T ∈ tasks, ∀ x, 0 ≤ T.cpuBurst x
  distinct : (tasks.map Task.task).Nodup

/-- What a finished simulation of `tasks` shows, by its log and its threads. -/
structure Conserves (tasks : List Task) (log : List LogEntry) (threads : List Thread) : Prop where
  threads_perm : (threads.map Thread.task).Perm tasks
  finished : ∀ th ∈ threads, th.elapsedTime = th.task.totalRunTime
  runs_positive : ∀ r ∈ runEntries log, 0 < r.2.2
  runs_disjoint : (runEntries log).Pairwise fun a b => a.1 + a.2.2 ≤ b.1
  runs_total : ((runEntries log).map fun r => r.2.2).sum = (tasks.map Task.totalRunTime).sum
  after_arrival : ∀ r ∈ runEntries log, r.2.1.arrivalTime ≤ r.1
  not_in_io : ∀ r ∈ runEntries log, ∀ w ∈ ioEntries log, r.2.1.task = w.2.1.task →
    r.1 + r.2.2 ≤ w.1 ∨ w.1 + w.2.2 ≤ r.1
  idle_empty : ∀ e ∈ idleEntries log, ∀ T ∈ tasks, IdleOk log e T

namespace Machine

variable {Q : Type} [ReadyQueue Q] [LawfulReady Q]

open LawfulReady (contents)

/-- The invariant of a simulation of `tasks`, with the threads `held` taken out of the queues
by a dispatch that is not over. -/
structure Inv (tasks : List Task) (held : List Nat) (m : Machine Q) : Prop where
  time_nonneg : 0 ≤ m.time
  perm : (m.threads.map Thread.task ++ m.future).Perm tasks
  future_sorted : m.future.Pairwise ArrivesBy
  arrived : ∀ k < m.threads.length, (threadAt m.threads k).task.arrivalTime ≤ m.time
  nodup : (contents m.ready ++ m.io ++ held).Nodup
  lt_length : ∀ k ∈ contents m.ready ++ m.io ++ held, k < m.threads.length
  queued_pos : ∀ k ∈ contents m.ready ++ m.io, 0 < (threadAt m.threads k).remaining
  pos_queued : ∀ k < m.threads.length, 0 < (threadAt m.threads k).remaining →
    k ∈ contents m.ready ++ m.io ++ held
  remaining_nonneg : ∀ k < m.threads.length, 0 ≤ (threadAt m.threads k).remaining
  burst_nonneg : ∀ k < m.threads.length, 0 ≤ (threadAt m.threads k).remainingBurst
  runs_positive : ∀ r ∈ runEntries m.log, 0 < r.2.2
  runs_disjoint : (runEntries m.log).Pairwise fun a b => a.1 + a.2.2 ≤ b.1
  runs_before : ∀ r ∈ runEntries m.log, r.1 + r.2.2 ≤ m.time
  after_arrival : ∀ r ∈ runEntries m.log, r.2.1.arrivalTime ≤ r.1
  runs_thread : ∀ k < m.threads.length,
    runTimeOf (runEntries m.log) (threadAt m.threads k).task.task = (threadAt m.threads k).elapsedTime
  runs_future : ∀ T ∈ m.future, ∀ r ∈ runEntries m.log, r.2.1.task ≠ T.task
  runs_total : ((runEntries m.log).map fun r => r.2.2).sum = (m.threads.map Thread.elapsedTime).sum
  not_in_io : ∀ r ∈ runEntries m.log, ∀ w ∈ ioEntries m.log, r.2.1.task = w.2.1.task →
    r.1 + r.2.2 ≤ w.1 ∨ w.1 + w.2.2 ≤ r.1
  io_closed : ∀ w ∈ ioEntries m.log, w.1 + w.2.2 ≤ m.time ∨ ∃ k ∈ m.io,
    (threadAt m.threads k).task.task = w.2.1.task ∧ w.1 + w.2.2 = (threadAt m.threads k).wakeupTime
  io_open : ∀ k ∈ m.io, ∃ w ∈ ioEntries m.log, w.2.1.task = (threadAt m.threads k).task.task ∧
    w.1 ≤ m.time ∧ w.1 + w.2.2 = (threadAt m.threads k).wakeupTime
  idle_before : ∀ e ∈ idleEntries m.log, e.1 ≤ m.time
  idle_ok : ∀ e ∈ idleEntries m.log, ∀ T ∈ tasks, IdleOk m.log e T

/-- What `_arrivals` leaves: nothing still to arrive by now, nothing whose I/O is over. -/
structure Ahead (m : Machine Q) : Prop where
  future : ∀ T ∈ m.future, m.time < T.arrivalTime
  io : ∀ k ∈ m.io, m.time < (threadAt m.threads k).wakeupTime

omit [ReadyQueue Q] [LawfulReady Q] in
theorem Ahead.sameRun {m : Machine Q} (h : Ahead m) {threads : List Thread}
    (hrun : SameRun m.threads threads) (ready : Q) :
    Ahead { m with threads := threads, ready := ready } :=
  ⟨h.future, fun j hj => by
    show m.time < _
    rw [← hrun.wakeupTime j]; exact h.io j hj⟩

namespace Inv

variable {tasks : List Task} {held : List Nat} {m : Machine Q}

theorem io_nodup (h : Inv tasks held m) : m.io.Nodup :=
  h.nodup.sublist ((List.sublist_append_right _ m.io).trans (List.sublist_append_left _ held))

theorem io_lt (h : Inv tasks held m) : ∀ k ∈ m.io, k < m.threads.length :=
  fun k hk => h.lt_length k (List.mem_append_left _ (List.mem_append_right _ hk))

theorem task_mem (h : Inv tasks held m) {k : Nat} (hk : k < m.threads.length) :
    (threadAt m.threads k).task ∈ tasks := by
  refine h.perm.subset (List.mem_append_left _ (List.mem_map.mpr ⟨_, ?_, rfl⟩))
  rw [threadAt_eq_getElem hk]
  exact List.getElem_mem hk

theorem future_mem (h : Inv tasks held m) {T : Task} (hT : T ∈ m.future) : T ∈ tasks :=
  h.perm.subset (List.mem_append_right _ hT)

/-- Distinct tasks: no two threads run the same task, and no thread a task still to arrive. -/
theorem distinct (hw : Workload tasks) (h : Inv tasks held m) :
    ((m.threads.map Thread.task ++ m.future).map Task.task).Nodup :=
  hw.distinct.perm (h.perm.map Task.task).symm

theorem task_ne (hw : Workload tasks) (h : Inv tasks held m) {j k : Nat}
    (hj : j < m.threads.length) (hk : k < m.threads.length) (hjk : j ≠ k) :
    (threadAt m.threads j).task.task ≠ (threadAt m.threads k).task.task := by
  have hnd := (List.nodup_append.mp (List.map_append (f := Task.task) ▸ h.distinct hw)).1
  rw [List.map_map] at hnd
  intro heq
  refine hjk ((@List.Nodup.getElem_inj_iff _ _ hnd j (by simpa using hj) k (by simpa using hk)).mp ?_)
  simpa [threadAt_eq_getElem hj, threadAt_eq_getElem hk] using heq

theorem task_ne_future (hw : Workload tasks) (h : Inv tasks held m) {k : Nat}
    (hk : k < m.threads.length) {T : Task} (hT : T ∈ m.future) :
    (threadAt m.threads k).task.task ≠ T.task := by
  have hnd := List.map_append (f := Task.task) ▸ h.distinct hw
  refine (List.nodup_append.mp hnd).2.2 _ ?_ _ (List.mem_map_of_mem hT)
  rw [List.map_map]
  exact List.mem_map.mpr ⟨_, List.getElem_mem hk, by simp [threadAt_eq_getElem hk]⟩

/-- `_arrivals` keeps the invariant, and leaves nothing to arrive or to wake by now. -/
theorem arrivals (hw : Workload tasks) (h : Inv tasks held m) :
    Inv tasks held m.arrivals ∧ Ahead m.arrivals := by
  have A := arrivals_spec m h.io_nodup h.io_lt
  have hr := A.runEntries
  have hio := A.ioEntries
  have hlen := A.length
  -- a thread that entered has its whole run time left, and one that was there is unchanged
  have hnew : ∀ {T : Task}, T ∈ m.future → 0 < (Thread.new T).remaining := fun hT => by
    have := hw.total_pos _ (h.future_mem hT)
    simp only [Thread.remaining, Thread.new]; omega
  have hheld : ∀ k ∈ held, k < m.threads.length := fun k hk =>
    h.lt_length k (List.mem_append_right _ hk)
  refine ⟨?_, ?_⟩
  · constructor
    case time_nonneg => rw [A.time]; exact h.time_nonneg
    case perm =>
      rw [← A.threads.map_task, A.future, List.map_append, List.map_map, List.append_assoc]
      refine List.Perm.trans ?_ h.perm
      refine List.Perm.append_left _ ?_
      have := List.filter_append_perm (fun T : Task => decide (T.arrivalTime ≤ m.time)) m.future
      simpa only [entering, Function.comp_def, Thread.new, List.map_id', decide_not] using this
    case future_sorted => rw [A.future]; exact h.future_sorted.filter _
    case arrived =>
      intro k hk
      rw [A.time]
      rcases A.cases hk with ⟨hk, hc⟩ | ⟨-, T, -, hT, hc⟩
      · rw [(Thread.core_eq_iff.mp hc).1]; exact h.arrived k hk
      · rw [(Thread.core_eq_iff.mp hc).1]; exact hT
    case nodup =>
      refine (A.perm.append_right held).nodup_iff.mpr ?_
      rw [List.append_assoc, List.append_assoc, List.nodup_append]
      refine ⟨List.nodup_range', by simpa only [List.append_assoc] using h.nodup, ?_⟩
      intro x hx y hy
      have := h.lt_length y (by simpa only [List.append_assoc] using hy)
      rw [List.mem_range'_1] at hx
      omega
    case lt_length =>
      intro k hk
      rcases List.mem_append.mp hk with hk | hk
      · rcases A.mem_queued.mp hk with hk | hk
        · exact hk.2
        · have := h.lt_length k (List.mem_append_left _ hk); omega
      · have := hheld k hk; omega
    case queued_pos =>
      intro k hk
      rcases A.mem_queued.mp hk with ⟨hk, hk'⟩ | hk
      · rcases A.cases hk' with ⟨hlt, -⟩ | ⟨-, T, hT, -, hc⟩
        · omega
        · rw [Thread.remaining_of_core hc]; exact hnew hT
      · rw [Thread.remaining_of_core (A.core_old (h.lt_length k (List.mem_append_left _ hk)))]
        exact h.queued_pos k hk
    case pos_queued =>
      intro k hk hpos
      rcases A.cases hk with ⟨hlt, hc⟩ | ⟨hle, -⟩
      · rw [Thread.remaining_of_core hc] at hpos
        rcases List.mem_append.mp (h.pos_queued k hlt hpos) with hq | hq
        · exact List.mem_append_left _ (A.mem_queued.mpr (.inr hq))
        · exact List.mem_append_right _ hq
      · exact List.mem_append_left _ (A.mem_queued.mpr (.inl ⟨hle, hk⟩))
    case remaining_nonneg =>
      intro k hk
      rcases A.cases hk with ⟨hlt, hc⟩ | ⟨-, T, hT, -, hc⟩
      · rw [Thread.remaining_of_core hc]; exact h.remaining_nonneg k hlt
      · rw [Thread.remaining_of_core hc]; exact (hnew hT).le
    case burst_nonneg =>
      intro k hk
      rcases A.cases hk with ⟨hlt, hc⟩ | ⟨-, T, -, -, hc⟩
      · rw [(Thread.core_eq_iff.mp hc).2.2.1]; exact h.burst_nonneg k hlt
      · rw [(Thread.core_eq_iff.mp hc).2.2.1]; exact le_refl 0
    case runs_positive => rw [hr]; exact h.runs_positive
    case runs_disjoint => rw [hr]; exact h.runs_disjoint
    case runs_before => rw [hr, A.time]; exact h.runs_before
    case after_arrival => rw [hr]; exact h.after_arrival
    case runs_thread =>
      intro k hk
      rw [hr]
      rcases A.cases hk with ⟨hlt, hc⟩ | ⟨-, T, hT, -, hc⟩
      · obtain ⟨ht, he, -, -⟩ := Thread.core_eq_iff.mp hc
        rw [ht, he]; exact h.runs_thread k hlt
      · obtain ⟨ht, he, -, -⟩ := Thread.core_eq_iff.mp hc
        rw [ht, he]
        exact runTimeOf_eq_zero (h.runs_future T hT)
    case runs_future =>
      intro T hT
      rw [hr]
      rw [A.future, List.mem_filter] at hT
      exact h.runs_future T hT.1
    case runs_total =>
      rw [hr, h.runs_total, ← A.threads.map_elapsedTime, List.map_append, List.sum_append,
        List.map_map]
      simp [Function.comp_def, Thread.new]
    case not_in_io => rw [hr, hio]; exact h.not_in_io
    case io_closed =>
      intro w hw'
      rw [hio] at hw'
      rw [A.time]
      rcases h.io_closed w hw' with hle | ⟨k, hk, htask, hend⟩
      · exact .inl hle
      · have hc := A.core_old (h.io_lt k hk)
        by_cases hwake : m.time < (threadAt m.threads k).wakeupTime
        · refine .inr ⟨k, ?_, ?_, ?_⟩
          · rw [A.io, List.mem_filter]; exact ⟨hk, by simpa using hwake⟩
          · rw [(Thread.core_eq_iff.mp hc).1]; exact htask
          · rw [(Thread.core_eq_iff.mp hc).2.2.2]; exact hend
        · exact .inl (by omega)
    case io_open =>
      intro k hk
      rw [A.io, List.mem_filter] at hk
      have hc := A.core_old (h.io_lt k hk.1)
      rw [hio, A.time, (Thread.core_eq_iff.mp hc).1, (Thread.core_eq_iff.mp hc).2.2.2]
      exact h.io_open k hk.1
    case idle_before => rw [A.idleEntries, A.time]; exact h.idle_before
    case idle_ok =>
      intro e he T hT
      rw [A.idleEntries] at he
      exact (h.idle_ok e he T hT).of_entries hr hio
  · constructor
    case future =>
      intro T hT
      rw [A.future, List.mem_filter] at hT
      rw [A.time]
      simpa using hT.2
    case io =>
      intro k hk
      rw [A.io, List.mem_filter] at hk
      rw [A.time, (Thread.core_eq_iff.mp (A.core_old (h.io_lt k hk.1))).2.2.2]
      simpa using hk.2

/-- A run of thread `k`, taken out of the ready queue, for `runTime` units: the machine's `run`
logs it at the machine's time and advances the clock by it. Before `_arrivals`, the invariant
holds with `k` held. -/
theorem logRun (hw : Workload tasks) (h : Inv tasks [] m) {k : Nat} {threads₁ : List Thread}
    {ready₁ : Q} (hperm : (contents m.ready).Perm (k :: contents ready₁))
    (hrun : SameRun m.threads threads₁) {runTime : Int} {th : Thread}
    (htask : th.task = (threadAt m.threads k).task)
    (helapsed : th.elapsedTime = (threadAt m.threads k).elapsedTime + runTime)
    (hpos : 0 < runTime) (hle : runTime ≤ (threadAt m.threads k).remaining)
    (hburst : 0 ≤ th.remainingBurst) :
    Inv tasks [k] { m with
      threads := threads₁.set k th
      ready := ready₁
      log := m.log ++ [.run m.time th.task runTime (ReadyQueue.len ready₁)
        (ReadyQueue.weight (threads₁.set k th) ready₁)]
      time := m.time + runTime } := by
  have hklt : k < m.threads.length :=
    h.lt_length k (by simpa using List.mem_append_left m.io (hperm.symm.subset List.mem_cons_self))
  have hlen₁ : threads₁.length = m.threads.length := hrun.length.symm
  -- the thread list after the run: `th` at `k`, every other thread as it was
  have hself : threadAt (threads₁.set k th) k = th := threadAt_set_self (by omega) th
  have hother : ∀ j, j ≠ k → (threadAt (threads₁.set k th) j).core = (threadAt m.threads j).core :=
    fun j hj => by rw [threadAt_set_ne (Ne.symm hj), hrun.core j]
  have hthrem : th.remaining = (threadAt m.threads k).remaining - runTime := by
    simp only [Thread.remaining, htask, helapsed]; ring
  set b : Machine Q := { m with
    threads := threads₁.set k th
    ready := ready₁
    log := m.log ++ [.run m.time th.task runTime (ReadyQueue.len ready₁)
      (ReadyQueue.weight (threads₁.set k th) ready₁)]
    time := m.time + runTime } with hb
  have hrunb : runEntries b.log = runEntries m.log ++ [(m.time, th.task, runTime)] := by
    simp [hb, runEntries]
  have hiob : ioEntries b.log = ioEntries m.log := by simp [hb, ioEntries]
  have hidleb : idleEntries b.log = idleEntries m.log := by simp [hb, idleEntries]
  have hkio : k ∉ m.io := fun hk => by
    have := h.nodup
    simp only [List.append_nil] at this
    exact (List.nodup_append.mp this).2.2 k (hperm.symm.subset List.mem_cons_self) k hk rfl
  have hqperm : (contents ready₁ ++ m.io ++ [k]).Perm (contents m.ready ++ m.io ++ []) := by
    rw [List.append_nil]
    exact (List.perm_append_singleton k _).trans (hperm.append_right m.io).symm
  constructor
  case time_nonneg => have := h.time_nonneg; simp only [hb]; omega
  case perm =>
    simp only [hb]
    rw [map_task_set (by omega) (htask.trans (hrun.task k)), ← hrun.map_task]
    exact h.perm
  case future_sorted => exact h.future_sorted
  case arrived =>
    intro j hj
    simp only [hb] at hj ⊢
    by_cases hjk : j = k
    · subst hjk; rw [hself, htask]; have := h.arrived j hklt; omega
    · rw [(Thread.core_eq_iff.mp (hother j hjk)).1]
      have := h.arrived j (by simpa [hlen₁] using hj); omega
  case nodup => exact hqperm.nodup_iff.mpr h.nodup
  case lt_length =>
    intro j hj
    simp only [hb, List.length_set, hlen₁]
    exact h.lt_length j (hqperm.subset hj)
  case queued_pos =>
    intro j hj
    have hjk : j ≠ k := fun hjk => by
      have := hqperm.nodup_iff.mpr h.nodup
      rw [List.nodup_append] at this
      exact this.2.2 j hj k List.mem_cons_self hjk
    simp only [hb]
    rw [Thread.remaining_of_core (hother j hjk)]
    exact h.queued_pos j (by simpa using hqperm.subset (List.mem_append_left _ hj))
  case pos_queued =>
    intro j hj hjpos
    simp only [hb, List.length_set] at hj hjpos ⊢
    by_cases hjk : j = k
    · subst hjk; simp
    · rw [Thread.remaining_of_core (hother j hjk)] at hjpos
      have hmem := h.pos_queued j (by omega) hjpos
      rw [← hqperm.mem_iff] at hmem
      simpa [hjk] using hmem
  case remaining_nonneg =>
    intro j hj
    simp only [hb, List.length_set] at hj ⊢
    by_cases hjk : j = k
    · subst hjk; rw [hself, hthrem]; omega
    · rw [Thread.remaining_of_core (hother j hjk)]; exact h.remaining_nonneg j (by omega)
  case burst_nonneg =>
    intro j hj
    simp only [hb, List.length_set] at hj ⊢
    by_cases hjk : j = k
    · subst hjk; rw [hself]; exact hburst
    · rw [(Thread.core_eq_iff.mp (hother j hjk)).2.2.1]; exact h.burst_nonneg j (by omega)
  case runs_positive =>
    intro r hr
    rw [hrunb, List.mem_append, List.mem_singleton] at hr
    rcases hr with hr | rfl
    · exact h.runs_positive r hr
    · exact hpos
  case runs_disjoint =>
    rw [hrunb, List.pairwise_append]
    exact ⟨h.runs_disjoint, List.pairwise_singleton _ _, fun r hr _ hr' => by
      rw [List.mem_singleton] at hr'; subst hr'; exact h.runs_before r hr⟩
  case runs_before =>
    rw [hrunb]
    simp only [hb, List.mem_append, List.mem_singleton]
    rintro r (hr | rfl)
    · have := h.runs_before r hr; omega
    · exact le_refl _
  case after_arrival =>
    rw [hrunb]
    simp only [List.mem_append, List.mem_singleton]
    rintro r (hr | rfl)
    · exact h.after_arrival r hr
    · rw [htask]; exact h.arrived k hklt
  case runs_thread =>
    intro j hj
    simp only [hb, List.length_set] at hj ⊢
    rw [hrunb, runTimeOf_append, runTimeOf_singleton]
    by_cases hjk : j = k
    · subst hjk
      rw [hself, htask, if_pos rfl, h.runs_thread j hklt, helapsed]
    · obtain ⟨ht, he, -, -⟩ := Thread.core_eq_iff.mp (hother j hjk)
      rw [ht, he, h.runs_thread j (by omega), if_neg, add_zero]
      rw [htask]
      exact h.task_ne hw hklt (by omega) (Ne.symm hjk)
  case runs_future =>
    intro T hT r hr
    rw [hrunb, List.mem_append, List.mem_singleton] at hr
    rcases hr with hr | rfl
    · exact h.runs_future T hT r hr
    · rw [htask]; exact h.task_ne_future hw hklt hT
  case runs_total =>
    rw [hrunb, List.map_append, List.sum_append, h.runs_total, hrun.map_elapsedTime]
    have := sum_map_set Thread.elapsedTime threads₁ k th (by omega)
    rw [← threadAt_eq_getElem (by omega), helapsed, ← hrun.elapsedTime k] at this
    simp only [hb, List.map_singleton, List.sum_singleton] at this ⊢
    omega
  case not_in_io =>
    intro r hr w hw' hrw
    rw [hrunb, List.mem_append, List.mem_singleton] at hr
    rw [hiob] at hw'
    rcases hr with hr | rfl
    · exact h.not_in_io r hr w hw' hrw
    · refine .inr ?_
      rcases h.io_closed w hw' with hend | ⟨j, hj, hjtask, -⟩
      · exact hend
      · have hjk : j ≠ k := fun hjk => hkio (hjk ▸ hj)
        rw [htask] at hrw
        exact absurd (hjtask.trans hrw.symm) (h.task_ne hw (h.io_lt j hj) hklt hjk)
  case io_closed =>
    intro w hw'
    rw [hiob] at hw'
    simp only [hb]
    rcases h.io_closed w hw' with hend | ⟨j, hj, hjtask, hjend⟩
    · exact .inl (by omega)
    · have hjk : j ≠ k := fun hjk => hkio (hjk ▸ hj)
      obtain ⟨ht, -, -, hwk⟩ := Thread.core_eq_iff.mp (hother j hjk)
      exact .inr ⟨j, hj, ht ▸ hjtask, hwk ▸ hjend⟩
  case io_open =>
    intro j hj
    simp only [hb] at hj ⊢
    rw [hiob]
    have hjk : j ≠ k := fun hjk => hkio (hjk ▸ hj)
    obtain ⟨ht, -, -, hwk⟩ := Thread.core_eq_iff.mp (hother j hjk)
    obtain ⟨w, hw', hwt, hws, hwe⟩ := h.io_open j hj
    exact ⟨w, hw', ht ▸ hwt, by omega, hwk ▸ hwe⟩
  case idle_before =>
    rw [hidleb]
    intro e he
    have := h.idle_before e he
    simp only [hb]; omega
  case idle_ok =>
    intro e he T hT
    rw [hidleb] at he
    exact (h.idle_ok e he T hT).mono _ hrunb (by simpa using h.idle_before e he)
      (by rw [hiob]; exact fun w hw => hw)

/-- A dispatch: thread `k`, taken out of the ready queue, runs by `Thread.run` and the machine's
`run` logs it, advances the clock and lets arrivals in. The invariant holds with `k` held, the
thread has work left unless `run` said `'done'`, and at least one unit of work is done. -/
theorem dispatch (hw : Workload tasks) (h : Inv tasks [] m) {k : Nat} {threads₁ : List Thread}
    {ready₁ : Q} (hperm : (contents m.ready).Perm (k :: contents ready₁))
    (hrun : SameRun m.threads threads₁) {q runTime ioTime : Int} {status : Status} {th : Thread}
    (hq : 0 ≤ q) (hth : (threadAt threads₁ k).run q = ((runTime, status, ioTime), th))
    {c : Machine Q}
    (hc : c = Machine.run { m with threads := threads₁.set k th, ready := ready₁ } runTime k) :
    Inv tasks [k] c ∧ Ahead c ∧ (status = .done → (threadAt c.threads k).remaining = 0) ∧
      (status ≠ .done → 0 < (threadAt c.threads k).remaining) ∧ c.rounds + 2 ≤ m.rounds := by
  have hkq : k ∈ contents m.ready ++ m.io :=
    List.mem_append_left _ (hperm.symm.subset List.mem_cons_self)
  have hklt : k < m.threads.length := h.lt_length k (by simpa using hkq)
  have hlen₁ : threads₁.length = m.threads.length := hrun.length.symm
  -- `run` sees the thread as the queue left it, which is the thread of the machine
  have hc₀ := hrun.core k
  obtain ⟨ht₀, he₀, hb₀, -⟩ := Thread.core_eq_iff.mp hc₀
  have hrem₁ : (threadAt m.threads k).remaining = (threadAt threads₁ k).remaining :=
    Thread.remaining_of_core hc₀
  obtain ⟨hpos, hle, htask, helapsed, hburst, -, hdone⟩ := Thread.run_spec hq
    (hrem₁ ▸ h.queued_pos k hkq) (hb₀ ▸ h.burst_nonneg k hklt)
    (ht₀ ▸ hw.burst_nonneg _ (h.task_mem hklt)) hth
  have hIb := h.logRun hw hperm hrun (htask.trans ht₀.symm) (by rw [helapsed, he₀])
    hpos (hrem₁ ▸ hle) hburst
  have hself : threadAt (threads₁.set k th) k = th := threadAt_set_self (by omega) th
  have hcb : c = Machine.arrivals { m with
      threads := threads₁.set k th
      ready := ready₁
      log := m.log ++ [.run m.time th.task runTime (ReadyQueue.len ready₁)
        (ReadyQueue.weight (threads₁.set k th) ready₁)]
      time := m.time + runTime } := by
    rw [hc, Machine.run, hself]
  obtain ⟨hIc, hAc⟩ := hIb.arrivals hw
  have A := arrivals_spec _ hIb.io_nodup hIb.io_lt
  have hthrem : th.remaining = (threadAt m.threads k).remaining - runTime := by
    simp only [Thread.remaining, htask, helapsed, ht₀, he₀]; ring
  have hkc : (threadAt c.threads k).remaining = th.remaining := by
    rw [hcb, Thread.remaining_of_core (A.core_old (by simp [hlen₁]; omega)), hself]
  refine ⟨hcb ▸ hIc, hcb ▸ hAc, fun hs => hkc ▸ hdone.mp hs, fun hs => ?_, ?_⟩
  · -- `run` reports `'done'` exactly when nothing is left
    have h1 : th.remaining ≠ 0 := fun h1 => hs (hdone.mpr h1)
    rw [hkc]
    rw [hthrem] at h1 ⊢
    omega
  · -- the run did `runTime` units of the thread's work
    have hwork := sum_map_set (fun th => th.remaining.toNat) threads₁ k th (by omega)
    rw [← threadAt_eq_getElem (by omega), hthrem, ← hrem₁] at hwork
    have hmap := SameRun.map_eq (fun th => th.remaining.toNat)
      (fun x y hxy => by rw [Thread.remaining_of_core hxy]) hrun
    have hle' := A.rounds_le
    rw [← hcb] at hle'
    simp only [rounds, work, hmap] at hle' ⊢
    omega

/-- With work pending, `next_start ()` is a time after now: the next arrival or the first
wake-up, whichever comes first, so that something happens then and nothing before. -/
theorem nextStart_spec (h : Inv tasks held m) (hA : Ahead m) (hpend : m.pending = true) :
    ∃ x, m.nextStart = some x ∧ m.time < x ∧ (∀ T ∈ m.future, x ≤ T.arrivalTime) ∧
      (∀ j ∈ m.io, x ≤ (threadAt m.threads j).wakeupTime) ∧
      ((∃ T ∈ m.future, T.arrivalTime ≤ x) ∨ ∃ j ∈ m.io, (threadAt m.threads j).wakeupTime ≤ x) := by
  -- the tasks are sorted by arrival, so the next one is the first
  have hhead : ∀ {T rest}, m.future = T :: rest → ∀ T' ∈ m.future, T.arrivalTime ≤ T'.arrivalTime := by
    intro T rest hf T' hT'
    have hs := h.future_sorted
    rw [hf, List.pairwise_cons] at hs
    rw [hf, List.mem_cons] at hT'
    rcases hT' with rfl | hT'
    · exact le_refl _
    · exact hs.1 T' hT'
  have ht := h.time_nonneg
  rcases hio : m.io with _ | ⟨i, rest⟩
  · rcases hf : m.future with _ | ⟨T, rest⟩
    · simp [pending, hio, hf] at hpend
    · have hT := hA.future T (by rw [hf]; exact List.mem_cons_self)
      refine ⟨T.arrivalTime, by simp [nextStart, hio, hf, TaskStream.nextArrival], hT,
        fun T' hT' => hhead hf T' (by rw [hf]; exact hT'), by simp,
        .inl ⟨T, List.mem_cons_self, le_refl _⟩⟩
  · obtain ⟨hle, j, hj, hjeq⟩ := m.minWakeup_spec i rest
    have hmw : m.time < m.minWakeup i rest := by
      rw [hjeq]; exact hA.io j (by rw [hio]; exact hj)
    rcases hf : m.future with _ | ⟨T, rest'⟩
    · refine ⟨m.minWakeup i rest, by simp [nextStart, hio, hf, TaskStream.nextArrival], hmw,
        by simp, fun j' hj' => hle j' hj', .inr ⟨j, hj, hjeq.ge⟩⟩
    · have hT := hA.future T (by rw [hf]; exact List.mem_cons_self)
      refine ⟨min T.arrivalTime (m.minWakeup i rest), ?_, lt_min hT hmw,
        fun T' hT' => (min_le_left _ _).trans (hhead hf T' (by rw [hf]; exact hT')),
        fun j' hj' => (min_le_right _ _).trans (hle j' hj'), ?_⟩
      · have : T.arrivalTime ≠ 0 := by omega
        simp [nextStart, hio, hf, TaskStream.nextArrival, this]
      · rcases min_choice T.arrivalTime (m.minWakeup i rest) with hmin | hmin
        · exact .inl ⟨T, List.mem_cons_self, hmin.ge⟩
        · exact .inr ⟨j, hj, by rw [hmin, hjeq]⟩

/-- An idle round: the machine idles until `next_start ()`, and then something arrives or
wakes. The idle interval is one where no task is ready. -/
theorem idle (hw : Workload tasks) (h : Inv tasks [] m) (hA : Ahead m)
    (hempty : contents m.ready = []) (hpend : m.pending = true) :
    ∃ m', m.idle = .ok m' ∧ Inv tasks [] m' ∧ Ahead m' ∧ m'.rounds < m.rounds := by
  obtain ⟨x, hx, hlt, hfut, hiox, hdue⟩ := h.nextStart_spec hA hpend
  set b : Machine Q := { m with log := m.log ++ [.idle m.time (x - m.time)], time := x } with hb
  have hidle_eq : m.idle = .ok (Machine.arrivals b) := by
    have := h.time_nonneg
    rw [Machine.idle, if_pos hpend, hx]
    simp only
    rw [if_pos (by omega)]
    rfl
  have hrunb : runEntries b.log = runEntries m.log := by simp [hb, runEntries]
  have hiob : ioEntries b.log = ioEntries m.log := by simp [hb, ioEntries]
  have hidleb : idleEntries b.log = idleEntries m.log ++ [(m.time, x - m.time)] := by
    simp [hb, idleEntries]
  -- no task is ready during the idle interval
  have hnew : ∀ T ∈ tasks, IdleOk b.log (m.time, x - m.time) T := by
    intro T hT
    rcases List.mem_append.mp (h.perm.symm.subset hT) with hT | hT
    · obtain ⟨th, hth, rfl⟩ := List.mem_map.mp hT
      obtain ⟨j, hj, rfl⟩ := mem_iff_threadAt.mp hth
      by_cases hpos : 0 < (threadAt m.threads j).remaining
      · -- a thread with work left is in I/O wait until after the interval
        have hjio : j ∈ m.io := by simpa [hempty] using h.pos_queued j hj hpos
        obtain ⟨w, hw', hwt, hws, hwe⟩ := h.io_open j hjio
        have := hiox j hjio
        exact .inr (.inl ⟨w, by rw [hiob]; exact hw', hwt, hws, by dsimp only; omega⟩)
      · -- a thread without work left ran all its time before the interval
        have hzero : (threadAt m.threads j).remaining = 0 := by
          have := h.remaining_nonneg j hj; omega
        refine .inr (.inr ?_)
        have hall : ∀ r ∈ runEntries m.log, r.1 < m.time := fun r hr => by
          have := h.runs_before r hr; have := h.runs_positive r hr; omega
        rw [hrunb, List.filter_eq_self.mpr fun r hr => by simpa using hall r hr,
          h.runs_thread j hj]
        rw [Thread.remaining] at hzero; omega
    · exact .inl (by have := hfut T hT; dsimp only; omega)
  have hIb : Inv tasks [] b := by
    constructor
    case time_nonneg => have := h.time_nonneg; show 0 ≤ x; omega
    case perm => exact h.perm
    case future_sorted => exact h.future_sorted
    case arrived =>
      intro j hj; have := h.arrived j hj; show (threadAt m.threads j).task.arrivalTime ≤ x; omega
    case nodup => exact h.nodup
    case lt_length => exact h.lt_length
    case queued_pos => exact h.queued_pos
    case pos_queued => exact h.pos_queued
    case remaining_nonneg => exact h.remaining_nonneg
    case burst_nonneg => exact h.burst_nonneg
    case runs_positive => rw [hrunb]; exact h.runs_positive
    case runs_disjoint => rw [hrunb]; exact h.runs_disjoint
    case runs_before =>
      rw [hrunb]; intro r hr; have := h.runs_before r hr; show _ ≤ x; omega
    case after_arrival => rw [hrunb]; exact h.after_arrival
    case runs_thread => rw [hrunb]; exact h.runs_thread
    case runs_future => rw [hrunb]; exact h.runs_future
    case runs_total => rw [hrunb]; exact h.runs_total
    case not_in_io => rw [hrunb, hiob]; exact h.not_in_io
    case io_closed =>
      rw [hiob]; intro w hw'
      rcases h.io_closed w hw' with hend | hopen
      · exact .inl (by show _ ≤ x; omega)
      · exact .inr hopen
    case io_open =>
      rw [hiob]; intro j hj
      obtain ⟨w, hw', hwt, hws, hwe⟩ := h.io_open j hj
      exact ⟨w, hw', hwt, by show _ ≤ x; omega, hwe⟩
    case idle_before =>
      rw [hidleb]; intro e he
      rw [List.mem_append, List.mem_singleton] at he
      rcases he with he | rfl
      · have := h.idle_before e he; show _ ≤ x; omega
      · exact hlt.le
    case idle_ok =>
      rw [hidleb]; intro e he T hT
      rw [List.mem_append, List.mem_singleton] at he
      rcases he with he | rfl
      · exact (h.idle_ok e he T hT).of_entries hrunb hiob
      · exact hnew T hT
  obtain ⟨hI', hA'⟩ := hIb.arrivals hw
  have A := arrivals_spec b hIb.io_nodup hIb.io_lt
  refine ⟨_, hidle_eq, hI', hA', ?_⟩
  have hlt' := A.rounds_lt hdue
  have hwork : b.work = m.work := rfl
  have hio : b.io = m.io := rfl
  have hfuture : b.future = m.future := rfl
  simp only [rounds, hwork, hio, hfuture] at hlt' ⊢
  exact hlt'

/-- The loop's test `cpu.next_start ()` is true exactly when work is pending. -/
theorem truthy_nextStart (h : Inv tasks held m) (hA : Ahead m) : truthy m.nextStart = m.pending := by
  cases hpend : m.pending
  · have hnil : m.future = [] ∧ m.io = [] := by simpa [pending] using hpend
    simp [nextStart, hnil.1, hnil.2, TaskStream.nextArrival, truthy]
  · obtain ⟨x, hx, hlt, -⟩ := h.nextStart_spec hA hpend
    have := h.time_nonneg
    rw [hx, truthy, bne_iff_ne]
    omega

theorem not_mem_of_held (h : Inv tasks [k] m) : k ∉ contents m.ready ++ m.io := fun hk =>
  (List.nodup_append.mp h.nodup).2.2 k hk k List.mem_cons_self rfl

/-- A dispatched thread whose burst ended goes into I/O wait for `w > 0`. -/
theorem ioWait (h : Inv tasks [k] m) (hA : Ahead m) (hpos : 0 < (threadAt m.threads k).remaining)
    {w : Int} (hwait : 0 < w) :
    Inv tasks [] (m.ioWait k w) ∧ Ahead (m.ioWait k w) ∧ (m.ioWait k w).rounds = m.rounds + 1 := by
  have hk : k < m.threads.length := h.lt_length k (by simp)
  have hkio : k ∉ m.io := fun hk' => h.not_mem_of_held (List.mem_append_right _ hk')
  -- `io_wait` sets the wake-up time of thread `k` and nothing else
  have hsame : ∀ j, (threadAt (m.ioWait k w).threads j).task = (threadAt m.threads j).task ∧
      (threadAt (m.ioWait k w).threads j).elapsedTime = (threadAt m.threads j).elapsedTime ∧
      (threadAt (m.ioWait k w).threads j).remainingBurst = (threadAt m.threads j).remainingBurst := by
    intro j
    by_cases hjk : k = j
    · subst hjk; simp [Machine.ioWait, threadAt_modify_self hk]
    · simp [Machine.ioWait, threadAt_modify_ne hjk]
  have hrem : ∀ j, (threadAt (m.ioWait k w).threads j).remaining = (threadAt m.threads j).remaining :=
    fun j => by rw [Thread.remaining, Thread.remaining, (hsame j).1, (hsame j).2.1]
  have hwake : ∀ j, j ≠ k →
      (threadAt (m.ioWait k w).threads j).wakeupTime = (threadAt m.threads j).wakeupTime :=
    fun j hj => by simp only [Machine.ioWait, threadAt_modify_ne (Ne.symm hj)]
  have hwakek : (threadAt (m.ioWait k w).threads k).wakeupTime = m.time + w := by
    simp only [Machine.ioWait, threadAt_modify_self hk]
  have hlen : (m.ioWait k w).threads.length = m.threads.length := List.length_modify _ _ _
  have hmap : ∀ {β : Type} (g : Thread → β), (∀ th : Thread, g { th with wakeupTime := m.time + w } = g th) →
      (m.ioWait k w).threads.map g = m.threads.map g := fun g hg => map_modify g hg m.threads k
  have hrun : runEntries (m.ioWait k w).log = runEntries m.log := by simp [Machine.ioWait, runEntries]
  have hio : ioEntries (m.ioWait k w).log =
      ioEntries m.log ++ [(m.time, (threadAt m.threads k).task, w)] := by
    simp [Machine.ioWait, ioEntries]
  have hidle : idleEntries (m.ioWait k w).log = idleEntries m.log := by
    simp [Machine.ioWait, idleEntries]
  have hioio : (m.ioWait k w).io = m.io ++ [k] := rfl
  have hjk : ∀ j ∈ m.io, j ≠ k := fun j hj hjk => hkio (hjk ▸ hj)
  refine ⟨?_, ?_, ?_⟩
  · constructor
    case time_nonneg => exact h.time_nonneg
    case perm =>
      rw [hmap Thread.task fun _ => rfl]
      exact h.perm
    case future_sorted => exact h.future_sorted
    case arrived => intro j hj; rw [(hsame j).1]; exact h.arrived j (hlen ▸ hj)
    case nodup => rw [hioio, List.append_nil, ← List.append_assoc]; exact h.nodup
    case lt_length =>
      intro j hj
      rw [hlen]
      exact h.lt_length j (by rwa [hioio, List.append_nil, ← List.append_assoc] at hj)
    case queued_pos =>
      intro j hj
      rw [hrem]
      rw [hioio, ← List.append_assoc, List.mem_append, List.mem_singleton] at hj
      rcases hj with hj | rfl
      · exact h.queued_pos j hj
      · exact hpos
    case pos_queued =>
      intro j hj hjpos
      rw [hrem] at hjpos
      rw [hioio, List.append_nil, ← List.append_assoc]
      exact h.pos_queued j (hlen ▸ hj) hjpos
    case remaining_nonneg => intro j hj; rw [hrem]; exact h.remaining_nonneg j (hlen ▸ hj)
    case burst_nonneg => intro j hj; rw [(hsame j).2.2]; exact h.burst_nonneg j (hlen ▸ hj)
    case runs_positive => rw [hrun]; exact h.runs_positive
    case runs_disjoint => rw [hrun]; exact h.runs_disjoint
    case runs_before => rw [hrun]; exact h.runs_before
    case after_arrival => rw [hrun]; exact h.after_arrival
    case runs_thread =>
      intro j hj
      rw [hrun, (hsame j).1, (hsame j).2.1]
      exact h.runs_thread j (hlen ▸ hj)
    case runs_future => rw [hrun]; exact h.runs_future
    case runs_total =>
      rw [hrun, hmap Thread.elapsedTime fun _ => rfl]
      exact h.runs_total
    case not_in_io =>
      intro r hr w' hw' hrw
      rw [hrun] at hr
      rw [hio, List.mem_append, List.mem_singleton] at hw'
      rcases hw' with hw' | rfl
      · exact h.not_in_io r hr w' hw' hrw
      · exact .inl (h.runs_before r hr)
    case io_closed =>
      intro w' hw'
      rw [hio, List.mem_append, List.mem_singleton] at hw'
      rcases hw' with hw' | rfl
      · rcases h.io_closed w' hw' with hend | ⟨j, hj, hjt, hje⟩
        · exact .inl hend
        · refine .inr ⟨j, List.mem_append_left _ hj, ?_, ?_⟩
          · rw [(hsame j).1]; exact hjt
          · rw [hwake j (hjk j hj)]; exact hje
      · exact .inr ⟨k, List.mem_append_right _ (List.mem_singleton_self k), by rw [(hsame k).1],
          hwakek.symm⟩
    case io_open =>
      intro j hj
      rw [hioio, List.mem_append, List.mem_singleton] at hj
      rw [hio, (hsame j).1]
      rcases hj with hj | rfl
      · obtain ⟨w', hw', hwt, hws, hwe⟩ := h.io_open j hj
        exact ⟨w', List.mem_append_left _ hw', hwt, hws, by rw [hwake j (hjk j hj)]; exact hwe⟩
      · exact ⟨_, List.mem_append_right _ (List.mem_singleton_self _), rfl, le_refl _,
          hwakek.symm⟩
    case idle_before => rw [hidle]; exact h.idle_before
    case idle_ok =>
      intro e he T hT
      rw [hidle] at he
      exact (h.idle_ok e he T hT).mono [] (by rw [hrun, List.append_nil]) (by simp)
        (fun w' hw' => by rw [hio]; exact List.mem_append_left _ hw')
  · constructor
    case future => exact hA.future
    case io =>
      intro j hj
      rw [hioio, List.mem_append, List.mem_singleton] at hj
      rcases hj with hj | rfl
      · rw [hwake j (hjk j hj)]; exact hA.io j hj
      · show m.time < _; rw [hwakek]; omega
  · have hwork : (m.ioWait k w).work = m.work := by
      rw [work, work, hmap (fun th => th.remaining.toNat) fun _ => rfl]
      rfl
    have hfuture : (m.ioWait k w).future = m.future := rfl
    rw [rounds, rounds, hwork, hioio, hfuture, List.length_append, List.length_singleton]
    omega

/-- The queues may change a thread's bookkeeping. -/
theorem sameRun (h : Inv tasks held m) {threads : List Thread} (hrun : SameRun m.threads threads) :
    Inv tasks held { m with threads := threads } := by
  have hlen : threads.length = m.threads.length := hrun.length.symm
  have hc : ∀ j, (threadAt threads j).core = (threadAt m.threads j).core := fun j => (hrun.core j).symm
  constructor
  case time_nonneg => exact h.time_nonneg
  case perm => rw [← hrun.map_task]; exact h.perm
  case future_sorted => exact h.future_sorted
  case arrived =>
    intro j hj; rw [(Thread.core_eq_iff.mp (hc j)).1]; exact h.arrived j (hlen ▸ hj)
  case nodup => exact h.nodup
  case lt_length => intro j hj; exact hlen ▸ h.lt_length j hj
  case queued_pos => intro j hj; rw [Thread.remaining_of_core (hc j)]; exact h.queued_pos j hj
  case pos_queued =>
    intro j hj hpos; rw [Thread.remaining_of_core (hc j)] at hpos
    exact h.pos_queued j (hlen ▸ hj) hpos
  case remaining_nonneg =>
    intro j hj; rw [Thread.remaining_of_core (hc j)]; exact h.remaining_nonneg j (hlen ▸ hj)
  case burst_nonneg =>
    intro j hj; rw [(Thread.core_eq_iff.mp (hc j)).2.2.1]; exact h.burst_nonneg j (hlen ▸ hj)
  case runs_positive => exact h.runs_positive
  case runs_disjoint => exact h.runs_disjoint
  case runs_before => exact h.runs_before
  case after_arrival => exact h.after_arrival
  case runs_thread =>
    intro j hj
    obtain ⟨ht, he, -, -⟩ := Thread.core_eq_iff.mp (hc j)
    rw [ht, he]; exact h.runs_thread j (hlen ▸ hj)
  case runs_future => exact h.runs_future
  case runs_total => rw [← hrun.map_elapsedTime]; exact h.runs_total
  case not_in_io => exact h.not_in_io
  case io_closed =>
    intro w hw
    rcases h.io_closed w hw with hend | ⟨j, hj, hjt, hje⟩
    · exact .inl hend
    · obtain ⟨ht, -, -, hwk⟩ := Thread.core_eq_iff.mp (hc j)
      exact .inr ⟨j, hj, ht ▸ hjt, hwk ▸ hje⟩
  case io_open =>
    intro j hj
    obtain ⟨ht, -, -, hwk⟩ := Thread.core_eq_iff.mp (hc j)
    rw [ht, hwk]; exact h.io_open j hj
  case idle_before => exact h.idle_before
  case idle_ok => exact h.idle_ok

/-- A dispatched thread with work left goes back into the ready queue. -/
theorem putBack (h : Inv tasks [k] m) (hpos : 0 < (threadAt m.threads k).remaining) {ready : Q}
    (hperm : (contents ready).Perm (k :: contents m.ready)) : Inv tasks [] { m with ready := ready } := by
  have hq : (contents ready ++ m.io ++ []).Perm (contents m.ready ++ m.io ++ [k]) := by
    rw [List.append_nil]
    exact (hperm.append_right m.io).trans (List.perm_append_singleton k _).symm
  refine { h with nodup := ?_, lt_length := ?_, queued_pos := ?_, pos_queued := ?_ }
  · exact hq.nodup_iff.mpr h.nodup
  · exact fun j hj => h.lt_length j (hq.subset hj)
  · intro j hj
    have := hq.subset (List.mem_append_left [] hj)
    rw [List.mem_append, List.mem_singleton] at this
    rcases this with hj | rfl
    · exact h.queued_pos j hj
    · exact hpos
  · exact fun j hj hjpos => hq.symm.subset (h.pos_queued j hj hjpos)

/-- A dispatched thread that finished leaves the queues for good. -/
theorem release (h : Inv tasks [k] m) (hdone : (threadAt m.threads k).remaining = 0) :
    Inv tasks [] m := by
  refine { h with nodup := ?_, lt_length := ?_, pos_queued := ?_ }
  · rw [List.append_nil]; exact h.nodup.sublist (List.sublist_append_left _ _)
  · exact fun j hj => h.lt_length j (by rw [List.append_nil] at hj; exact List.mem_append_left _ hj)
  · intro j hj hjpos
    rcases List.mem_append.mp (h.pos_queued j hj hjpos) with hq | hq
    · exact List.mem_append_left _ hq
    · rw [List.mem_singleton] at hq; subst hq; omega

/-- A dispatched thread with work left goes back into a queue by `enq`. -/
theorem requeue {enq : List Thread → Q → Nat → Int → List Thread × Q} (henq : Requeues contents enq)
    (h : Inv tasks [k] m) (hA : Ahead m) (hpos : 0 < (threadAt m.threads k).remaining) :
    Inv tasks [] { m with threads := (enq m.threads m.ready k m.time).1
                          ready := (enq m.threads m.ready k m.time).2 } ∧
      Ahead { m with threads := (enq m.threads m.ready k m.time).1
                     ready := (enq m.threads m.ready k m.time).2 } ∧
      rounds { m with threads := (enq m.threads m.ready k m.time).1
                      ready := (enq m.threads m.ready k m.time).2 } = m.rounds := by
  obtain ⟨hperm, hrun⟩ := henq m.threads m.ready k m.time
  have hpos' : 0 < (threadAt (enq m.threads m.ready k m.time).1 k).remaining := by
    rw [← Thread.remaining_of_core (hrun.core k)]; exact hpos
  refine ⟨(h.sameRun hrun).putBack hpos' hperm, hA.sameRun hrun _, ?_⟩
  have hmap := SameRun.map_eq (fun th => th.remaining.toNat)
    (fun x y hxy => by rw [Thread.remaining_of_core hxy]) hrun
  simp only [rounds, work, ← hmap]

/-- A machine with nothing to run and nothing pending shows, once stopped, what the
simulation is claimed to: every thread ran all its time, in runs that never overlap, after its
arrival and outside its I/O waits, and the machine idled only with nothing ready. -/
theorem conserves (h : Inv tasks [] m) (hempty : contents m.ready = [])
    (hpend : m.pending = false) : Conserves tasks m.stop.log m.stop.threads := by
  have hnil : m.future = [] ∧ m.io = [] := by simpa [pending] using hpend
  have hrun : runEntries m.stop.log = runEntries m.log := by simp [Machine.stop, runEntries]
  have hio : ioEntries m.stop.log = ioEntries m.log := by simp [Machine.stop, ioEntries]
  have hidle : idleEntries m.stop.log = idleEntries m.log := by simp [Machine.stop, idleEntries]
  -- no thread has work left
  have hfinished : ∀ th ∈ m.threads, th.elapsedTime = th.task.totalRunTime := by
    intro th hth
    obtain ⟨j, hj, rfl⟩ := mem_iff_threadAt.mp hth
    have h0 := h.remaining_nonneg j hj
    have h1 : ¬0 < (threadAt m.threads j).remaining := fun hpos => by
      simpa [hempty, hnil.2] using h.pos_queued j hj hpos
    rw [Thread.remaining] at h0 h1; omega
  have hperm : (m.threads.map Thread.task).Perm tasks := by
    simpa [hnil.1] using h.perm
  constructor
  case threads_perm => exact hperm
  case finished => exact hfinished
  case runs_positive => rw [hrun]; exact h.runs_positive
  case runs_disjoint => rw [hrun]; exact h.runs_disjoint
  case runs_total =>
    rw [hrun, h.runs_total, ← (hperm.map Task.totalRunTime).sum_eq, List.map_map]
    exact congrArg List.sum (List.map_congr_left hfinished)
  case after_arrival => rw [hrun]; exact h.after_arrival
  case not_in_io => rw [hrun, hio]; exact h.not_in_io
  case idle_empty =>
    intro e he T hT
    rw [hidle] at he
    exact (h.idle_ok e he T hT).of_entries hrun hio

end Inv

/-- The machine `scheduler` starts from: the tasks sorted by arrival, and those arrived at `0`
in the ready queue. It is within `simFuel` rounds of the end. -/
theorem new_inv {tasks : List Task} (hw : Workload tasks) {r : Q} (hr : contents r = []) :
    Inv tasks [] (Machine.new tasks r) ∧ Ahead (Machine.new tasks r) ∧
      (Machine.new tasks r).rounds < simFuel tasks := by
  set s : Machine Q := ⟨0, [.start 0], [], [], TaskStream.new tasks, r⟩ with hs
  have hsort : (TaskStream.new tasks).Perm tasks := List.perm_insertionSort _ _
  have hIs : Inv tasks [] s := by
    constructor
    case perm => rw [hs]; simpa using hsort
    case future_sorted =>
      have : Std.Total ArrivesBy := ⟨fun a b => le_total a.arrivalTime b.arrivalTime⟩
      have : IsTrans Task ArrivesBy := ⟨fun _ _ _ => le_trans⟩
      exact List.pairwise_insertionSort _ _
    case nodup => simp [hs, hr]
    all_goals simp [hs, hr, runEntries, ioEntries, idleEntries]
  have hnew : Machine.new tasks r = Machine.arrivals s := rfl
  obtain ⟨hI, hA⟩ := hIs.arrivals hw
  have hle := (arrivals_spec s hIs.io_nodup hIs.io_lt).rounds_le
  refine ⟨hnew ▸ hI, hnew ▸ hA, ?_⟩
  rw [hnew]
  refine lt_of_le_of_lt hle ?_
  have hsum := (hsort.map fun T => T.totalRunTime.toNat).sum_eq
  simp only [rounds, work, simFuel, hs, List.map_nil, List.sum_nil, zero_add, List.length_nil,
    add_zero, hsum, hsort.length_eq]
  omega

end Machine

/-! ## The loops -/

section Scheduler

variable {Q : Type} [SchedQueue Q] [LawfulSched Q] {tasks : List Task}

open LawfulReady (contents)

/-- A round of `scheduler`: it stops with the claimed log, or it goes on, keeping the invariant,
with fewer rounds left. -/
theorem schedulerRound_spec (hw : Workload tasks) {q : Int} (hq : 0 ≤ q) {m : Machine Q}
    (h : Machine.Inv tasks [] m) (hA : Machine.Ahead m) :
    (∃ c, schedulerRound q m = .ok (.inl c) ∧ Conserves tasks c.log c.threads) ∨
      ∃ m', schedulerRound q m = .ok (.inr m') ∧ (Machine.Inv tasks [] m' ∧ Machine.Ahead m') ∧
        m'.rounds < m.rounds := by
  have htruthy := h.truthy_nextStart hA
  by_cases hempty : contents m.ready = []
  · have he : ReadyQueue.empty m.ready = true := (LawfulReady.empty_iff _).mpr hempty
    cases hpend : m.pending
    · -- nothing ready and nothing pending: the loop stops
      refine .inl ⟨m.stop, ?_, h.conserves hempty hpend⟩
      rw [schedulerRound, he, htruthy, hpend]
      rfl
    · -- nothing ready: the machine idles
      obtain ⟨m', hidle, hI', hA', hr'⟩ := h.idle hw hA hempty hpend
      refine .inr ⟨m', ?_, ⟨hI', hA'⟩, hr'⟩
      rw [schedulerRound, he, htruthy, hpend]
      simp only [Bool.not_true, Bool.false_or, if_true, hidle]
      rfl
  · -- a thread is dispatched
    have he : ReadyQueue.empty m.ready = false :=
      Bool.eq_false_iff.mpr fun he => hempty ((LawfulReady.empty_iff _).mp he)
    obtain ⟨k, threads₁, ready₁, hdeq, hperm, hrun⟩ :=
      LawfulSched.dequeue_ok m.threads m.ready m.time hempty
    rcases hth : (threadAt threads₁ k).run q with ⟨⟨runTime, status, ioTime⟩, th⟩
    obtain ⟨hIc, hAc, hdone, hpos, hrounds⟩ := h.dispatch hw hperm hrun hq hth rfl
    set c := Machine.run { m with threads := threads₁.set k th, ready := ready₁ } runTime k
    have hround : schedulerRound q m =
        if status = .io ∧ ioTime > 0 then .ok (.inr (c.ioWait k ioTime))
        else if status ≠ .done then
          .ok (.inr { c with threads := (ReadyQueue.enqueue c.threads c.ready k c.time).1
                             ready := (ReadyQueue.enqueue c.threads c.ready k c.time).2 })
        else .ok (.inr c) := by
      rw [schedulerRound, he, htruthy]
      simp only [Bool.not_false, Bool.true_or, if_true, Bool.false_eq_true, if_false, hdeq, bind,
        Except.bind, hth]
      rfl
    by_cases hio : status = .io ∧ ioTime > 0
    · -- the burst ended: the thread waits for its I/O
      obtain ⟨hI', hA', hr'⟩ := hIc.ioWait hAc (hpos (by rw [hio.1]; decide)) hio.2
      exact .inr ⟨_, by rw [hround, if_pos hio], ⟨hI', hA'⟩, by omega⟩
    · by_cases hnd : status ≠ .done
      · -- preempted or burst over with no I/O: back into the ready queue
        obtain ⟨hI', hA', hr'⟩ := hIc.requeue LawfulReady.requeues_enqueue hAc (hpos hnd)
        exact .inr ⟨_, by rw [hround, if_neg hio, if_pos hnd], ⟨hI', hA'⟩, by omega⟩
      · -- finished
        have hzero := hdone (not_not.mp hnd)
        exact .inr ⟨c, by rw [hround, if_neg hio, if_neg hnd], ⟨hIc.release hzero, hAc⟩,
          by omega⟩
/-- `scheduler` ends within its fuel, for every queue class whose `dequeue` takes a queued
thread, and its log and threads show what the simulator is claimed to. -/
theorem scheduler_conserves (hw : Workload tasks) {q : Int} (hq : 0 ≤ q) :
    ∃ cpu, scheduler tasks q Q = .ok cpu ∧ Conserves tasks cpu.log cpu.threads := by
  obtain ⟨hI, hA, hfuel⟩ := Machine.new_inv (Q := Q) hw LawfulSched.contents_new
  -- the loop variant is the bound `rounds` on the rounds left
  refine Loop.run_variant (fun g a => g = a ∧ Machine.Inv tasks [] a ∧ Machine.Ahead a)
    Machine.rounds (fun c : Machine Q => Conserves tasks c.log c.threads) ?_ (simFuel tasks) _ _ ⟨rfl, hI, hA⟩
    hfuel
  rintro g a ⟨rfl, h, hA⟩
  rcases schedulerRound_spec hw hq h hA with ⟨c, hc, hcons⟩ | ⟨m', hm', ⟨h', hA'⟩, hlt⟩
  · exact .inl ⟨c, hc, hcons⟩
  · exact .inr ⟨m', m', hm', ⟨rfl, h', hA'⟩, hlt⟩

end Scheduler

section Mlfq2

variable {tasks : List Task}

/-- Both quanta of the two-level queue are `0` or positive. -/
def QuantaOk (r : TwoLevelFeedbackQueue) : Prop := 0 ≤ r.q ∧ 0 ≤ r.qCpu

theorem quantaOk_enqueue (threads : List Thread) (r : TwoLevelFeedbackQueue) (k : Nat) (t : Int)
    (h : QuantaOk r) : QuantaOk (ReadyQueue.enqueue threads r k t).2 := h

/-- A round of `mlfq2`: it stops with the claimed log, or it goes on, keeping the invariant and
the quanta, with fewer rounds left. -/
theorem mlfq2Round_spec (hw : Workload tasks) {m : Machine TwoLevelFeedbackQueue}
    (h : Machine.Inv tasks [] m) (hA : Machine.Ahead m) (hq : QuantaOk m.ready) :
    (∃ c, mlfq2Round m = .ok (.inl c) ∧ Conserves tasks c.log c.threads) ∨
      ∃ m', mlfq2Round m = .ok (.inr m') ∧
        (Machine.Inv tasks [] m' ∧ Machine.Ahead m' ∧ QuantaOk m'.ready) ∧ m'.rounds < m.rounds := by
  have htruthy := h.truthy_nextStart hA
  by_cases hempty : TwoLevelFeedbackQueue.contents m.ready = []
  · have he : m.ready.empty = true := (LawfulReady.empty_iff m.ready).mpr hempty
    cases hpend : m.pending
    · -- nothing ready and nothing pending: the loop stops
      refine .inl ⟨m.stop, ?_, h.conserves hempty hpend⟩
      rw [mlfq2Round, he, htruthy, hpend]
      rfl
    · -- nothing ready: the machine idles
      obtain ⟨m', hidle, hI', hA', hr'⟩ := h.idle hw hA hempty hpend
      refine .inr ⟨m', ?_, ⟨hI', hA', Machine.idle_ready QuantaOk quantaOk_enqueue hidle hq⟩, hr'⟩
      rw [mlfq2Round, he, htruthy, hpend]
      simp only [Bool.not_true, Bool.false_or, if_true, hidle]
      rfl
  · -- a thread is dispatched, with the quantum of its deque
    have he : m.ready.empty = false :=
      Bool.eq_false_iff.mpr fun he => hempty ((LawfulReady.empty_iff m.ready).mp he)
    obtain ⟨k, quanta, threads₁, ready₁, hdeq, hperm, hrun, hquanta, hq₁, hqcpu₁⟩ :=
      TwoLevelFeedbackQueue.dequeue_ok m.threads m.ready m.time hempty
    have hquanta₀ : 0 ≤ quanta := by rcases hquanta with rfl | rfl; exacts [hq.1, hq.2]
    rcases hth : (threadAt threads₁ k).run quanta with ⟨⟨runTime, status, ioTime⟩, th⟩
    obtain ⟨hIc, hAc, hdone, hpos, hrounds⟩ := h.dispatch hw hperm hrun hquanta₀ hth rfl
    set c := Machine.run { m with threads := threads₁.set k th, ready := ready₁ } runTime k
    have hqc : QuantaOk c.ready :=
      Machine.arrivals_ready QuantaOk quantaOk_enqueue (m := { m with
        threads := threads₁.set k th
        ready := ready₁
        log := _
        time := _ }) (by rw [QuantaOk, hq₁, hqcpu₁]; exact hq)
    have hround : mlfq2Round m =
        if status = .io ∧ ioTime > 0 then .ok (.inr (c.ioWait k ioTime))
        else if status = .cpu then
          .ok (.inr { c with threads := (c.ready.enqueueCpu c.threads k c.time).1
                             ready := (c.ready.enqueueCpu c.threads k c.time).2 })
        else if status ≠ .done then
          .ok (.inr { c with threads := (c.ready.enqueue c.threads k c.time).1
                             ready := (c.ready.enqueue c.threads k c.time).2 })
        else .ok (.inr c) := by
      rw [mlfq2Round, he, htruthy]
      simp only [Bool.not_false, Bool.true_or, if_true, Bool.false_eq_true, if_false, hdeq, bind,
        Except.bind, hth]
      rfl
    by_cases hio : status = .io ∧ ioTime > 0
    · -- the burst ended: the thread waits for its I/O
      obtain ⟨hI', hA', hr'⟩ := hIc.ioWait hAc (hpos (by rw [hio.1]; decide)) hio.2
      exact .inr ⟨_, by rw [hround, if_pos hio], ⟨hI', hA', hqc⟩, by omega⟩
    · by_cases hcpu : status = .cpu
      · -- it used up its quantum: into the non-interactive deque
        obtain ⟨hI', hA', hr'⟩ := hIc.requeue TwoLevelFeedbackQueue.requeues_enqueueCpu hAc
          (hpos (by rw [hcpu]; decide))
        exact .inr ⟨_, by rw [hround, if_neg hio, if_pos hcpu], ⟨hI', hA', hqc⟩, by omega⟩
      · by_cases hnd : status ≠ .done
        · -- back from a zero-length I/O wait: into the interactive deque
          obtain ⟨hI', hA', hr'⟩ := hIc.requeue TwoLevelFeedbackQueue.requeues_enqueue hAc
            (hpos hnd)
          exact .inr ⟨_, by rw [hround, if_neg hio, if_neg hcpu, if_pos hnd], ⟨hI', hA', hqc⟩,
            by omega⟩
        · -- finished
          have hzero := hdone (not_not.mp hnd)
          exact .inr ⟨c, by rw [hround, if_neg hio, if_neg hcpu, if_neg hnd],
            ⟨hIc.release hzero, hAc, hqc⟩, by omega⟩

/-- `mlfq2` ends within its fuel for quanta that are `0` or positive, and its log and threads
show what the simulator is claimed to. -/
theorem mlfq2_conserves (hw : Workload tasks) {q1 q2 : Int} (hq1 : 0 ≤ q1) (hq2 : 0 ≤ q2) :
    ∃ cpu, mlfq2 tasks q1 q2 = .ok cpu ∧ Conserves tasks cpu.log cpu.threads := by
  obtain ⟨hI, hA, hfuel⟩ :=
    Machine.new_inv (r := (⟨[], q1, q2, []⟩ : TwoLevelFeedbackQueue)) hw rfl
  have hq : QuantaOk (Machine.new tasks (⟨[], q1, q2, []⟩ : TwoLevelFeedbackQueue)).ready :=
    Machine.arrivals_ready QuantaOk quantaOk_enqueue ⟨hq1, hq2⟩
  refine Loop.run_variant
    (fun g a : Machine TwoLevelFeedbackQueue =>
      g = a ∧ Machine.Inv tasks [] a ∧ Machine.Ahead a ∧ QuantaOk a.ready)
    Machine.rounds (fun c : Machine TwoLevelFeedbackQueue => Conserves tasks c.log c.threads) ?_ (simFuel tasks) _ _
    ⟨rfl, hI, hA, hq⟩ hfuel
  rintro g a ⟨rfl, h, hA, hq⟩
  rcases mlfq2Round_spec hw h hA hq with ⟨c, hc, hcons⟩ | ⟨m', hm', hinv, hlt⟩
  · exact .inl ⟨c, hc, hcons⟩
  · exact .inr ⟨m', m', hm', ⟨rfl, hinv⟩, hlt⟩

end Mlfq2

/-- The two tasks of `srtf_wait_time_stays_zero` are a workload. -/
theorem twoTasks_workload : Workload twoTasks :=
  ⟨by decide, by simp [twoTasks], by decide⟩

/-- The simulator conserves work and terminates: for every workload, `fcfs`, `round_robin` and
`srtf` with a quantum `q ≥ 0`, and `mlfq2` with quanta `q1, q2 ≥ 0`, end with a log whose runs
never overlap and add up to all the tasks' run time, in which no thread runs before its arrival
or in its I/O wait, every thread ran all its time, and the machine idles only while no task is
ready. -/
theorem simulator_conserves_work (tasks : List Task) (hw : Workload tasks) (q q1 q2 : Int)
    (hq : 0 ≤ q) (hq1 : 0 ≤ q1) (hq2 : 0 ≤ q2) :
    (∃ cpu, fcfs tasks = .ok cpu ∧ Conserves tasks cpu.log cpu.threads) ∧
      (∃ cpu, roundRobin tasks q = .ok cpu ∧ Conserves tasks cpu.log cpu.threads) ∧
      (∃ cpu, srtf tasks q = .ok cpu ∧ Conserves tasks cpu.log cpu.threads) ∧
      (∃ cpu, mlfq2 tasks q1 q2 = .ok cpu ∧ Conserves tasks cpu.log cpu.threads) :=
  ⟨scheduler_conserves hw (le_refl 0), scheduler_conserves hw hq, scheduler_conserves hw hq,
    mlfq2_conserves hw hq1 hq2⟩

theorem twoTasks_conserve_work :
    (∃ cpu, fcfs twoTasks = .ok cpu ∧ Conserves twoTasks cpu.log cpu.threads) ∧
      (∃ cpu, roundRobin twoTasks 1 = .ok cpu ∧ Conserves twoTasks cpu.log cpu.threads) ∧
      (∃ cpu, srtf twoTasks 1 = .ok cpu ∧ Conserves twoTasks cpu.log cpu.threads) ∧
      (∃ cpu, mlfq2 twoTasks 1 2 = .ok cpu ∧ Conserves twoTasks cpu.log cpu.threads) :=
  simulator_conserves_work twoTasks twoTasks_workload 1 1 2 (by decide) (by decide) (by decide)

end Pintos.Schedlab
