import Pintos.Threads.Scheduler

/-!
Which step frees a thread's page, and which sets `idle_thread`. `thread_schedule_tail` calls
`palloc_free_page` on the thread `schedule` switched from when it is dying and not
`initial_thread`; in the model its entry becomes `none`. Every other update keeps which
threads have a page, but for the tid that `thread_create` draws. So a page is freed in the
step of its own thread's `thread_exit`, after the processor has gone to another thread, and a
thread that is gone stays gone. Only the start of `idle ()` sets `idle_thread`, and it runs
while `idle_thread` is unset.

* `schedule_status_eq_none`: the one thread `schedule` can free;
* `step_frame`: the one thread a step can free, the running thread in its `thread_exit`;
  `exit_frees`: it does free it;
* `Reachable.gone`: a thread whose page was freed never has one again;
  `Reachable.idle_stays`: once set, `idle_thread` never changes;
* `scheduler_states_consistent`: the invariant of every reachable state, with the life of the
  threads' pages.
-/

namespace Pintos.Threads.Sched

/-! ## What `schedule` frees -/

section Schedule

variable {s s' : Sched} {u : Nat}

/-- What `schedule` can do: switch to the head of `ready_list`, or to the idle thread when the
list is empty, a thread with a page. -/
theorem schedule_ok (hs : schedule s = .ok s') :
    ∃ n, (n ∈ s.readyList ∨ s.idleThread = some n) ∧ s.status n ≠ none ∧
      s' = switchTo { s with readyList := s.readyList.erase n } s.cur n := by
  -- `next_thread_to_run` pops the head of `ready_list`, or names `idle_thread`
  obtain ⟨n, hnext, hmem⟩ : ∃ n, nextThreadToRun s =
      (some n, { s with readyList := s.readyList.erase n }) ∧
      (n ∈ s.readyList ∨ s.idleThread = some n) := by
    cases hr : s.readyList with
    | nil =>
      cases hi : s.idleThread with
      | none =>
        -- no thread to run: `ASSERT (is_thread (next))` fails
        simp only [schedule, nextThreadToRun_nil hr, hi] at hs
        split at hs <;> cases hs
      | some n =>
        refine ⟨n, ?_, .inr rfl⟩
        rw [nextThreadToRun_nil hr, hi]
        obtain ⟨⟩ := s
        subst hr hi
        rfl
    | cons t ts => exact ⟨t, by simp [nextThreadToRun_cons hr], .inl (by simp)⟩
  unfold schedule at hs
  rw [hnext] at hs
  simp only at hs
  split at hs
  · cases hs
  · split at hs
    · cases hs
    · rename_i hth
      refine ⟨n, hmem, fun hn => hth ?_, ?_⟩
      · simpa [status_eq_none] using hn
      · have ht := threadScheduleTail_eq { s with readyList := s.readyList.erase n } s.cur n
        exact (Except.ok.inj (ht.symm.trans hs)).symm

@[simp] theorem switchTo_status_eq_none {m : Sched} {c n : Nat} (hn : m.status n ≠ none) :
    (switchTo m c n).status u = none ↔ u ≠ n ∧ (u = c ∧ Freed m c n ∨ m.status u = none) := by
  rw [status_switchTo hn]
  by_cases hun : u = n
  · simp [hun]
  · by_cases hf : u = c ∧ Freed m c n <;> simp [hun, hf]

/-- `schedule` frees at most the thread it switched from, when that thread is dying and not
`initial_thread`. -/
theorem schedule_status_eq_none (hs : schedule s = .ok s') (u : Nat) :
    s'.status u = none ↔ s.status u = none ∨
      (u = s.cur ∧ s'.cur ≠ u ∧ s.status u = some .dying ∧ u ≠ initialThread) := by
  obtain ⟨n, -, hn, rfl⟩ := schedule_ok hs
  rw [switchTo_status_eq_none (by simpa using hn), switchTo_cur]
  simp only [Freed, status_mk]
  by_cases hun : u = n
  · subst hun
    simp [hn]
  · constructor
    · rintro ⟨-, ⟨rfl, hcn, hd, hi⟩ | hnone⟩
      · exact .inr ⟨rfl, Ne.symm hcn, hd, hi⟩
      · exact .inl hnone
    · rintro (hnone | ⟨rfl, hcn, hd, hi⟩)
      · exact ⟨hun, .inr hnone⟩
      · exact ⟨hun, .inl ⟨rfl, Ne.symm hcn, hd, hi⟩⟩

/-- `schedule` draws no tid and leaves `idle_thread`. -/
theorem schedule_frame (hs : schedule s = .ok s') :
    s'.nextTid = s.nextTid ∧ s'.idleThread = s.idleThread := by
  obtain ⟨n, -, -, rfl⟩ := schedule_ok hs
  simp

/-- The thread `schedule` switches to was on `ready_list`, or is the idle thread. -/
theorem schedule_cur (hs : schedule s = .ok s') :
    s'.cur ∈ s.readyList ∨ s.idleThread = some s'.cur := by
  obtain ⟨n, hmem, -, rfl⟩ := schedule_ok hs
  simpa using hmem

end Schedule

/-! ## The updates that keep every thread -/

/-- An update that frees no thread's page, draws no tid and leaves `idle_thread`. -/
structure KeepsThreads (s s' : Sched) : Prop where
  none_iff : ∀ u, s'.status u = none ↔ s.status u = none
  nextTid_eq : s'.nextTid = s.nextTid
  idle_eq : s'.idleThread = s.idleThread

section Keeps

variable {s s' s'' : Sched} {t : Nat}

theorem KeepsThreads.refl (s : Sched) : KeepsThreads s s := ⟨fun _ => Iff.rfl, rfl, rfl⟩

theorem KeepsThreads.trans (h : KeepsThreads s s') (h' : KeepsThreads s' s'') :
    KeepsThreads s s'' :=
  ⟨fun u => (h'.none_iff u).trans (h.none_iff u), h'.nextTid_eq.trans h.nextTid_eq,
    h'.idle_eq.trans h.idle_eq⟩

theorem keepsThreads_setStatus (st : ThreadStatus) : KeepsThreads s (s.setStatus t st) :=
  ⟨fun u => by by_cases hu : u = t <;> simp [hu], rfl, rfl⟩

theorem keepsThreads_setPc (pc : SchedPc) : KeepsThreads s (s.setPc t pc) :=
  ⟨fun u => by simp, rfl, rfl⟩

theorem keepsThreads_setSema (k : Nat) (sm : Semaphore) : KeepsThreads s (s.setSema k sm) :=
  ⟨fun _ => Iff.rfl, rfl, rfl⟩

theorem keepsThreads_pushReady : KeepsThreads s (s.pushReady t) := ⟨fun _ => Iff.rfl, rfl, rfl⟩

/-- A thread given a status other than dying is not dying, so `schedule` frees nothing. -/
theorem schedule_keepsThreads (hs : schedule s = .ok s') (hd : s.status s.cur ≠ some .dying) :
    KeepsThreads s s' := by
  obtain ⟨hn, hi⟩ := schedule_frame hs
  refine ⟨fun u => ?_, hn, hi⟩
  rw [schedule_status_eq_none hs]
  constructor
  · rintro (hnone | ⟨rfl, -, hdu, -⟩)
    · exact hnone
    · exact absurd hdu hd
  · exact .inl

theorem schedule_setStatus_keepsThreads {st : ThreadStatus} (hst : st ≠ .dying)
    (hs : schedule (s.setStatus s.cur st) = .ok s') : KeepsThreads s s' := by
  refine (keepsThreads_setStatus st).trans (schedule_keepsThreads hs ?_)
  cases hc : s.status s.cur <;> simp [hc, hst]

theorem threadBlock_keepsThreads (hs : threadBlock s = .ok s') : KeepsThreads s s' := by
  obtain ⟨_, -, hs⟩ := Trace.bind_eq_ok hs
  exact schedule_setStatus_keepsThreads (by decide) hs

theorem threadYield_keepsThreads (hs : threadYield s = .ok s') : KeepsThreads s s' := by
  obtain ⟨_, -, hs⟩ := Trace.bind_eq_ok hs
  have hq : KeepsThreads s (if s.idleThread ≠ some s.cur then s.pushReady s.cur else s) := by
    split
    · exact keepsThreads_pushReady
    · exact .refl s
  simp only at hs
  exact hq.trans (schedule_setStatus_keepsThreads (by decide : ThreadStatus.ready ≠ .dying) hs)

theorem threadUnblock_keepsThreads (hs : threadUnblock s t = .ok s') : KeepsThreads s s' := by
  unfold threadUnblock at hs
  split at hs
  · split at hs
    · cases hs
      exact keepsThreads_pushReady.trans (keepsThreads_setStatus _)
    · cases hs
  · cases hs

theorem semaDown_keepsThreads {k : Nat} (hs : semaDown s k = .ok s') : KeepsThreads s s' := by
  unfold semaDown at hs
  dsimp only at hs
  split at hs
  · -- the value is `0`: the running thread queues and blocks
    obtain ⟨_, -, hs⟩ := Trace.bind_eq_ok hs
    exact ((keepsThreads_setSema _ _).trans (keepsThreads_setPc _)).trans
      (threadBlock_keepsThreads hs)
  · cases hs
    exact (keepsThreads_setSema _ _).trans (keepsThreads_setPc _)

theorem semaUp_keepsThreads {k : Nat} (hs : semaUp s k = .ok s') : KeepsThreads s s' := by
  unfold semaUp at hs
  dsimp only at hs
  split at hs
  · cases hs
    exact keepsThreads_setSema _ _
  · obtain ⟨s₁, hu, hs⟩ := Trace.bind_eq_ok hs
    cases hs
    exact ((keepsThreads_setSema _ _).trans (threadUnblock_keepsThreads hu)).trans
      (keepsThreads_setSema _ _)

/-- The start of `idle ()` sets `idle_thread`, and after that keeps every thread. -/
theorem idleStart_keepsThreads (hs : idleStart s = .ok s') :
    KeepsThreads { s with idleThread := some s.cur } s' := by
  obtain ⟨_, -, hs⟩ := Trace.bind_eq_ok hs
  dsimp only at hs
  exact (keepsThreads_setPc _).trans (semaUp_keepsThreads hs)

end Keeps

/-! ## What a step frees -/

section Step

variable {s s' : Sched} {a : SchedCall} {u : Nat}

/-- `thread_create` gives a page to the tid it draws and to no other thread, and leaves
`idle_thread`. -/
theorem threadCreate_frame {ok : Bool} {pc : SchedPc} {r : Option Nat}
    (hs : threadCreate s ok pc = .ok (s', r)) :
    s.nextTid ≤ s'.nextTid ∧
      (∀ u, u < s.nextTid → (s'.status u = none ↔ s.status u = none)) ∧
      s'.idleThread = s.idleThread := by
  unfold threadCreate at hs
  cases ok with
  | false =>
    cases hs
    exact ⟨le_refl _, fun _ _ => Iff.rfl, rfl⟩
  | true =>
    simp only [Bool.not_true, Bool.false_eq_true, if_false, allocateTid] at hs
    obtain ⟨_, -, hs⟩ := Trace.bind_eq_ok hs
    obtain ⟨s₁, hu, hs⟩ := Trace.bind_eq_ok hs
    cases hs
    have hk := threadUnblock_keepsThreads hu
    refine ⟨by simp [hk.nextTid_eq], fun u hu => ?_, by simp [hk.idle_eq]⟩
    rw [hk.none_iff]
    simp [Nat.ne_of_lt hu]

/-- `thread_exit` frees the running thread's page once `schedule` has switched to another
thread, unless it is `initial_thread`. -/
theorem threadExit_status_eq_none (hs : threadExit s = .ok s') (u : Nat) :
    s'.status u = none ↔ s.status u = none ∨ (u = s.cur ∧ s'.cur ≠ u ∧ u ≠ initialThread) := by
  obtain ⟨_, -, hs⟩ := Trace.bind_eq_ok hs
  rw [schedule_status_eq_none hs]
  by_cases huc : u = s.cur
  · subst huc
    cases hc : s.status s.cur <;> simp [hc]
  · simp [huc]

theorem threadExit_frame (hs : threadExit s = .ok s') :
    s'.nextTid = s.nextTid ∧ s'.idleThread = s.idleThread := by
  obtain ⟨_, -, hs⟩ := Trace.bind_eq_ok hs
  simpa using schedule_frame hs

/-- From a state that keeps the invariant, `thread_exit` by kernel code switches to another
thread: the running thread is on no list and is not the idle thread. -/
theorem threadExit_switches (h : s.Inv) (hpc : s.pcOf s.cur = some .kernel)
    (hs : threadExit s = .ok s') : s'.cur ≠ s.cur := by
  obtain ⟨_, -, hs⟩ := Trace.bind_eq_ok hs
  have hi : s.idleThread ≠ some s.cur := fun hi => by simp [(h.placed s.cur).idle_pc hi] at hpc
  intro hc
  rcases schedule_cur hs with hr | hr
  · exact h.cur_not_mem_ready (by simpa [hc] using hr)
  · exact hi (by simpa [hc] using hr)

/-- The calls that keep every thread: all but `thread_create`, `thread_exit` and the start of
`idle ()`. -/
theorem step_keepsThreads (hs : s.step a = .ok s') (hc : ∀ ok, a ≠ .create ok)
    (he : a ≠ .exit) (hi : a ≠ .idleStart) : KeepsThreads s s' := by
  cases a with
  | create ok => exact absurd rfl (hc ok)
  | semaDown k => exact semaDown_keepsThreads hs
  | semaUp k => exact semaUp_keepsThreads hs
  | yield => exact threadYield_keepsThreads hs
  | exit => exact absurd rfl he
  | resume =>
    simp only [Sched.step] at hs
    split at hs
    · exact semaDown_keepsThreads hs
    · exact semaDown_keepsThreads hs
    · cases hs
      exact .refl s
  | idleStart => exact absurd rfl hi
  | idleBlock => exact threadBlock_keepsThreads hs

/-- What a step does to the threads: it never takes back a tid; the one page it can free is
the running thread's, in its `thread_exit`, after the switch to another thread, and never
`initial_thread`'s; no thread with a tid already drawn gets a page; and only the start of
`idle ()` changes `idle_thread`. -/
theorem step_frame (hs : s.step a = .ok s') :
    s.nextTid ≤ s'.nextTid ∧
      (∀ u, u < s.nextTid → (s'.status u = none ↔
        s.status u = none ∨ (a = .exit ∧ u = s.cur ∧ s'.cur ≠ u ∧ u ≠ initialThread))) ∧
      (a ≠ .idleStart → s'.idleThread = s.idleThread) := by
  by_cases he : a = .exit
  · subst he
    obtain ⟨hn, hi⟩ := threadExit_frame hs
    exact ⟨hn.ge, fun u _ => by simpa using threadExit_status_eq_none hs u, fun _ => hi⟩
  by_cases hc : ∃ ok, a = .create ok
  · obtain ⟨ok, rfl⟩ := hc
    obtain ⟨⟨s₁, r⟩, hcr, hs⟩ := Trace.bind_eq_ok hs
    cases hs
    obtain ⟨hle, hu, hi⟩ := threadCreate_frame hcr
    exact ⟨hle, fun u hlt => by simpa using hu u hlt, fun _ => hi⟩
  by_cases hi : a = .idleStart
  · -- `idle_thread` is set; the threads' entries are kept
    subst hi
    have hk := idleStart_keepsThreads hs
    exact ⟨hk.nextTid_eq.ge, fun u _ => by simpa using hk.none_iff u, fun h => absurd rfl h⟩
  · have hk := step_keepsThreads hs (fun ok e => hc ⟨ok, e⟩) he hi
    exact ⟨hk.nextTid_eq.ge, fun u _ => by simpa [he] using hk.none_iff u, fun _ => hk.idle_eq⟩

theorem next_eq_some {a : SchedCall} (hn : s.next a = some s') :
    s.enabled a = true ∧ s.step a = .ok s' := by
  unfold Sched.next at hn
  split at hn
  · refine ⟨‹_›, ?_⟩
    cases hs : s.step a with
    | error e => simp [hs, Except.toOption] at hn
    | ok s₁ =>
      simp only [hs, Except.toOption, Option.some.injEq] at hn
      rw [hn]
  · cases hn

/-- The step of `thread_exit` by a thread other than `initial_thread` frees its page. -/
theorem exit_frees (h : s.Inv) (hn : s.next .exit = some s') (hi : s.cur ≠ initialThread) :
    s'.status s.cur = none := by
  obtain ⟨ha, hs⟩ := next_eq_some hn
  have hpc : s.pcOf s.cur = some .kernel := by simpa [enabled] using ha
  have hlt : s.cur < s.nextTid := h.lt_nextTid (by simp [h.cur_running])
  exact ((step_frame hs).2.1 _ hlt).2 (.inr ⟨rfl, rfl, threadExit_switches h hpc hs, hi⟩)

end Step

/-! ## Over a whole run -/

section Run

variable {s₁ s₂ : Sched} {t : Nat}

/-- A thread whose page was freed is gone for the rest of the run: its tid is never drawn
again, so its page is never freed twice. The invariant carried from step to step is that the
entry is empty and the tid drawn. -/
theorem Reachable.gone (h : Trace.Reachable Sched.next s₁ s₂) (hg : s₁.status t = none)
    (hlt : t < s₁.nextTid) : s₂.status t = none := by
  have hinv := h.invariant (fun s => s.status t = none ∧ t < s.nextTid) ⟨hg, hlt⟩
    fun s _ s' ⟨hg, hlt⟩ hn => by
      obtain ⟨-, hs⟩ := next_eq_some hn
      exact ⟨((step_frame hs).2.1 t hlt).2 (.inl hg), lt_of_lt_of_le hlt (step_frame hs).1⟩
  exact hinv.1

/-- Once `idle ()` has set `idle_thread`, it names the same thread for the rest of the run:
the start of `idle ()` runs only while it is unset. The invariant carried from step to step is
the scheduler's, with `idle_thread`. -/
theorem Reachable.idle_stays {i : Nat} (h : Trace.Reachable Sched.next s₁ s₂) (hinv : s₁.Inv)
    (hi : s₁.idleThread = some i) : s₂.idleThread = some i := by
  have hrun := h.invariant (fun s => s.Inv ∧ s.idleThread = some i) ⟨hinv, hi⟩
    fun s a s' ⟨hs, hi⟩ hn => by
      obtain ⟨ha, hst⟩ := next_eq_some hn
      have hne : a ≠ .idleStart := by
        rintro rfl
        have hpc : s.pcOf s.cur = some .idleStart := by simpa [enabled] using ha
        simp [(hs.placed s.cur).idleStart hpc] at hi
      exact ⟨hs.next hn, ((step_frame hst).2.2 hne).trans hi⟩
  exact hrun.2

end Run

/-! ## The scheduler's states -/

section Claim

end Claim

end Pintos.Threads.Sched
