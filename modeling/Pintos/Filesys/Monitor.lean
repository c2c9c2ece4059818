import Pintos.Lib.Trace

/-!
The reader/writer monitor of a `struct inode` (`filesys/inode.c`): `reader_checkin`,
`reader_checkout`, `writer_checkin` and `writer_checkout`, over the lock `l` and the
conditions `ok_to_read` and `ok_to_write`, with `cond_wait`, `cond_signal` and
`cond_broadcast` of `threads/synch.c`.

A region that holds `l`, up to its release or to the `cond_wait` that gives it up, is one
step. The waiters of a condition are the threads `cond_wait` queued, oldest first;
`cond_signal` wakes the oldest, `cond_broadcast` all of them, and a woken thread runs the
rest of its `while` loop when it next gets `l` (Mesa style). The four `size_t` counters are
integers here: that none of them goes below zero is part of what is proved.

* `MonitorInv`: every counter counts the threads that stand where it says, and the waiters
  of each condition are distinct threads blocked on it;
* `monitorStep_inv`: every step of any thread keeps it;
* `monitor_safe`: so in every state reached from `monitorInit n`, for any number `n` of
  threads, at most one writer is active, never a writer and a reader at once, and no
  counter has gone below zero.
-/

namespace Pintos.Filesys

/-- Where a thread stands in the monitor code. -/
inductive MonitorPc where
  /-- outside every check-in -/
  | idle
  /-- between `reader_checkin` and `reader_checkout` -/
  | reading
  /-- between `writer_checkin` and `writer_checkout` -/
  | writing
  /-- queued on `ok_to_read` by `cond_wait` -/
  | readWait
  /-- woken from `ok_to_read`, waiting for `l` -/
  | readWoken
  | writeWait
  | writeWoken
  deriving DecidableEq, Repr

/-- The two conditions of `struct inode`. -/
inductive Condition where
  | okToRead
  | okToWrite
  deriving DecidableEq, Repr

/-- Where `cond_wait` leaves a thread on the condition. -/
def Condition.waitPc : Condition → MonitorPc
  | .okToRead => .readWait
  | .okToWrite => .writeWait

/-- Where `cond_signal` moves the thread it wakes. -/
def Condition.wokenPc : Condition → MonitorPc
  | .okToRead => .readWoken
  | .okToWrite => .writeWoken

/-- The monitor fields of one `struct inode`, the waiters of its conditions by thread
number, and where each thread stands. -/
structure Monitor where
  activeWriters : Int
  activeReaders : Int
  waitingWriters : Int
  waitingReaders : Int
  okToRead : List Nat
  okToWrite : List Nat
  pcs : List MonitorPc
  deriving DecidableEq, Repr

namespace Monitor

def waiters (m : Monitor) : Condition → List Nat
  | .okToRead => m.okToRead
  | .okToWrite => m.okToWrite

def setWaiters (m : Monitor) : Condition → List Nat → Monitor
  | .okToRead, ws => { m with okToRead := ws }
  | .okToWrite, ws => { m with okToWrite := ws }

def setPc (m : Monitor) (t : Nat) (p : MonitorPc) : Monitor := { m with pcs := m.pcs.set t p }

end Monitor

/-- No thread is in any monitor code yet: `inode_open` sets the counters to `0` and
`cond_init` empties the waiters. -/
def monitorInit (n : Nat) : Monitor := ⟨0, 0, 0, 0, [], [], List.replicate n .idle⟩

/-! ## Conditions -/

/-- `cond_wait (cond, &inode->l)` by thread `t`: queued last, and blocked. -/
def condWait (m : Monitor) (c : Condition) (t : Nat) : Monitor :=
  (m.setWaiters c (m.waiters c ++ [t])).setPc t c.waitPc

/-- `cond_signal (cond, &inode->l)`: the oldest waiter, if any, is woken. -/
def condSignal (m : Monitor) (c : Condition) : Monitor :=
  match m.waiters c with
  | [] => m
  | t :: ws => (m.setWaiters c ws).setPc t c.wokenPc

/-- The loop of `cond_broadcast`: it signals while there is a waiter, and every signal
takes one off, so `n` rounds serve `n` waiters. -/
def broadcastLoop (c : Condition) : Nat → Monitor → Monitor
  | 0, m => m
  | n + 1, m => if m.waiters c = [] then m else broadcastLoop c n (condSignal m c)

/-- `cond_broadcast (cond, &inode->l)`. -/
def condBroadcast (m : Monitor) (c : Condition) : Monitor :=
  broadcastLoop c (m.waiters c).length m

/-! ## The monitor -/

/-- The `while` loop of `reader_checkin` from its test, with `l` held: a reader waits while
a writer is active or waiting. -/
def readerLoop (m : Monitor) (t : Nat) : Monitor :=
  if m.activeWriters + m.waitingWriters > 0 then
    condWait { m with waitingReaders := m.waitingReaders + 1 } .okToRead t
  else { m with activeReaders := m.activeReaders + 1 }.setPc t .reading

/-- `reader_checkin (inode)` by thread `t`, up to its first release of `l`. -/
def readerCheckin (m : Monitor) (t : Nat) : Monitor := readerLoop m t

/-- A reader woken in `reader_checkin`, once it holds `l` again. -/
def readerWake (m : Monitor) (t : Nat) : Monitor :=
  readerLoop { m with waitingReaders := m.waitingReaders - 1 } t

/-- `reader_checkout (inode)` by thread `t`. -/
def readerCheckout (m : Monitor) (t : Nat) : Monitor :=
  let m := { m with activeReaders := m.activeReaders - 1 }.setPc t .idle
  if m.activeReaders = 0 ∧ m.waitingWriters > 0 then condSignal m .okToWrite else m

/-- The `while` loop of `writer_checkin` from its test: a writer waits while a writer or a
reader is active. -/
def writerLoop (m : Monitor) (t : Nat) : Monitor :=
  if m.activeWriters + m.activeReaders > 0 then
    condWait { m with waitingWriters := m.waitingWriters + 1 } .okToWrite t
  else { m with activeWriters := m.activeWriters + 1 }.setPc t .writing

/-- `writer_checkin (inode)` by thread `t`, up to its first release of `l`. -/
def writerCheckin (m : Monitor) (t : Nat) : Monitor := writerLoop m t

/-- A writer woken in `writer_checkin`, once it holds `l` again. -/
def writerWake (m : Monitor) (t : Nat) : Monitor :=
  writerLoop { m with waitingWriters := m.waitingWriters - 1 } t

/-- `writer_checkout (inode)` by thread `t`: a waiting writer is signalled before the
readers are broadcast to. -/
def writerCheckout (m : Monitor) (t : Nat) : Monitor :=
  let m := { m with activeWriters := m.activeWriters - 1 }.setPc t .idle
  if m.waitingWriters > 0 then condSignal m .okToWrite
  else if m.waitingReaders > 0 then condBroadcast m .okToRead
  else m

/-- The steps of thread `t`. Each call is bracketed: a check-in starts outside the monitor,
a check-out follows its own check-in, and only a woken thread takes up its loop again. -/
inductive MonitorEvent where
  | readerCheckin (t : Nat)
  | readerCheckout (t : Nat)
  | writerCheckin (t : Nat)
  | writerCheckout (t : Nat)
  | wake (t : Nat)
  deriving DecidableEq, Repr

/-- The step of an event, `none` when its thread does not stand where the event starts. -/
def monitorStep (m : Monitor) : MonitorEvent → Option Monitor
  | .readerCheckin t => if m.pcs[t]? = some .idle then some (readerCheckin m t) else none
  | .readerCheckout t => if m.pcs[t]? = some .reading then some (readerCheckout m t) else none
  | .writerCheckin t => if m.pcs[t]? = some .idle then some (writerCheckin m t) else none
  | .writerCheckout t => if m.pcs[t]? = some .writing then some (writerCheckout m t) else none
  | .wake t =>
    match m.pcs[t]? with
    | some .readWoken => some (readerWake m t)
    | some .writeWoken => some (writerWake m t)
    | _ => none

/-! ## The invariant -/

/-- Each counter counts the threads it is for: the woken threads stay counted as waiting
until they hold `l` again. -/
structure Counted (m : Monitor) : Prop where
  activeReaders : m.activeReaders = m.pcs.count .reading
  activeWriters : m.activeWriters = m.pcs.count .writing
  waitingReaders : m.waitingReaders = m.pcs.count .readWait + m.pcs.count .readWoken
  waitingWriters : m.waitingWriters = m.pcs.count .writeWait + m.pcs.count .writeWoken

/-- The waiters of each condition are distinct threads, each blocked on it. -/
def Queued (m : Monitor) : Prop :=
  ∀ c, (m.waiters c).Nodup ∧ ∀ t ∈ m.waiters c, m.pcs[t]? = some c.waitPc

structure MonitorInv (m : Monitor) : Prop where
  counted : Counted m
  queued : Queued m
  oneWriter : m.activeWriters ≤ 1
  exclusive : m.activeWriters = 0 ∨ m.activeReaders = 0

@[simp] theorem waitPc_ne_wokenPc (c c' : Condition) : c.waitPc ≠ c'.wokenPc := by
  cases c <;> cases c' <;> decide

theorem waitPc_inj {c c' : Condition} (h : c.waitPc = c'.waitPc) : c = c' := by
  cases c <;> cases c' <;> first | rfl | cases h

@[simp] theorem waiters_setPc (m : Monitor) (t : Nat) (p : MonitorPc) (c : Condition) :
    (m.setPc t p).waiters c = m.waiters c := by
  cases c <;> rfl

@[simp] theorem pcs_setPc (m : Monitor) (t : Nat) (p : MonitorPc) :
    (m.setPc t p).pcs = m.pcs.set t p := rfl

@[simp] theorem activeReaders_setPc (m : Monitor) (t : Nat) (p : MonitorPc) :
    (m.setPc t p).activeReaders = m.activeReaders := rfl

@[simp] theorem activeWriters_setPc (m : Monitor) (t : Nat) (p : MonitorPc) :
    (m.setPc t p).activeWriters = m.activeWriters := rfl

@[simp] theorem waitingReaders_setPc (m : Monitor) (t : Nat) (p : MonitorPc) :
    (m.setPc t p).waitingReaders = m.waitingReaders := rfl

@[simp] theorem waitingWriters_setPc (m : Monitor) (t : Nat) (p : MonitorPc) :
    (m.setPc t p).waitingWriters = m.waitingWriters := rfl

@[simp] theorem waiters_setWaiters (m : Monitor) (c c' : Condition) (ws : List Nat) :
    (m.setWaiters c ws).waiters c' = if c' = c then ws else m.waiters c' := by
  cases c <;> cases c' <;> rfl

@[simp] theorem pcs_setWaiters (m : Monitor) (c : Condition) (ws : List Nat) :
    (m.setWaiters c ws).pcs = m.pcs := by
  cases c <;> rfl

/-- What setting one slot of a list does to the number of slots holding `r`. -/
theorem count_set_of_getElem? {α : Type} [DecidableEq α] {l : List α} {t : Nat} {p : α}
    (h : l[t]? = some p) (q r : α) :
    ((l.set t q).count r : Int) = l.count r - (if p = r then 1 else 0) + (if q = r then 1 else 0) := by
  obtain ⟨ht, hp⟩ := List.getElem?_eq_some_iff.mp h
  rw [List.count_set ht, hp]
  by_cases e : p = r
  · have hpos : 0 < l.count r := List.count_pos_iff.mpr (e ▸ hp ▸ List.getElem_mem ht)
    by_cases e' : q = r <;> simp [e, e'] <;> omega
  · by_cases e' : q = r <;> simp [e, e']

/-- A thread blocked on no condition is on no queue. -/
theorem not_mem_waiters {m : Monitor} (hq : Queued m) {t : Nat} {p : MonitorPc}
    (ht : m.pcs[t]? = some p) (hp : ∀ c : Condition, p ≠ c.waitPc) (c : Condition) : t ∉ m.waiters c := by
  intro hmem
  have := (hq c).2 t hmem
  rw [ht] at this
  exact hp c (Option.some.inj this)

theorem queued_setPc {m : Monitor} (hq : Queued m) {t : Nat} {p q : MonitorPc}
    (ht : m.pcs[t]? = some p) (hp : ∀ c : Condition, p ≠ c.waitPc) : Queued (m.setPc t q) := by
  intro c
  refine ⟨by simpa using (hq c).1, fun t' ht' => ?_⟩
  rw [waiters_setPc] at ht'
  have hne : t ≠ t' := fun e => not_mem_waiters hq ht hp c (e ▸ ht')
  simpa [List.getElem?_set_ne hne] using (hq c).2 t' ht'

theorem queued_condWait {m : Monitor} (hq : Queued m) {t : Nat} {p : MonitorPc}
    (ht : m.pcs[t]? = some p) (hp : ∀ c : Condition, p ≠ c.waitPc) (c : Condition) :
    Queued (condWait m c t) := by
  have hlt : t < m.pcs.length := (List.getElem?_eq_some_iff.mp ht).1
  intro c'
  by_cases e : c' = c
  · subst e
    simp only [condWait, waiters_setPc, waiters_setWaiters, if_true, pcs_setPc, pcs_setWaiters]
    refine ⟨List.nodup_append.mpr ⟨(hq c').1, by simp, ?_⟩, fun t' ht' => ?_⟩
    · intro a ha b hb
      rw [List.mem_singleton] at hb
      subst hb
      exact fun e => not_mem_waiters hq ht hp c' (e ▸ ha)
    · rcases List.mem_append.mp ht' with ht' | ht'
      · have hne : t ≠ t' := fun e => not_mem_waiters hq ht hp c' (e ▸ ht')
        simpa [List.getElem?_set_ne hne] using (hq c').2 t' ht'
      · rw [List.mem_singleton] at ht'
        subst ht'
        simp [hlt]
  · simp only [condWait, waiters_setPc, waiters_setWaiters, e, if_false, pcs_setPc,
      pcs_setWaiters]
    refine ⟨(hq c').1, fun t' ht' => ?_⟩
    have hne : t ≠ t' := fun e => not_mem_waiters hq ht hp c' (e ▸ ht')
    simpa [List.getElem?_set_ne hne] using (hq c').2 t' ht'

theorem queued_condSignal {m : Monitor} (hq : Queued m) (c : Condition) :
    Queued (condSignal m c) := by
  unfold condSignal
  split
  · exact hq
  · rename_i t ws hws
    have hnd := (hq c).1
    rw [hws, List.nodup_cons] at hnd
    have htc : m.pcs[t]? = some c.waitPc := (hq c).2 t (by simp [hws])
    intro c'
    by_cases e : c' = c
    · subst e
      simp only [waiters_setPc, waiters_setWaiters, if_true, pcs_setPc, pcs_setWaiters]
      refine ⟨hnd.2, fun t' ht' => ?_⟩
      have hne : t ≠ t' := fun e => hnd.1 (e ▸ ht')
      simpa [List.getElem?_set_ne hne] using (hq c').2 t' (by simp [hws, ht'])
    · simp only [waiters_setPc, waiters_setWaiters, e, if_false, pcs_setPc, pcs_setWaiters]
      refine ⟨(hq c').1, fun t' ht' => ?_⟩
      have ht'c := (hq c').2 t' ht'
      have hne : t ≠ t' := by
        rintro rfl
        rw [htc] at ht'c
        exact e (waitPc_inj (Option.some.inj ht'c)).symm
      simpa [List.getElem?_set_ne hne] using ht'c

@[simp] theorem activeReaders_setWaiters (m : Monitor) (c : Condition) (ws : List Nat) :
    (m.setWaiters c ws).activeReaders = m.activeReaders := by
  cases c <;> rfl

@[simp] theorem activeWriters_setWaiters (m : Monitor) (c : Condition) (ws : List Nat) :
    (m.setWaiters c ws).activeWriters = m.activeWriters := by
  cases c <;> rfl

@[simp] theorem waitingReaders_setWaiters (m : Monitor) (c : Condition) (ws : List Nat) :
    (m.setWaiters c ws).waitingReaders = m.waitingReaders := by
  cases c <;> rfl

@[simp] theorem waitingWriters_setWaiters (m : Monitor) (c : Condition) (ws : List Nat) :
    (m.setWaiters c ws).waitingWriters = m.waitingWriters := by
  cases c <;> rfl

theorem condSignal_nil {m : Monitor} {c : Condition} (h : m.waiters c = []) :
    condSignal m c = m := by
  simp [condSignal, h]

theorem condSignal_cons {m : Monitor} {c : Condition} {t : Nat} {ws : List Nat}
    (h : m.waiters c = t :: ws) : condSignal m c = (m.setWaiters c ws).setPc t c.wokenPc := by
  simp [condSignal, h]

/-! ## Each step keeps the invariant -/

/-- A signal moves the oldest waiter from blocked to woken, both counted by the same
counter. -/
theorem inv_condSignal {m : Monitor} (h : MonitorInv m) (c : Condition) :
    MonitorInv (condSignal m c) := by
  cases hws : m.waiters c with
  | nil => rwa [condSignal_nil hws]
  | cons t ws =>
    have hq := queued_condSignal h.queued c
    rw [condSignal_cons hws] at hq ⊢
    have ht : m.pcs[t]? = some c.waitPc := (h.queued c).2 t (by simp [hws])
    obtain ⟨⟨har, haw, hwr, hww⟩, -, h1, hx⟩ := h
    have hcount := count_set_of_getElem? ht c.wokenPc
    refine ⟨⟨?_, ?_, ?_, ?_⟩, hq, by simpa using h1, by simpa using hx⟩
    all_goals
      cases c <;> simp only [Condition.waitPc, Condition.wokenPc] at hcount ⊢ <;>
        simp [hcount] <;> omega

theorem inv_broadcastLoop (c : Condition) :
    ∀ (n : Nat) {m : Monitor}, MonitorInv m → MonitorInv (broadcastLoop c n m) := by
  intro n
  induction n with
  | zero => intro m h; exact h
  | succ n ih =>
    intro m h
    unfold broadcastLoop
    split
    · exact h
    · exact ih (inv_condSignal h c)

theorem inv_condBroadcast {m : Monitor} (h : MonitorInv m) (c : Condition) :
    MonitorInv (condBroadcast m c) :=
  inv_broadcastLoop c _ h

theorem idle_ne_waitPc (c : Condition) : MonitorPc.idle ≠ c.waitPc := by
  cases c <;> decide

/-- A thread that enters `reader_checkin` from outside. -/
theorem inv_readerLoop {m : Monitor} {t : Nat} (h : MonitorInv m) (ht : m.pcs[t]? = some .idle) :
    MonitorInv (readerLoop m t) := by
  obtain ⟨⟨har, haw, hwr, hww⟩, hq, h1, hx⟩ := h
  have hcount := count_set_of_getElem? ht
  unfold readerLoop
  split
  · -- `waiting_readers++` and `cond_wait` on `ok_to_read`
    refine ⟨⟨?_, ?_, ?_, ?_⟩, queued_condWait hq ht idle_ne_waitPc .okToRead, ?_, ?_⟩
    all_goals simp [condWait, Condition.waitPc, hcount]
    all_goals omega
  · -- no writer is active or waiting, so none is active: one more active reader
    refine ⟨⟨?_, ?_, ?_, ?_⟩, queued_setPc hq ht idle_ne_waitPc, ?_, ?_⟩
    all_goals simp [hcount]
    all_goals omega

/-- A thread that enters `writer_checkin` from outside. -/
theorem inv_writerLoop {m : Monitor} {t : Nat} (h : MonitorInv m) (ht : m.pcs[t]? = some .idle) :
    MonitorInv (writerLoop m t) := by
  obtain ⟨⟨har, haw, hwr, hww⟩, hq, h1, hx⟩ := h
  have hcount := count_set_of_getElem? ht
  unfold writerLoop
  split
  · refine ⟨⟨?_, ?_, ?_, ?_⟩, queued_condWait hq ht idle_ne_waitPc .okToWrite, ?_, ?_⟩
    all_goals simp [condWait, Condition.waitPc, hcount]
    all_goals omega
  · -- no writer and no reader is active: the only active writer
    refine ⟨⟨?_, ?_, ?_, ?_⟩, queued_setPc hq ht idle_ne_waitPc, ?_, ?_⟩
    all_goals simp [hcount]
    all_goals omega

theorem reading_ne_waitPc (c : Condition) : MonitorPc.reading ≠ c.waitPc := by
  cases c <;> decide

theorem writing_ne_waitPc (c : Condition) : MonitorPc.writing ≠ c.waitPc := by
  cases c <;> decide

theorem readWoken_ne_waitPc (c : Condition) : MonitorPc.readWoken ≠ c.waitPc := by
  cases c <;> decide

theorem writeWoken_ne_waitPc (c : Condition) : MonitorPc.writeWoken ≠ c.waitPc := by
  cases c <;> decide

/-- The loops of the check-ins overwrite the place of their thread. -/
theorem readerLoop_setPc (m : Monitor) (t : Nat) (p : MonitorPc) :
    readerLoop (m.setPc t p) t = readerLoop m t := by
  simp [readerLoop, condWait, Monitor.setPc, Monitor.setWaiters, Monitor.waiters, List.set_set]

theorem writerLoop_setPc (m : Monitor) (t : Nat) (p : MonitorPc) :
    writerLoop (m.setPc t p) t = writerLoop m t := by
  simp [writerLoop, condWait, Monitor.setPc, Monitor.setWaiters, Monitor.waiters, List.set_set]

theorem inv_readerCheckout {m : Monitor} {t : Nat} (h : MonitorInv m)
    (ht : m.pcs[t]? = some .reading) : MonitorInv (readerCheckout m t) := by
  have hout : MonitorInv ({ m with activeReaders := m.activeReaders - 1 }.setPc t .idle) := by
    obtain ⟨⟨har, haw, hwr, hww⟩, hq, h1, hx⟩ := h
    have hcount := count_set_of_getElem? ht
    have hr := hcount .idle .reading
    simp only [↓reduceIte, reduceCtorEq] at hr
    refine ⟨⟨?_, ?_, ?_, ?_⟩, queued_setPc hq ht reading_ne_waitPc, ?_, ?_⟩
    all_goals simp [hcount]
    all_goals omega
  unfold readerCheckout
  dsimp only
  split
  · exact inv_condSignal hout _
  · exact hout

theorem inv_writerCheckout {m : Monitor} {t : Nat} (h : MonitorInv m)
    (ht : m.pcs[t]? = some .writing) : MonitorInv (writerCheckout m t) := by
  have hout : MonitorInv ({ m with activeWriters := m.activeWriters - 1 }.setPc t .idle) := by
    obtain ⟨⟨har, haw, hwr, hww⟩, hq, h1, hx⟩ := h
    have hcount := count_set_of_getElem? ht
    have hw := hcount .idle .writing
    simp only [↓reduceIte, reduceCtorEq] at hw
    refine ⟨⟨?_, ?_, ?_, ?_⟩, queued_setPc hq ht writing_ne_waitPc, ?_, ?_⟩
    all_goals simp [hcount]
    all_goals omega
  unfold writerCheckout
  dsimp only
  split
  · exact inv_condSignal hout _
  · split
    · exact inv_condBroadcast hout _
    · exact hout

/-- A woken reader leaves the count of waiting readers before it tests again, which is the
test of a thread coming from outside. -/
theorem inv_readerWake {m : Monitor} {t : Nat} (h : MonitorInv m)
    (ht : m.pcs[t]? = some .readWoken) : MonitorInv (readerWake m t) := by
  have hout : MonitorInv ({ m with waitingReaders := m.waitingReaders - 1 }.setPc t .idle) := by
    obtain ⟨⟨har, haw, hwr, hww⟩, hq, h1, hx⟩ := h
    have hcount := count_set_of_getElem? ht
    have hr := hcount .idle .readWoken
    simp only [↓reduceIte, reduceCtorEq] at hr
    refine ⟨⟨?_, ?_, ?_, ?_⟩, queued_setPc hq ht readWoken_ne_waitPc, ?_, ?_⟩
    all_goals simp [hcount]
    all_goals omega
  have hlt : t < m.pcs.length := (List.getElem?_eq_some_iff.mp ht).1
  rw [readerWake, ← readerLoop_setPc _ t .idle]
  exact inv_readerLoop hout (by simp [hlt])

theorem inv_writerWake {m : Monitor} {t : Nat} (h : MonitorInv m)
    (ht : m.pcs[t]? = some .writeWoken) : MonitorInv (writerWake m t) := by
  have hout : MonitorInv ({ m with waitingWriters := m.waitingWriters - 1 }.setPc t .idle) := by
    obtain ⟨⟨har, haw, hwr, hww⟩, hq, h1, hx⟩ := h
    have hcount := count_set_of_getElem? ht
    have hw := hcount .idle .writeWoken
    simp only [↓reduceIte, reduceCtorEq] at hw
    refine ⟨⟨?_, ?_, ?_, ?_⟩, queued_setPc hq ht writeWoken_ne_waitPc, ?_, ?_⟩
    all_goals simp [hcount]
    all_goals omega
  have hlt : t < m.pcs.length := (List.getElem?_eq_some_iff.mp ht).1
  rw [writerWake, ← writerLoop_setPc _ t .idle]
  exact inv_writerLoop hout (by simp [hlt])

theorem monitorStep_inv {m m' : Monitor} (h : MonitorInv m) {e : MonitorEvent}
    (he : monitorStep m e = some m') : MonitorInv m' := by
  cases e with
  | readerCheckin t =>
    simp only [monitorStep] at he
    split at he
    · rename_i ht
      cases he
      exact inv_readerLoop h ht
    · cases he
  | readerCheckout t =>
    simp only [monitorStep] at he
    split at he
    · rename_i ht
      cases he
      exact inv_readerCheckout h ht
    · cases he
  | writerCheckin t =>
    simp only [monitorStep] at he
    split at he
    · rename_i ht
      cases he
      exact inv_writerLoop h ht
    · cases he
  | writerCheckout t =>
    simp only [monitorStep] at he
    split at he
    · rename_i ht
      cases he
      exact inv_writerCheckout h ht
    · cases he
  | wake t =>
    simp only [monitorStep] at he
    split at he
    · rename_i ht
      cases he
      exact inv_readerWake h ht
    · rename_i ht
      cases he
      exact inv_writerWake h ht
    · cases he

theorem monitorInit_inv (n : Nat) : MonitorInv (monitorInit n) := by
  refine ⟨⟨?_, ?_, ?_, ?_⟩, ?_, ?_, ?_⟩
  all_goals simp [monitorInit, List.count_replicate]
  intro c
  cases c <;> simp [Monitor.waiters]

theorem reachable_monitorInv {n : Nat} {m : Monitor}
    (h : Trace.Reachable monitorStep (monitorInit n) m) : MonitorInv m :=
  h.invariant MonitorInv (monitorInit_inv n) fun _ _ _ hs he => monitorStep_inv hs he

/-! ## Safety -/

/-- However many threads check in and out, as readers or writers and in any order, at most
one writer is active, a writer is never active together with a reader, and none of the four
counters has gone below zero. -/
theorem monitor_safe {n : Nat} {m : Monitor} (h : Trace.Reachable monitorStep (monitorInit n) m) :
    m.activeWriters ≤ 1 ∧ ¬(m.activeWriters > 0 ∧ m.activeReaders > 0) ∧
      0 ≤ m.activeWriters ∧ 0 ≤ m.activeReaders ∧ 0 ≤ m.waitingWriters ∧
      0 ≤ m.waitingReaders := by
  obtain ⟨⟨har, haw, hwr, hww⟩, -, h1, hx⟩ := reachable_monitorInv h
  refine ⟨h1, ?_, ?_, ?_, ?_, ?_⟩ <;> omega

/-- Two readers, the first of which then upgrades as an extending `inode_write_at` does:
its `writer_checkin` waits for the second reader, whose `reader_checkout` signals it, and it
wakes as the only active writer. -/
theorem monitor_safe_after_upgrade :
    let m : Monitor := ⟨1, 0, 0, 0, [], [], [.writing, .idle]⟩
    Trace.Reachable monitorStep (monitorInit 2) m ∧
      (m.activeWriters ≤ 1 ∧ ¬(m.activeWriters > 0 ∧ m.activeReaders > 0) ∧
        0 ≤ m.activeWriters ∧ 0 ≤ m.activeReaders ∧ 0 ≤ m.waitingWriters ∧
        0 ≤ m.waitingReaders) := by
  intro m
  have hrun : Trace.replay monitorStep (monitorInit 2)
      [.readerCheckin 0, .readerCheckin 1, .readerCheckout 0, .writerCheckin 0,
        .readerCheckout 1, .wake 0] = some m := by
    decide
  have hm := Trace.Reachable.replay _ Trace.Reachable.refl hrun
  exact ⟨hm, monitor_safe hm⟩

end Pintos.Filesys
