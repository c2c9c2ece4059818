import Pintos.Devices.Block
import Pintos.Lib.Trace

/-!
The interrupt queue of `devices/intq.c`: a ring of `INTQ_BUFSIZE` bytes shared by kernel
threads and interrupt handlers, with one waiter slot per side and a lock that lets one
thread wait at a time.

Interrupts are off inside every call, so a call runs without interruption until its thread
blocks (in `wait`, or in the `sema_down` of `lock_acquire`) or returns. A step of the model
is such a stretch: a thread starting `intq_getc` or `intq_putc`, a woken thread resuming
where it blocked, or an interrupt handler's call, which the code only allows on a queue that
is not empty (for `intq_getc`) or not full (for `intq_putc`). The lock is its semaphore:
`lock_release` wakes the first thread blocked on it, which tests the value again when it
runs. A failed `ASSERT` stops the kernel: `.panic`. The bytes put and taken are recorded
beside the state (`puts`, `gets`); the code does not keep them.

* `Intq.Inv.next`, `intq_fifo`: over every run, the bytes taken are the bytes put, in order,
  with the rest still queued; the queue holds at most `INTQ_BUFSIZE - 1` bytes and `head`
  and `tail` stay below `INTQ_BUFSIZE`;
* `second_reader_fails_wait_assert`: two readers and two bytes put by an interrupt handler
  reach the `ASSERT` of `wait`: the second reader, woken by the first one's
  `lock_release`, acquires the lock and calls `wait` on a queue that is no longer empty.
-/

namespace Pintos.Devices

/-- `INTQ_BUFSIZE`. -/
def INTQ_BUFSIZE : Nat := 64

/-- `next (pos)`. -/
def next (pos : Nat) : Nat := (pos + 1) % INTQ_BUFSIZE

/-- The circular buffer of `struct intq`: `buf`, `head` and `tail`. -/
structure Ring where
  buf : List UInt8
  head : Nat
  tail : Nat
  deriving DecidableEq, Repr

namespace Ring

/-- `intq_empty (q)`. -/
def empty (r : Ring) : Bool := r.head == r.tail

/-- `intq_full (q)`. -/
def full (r : Ring) : Bool := next r.head == r.tail

/-- `q->buf[q->head] = byte; q->head = next (q->head);` -/
def put (r : Ring) (byte : UInt8) : Ring :=
  { r with buf := r.buf.set r.head byte, head := next r.head }

/-- `byte = q->buf[q->tail]; q->tail = next (q->tail);` -/
def take (r : Ring) : UInt8 × Ring := (r.buf.getD r.tail 0, { r with tail := next r.tail })

end Ring

/-- Where a thread stopped inside a call: blocked in the `sema_down` of `lock_acquire`, or in
`wait`, on either side (a putter with the byte it is to put). -/
inductive Pc where
  | idle
  | getAcquire
  | getWait
  | putAcquire (byte : UInt8)
  | putWait (byte : UInt8)
  deriving DecidableEq, Repr

/-- A thread: where it is, and whether it is blocked. -/
structure Thread where
  pc : Pc
  blocked : Bool
  deriving DecidableEq, Repr

/-- The two waiter slots, `&q->not_full` and `&q->not_empty`. -/
inductive Waiter where
  | notFull
  | notEmpty
  deriving DecidableEq, Repr

/-- `struct intq` with its lock's semaphore, the threads, and the bytes put and taken. -/
structure Intq where
  ring : Ring
  notFull : Option Nat
  notEmpty : Option Nat
  lockValue : Nat
  lockHolder : Option Nat
  lockWaiters : List Nat
  threads : List Thread
  puts : List UInt8
  gets : List UInt8
  deriving DecidableEq, Repr

namespace Intq

/-- `intq_init (q)`, with `n` threads that may call it. -/
def init (n : Nat) : Intq :=
  ⟨⟨List.replicate INTQ_BUFSIZE 0, 0, 0⟩, none, none, 1, none, [],
    List.replicate n ⟨.idle, false⟩, [], []⟩

def setThread (s : Intq) (t : Nat) (th : Thread) : Intq :=
  { s with threads := s.threads.set t th }

/-- `thread_block ()` of thread `t`, which resumes at `pc`. -/
def block (s : Intq) (t : Nat) (pc : Pc) : Intq := s.setThread t ⟨pc, true⟩

/-- `thread_unblock (t)`, which asserts that `t` is blocked. -/
def unblock (s : Intq) (t : Nat) : Except Fault Intq :=
  match s.threads[t]? with
  | some th => if th.blocked then pure (s.setThread t { th with blocked := false }) else throw .panic
  | none => throw .panic

def waiter (s : Intq) : Waiter → Option Nat
  | .notFull => s.notFull
  | .notEmpty => s.notEmpty

def setWaiter (s : Intq) : Waiter → Option Nat → Intq
  | .notFull, t => { s with notFull := t }
  | .notEmpty, t => { s with notEmpty := t }

/-- The condition `wait` and `signal` assert of their waiter: `intq_full` for `not_full`,
`intq_empty` for `not_empty`. -/
def cond (s : Intq) : Waiter → Bool
  | .notFull => s.ring.full
  | .notEmpty => s.ring.empty

/-- `wait (q, waiter)` by thread `t`, which resumes at `pc`. -/
def wait (s : Intq) (t : Nat) (w : Waiter) (pc : Pc) : Except Fault Intq :=
  if s.cond w then pure ((s.setWaiter w (some t)).block t pc) else throw .panic

/-- `signal (q, waiter)`. -/
def signal (s : Intq) (w : Waiter) : Except Fault Intq :=
  if s.cond w then throw .panic
  else
    match s.waiter w with
    | some t => do
      let s ← s.unblock t
      pure (s.setWaiter w none)
    | none => pure s

/-- The loop of `sema_down (&q->lock.semaphore)` by thread `t`, from its test, and then the
`wait` that follows `lock_acquire`: `t` blocks on the lock (to resume at `pcAcquire`) or
takes it and waits. -/
def acquireAndWait (s : Intq) (t : Nat) (w : Waiter) (pcAcquire pcWait : Pc) :
    Except Fault Intq :=
  if s.lockValue = 0 then
    pure { s.block t pcAcquire with lockWaiters := s.lockWaiters ++ [t] }
  else { s with lockValue := s.lockValue - 1, lockHolder := some t }.wait t w pcWait

/-- `lock_release (&q->lock)` by thread `t`: `sema_up` wakes the first waiter. -/
def lockRelease (s : Intq) (t : Nat) : Except Fault Intq :=
  if s.lockHolder ≠ some t then throw .panic
  else
    let s := { s with lockHolder := none }
    match s.lockWaiters with
    | [] => pure { s with lockValue := s.lockValue + 1 }
    | w :: ws => do
      let s ← { s with lockWaiters := ws }.unblock w
      pure { s with lockValue := s.lockValue + 1 }

/-- The end of `intq_getc`: take the byte at `tail` and signal `not_full`. -/
def getcTake (s : Intq) : Except Fault Intq :=
  let (byte, ring) := s.ring.take
  { s with ring, gets := s.gets ++ [byte] }.signal .notFull

/-- The end of `intq_putc`: put the byte at `head` and signal `not_empty`. -/
def putcPut (s : Intq) (byte : UInt8) : Except Fault Intq :=
  { s with ring := s.ring.put byte, puts := s.puts ++ [byte] }.signal .notEmpty

/-- `intq_getc`'s loop for thread `t`, from its test, until `t` blocks or returns. -/
def getcLoop (s : Intq) (t : Nat) : Except Fault Intq :=
  if s.ring.empty then
    if s.lockHolder = some t then throw .panic
    else s.acquireAndWait t .notEmpty .getAcquire .getWait
  else do
    let s ← s.getcTake
    pure (s.setThread t ⟨.idle, false⟩)

/-- `intq_putc`'s loop for thread `t`, from its test, until `t` blocks or returns. -/
def putcLoop (s : Intq) (t : Nat) (byte : UInt8) : Except Fault Intq :=
  if s.ring.full then
    if s.lockHolder = some t then throw .panic
    else s.acquireAndWait t .notFull (.putAcquire byte) (.putWait byte)
  else do
    let s ← s.putcPut byte
    pure (s.setThread t ⟨.idle, false⟩)

/-- A woken thread `t` runs on from where it blocked. -/
def resume (s : Intq) (t : Nat) : Except Fault Intq :=
  match s.threads[t]? with
  | some ⟨.getAcquire, false⟩ => s.acquireAndWait t .notEmpty .getAcquire .getWait
  | some ⟨.getWait, false⟩ => do
    let s ← s.lockRelease t
    s.getcLoop t
  | some ⟨.putAcquire byte, false⟩ => s.acquireAndWait t .notFull (.putAcquire byte) (.putWait byte)
  | some ⟨.putWait byte, false⟩ => do
    let s ← s.lockRelease t
    s.putcLoop t byte
  | _ => pure s

end Intq

/-- A stretch of execution with interrupts off. -/
inductive IntqCall where
  | getc (t : Nat)
  | putc (t : Nat) (byte : UInt8)
  | resume (t : Nat)
  | intrGetc
  | intrPutc (byte : UInt8)
  deriving DecidableEq, Repr

namespace Intq

def step (s : Intq) : IntqCall → Except Fault Intq
  | .getc t => s.getcLoop t
  | .putc t byte => s.putcLoop t byte
  | .resume t => s.resume t
  | .intrGetc => s.getcTake
  | .intrPutc byte => s.putcPut byte

/-- Who may run: an idle thread may start a call, a woken thread in a call may resume, and
an interrupt handler takes only from a queue that is not empty and puts only into one that
is not full. -/
def Enabled (s : Intq) : IntqCall → Prop
  | .getc t => s.threads[t]? = some ⟨.idle, false⟩
  | .putc t _ => s.threads[t]? = some ⟨.idle, false⟩
  | .resume t => ∃ th, s.threads[t]? = some th ∧ th.blocked = false ∧ th.pc ≠ .idle
  | .intrGetc => s.ring.empty = false
  | .intrPutc _ => s.ring.full = false

instance (s : Intq) : (a : IntqCall) → Decidable (s.Enabled a)
  | .getc t => inferInstanceAs (Decidable (s.threads[t]? = _))
  | .putc t _ => inferInstanceAs (Decidable (s.threads[t]? = _))
  | .resume t =>
    match h : s.threads[t]? with
    | some th => decidable_of_iff (th.blocked = false ∧ th.pc ≠ .idle) (by simp [Enabled, h])
    | none => isFalse (by simp [Enabled, h])
  | .intrGetc => inferInstanceAs (Decidable (s.ring.empty = false))
  | .intrPutc _ => inferInstanceAs (Decidable (s.ring.full = false))

/-- The stretches that run to their end without a failed `ASSERT`. -/
def next (s : Intq) (a : IntqCall) : Option Intq :=
  if s.Enabled a then (s.step a).toOption else none

end Intq

/-! ## The ring is a FIFO -/

namespace Ring

/-- How many bytes the ring holds: `head - tail` around the ring. -/
def count (r : Ring) : Nat := (r.head + INTQ_BUFSIZE - r.tail) % INTQ_BUFSIZE

/-- The bytes the ring holds, oldest first. -/
def contents (r : Ring) : List UInt8 :=
  (List.range r.count).map fun j => r.buf.getD ((r.tail + j) % INTQ_BUFSIZE) 0

/-- The shape `intq_init` gives the ring and every call keeps. -/
structure Valid (r : Ring) : Prop where
  length : r.buf.length = INTQ_BUFSIZE
  head_lt : r.head < INTQ_BUFSIZE
  tail_lt : r.tail < INTQ_BUFSIZE

theorem INTQ_BUFSIZE_eq : INTQ_BUFSIZE = 64 := rfl

theorem count_lt (r : Ring) : r.count < INTQ_BUFSIZE := Nat.mod_lt _ (by decide)

variable {r : Ring} (hv : r.Valid)
include hv

/-- A byte put into a ring that is not full lands after the bytes it holds. -/
theorem put_spec (hnf : r.full = false) (byte : UInt8) :
    (r.put byte).Valid ∧ (r.put byte).contents = r.contents ++ [byte] := by
  have hl := hv.length
  have hh := hv.head_lt
  have ht := hv.tail_lt
  simp only [full, next, beq_eq_false_iff_ne, ne_eq] at hnf
  rw [INTQ_BUFSIZE_eq] at *
  have hcount : (r.put byte).count = r.count + 1 := by
    simp only [count, put, next, INTQ_BUFSIZE_eq]
    omega
  refine ⟨⟨by simp [put, hl, INTQ_BUFSIZE_eq], by simp [put, next, INTQ_BUFSIZE_eq]; omega,
    ht⟩, ?_⟩
  rw [contents, hcount, List.range_succ, List.map_append, contents]
  congr 1
  · -- the bytes already held sit away from `head`
    refine List.map_congr_left fun j hj => ?_
    rw [List.mem_range] at hj
    have hne : (r.tail + j) % INTQ_BUFSIZE ≠ r.head := by
      simp only [count, INTQ_BUFSIZE_eq] at hj ⊢
      omega
    simp only [put, List.getD_eq_getElem?_getD, List.getElem?_set_ne (Ne.symm hne)]
  · -- the new byte is at `tail + count`, which is `head`
    have heq : (r.tail + r.count) % INTQ_BUFSIZE = r.head := by
      simp only [count, INTQ_BUFSIZE_eq]
      omega
    simp [put, heq, List.getD_eq_getElem?_getD, List.getElem?_set_self (by omega : r.head < r.buf.length)]

/-- The byte taken from a ring that is not empty is its oldest. -/
theorem take_spec (hne : r.empty = false) :
    r.take.2.Valid ∧ r.take.1 :: r.take.2.contents = r.contents := by
  have hh := hv.head_lt
  have ht := hv.tail_lt
  simp only [empty, beq_eq_false_iff_ne, ne_eq] at hne
  rw [INTQ_BUFSIZE_eq] at hh ht
  obtain ⟨c, hc⟩ : ∃ c, r.count = c + 1 := ⟨r.count - 1, by simp only [count, INTQ_BUFSIZE_eq]; omega⟩
  have hcount : r.take.2.count = c := by
    simp only [count, take, next, INTQ_BUFSIZE_eq] at hc ⊢
    omega
  refine ⟨⟨hv.length, hv.head_lt, by simp [take, next, INTQ_BUFSIZE_eq]; omega⟩, ?_⟩
  rw [contents, contents, hcount, hc, List.range_succ_eq_map, List.map_cons, List.map_map]
  congr 1
  · simp [take, Nat.mod_eq_of_lt (show r.tail < INTQ_BUFSIZE from ht)]
  · refine List.map_congr_left fun j _ => ?_
    simp only [take, next, Function.comp_apply, INTQ_BUFSIZE_eq]
    rw [show ((r.tail + 1) % 64 + j) % 64 = (r.tail + j.succ) % 64 by omega]

end Ring

namespace Intq

/-- A stretch that neither puts nor takes a byte. -/
def SameData (s s' : Intq) : Prop := s'.ring = s.ring ∧ s'.puts = s.puts ∧ s'.gets = s.gets

theorem SameData.trans {s s' s'' : Intq} (h : SameData s s') (h' : SameData s' s'') :
    SameData s s'' :=
  ⟨h'.1.trans h.1, h'.2.1.trans h.2.1, h'.2.2.trans h.2.2⟩

variable {s s' : Intq}

theorem unblock_data {t : Nat} (h : s.unblock t = .ok s') : SameData s s' := by
  unfold unblock at h
  split at h
  · split_ifs at h
    rw [Trace.pure_eq_ok] at h
    subst h
    exact ⟨rfl, rfl, rfl⟩
  · cases h

theorem signal_data {w : Waiter} (h : s.signal w = .ok s') : SameData s s' := by
  unfold signal at h
  split_ifs at h
  split at h
  · obtain ⟨s₁, h₁, h⟩ := Trace.bind_eq_ok h
    rw [Trace.pure_eq_ok] at h
    subst h
    have := unblock_data h₁
    cases w <;> exact this
  · rw [Trace.pure_eq_ok] at h
    subst h
    exact ⟨rfl, rfl, rfl⟩

theorem acquireAndWait_data {t : Nat} {w : Waiter} {p q : Pc}
    (h : s.acquireAndWait t w p q = .ok s') : SameData s s' := by
  unfold acquireAndWait at h
  split_ifs at h
  · rw [Trace.pure_eq_ok] at h
    subst h
    exact ⟨rfl, rfl, rfl⟩
  · unfold wait at h
    split_ifs at h
    rw [Trace.pure_eq_ok] at h
    subst h
    cases w <;> exact ⟨rfl, rfl, rfl⟩

theorem lockRelease_data {t : Nat} (h : s.lockRelease t = .ok s') : SameData s s' := by
  unfold lockRelease at h
  split_ifs at h
  dsimp only at h
  split at h
  · rw [Trace.pure_eq_ok] at h
    subst h
    exact ⟨rfl, rfl, rfl⟩
  · obtain ⟨s₁, h₁, h⟩ := Trace.bind_eq_ok h
    rw [Trace.pure_eq_ok] at h
    subst h
    have := unblock_data h₁
    exact ⟨this.1, this.2.1, this.2.2⟩

/-- What `getcTake` does to the data: the ring's oldest byte moves to `gets`. -/
theorem getcTake_data (h : s.getcTake = .ok s') :
    s'.ring = s.ring.take.2 ∧ s'.puts = s.puts ∧ s'.gets = s.gets ++ [s.ring.take.1] :=
  signal_data h

theorem putcPut_data {byte : UInt8} (h : s.putcPut byte = .ok s') :
    s'.ring = s.ring.put byte ∧ s'.puts = s.puts ++ [byte] ∧ s'.gets = s.gets :=
  signal_data h

/-- The invariant of the data: a valid ring, whose bytes are what was put and not yet
taken. -/
structure Inv (s : Intq) : Prop where
  valid : s.ring.Valid
  fifo : s.gets ++ s.ring.contents = s.puts

theorem Inv.of_same (hi : s.Inv) (h : SameData s s') : s'.Inv := by
  obtain ⟨h1, h2, h3⟩ := h
  exact ⟨h1 ▸ hi.valid, by rw [h1, h2, h3]; exact hi.fifo⟩

theorem Inv.take (hi : s.Inv) (hne : s.ring.empty = false)
    (h : s'.ring = s.ring.take.2 ∧ s'.puts = s.puts ∧ s'.gets = s.gets ++ [s.ring.take.1]) :
    s'.Inv := by
  obtain ⟨h1, h2, h3⟩ := h
  obtain ⟨hv, hc⟩ := Ring.take_spec hi.valid hne
  refine ⟨h1 ▸ hv, ?_⟩
  rw [h1, h2, h3, List.append_assoc, List.singleton_append, hc]
  exact hi.fifo

theorem Inv.put (hi : s.Inv) {byte : UInt8} (hnf : s.ring.full = false)
    (h : s'.ring = s.ring.put byte ∧ s'.puts = s.puts ++ [byte] ∧ s'.gets = s.gets) :
    s'.Inv := by
  obtain ⟨h1, h2, h3⟩ := h
  obtain ⟨hv, hc⟩ := Ring.put_spec hi.valid hnf byte
  refine ⟨h1 ▸ hv, ?_⟩
  rw [h1, h2, h3, hc, ← List.append_assoc, hi.fifo]

theorem Inv.getcLoop (hi : s.Inv) {t : Nat} (h : s.getcLoop t = .ok s') : s'.Inv := by
  unfold Intq.getcLoop at h
  split_ifs at h with hne
  · exact hi.of_same (acquireAndWait_data h)
  · obtain ⟨s₁, h₁, h⟩ := Trace.bind_eq_ok h
    rw [Trace.pure_eq_ok] at h
    subst h
    have hi₁ := hi.take (Bool.eq_false_iff.2 hne) (getcTake_data h₁)
    exact ⟨hi₁.valid, hi₁.fifo⟩

theorem Inv.putcLoop (hi : s.Inv) {t : Nat} {byte : UInt8} (h : s.putcLoop t byte = .ok s') :
    s'.Inv := by
  unfold Intq.putcLoop at h
  split_ifs at h with hnf
  · exact hi.of_same (acquireAndWait_data h)
  · obtain ⟨s₁, h₁, h⟩ := Trace.bind_eq_ok h
    rw [Trace.pure_eq_ok] at h
    subst h
    have hi₁ := hi.put (Bool.eq_false_iff.2 hnf) (putcPut_data h₁)
    exact ⟨hi₁.valid, hi₁.fifo⟩

theorem Inv.resume (hi : s.Inv) {t : Nat} (h : s.resume t = .ok s') : s'.Inv := by
  unfold Intq.resume at h
  split at h
  · exact hi.of_same (acquireAndWait_data h)
  · obtain ⟨s₁, h₁, h⟩ := Trace.bind_eq_ok h
    exact (hi.of_same (lockRelease_data h₁)).getcLoop h
  · exact hi.of_same (acquireAndWait_data h)
  · obtain ⟨s₁, h₁, h⟩ := Trace.bind_eq_ok h
    exact (hi.of_same (lockRelease_data h₁)).putcLoop h
  · rw [Trace.pure_eq_ok] at h
    exact h ▸ hi

/-- Every stretch that runs to its end keeps the invariant. -/
theorem Inv.next (hi : s.Inv) {a : IntqCall} (h : s.next a = some s') : s'.Inv := by
  unfold Intq.next at h
  split_ifs at h with hen
  cases hs : s.step a with
  | error e => simp [hs, Except.toOption] at h
  | ok s₁ =>
    simp only [hs, Except.toOption, Option.some.injEq] at h
    subst h
    cases a with
    | getc t => exact hi.getcLoop hs
    | putc t byte => exact hi.putcLoop hs
    | resume t => exact hi.resume hs
    | intrGetc => exact hi.take hen (getcTake_data hs)
    | intrPutc byte => exact hi.put hen (putcPut_data hs)

theorem init_inv (n : Nat) : (init n).Inv :=
  ⟨⟨by simp [init], by simp [init, INTQ_BUFSIZE], by simp [init, INTQ_BUFSIZE]⟩,
    by simp [init, Ring.contents, Ring.count]⟩

end Intq

/-- Over every run of `n` threads and the interrupt handlers, the bytes `intq_getc` has
returned are the bytes `intq_putc` was given, in order, up to the ones still queued; the
queue holds at most `INTQ_BUFSIZE - 1` bytes, and `head` and `tail` stay below
`INTQ_BUFSIZE`. -/
theorem intq_fifo (n : Nat) {s : Intq} (hs : Trace.Reachable Intq.next (Intq.init n) s) :
    s.gets ++ s.ring.contents = s.puts ∧ s.gets <+: s.puts ∧
      s.ring.count ≤ INTQ_BUFSIZE - 1 ∧ s.ring.head < INTQ_BUFSIZE ∧
        s.ring.tail < INTQ_BUFSIZE := by
  have hi : s.Inv := hs.invariant Intq.Inv (Intq.init_inv n) fun _ _ _ hi h => hi.next h
  refine ⟨hi.fifo, ⟨_, hi.fifo⟩, ?_, hi.valid.head_lt, hi.valid.tail_lt⟩
  have := s.ring.count_lt
  omega

/-- A reader served with the byte an interrupt handler put. -/
theorem intq_fifo_after_one_byte :
    ∃ s, Trace.Reachable Intq.next (Intq.init 1) s ∧ s.gets = [7] ∧
      (s.gets ++ s.ring.contents = s.puts ∧ s.gets <+: s.puts ∧
        s.ring.count ≤ INTQ_BUFSIZE - 1 ∧ s.ring.head < INTQ_BUFSIZE ∧
          s.ring.tail < INTQ_BUFSIZE) := by
  obtain ⟨s, hr, hs⟩ : ∃ s, Trace.replay Intq.next (Intq.init 1)
      [.getc 0, .intrPutc 7, .resume 0] = some s ∧ s.gets = [7] := ⟨_, rfl, rfl⟩
  have h := Trace.Reachable.replay _ .refl hr
  exact ⟨s, h, hs, intq_fifo 1 h⟩

/-- Two readers and two bytes put by an interrupt handler: the second reader, woken by the
first reader's `lock_release`, takes the lock and calls `wait` on a queue that still holds
the second byte, and the `ASSERT` of `wait` fails. -/
theorem second_reader_fails_wait_assert :
    ∃ s, Trace.Reachable Intq.next (Intq.init 2) s ∧ s.Enabled (.resume 1) ∧
      s.step (.resume 1) = .error .panic :=
  ⟨_, Trace.Reachable.replay [.getc 0, .getc 1, .intrPutc 7, .intrPutc 8, .resume 0] .refl rfl,
    by decide, rfl⟩

end Pintos.Devices
