import Pintos.Devices.Block
import Pintos.Lib.Trace

/-!
The list of open inodes of `filesys/inode.c`, as threads share it through `inode_open`,
`inode_reopen` and `inode_close`. Each region that holds `open_inodes_lock` is one step,
and so is each region that holds an inode's writer monitor:

* `inode_open` from its `lock_acquire` to its return, or, when the inode is already open,
  to the `lock_release` before `inode_reopen`;
* `inode_reopen`, whose `open_cnt++` sits between `writer_checkin` and `writer_checkout`;
* `inode_close` up to `--open_cnt`, and, when the count reaches 0, the unlinking from the
  list under `open_inodes_lock` and the `free`.

A `struct inode` is a cell of a heap that `malloc` extends and `free` empties; reading an
emptied cell is `Fault.wildAccess`. `malloc` fails or not as the schedule says. A lock that
is held makes `lock_acquire` block, so a thread waits until the step is enabled; the
holder's own `lock_acquire` fails its `ASSERT`. Which inodes each thread holds is recorded
beside the state; the code does not keep it.

* `Inv.next`, `open_cnt_counts_holders`: over every run, each inode on the list is
  allocated, and the `open_cnt` of each allocated inode is the number of opens not yet
  closed;
* `open_close_race_frees_found_inode`: an `inode_close` that runs between `inode_open`'s
  `lock_release` and its `inode_reopen` frees the inode that `inode_open` then returns; and
  a failed `malloc` returns with `open_inodes_lock` held, so no other thread can open an
  inode again.
-/

namespace Pintos.Filesys

/-- The fields of `struct inode` these functions use. -/
structure InodeRec where
  sector : Nat
  openCnt : Nat
  deriving DecidableEq, Repr

/-- Where a thread stands: outside the three functions, inside `inode_open` between the
`lock_release` and `inode_reopen` of an inode it found, or inside `inode_close` with the
inode's count at 0 and its writer monitor held, before the unlinking. -/
inductive OpenPc where
  | idle
  | reopening (inode : Nat)
  | unlinking (inode : Nat)
  deriving DecidableEq, Repr

structure OpenThread where
  pc : OpenPc
  held : List Nat
  deriving DecidableEq, Repr

/-- `open_inodes`, front first, the heap of `struct inode`s, the holder of
`open_inodes_lock`, and the threads. -/
structure OpenInodes where
  openInodes : List Nat
  heap : List (Option InodeRec)
  lockHolder : Option Nat
  threads : List OpenThread
  deriving DecidableEq, Repr

namespace OpenInodes

def init (n : Nat) : OpenInodes := ⟨[], [], none, List.replicate n ⟨.idle, []⟩⟩

/-- The inode in cell `x`, or the fault of reading a cell `free` emptied. -/
def getInode (s : OpenInodes) (x : Nat) : Except Fault InodeRec :=
  match s.heap[x]? with
  | some (some r) => pure r
  | _ => throw .wildAccess

def setInode (s : OpenInodes) (x : Nat) (r : Option InodeRec) : OpenInodes :=
  { s with heap := s.heap.set x r }

def thread (s : OpenInodes) (t : Nat) : OpenThread := s.threads.getD t ⟨.idle, []⟩

def setThread (s : OpenInodes) (t : Nat) (th : OpenThread) : OpenInodes :=
  { s with threads := s.threads.set t th }

/-- `lock_acquire (&open_inodes_lock)` by `t`, once the lock is free or its own. -/
def acquire (s : OpenInodes) (t : Nat) : Except Fault OpenInodes :=
  if s.lockHolder = some t then throw (.assert .lockNotHeld)
  else pure { s with lockHolder := some t }

def release (s : OpenInodes) : OpenInodes := { s with lockHolder := none }

/-- The loop of `inode_open` over `open_inodes`: the first inode on `sector`. -/
def findOpen (s : OpenInodes) (sector : Nat) : List Nat → Except Fault (Option Nat)
  | [] => pure none
  | x :: xs => do
    let r ← s.getInode x
    if r.sector = sector then pure (some x) else findOpen s sector xs

/-- `inode_open (sector)` by thread `t`, `malloc` succeeding when `mallocOk`. -/
def inodeOpen (s : OpenInodes) (t sector : Nat) (mallocOk : Bool) :
    Except Fault OpenInodes := do
  let s ← s.acquire t
  match ← s.findOpen sector s.openInodes with
  | some x => pure ((s.release).setThread t { s.thread t with pc := .reopening x })
  | none =>
    if mallocOk then
      let x := s.heap.length
      let s : OpenInodes :=
        { s with heap := s.heap ++ [some (InodeRec.mk sector 1)], openInodes := x :: s.openInodes }
      pure ((s.release).setThread t { s.thread t with held := x :: (s.thread t).held })
    -- `if (inode == NULL) return NULL;`, with `open_inodes_lock` still held
    else pure s

/-- `inode_reopen (inode)` from `inode_open`, and the return. -/
def inodeReopen (s : OpenInodes) (t x : Nat) : Except Fault OpenInodes := do
  let r ← s.getInode x
  let s := s.setInode x (some { r with openCnt := r.openCnt + 1 })
  pure (s.setThread t { pc := .idle, held := x :: (s.thread t).held })

/-- `inode_close (inode)` by `t`, up to `--inode->open_cnt`. -/
def inodeClose (s : OpenInodes) (t x : Nat) : Except Fault OpenInodes := do
  let r ← s.getInode x
  let s := s.setInode x (some { r with openCnt := r.openCnt - 1 })
  let held := (s.thread t).held.erase x
  if r.openCnt - 1 = 0 then pure (s.setThread t { pc := .unlinking x, held })
  else pure (s.setThread t { pc := .idle, held })

/-- The end of `inode_close` for a count at 0: `list_remove` under `open_inodes_lock`,
`writer_checkout` and `free`. -/
def unlink (s : OpenInodes) (t x : Nat) : Except Fault OpenInodes := do
  let s ← s.acquire t
  let s := { s with openInodes := s.openInodes.erase x }
  pure (((s.release).setInode x none).setThread t { s.thread t with pc := .idle })

end OpenInodes

/-- The steps of the threads. -/
inductive InodeCall where
  | openInode (t sector : Nat) (mallocOk : Bool)
  | reopen (t : Nat)
  | close (t inode : Nat)
  | finishClose (t : Nat)
  deriving DecidableEq, Repr

namespace OpenInodes

/-- Whether `t` can take the step: a thread that exists, where the step starts, and not
blocked on a lock another thread holds or on an inode's writer monitor another thread
holds. -/
def enabled (s : OpenInodes) : InodeCall → Bool
  | .openInode t _ _ => decide (t < s.threads.length) && (s.thread t).pc == .idle &&
      (s.lockHolder == none || s.lockHolder == some t)
  | .reopen t => decide (t < s.threads.length) &&
      match (s.thread t).pc with
      | .reopening x => (List.range s.threads.length).all fun u => (s.thread u).pc != .unlinking x
      | _ => false
  | .close t x => decide (t < s.threads.length) && (s.thread t).pc == .idle &&
      (s.thread t).held.contains x
  | .finishClose t => decide (t < s.threads.length) &&
      (match (s.thread t).pc with
      | .unlinking _ => true
      | _ => false) &&
      (s.lockHolder == none || s.lockHolder == some t)

def Enabled (s : OpenInodes) (a : InodeCall) : Prop := s.enabled a = true

instance (s : OpenInodes) (a : InodeCall) : Decidable (s.Enabled a) :=
  inferInstanceAs (Decidable (s.enabled a = true))

def step (s : OpenInodes) : InodeCall → Except Fault OpenInodes
  | .openInode t sector ok => s.inodeOpen t sector ok
  | .reopen t =>
    match (s.thread t).pc with
    | .reopening x => s.inodeReopen t x
    | _ => pure s
  | .close t x => s.inodeClose t x
  | .finishClose t =>
    match (s.thread t).pc with
    | .unlinking x => s.unlink t x
    | _ => pure s

def next (s : OpenInodes) (a : InodeCall) : Option OpenInodes :=
  if s.Enabled a then (s.step a).toOption else none

end OpenInodes

/-! ## The counts -/

theorem sum_set_add {l : List Nat} {t : Nat} (ht : t < l.length) (a : Nat) :
    (l.set t a).sum + l[t] = l.sum + a := by
  induction l generalizing t with
  | nil => cases ht
  | cons y ys ih =>
    cases t with
    | zero => simp only [List.set_cons_zero, List.sum_cons, List.getElem_cons_zero]; omega
    | succ t =>
      simp only [List.set_cons_succ, List.sum_cons, List.getElem_cons_succ]
      have := ih (Nat.lt_of_succ_lt_succ ht)
      omega

namespace OpenInodes

/-- How many opens of inode `x` the threads hold. -/
def holders (s : OpenInodes) (x : Nat) : Nat := (s.threads.map fun th => th.held.count x).sum

/-- A new record for thread `t` changes the holders by what it holds instead. -/
theorem holders_setThread (s : OpenInodes) {t : Nat} (ht : t < s.threads.length)
    (th : OpenThread) (x : Nat) :
    (s.setThread t th).holders x + (s.thread t).held.count x = s.holders x + th.held.count x := by
  have := sum_set_add (l := s.threads.map fun th => th.held.count x) (by simpa using ht)
    (th.held.count x)
  simp only [List.getElem_map] at this
  simpa [holders, setThread, thread, List.map_set, List.getD_eq_getElem?_getD,
    List.getElem?_eq_getElem ht] using this

@[simp] theorem heap_setThread (s : OpenInodes) (t : Nat) (th : OpenThread) :
    (s.setThread t th).heap = s.heap := rfl

@[simp] theorem openInodes_setThread (s : OpenInodes) (t : Nat) (th : OpenThread) :
    (s.setThread t th).openInodes = s.openInodes := rfl

@[simp] theorem threads_setInode (s : OpenInodes) (x : Nat) (v : Option InodeRec) :
    (s.setInode x v).threads = s.threads := rfl

@[simp] theorem openInodes_setInode (s : OpenInodes) (x : Nat) (v : Option InodeRec) :
    (s.setInode x v).openInodes = s.openInodes := rfl

@[simp] theorem thread_setInode (s : OpenInodes) (x : Nat) (v : Option InodeRec) :
    (s.setInode x v).thread = s.thread := rfl

@[simp] theorem holders_setInode (s : OpenInodes) (x : Nat) (v : Option InodeRec) :
    (s.setInode x v).holders = s.holders := rfl

theorem holders_setThread_of_held (s : OpenInodes) {t : Nat} (ht : t < s.threads.length)
    {th : OpenThread} (hth : th.held = (s.thread t).held) :
    (s.setThread t th).holders = s.holders := by
  funext x
  have := s.holders_setThread ht th x
  rw [hth] at this
  omega

@[simp] theorem thread_setThread_self (s : OpenInodes) {t : Nat} (ht : t < s.threads.length)
    (th : OpenThread) : (s.setThread t th).thread t = th := by
  simp [thread, setThread, List.getD_eq_getElem?_getD, List.getElem?_set_self ht]

theorem thread_mem (s : OpenInodes) {t : Nat} (ht : t < s.threads.length) :
    s.thread t ∈ s.threads := by
  simp only [thread, List.getD_eq_getElem?_getD, List.getElem?_eq_getElem ht, Option.getD_some]
  exact List.getElem_mem ht

/-- No thread holds a cell past the heap. -/
theorem holders_eq_zero (s : OpenInodes) {x : Nat} (h : ∀ th ∈ s.threads, x ∉ th.held) :
    s.holders x = 0 := by
  refine List.sum_eq_zero_iff_forall_eq_nat.2 fun c hc => ?_
  obtain ⟨th, hth, rfl⟩ := List.mem_map.1 hc
  exact List.count_eq_zero.2 (h th hth)

theorem thread_setThread_ne (s : OpenInodes) {t u : Nat} (h : u ≠ t) (th : OpenThread) :
    (s.setThread t th).thread u = s.thread u := by
  simp [thread, setThread, List.getD_eq_getElem?_getD, List.getElem?_set_ne (Ne.symm h)]

/-- Every inode on the list is allocated, once; the count of every allocated inode is the
number of opens the threads hold; and the threads hold only cells of the heap. -/
structure Inv (s : OpenInodes) : Prop where
  nodup : s.openInodes.Nodup
  listed : ∀ x ∈ s.openInodes, ∃ r, s.heap[x]? = some (some r)
  counts : ∀ x r, s.heap[x]? = some (some r) → r.openCnt = s.holders x
  held_lt : ∀ th ∈ s.threads, ∀ x ∈ th.held, x < s.heap.length

theorem init_inv (n : Nat) : (init n).Inv where
  nodup := List.nodup_nil
  listed _ h := absurd h List.not_mem_nil
  counts _ _ h := by simp [init] at h
  held_lt th hth x hx := by
    rw [init, List.mem_replicate] at hth
    rw [hth.2] at hx
    exact absurd hx List.not_mem_nil

variable {s s' : OpenInodes}

/-- The invariant reads only the list, the heap and the threads. -/
theorem Inv.congr (hi : s.Inv) (h1 : s'.openInodes = s.openInodes) (h2 : s'.heap = s.heap)
    (h3 : s'.threads = s.threads) : s'.Inv := by
  have hh : s'.holders = s.holders := by funext x; simp only [holders, h3]
  exact ⟨h1 ▸ hi.nodup, h1 ▸ h2 ▸ hi.listed, h2 ▸ hh ▸ hi.counts, h3 ▸ h2 ▸ hi.held_lt⟩

/-- A thread moving on without opening or closing keeps the invariant. -/
theorem Inv.setPc (hi : s.Inv) {t : Nat} (ht : t < s.threads.length) (pc : OpenPc) :
    (s.setThread t { s.thread t with pc }).Inv := by
  have hh := @holders_setThread_of_held s t ht { s.thread t with pc } rfl
  refine ⟨hi.nodup, hi.listed, hh ▸ hi.counts, fun th hth x hx => ?_⟩
  rcases List.mem_or_eq_of_mem_set hth with hth | rfl
  · exact hi.held_lt th hth x hx
  · exact hi.held_lt _ (s.thread_mem ht) x hx

theorem getInode_eq_ok {x : Nat} {r : InodeRec} (h : s.getInode x = .ok r) :
    s.heap[x]? = some (some r) := by
  unfold getInode at h
  split at h
  · rename_i r' h'
    rw [h', ← Trace.pure_eq_ok.1 h]
  · cases h

theorem heap_setInode {x : Nat} (hx : x < s.heap.length) (v : Option InodeRec) (y : Nat) :
    (s.setInode x v).heap[y]? = if x = y then some v else s.heap[y]? := by
  simp only [setInode, List.getElem?_set, if_pos hx]

/-- Thread `t` takes one more open of `x`. -/
theorem holders_push {t : Nat} (ht : t < s.threads.length) (th : OpenThread) {x : Nat}
    (hth : th.held = x :: (s.thread t).held) (y : Nat) :
    (s.setThread t th).holders y = s.holders y + if x = y then 1 else 0 := by
  have := s.holders_setThread ht th y
  rw [hth, List.count_cons] at this
  simp only [beq_iff_eq] at this
  omega

/-- Thread `t` gives up one of its opens of `x`. -/
theorem holders_erase {t x : Nat} (ht : t < s.threads.length) (hx : x ∈ (s.thread t).held)
    (th : OpenThread) (hth : th.held = (s.thread t).held.erase x) (y : Nat) :
    (s.setThread t th).holders y + (if x = y then 1 else 0) = s.holders y := by
  have := s.holders_setThread ht th y
  have hpos : x = y → 0 < (s.thread t).held.count y := fun h => List.count_pos_iff.2 (h ▸ hx)
  rw [hth, List.count_erase] at this
  simp only [beq_iff_eq] at this
  split_ifs at this ⊢ with hxy
  · have := hpos hxy
    omega
  · omega

theorem holders_eq_of_threads (h : s'.threads = s.threads) : s'.holders = s.holders := by
  funext x
  simp only [holders, h]

/-- The new inode of a successful `malloc`: the next cell of the heap, at the front of the
list, with a count of 1 for the open its thread now holds. -/
theorem Inv.create (hi : s.Inv) {t : Nat} (ht : t < s.threads.length) (sector : Nat)
    (h1 : s'.openInodes = s.heap.length :: s.openInodes)
    (h2 : s'.heap = s.heap ++ [some (InodeRec.mk sector 1)])
    (h3 : s'.threads = (s.setThread t
      { s.thread t with held := s.heap.length :: (s.thread t).held }).threads) : s'.Inv := by
  have hfresh : s.heap.length ∉ s.openInodes := fun hm => by
    obtain ⟨r, hr⟩ := hi.listed _ hm
    have := (List.getElem?_eq_some_iff.1 hr).1
    omega
  have hcount : ∀ y, s'.holders y = s.holders y + if s.heap.length = y then 1 else 0 := by
    rw [holders_eq_of_threads h3]
    exact holders_push ht _ rfl
  have hzero : s.holders s.heap.length = 0 :=
    s.holders_eq_zero fun th hth hx => by have := hi.held_lt th hth _ hx; omega
  refine ⟨h1 ▸ List.nodup_cons.2 ⟨hfresh, hi.nodup⟩, ?_, ?_, ?_⟩
  · intro y hy
    rw [h1] at hy
    rw [h2]
    rcases List.mem_cons.1 hy with rfl | hy
    · exact ⟨InodeRec.mk sector 1, by simp⟩
    · obtain ⟨r, hr⟩ := hi.listed y hy
      exact ⟨r, (List.getElem?_append_left (List.getElem?_eq_some_iff.1 hr).1).trans hr⟩
  · intro y r hr
    rw [h2] at hr
    by_cases hy : y < s.heap.length
    · rw [List.getElem?_append_left hy] at hr
      rw [hcount y, if_neg (by omega), hi.counts y r hr, Nat.add_zero]
    · have hle := (List.getElem?_eq_some_iff.1 hr).1
      simp only [List.length_append, List.length_singleton] at hle
      obtain rfl : y = s.heap.length := by omega
      simp only [List.getElem?_append_right le_rfl, Nat.sub_self, List.getElem?_cons_zero,
        Option.some.injEq] at hr
      subst hr
      rw [hcount, if_pos rfl, hzero]
  · intro th hth x hx
    rw [h2, List.length_append, List.length_singleton]
    rw [h3] at hth
    rcases List.mem_or_eq_of_mem_set hth with hth | rfl
    · have := hi.held_lt th hth x hx
      omega
    · rcases List.mem_cons.1 hx with rfl | hx
      · omega
      · have := hi.held_lt _ (s.thread_mem ht) x hx
        omega

/-- `inode_open`: a found inode only moves the thread on; a new one is `Inv.create`; a
failed `malloc` only takes the lock. -/
theorem Inv.inodeOpen (hi : s.Inv) {t sector : Nat} {ok : Bool} (ht : t < s.threads.length)
    (h : s.inodeOpen t sector ok = .ok s') : s'.Inv := by
  unfold OpenInodes.inodeOpen at h
  obtain ⟨s₁, h₁, h⟩ := Trace.bind_eq_ok h
  have hs₁ : s₁ = { s with lockHolder := some t } := by
    unfold acquire at h₁
    split_ifs at h₁
    exact (Trace.pure_eq_ok.1 h₁).symm
  subst hs₁
  have hi₁ : ({ s with lockHolder := some t } : OpenInodes).Inv := hi.congr rfl rfl rfl
  obtain ⟨found, -, h⟩ := Trace.bind_eq_ok h
  cases found with
  | some x =>
    dsimp only at h
    rw [Trace.pure_eq_ok] at h
    subst h
    exact (@Inv.congr _ (release _) hi₁ rfl rfl rfl).setPc ht _
  | none =>
    dsimp only at h
    cases ok with
    | false =>
      rw [if_neg Bool.false_ne_true, Trace.pure_eq_ok] at h
      exact h ▸ hi₁
    | true =>
      rw [if_pos rfl, Trace.pure_eq_ok] at h
      subst h
      exact hi.create ht sector rfl rfl rfl

/-- `inode_reopen`: one more open of an allocated inode, and one more in its count. -/
theorem Inv.inodeReopen (hi : s.Inv) {t x : Nat} (ht : t < s.threads.length)
    (h : s.inodeReopen t x = .ok s') : s'.Inv := by
  unfold OpenInodes.inodeReopen at h
  obtain ⟨r, hr, h⟩ := Trace.bind_eq_ok h
  rw [Trace.pure_eq_ok] at h
  subst h
  have hx := getInode_eq_ok hr
  have hlt : x < s.heap.length := (List.getElem?_eq_some_iff.1 hx).1
  have hheap := heap_setInode hlt (some { r with openCnt := r.openCnt + 1 })
  have hcount := holders_push (s := s.setInode x (some { r with openCnt := r.openCnt + 1 })) ht
    ⟨.idle, x :: (s.thread t).held⟩ rfl
  simp only [thread_setInode, holders_setInode] at hcount ⊢
  refine ⟨hi.nodup, fun y hy => ?_, fun y r' hr' => ?_, fun th hth y hy => ?_⟩
  · rw [heap_setThread, hheap]
    split_ifs
    · exact ⟨_, rfl⟩
    · exact hi.listed y hy
  · rw [heap_setThread, hheap] at hr'
    rw [hcount]
    split_ifs at hr' ⊢ with hxy
    · subst hxy
      cases hr'
      rw [← hi.counts x r hx]
    · rw [← hi.counts y r' hr']
      rfl
  · simp only [setThread, setInode, List.length_set] at hth ⊢
    rcases List.mem_or_eq_of_mem_set hth with hth | rfl
    · exact hi.held_lt th hth y hy
    · rcases List.mem_cons.1 hy with rfl | hy
      · exact hlt
      · exact hi.held_lt _ (s.thread_mem ht) y hy

/-- `inode_close` up to `--open_cnt`: one open fewer, and one fewer in its count. -/
theorem Inv.inodeClose (hi : s.Inv) {t x : Nat} (ht : t < s.threads.length)
    (hx : x ∈ (s.thread t).held) (h : s.inodeClose t x = .ok s') : s'.Inv := by
  unfold OpenInodes.inodeClose at h
  obtain ⟨r, hr, h⟩ := Trace.bind_eq_ok h
  have hrx := getInode_eq_ok hr
  have hlt : x < s.heap.length := (List.getElem?_eq_some_iff.1 hrx).1
  -- both branches leave the thread with the same opens; only where it stands differs
  obtain ⟨pc, rfl⟩ : ∃ pc, s' = (s.setInode x (some { r with openCnt := r.openCnt - 1 })).setThread t
      ⟨pc, (s.thread t).held.erase x⟩ := by
    split_ifs at h
    · exact ⟨_, (Trace.pure_eq_ok.1 h).symm⟩
    · exact ⟨_, (Trace.pure_eq_ok.1 h).symm⟩
  have hheap := heap_setInode hlt (some { r with openCnt := r.openCnt - 1 })
  have hcount := holders_erase (s := s.setInode x (some { r with openCnt := r.openCnt - 1 })) ht hx
    ⟨pc, (s.thread t).held.erase x⟩ rfl
  refine ⟨hi.nodup, fun y hy => ?_, fun y r' hr' => ?_, fun th hth y hy => ?_⟩
  · rw [heap_setThread, hheap]
    split_ifs
    · exact ⟨_, rfl⟩
    · exact hi.listed y hy
  · rw [heap_setThread, hheap] at hr'
    have := hcount y
    simp only [holders_setInode] at this
    split_ifs at hr' this with hxy
    · subst hxy
      cases hr'
      have := hi.counts x r hrx
      show r.openCnt - 1 = _
      omega
    · rw [hi.counts y r' hr']
      exact this.symm
  · simp only [setThread, setInode, List.length_set] at hth ⊢
    rcases List.mem_or_eq_of_mem_set hth with hth | rfl
    · exact hi.held_lt th hth y hy
    · exact hi.held_lt _ (s.thread_mem ht) y (List.mem_of_mem_erase hy)

/-- The end of `inode_close`: the inode leaves the list and its cell is emptied. -/
theorem Inv.unlink (hi : s.Inv) {t x : Nat} (ht : t < s.threads.length)
    (h : s.unlink t x = .ok s') : s'.Inv := by
  unfold OpenInodes.unlink at h
  obtain ⟨s₁, h₁, h⟩ := Trace.bind_eq_ok h
  have hs₁ : s₁ = { s with lockHolder := some t } := by
    unfold acquire at h₁
    split_ifs at h₁
    exact (Trace.pure_eq_ok.1 h₁).symm
  subst hs₁
  rw [Trace.pure_eq_ok] at h
  subst h
  have hheap : ∀ y, y ≠ x → (s.setInode x none).heap[y]? = s.heap[y]? := fun y hy => by
    simp only [setInode, List.getElem?_set, if_neg (Ne.symm hy)]
  refine ⟨hi.nodup.erase x, fun y hy => ?_, fun y r hr => ?_, fun th hth y hy => ?_⟩
  · obtain ⟨hyx, hy⟩ := (hi.nodup.mem_erase_iff).1 hy
    obtain ⟨r, hr⟩ := hi.listed y hy
    exact ⟨r, (hheap y hyx).trans hr⟩
  · have hyx : y ≠ x := by
      rintro rfl
      simp [setThread, setInode, release, List.getElem?_set] at hr
    have hr' : s.heap[y]? = some (some r) := (hheap y hyx).symm.trans hr
    rw [hi.counts y r hr']
    exact (congrFun (@holders_setThread_of_held s t ht { s.thread t with pc := .idle } rfl)
      y).symm
  · simp only [setThread, setInode, release, List.length_set] at hth ⊢
    rcases List.mem_or_eq_of_mem_set hth with hth | rfl
    · exact hi.held_lt th hth y hy
    · exact hi.held_lt _ (s.thread_mem ht) y hy

/-- Every step that runs to its end keeps the invariant. -/
theorem Inv.next (hi : s.Inv) {a : InodeCall} (h : s.next a = some s') : s'.Inv := by
  unfold OpenInodes.next at h
  split_ifs at h with hen
  cases hs : s.step a with
  | error e => simp [hs, Except.toOption] at h
  | ok s₁ =>
    simp only [hs, Except.toOption, Option.some.injEq] at h
    subst h
    cases a with
    | openInode t sector ok =>
      simp only [Enabled, enabled, Bool.and_eq_true, decide_eq_true_eq] at hen
      exact hi.inodeOpen hen.1.1 hs
    | close t x =>
      simp only [Enabled, enabled, Bool.and_eq_true, decide_eq_true_eq] at hen
      exact hi.inodeClose hen.1.1 (by simpa using hen.2) hs
    | reopen t =>
      cases hpc : (s.thread t).pc with
      | reopening x =>
        simp only [Enabled, enabled, hpc, Bool.and_eq_true, decide_eq_true_eq] at hen
        simp only [step, hpc] at hs
        exact hi.inodeReopen hen.1 hs
      | idle | unlinking x =>
        simp only [step, hpc, Trace.pure_eq_ok] at hs
        exact hs ▸ hi
    | finishClose t =>
      cases hpc : (s.thread t).pc with
      | unlinking x =>
        simp only [Enabled, enabled, hpc, Bool.and_eq_true, decide_eq_true_eq] at hen
        simp only [step, hpc] at hs
        exact hi.unlink hen.1.1 hs
      | idle | reopening x =>
        simp only [step, hpc, Trace.pure_eq_ok] at hs
        exact hs ▸ hi

end OpenInodes

/-- Over every run of `n` threads, each inode on `open_inodes` is allocated, and the
`open_cnt` of each allocated inode is the number of its opens the threads hold. -/
theorem open_cnt_counts_holders (n : Nat) {s : OpenInodes}
    (hs : Trace.Reachable OpenInodes.next (OpenInodes.init n) s) :
    (∀ x ∈ s.openInodes, ∃ r, s.heap[x]? = some (some r)) ∧
      ∀ x r, s.heap[x]? = some (some r) → r.openCnt = s.holders x := by
  have hi : s.Inv :=
    hs.invariant OpenInodes.Inv (OpenInodes.init_inv n) fun _ _ _ hi h => hi.next h
  exact ⟨hi.listed, hi.counts⟩

/-- Two threads that open the inode on sector 5, one after the other. -/
theorem open_cnt_counts_holders_of_two_opens :
    ∃ s, Trace.Reachable OpenInodes.next (OpenInodes.init 2) s ∧ s.heap = [some ⟨5, 2⟩] ∧
      ((∀ x ∈ s.openInodes, ∃ r, s.heap[x]? = some (some r)) ∧
        ∀ x r, s.heap[x]? = some (some r) → r.openCnt = s.holders x) := by
  obtain ⟨s, hr, hs⟩ : ∃ s, Trace.replay OpenInodes.next (OpenInodes.init 2)
      [.openInode 0 5 true, .openInode 1 5 true, .reopen 1] = some s ∧
        s.heap = [some ⟨5, 2⟩] := ⟨_, rfl, rfl⟩
  have h := Trace.Reachable.replay _ .refl hr
  exact ⟨s, h, hs, open_cnt_counts_holders 2 h⟩

/-- Two interleavings that break `inode_open`. Thread 1 finds the inode thread 0 opened on
sector 5 and releases `open_inodes_lock`; thread 0 closes it, the count reaches 0, and the
inode is unlinked and freed; thread 1's `inode_reopen` then reads the freed inode. And a
`malloc` that fails in thread 0's `inode_open` returns `NULL` with `open_inodes_lock`
held: every thread is outside the functions, yet no other thread can start `inode_open`
again. -/
theorem open_close_race_frees_found_inode :
    (∃ s, Trace.Reachable OpenInodes.next (OpenInodes.init 2) s ∧ s.Enabled (.reopen 1) ∧
      s.step (.reopen 1) = .error .wildAccess) ∧
    (∃ s, Trace.Reachable OpenInodes.next (OpenInodes.init 2) s ∧
      (∀ t < 2, (s.thread t).pc = .idle) ∧ s.lockHolder = some 0 ∧
      ∀ sector ok, ¬s.Enabled (.openInode 1 sector ok)) :=
  ⟨⟨_, Trace.Reachable.replay [.openInode 0 5 true, .openInode 1 5 true, .close 0 0,
      .finishClose 0] .refl rfl, by decide, rfl⟩,
    ⟨_, Trace.Reachable.replay [.openInode 0 5 false] .refl rfl, by decide, rfl,
      fun _ _ => by exact Bool.false_ne_true⟩⟩

end Pintos.Filesys
