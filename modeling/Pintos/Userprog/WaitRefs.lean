import Pintos.Userprog.WaitRuns

/-!
Reference counting in the wait protocol. A record is shared by a parent and a child, and
its `reference_count` should count those of the two that still hold it. `RefsExact s
released` says so of every live record, with `released u ws` telling whether thread `u`
has let go of record `ws`; between calls a thread has let go of its records exactly when it
has exited (`Refs`). Inside `process_exit` the exiting thread lets go of its own record
(`refs_childRelease`) and then of its children's, one by one (`refs_decrementChildren`).

* `waitStep_refs`, `run_refs`: every call keeps the counts exact, so they hold in every
  reachable state;
* `exit_never_faults`: in every reachable state, `exit` by a running thread whose parent
  has not exited ends without a fault: its own record still counts the parent, so its
  decrement frees nothing, and each child record it frees leaves its own live list.

The fault of the run in `WaitStatus` is the other case: a child whose parent has exited
frees its record through the parent's freed list.
-/

namespace Pintos.Userprog

open WaitState

/-- Whether thread `u` has exited; a thread the state does not have counts as gone. -/
def exited (s : WaitState) (u : Nat) : Bool :=
  match s.threads[u]? with
  | some th => th.pc == .dying
  | none => true

/-- A live record at `ws` as the protocol keeps it, with `released u ws` telling whether
thread `u` has let go of it: it is in its parent's `children`, its child's `wait_status`
points to it, the parent is older than the child, `reference_count` counts the two threads
that hold it, and `dead` is up once the child has let go. -/
structure RecordHeld (threads : List Thread) (released : Nat → Nat → Bool) (ws : Nat)
    (w : WaitStatus) : Prop where
  listed : ∃ p, threads[w.parent]? = some p ∧ ws ∈ p.children
  owned : ∃ c, threads[w.tid]? = some c ∧ c.waitStatus = some ws
  parent_lt : w.parent < w.tid
  count : w.referenceCount =
    (if released w.parent ws then 0 else 1) + (if released w.tid ws then 0 else 1)
  dead : w.dead = if released w.tid ws then 1 else 0

/-- Every live record is held as `RecordHeld` says, and a thread that has not let go of its
own record finds it live. -/
structure RefsExact (s : WaitState) (released : Nat → Nat → Bool) : Prop where
  held : ∀ ws w, s.heap[ws]? = some w → w.freed = false → RecordHeld s.threads released ws w
  own : ∀ u th ws, s.threads[u]? = some th → th.waitStatus = some ws → released u ws = false →
    ∃ w, s.heap[ws]? = some w ∧ w.freed = false ∧ w.tid = u

/-- The invariant between calls: linked lists, and counts of the threads not yet exited. -/
def Refs (s : WaitState) : Prop := ChildrenLinked s ∧ RefsExact s fun u _ => exited s u

/-- Thread `u` lets go of record `ws`. -/
def release (released : Nat → Nat → Bool) (u ws : Nat) : Nat → Nat → Bool :=
  fun v x => released v x || (v == u && x == ws)

/-! ## Reading back what was written -/

theorem setWs_self {s : WaitState} {ws : Nat} {w w' : WaitStatus} (hw : s.heap[ws]? = some w) :
    (s.setWs ws w').heap[ws]? = some w' :=
  List.getElem?_set_self (List.getElem?_eq_some_iff.mp hw).1

theorem setWs_ne {s : WaitState} {ws x : Nat} {w' : WaitStatus} (hx : x ≠ ws) :
    (s.setWs ws w').heap[x]? = s.heap[x]? :=
  List.getElem?_set_ne (Ne.symm hx)

theorem setThread_self {s : WaitState} {u : Nat} {th th' : Thread}
    (hu : s.threads[u]? = some th) : (s.setThread u th').threads[u]? = some th' :=
  List.getElem?_set_self (List.getElem?_eq_some_iff.mp hu).1

theorem setThread_ne {s : WaitState} {u v : Nat} {th' : Thread} (hv : v ≠ u) :
    (s.setThread u th').threads[v]? = s.threads[v]? :=
  List.getElem?_set_ne (Ne.symm hv)

@[simp] theorem exited_setWs (s : WaitState) (ws : Nat) (w : WaitStatus) :
    exited (s.setWs ws w) = exited s := rfl

/-- A thread that changes without exiting or coming back leaves `exited` as it was. -/
theorem exited_setThread {s : WaitState} {u : Nat} {th th' : Thread}
    (hu : s.threads[u]? = some th) (hpc : (th'.pc == .dying) = (th.pc == .dying)) :
    exited (s.setThread u th') = exited s := by
  funext v
  by_cases hv : v = u
  · subst hv
    simp only [exited, setThread_self hu, hu, hpc]
  · simp only [exited, setThread_ne hv]

theorem release_ne {R : Nat → Nat → Bool} {u ws v x : Nat} (hx : x ≠ ws) :
    release R u ws v x = R v x := by
  simp [release, hx]

theorem release_of_ne {R : Nat → Nat → Bool} {u ws v x : Nat} (hv : v ≠ u) :
    release R u ws v x = R v x := by
  simp [release, hv]

theorem release_self (R : Nat → Nat → Bool) (u ws : Nat) : release R u ws u ws = true := by
  simp [release]

theorem release_false {R : Nat → Nat → Bool} {u ws v x : Nat} (h : release R u ws v x = false) :
    R v x = false := by
  simp only [release, Bool.or_eq_false_iff] at h
  exact h.1

/-! ## Frames -/

/-- A record keeps being held when the released threads agree at its two threads. -/
theorem RecordHeld.congr {ts : List Thread} {R R' : Nat → Nat → Bool} {ws : Nat}
    {w : WaitStatus} (h : RecordHeld ts R ws w) (hp : R w.parent ws = R' w.parent ws)
    (ht : R w.tid ws = R' w.tid ws) : RecordHeld ts R' ws w where
  listed := h.listed
  owned := h.owned
  parent_lt := h.parent_lt
  count := by rw [← hp, ← ht]; exact h.count
  dead := by rw [← ht]; exact h.dead

/-- A record keeps being held when a thread changes but keeps its `wait_status`, and keeps
the record in its list if it is the record's parent. -/
theorem RecordHeld.setThread {s : WaitState} {R : Nat → Nat → Bool} {x u : Nat}
    {v : WaitStatus} {th th' : Thread} (h : RecordHeld s.threads R x v)
    (hu : s.threads[u]? = some th) (hws : th'.waitStatus = th.waitStatus)
    (hch : v.parent = u → x ∈ th.children → x ∈ th'.children) :
    RecordHeld (s.setThread u th').threads R x v where
  listed := by
    obtain ⟨p, hp, hin⟩ := h.listed
    by_cases hpu : v.parent = u
    · rw [hpu] at hp ⊢
      rw [hu] at hp
      cases hp
      exact ⟨th', setThread_self hu, hch hpu hin⟩
    · exact ⟨p, by rw [setThread_ne hpu]; exact hp, hin⟩
  owned := by
    obtain ⟨c, hc, hcw⟩ := h.owned
    by_cases htu : v.tid = u
    · rw [htu] at hc ⊢
      rw [hu] at hc
      cases hc
      exact ⟨th', setThread_self hu, hws.trans hcw⟩
    · exact ⟨c, by rw [setThread_ne htu]; exact hc, hcw⟩
  parent_lt := h.parent_lt
  count := h.count
  dead := h.dead

/-- A record with the same threads, count and `dead` is held as the old one was. -/
theorem RecordHeld.of_same {ts : List Thread} {R : Nat → Nat → Bool} {ws : Nat}
    {w w' : WaitStatus} (h : RecordHeld ts R ws w) (htid : w'.tid = w.tid)
    (hpar : w'.parent = w.parent) (hcount : w'.referenceCount = w.referenceCount)
    (hdead : w'.dead = w.dead) : RecordHeld ts R ws w' where
  listed := by rw [hpar]; exact h.listed
  owned := by rw [htid]; exact h.owned
  parent_lt := by rw [hpar, htid]; exact h.parent_lt
  count := by rw [hcount, hpar, htid]; exact h.count
  dead := by rw [hdead, htid]; exact h.dead

/-- Released threads that agree wherever a live record or a thread's own record asks. -/
theorem RefsExact.congr {s : WaitState} {R R' : Nat → Nat → Bool} (h : RefsExact s R)
    (hheld : ∀ ws w, s.heap[ws]? = some w → w.freed = false →
      R w.parent ws = R' w.parent ws ∧ R w.tid ws = R' w.tid ws)
    (hown : ∀ u th ws, s.threads[u]? = some th → th.waitStatus = some ws →
      R' u ws = false → R u ws = false) : RefsExact s R' where
  held ws w hw hf := (h.held ws w hw hf).congr (hheld ws w hw hf).1 (hheld ws w hw hf).2
  own u th ws hu hws hr := h.own u th ws hu hws (hown u th ws hu hws hr)

/-- A thread that keeps its `wait_status` and every record of its list. -/
theorem refs_setThread {s : WaitState} {R : Nat → Nat → Bool} {u : Nat} {th th' : Thread}
    (h : RefsExact s R) (hu : s.threads[u]? = some th) (hws : th'.waitStatus = th.waitStatus)
    (hch : ∀ x ∈ th.children, x ∈ th'.children) : RefsExact (s.setThread u th') R where
  held x v hx hv := (h.held x v hx hv).setThread hu hws fun _ hin => hch x hin
  own v th'' x hv hx hr := by
    by_cases hvu : v = u
    · subst hvu
      rw [setThread_self hu] at hv
      cases hv
      exact h.own v th x hu (hws ▸ hx) hr
    · rw [setThread_ne hvu] at hv
      exact h.own v th'' x hv hx hr

/-- A record overwritten with one the counts see as the same. -/
theorem refs_setWs_same {s : WaitState} {R : Nat → Nat → Bool} {ws : Nat} {w w' : WaitStatus}
    (h : RefsExact s R) (hw : s.heap[ws]? = some w)
    (hsame : w'.tid = w.tid ∧ w'.parent = w.parent ∧ w'.referenceCount = w.referenceCount ∧
      w'.dead = w.dead ∧ w'.freed = w.freed) : RefsExact (s.setWs ws w') R where
  held x v hx hv := by
    obtain ⟨htid, hpar, hcount, hdead, hfreed⟩ := hsame
    by_cases hxw : x = ws
    · subst hxw
      rw [setWs_self hw] at hx
      cases hx
      exact (h.held x w hw (hfreed ▸ hv)).of_same htid hpar hcount hdead
    · rw [setWs_ne hxw] at hx
      exact h.held x v hx hv
  own u th x hu hx hr := by
    obtain ⟨v, hv, hvf, hvt⟩ := h.own u th x hu hx hr
    by_cases hxw : x = ws
    · subst hxw
      rw [hw] at hv
      cases hv
      exact ⟨w', setWs_self hw, hsame.2.2.2.2.trans hvf, hsame.1.trans hvt⟩
    · exact ⟨v, by rw [setWs_ne hxw]; exact hv, hvf, hvt⟩

/-- `modifyWs` by a change the counts do not see. -/
theorem refs_modifyWs {s s' : WaitState} {R : Nat → Nat → Bool} {ws : Nat}
    {f : WaitStatus → WaitStatus} (h : RefsExact s R) (hm : s.modifyWs ws f = .ok s')
    (hf : ∀ w, (f w).tid = w.tid ∧ (f w).parent = w.parent ∧
      (f w).referenceCount = w.referenceCount ∧ (f w).dead = w.dead ∧ (f w).freed = w.freed) :
    RefsExact s' R := by
  obtain ⟨w, hw, hm⟩ := Trace.bind_eq_ok hm
  cases hm
  exact refs_setWs_same h (getWs_eq_ok hw).1 (hf w)

theorem exited_modifyWs {s s' : WaitState} {ws : Nat} {f : WaitStatus → WaitStatus}
    (hm : s.modifyWs ws f = .ok s') : exited s' = exited s := by
  obtain ⟨w, -, hm⟩ := Trace.bind_eq_ok hm
  cases hm
  rfl

@[simp] theorem setThread_heap (s : WaitState) (u : Nat) (th : Thread) :
    (s.setThread u th).heap = s.heap := rfl

@[simp] theorem setWs_threads (s : WaitState) (ws : Nat) (w : WaitStatus) :
    (s.setWs ws w).threads = s.threads := rfl

theorem modifyWs_eq_ok {s s' : WaitState} {ws : Nat} {f : WaitStatus → WaitStatus}
    (hm : s.modifyWs ws f = .ok s') :
    ∃ w, s.heap[ws]? = some w ∧ w.freed = false ∧ s' = s.setWs ws (f w) := by
  obtain ⟨w, hw, hm⟩ := Trace.bind_eq_ok hm
  cases hm
  obtain ⟨hw, hf⟩ := getWs_eq_ok hw
  exact ⟨w, hw, hf, rfl⟩

/-- `destroy_wait_status` in one piece: the parent's list without the record, and the
record freed. -/
theorem destroyWaitStatus_eq_ok {s s' : WaitState} {ws : Nat}
    (hd : destroyWaitStatus s ws = .ok s') :
    ∃ w p, s.heap[ws]? = some w ∧ w.freed = false ∧ s.threads[w.parent]? = some p ∧
      s' = (s.setThread w.parent { p with children := p.children.erase ws }).setWs ws
        { w with freed := true } := by
  obtain ⟨w, hw, hd⟩ := Trace.bind_eq_ok hd
  obtain ⟨p, hp, hd⟩ := Trace.bind_eq_ok hd
  obtain ⟨hw, hf⟩ := getWs_eq_ok hw
  split at hd
  · cases hd
  · cases hd
    exact ⟨w, p, hw, hf, getThread_eq_ok hp, rfl⟩

/-! ## Letting go of a record -/

/-- `destroy_wait_status` of a record that no thread still needs as its own keeps the other
records held. -/
theorem refs_destroyWaitStatus {s s' : WaitState} {R : Nat → Nat → Bool} {ws : Nat}
    (hheld : ∀ x v, x ≠ ws → s.heap[x]? = some v → v.freed = false →
      RecordHeld s.threads R x v)
    (hown : ∀ u th x, s.threads[u]? = some th → th.waitStatus = some x → R u x = false →
      x ≠ ws ∧ ∃ v, s.heap[x]? = some v ∧ v.freed = false ∧ v.tid = u)
    (hd : destroyWaitStatus s ws = .ok s') : RefsExact s' R := by
  obtain ⟨w, p, hw, -, hp, rfl⟩ := destroyWaitStatus_eq_ok hd
  refine ⟨fun x v hx hv => ?_, fun u th x hu hx hr => ?_⟩
  · -- the freed record is not live; any other keeps its place in its parent's list
    by_cases hxw : x = ws
    · subst hxw
      have hw' : (s.setThread w.parent { p with children := p.children.erase x }).heap[x]? =
          some w := hw
      rw [setWs_self hw'] at hx
      cases hx
      cases hv
    · rw [setWs_ne hxw] at hx
      exact (hheld x v hxw hx hv).setThread hp rfl fun _ hin =>
        (List.mem_erase_of_ne hxw).mpr hin
  · rw [setWs_threads] at hu
    have hu' : ∃ th₀, s.threads[u]? = some th₀ ∧ th.waitStatus = th₀.waitStatus := by
      by_cases hup : u = w.parent
      · subst hup
        rw [setThread_self hp] at hu
        cases hu
        exact ⟨p, hp, rfl⟩
      · rw [setThread_ne hup] at hu
        exact ⟨th, hu, rfl⟩
    obtain ⟨th₀, hu₀, hws⟩ := hu'
    obtain ⟨hxw, v, hv, hvf, hvt⟩ := hown u th₀ x hu₀ (hws ▸ hx) hr
    exact ⟨v, by rw [setWs_ne hxw]; exact hv, hvf, hvt⟩

/-- `destroy_wait_status` of a record whose child has let go of it, from a state where
every other record is held. -/
theorem refs_destroyWaitStatus_released {s s' : WaitState} {R : Nat → Nat → Bool} {ws : Nat}
    {w : WaitStatus}
    (hheld : ∀ x v, x ≠ ws → s.heap[x]? = some v → v.freed = false →
      RecordHeld s.threads R x v)
    (hown : ∀ u th x, s.threads[u]? = some th → th.waitStatus = some x → R u x = false →
      ∃ v, s.heap[x]? = some v ∧ v.freed = false ∧ v.tid = u)
    (hw : s.heap[ws]? = some w) (hrel : R w.tid ws = true)
    (hd : destroyWaitStatus s ws = .ok s') : RefsExact s' R := by
  refine refs_destroyWaitStatus hheld (fun u th x hu hx hr => ?_) hd
  obtain ⟨v, hv, hvf, hvt⟩ := hown u th x hu hx hr
  refine ⟨fun hxw => ?_, v, hv, hvf, hvt⟩
  -- the only thread that owns `ws` is its child, which has let go
  subst hxw
  rw [hw] at hv
  cases hv
  rw [hvt, hr] at hrel
  cases hrel

/-- A record stored back with its threads and `freed` kept: the other records and the
threads' own records are held as before, for released threads that grow only at it. -/
theorem setWs_other {s : WaitState} {R R' : Nat → Nat → Bool} {ws : Nat} {w w' : WaitStatus}
    (h : RefsExact s R) (hw : s.heap[ws]? = some w) (htid : w'.tid = w.tid)
    (hfreed : w'.freed = w.freed) (hoff : ∀ v x, x ≠ ws → R' v x = R v x)
    (hmono : ∀ v x, R' v x = false → R v x = false) :
    (∀ x v, x ≠ ws → (s.setWs ws w').heap[x]? = some v → v.freed = false →
      RecordHeld s.threads R' x v) ∧
    (∀ u th x, s.threads[u]? = some th → th.waitStatus = some x → R' u x = false →
      ∃ v, (s.setWs ws w').heap[x]? = some v ∧ v.freed = false ∧ v.tid = u) := by
  refine ⟨fun x v hxw hx hv => ?_, fun u th x hu hx hr => ?_⟩
  · rw [setWs_ne hxw] at hx
    exact (h.held x v hx hv).congr (hoff _ _ hxw).symm (hoff _ _ hxw).symm
  · obtain ⟨v, hv, hvf, hvt⟩ := h.own u th x hu hx (hmono u x hr)
    by_cases hxw : x = ws
    · subst hxw
      rw [hw] at hv
      cases hv
      exact ⟨w', setWs_self hw, hfreed.trans hvf, htid.trans hvt⟩
    · exact ⟨v, by rw [setWs_ne hxw]; exact hv, hvf, hvt⟩

theorem release_off {R : Nat → Nat → Bool} {u ws : Nat} :
    ∀ v x, x ≠ ws → release R u ws v x = R v x :=
  fun _ _ hx => release_ne hx

theorem release_mono {R : Nat → Nat → Bool} {u ws : Nat} :
    ∀ v x, release R u ws v x = false → R v x = false :=
  fun _ _ h => release_false h

/-- The parent's `decrement_and_destroy_if_zero` of a live record: the parent lets go, and
the record is freed only if the child had let go too. -/
theorem refs_parentRelease {s s' : WaitState} {R : Nat → Nat → Bool} {ws : Nat}
    {w : WaitStatus} {d : Bool} (h : RefsExact s R) (hw : s.heap[ws]? = some w)
    (hr : R w.parent ws = false) (hd : decrementAndDestroyIfZero s ws = .ok (s', d)) :
    RefsExact s' (release R w.parent ws) := by
  obtain ⟨w₀, hw₀, hd⟩ := Trace.bind_eq_ok hd
  obtain ⟨hw₀, hf⟩ := getWs_eq_ok hw₀
  rw [hw] at hw₀
  cases hw₀
  have hrec := h.held ws w hw hf
  have hne : w.tid ≠ w.parent := Nat.ne_of_gt hrec.parent_lt
  have hc := hrec.count
  simp only [hr, Bool.false_eq_true, if_false] at hc
  obtain ⟨hheld, hown⟩ := setWs_other h hw
    (show ({ w with referenceCount := w.referenceCount - 1 } : WaitStatus).tid = w.tid from rfl)
    rfl release_off release_mono
  dsimp only at hd
  split at hd
  · next hzero =>
    obtain ⟨s₂, h₂, hd⟩ := Trace.bind_eq_ok hd
    simp only [Trace.pure_eq_ok, Prod.mk.injEq] at hd
    obtain ⟨rfl, -⟩ := hd
    refine refs_destroyWaitStatus hheld (fun u th x hu hx hx' => ⟨fun hxw => ?_,
      hown u th x hu hx hx'⟩) h₂
    -- the count reached zero, so the child, the only thread owning `ws`, had let go
    subst hxw
    obtain ⟨v, hv, -, hvt⟩ := hown u th x hu hx hx'
    rw [setWs_self hw] at hv
    cases hv
    have hchild := release_false hx'
    rw [← hvt] at hchild
    simp only [hchild, Bool.false_eq_true, if_false] at hc
    omega
  · simp only [Trace.pure_eq_ok, Prod.mk.injEq] at hd
    obtain ⟨rfl, -⟩ := hd
    refine ⟨fun x v hx hv => ?_, hown⟩
    by_cases hxw : x = ws
    · subst hxw
      rw [setWs_self hw] at hx
      cases hx
      refine ⟨hrec.listed, hrec.owned, hrec.parent_lt, ?_, ?_⟩
      · simp only [release_self, release_of_ne hne, if_true]
        omega
      · simp only [release_of_ne hne]
        exact hrec.dead
    · exact hheld x v hxw hx hv

/-- The child's `decrement_and_destroy_if_zero` of its own record and the `sema_up` of
`dead` after it: the child lets go, and the record keeps its parent. -/
theorem refs_childRelease {s s₂ s₃ : WaitState} {R : Nat → Nat → Bool} {ws : Nat}
    {w : WaitStatus} {d : Bool} (h : RefsExact s R) (hw : s.heap[ws]? = some w)
    (hr : R w.tid ws = false) (hd : decrementAndDestroyIfZero s ws = .ok (s₂, d))
    (hs : signalDead s₂ ws d = .ok s₃) :
    RefsExact s₃ (release R w.tid ws) ∧ ∃ v, s₃.heap[ws]? = some v ∧ v.parent = w.parent := by
  obtain ⟨w₀, hw₀, hd⟩ := Trace.bind_eq_ok hd
  obtain ⟨hw₀, hf⟩ := getWs_eq_ok hw₀
  rw [hw] at hw₀
  cases hw₀
  have hrec := h.held ws w hw hf
  have hne : w.parent ≠ w.tid := Nat.ne_of_lt hrec.parent_lt
  have hc := hrec.count
  have hdead := hrec.dead
  simp only [hr, Bool.false_eq_true, if_false] at hc hdead
  dsimp only at hd
  split at hd
  · -- the parent had let go: the record is freed, and no `sema_up` follows
    obtain ⟨s₁, h₁, hd⟩ := Trace.bind_eq_ok hd
    simp only [Trace.pure_eq_ok, Prod.mk.injEq] at hd
    obtain ⟨rfl, rfl⟩ := hd
    simp only [signalDead, if_true, Trace.pure_eq_ok] at hs
    subst hs
    obtain ⟨hheld, hown⟩ := setWs_other h hw
      (show ({ w with referenceCount := w.referenceCount - 1 } : WaitStatus).tid = w.tid from rfl)
      rfl release_off release_mono
    refine ⟨refs_destroyWaitStatus_released hheld hown (setWs_self hw) (release_self _ _ _) h₁,
      ?_⟩
    obtain ⟨w₁, p, hw₁, -, -, rfl⟩ := destroyWaitStatus_eq_ok h₁
    rw [setWs_self hw] at hw₁
    cases hw₁
    exact ⟨_, setWs_self (by rw [setThread_heap]; exact setWs_self hw), rfl⟩
  · -- the parent still holds it: one count lower, and `dead` up
    simp only [Trace.pure_eq_ok, Prod.mk.injEq] at hd
    obtain ⟨rfl, rfl⟩ := hd
    simp only [signalDead, Bool.false_eq_true, if_false] at hs
    obtain ⟨w₁, hw₁, -, rfl⟩ := modifyWs_eq_ok hs
    rw [setWs_self hw] at hw₁
    cases hw₁
    have hss : ((s.setWs ws { w with referenceCount := w.referenceCount - 1 }).setWs ws
        { w with referenceCount := w.referenceCount - 1, dead := w.dead + 1 }) =
        s.setWs ws { w with referenceCount := w.referenceCount - 1, dead := w.dead + 1 } := by
      simp only [setWs, List.set_set]
    rw [hss]
    obtain ⟨hheld, hown⟩ := setWs_other h hw
      (show ({ w with referenceCount := w.referenceCount - 1, dead := w.dead + 1 } :
        WaitStatus).tid = w.tid from rfl) rfl release_off release_mono
    refine ⟨⟨fun x v hx hv => ?_, hown⟩, _, setWs_self hw, rfl⟩
    by_cases hxw : x = ws
    · subst hxw
      rw [setWs_self hw] at hx
      cases hx
      refine ⟨hrec.listed, hrec.owned, hrec.parent_lt, ?_, ?_⟩
      · simp only [release_self, release_of_ne hne, if_true]
        omega
      · simp only [release_self, if_true]
        omega
    · exact hheld x v hxw hx hv

/-! ## What the steps of an exit keep -/

/-- No record comes back to life or changes its threads, and no thread exits or appears. -/
structure Shrinks (s s' : WaitState) : Prop where
  heap : ∀ (x : Nat) (v : WaitStatus), s'.heap[x]? = some v → v.freed = false →
    ∃ v₀, s.heap[x]? = some v₀ ∧ v₀.freed = false ∧ v₀.parent = v.parent ∧ v₀.tid = v.tid
  exited : exited s' = exited s

theorem Shrinks.refl (s : WaitState) : Shrinks s s :=
  ⟨fun _ v hx hv => ⟨v, hx, hv, rfl, rfl⟩, rfl⟩

theorem Shrinks.trans {s₁ s₂ s₃ : WaitState} (h₁ : Shrinks s₁ s₂) (h₂ : Shrinks s₂ s₃) :
    Shrinks s₁ s₃ where
  heap x v hx hv := by
    obtain ⟨v₂, hx₂, hf₂, hp₂, ht₂⟩ := h₂.heap x v hx hv
    obtain ⟨v₁, hx₁, hf₁, hp₁, ht₁⟩ := h₁.heap x v₂ hx₂ hf₂
    exact ⟨v₁, hx₁, hf₁, hp₁.trans hp₂, ht₁.trans ht₂⟩
  exited := h₂.exited.trans h₁.exited

theorem shrinks_setWs {s : WaitState} {ws : Nat} {w w' : WaitStatus}
    (hw : s.heap[ws]? = some w) (hpar : w'.parent = w.parent) (htid : w'.tid = w.tid)
    (hf : w'.freed = false → w.freed = false) : Shrinks s (s.setWs ws w') where
  heap x v hx hv := by
    by_cases hxw : x = ws
    · subst hxw
      rw [setWs_self hw] at hx
      cases hx
      exact ⟨w, hw, hf hv, hpar.symm, htid.symm⟩
    · rw [setWs_ne hxw] at hx
      exact ⟨v, hx, hv, rfl, rfl⟩
  exited := rfl

theorem shrinks_destroyWaitStatus {s s' : WaitState} {ws : Nat}
    (hd : destroyWaitStatus s ws = .ok s') : Shrinks s s' := by
  obtain ⟨w, p, hw, -, hp, rfl⟩ := destroyWaitStatus_eq_ok hd
  have h₁ : Shrinks s (s.setThread w.parent { p with children := p.children.erase ws }) :=
    ⟨fun _ v hx hv => ⟨v, hx, hv, rfl, rfl⟩, exited_setThread hp rfl⟩
  exact h₁.trans (shrinks_setWs hw rfl rfl fun h => by simp at h)

theorem shrinks_decrementAndDestroyIfZero {s s' : WaitState} {ws : Nat} {d : Bool}
    (hd : decrementAndDestroyIfZero s ws = .ok (s', d)) : Shrinks s s' := by
  obtain ⟨w, hw, hd⟩ := Trace.bind_eq_ok hd
  have h₁ := shrinks_setWs (getWs_eq_ok hw).1
    (show ({ w with referenceCount := w.referenceCount - 1 } : WaitStatus).parent = w.parent
      from rfl) rfl id
  dsimp only at hd
  split at hd
  · obtain ⟨s₂, h₂, hd⟩ := Trace.bind_eq_ok hd
    simp only [Trace.pure_eq_ok, Prod.mk.injEq] at hd
    obtain ⟨rfl, -⟩ := hd
    exact h₁.trans (shrinks_destroyWaitStatus h₂)
  · simp only [Trace.pure_eq_ok, Prod.mk.injEq] at hd
    obtain ⟨rfl, -⟩ := hd
    exact h₁

theorem shrinks_signalDead {s s' : WaitState} {ws : Nat} {d : Bool}
    (hs : signalDead s ws d = .ok s') : Shrinks s s' := by
  cases d with
  | true =>
    simp only [signalDead, if_true, Trace.pure_eq_ok] at hs
    exact hs ▸ Shrinks.refl s
  | false =>
    simp only [signalDead, Bool.false_eq_true, if_false] at hs
    obtain ⟨w, hw, -, rfl⟩ := modifyWs_eq_ok hs
    exact shrinks_setWs hw rfl rfl id

theorem shrinks_decrementChildren :
    ∀ {l : List Nat} {s s' : WaitState}, decrementChildren s l = .ok s' → Shrinks s s'
  | [], s, s', hd => by
    simp only [decrementChildren, Trace.pure_eq_ok] at hd
    exact hd ▸ Shrinks.refl s
  | _ :: _, _, _, hd => by
    obtain ⟨⟨s₁, _⟩, h₁, hd⟩ := Trace.bind_eq_ok hd
    exact (shrinks_decrementAndDestroyIfZero h₁).trans (shrinks_decrementChildren hd)

/-- `decrement_and_destroy_if_zero` writes only the record it is given. -/
theorem decrementAndDestroyIfZero_heap_ne {s s' : WaitState} {ws : Nat} {d : Bool}
    (hd : decrementAndDestroyIfZero s ws = .ok (s', d)) :
    ∀ x, x ≠ ws → s'.heap[x]? = s.heap[x]? := by
  intro x hx
  obtain ⟨w, -, hd⟩ := Trace.bind_eq_ok hd
  dsimp only at hd
  split at hd
  · obtain ⟨s₂, h₂, hd⟩ := Trace.bind_eq_ok hd
    simp only [Trace.pure_eq_ok, Prod.mk.injEq] at hd
    obtain ⟨rfl, -⟩ := hd
    obtain ⟨w₁, p, -, -, -, rfl⟩ := destroyWaitStatus_eq_ok h₂
    rw [setWs_ne hx, setThread_heap, setWs_ne hx]
  · simp only [Trace.pure_eq_ok, Prod.mk.injEq] at hd
    obtain ⟨rfl, -⟩ := hd
    exact setWs_ne hx

theorem exited_eq_false {s : WaitState} {u : Nat} :
    exited s u = false ↔ ∃ th, s.threads[u]? = some th ∧ th.pc ≠ .dying := by
  unfold exited
  cases s.threads[u]? with
  | none => simp
  | some th => simp

/-- The parent's loop over its `children` in `decrement_all_references`: the parent lets go
of every record of the list. Induction on the list. -/
theorem refs_decrementChildren {t : Nat} :
    ∀ {l : List Nat} {s s' : WaitState} {R : Nat → Nat → Bool}, RefsExact s R → l.Nodup →
      (∀ x ∈ l, ∃ v, s.heap[x]? = some v ∧ v.freed = false ∧ v.parent = t) →
      (∀ x ∈ l, R t x = false) → decrementChildren s l = .ok s' →
        RefsExact s' fun u x => R u x || (u == t && decide (x ∈ l))
  | [], s, s', R, h, _, _, _, hd => by
    simp only [decrementChildren, Trace.pure_eq_ok] at hd
    subst hd
    simpa using h
  | x₀ :: rest, s, s', R, h, hnd, hlive, hfree, hd => by
    obtain ⟨⟨s₁, d⟩, h₁, hd⟩ := Trace.bind_eq_ok hd
    obtain ⟨v₀, hv₀, -, hv₀p⟩ := hlive x₀ List.mem_cons_self
    have hR₁ := refs_parentRelease h hv₀ (hv₀p ▸ hfree x₀ List.mem_cons_self) h₁
    rw [hv₀p] at hR₁
    obtain ⟨hx₀, hnd⟩ := List.nodup_cons.mp hnd
    have hne : ∀ x ∈ rest, x ≠ x₀ := fun x hx heq => hx₀ (heq ▸ hx)
    have ih := refs_decrementChildren hR₁ hnd
      (fun x hx => by
        rw [decrementAndDestroyIfZero_heap_ne h₁ x (hne x hx)]
        exact hlive x (List.mem_cons_of_mem _ hx))
      (fun x hx => by
        rw [release_ne (hne x hx)]
        exact hfree x (List.mem_cons_of_mem _ hx))
      hd
    -- letting go of the head, then of the rest, is letting go of the whole list
    have heq : (fun u x => release R t x₀ u x || (u == t && decide (x ∈ rest))) =
        fun u x => R u x || (u == t && decide (x ∈ x₀ :: rest)) := by
      funext u x
      by_cases hx : x = x₀
      · by_cases hu : u = t <;> simp [release, hu, hx]
      · by_cases hu : u = t <;> simp [release, hu, hx, beq_eq_false_iff_ne.mpr hx]
    rw [← heq]
    exact ih

/-! ## Exits that do not fault -/

/-- `decrement_and_destroy_if_zero` of a live record whose parent has not exited ends
without a fault: a freed record leaves the parent's live list. -/
theorem decrementAndDestroyIfZero_ok {s : WaitState} {ws : Nat} {w : WaitStatus}
    (hw : s.heap[ws]? = some w) (hf : w.freed = false) (hp : exited s w.parent = false) :
    ∃ r, decrementAndDestroyIfZero s ws = .ok r := by
  obtain ⟨p, hp, hpc⟩ := exited_eq_false.mp hp
  have hget : s.getWs ws = .ok w := by simp [getWs, hw, hf]
  simp only [decrementAndDestroyIfZero, hget, Trace.ok_bind]
  split
  · have hget' : (s.setWs ws { w with referenceCount := w.referenceCount - 1 }).getWs ws =
        .ok { w with referenceCount := w.referenceCount - 1 } := by
      simp [getWs, setWs_self hw, hf]
    have hthr : (s.setWs ws { w with referenceCount := w.referenceCount - 1 }).getThread
        w.parent = .ok p := by
      simp [getThread, hp]
    simp only [destroyWaitStatus, hget', hthr, Trace.ok_bind]
    rw [if_neg fun hc => hpc hc.1]
    exact ⟨_, rfl⟩
  · exact ⟨_, rfl⟩

/-- The parent's loop over its `children`, from a live parent over live records of its
own, ends without a fault. -/
theorem decrementChildren_ok {t : Nat} :
    ∀ {l : List Nat} {s : WaitState}, exited s t = false → l.Nodup →
      (∀ x ∈ l, ∃ v, s.heap[x]? = some v ∧ v.freed = false ∧ v.parent = t) →
      ∃ s', decrementChildren s l = .ok s'
  | [], _, _, _, _ => ⟨_, rfl⟩
  | x₀ :: rest, s, ht, hnd, hlive => by
    obtain ⟨v₀, hv₀, hf₀, hp₀⟩ := hlive x₀ List.mem_cons_self
    obtain ⟨⟨s₁, d⟩, h₁⟩ := decrementAndDestroyIfZero_ok hv₀ hf₀ (hp₀ ▸ ht)
    obtain ⟨hx₀, hnd⟩ := List.nodup_cons.mp hnd
    have hrest : ∃ s', decrementChildren s₁ rest = .ok s' :=
      decrementChildren_ok (by rw [(shrinks_decrementAndDestroyIfZero h₁).exited]; exact ht) hnd
        fun x hx => by
          rw [decrementAndDestroyIfZero_heap_ne h₁ x fun heq => hx₀ (heq ▸ hx)]
          exact hlive x (List.mem_cons_of_mem _ hx)
    obtain ⟨s', h'⟩ := hrest
    exact ⟨s', by simp only [decrementChildren, h₁, Trace.ok_bind, h']⟩

/-! ## Each call of the protocol -/

theorem pc_ne_dying {s : WaitState} {u : Nat} {th : Thread} (hu : s.threads[u]? = some th)
    (h : exited s u = false) : th.pc ≠ .dying := by
  obtain ⟨th', hu', hpc⟩ := exited_eq_false.mp h
  rw [hu] at hu'
  cases hu'
  exact hpc

/-- A thread that moves from one place to another, neither of them `dying`. -/
theorem refs_setPc {s : WaitState} {u : Nat} {th : Thread} {pc : ThreadPc}
    (h : Refs s) (hu : s.threads[u]? = some th) (hpc : th.pc ≠ .dying) (hpc' : pc ≠ .dying) :
    Refs (s.setThread u { th with pc }) := by
  refine ⟨linked_setPc h.1 hu pc, ?_⟩
  rw [exited_setThread hu (by rw [beq_false_of_ne hpc, beq_false_of_ne hpc'])]
  exact refs_setThread h.2 hu rfl fun _ hx => hx

/-- `thread_create` in one piece: the new record and thread at the ends, and the record at
the front of the creator's list. -/
theorem threadCreate_eq_ok {s s' : WaitState} {t tid : Nat} {command : List UInt8}
    (hc : threadCreate s t command = .ok (s', tid)) :
    ∃ th, s.threads[t]? = some th ∧ tid = s.threads.length ∧
      s' = (WaitState.mk (s.heap ++ [⟨s.threads.length, 0, 0, 2, 0, 0, t, false⟩])
        (s.threads ++ [⟨some s.heap.length, [], .loading command⟩])).setThread t
          { th with children := s.heap.length :: th.children } := by
  obtain ⟨th, ht, hc⟩ := Trace.bind_eq_ok hc
  simp only [Trace.pure_eq_ok, Prod.mk.injEq] at hc
  obtain ⟨rfl, rfl⟩ := hc
  exact ⟨th, getThread_eq_ok ht, rfl, rfl⟩

/-- After `thread_create`, only the new thread, which is loading, is new to `exited`. -/
theorem exited_threadCreate {s s' : WaitState} {t tid : Nat} {command : List UInt8}
    (hc : threadCreate s t command = .ok (s', tid)) :
    exited s' = fun u => if u = s.threads.length then false else exited s u := by
  obtain ⟨th, hth, -, rfl⟩ := threadCreate_eq_ok hc
  set s₁ : WaitState := ⟨s.heap ++ [⟨s.threads.length, 0, 0, 2, 0, 0, t, false⟩],
    s.threads ++ [⟨some s.heap.length, [], .loading command⟩]⟩
  have hth₁ : s₁.threads[t]? = some th :=
    (List.getElem?_append_left (List.getElem?_eq_some_iff.mp hth).1).trans hth
  have htn : t ≠ s.threads.length := Nat.ne_of_lt (List.getElem?_eq_some_iff.mp hth).1
  funext u
  by_cases hun : u = s.threads.length
  · subst hun
    simp only [exited, setThread_ne (Ne.symm htn), s₁, List.getElem?_concat_length, if_true]
    rfl
  · rw [if_neg hun]
    by_cases hut : u = t
    · rw [hut]
      simp only [exited, setThread_self hth₁, hth]
    · simp only [exited, setThread_ne hut]
      rcases Nat.lt_or_gt_of_ne hun with hlt | hgt
      · rw [List.getElem?_append_left hlt]
      · have hnone : s₁.threads[u]? = none := List.getElem?_eq_none (by simp [s₁]; omega)
        rw [hnone, List.getElem?_eq_none (Nat.le_of_lt hgt)]

/-- The creator of a thread has not exited after `thread_create` if it had not before. -/
theorem exited_threadCreate_creator {s s' : WaitState} {t tid : Nat} {command : List UInt8}
    (hc : threadCreate s t command = .ok (s', tid)) (ht : exited s t = false) : exited s' t = false := by
  obtain ⟨_, hu, -⟩ := exited_eq_false.mp ht
  rw [exited_threadCreate hc]
  dsimp only
  rw [if_neg (Nat.ne_of_lt (List.getElem?_eq_some_iff.mp hu).1)]
  exact ht

/-- A record held among threads stays held when more threads are added. -/
theorem RecordHeld.extend {ts ts' : List Thread} {R : Nat → Nat → Bool} {ws : Nat}
    {w : WaitStatus} (h : RecordHeld ts R ws w)
    (hts : ∀ (u : Nat) (th : Thread), ts[u]? = some th → ts'[u]? = some th) :
    RecordHeld ts' R ws w where
  listed := by
    obtain ⟨p, hp, hin⟩ := h.listed
    exact ⟨p, hts _ _ hp, hin⟩
  owned := by
    obtain ⟨c, hc, hcw⟩ := h.owned
    exact ⟨c, hts _ _ hc, hcw⟩
  parent_lt := h.parent_lt
  count := h.count
  dead := h.dead

/-- `thread_create` by a thread that has not exited: the new record is held by both. -/
theorem refs_threadCreate {s s' : WaitState} {t tid : Nat} {command : List UInt8} (h : Refs s)
    (ht : exited s t = false) (hc : threadCreate s t command = .ok (s', tid)) : Refs s' := by
  refine ⟨linked_threadCreate h.1 hc, ?_⟩
  have hex := exited_threadCreate hc
  obtain ⟨th, hth, -, rfl⟩ := threadCreate_eq_ok hc
  rw [hex]
  have htn : t < s.threads.length := (List.getElem?_eq_some_iff.mp hth).1
  set s₁ : WaitState := ⟨s.heap ++ [⟨s.threads.length, 0, 0, 2, 0, 0, t, false⟩],
    s.threads ++ [⟨some s.heap.length, [], .loading command⟩]⟩ with hs₁
  set th' : Thread := { th with children := s.heap.length :: th.children }
  have hold : ∀ u th₀, s.threads[u]? = some th₀ → s₁.threads[u]? = some th₀ := fun u th₀ hu =>
    (List.getElem?_append_left (List.getElem?_eq_some_iff.mp hu).1).trans hu
  have hth₁ : s₁.threads[t]? = some th := hold t th hth
  have hnew : (s₁.setThread t th').threads[s.threads.length]? =
      some ⟨some s.heap.length, [], .loading command⟩ := by
    rw [setThread_ne (Nat.ne_of_gt htn)]
    exact List.getElem?_concat_length
  refine ⟨fun x v hx hv => ?_, fun u th₀ x hu hx hr => ?_⟩
  · rw [setThread_heap] at hx
    rcases Nat.lt_trichotomy x s.heap.length with hlt | rfl | hgt
    · -- an old record, whose threads are both old
      rw [List.getElem?_append_left hlt] at hx
      have hrec := h.2.held x v hx hv
      obtain ⟨p, hp, -⟩ := hrec.listed
      obtain ⟨c, hc, -⟩ := hrec.owned
      have hpn := Nat.ne_of_lt (List.getElem?_eq_some_iff.mp hp).1
      have hcn := Nat.ne_of_lt (List.getElem?_eq_some_iff.mp hc).1
      refine ((hrec.extend hold).congr ?_ ?_).setThread hth₁ rfl
        fun _ hin => List.mem_cons_of_mem _ hin
      · simp only [if_neg hpn]
      · simp only [if_neg hcn]
    · -- the new record: in the creator's list, and the new thread's own
      rw [List.getElem?_concat_length] at hx
      cases hx
      refine ⟨⟨th', setThread_self hth₁, List.mem_cons_self⟩, ⟨_, hnew, rfl⟩, htn, ?_, ?_⟩
      · simp [Nat.ne_of_lt htn, ht]
      · simp
    · have hnone : s₁.heap[x]? = none := List.getElem?_eq_none (by simp [s₁]; omega)
      rw [hnone] at hx
      cases hx
  · by_cases hun : u = s.threads.length
    · subst hun
      rw [hnew] at hu
      cases hu
      cases hx
      exact ⟨_, List.getElem?_concat_length, rfl, rfl⟩
    · -- an old thread, with the `wait_status` it had
      simp only [if_neg hun] at hr
      obtain ⟨th₁, hu₁, -⟩ := exited_eq_false.mp hr
      have hws : th₀.waitStatus = th₁.waitStatus := by
        by_cases hut : u = t
        · subst hut
          rw [setThread_self hth₁] at hu
          rw [hth] at hu₁
          cases hu
          cases hu₁
          rfl
        · rw [setThread_ne hut, hold u th₁ hu₁] at hu
          cases hu
          rfl
      obtain ⟨v, hv, hvf, hvt⟩ := h.2.own u th₁ x hu₁ (hws.symm.trans hx) hr
      refine ⟨v, ?_, hvf, hvt⟩
      rw [setThread_heap]
      exact (List.getElem?_append_left (List.getElem?_eq_some_iff.mp hv).1).trans hv

/-- The end of `thread_exit`: the thread is marked dying, and has exited. -/
theorem exited_setDying {s : WaitState} {t : Nat} {th : Thread} (ht : s.threads[t]? = some th) :
    exited (s.setThread t { th with pc := .dying }) = fun u => exited s u || u == t := by
  funext u
  by_cases hu : u = t
  · subst hu
    simp [exited, setThread_self ht]
  · simp [exited, setThread_ne hu, beq_false_of_ne hu]

/-- `process_exit` of a thread that has not exited: it lets go of its own record, then of
its children's, and has exited. -/
theorem refs_processExit {s s' : WaitState} {t : Nat} (h : Refs s) (ht : exited s t = false)
    (he : processExit s t = .ok s') : Refs s' := by
  refine ⟨linked_processExit h.1 he, ?_⟩
  obtain ⟨s₁, h₁, he⟩ := Trace.bind_eq_ok he
  obtain ⟨th₁, hth₁, he⟩ := Trace.bind_eq_ok he
  simp only [Trace.pure_eq_ok] at he
  subst he
  have hth₁ := getThread_eq_ok hth₁
  -- `decrement_all_references`: the own record, the signal, then the children
  obtain ⟨th, hth, h₁⟩ := Trace.bind_eq_ok h₁
  obtain ⟨ws, hws, h₁⟩ := Trace.bind_eq_ok h₁
  obtain ⟨⟨s₂, d⟩, h₂, h₁⟩ := Trace.bind_eq_ok h₁
  obtain ⟨s₃, h₃, h₁⟩ := Trace.bind_eq_ok h₁
  obtain ⟨th₃, hth₃, h₁⟩ := Trace.bind_eq_ok h₁
  have hth := getThread_eq_ok hth
  have hth₃ := getThread_eq_ok hth₃
  have hws := ownWs_eq_ok hws
  obtain ⟨w, hw, hwf, hwt⟩ := h.2.own t th ws hth hws ht
  have hrec := h.2.held ws w hw hwf
  obtain ⟨hR₃, v, hv, hvp⟩ := refs_childRelease h.2 hw (by rw [hwt]; exact ht) h₂ h₃
  rw [hwt] at hR₃
  obtain ⟨hnd, hlive⟩ :=
    linked_signalDead (linked_decrementAndDestroyIfZero h.1 h₂) h₃ t th₃ hth₃
  -- the own record is not among the children: its parent is older than `t`
  have hfree : ∀ x ∈ th₃.children, release (fun u _ => exited s u) t ws t x = false := by
    intro x hx
    obtain ⟨v', hv', -, hv'p⟩ := hlive x hx
    have hxw : x ≠ ws := by
      rintro rfl
      rw [hv] at hv'
      cases hv'
      have hlt := hrec.parent_lt
      omega
    rw [release_ne hxw]
    exact ht
  have hR₁ := refs_decrementChildren hR₃ hnd hlive hfree h₁
  have hshr₃ := shrinks_decrementChildren h₁
  have hshr := ((shrinks_decrementAndDestroyIfZero h₂).trans (shrinks_signalDead h₃)).trans hshr₃
  rw [exited_setDying hth₁, hshr.exited]
  -- `t` has let go of a record exactly when it is its own or one of its children's
  have key : ∀ u x, (u = t → x = ws ∨ x ∈ th₃.children) →
      (release (fun u _ => exited s u) t ws u x || (u == t && decide (x ∈ th₃.children))) =
        (exited s u || u == t) := by
    intro u x hux
    by_cases hu : u = t
    · subst hu
      rcases hux rfl with rfl | hx
      · simp [release]
      · simp [release, hx]
    · simp [release, beq_false_of_ne hu]
  refine (refs_setThread hR₁ hth₁
    (show ({ th₁ with pc := .dying } : Thread).waitStatus = th₁.waitStatus from rfl)
    fun _ hx => hx).congr (fun x v₁ hx hv₁ => ?_)
    (fun u th₀ x _ _ hr => ?_)
  · rw [setThread_heap] at hx
    refine ⟨key _ _ fun hpt => Or.inr ?_, key _ _ fun htt => Or.inl ?_⟩
    · -- a live record of `t`'s is in the list `t` went through
      obtain ⟨v₀, hx₀, hf₀, hp₀, -⟩ := hshr₃.heap x v₁ hx hv₁
      obtain ⟨p, hp, hin⟩ := (hR₃.held x v₀ hx₀ hf₀).listed
      rw [hp₀, hpt, hth₃] at hp
      cases hp
      exact hin
    · -- a live record whose child is `t` is `t`'s own
      obtain ⟨v₀, hx₀, hf₀, -, ht₀⟩ := hshr.heap x v₁ hx hv₁
      obtain ⟨c, hc, hcw⟩ := (h.2.held x v₀ hx₀ hf₀).owned
      rw [ht₀, htt, hth] at hc
      cases hc
      rw [hws] at hcw
      exact (Option.some.inj hcw).symm
  · simp only [Bool.or_eq_false_iff, beq_eq_false_iff_ne] at hr
    simp [release, hr.1, beq_false_of_ne hr.2]

theorem shrinks_finishWait {s s' : WaitState} {ws : Nat} {r : Option Int}
    (hf : finishWait s ws = .ok (s', r)) : Shrinks s s' := by
  obtain ⟨w, hw, hf⟩ := Trace.bind_eq_ok hf
  obtain ⟨s₂, h₂, hf⟩ := Trace.bind_eq_ok hf
  simp only [Trace.pure_eq_ok, Prod.mk.injEq] at hf
  obtain ⟨rfl, -⟩ := hf
  exact (shrinks_setWs (getWs_eq_ok hw).1
    (show ({ w with dead := w.dead - 1 } : WaitStatus).parent = w.parent from rfl) rfl
    id).trans (shrinks_destroyWaitStatus h₂)

/-- The end of `process_wait`, once `dead` is up: the child has let go, and the parent
frees the record. -/
theorem refs_finishWait {s s' : WaitState} {ws : Nat} {w : WaitStatus} {r : Option Int}
    (h : Refs s) (hw : s.heap[ws]? = some w) (hdead : w.dead ≠ 0)
    (hf : finishWait s ws = .ok (s', r)) : Refs s' := by
  refine ⟨linked_finishWait h.1 hf, ?_⟩
  rw [(shrinks_finishWait hf).exited]
  obtain ⟨w₀, hw₀, hf⟩ := Trace.bind_eq_ok hf
  obtain ⟨hw₀, hf₀⟩ := getWs_eq_ok hw₀
  rw [hw] at hw₀
  cases hw₀
  obtain ⟨s₂, h₂, hf⟩ := Trace.bind_eq_ok hf
  simp only [Trace.pure_eq_ok, Prod.mk.injEq] at hf
  obtain ⟨rfl, -⟩ := hf
  have hrel : exited s w.tid = true := by
    have hd := (h.2.held ws w hw hf₀).dead
    cases hc : exited s w.tid with
    | false => simp [hc] at hd; exact absurd hd hdead
    | true => rfl
  obtain ⟨hheld, hown⟩ := setWs_other h.2 hw
    (show ({ w with dead := w.dead - 1 } : WaitStatus).tid = w.tid from rfl) rfl
    (fun _ _ _ => rfl) fun _ _ h => h
  exact refs_destroyWaitStatus_released hheld hown (setWs_self hw) hrel h₂

/-- A record changed in a field the counts do not read. -/
theorem Refs.modifyWs {s s' : WaitState} {ws : Nat} {f : WaitStatus → WaitStatus} (h : Refs s)
    (hm : s.modifyWs ws f = .ok s')
    (hf : ∀ w, (f w).tid = w.tid ∧ (f w).parent = w.parent ∧
      (f w).referenceCount = w.referenceCount ∧ (f w).dead = w.dead ∧ (f w).freed = w.freed) :
    Refs s' := by
  refine ⟨linked_modifyWs h.1 hm fun w => ⟨(hf w).2.1, (hf w).2.2.2.2⟩, ?_⟩
  rw [exited_modifyWs hm]
  exact refs_modifyWs h.2 hm hf

theorem refs_processExecute {s s' : WaitState} {t : Nat} {command : List UInt8} {r : Option Int}
    (h : Refs s) (ht : exited s t = false) (he : processExecute s t command = .ok (s', r)) :
    Refs s' := by
  obtain ⟨⟨s₁, tid⟩, h₁, he⟩ := Trace.bind_eq_ok he
  have hR₁ := refs_threadCreate h ht h₁
  have ht₁ := exited_threadCreate_creator h₁ ht
  obtain ⟨th, hth, he⟩ := Trace.bind_eq_ok he
  have hth := getThread_eq_ok hth
  obtain ⟨found, -, he⟩ := Trace.bind_eq_ok he
  cases found with
  | none =>
    simp only [Trace.pure_eq_ok, Prod.mk.injEq] at he
    obtain ⟨rfl, -⟩ := he
    exact hR₁
  | some ws =>
    simp only [Trace.pure_eq_ok, Prod.mk.injEq] at he
    obtain ⟨rfl, -⟩ := he
    exact refs_setPc hR₁ hth (pc_ne_dying hth ht₁) (by simp)

theorem refs_startProcess {s s' : WaitState} {t : Nat} {command : List UInt8} {success : Bool}
    (h : Refs s) (ht : exited s t = false) (hs : startProcess s t command success = .ok s') :
    Refs s' := by
  obtain ⟨th, ws, hth, -, -, ⟨-, s₁, h₁, rfl⟩ | ⟨-, s₁, h₁, hs⟩⟩ := startProcess_eq_ok hs
  · have hth₁ : s₁.threads[t]? = some th := by
      obtain ⟨w, -, -, rfl⟩ := modifyWs_eq_ok h₁
      exact hth
    exact refs_setPc (h.modifyWs h₁ fun _ => ⟨rfl, rfl, rfl, rfl, rfl⟩) hth₁
      (pc_ne_dying hth ht) (by simp)
  · -- a failed load: the status is written, then the thread exits
    exact refs_processExit (h.modifyWs h₁ fun _ => ⟨rfl, rfl, rfl, rfl, rfl⟩)
      (by rw [exited_modifyWs h₁]; exact ht) hs

theorem refs_processWait {s s' : WaitState} {t tid : Nat} {r : Option Int} (h : Refs s)
    (ht : exited s t = false) (hw : processWait s t tid = .ok (s', r)) : Refs s' := by
  obtain ⟨th, hth, hw⟩ := Trace.bind_eq_ok hw
  have hth := getThread_eq_ok hth
  obtain ⟨found, -, hw⟩ := Trace.bind_eq_ok hw
  cases found with
  | none =>
    simp only [Trace.pure_eq_ok, Prod.mk.injEq] at hw
    obtain ⟨rfl, -⟩ := hw
    exact h
  | some ws =>
    obtain ⟨w, hw₁, hw⟩ := Trace.bind_eq_ok hw
    split at hw
    · simp only [Trace.pure_eq_ok, Prod.mk.injEq] at hw
      obtain ⟨rfl, -⟩ := hw
      exact refs_setPc h hth (pc_ne_dying hth ht) (by simp)
    · next hdead => exact refs_finishWait h (getWs_eq_ok hw₁).1 hdead hw

theorem refs_resume {s s' : WaitState} {t : Nat} {r : Option Int} (h : Refs s)
    (hr : resume s t = .ok (s', r)) : Refs s' := by
  obtain ⟨th, hth, hr⟩ := Trace.bind_eq_ok hr
  have hth := getThread_eq_ok hth
  split at hr
  · next ws hpc =>
    -- blocked in `process_execute`
    obtain ⟨w, hw, hr⟩ := Trace.bind_eq_ok hr
    have hw := (getWs_eq_ok hw).1
    split at hr
    · simp only [Trace.pure_eq_ok, Prod.mk.injEq] at hr
      obtain ⟨rfl, -⟩ := hr
      exact h
    · simp only [Trace.pure_eq_ok, Prod.mk.injEq] at hr
      obtain ⟨rfl, -⟩ := hr
      have h₁ : Refs (s.setWs ws { w with doneLoading := w.doneLoading - 1 }) :=
        ⟨linked_setWs h.1 hw rfl rfl, refs_setWs_same h.2 hw ⟨rfl, rfl, rfl, rfl, rfl⟩⟩
      exact refs_setPc h₁ hth (by simp [hpc]) (by simp)
  · next ws hpc =>
    -- blocked in `process_wait`
    obtain ⟨w, hw, hr⟩ := Trace.bind_eq_ok hr
    split at hr
    · simp only [Trace.pure_eq_ok, Prod.mk.injEq] at hr
      obtain ⟨rfl, -⟩ := hr
      exact h
    · next hdead =>
      exact refs_finishWait (refs_setPc h hth (by simp [hpc]) (by simp)) (getWs_eq_ok hw).1
        hdead hr
  · simp only [Trace.pure_eq_ok, Prod.mk.injEq] at hr
    obtain ⟨rfl, -⟩ := hr
    exact h

theorem refs_threadExitWithStatus {s s' : WaitState} {t : Nat} {status : Int} (h : Refs s)
    (ht : exited s t = false) (he : threadExitWithStatus s t status = .ok s') : Refs s' := by
  obtain ⟨th, -, he⟩ := Trace.bind_eq_ok he
  obtain ⟨ws, -, he⟩ := Trace.bind_eq_ok he
  obtain ⟨s₁, h₁, he⟩ := Trace.bind_eq_ok he
  exact refs_processExit (h.modifyWs h₁ fun _ => ⟨rfl, rfl, rfl, rfl, rfl⟩)
    (by rw [exited_modifyWs h₁]; exact ht) he

/-! ## Runs -/

/-- No call is enabled for a dead thread. -/
theorem enabled_ne_dying {pc : ThreadPc} {c : WaitCall} (h : c.enabled pc = true) :
    pc ≠ .dying := by
  rintro rfl
  cases c <;> simp [WaitCall.enabled] at h

theorem waitInit_refs : Refs waitInit := by
  refine ⟨waitInit_linked, fun ws w hw _ => ?_, fun u th ws hu hws _ => ?_⟩
  · simp [waitInit] at hw
  · -- the initial thread has no record of its own
    cases u with
    | zero =>
      simp only [waitInit, List.getElem?_cons_zero, Option.some.injEq] at hu
      subst hu
      cases hws
    | succ u => simp [waitInit] at hu

/-- Every step of the protocol keeps the counts exact. -/
theorem waitStep_refs {s s' : WaitState} {c : WaitCall} {out : Option Int} (h : Refs s)
    (hs : waitStep s c = .ok (s', out)) : Refs s' := by
  rcases waitStep_eq_ok hs with rfl | ⟨th, hth, hen, hs⟩
  · exact h
  -- the thread taking the step has not exited
  have ht : exited s c.thread = false := exited_eq_false.mpr ⟨th, hth, enabled_ne_dying hen⟩
  cases c with
  | execute t command => exact refs_processExecute h ht hs
  | startProcess t success => exact refs_startProcess h ht hs.1
  | wait t tid => exact refs_processWait h ht hs
  | exit t status => exact refs_threadExitWithStatus h ht hs.1
  | resume t => exact refs_resume h hs

theorem run_refs {calls : List WaitCall} {s : WaitState} {outs : List (Option Int)}
    (hrun : Trace.run waitStep waitInit calls = .ok (s, outs)) : Refs s :=
  Trace.run_invariant Refs (fun _ _ _ _ hs h => waitStep_refs hs h) calls waitInit s outs
    waitInit_refs hrun

/-- In every reachable state, the `reference_count` of a live record is the number of its
two threads that have not exited, and `dead` is up exactly when the child has exited. -/
theorem reference_count_exact {calls : List WaitCall} {s : WaitState}
    {outs : List (Option Int)} (hrun : Trace.run waitStep waitInit calls = .ok (s, outs))
    {ws : Nat} {w : WaitStatus} (hw : s.heap[ws]? = some w) (hf : w.freed = false) :
    w.referenceCount = (if exited s w.parent then 0 else 1) + (if exited s w.tid then 0 else 1) ∧
      w.dead = if exited s w.tid then 1 else 0 :=
  have hrec := (run_refs hrun).2.held ws w hw hf
  ⟨hrec.count, hrec.dead⟩

/-- After thread `2`, a grandchild of the initial thread, has exited with status `7`, its
record counts only its parent, which runs, and `dead` is up. -/
theorem reference_count_after_grandchild_exit :
    let s : WaitState := ⟨[⟨1, 0, 0, 2, 0, 0, 0, false⟩, ⟨2, 1, 7, 1, 0, 0, 1, false⟩],
      [⟨none, [0], .running⟩, ⟨some 0, [1], .running⟩, ⟨some 1, [], .dying⟩]⟩
    let w : WaitStatus := ⟨2, 1, 7, 1, 0, 0, 1, false⟩
    Trace.run waitStep waitInit [.execute 0 [chr 'x'], .startProcess 1 true, .resume 0, .execute 1 [chr 'x'],
        .startProcess 2 true, .resume 1, .exit 2 7] =
        .ok (s, [none, none, some 1, none, none, some 2, none]) ∧
      s.heap[1]? = some w ∧ w.freed = false ∧
      (w.referenceCount = (if exited s w.parent then 0 else 1) +
        (if exited s w.tid then 0 else 1) ∧ w.dead = if exited s w.tid then 1 else 0) := by
  intro s w
  have hrun : Trace.run waitStep waitInit [.execute 0 [chr 'x'], .startProcess 1 true, .resume 0,
      .execute 1 [chr 'x'], .startProcess 2 true, .resume 1, .exit 2 7] =
      .ok (s, [none, none, some 1, none, none, some 2, none]) := by decide
  have hw : s.heap[1]? = some w := rfl
  exact ⟨hrun, hw, rfl, reference_count_exact hrun hw rfl⟩

/-! ## Exits that do not fault, over whole runs -/

/-- The `sema_up` of `dead` after the child's decrement writes a record that was not freed. -/
theorem signalDead_ok {s s₂ : WaitState} {ws : Nat} {d : Bool}
    (hd : decrementAndDestroyIfZero s ws = .ok (s₂, d)) : ∃ s₃, signalDead s₂ ws d = .ok s₃ := by
  obtain ⟨w, hw, hd⟩ := Trace.bind_eq_ok hd
  dsimp only at hd
  split at hd
  · obtain ⟨s₁, -, hd⟩ := Trace.bind_eq_ok hd
    simp only [Trace.pure_eq_ok, Prod.mk.injEq] at hd
    obtain ⟨rfl, rfl⟩ := hd
    exact ⟨s₁, rfl⟩
  · simp only [Trace.pure_eq_ok, Prod.mk.injEq] at hd
    obtain ⟨rfl, rfl⟩ := hd
    obtain ⟨hw, hf⟩ := getWs_eq_ok hw
    have hget : (s.setWs ws { w with referenceCount := w.referenceCount - 1 }).getWs ws =
        .ok { w with referenceCount := w.referenceCount - 1 } := by
      simp [getWs, setWs_self hw, hf]
    exact ⟨_, by simp only [signalDead, Bool.false_eq_true, if_false, modifyWs, hget,
      Trace.ok_bind]; rfl⟩

/-- `process_exit` of a thread whose own record is live and whose parent has not exited
ends without a fault. -/
theorem processExit_ok {s : WaitState} {t ws : Nat} {th : Thread} {w : WaitStatus}
    (hl : ChildrenLinked s) (hth : s.threads[t]? = some th) (ht : exited s t = false)
    (hws : th.waitStatus = some ws) (hw : s.heap[ws]? = some w) (hf : w.freed = false)
    (hp : exited s w.parent = false) : ∃ s', processExit s t = .ok s' := by
  obtain ⟨⟨s₂, d⟩, h₂⟩ := decrementAndDestroyIfZero_ok hw hf hp
  obtain ⟨s₃, h₃⟩ := signalDead_ok h₂
  have hshr₃ := (shrinks_decrementAndDestroyIfZero h₂).trans (shrinks_signalDead h₃)
  have ht₃ : exited s₃ t = false := by rw [hshr₃.exited]; exact ht
  obtain ⟨th₃, hth₃, -⟩ := exited_eq_false.mp ht₃
  obtain ⟨hnd, hlive⟩ :=
    linked_signalDead (linked_decrementAndDestroyIfZero hl h₂) h₃ t th₃ hth₃
  obtain ⟨s₄, h₄⟩ := decrementChildren_ok ht₃ hnd hlive
  have ht₄ : exited s₄ t = false := by rw [(shrinks_decrementChildren h₄).exited]; exact ht₃
  obtain ⟨th₄, hth₄, -⟩ := exited_eq_false.mp ht₄
  have hget : s.getThread t = .ok th := by simp [getThread, hth]
  have hget₃ : s₃.getThread t = .ok th₃ := by simp [getThread, hth₃]
  have hget₄ : s₄.getThread t = .ok th₄ := by simp [getThread, hth₄]
  exact ⟨_, by simp only [processExit, decrementAllReferences, hget, ownWs, hws, pure_bind, h₂,
    h₃, hget₃, h₄, hget₄, Trace.ok_bind]; rfl⟩

/-- In every reachable state, `exit` by a running thread whose parent has not exited ends
without a fault, for every status: its own record is still live, since its count still
holds the thread, and every record it frees leaves a live list. -/
theorem exit_never_faults {calls : List WaitCall} {s : WaitState} {outs : List (Option Int)}
    (hrun : Trace.run waitStep waitInit calls = .ok (s, outs)) {t ws : Nat} {th : Thread}
    {w : WaitStatus} (hth : s.threads[t]? = some th) (hpc : th.pc = .running)
    (hws : th.waitStatus = some ws) (hw : s.heap[ws]? = some w)
    (hparent : exited s w.parent = false) (status : Int) :
    ∃ r, waitStep s (.exit t status) = .ok r := by
  have h := run_refs hrun
  have ht : exited s t = false := exited_eq_false.mpr ⟨th, hth, by simp [hpc]⟩
  -- the thread's own record is live
  obtain ⟨w', hw', hf, -⟩ := h.2.own t th ws hth hws ht
  rw [hw] at hw'
  cases hw'
  -- `thread_exit_with_status` writes `exit_status`, which no count reads
  have hget : s.getWs ws = .ok w := by simp [getWs, hw, hf]
  have hm : s.modifyWs ws (fun w => { w with exitStatus := status }) =
      .ok (s.setWs ws { w with exitStatus := status }) := by
    simp only [modifyWs, hget, Trace.ok_bind]
    rfl
  obtain ⟨s', he⟩ := processExit_ok (linked_modifyWs h.1 hm fun _ => ⟨rfl, rfl⟩) hth ht hws
    (setWs_self hw) hf hparent
  have hthr : s.getThread t = .ok th := by simp [getThread, hth]
  have hen : WaitCall.enabled th.pc (.exit t status) = true := by simp [WaitCall.enabled, hpc]
  refine ⟨(s', none), ?_⟩
  simp only [waitStep, WaitCall.thread, hth, hen, if_true, threadExitWithStatus, hthr, ownWs,
    hws, pure_bind, hm, he, Trace.ok_bind]
  rfl

/-- Thread `1`, whose parent runs and which has a running child of its own, may exit. -/
theorem exit_between_two_generations :
    let s : WaitState := ⟨[⟨1, 0, 0, 2, 0, 0, 0, false⟩, ⟨2, 0, 0, 2, 0, 0, 1, false⟩],
      [⟨none, [0], .running⟩, ⟨some 0, [1], .running⟩, ⟨some 1, [], .running⟩]⟩
    Trace.run waitStep waitInit [.execute 0 [chr 'x'], .startProcess 1 true, .resume 0, .execute 1 [chr 'x'],
        .startProcess 2 true, .resume 1] = .ok (s, [none, none, some 1, none, none, some 2]) ∧
      ∃ r, waitStep s (.exit 1 5) = .ok r := by
  intro s
  have hrun : Trace.run waitStep waitInit [.execute 0 [chr 'x'], .startProcess 1 true, .resume 0,
      .execute 1 [chr 'x'], .startProcess 2 true, .resume 1] =
      .ok (s, [none, none, some 1, none, none, some 2]) := by decide
  have hth : s.threads[1]? = some ⟨some 0, [1], .running⟩ := rfl
  have hw : s.heap[0]? = some ⟨1, 0, 0, 2, 0, 0, 0, false⟩ := rfl
  exact ⟨hrun, exit_never_faults hrun hth rfl rfl hw rfl 5⟩

end Pintos.Userprog
