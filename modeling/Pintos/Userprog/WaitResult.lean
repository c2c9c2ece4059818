import Pintos.Userprog.WaitRefs

/-!
What `process_wait` returns. Once a child has exited, no step brings it back, and its
record keeps the `exit_status` it exited with for as long as the record lives
(`waitStep_settled`, `run_statusOf`). So however a run goes on after `exit c status`, while
the record is live the parent's `process_wait` for `c` returns `status`
(`wait_returns_exit_status`).
-/

namespace Pintos.Userprog

open WaitState

/-- What a step leaves of a thread `c` that has exited: it stays dead, and every record
whose child is `c` stays, with its `exit_status` while it is live. -/
structure Settled (c : Nat) (s s' : WaitState) : Prop where
  dying : ∀ th : Thread, s.threads[c]? = some th → th.pc = .dying →
    ∃ th' : Thread, s'.threads[c]? = some th' ∧ th'.pc = .dying
  status : ∀ (x : Nat) (v : WaitStatus), s.heap[x]? = some v → v.tid = c →
    ∃ v' : WaitStatus, s'.heap[x]? = some v' ∧ v'.tid = c ∧
      (v'.freed = false → v.freed = false ∧ v'.exitStatus = v.exitStatus)

namespace Settled

theorem refl (c : Nat) (s : WaitState) : Settled c s s :=
  ⟨fun th hth hpc => ⟨th, hth, hpc⟩, fun _ v hx hv => ⟨v, hx, hv, fun hf => ⟨hf, rfl⟩⟩⟩

theorem trans {c : Nat} {s₁ s₂ s₃ : WaitState} (h₁ : Settled c s₁ s₂) (h₂ : Settled c s₂ s₃) :
    Settled c s₁ s₃ where
  dying th hth hpc := by
    obtain ⟨th₂, hth₂, hpc₂⟩ := h₁.dying th hth hpc
    exact h₂.dying th₂ hth₂ hpc₂
  status x v hx hv := by
    obtain ⟨v₂, hx₂, hv₂, himp₂⟩ := h₁.status x v hx hv
    obtain ⟨v₃, hx₃, hv₃, himp₃⟩ := h₂.status x v₂ hx₂ hv₂
    refine ⟨v₃, hx₃, hv₃, fun hf => ?_⟩
    obtain ⟨hf₂, he₃⟩ := himp₃ hf
    obtain ⟨hf₁, he₂⟩ := himp₂ hf₂
    exact ⟨hf₁, he₃.trans he₂⟩

end Settled

/-! ## Writes -/

theorem settled_setWs {c ws : Nat} {s : WaitState} {w w' : WaitStatus}
    (hw : s.heap[ws]? = some w) (htid : w'.tid = w.tid)
    (hkeep : w.tid = c → w'.freed = false → w.freed = false ∧ w'.exitStatus = w.exitStatus) :
    Settled c s (s.setWs ws w') where
  dying th hth hpc := ⟨th, hth, hpc⟩
  status x v hx hv := by
    by_cases hxw : x = ws
    · subst hxw
      rw [hw] at hx
      cases hx
      exact ⟨w', setWs_self hw, htid.trans hv, hkeep hv⟩
    · exact ⟨v, by rw [setWs_ne hxw]; exact hx, hv, fun hf => ⟨hf, rfl⟩⟩

/-- A thread written back, dead again if it was dead. -/
theorem settled_setThread {c u : Nat} {s : WaitState} {th th' : Thread}
    (hu : s.threads[u]? = some th) (hpc : th.pc = .dying → th'.pc = .dying) :
    Settled c s (s.setThread u th') where
  dying thc hthc hpcc := by
    by_cases hcu : c = u
    · subst hcu
      rw [hu] at hthc
      cases hthc
      exact ⟨th', setThread_self hu, hpc hpcc⟩
    · exact ⟨thc, by rw [setThread_ne hcu]; exact hthc, hpcc⟩
  status x v hx hv := ⟨v, hx, hv, fun hf => ⟨hf, rfl⟩⟩

/-- A write that leaves `exit_status` and `freed` as they were. -/
theorem settled_modifyWs {c ws : Nat} {s s' : WaitState} {f : WaitStatus → WaitStatus}
    (hm : s.modifyWs ws f = .ok s') (htid : ∀ w, (f w).tid = w.tid)
    (hkeep : ∀ w, (f w).freed = w.freed ∧ (f w).exitStatus = w.exitStatus) :
    Settled c s s' := by
  obtain ⟨w, hw, -, rfl⟩ := modifyWs_eq_ok hm
  exact settled_setWs hw (htid w) fun _ hf => ⟨(hkeep w).1 ▸ hf, (hkeep w).2⟩

/-! ## Each function of the protocol -/

theorem settled_destroyWaitStatus {c ws : Nat} {s s' : WaitState}
    (hd : destroyWaitStatus s ws = .ok s') : Settled c s s' := by
  obtain ⟨w, p, hw, -, hp, rfl⟩ := destroyWaitStatus_eq_ok hd
  have h₁ : Settled c s (s.setThread w.parent { p with children := p.children.erase ws }) :=
    settled_setThread hp id
  exact h₁.trans (settled_setWs hw
    (show ({ w with freed := true } : WaitStatus).tid = w.tid from rfl) fun _ h => by simp at h)

theorem settled_decrementAndDestroyIfZero {c ws : Nat} {s s' : WaitState} {d : Bool}
    (hd : decrementAndDestroyIfZero s ws = .ok (s', d)) : Settled c s s' := by
  obtain ⟨w, hw, -, h⟩ := decrementAndDestroyIfZero_eq_ok hd
  have h₁ : Settled c s (s.setWs ws { w with referenceCount := w.referenceCount - 1 }) :=
    settled_setWs hw rfl fun _ hf => ⟨hf, rfl⟩
  rcases h with ⟨-, -, rfl⟩ | ⟨-, -, h₂⟩
  · exact h₁
  · exact h₁.trans (settled_destroyWaitStatus h₂)

theorem settled_signalDead {c ws : Nat} {s s' : WaitState} {d : Bool}
    (hs : signalDead s ws d = .ok s') : Settled c s s' := by
  cases d with
  | true =>
    simp only [signalDead, if_true, Trace.pure_eq_ok] at hs
    exact hs ▸ Settled.refl c s
  | false =>
    simp only [signalDead, Bool.false_eq_true, if_false] at hs
    exact settled_modifyWs hs (fun _ => rfl) fun _ => ⟨rfl, rfl⟩

theorem settled_decrementChildren {c : Nat} :
    ∀ {l : List Nat} {s s' : WaitState}, decrementChildren s l = .ok s' → Settled c s s'
  | [], s, s', hd => by
    simp only [decrementChildren, Trace.pure_eq_ok] at hd
    exact hd ▸ Settled.refl c s
  | _ :: _, _, _, hd => by
    obtain ⟨⟨s₁, _⟩, h₁, hd⟩ := Trace.bind_eq_ok hd
    exact (settled_decrementAndDestroyIfZero h₁).trans (settled_decrementChildren hd)

theorem settled_processExit {c t : Nat} {s s' : WaitState} (he : processExit s t = .ok s') :
    Settled c s s' := by
  obtain ⟨_, _, s₂, d, s₃, th₃, s₁, th₁, -, -, h₂, h₃, -, h₁, hth₁, rfl⟩ := processExit_eq_ok he
  exact (((settled_decrementAndDestroyIfZero h₂).trans (settled_signalDead h₃)).trans
    (settled_decrementChildren h₁)).trans (settled_setThread hth₁ fun _ => rfl)

theorem settled_finishWait {c ws : Nat} {s s' : WaitState} {r : Option Int}
    (hf : finishWait s ws = .ok (s', r)) : Settled c s s' := by
  obtain ⟨w, hw, hf⟩ := Trace.bind_eq_ok hf
  obtain ⟨s₂, h₂, hf⟩ := Trace.bind_eq_ok hf
  simp only [Trace.pure_eq_ok, Prod.mk.injEq] at hf
  obtain ⟨rfl, -⟩ := hf
  exact (settled_setWs (getWs_eq_ok hw).1
    (show ({ w with dead := w.dead - 1 } : WaitStatus).tid = w.tid from rfl)
    fun _ hf => ⟨hf, rfl⟩).trans (settled_destroyWaitStatus h₂)

theorem settled_threadCreate {c t tid : Nat} {s s' : WaitState} {command : List UInt8}
    (hc : threadCreate s t command = .ok (s', tid)) : Settled c s s' := by
  obtain ⟨th, hth, -, rfl⟩ := threadCreate_eq_ok hc
  set s₁ : WaitState := ⟨s.heap ++ [⟨s.threads.length, 0, 0, 2, 0, 0, t, false⟩],
    s.threads ++ [⟨some s.heap.length, [], .loading command⟩]⟩
  -- the new record and thread go past the old ones, which stay where they were
  have happ : Settled c s s₁ :=
    ⟨fun thc hthc hpc =>
      ⟨thc, (List.getElem?_append_left (List.getElem?_eq_some_iff.mp hthc).1).trans hthc, hpc⟩,
    fun x v hx hv =>
      ⟨v, (List.getElem?_append_left (List.getElem?_eq_some_iff.mp hx).1).trans hx, hv,
        fun hf => ⟨hf, rfl⟩⟩⟩
  have hth₁ : s₁.threads[t]? = some th :=
    (List.getElem?_append_left (List.getElem?_eq_some_iff.mp hth).1).trans hth
  exact happ.trans (settled_setThread hth₁
    (show th.pc = .dying → ({ th with children := s.heap.length :: th.children } : Thread).pc =
      .dying from id))

/-- A thread that has not exited writes its own record, which is not `c`'s. -/
theorem settled_modifyOwn {c t ws : Nat} {s s' : WaitState} {th : Thread}
    {f : WaitStatus → WaitStatus} (h : Refs s) (hth : s.threads[t]? = some th)
    (hws : th.waitStatus = some ws) (ht : exited s t = false) (hc : exited s c = true)
    (hm : s.modifyWs ws f = .ok s') (htid : ∀ w, (f w).tid = w.tid) : Settled c s s' := by
  obtain ⟨w, hw, -, rfl⟩ := modifyWs_eq_ok hm
  obtain ⟨w₀, hw₀, -, hw₀t⟩ := h.2.own t th ws hth hws ht
  rw [hw] at hw₀
  cases hw₀
  refine settled_setWs hw (htid w) fun htc => ?_
  rw [← hw₀t, htc, hc] at ht
  cases ht

theorem settled_processExecute {c t : Nat} {s s' : WaitState} {command : List UInt8}
    {r : Option Int} (ht : exited s t = false) (he : processExecute s t command = .ok (s', r)) :
    Settled c s s' := by
  obtain ⟨⟨s₁, tid⟩, h₁, he⟩ := Trace.bind_eq_ok he
  have ht₁ := exited_threadCreate_creator h₁ ht
  obtain ⟨th, hth, he⟩ := Trace.bind_eq_ok he
  have hth := getThread_eq_ok hth
  obtain ⟨found, -, he⟩ := Trace.bind_eq_ok he
  cases found with
  | none =>
    simp only [Trace.pure_eq_ok, Prod.mk.injEq] at he
    obtain ⟨rfl, -⟩ := he
    exact settled_threadCreate h₁
  | some ws =>
    simp only [Trace.pure_eq_ok, Prod.mk.injEq] at he
    obtain ⟨rfl, -⟩ := he
    exact (settled_threadCreate h₁).trans
      (settled_setThread hth fun hpc => absurd hpc (pc_ne_dying hth ht₁))

theorem settled_startProcess {c t : Nat} {s s' : WaitState} {command : List UInt8}
    {success : Bool} (h : Refs s) (ht : exited s t = false) (hc : exited s c = true)
    (hs : startProcess s t command success = .ok s') : Settled c s s' := by
  obtain ⟨th, ws, hth, hws, -, ⟨-, s₁, h₁, rfl⟩ | ⟨-, s₁, h₁, hs⟩⟩ := startProcess_eq_ok hs
  · have hth₁ : s₁.threads[t]? = some th := by
      obtain ⟨w, -, -, rfl⟩ := modifyWs_eq_ok h₁
      exact hth
    exact (settled_modifyOwn h hth hws ht hc h₁ (fun _ => rfl)).trans
      (settled_setThread hth₁ fun hpc => absurd hpc (pc_ne_dying hth ht))
  · exact (settled_modifyOwn h hth hws ht hc h₁ fun _ => rfl).trans (settled_processExit hs)

theorem settled_processWait {c t tid : Nat} {s s' : WaitState} {r : Option Int}
    (ht : exited s t = false) (hw : processWait s t tid = .ok (s', r)) : Settled c s s' := by
  obtain ⟨th, hth, hw⟩ := Trace.bind_eq_ok hw
  have hth := getThread_eq_ok hth
  obtain ⟨found, -, hw⟩ := Trace.bind_eq_ok hw
  cases found with
  | none =>
    simp only [Trace.pure_eq_ok, Prod.mk.injEq] at hw
    obtain ⟨rfl, -⟩ := hw
    exact Settled.refl c s
  | some ws =>
    obtain ⟨w, -, hw⟩ := Trace.bind_eq_ok hw
    split at hw
    · simp only [Trace.pure_eq_ok, Prod.mk.injEq] at hw
      obtain ⟨rfl, -⟩ := hw
      exact settled_setThread hth fun hpc => absurd hpc (pc_ne_dying hth ht)
    · exact settled_finishWait hw

theorem settled_resume {c t : Nat} {s s' : WaitState} {r : Option Int}
    (hr : resume s t = .ok (s', r)) : Settled c s s' := by
  obtain ⟨th, hth, hr⟩ := Trace.bind_eq_ok hr
  have hth := getThread_eq_ok hth
  split at hr
  · next ws hpc =>
    obtain ⟨w, hw, hr⟩ := Trace.bind_eq_ok hr
    split at hr
    · simp only [Trace.pure_eq_ok, Prod.mk.injEq] at hr
      obtain ⟨rfl, -⟩ := hr
      exact Settled.refl c s
    · simp only [Trace.pure_eq_ok, Prod.mk.injEq] at hr
      obtain ⟨rfl, -⟩ := hr
      exact (settled_setWs (getWs_eq_ok hw).1
        (show ({ w with doneLoading := w.doneLoading - 1 } : WaitStatus).tid = w.tid from rfl)
        fun _ hf => ⟨hf, rfl⟩).trans (settled_setThread hth fun h => by simp [hpc] at h)
  · next ws hpc =>
    obtain ⟨w, -, hr⟩ := Trace.bind_eq_ok hr
    split at hr
    · simp only [Trace.pure_eq_ok, Prod.mk.injEq] at hr
      obtain ⟨rfl, -⟩ := hr
      exact Settled.refl c s
    · exact (settled_setThread hth fun h => by simp [hpc] at h).trans (settled_finishWait hr)
  · simp only [Trace.pure_eq_ok, Prod.mk.injEq] at hr
    obtain ⟨rfl, -⟩ := hr
    exact Settled.refl c s

theorem settled_threadExitWithStatus {c t : Nat} {s s' : WaitState} {status : Int}
    (h : Refs s) (ht : exited s t = false) (hc : exited s c = true)
    (he : threadExitWithStatus s t status = .ok s') : Settled c s s' := by
  obtain ⟨th, hth, he⟩ := Trace.bind_eq_ok he
  obtain ⟨ws, hws, he⟩ := Trace.bind_eq_ok he
  obtain ⟨s₁, h₁, he⟩ := Trace.bind_eq_ok he
  exact (settled_modifyOwn h (getThread_eq_ok hth) (ownWs_eq_ok hws) ht hc h₁
    fun _ => rfl).trans (settled_processExit he)

/-- Every step from a state where `c` has exited leaves `c` settled. -/
theorem waitStep_settled {c : Nat} {s s' : WaitState} {call : WaitCall} {out : Option Int}
    (h : Refs s) (hc : exited s c = true) (hs : waitStep s call = .ok (s', out)) :
    Settled c s s' := by
  rcases waitStep_eq_ok hs with rfl | ⟨th, hth, hen, hs⟩
  · exact Settled.refl c _
  have ht : exited s call.thread = false := exited_eq_false.mpr ⟨th, hth, enabled_ne_dying hen⟩
  cases call with
  | execute t command => exact settled_processExecute ht hs
  | startProcess t success => exact settled_startProcess h ht hc hs.1
  | wait t tid => exact settled_processWait ht hs
  | exit t status => exact settled_threadExitWithStatus h ht hc hs.1
  | resume t => exact settled_resume hs

/-! ## The status over a run -/

/-- Thread `c` has exited. -/
def Dead (c : Nat) (s : WaitState) : Prop :=
  ∃ th : Thread, s.threads[c]? = some th ∧ th.pc = .dying

/-- The record at `ws` is `c`'s, and holds `status` while it is live. -/
def StatusOf (ws c : Nat) (status : Int) (s : WaitState) : Prop :=
  ∃ w : WaitStatus, s.heap[ws]? = some w ∧ w.tid = c ∧ (w.freed = false → w.exitStatus = status)

theorem exited_of_dead {c : Nat} {s : WaitState} (h : Dead c s) : exited s c = true := by
  obtain ⟨th, hth, hpc⟩ := h
  simp [exited, hth, hpc]

theorem Settled.dead {c : Nat} {s s' : WaitState} (h : Settled c s s') (hd : Dead c s) :
    Dead c s' := by
  obtain ⟨th, hth, hpc⟩ := hd
  exact h.dying th hth hpc

theorem Settled.statusOf {c ws : Nat} {status : Int} {s s' : WaitState} (h : Settled c s s')
    (hst : StatusOf ws c status s) : StatusOf ws c status s' := by
  obtain ⟨w, hw, htid, hstat⟩ := hst
  obtain ⟨w', hw', htid', himp⟩ := h.status ws w hw htid
  exact ⟨w', hw', htid', fun hf => (himp hf).2.trans (hstat (himp hf).1)⟩

/-- From a state where `c` has exited with its record holding `status`, every run keeps
it so. -/
theorem run_statusOf {c ws : Nat} {status : Int} {more : List WaitCall} {s s' : WaitState}
    {outs : List (Option Int)} (h : Refs s) (hd : Dead c s) (hst : StatusOf ws c status s)
    (hrun : Trace.run waitStep s more = .ok (s', outs)) :
    Refs s' ∧ Dead c s' ∧ StatusOf ws c status s' :=
  Trace.run_invariant (fun s => Refs s ∧ Dead c s ∧ StatusOf ws c status s)
    (fun _ _ _ _ ⟨h, hd, hst⟩ hs =>
      have hset := waitStep_settled h (exited_of_dead hd) hs
      ⟨waitStep_refs h hs, hset.dead hd, hset.statusOf hst⟩)
    more s s' outs ⟨h, hd, hst⟩ hrun

/-- `exit c status` by a running thread: `c` is dead, and its own record holds `status`. -/
theorem exit_statusOf {c ws : Nat} {status : Int} {s s₁ : WaitState} {th : Thread}
    {o : Option Int} (h : Refs s) (hth : s.threads[c]? = some th) (hpc : th.pc = .running)
    (hws : th.waitStatus = some ws) (hexit : waitStep s (.exit c status) = .ok (s₁, o)) :
    Dead c s₁ ∧ StatusOf ws c status s₁ := by
  have hen : WaitCall.enabled th.pc (.exit c status) = true := by simp [WaitCall.enabled, hpc]
  simp only [waitStep, WaitCall.thread, hth, hen, if_true] at hexit
  obtain ⟨s₂, he, hexit⟩ := Trace.bind_eq_ok hexit
  simp only [Trace.pure_eq_ok, Prod.mk.injEq] at hexit
  obtain ⟨rfl, -⟩ := hexit
  obtain ⟨th₀, hth₀, he⟩ := Trace.bind_eq_ok he
  have e : th = th₀ := Option.some.inj (hth.symm.trans (getThread_eq_ok hth₀))
  subst e
  obtain ⟨ws₀, hws₀, he⟩ := Trace.bind_eq_ok he
  have e : ws = ws₀ := Option.some.inj (hws.symm.trans (ownWs_eq_ok hws₀))
  subst e
  obtain ⟨s₁, hm, he⟩ := Trace.bind_eq_ok he
  obtain ⟨w, hw, -, rfl⟩ := modifyWs_eq_ok hm
  -- the record written is the thread's own
  obtain ⟨w₀, hw₀, -, hw₀t⟩ :=
    h.2.own c th ws hth hws (exited_eq_false.mpr ⟨th, hth, by simp [hpc]⟩)
  rw [hw] at hw₀
  cases hw₀
  have hst : StatusOf ws c status (s.setWs ws { w with exitStatus := status }) :=
    ⟨_, setWs_self hw, hw₀t, fun _ => rfl⟩
  obtain ⟨_, _, _, _, _, _, s₃, th₃, -, -, -, -, -, -, hth₃, rfl⟩ := processExit_eq_ok he
  exact ⟨⟨_, setThread_self hth₃, rfl⟩, (settled_processExit he).statusOf hst⟩

/-! ## What the parent's wait returns -/

/-- Two live records of one child are one record: each is the child's own. -/
theorem RefsExact.eq_of_tid {s : WaitState} {R : Nat → Nat → Bool} {x y : Nat}
    {v v' : WaitStatus} (h : RefsExact s R) (hx : s.heap[x]? = some v) (hv : v.freed = false)
    (hy : s.heap[y]? = some v') (hv' : v'.freed = false) (htid : v.tid = v'.tid) : x = y := by
  obtain ⟨c, hc, hcx⟩ := (h.held x v hx hv).owned
  obtain ⟨c', hc', hcy⟩ := (h.held y v' hy hv').owned
  rw [htid, hc'] at hc
  cases hc
  exact Option.some.inj (hcx.symm.trans hcy)

/-- After `exit c status` by a running thread, however the run goes on, while `c`'s record
is live a running parent's `process_wait (c)` returns `status`, without a fault. -/
theorem wait_returns_exit_status {calls more : List WaitCall} {s s₁ s₂ : WaitState}
    {outs outs₂ : List (Option Int)} {c ws : Nat} {status : Int} {o : Option Int}
    {th p : Thread} {w : WaitStatus}
    (hrun : Trace.run waitStep waitInit calls = .ok (s, outs))
    (hth : s.threads[c]? = some th) (hpc : th.pc = .running) (hws : th.waitStatus = some ws)
    (hexit : waitStep s (.exit c status) = .ok (s₁, o))
    (hmore : Trace.run waitStep s₁ more = .ok (s₂, outs₂))
    (hw : s₂.heap[ws]? = some w) (hf : w.freed = false)
    (hp : s₂.threads[w.parent]? = some p) (hppc : p.pc = .running) :
    ∃ s₃, waitStep s₂ (.wait w.parent c) = .ok (s₃, some status) := by
  have h := run_refs hrun
  have hs₁ := waitStep_refs h hexit
  obtain ⟨hd₁, hst₁⟩ := exit_statusOf h hth hpc hws hexit
  obtain ⟨h₂, hd₂, ⟨w₂, hw₂, htid, hstat⟩⟩ := run_statusOf hs₁ hd₁ hst₁ hmore
  rw [hw] at hw₂
  cases hw₂
  have hrec := h₂.2.held ws w hw hf
  -- the record is in the parent's list, and `dead` is up since `c` has exited
  obtain ⟨p', hp', hin⟩ := hrec.listed
  rw [hp] at hp'
  cases hp'
  have hdead : w.dead ≠ 0 := by
    have hdw := hrec.dead
    rw [htid, exited_of_dead hd₂, if_pos rfl] at hdw
    omega
  -- `find_child_ws` answers with this record: no other live record is `c`'s
  have hlive : ∀ x ∈ p.children, ∃ v, s₂.heap[x]? = some v ∧ v.freed = false := fun x hx => by
    obtain ⟨v, hv, hvf, -⟩ := (h₂.1 w.parent p hp).2 x hx
    exact ⟨v, hv, hvf⟩
  obtain ⟨found, hfound⟩ : ∃ r, findChildWs s₂ c p.children = .ok r :=
    findChildWs_ok_of_live hlive
  have hfound_ws : found = some ws := by
    cases found with
    | none =>
      obtain ⟨v, hv, hne⟩ := (findChildWs_eq_ok hfound).2 rfl ws hin
      rw [(getWs_eq_ok hv).1] at hw
      cases hw
      exact absurd htid hne
    | some ws' =>
      obtain ⟨-, v, hv, hvt⟩ := (findChildWs_eq_ok hfound).1 ws' rfl
      obtain ⟨hv, hvf⟩ := getWs_eq_ok hv
      rw [h₂.2.eq_of_tid hv hvf hw hf (hvt.trans htid.symm)]
  subst hfound_ws
  have hget : s₂.getWs ws = .ok w := by simp [getWs, hw, hf]
  have hthr : s₂.getThread w.parent = .ok p := by simp [getThread, hp]
  have hen : WaitCall.enabled p.pc (.wait w.parent c) = true := by
    simp [WaitCall.enabled, hppc]
  -- `finish_wait` frees the record from the parent's own live list
  obtain ⟨s₃, hs₃⟩ := destroyWaitStatus_own (linked_setWs h₂.1 hw
    (show ({ w with dead := w.dead - 1 } : WaitStatus).parent = w.parent from rfl) rfl)
    (show (s₂.setWs ws { w with dead := w.dead - 1 }).threads[w.parent]? = some p from hp)
    (by simp [hppc]) hin
  refine ⟨s₃, ?_⟩
  simp only [waitStep, WaitCall.thread, hp, hen, if_true, processWait, hthr, hfound, hget,
    Trace.ok_bind, if_neg hdead, finishWait, hs₃]
  rw [hstat hf]
  rfl

/-- Thread `1` exits with status `3`; its parent then starts a second child, and its wait
for `1` still returns `3`. -/
theorem wait_after_second_child_returns_status :
    let s : WaitState := ⟨[⟨1, 0, 0, 2, 0, 0, 0, false⟩],
      [⟨none, [0], .running⟩, ⟨some 0, [], .running⟩]⟩
    let s₁ : WaitState := ⟨[⟨1, 1, 3, 1, 0, 0, 0, false⟩],
      [⟨none, [0], .running⟩, ⟨some 0, [], .dying⟩]⟩
    let s₂ : WaitState := ⟨[⟨1, 1, 3, 1, 0, 0, 0, false⟩, ⟨2, 0, 0, 2, 0, 0, 0, false⟩],
      [⟨none, [1, 0], .running⟩, ⟨some 0, [], .dying⟩, ⟨some 1, [], .running⟩]⟩
    Trace.run waitStep waitInit [.execute 0 [chr 'x'], .startProcess 1 true, .resume 0] =
        .ok (s, [none, none, some 1]) ∧
      waitStep s (.exit 1 3) = .ok (s₁, none) ∧
      Trace.run waitStep s₁ [.execute 0 [chr 'x'], .startProcess 2 true, .resume 0] =
        .ok (s₂, [none, none, some 2]) ∧
      ∃ s₃, waitStep s₂ (.wait 0 1) = .ok (s₃, some 3) := by
  intro s s₁ s₂
  have hrun : Trace.run waitStep waitInit [.execute 0 [chr 'x'], .startProcess 1 true, .resume 0] =
      .ok (s, [none, none, some 1]) := by decide
  have hexit : waitStep s (.exit 1 3) = .ok (s₁, none) := by decide
  have hmore : Trace.run waitStep s₁ [.execute 0 [chr 'x'], .startProcess 2 true, .resume 0] =
      .ok (s₂, [none, none, some 2]) := by decide
  have hth : s.threads[1]? = some ⟨some 0, [], .running⟩ := rfl
  have hw : s₂.heap[0]? = some ⟨1, 1, 3, 1, 0, 0, 0, false⟩ := rfl
  have hp : s₂.threads[0]? = some ⟨none, [1, 0], .running⟩ := rfl
  exact ⟨hrun, hexit, hmore,
    wait_returns_exit_status hrun hth rfl rfl hexit hmore hw rfl hp rfl⟩

end Pintos.Userprog
