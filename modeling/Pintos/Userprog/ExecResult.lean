import Pintos.Userprog.WaitRefs

/-!
What `process_execute` returns. The parent blocks in `sema_down (&ws->done_loading)` on
the record of the child it has just created; the child's `start_process` sets `load_error`
when `load` or `load_arguments_to_stack` fails, and then calls `sema_up`. Every other step,
of any thread, leaves the fields of that record that `process_execute` reads as they were
(`Frame`), so while the parent is blocked the record holds what the child's first
`start_process` wrote (`waitStep_pending`), and the parent's `sema_down` returns exactly
when the child has written it, with the child's tid or `TID_ERROR`
(`execute_returns_load_result`).

A command with no word never gets that far: the child's `start_process` copies
`argv[0] = NULL` with `strlcpy`, whose `ASSERT` stops the kernel before the `sema_up`, so
`process_execute` of such a command returns nothing at all
(`exec_without_words_never_returns`).
-/

namespace Pintos.Userprog

open WaitState

/-- A thread blocked on the record at `x`, in `process_execute` or in `process_wait`. -/
def Blocks (pc : ThreadPc) (x : Nat) : Prop := pc = .execute x ∨ pc = .wait x

/-- The fields of a record that `process_execute` reads, with the threads it names. -/
def loadView (w : WaitStatus) : Nat × Nat × Bool × Nat × Int :=
  (w.tid, w.parent, w.freed, w.doneLoading, w.loadError)

/-- Every blocked thread is blocked on a record whose parent it is. -/
def Blocked (s : WaitState) : Prop :=
  ∀ u th x, s.threads[u]? = some th → Blocks th.pc x → ∃ w, s.heap[x]? = some w ∧ w.parent = u

/-- What a step of thread `t` keeps: every record keeps its threads, and the records outside
`T` the fields of `loadView`; every other thread keeps its pc and a new one is loading; `t`
keeps its pc or leaves `start_process` for good, and blocks only on a record of its own. -/
structure Frame (t : Nat) (T : Nat → Prop) (s s' : WaitState) : Prop where
  heap : ∀ x w, s.heap[x]? = some w → ∃ w', s'.heap[x]? = some w' ∧ w'.parent = w.parent ∧
    w'.tid = w.tid ∧ (¬T x → loadView w' = loadView w)
  threads : ∀ u th, s.threads[u]? = some th →
    ∃ th', s'.threads[u]? = some th' ∧ (u ≠ t → th'.pc = th.pc)
  fresh : ∀ u th', u ≠ t → s.threads[u]? = none → s'.threads[u]? = some th' →
    th'.pc.isLoading = true
  actor : ∀ th', s'.threads[t]? = some th' → (∃ th, s.threads[t]? = some th ∧ th.pc = th'.pc) ∨
    th'.pc.isLoading = false ∧ ∀ x, Blocks th'.pc x → ∃ w, s'.heap[x]? = some w ∧ w.parent = t

namespace Frame

variable {t : Nat} {T : Nat → Prop}

theorem refl (s : WaitState) : Frame t T s s where
  heap x w hx := ⟨w, hx, rfl, rfl, fun _ => rfl⟩
  threads u th hu := ⟨th, hu, fun _ => rfl⟩
  fresh u th' _ hn hs := by
    rw [hn] at hs
    cases hs
  actor th' ht := Or.inl ⟨th', ht, rfl⟩

theorem trans {s₁ s₂ s₃ : WaitState} (h₁ : Frame t T s₁ s₂) (h₂ : Frame t T s₂ s₃) :
    Frame t T s₁ s₃ where
  heap x w hx := by
    obtain ⟨w₂, hx₂, hp₂, ht₂, hv₂⟩ := h₁.heap x w hx
    obtain ⟨w₃, hx₃, hp₃, ht₃, hv₃⟩ := h₂.heap x w₂ hx₂
    exact ⟨w₃, hx₃, hp₃.trans hp₂, ht₃.trans ht₂, fun hT => (hv₃ hT).trans (hv₂ hT)⟩
  threads u th hu := by
    obtain ⟨th₂, hu₂, hpc₂⟩ := h₁.threads u th hu
    obtain ⟨th₃, hu₃, hpc₃⟩ := h₂.threads u th₂ hu₂
    exact ⟨th₃, hu₃, fun hne => (hpc₃ hne).trans (hpc₂ hne)⟩
  fresh u th' hne hn hs := by
    cases hu₂ : s₂.threads[u]? with
    | none => exact h₂.fresh u th' hne hu₂ hs
    | some th₂ =>
      obtain ⟨th₃, hu₃, hpc₃⟩ := h₂.threads u th₂ hu₂
      rw [hs] at hu₃
      cases hu₃
      rw [hpc₃ hne]
      exact h₁.fresh u th₂ hne hn hu₂
  actor th' ht := by
    rcases h₂.actor th' ht with ⟨th₂, ht₂, hpc₂⟩ | hnew
    · rcases h₁.actor th₂ ht₂ with ⟨th₁, ht₁, hpc₁⟩ | ⟨hload, hown⟩
      · exact Or.inl ⟨th₁, ht₁, hpc₁.trans hpc₂⟩
      · refine Or.inr ⟨hpc₂ ▸ hload, fun x hb => ?_⟩
        obtain ⟨w, hw, hp⟩ := hown x (hpc₂ ▸ hb)
        obtain ⟨w', hw', hp', -⟩ := h₂.heap x w hw
        exact ⟨w', hw', hp'.trans hp⟩
    · exact Or.inr hnew

/-- A frame for more records is a frame for fewer. -/
theorem mono {T' : Nat → Prop} {s s' : WaitState} (h : Frame t T s s') (hT : ∀ x, T x → T' x) :
    Frame t T' s s' where
  heap x w hx := by
    obtain ⟨w', hx', hp, ht, hv⟩ := h.heap x w hx
    exact ⟨w', hx', hp, ht, fun hT' => hv fun hTx => hT' (hT x hTx)⟩
  threads := h.threads
  fresh := h.fresh
  actor := h.actor

end Frame

/-- A step that keeps its frame keeps every blocked thread on a record of its own. -/
theorem Blocked.frame {t : Nat} {T : Nat → Prop} {s s' : WaitState} (hb : Blocked s)
    (hf : Frame t T s s') : Blocked s' := by
  intro u th' x hu hx
  -- a thread with the pc it had before is blocked on the record it was blocked on
  have keep : ∀ th, s.threads[u]? = some th → th.pc = th'.pc →
      ∃ w, s'.heap[x]? = some w ∧ w.parent = u := fun th hs hpc => by
    obtain ⟨w, hw, hp⟩ := hb u th x hs (hpc ▸ hx)
    obtain ⟨w', hw', hp', -⟩ := hf.heap x w hw
    exact ⟨w', hw', hp'.trans hp⟩
  by_cases hut : u = t
  · subst hut
    rcases hf.actor th' hu with ⟨th, hs, hpc⟩ | ⟨-, hw⟩
    · exact keep th hs hpc
    · exact hw x hx
  · cases hs : s.threads[u]? with
    | none =>
      have hload := hf.fresh u th' hut hs hu
      rcases hx with h | h <;> rw [h] at hload <;> cases hload
    | some th =>
      obtain ⟨th₁, hu₁, hpc⟩ := hf.threads u th hs
      rw [hu] at hu₁
      cases hu₁
      exact keep th hs (hpc hut).symm

/-! ## Writes -/

section Writes

variable {t : Nat} {T : Nat → Prop}

theorem frame_setWs {s : WaitState} {x : Nat} {w w' : WaitStatus} (hw : s.heap[x]? = some w)
    (hpar : w'.parent = w.parent) (htid : w'.tid = w.tid)
    (hview : ¬T x → loadView w' = loadView w) : Frame t T s (s.setWs x w') where
  heap y v hy := by
    by_cases hyx : y = x
    · subst hyx
      rw [hw] at hy
      cases hy
      exact ⟨w', setWs_self hw, hpar, htid, hview⟩
    · exact ⟨v, by rw [setWs_ne hyx]; exact hy, rfl, rfl, fun _ => rfl⟩
  threads u th hu := ⟨th, hu, fun _ => rfl⟩
  fresh u th' _ hn hs := by
    rw [setWs_threads, hn] at hs
    cases hs
  actor th' ht := Or.inl ⟨th', ht, rfl⟩

/-- A write of a record that keeps the fields of `loadView`. -/
theorem frame_modifyWs {s s' : WaitState} {x : Nat} {f : WaitStatus → WaitStatus}
    (hm : s.modifyWs x f = .ok s') (hkeep : ∀ w, loadView (f w) = loadView w) :
    Frame t T s s' := by
  obtain ⟨w, hw, -, rfl⟩ := modifyWs_eq_ok hm
  have h := congrArg (fun v => (v.1, v.2.1)) (hkeep w)
  exact frame_setWs hw (Prod.ext_iff.mp h).2 (Prod.ext_iff.mp h).1 fun _ => hkeep w

/-- A thread written back with its pc, or, when it is `t`, with a pc past `start_process`
that blocks only on a record of its own. -/
theorem frame_setThread {s : WaitState} {u : Nat} {th th' : Thread} (hu : s.threads[u]? = some th)
    (hpc : th'.pc = th.pc ∨ u = t ∧ th'.pc.isLoading = false ∧
      ∀ x, Blocks th'.pc x → ∃ w, s.heap[x]? = some w ∧ w.parent = t) :
    Frame t T s (s.setThread u th') where
  heap x w hx := ⟨w, by rw [setThread_heap]; exact hx, rfl, rfl, fun _ => rfl⟩
  threads v thv hv := by
    by_cases hvu : v = u
    · subst hvu
      rw [hu] at hv
      cases hv
      refine ⟨th', setThread_self hu, fun hne => ?_⟩
      rcases hpc with h | ⟨rfl, -⟩
      · exact h
      · exact absurd rfl hne
    · exact ⟨thv, by rw [setThread_ne hvu]; exact hv, fun _ => rfl⟩
  fresh v th'' _ hn hs := by
    by_cases hvu : v = u
    · subst hvu
      rw [hu] at hn
      cases hn
    · rw [setThread_ne hvu, hn] at hs
      cases hs
  actor th'' ht := by
    by_cases htu : t = u
    · subst htu
      rw [setThread_self hu] at ht
      cases ht
      rcases hpc with h | ⟨-, hload, h⟩
      · exact Or.inl ⟨th, hu, h.symm⟩
      · exact Or.inr ⟨hload, by rw [setThread_heap]; exact h⟩
    · rw [setThread_ne htu] at ht
      exact Or.inl ⟨th'', ht, rfl⟩

theorem getElem?_append_singleton {α : Type} {l : List α} {a b : α} {i : Nat}
    (h : (l ++ [a])[i]? = some b) : l[i]? = some b ∨ l[i]? = none ∧ a = b := by
  by_cases hi : i < l.length
  · rw [List.getElem?_append_left hi] at h
    exact Or.inl h
  · have hlen := (List.getElem?_eq_some_iff.mp h).1
    simp only [List.length_append, List.length_singleton] at hlen
    obtain rfl : i = l.length := by omega
    simp only [List.getElem?_append_right (le_refl _), Nat.sub_self, List.getElem?_cons_zero,
      Option.some.injEq] at h
    exact Or.inr ⟨List.getElem?_eq_none_iff.mpr (le_refl _), h⟩

/-- A new record and a new loading thread past the old ones. -/
theorem frame_append {s : WaitState} (w : WaitStatus) {th : Thread} (hload : th.pc.isLoading = true)
    (ht : t < s.threads.length) : Frame t T s ⟨s.heap ++ [w], s.threads ++ [th]⟩ where
  heap x v hx := ⟨v, (List.getElem?_append_left (List.getElem?_eq_some_iff.mp hx).1).trans hx,
    rfl, rfl, fun _ => rfl⟩
  threads u th hu :=
    ⟨th, (List.getElem?_append_left (List.getElem?_eq_some_iff.mp hu).1).trans hu, fun _ => rfl⟩
  fresh u th' _ hn hs := by
    rcases getElem?_append_singleton hs with h | ⟨-, rfl⟩
    · rw [hn] at h
      cases h
    · exact hload
  actor th' h := by
    have h : (s.threads ++ [th])[t]? = some th' := h
    rw [List.getElem?_append_left ht] at h
    exact Or.inl ⟨th', h, rfl⟩

/-- `thread_create`. -/
theorem frame_threadCreate {s s' : WaitState} {tid : Nat} {command : List UInt8}
    (hc : threadCreate s t command = .ok (s', tid)) : Frame t T s s' := by
  obtain ⟨th, hth, -, rfl⟩ := threadCreate_eq_ok hc
  have hth₁ : (WaitState.mk (s.heap ++ [⟨s.threads.length, 0, 0, 2, 0, 0, t, false⟩])
      (s.threads ++ [⟨some s.heap.length, [], .loading command⟩])).threads[t]? = some th :=
    (List.getElem?_append_left (List.getElem?_eq_some_iff.mp hth).1).trans hth
  exact (frame_append _ rfl (List.getElem?_eq_some_iff.mp hth).1).trans
    (frame_setThread hth₁ (Or.inl rfl))

theorem not_blocks_running (x : Nat) : ¬Blocks .running x := by
  simp [Blocks]

theorem blocks_execute {x y : Nat} (h : Blocks (.execute x) y) : y = x := by
  simp only [Blocks, ThreadPc.execute.injEq, reduceCtorEq, or_false] at h
  exact h.symm

theorem blocks_wait {x y : Nat} (h : Blocks (.wait x) y) : y = x := by
  simp only [Blocks, ThreadPc.wait.injEq, reduceCtorEq, false_or] at h
  exact h.symm

theorem not_blocks_dying (x : Nat) : ¬Blocks .dying x := by
  simp [Blocks]

/-- Thread `t` written back out of `start_process` and unblocked. -/
theorem frame_setActor {s : WaitState} {th th' : Thread} (hu : s.threads[t]? = some th)
    (hpc : th'.pc = .running ∨ th'.pc = .dying) : Frame t T s (s.setThread t th') := by
  refine frame_setThread hu (Or.inr ⟨rfl, ?_, fun x hb => ?_⟩)
  · rcases hpc with h | h <;> rw [h] <;> rfl
  · rcases hpc with h | h
    · exact absurd (h ▸ hb) (not_blocks_running x)
    · exact absurd (h ▸ hb) (not_blocks_dying x)

end Writes

/-! ## Each function of the protocol -/

/-- Every record outside `T` has a parent other than `t`: `t` finds none of them among its
children. -/
def KidsOutside (t : Nat) (T : Nat → Prop) (s : WaitState) : Prop :=
  ∀ x, ¬T x → ∃ w, s.heap[x]? = some w ∧ w.parent ≠ t

theorem KidsOutside.frame {t u : Nat} {T : Nat → Prop} {s s' : WaitState} (h : KidsOutside t T s)
    (hf : Frame u T s s') : KidsOutside t T s' := fun x hT => by
  obtain ⟨w, hw, hp⟩ := h x hT
  obtain ⟨w', hw', hp', -⟩ := hf.heap x w hw
  exact ⟨w', hw', hp' ▸ hp⟩

/-- A record whose parent is `t` is in `T`. -/
theorem KidsOutside.mem {t : Nat} {T : Nat → Prop} {s : WaitState} {x : Nat} {w : WaitStatus}
    (h : KidsOutside t T s) (hw : s.heap[x]? = some w) (hp : w.parent = t) : T x := by
  by_contra hT
  obtain ⟨v, hv, hvp⟩ := h x hT
  rw [hw] at hv
  cases hv
  exact hvp hp

section Calls

variable {t : Nat} {T : Nat → Prop}

theorem frame_destroyWaitStatus {s s' : WaitState} {x : Nat} (hd : destroyWaitStatus s x = .ok s')
    (hT : T x) : Frame t T s s' := by
  obtain ⟨w, p, hw, -, hp, rfl⟩ := destroyWaitStatus_eq_ok hd
  have hw₁ : (s.setThread w.parent { p with children := p.children.erase x }).heap[x]? = some w := by
    rw [setThread_heap]
    exact hw
  have f₁ : Frame t T s (s.setThread w.parent { p with children := p.children.erase x }) :=
    frame_setThread hp (Or.inl rfl)
  have f₂ : Frame t T (s.setThread w.parent { p with children := p.children.erase x })
      ((s.setThread w.parent { p with children := p.children.erase x }).setWs x
        { w with freed := true }) :=
    frame_setWs hw₁ rfl rfl fun h => absurd hT h
  exact f₁.trans f₂

theorem frame_decrementAndDestroyIfZero {s s' : WaitState} {x : Nat} {d : Bool}
    (hd : decrementAndDestroyIfZero s x = .ok (s', d)) (hT : d = true → T x) : Frame t T s s' := by
  obtain ⟨w, hw, -, h⟩ := decrementAndDestroyIfZero_eq_ok hd
  have h₁ : Frame t T s (s.setWs x { w with referenceCount := w.referenceCount - 1 }) :=
    frame_setWs hw rfl rfl fun _ => rfl
  rcases h with ⟨-, -, rfl⟩ | ⟨-, rfl, h₂⟩
  · exact h₁
  · exact h₁.trans (frame_destroyWaitStatus h₂ (hT rfl))

theorem frame_decrementChildren :
    ∀ {l : List Nat} {s s' : WaitState}, (∀ x ∈ l, T x) → decrementChildren s l = .ok s' →
      Frame t T s s'
  | [], s, s', _, hd => by
    simp only [decrementChildren, Trace.pure_eq_ok] at hd
    exact hd ▸ Frame.refl s
  | x :: _, _, _, hl, hd => by
    obtain ⟨⟨s₁, _⟩, h₁, hd⟩ := Trace.bind_eq_ok hd
    exact (frame_decrementAndDestroyIfZero h₁ fun _ => hl x List.mem_cons_self).trans
      (frame_decrementChildren (fun y hy => hl y (List.mem_cons_of_mem x hy)) hd)

theorem frame_signalDead {s s' : WaitState} {x : Nat} {d : Bool} (hs : signalDead s x d = .ok s') :
    Frame t T s s' := by
  cases d with
  | true =>
    simp only [signalDead, if_true, Trace.pure_eq_ok] at hs
    exact hs ▸ Frame.refl s
  | false =>
    simp only [signalDead, Bool.false_eq_true, if_false] at hs
    exact frame_modifyWs hs fun _ => rfl

/-- `process_exit` of `t`: its own record is destroyed only at a count of `1`, and the loop
goes over records whose parent is `t`. -/
theorem frame_processExit {s s' : WaitState} (hl : ChildrenLinked s) (he : processExit s t = .ok s')
    (hown : ∀ th x w, s.threads[t]? = some th → th.waitStatus = some x → ¬T x →
      s.heap[x]? = some w → w.referenceCount ≠ 1)
    (hkids : KidsOutside t T s) : Frame t T s s' := by
  obtain ⟨th, x, s₂, d, s₃, th₃, s₁, th₁, hth, hx, h₂, h₃, hth₃, h₁, hth₁, rfl⟩ :=
    processExit_eq_ok he
  have f₂ : Frame t T s s₂ := frame_decrementAndDestroyIfZero h₂ fun hd => by
    by_contra hT
    obtain ⟨w, hw, -, h⟩ := decrementAndDestroyIfZero_eq_ok h₂
    rcases h with ⟨-, hd', -⟩ | ⟨hz, -, -⟩
    · rw [hd] at hd'
      cases hd'
    · exact hown th x w hth hx hT hw (by omega)
  have f₃ := f₂.trans (frame_signalDead h₃)
  -- every record of the list has `t` as parent, so none is outside `T`
  have hl₃ : ChildrenLinked s₃ := linked_signalDead (linked_decrementAndDestroyIfZero hl h₂) h₃
  have f₁ : Frame t T s₃ s₁ := frame_decrementChildren (fun y hy => by
    obtain ⟨v, hv, -, hvp⟩ := (hl₃ t th₃ hth₃).2 y hy
    exact (hkids.frame f₃).mem hv hvp) h₁
  exact (f₃.trans f₁).trans (frame_setActor hth₁ (Or.inr rfl))

theorem frame_threadExitWithStatus {s s' : WaitState} {status : Int} (hl : ChildrenLinked s)
    (he : threadExitWithStatus s t status = .ok s')
    (hown : ∀ th x w, s.threads[t]? = some th → th.waitStatus = some x → ¬T x →
      s.heap[x]? = some w → w.referenceCount ≠ 1)
    (hkids : KidsOutside t T s) : Frame t T s s' := by
  obtain ⟨th, -, he⟩ := Trace.bind_eq_ok he
  obtain ⟨x, -, he⟩ := Trace.bind_eq_ok he
  obtain ⟨s₁, h₁, he⟩ := Trace.bind_eq_ok he
  have f₁ : Frame t T s s₁ := frame_modifyWs h₁ fun _ => rfl
  have hl₁ := linked_modifyWs hl h₁ fun _ => ⟨rfl, rfl⟩
  obtain ⟨w, hw, -, rfl⟩ := modifyWs_eq_ok h₁
  refine f₁.trans (frame_processExit hl₁ he (fun th' y v hth' hy hT hv => ?_) (hkids.frame f₁))
  -- the write of `exit_status` keeps every count
  rw [setWs_threads] at hth'
  by_cases hyx : y = x
  · subst hyx
    rw [setWs_self hw] at hv
    cases hv
    exact hown th' y w hth' hy hT hw
  · rw [setWs_ne hyx] at hv
    exact hown th' y v hth' hy hT hv

/-- `start_process` of `t`, whose own record is in `T`. -/
theorem frame_startProcess {s s' : WaitState} {command : List UInt8} {success : Bool}
    (hl : ChildrenLinked s) (hs : startProcess s t command success = .ok s')
    (hT : ∀ th x, s.threads[t]? = some th → th.waitStatus = some x → T x)
    (hkids : KidsOutside t T s) : Frame t T s s' := by
  obtain ⟨th, x, hth, hx, -, ⟨-, s₁, h₁, rfl⟩ | ⟨-, s₁, h₁, hs⟩⟩ := startProcess_eq_ok hs
  · obtain ⟨w, hw, -, rfl⟩ := modifyWs_eq_ok h₁
    have f₁ : Frame t T s (s.setWs x { w with doneLoading := w.doneLoading + 1 }) :=
      frame_setWs hw rfl rfl fun h => absurd (hT th x hth hx) h
    exact f₁.trans (frame_setActor hth (Or.inl rfl))
  · have hl₁ := linked_modifyWs hl h₁ fun _ => ⟨rfl, rfl⟩
    obtain ⟨w, hw, -, rfl⟩ := modifyWs_eq_ok h₁
    have f₁ : Frame t T s (s.setWs x
        { w with exitStatus := 1, loadError := 1, doneLoading := w.doneLoading + 1 }) :=
      frame_setWs hw rfl rfl fun h => absurd (hT th x hth hx) h
    refine f₁.trans (frame_processExit hl₁ hs (fun th' y v hth' hy hT' _ => ?_) (hkids.frame f₁))
    rw [setWs_threads, hth] at hth'
    cases hth'
    rw [hx] at hy
    cases hy
    exact absurd (hT th x hth hx) hT'

theorem frame_processExecute {s s' : WaitState} {command : List UInt8} {r : Option Int}
    (hl : ChildrenLinked s) (he : processExecute s t command = .ok (s', r)) : Frame t T s s' := by
  obtain ⟨⟨s₁, tid⟩, h₁, he⟩ := Trace.bind_eq_ok he
  have f₁ : Frame t T s s₁ := frame_threadCreate h₁
  obtain ⟨th, hth, he⟩ := Trace.bind_eq_ok he
  have hth := getThread_eq_ok hth
  obtain ⟨found, hf, he⟩ := Trace.bind_eq_ok he
  cases found with
  | none =>
    simp only [Trace.pure_eq_ok, Prod.mk.injEq] at he
    exact he.1 ▸ f₁
  | some x =>
    simp only [Trace.pure_eq_ok, Prod.mk.injEq] at he
    rw [← he.1]
    -- the record found is among `t`'s children, so `t` is its parent
    obtain ⟨hmem, -⟩ := (findChildWs_eq_ok hf).1 x rfl
    obtain ⟨w, hw, -, hp⟩ := (linked_threadCreate hl h₁ t th hth).2 x hmem
    exact f₁.trans (frame_setThread hth
      (Or.inr ⟨rfl, by simp, fun y hb => ⟨w, blocks_execute hb ▸ hw, hp⟩⟩))

theorem frame_finishWait {s s' : WaitState} {x : Nat} {r : Option Int}
    (hf : finishWait s x = .ok (s', r)) (hT : T x) : Frame t T s s' := by
  obtain ⟨w, hw, hf⟩ := Trace.bind_eq_ok hf
  obtain ⟨s₂, h₂, hf⟩ := Trace.bind_eq_ok hf
  simp only [Trace.pure_eq_ok, Prod.mk.injEq] at hf
  rw [← hf.1]
  have f₁ : Frame t T s (s.setWs x { w with dead := w.dead - 1 }) :=
    frame_setWs (getWs_eq_ok hw).1 rfl rfl fun _ => rfl
  exact f₁.trans (frame_destroyWaitStatus h₂ hT)

theorem frame_processWait {s s' : WaitState} {tid : Nat} {r : Option Int} (hl : ChildrenLinked s)
    (hw : processWait s t tid = .ok (s', r)) (hkids : KidsOutside t T s) : Frame t T s s' := by
  obtain ⟨th, hth, hw⟩ := Trace.bind_eq_ok hw
  have hth := getThread_eq_ok hth
  obtain ⟨found, hf, hw⟩ := Trace.bind_eq_ok hw
  cases found with
  | none =>
    simp only [Trace.pure_eq_ok, Prod.mk.injEq] at hw
    exact hw.1 ▸ Frame.refl s
  | some x =>
    obtain ⟨hmem, -⟩ := (findChildWs_eq_ok hf).1 x rfl
    obtain ⟨v, hv, -, hvp⟩ := (hl t th hth).2 x hmem
    obtain ⟨w, -, hw⟩ := Trace.bind_eq_ok hw
    split at hw
    · simp only [Trace.pure_eq_ok, Prod.mk.injEq] at hw
      rw [← hw.1]
      exact frame_setThread hth (Or.inr ⟨rfl, by simp, fun y hb => ⟨v, blocks_wait hb ▸ hv, hvp⟩⟩)
    · exact frame_finishWait hw (hkids.mem hv hvp)

theorem frame_resume {s s' : WaitState} {r : Option Int} (hb : Blocked s)
    (hr : resume s t = .ok (s', r)) (hkids : KidsOutside t T s) : Frame t T s s' := by
  obtain ⟨th, hth, hr⟩ := Trace.bind_eq_ok hr
  have hth := getThread_eq_ok hth
  -- the record `t` is blocked on has `t` as parent
  have hT : ∀ x, Blocks th.pc x → T x := fun x hx => by
    obtain ⟨v, hv, hvp⟩ := hb t th x hth hx
    exact hkids.mem hv hvp
  split at hr
  · next x hpc =>
    obtain ⟨w, hw, hr⟩ := Trace.bind_eq_ok hr
    split at hr
    · simp only [Trace.pure_eq_ok, Prod.mk.injEq] at hr
      exact hr.1 ▸ Frame.refl s
    · simp only [Trace.pure_eq_ok, Prod.mk.injEq] at hr
      rw [← hr.1]
      have f₁ : Frame t T s (s.setWs x { w with doneLoading := w.doneLoading - 1 }) :=
        frame_setWs (getWs_eq_ok hw).1 rfl rfl fun h => absurd (hT x (Or.inl hpc)) h
      exact f₁.trans (frame_setActor hth (Or.inl rfl))
  · next x hpc =>
    obtain ⟨w, -, hr⟩ := Trace.bind_eq_ok hr
    split at hr
    · simp only [Trace.pure_eq_ok, Prod.mk.injEq] at hr
      exact hr.1 ▸ Frame.refl s
    · exact (frame_setActor hth (Or.inl rfl)).trans (frame_finishWait hr (hT x (Or.inr hpc)))
  · simp only [Trace.pure_eq_ok, Prod.mk.injEq] at hr
    exact hr.1 ▸ Frame.refl s

end Calls

/-! ## Steps and runs -/

/-- Every step keeps its frame for the records `T` leaves out, provided none of them is a
child of the thread taking the step, and its own record, if outside `T`, is neither loaded
again nor destroyed by its exit. -/
theorem waitStep_frame {T : Nat → Prop} {s s' : WaitState} {a : WaitCall} {out : Option Int}
    (h : Refs s) (hb : Blocked s) (hs : waitStep s a = .ok (s', out))
    (hkids : KidsOutside a.thread T s)
    (hown : ∀ th x, s.threads[a.thread]? = some th → th.waitStatus = some x → ¬T x →
      (∀ b, a = .startProcess a.thread b → th.pc.isLoading = false) ∧
        ∀ w, s.heap[x]? = some w → w.referenceCount ≠ 1) :
    Frame a.thread T s s' := by
  rcases waitStep_eq_ok hs with rfl | ⟨th, hth, hen, hs⟩
  · exact Frame.refl _
  cases a with
  | execute t command => exact frame_processExecute h.1 hs
  | startProcess t success =>
    refine frame_startProcess h.1 hs.1 (fun th' x hth' hx => ?_) hkids
    -- the thread is loading, so its own record is in `T`
    by_contra hT
    rw [hth] at hth'
    cases hth'
    have hload : th.pc.isLoading = true := by simpa [WaitCall.enabled] using hen
    rw [(hown th x hth hx hT).1 success rfl] at hload
    cases hload
  | wait t tid => exact frame_processWait h.1 hs hkids
  | exit t status =>
    exact frame_threadExitWithStatus h.1 hs.1
      (fun th' x w hth' hx hT hw => (hown th' x hth' hx hT).2 w hw) hkids
  | resume t => exact frame_resume hb hs hkids

theorem waitInit_blocked : Blocked waitInit := by
  intro u th x hu hx
  cases u with
  | zero =>
    simp only [waitInit, List.getElem?_cons_zero, Option.some.injEq] at hu
    subst hu
    exact absurd hx (not_blocks_running x)
  | succ u => simp [waitInit] at hu

theorem waitStep_blocked {s s' : WaitState} {a : WaitCall} {out : Option Int} (h : Refs s)
    (hb : Blocked s) (hs : waitStep s a = .ok (s', out)) : Blocked s' :=
  hb.frame (waitStep_frame (T := fun _ => True) h hb hs (fun _ hT => absurd trivial hT)
    fun _ _ _ _ hT => absurd trivial hT)

/-- In every reachable state, a thread blocked in `process_execute` or `process_wait` is
blocked on a record whose parent it is. -/
theorem run_blocked {calls : List WaitCall} {s : WaitState} {outs : List (Option Int)}
    (hrun : Trace.run waitStep waitInit calls = .ok (s, outs)) : Refs s ∧ Blocked s :=
  Trace.run_invariant (fun s => Refs s ∧ Blocked s)
    (fun _ _ _ _ ⟨h, hb⟩ hs => ⟨waitStep_refs h hs, waitStep_blocked h hb hs⟩) calls waitInit s
    outs ⟨waitInit_refs, waitInit_blocked⟩ hrun



/-! ## The record the parent waits on -/

/-- What the first `start_process` of thread `c` among the steps so far reported: `load`
and `load_arguments_to_stack` both succeeded, or one of them failed. -/
def loadOutcome (c : Nat) : Option Bool → WaitCall → Option Bool
  | none, .startProcess t success => if t = c then some success else none
  | o, _ => o

/-- `done_loading` once the child has loaded. -/
def loadSignal : Option Bool → Nat
  | none => 0
  | some _ => 1

/-- `load_error` once the child has loaded. -/
def loadFlag : Option Bool → Int
  | some false => 1
  | _ => 0

/-- Thread `p` is blocked in `process_execute` on the record at `ws` of its child `c`,
created for `command`, whose first `start_process` reported `o`: the record holds the
matching `done_loading` and `load_error`, and `c` is in `start_process (command)` until
then, and past it after. -/
structure Pending (p ws c : Nat) (command : List UInt8) (o : Option Bool) (s : WaitState) :
    Prop where
  refs : Refs s
  blocked : Blocked s
  parent : ∃ th, s.threads[p]? = some th ∧ th.pc = .execute ws
  record : ∃ w, s.heap[ws]? = some w ∧ loadView w = (c, p, false, loadSignal o, loadFlag o)
  child : ∃ th, s.threads[c]? = some th ∧ (o = none → th.pc = .loading command) ∧
    (o ≠ none → th.pc.isLoading = false)

theorem loadOutcome_of_ne {c : Nat} {o : Option Bool} {a : WaitCall}
    (h : ¬∃ b, a = .startProcess c b ∧ o = none) : loadOutcome c o a = o := by
  cases o with
  | some b => cases a <;> rfl
  | none =>
    cases a with
    | startProcess t success =>
      have htc : t ≠ c := by
        rintro rfl
        exact h ⟨success, rfl, rfl⟩
      simp [loadOutcome, htc]
    | _ => rfl

theorem loadView_eq {w : WaitStatus} {c p : Nat} {o : Option Bool}
    (h : loadView w = (c, p, false, loadSignal o, loadFlag o)) :
    w.tid = c ∧ w.parent = p ∧ w.freed = false ∧ w.doneLoading = loadSignal o ∧
      w.loadError = loadFlag o := by
  simpa [loadView] using h

namespace Pending

variable {p ws c : Nat} {command : List UInt8} {o : Option Bool} {s : WaitState}

/-- The parent's `sema_down` goes on once `done_loading` is up, with the child's tid or
`TID_ERROR`; before, it stays blocked. -/
theorem waitStep_resume (h : Pending p ws c command o s) :
    ∃ s', waitStep s (.resume p) =
      .ok (s', o.map fun success => if success then (c : Int) else TID_ERROR) ∧ (o = none → s' = s) := by
  obtain ⟨th, hth, hpc⟩ := h.parent
  obtain ⟨w, hw, hv⟩ := h.record
  obtain ⟨htid, -, hf, hdone, herr⟩ := loadView_eq hv
  have hgw : s.getWs ws = .ok w := by simp [getWs, hw, hf]
  have hgt : s.getThread p = .ok th := by simp [getThread, hth]
  simp only [waitStep, WaitCall.thread, hth, WaitCall.enabled, hpc, if_true, Pintos.Userprog.resume,
    hgt, hgw, Trace.ok_bind, hdone]
  cases o with
  | none => exact ⟨s, rfl, fun _ => rfl⟩
  | some success =>
    refine ⟨(s.setWs ws { w with doneLoading := loadSignal (some success) - 1 }).setThread p
      { th with pc := .running }, ?_, fun h => by cases h⟩
    cases success <;> simp [loadSignal, loadFlag, herr, htid]

/-- The parent and the child are two threads: the parent is the older. -/
theorem parent_ne (h : Pending p ws c command o s) : p ≠ c := by
  obtain ⟨w, hw, hv⟩ := h.record
  obtain ⟨htid, hpar, hf, -⟩ := loadView_eq hv
  have hlt := (h.refs.2.held ws w hw hf).parent_lt
  omega

/-- The record has a count of `2` while the child runs: its two threads hold it. -/
theorem count (h : Pending p ws c command o s) {w : WaitStatus} (hw : s.heap[ws]? = some w)
    (hc : exited s c = false) : w.referenceCount = 2 := by
  obtain ⟨w', hw', hv⟩ := h.record
  rw [hw] at hw'
  cases hw'
  obtain ⟨htid, hpar, hf, -⟩ := loadView_eq hv
  obtain ⟨th, hth, hpc⟩ := h.parent
  have hp : exited s p = false := exited_eq_false.mpr ⟨th, hth, by simp [hpc]⟩
  rw [(h.refs.2.held ws w hw hf).count, hpar, htid, hp, hc]
  rfl

/-- The child's first `start_process`: the record now holds its report. -/
theorem load {s' : WaitState} {success : Bool} {out : Option Int}
    (h : Pending p ws c command none s) (hs : waitStep s (.startProcess c success) = .ok (s', out))
    (hr : Refs s') (hb : Blocked s') : Pending p ws c command (some success) s' := by
  obtain ⟨thc, hthc, hload, -⟩ := h.child
  have hload := hload rfl
  obtain ⟨w, hw, hv⟩ := h.record
  obtain ⟨htid, hpar, hf, hdone, herr⟩ := loadView_eq hv
  obtain ⟨thp, hthp, hppc⟩ := h.parent
  have hpc := h.parent_ne
  -- the child's own record is the one the parent waits on
  have hown : thc.waitStatus = some ws := by
    obtain ⟨c', hc', hcw⟩ := (h.refs.2.held ws w hw hf).owned
    rw [htid, hthc] at hc'
    cases hc'
    exact hcw
  simp only [waitStep, WaitCall.thread, hthc, WaitCall.enabled, hload, ThreadPc.isLoading,
    ThreadPc.command, if_true] at hs
  obtain ⟨s₁, h₁, hs⟩ := Trace.bind_eq_ok hs
  simp only [Trace.pure_eq_ok, Prod.mk.injEq] at hs
  obtain ⟨rfl, -⟩ := hs
  obtain ⟨th, x, hth, hx, -, ⟨rfl, s₂, hm, rfl⟩ | ⟨rfl, s₂, hm, he⟩⟩ := startProcess_eq_ok h₁
  · rw [hthc] at hth
    cases hth
    rw [hown] at hx
    cases hx
    obtain ⟨w', hw', -, rfl⟩ := modifyWs_eq_ok hm
    rw [hw] at hw'
    cases hw'
    refine ⟨hr, hb, ⟨thp, ?_, hppc⟩, ⟨{ w with doneLoading := w.doneLoading + 1 }, ?_, ?_⟩,
      ⟨_, setThread_self hthc, (fun h => by cases h), fun _ => rfl⟩⟩
    · rw [setThread_ne hpc, setWs_threads]
      exact hthp
    · rw [setThread_heap, setWs_self hw]
    · simp [loadView, htid, hpar, hf, hdone, herr, loadSignal, loadFlag]
  · rw [hthc] at hth
    cases hth
    rw [hown] at hx
    cases hx
    have hl₂ := linked_modifyWs h.refs.1 hm fun _ => ⟨rfl, rfl⟩
    obtain ⟨w', hw', -, rfl⟩ := modifyWs_eq_ok hm
    rw [hw] at hw'
    cases hw'
    set w₁ : WaitStatus :=
      { w with exitStatus := 1, loadError := 1, doneLoading := w.doneLoading + 1 }
    have hw₂ : (s.setWs ws w₁).heap[ws]? = some w₁ := setWs_self hw
    -- the exit that follows a failed load keeps the record: the parent still holds it
    have hcount : w.referenceCount = 2 :=
      h.count hw (exited_eq_false.mpr ⟨thc, hthc, by simp [hload]⟩)
    have hfr : Frame c (· ≠ ws) (s.setWs ws w₁) s₁ := by
      refine frame_processExit hl₂ he (fun th x' v _ _ hx' hv => ?_) fun x' hx' => ⟨w₁, ?_, ?_⟩
      · rw [not_not.mp hx', hw₂] at hv
        cases hv
        show w.referenceCount ≠ 1
        omega
      · rw [not_not.mp hx']
        exact hw₂
      · show w.parent ≠ c
        rw [hpar]
        exact hpc
    obtain ⟨thp₁, hthp₁, hppc₁⟩ := hfr.threads p thp hthp
    obtain ⟨w₂, hw₂', -, -, hv₂⟩ := hfr.heap ws w₁ hw₂
    obtain ⟨_, _, _, _, _, _, _, th₁, -, -, -, -, -, -, hth₁, rfl⟩ := processExit_eq_ok he
    refine ⟨hr, hb, ⟨thp₁, hthp₁, (hppc₁ hpc).trans hppc⟩, ⟨w₂, hw₂', ?_⟩,
      ⟨_, setThread_self hth₁, (fun h => by cases h), fun _ => rfl⟩⟩
    rw [hv₂ (not_not.mpr rfl)]
    simp [w₁, loadView, htid, hpar, hf, hdone, loadSignal, loadFlag]

/-- Any other step: neither the parent, which is blocked, nor the child's first
`start_process`. -/
theorem other {s' : WaitState} {a : WaitCall} {out : Option Int} (h : Pending p ws c command o s)
    (hs : waitStep s a = .ok (s', out)) (hr : Refs s') (hb : Blocked s') (hA : a ≠ .resume p)
    (hB : ¬∃ b, a = .startProcess c b ∧ o = none) : Pending p ws c command o s' := by
  obtain ⟨thp, hthp, hppc⟩ := h.parent
  obtain ⟨w, hw, hv⟩ := h.record
  obtain ⟨htid, hpar, hf, -⟩ := loadView_eq hv
  obtain ⟨thc, hthc, hnone, hsome⟩ := h.child
  rcases waitStep_eq_ok hs with rfl | ⟨th, hth, hen, -⟩
  · exact h
  -- the parent can only resume, and the child, while loading, only load
  have hu : a.thread ≠ p := by
    rintro hap
    rw [hap, hthp] at hth
    cases hth
    cases a <;> simp_all [WaitCall.enabled, WaitCall.thread]
  have hcl : a.thread = c → th.pc.isLoading = false := by
    rintro rfl
    rw [hthc] at hth
    cases hth
    by_cases ho : o = none
    · have hload := hnone ho
      exfalso
      cases a <;> simp_all [WaitCall.enabled, WaitCall.thread]
    · exact hsome ho
  have hfr : Frame a.thread (· ≠ ws) s s' := by
    refine waitStep_frame h.refs h.blocked hs (fun x hx => ⟨w, ?_, ?_⟩) fun th' x hth' hx hT => ?_
    · rw [not_not.mp hx]
      exact hw
    · rw [hpar]
      exact hu.symm
    -- the thread whose own record is the parent's is the child
    rw [not_not.mp hT] at hx
    have hex : exited s a.thread = false := exited_eq_false.mpr ⟨th, hth, enabled_ne_dying hen⟩
    obtain ⟨v, hv', -, hvt⟩ := h.refs.2.own a.thread th' ws hth' hx hex
    rw [hw] at hv'
    cases hv'
    have hac : a.thread = c := hvt.symm.trans htid
    rw [hth] at hth'
    cases hth'
    refine ⟨fun _ _ => hcl hac, fun v' hv' => ?_⟩
    rw [not_not.mp hT, hw] at hv'
    cases hv'
    rw [h.count hw (hac ▸ hex)]
    omega
  obtain ⟨thp', hthp', hpc'⟩ := hfr.threads p thp hthp
  obtain ⟨w', hw', -, -, hv'⟩ := hfr.heap ws w hw
  refine ⟨hr, hb, ⟨thp', hthp', (hpc' hu.symm).trans hppc⟩,
    ⟨w', hw', (hv' (not_not.mpr rfl)).trans hv⟩, ?_⟩
  obtain ⟨thc', hthc', hpcc⟩ := hfr.threads c thc hthc
  refine ⟨thc', hthc', ?_⟩
  by_cases hc : c = a.thread
  · -- the child past its load never comes back to loading
    have hload : thc.pc.isLoading = false := by
      rw [← hc, hthc] at hth
      cases hth
      exact hcl hc.symm
    have ho : o ≠ none := fun ho => by
      rw [hnone ho] at hload
      cases hload
    have hload' : thc'.pc.isLoading = false := by
      rw [hc] at hthc'
      rcases hfr.actor thc' hthc' with ⟨th₀, hth₀, hpc₀⟩ | ⟨hnl, -⟩
      · rw [← hc, hthc] at hth₀
        cases hth₀
        rw [← hpc₀]
        exact hload
      · exact hnl
    exact ⟨fun h => absurd h ho, fun _ => hload'⟩
  · rw [hpcc hc]
    exact ⟨hnone, hsome⟩

/-- A child whose command has no word cannot load: its `start_process` stops the kernel,
whatever `load` would return. -/
theorem waitStep_start_panics (h : Pending p ws c command none s)
    (hw : strtokR (command.takeWhile (· != 0)) = none) (success : Bool) :
    waitStep s (.startProcess c success) = .error .panic := by
  obtain ⟨thc, hthc, hload, -⟩ := h.child
  have hload := hload rfl
  simp [waitStep, WaitCall.thread, hthc, WaitCall.enabled, hload, ThreadPc.command,
    startProcess_without_words hthc hw]

/-- While the child's command has no word, every step keeps it unloaded: its own
`start_process` cannot return, and the parent's `sema_down` does not return. -/
theorem waitStep_wordless {s' : WaitState} {a : WaitCall} {out : Option Int}
    (h : Pending p ws c command none s) (hw : strtokR (command.takeWhile (· != 0)) = none)
    (hs : waitStep s a = .ok (s', out)) : Pending p ws c command none s' := by
  by_cases hA : a = .resume p
  · subst hA
    obtain ⟨s'', hres, hs''⟩ := h.waitStep_resume
    rw [hres] at hs
    obtain ⟨rfl, -⟩ := Prod.mk.inj (Except.ok.inj hs)
    rw [hs'' rfl]
    exact h
  have hB : ¬∃ b, a = .startProcess c b ∧ (none : Option Bool) = none := by
    rintro ⟨b, rfl, -⟩
    rw [h.waitStep_start_panics hw b] at hs
    cases hs
  exact h.other hs (waitStep_refs h.refs hs) (waitStep_blocked h.refs h.blocked hs) hA hB

end Pending

/-- One step while the parent is blocked and has not come back from its `sema_down`. -/
theorem waitStep_pending {p ws c : Nat} {command : List UInt8} {o : Option Bool}
    {s s' : WaitState} {a : WaitCall} {out : Option Int} (h : Pending p ws c command o s)
    (hs : waitStep s a = .ok (s', out)) (hok : a = .resume p → out = none) :
    Pending p ws c command (loadOutcome c o a) s' := by
  have hr := waitStep_refs h.refs hs
  have hb := waitStep_blocked h.refs h.blocked hs
  by_cases hA : a = .resume p
  · subst hA
    obtain ⟨s'', hres, hs''⟩ := h.waitStep_resume
    rw [hres] at hs
    simp only [Except.ok.injEq, Prod.mk.injEq] at hs
    obtain ⟨rfl, rfl⟩ := hs
    cases o with
    | none =>
      rw [hs'' rfl]
      exact h
    | some b => cases hok rfl
  by_cases hB : ∃ b, a = .startProcess c b ∧ o = none
  · obtain ⟨b, rfl, rfl⟩ := hB
    simp only [loadOutcome]
    exact h.load hs hr hb
  rw [loadOutcome_of_ne hB]
  exact h.other hs hr hb hA hB

/-- `process_execute (command)` by a running thread: it creates child `s.threads.length`
with the record at `s.heap.length`, finds the record, and blocks on it. -/
theorem execute_pending {s s₁ : WaitState} {p : Nat} {th : Thread} {command : List UInt8}
    {o : Option Int} (h : Refs s) (hb : Blocked s) (hp : s.threads[p]? = some th)
    (hpc : th.pc = .running) (hexec : waitStep s (.execute p command) = .ok (s₁, o)) :
    o = none ∧ Pending p s.heap.length s.threads.length command none s₁ := by
  have hr := waitStep_refs h hexec
  have hb₁ := waitStep_blocked h hb hexec
  simp only [waitStep, WaitCall.thread, hp, WaitCall.enabled, hpc, beq_self_eq_true, if_true,
    processExecute] at hexec
  obtain ⟨⟨s₀, tid⟩, hc, hexec⟩ := Trace.bind_eq_ok hexec
  obtain ⟨th₀, hth₀, rfl, rfl⟩ := threadCreate_eq_ok hc
  rw [hp] at hth₀
  cases hth₀
  set w : WaitStatus := ⟨s.threads.length, 0, 0, 2, 0, 0, p, false⟩
  set s₂ : WaitState :=
    ⟨s.heap ++ [w], s.threads ++ [⟨some s.heap.length, [], .loading command⟩]⟩
  have hlen : p < s.threads.length := (List.getElem?_eq_some_iff.mp hp).1
  have hp₂ : s₂.threads[p]? = some th := (List.getElem?_append_left hlen).trans hp
  have hw : s₂.heap[s.heap.length]? = some w := by simp [s₂]
  have hc₂ : s₂.threads[s.threads.length]? = some ⟨some s.heap.length, [], .loading command⟩ := by
    simp [s₂]
  set th₁ : Thread := { th with children := s.heap.length :: th.children }
  have hgt : (s₂.setThread p th₁).getThread p = .ok th₁ := by simp [getThread, setThread_self hp₂]
  have hgw : (s₂.setThread p th₁).getWs s.heap.length = .ok w := by
    simp [getWs, setThread_heap, hw, w]
  simp only [hgt, Trace.ok_bind, th₁, findChildWs, hgw, w, if_true, pure_bind] at hexec
  simp only [Trace.pure_eq_ok, Prod.mk.injEq] at hexec
  obtain ⟨rfl, rfl⟩ := hexec
  refine ⟨rfl, hr, hb₁, ⟨_, setThread_self (setThread_self hp₂), rfl⟩, ⟨w, ?_, rfl⟩,
    ⟨⟨some s.heap.length, [], .loading command⟩, ?_, fun _ => rfl, fun h => absurd rfl h⟩⟩
  · rw [setThread_heap, setThread_heap]
    exact hw
  · rw [setThread_ne (Nat.ne_of_gt hlen), setThread_ne (Nat.ne_of_gt hlen)]
    exact hc₂

/-- `process_execute (command)` by a running thread in any reachable state creates the child
`s.threads.length` and blocks. Then, however the other threads run, the child included (it
may load and exit, or fail and exit, before the parent is scheduled), as long as the
parent's `sema_down` has not returned, the parent's next step returns exactly when the
child's first `start_process` has reported, with the child's tid when `load` and
`load_arguments_to_stack` both succeeded and `TID_ERROR` when one failed. -/
theorem execute_returns_load_result {calls more : List WaitCall} {s s₁ s₂ : WaitState}
    {outs outs₂ : List (Option Int)} {p : Nat} {th : Thread} {command : List UInt8}
    {o : Option Int} (hrun : Trace.run waitStep waitInit calls = .ok (s, outs))
    (hp : s.threads[p]? = some th) (hpc : th.pc = .running)
    (hexec : waitStep s (.execute p command) = .ok (s₁, o))
    (hmore : Trace.run waitStep s₁ more = .ok (s₂, outs₂))
    (hblocked : List.Forall₂ (fun a r => a = .resume p → r = none) more outs₂) :
    o = none ∧ ∃ s₃, waitStep s₂ (.resume p) =
      .ok (s₃, (more.foldl (loadOutcome s.threads.length) none).map
        fun success => if success then (s.threads.length : Int) else TID_ERROR) := by
  obtain ⟨h, hb⟩ := run_blocked hrun
  obtain ⟨ho, hpend⟩ := execute_pending h hb hp hpc hexec
  have hpend₂ := Trace.run_foldl_invariant (Pending p s.heap.length s.threads.length command)
    (loadOutcome s.threads.length) (fun a r => a = .resume p → r = none)
    (fun _ _ _ _ _ hg hs hok => waitStep_pending hg hs hok) more none s₁ s₂ outs₂ hpend hmore
    hblocked
  obtain ⟨s₃, hres, -⟩ := hpend₂.waitStep_resume
  exact ⟨ho, s₃, hres⟩

/-- `process_execute (command)` for a command with no word, such as `exec ("")`, by a
running thread in any reachable state: the child's `start_process` hands `argv[0] = NULL` to
`strlcpy`, whose `ASSERT` stops the kernel before `sema_up (&ws->done_loading)`, whether or
not `load` would succeed. However the threads run, the parent stays blocked in `sema_down`:
`process_execute` returns neither the child's tid nor `TID_ERROR`. -/
theorem exec_without_words_never_returns {calls more : List WaitCall} {s s₁ s₂ : WaitState}
    {outs outs₂ : List (Option Int)} {p : Nat} {th : Thread} {command : List UInt8}
    {o : Option Int} (hrun : Trace.run waitStep waitInit calls = .ok (s, outs))
    (hp : s.threads[p]? = some th) (hpc : th.pc = .running)
    (hwords : getWordList (command.takeWhile (· != 0)) = [])
    (hexec : waitStep s (.execute p command) = .ok (s₁, o))
    (hmore : Trace.run waitStep s₁ more = .ok (s₂, outs₂)) :
    o = none ∧ waitStep s₂ (.resume p) = .ok (s₂, none) ∧
      ∀ success, waitStep s₂ (.startProcess s.threads.length success) = .error .panic := by
  obtain ⟨h, hb⟩ := run_blocked hrun
  obtain ⟨ho, hpend⟩ := execute_pending h hb hp hpc hexec
  have hw := getWordList_eq_nil_iff.mp hwords
  -- the invariant over the steps that follow: the child unloaded, the parent blocked
  have hpend₂ := Trace.run_invariant (Pending p s.heap.length s.threads.length command none)
    (fun _ _ _ _ hg hs => hg.waitStep_wordless hw hs) more s₁ s₂ outs₂ hpend hmore
  obtain ⟨s₃, hres, hs₃⟩ := hpend₂.waitStep_resume
  rw [hs₃ rfl] at hres
  exact ⟨ho, hres, hpend₂.waitStep_start_panics hw⟩

/-- `exec ("")` by the initial thread, which then tries to resume: the child, thread `1`, is
left in `start_process` with the empty command, and the initial thread stays blocked. -/
theorem exec_empty_never_returns :
    let s₁ : WaitState :=
      ⟨[⟨1, 0, 0, 2, 0, 0, 0, false⟩], [⟨none, [0], .execute 0⟩, ⟨some 0, [], .loading []⟩]⟩
    Trace.run waitStep waitInit [] = .ok (waitInit, []) ∧
      waitInit.threads[0]? = some ⟨none, [], .running⟩ ∧
      getWordList (([] : List UInt8).takeWhile (· != 0)) = [] ∧
      waitStep waitInit (.execute 0 []) = .ok (s₁, none) ∧
      Trace.run waitStep s₁ [.resume 0] = .ok (s₁, [none]) ∧
      ((none : Option Int) = none ∧ waitStep s₁ (.resume 0) = .ok (s₁, none) ∧
        ∀ success, waitStep s₁ (.startProcess waitInit.threads.length success) = .error .panic) := by
  intro s₁
  have hrun : Trace.run waitStep waitInit [] = .ok (waitInit, []) := rfl
  have hp : waitInit.threads[0]? = some ⟨none, [], .running⟩ := rfl
  have hwords : getWordList (([] : List UInt8).takeWhile (· != 0)) = [] :=
    getWordList_eq_nil_iff.mpr rfl
  have hexec : waitStep waitInit (.execute 0 []) = .ok (s₁, none) := by decide
  have hmore : Trace.run waitStep s₁ [.resume 0] = .ok (s₁, [none]) := by decide
  exact ⟨hrun, hp, hwords, hexec, hmore,
    exec_without_words_never_returns hrun hp rfl hwords hexec hmore⟩

end Pintos.Userprog
