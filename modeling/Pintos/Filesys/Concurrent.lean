import Pintos.Filesys.Filesys
import Pintos.Lib.Interleave

/-!
Threads making `dir_add` and `dir_remove` calls on one directory at once. Nothing in
either call takes a lock around its scans: the `dir_lock` that `inode_open` initialises is
never acquired. A thread's step is one `inode_read_at` or `inode_write_at` of one
`struct dir_entry`, which the inode's own locks make atomic; the checks and the erase that
`dir_remove` makes once its entry is found are one step here.

* `dirCall_solo`: a thread running alone returns what the sequential call returns;
* `serial_calls`: so a schedule that runs one call after the other gives the sequential
  run of both;
* `concurrent_adds_lose_entry`: a schedule that alternates two `dir_add` calls makes both
  return `true` while only the second name is in the directory.
-/

namespace Pintos.Filesys

/-- The directory call a thread makes: `dir_add (dir, name, sector)`, or
`dir_remove (dir, name)` from a thread whose `cwd` is `cwd`. -/
inductive DirCall where
  | add (dir : Dir) (name : List UInt8) (sector : Nat)
  | remove (cwd : Option Dir) (dir : Dir) (name : List UInt8)

namespace DirCall

def dir : DirCall → Dir
  | .add dir _ _ => dir
  | .remove _ dir _ => dir

def name : DirCall → List UInt8
  | .add _ name _ => name
  | .remove _ _ name => name

end DirCall

/-- The sequential call. -/
def dirCall (st : FsState) : DirCall → Except Fault (FsState × Bool)
  | .add dir name sector => dirAdd st dir name sector
  | .remove cwd dir name => dirRemove st cwd dir name

/-- Where a thread is in its call, with what the rest of the call needs: the `lookup`
scan at `ofs`, the free-slot scan of `dir_add` at `ofs`, its write, the rest of
`dir_remove` on the entry found, or returned with `success`. -/
inductive DirThread where
  | lookup (call : DirCall) (ofs : Nat) (e : Nat → UInt8)
  | freeSlot (dir : Dir) (name : List UInt8) (sector : Nat) (ofs : Int) (e : Nat → UInt8)
  | write (dir : Dir) (name : List UInt8) (sector : Nat) (e : Nat → UInt8) (ofs : Int)
  | erase (cwd : Option Dir) (dir : Dir) (e : Nat → UInt8) (ofs : Nat)
  | done (success : Bool)

namespace DirThread

def start (call : DirCall) : DirThread := .lookup call 0 fun _ => 0

def result : DirThread → Option Bool
  | .done success => some success
  | _ => none

end DirThread

/-- Where the answer of `lookup` takes a call. -/
def afterLookup : DirCall → Option ((Nat → UInt8) × Nat) → DirThread
  | .add _ _ _, some _ => .done false
  | .add dir name sector, none => .freeSlot dir name sector 0 fun _ => 0
  | .remove cwd dir _, some (e, ofs) => .erase cwd dir e ofs
  | .remove _ _ _, none => .done false

/-- One step of a thread. -/
def dirStep (st : FsState) : DirThread → Except Fault (FsState × DirThread)
  | .lookup call ofs e => do
    let (st, r) ← lookupRound call.dir call.name st e ofs
    match r with
    | .inl (e, ofs) => pure (st, .lookup call ofs e)
    | .inr found => pure (st, afterLookup call found)
  | .freeSlot dir name sector ofs e => do
    let (st, e, next) ← freeSlotRound dir st e ofs
    match next with
    | some next => pure (st, .freeSlot dir name sector next e)
    | none => pure (st, .write dir name sector e ofs)
  | .write dir name sector e ofs => do
    let (st, success) ← writeSlot st dir name sector e ofs
    pure (st, .done success)
  | .erase cwd dir e ofs => do
    let (st, success) ← removeFoundEntry st cwd dir e ofs
    pure (st, .done success)
  | .done success => pure (st, .done success)

/-! ## A thread alone -/

/-- Steps `k` then the steps from where they end. -/
theorem solo_then {k m : Nat} {st st₁ : FsState} {t t₁ : DirThread}
    (h : Interleave.solo dirStep k st t = .ok (st₁, t₁)) :
    Interleave.solo dirStep (k + m) st t = Interleave.solo dirStep m st₁ t₁ := by
  rw [Interleave.solo_add, h]
  rfl

/-- The `lookup` scan, step by step, reaches the answer the loop returns. -/
theorem lookupLoop_solo (call : DirCall) :
    ∀ (fuel : Nat) (st st' : FsState) (e : Nat → UInt8) (ofs : Nat)
      (found : Option ((Nat → UInt8) × Nat)),
      lookupLoop call.dir call.name fuel st e ofs = .ok (st', found) →
        ∃ k, Interleave.solo dirStep k st (.lookup call ofs e) =
          .ok (st', afterLookup call found) := by
  intro fuel
  induction fuel with
  | zero => intro st st' e ofs found h; cases h
  | succ fuel ih =>
    intro st st' e ofs found h
    obtain ⟨⟨st₁, r⟩, hr, h⟩ := Trace.bind_eq_ok h
    cases r with
    | inl next =>
      -- the scan reads on: one step, then the rest of the loop
      obtain ⟨k, hk⟩ := ih st₁ st' next.1 next.2 found h
      refine ⟨1 + k, ?_⟩
      have h1 : Interleave.solo dirStep 1 st (.lookup call ofs e) =
          .ok (st₁, .lookup call next.2 next.1) := by
        simp only [Interleave.solo, dirStep, hr]
        rfl
      rw [solo_then h1, hk]
    | inr answer =>
      simp only [Trace.pure_eq_ok, Prod.mk.injEq] at h
      obtain ⟨rfl, rfl⟩ := h
      refine ⟨1, ?_⟩
      simp only [Interleave.solo, dirStep, hr]
      rfl

/-- The free-slot scan, step by step, reaches the write at the slot the loop returns. -/
theorem freeSlotLoop_solo (dir : Dir) (name : List UInt8) (sector : Nat) :
    ∀ (fuel : Nat) (st st' : FsState) (e e' : Nat → UInt8) (ofs ofs' : Int),
      freeSlotLoop dir fuel st e ofs = .ok (st', e', ofs') →
        ∃ k, Interleave.solo dirStep k st (.freeSlot dir name sector ofs e) =
          .ok (st', .write dir name sector e' ofs') := by
  intro fuel
  induction fuel with
  | zero => intro st st' e e' ofs ofs' h; cases h
  | succ fuel ih =>
    intro st st' e e' ofs ofs' h
    obtain ⟨⟨st₁, e₁, next⟩, hr, h⟩ := Trace.bind_eq_ok h
    cases next with
    | some next =>
      obtain ⟨k, hk⟩ := ih st₁ st' e₁ e' next ofs' h
      refine ⟨1 + k, ?_⟩
      have h1 : Interleave.solo dirStep 1 st (.freeSlot dir name sector ofs e) =
          .ok (st₁, .freeSlot dir name sector next e₁) := by
        simp only [Interleave.solo, dirStep, hr]
        rfl
      rw [solo_then h1, hk]
    | none =>
      simp only [Trace.pure_eq_ok, Prod.mk.injEq] at h
      obtain ⟨rfl, rfl, rfl⟩ := h
      refine ⟨1, ?_⟩
      simp only [Interleave.solo, dirStep, hr]
      rfl

/-- A thread running alone returns what `dir_add` or `dir_remove` returns, in the same
state. -/
theorem dirCall_solo {st st' : FsState} {call : DirCall} {success : Bool}
    (h : dirCall st call = .ok (st', success)) :
    ∃ k, Interleave.solo dirStep k st (DirThread.start call) = .ok (st', .done success) := by
  cases call with
  | add dir name sector =>
    obtain ⟨⟨st₁, found⟩, hl, h⟩ := Trace.bind_eq_ok h
    obtain ⟨k₁, hk₁⟩ := lookupLoop_solo (.add dir name sector) _ _ _ _ _ _ hl
    cases found with
    | some found =>
      simp only [Option.isSome_some, if_true, Trace.pure_eq_ok, Prod.mk.injEq] at h
      obtain ⟨rfl, rfl⟩ := h
      exact ⟨k₁, hk₁⟩
    | none =>
      -- the name is free: the free-slot scan, then the write
      simp only [Option.isSome_none, Bool.false_eq_true, if_false] at h
      obtain ⟨⟨st₂, e, ofs⟩, hf, h⟩ := Trace.bind_eq_ok h
      obtain ⟨k₂, hk₂⟩ := freeSlotLoop_solo dir name sector _ _ _ _ _ _ _ hf
      refine ⟨k₁ + (k₂ + 1), ?_⟩
      rw [DirThread.start, solo_then hk₁, afterLookup, solo_then hk₂]
      simp only [Interleave.solo, dirStep, h]
      rfl
  | remove cwd dir name =>
    obtain ⟨⟨st₁, found⟩, hl, h⟩ := Trace.bind_eq_ok h
    obtain ⟨k₁, hk₁⟩ := lookupLoop_solo (.remove cwd dir name) _ _ _ _ _ _ hl
    cases found with
    | none =>
      simp only [Trace.pure_eq_ok, Prod.mk.injEq] at h
      obtain ⟨rfl, rfl⟩ := h
      exact ⟨k₁, hk₁⟩
    | some found =>
      obtain ⟨e, ofs⟩ := found
      refine ⟨k₁ + 1, ?_⟩
      rw [DirThread.start, solo_then hk₁, afterLookup]
      simp only [Interleave.solo, dirStep, h]
      rfl

/-- A schedule that runs the first call to its end and then the second gives the
sequential run of both. -/
theorem serial_calls {st st₁ st₂ : FsState} {c₁ c₂ : DirCall} {b₁ b₂ : Bool}
    (h₁ : dirCall st c₁ = .ok (st₁, b₁)) (h₂ : dirCall st₁ c₂ = .ok (st₂, b₂)) :
    ∃ k₁ k₂, Interleave.run dirStep (st, [DirThread.start c₁, DirThread.start c₂])
      (List.replicate k₁ 0 ++ List.replicate k₂ 1) = .ok (st₂, [.done b₁, .done b₂]) := by
  obtain ⟨k₁, hk₁⟩ := dirCall_solo h₁
  obtain ⟨k₂, hk₂⟩ := dirCall_solo h₂
  refine ⟨k₁, k₂, ?_⟩
  rw [Interleave.run_append, Interleave.run_replicate 0 k₁ st _ _ rfl, hk₁]
  show Interleave.run dirStep (st₁, [DirThread.done b₁, DirThread.start c₂])
    (List.replicate k₂ 1) = _
  rw [Interleave.run_replicate 1 k₂ st₁ _ _ rfl, hk₂]
  rfl

/-- On a formatted disk the root holds `..` and `.`, then 16 free entries. Two threads add
`a` and `b` to the root. Each `lookup` reads the 18 entries and the end of the file, and
each free-slot scan stops at offset `40`: 22 steps take thread `0` to its write, and 22
more take thread `1` to the same slot. Both writes return a whole entry, so both calls
return `true`, and `b` has overwritten `a`. -/
theorem concurrent_adds_lose_entry :
    (do
      let st ← filesysInit (Block.blank 256) true
      let (st, sa) ← freeMapAllocate st 1
      let (st, sb) ← freeMapAllocate st 1
      let (st, root) := dirOpenRoot st
      let (st, threads) ← Interleave.run dirStep
        (st, [DirThread.start (.add root (cstr "a") (sa.getD 0)),
          DirThread.start (.add root (cstr "b") (sb.getD 0))])
        (List.replicate 22 0 ++ List.replicate 22 1 ++ [0, 1])
      let (st, a) ← lookup st root (cstr "a")
      let (_, b) ← lookup st root (cstr "b")
      pure (threads.map DirThread.result, a.isSome, b.isSome)) =
      .ok ([some true, some true], false, true) := by
  decide +kernel

end Pintos.Filesys
