import Pintos.Filesys.Filesys

/-!
What `inode_resize` leaves in the on-disk inode it is handed.

* `inodeResize_true`: a resize that returns `true` stores the requested `off_t` as the new
  length, unless it returned at once on an inode without a tree asked to shrink to `0`;
* `inodeResize_false_length`: one that returns `false` leaves the length as it found it,
  through every level of its rollback.

Nothing bounds the size a resize accepts, and the rollback does not restore the pointer
to the doubly-indirect block or the free map; the runs after each theorem show both.
-/

namespace Pintos.Filesys

section

variable {ops : FreeMapOps} {st st' : FsState} {d d' : Sector}

theorem allocDoublyIndirect_eq_ok {r : Option Sector}
    (h : allocDoublyIndirect ops st d = .ok (st', r)) :
    r = some d ∨ r = none ∨ ∃ s, r = some (InodeDisk.setIndirectPtrIdx d s) := by
  unfold allocDoublyIndirect at h
  split at h
  · obtain ⟨⟨st1, r1⟩, -, h⟩ := Trace.bind_eq_ok h
    obtain ⟨-, rfl⟩ := Prod.mk.inj (Trace.pure_eq_ok.mp h)
    cases r1 with
    | none => exact .inr (.inl rfl)
    | some s => exact .inr (.inr ⟨s, rfl⟩)
  · exact .inl (Prod.mk.inj (Trace.pure_eq_ok.mp h)).2.symm

/-- The doubly-indirect pointer is the only field `allocDoublyIndirect` touches. -/
theorem allocDoublyIndirect_length {r : Option Sector}
    (h : allocDoublyIndirect ops st d = .ok (st', r)) :
    ∀ d₁ ∈ r, InodeDisk.length d₁ = InodeDisk.length d := by
  intro d₁ hd₁
  rcases allocDoublyIndirect_eq_ok h with rfl | rfl | ⟨s, rfl⟩
  · rw [← Option.mem_some_iff.mp hd₁]
  · cases hd₁
  · rw [← Option.mem_some_iff.mp hd₁, InodeDisk.length_setIndirectPtrIdx]

/-- `resizeTree` sets the length on success and hands `disk_inode` back untouched on
failure. -/
theorem resizeTree_eq_ok {size : Int} {ok : Bool}
    (h : resizeTree ops st d size = .ok (st', d', ok)) :
    (ok = true → -2 ^ 31 ≤ size → size < 2 ^ 31 → InodeDisk.length d' = size) ∧
      (ok = false → d' = d) := by
  unfold resizeTree at h
  obtain ⟨⟨st1, dbl⟩, -, h⟩ := Trace.bind_eq_ok h
  obtain ⟨⟨st2, dbl2, ok2⟩, -, h⟩ := Trace.bind_eq_ok h
  dsimp only at h
  split at h
  · obtain ⟨st3, -, h⟩ := Trace.bind_eq_ok h
    split at h
    · obtain ⟨st4, -, h⟩ := Trace.bind_eq_ok h
      simp only [Trace.pure_eq_ok, Prod.mk.injEq] at h
      obtain ⟨-, rfl, rfl⟩ := h
      exact ⟨fun _ => InodeDisk.length_setLength _ _, fun h => absurd h (by decide)⟩
    · simp only [Trace.pure_eq_ok, Prod.mk.injEq] at h
      obtain ⟨-, rfl, rfl⟩ := h
      exact ⟨fun _ => InodeDisk.length_setLength _ _, fun h => absurd h (by decide)⟩
  · simp only [Trace.pure_eq_ok, Prod.mk.injEq] at h
    obtain ⟨-, rfl, rfl⟩ := h
    exact ⟨fun h => absurd h (by decide), fun _ => rfl⟩

theorem resizeAfterAlloc_eq_ok {r : Option Sector} {size : Int} {ok : Bool}
    (h : resizeAfterAlloc ops st d r size = .ok (st', d', ok)) :
    (ok = true → -2 ^ 31 ≤ size → size < 2 ^ 31 → InodeDisk.length d' = size) ∧
      (ok = false → d' = d ∨ ∃ d₁ ∈ r, d' = d₁) := by
  cases r with
  | none =>
    simp only [resizeAfterAlloc, Trace.pure_eq_ok, Prod.mk.injEq] at h
    obtain ⟨-, rfl, rfl⟩ := h
    exact ⟨fun h => absurd h (by decide), fun _ => .inl rfl⟩
  | some d₁ =>
    obtain ⟨htrue, hfalse⟩ := resizeTree_eq_ok h
    exact ⟨htrue, fun hok => .inr ⟨d₁, rfl, hfalse hok⟩⟩

/-- A resize that returns `true` has stored `size` as the length, or returned at once
because there was no tree and `size` was `0`. -/
theorem inodeResize_true {depth : Nat} {size : Int} (hs0 : -2 ^ 31 ≤ size) (hs1 : size < 2 ^ 31)
    (h : inodeResize ops depth st d size = .ok (st', d', true)) :
    (InodeDisk.indirectPtrIdx d = 0 ∧ size = 0 ∧ d' = d) ∨ InodeDisk.length d' = size := by
  cases depth with
  | zero => cases h
  | succ depth =>
    unfold inodeResize at h
    split at h
    · next hearly =>
      simp only [Trace.pure_eq_ok, Prod.mk.injEq] at h
      obtain ⟨-, rfl, -⟩ := h
      exact .inl ⟨hearly.1, hearly.2, rfl⟩
    · obtain ⟨⟨st1, r⟩, -, h⟩ := Trace.bind_eq_ok h
      obtain ⟨⟨st2, d2, ok⟩, h2, h⟩ := Trace.bind_eq_ok h
      dsimp only at h
      split at h
      · next hok =>
        simp only [Trace.pure_eq_ok, Prod.mk.injEq] at h
        obtain ⟨-, rfl, -⟩ := h
        exact .inr ((resizeAfterAlloc_eq_ok h2).1 hok hs0 hs1)
      · -- the rollback branch always returns `false`
        obtain ⟨⟨st3, d3, b⟩, -, h⟩ := Trace.bind_eq_ok h
        simp only [Trace.pure_eq_ok, Prod.mk.injEq] at h
        exact absurd h.2.2 (by decide)

/-- On a 512-byte file of a formatted disk, `inode_resize (disk_inode, -1)` frees the data
and indirect blocks, returns `true`, and stores the length `-1`: no check bounds `size`
from below, or by `MAX_FILE_SIZE` from above. -/
theorem resize_accepts_negative_size :
    (do
      let st ← filesysInit (Block.blank 256) true
      let (st, sector) ← freeMapAllocate st 1
      let (st, _) ← inodeCreate freeMapOps st (sector.getD 0) 512
      let (st, d) ← st.cacheRead (sector.getD 0)
      let (_, d, ok) ← inodeResize freeMapOps resizeDepth st d (-1)
      pure (ok, InodeDisk.length d)) = .ok (true, -1) := by
  decide +kernel

/-- A resize that returns `false` leaves the length of `disk_inode` as it was: the
rollback resizes back to `original_length`, and a rollback that fails in turn is covered
by induction on the depth. -/
theorem inodeResize_false_length :
    ∀ {depth : Nat} {st st' : FsState} {d d' : Sector} {size : Int},
      inodeResize ops depth st d size = .ok (st', d', false) →
        InodeDisk.length d' = InodeDisk.length d
  | 0, _, _, _, _, _, h => by cases h
  | depth + 1, st, st', d, d', size, h => by
    unfold inodeResize at h
    split at h
    · simp only [Trace.pure_eq_ok, Prod.mk.injEq] at h
      exact absurd h.2.2 (by decide)
    · obtain ⟨⟨st1, r⟩, h1, h⟩ := Trace.bind_eq_ok h
      obtain ⟨⟨st2, d2, ok⟩, h2, h⟩ := Trace.bind_eq_ok h
      obtain ⟨l0, l1⟩ := InodeDisk.length_range d
      -- `original_length` round-trips through `size_t`
      have horig : CInt.i32 (CInt.u32 (InodeDisk.length d)) = InodeDisk.length d := by
        rw [CInt.i32_u32, CInt.i32_of_range l0 l1]
      have hd2 : ok = false → InodeDisk.length d2 = InodeDisk.length d := by
        intro hok
        rcases (resizeAfterAlloc_eq_ok h2).2 hok with rfl | ⟨d₁, hd₁, hd⟩
        · rfl
        · rw [hd]
          exact allocDoublyIndirect_length h1 d₁ hd₁
      dsimp only at h
      split at h
      · simp only [Trace.pure_eq_ok, Prod.mk.injEq] at h
        exact absurd h.2.2 (by decide)
      · next hok =>
        have hlen2 := hd2 (by simpa using hok)
        obtain ⟨⟨st3, d3, b⟩, h3, h⟩ := Trace.bind_eq_ok h
        simp only [Trace.pure_eq_ok, Prod.mk.injEq] at h
        obtain ⟨-, rfl, -⟩ := h
        rw [horig] at h3
        cases b with
        | false => rw [inodeResize_false_length h3, hlen2]
        | true =>
          rcases inodeResize_true l0 l1 h3 with ⟨-, -, rfl⟩ | hlen
          · exact hlen2
          · exact hlen

/-- A formatted 12-sector disk with a new empty inode at sector `8`, its doubly-indirect
block at `9`, has sectors `10` and `11` free. Growing the inode to 1024 bytes needs three
sectors, so the third allocation fails. The rollback re-reads the doubly-indirect block,
which does not yet point to the new indirect block, frees nothing under it, and, asked for
length `0`, releases the doubly-indirect block itself: the call returns `false` with
`indirect_ptr_idx` cleared, sector `9` free, and the new sectors `10` and `11` still in
use. -/
theorem failed_resize_rollback_changes_free_map :
    (do
      let st ← filesysInit (Block.blank 12) true
      let (st, sector) ← freeMapAllocate st 1
      let (st, _) ← inodeCreate freeMapOps st (sector.getD 0) 0
      let (st, d) ← st.cacheRead (sector.getD 0)
      let (st', d', ok) ← inodeResize freeMapOps resizeDepth st d 1024
      pure (ok, st.freeMap.drop 8, st'.freeMap.drop 8,
        InodeDisk.indirectPtrIdx d, InodeDisk.indirectPtrIdx d')) =
      .ok (false, [true, true, false, false], [true, false, true, true], 9, 0) := by
  decide +kernel

end

end Pintos.Filesys
