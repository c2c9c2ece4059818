import Pintos.Filesys.Resize
import Pintos.Lib.Loop

/-!
The read and write loops of `inode_read_at` and `inode_write_at`.

* `chunkSize_le`: a round that copies anything copies at most the bytes still asked for;
* `readRound_some`, `writeRound_some`: a round that goes on copies a chunk of `1` to
  `size` bytes and counts it;
* `readLoop_eq_run`, `writeLoop_eq_run`: each loop is a `Loop.run` of its round, so the
  loop rules apply;
* `readLoop_fuel`, `writeLoop_fuel`: `size` rounds end either loop, and the loop models
  give the same result with any more fuel;
* `inodeReadAt_bytes`, `inodeWriteAt_bytes`: both calls return between `0` and `size`;
* `inodeReadAt_past_length`: a read at or past the end of the file copies nothing.

A partial-sector write to a sector that has left the cache starts from zeros, and the
run at the end shows a file losing a byte that way.
-/
namespace Pintos.Filesys

/-! ## Reads through the cache -/

/-- `cache_read` of a whole sector returns the sector as the cache shows it and changes
nothing that the cache shows. -/
theorem cacheRead_eq_ok {st st' : Store} {k : Nat} {d : Sector} (hv : st.Valid)
    (h : cacheRead st k = .ok (st', d)) : st'.Valid ∧ st'.view = st.view ∧ d = st.view k := by
  obtain ⟨⟨st1, buf⟩, h1, h⟩ := Trace.bind_eq_ok h
  simp only [Trace.pure_eq_ok, Prod.mk.injEq] at h
  obtain ⟨rfl, rfl⟩ := h
  obtain ⟨hv', hview, -, rfl⟩ := cacheReadWithSizeAndOffset_eq_ok hv h1
  refine ⟨hv', hview, funext fun j => ?_⟩
  simp [Sector.read, j.isLt]

theorem FsState.cacheRead_eq_ok {st st' : FsState} {k : Nat} {d : Sector} (hv : st.store.Valid)
    (h : st.cacheRead k = .ok (st', d)) :
    st'.store.Valid ∧ st'.store.view = st.store.view ∧ d = st.store.view k := by
  obtain ⟨⟨store, d'⟩, h1, h⟩ := Trace.bind_eq_ok h
  simp only [Trace.pure_eq_ok, Prod.mk.injEq] at h
  obtain ⟨rfl, rfl⟩ := h
  exact Filesys.cacheRead_eq_ok hv h1

/-- `byte_to_sector` of a position at or past the length in the inode's sector is `-1`. -/
theorem byteToSector_past {st st' : FsState} {inode : Inode} {pos : Int} {s : Nat}
    (hv : st.store.Valid) (hlen : InodeDisk.length (st.store.view inode.sector) ≤ pos)
    (h : byteToSector st inode pos = .ok (st', s)) : s = NO_SECTOR := by
  obtain ⟨⟨st1, d⟩, h1, h⟩ := Trace.bind_eq_ok h
  obtain ⟨-, -, rfl⟩ := FsState.cacheRead_eq_ok hv h1
  dsimp only at h
  rw [if_neg (not_lt.mpr hlen)] at h
  simp only [Trace.pure_eq_ok, Prod.mk.injEq] at h
  exact h.2.symm

/-! ## One round of each loop -/

/-- The chunk of a round, when positive, is no more than `size`: a negative `min_left`
compares above `size` as an unsigned value, so the chunk is then `size` itself. -/
theorem chunkSize_le {len : Int} {size offset : Nat} (hsize : size < 2 ^ 32)
    (hpos : 0 < chunkSize len size offset) : chunkSize len size offset ≤ size := by
  unfold chunkSize at hpos ⊢
  have hm := CInt.u32_lt (minLeft len offset)
  -- the value before the conversion back to `int` is one of two below `2^32`
  generalize hv : (if (size : Int) < CInt.u32 (minLeft len offset) then (size : Int)
    else (CInt.u32 (minLeft len offset) : Int)) = v at hpos ⊢
  have hle : 0 ≤ v ∧ v ≤ size ∧ v < 2 ^ 32 := by
    split at hv <;> omega
  rw [CInt.i32_eq_of_pos hle.1 hle.2.2 hpos]
  exact hle.2.1

/-- What a round that copies a positive chunk leaves to copy, `size - chunk` as a
`size_t`, is `size - chunk` itself. -/
theorem nextSize_eq {len : Int} {size offset : Nat} (hsize : size < 2 ^ 32)
    (hpos : ¬chunkSize len size offset ≤ 0) :
    (CInt.u32 (size - chunkSize len size offset) : Int) = size - chunkSize len size offset := by
  have hle : chunkSize len size offset ≤ size := chunkSize_le hsize (by omega)
  exact CInt.u32_of_lt (by omega) (by omega)

/-- A round of the read loop that goes on copies a chunk `c` of `1` to `size` bytes: what
is left to copy drops by `c`, and `bytes_read` grows by `c` as an `int`. -/
theorem readRound_some {inode : Inode} {st st' : FsState} {buffer buffer' : Nat → UInt8}
    {size offset size' offset' : Nat} {bytesRead bytesRead' : Int} (hsize : size < 2 ^ 32)
    (h : readRound inode st buffer size offset bytesRead =
      .ok (st', buffer', some (size', offset', bytesRead'))) :
    ∃ c : Int, 0 < c ∧ c ≤ size ∧ (size' : Int) = size - c ∧
      bytesRead' = CInt.i32 (bytesRead + c) := by
  unfold readRound at h
  obtain ⟨⟨st1, sectorIdx⟩, -, h⟩ := Trace.bind_eq_ok h
  dsimp only at h
  split at h
  · simp only [Trace.pure_eq_ok, Prod.mk.injEq, reduceCtorEq, and_false] at h
  · obtain ⟨⟨st2, len⟩, -, h⟩ := Trace.bind_eq_ok h
    dsimp only at h
    split at h
    · simp only [Trace.pure_eq_ok, Prod.mk.injEq, reduceCtorEq, and_false] at h
    · next hchunk =>
      obtain ⟨⟨store, out⟩, -, h⟩ := Trace.bind_eq_ok h
      simp only [Trace.pure_eq_ok, Prod.mk.injEq, Option.some.injEq] at h
      obtain ⟨-, -, hsize', -, hbytes⟩ := h
      refine ⟨chunkSize len size offset, by omega, chunkSize_le hsize (by omega), ?_, hbytes.symm⟩
      rw [← hsize', nextSize_eq hsize hchunk]

/-- A round at or past the length of the file stops the loop with the buffer untouched:
`byte_to_sector` gives `-1`. -/
theorem readRound_past {inode : Inode} {st st' : FsState} {buffer buffer' : Nat → UInt8}
    {size offset : Nat} {bytesRead : Int} {next : Option (Nat × Nat × Int)}
    (hv : st.store.Valid) (hlen : InodeDisk.length (st.store.view inode.sector) ≤ CInt.i32 offset)
    (h : readRound inode st buffer size offset bytesRead = .ok (st', buffer', next)) :
    buffer' = buffer ∧ next = none := by
  unfold readRound at h
  obtain ⟨⟨st1, sectorIdx⟩, h1, h⟩ := Trace.bind_eq_ok h
  dsimp only at h
  rw [if_pos (byteToSector_past hv hlen h1)] at h
  simp only [Trace.pure_eq_ok, Prod.mk.injEq] at h
  exact ⟨h.2.1.symm, h.2.2.symm⟩

/-- A round of the write loop that goes on copies a chunk `c` of `1` to `size` bytes. -/
theorem writeRound_some {inode : Inode} {buffer : Nat → UInt8} {st st' : FsState}
    {size offset size' offset' : Nat} {bytesWritten bytesWritten' : Int}
    (hsize : size < 2 ^ 32)
    (h : writeRound inode buffer st size offset bytesWritten =
      .ok (st', some (size', offset', bytesWritten'))) :
    ∃ c : Int, 0 < c ∧ c ≤ size ∧ (size' : Int) = size - c ∧
      bytesWritten' = CInt.i32 (bytesWritten + c) := by
  unfold writeRound at h
  obtain ⟨⟨st1, sectorIdx⟩, -, h⟩ := Trace.bind_eq_ok h
  obtain ⟨⟨st2, len⟩, -, h⟩ := Trace.bind_eq_ok h
  dsimp only at h
  split at h
  · simp only [Trace.pure_eq_ok, Prod.mk.injEq, reduceCtorEq, and_false] at h
  · next hchunk =>
    obtain ⟨store, -, h⟩ := Trace.bind_eq_ok h
    simp only [Trace.pure_eq_ok, Prod.mk.injEq, Option.some.injEq] at h
    obtain ⟨-, hsize', -, hbytes⟩ := h
    refine ⟨chunkSize len size offset, by omega, chunkSize_le hsize (by omega), ?_, hbytes.symm⟩
    rw [← hsize', nextSize_eq hsize hchunk]

/-! ## The loops as fuel loops -/

/-- A round of `readLoop` as the body of a loop over `(st, buffer, size, offset,
bytes_read)`: the test `size > 0`, then `readRound`. -/
def readBody (inode : Inode) (a : FsState × (Nat → UInt8) × Nat × Nat × Int) :
    Except Fault
      ((FsState × (Nat → UInt8) × Int) ⊕ (FsState × (Nat → UInt8) × Nat × Nat × Int)) :=
  let (st, buffer, size, offset, bytesRead) := a
  if size = 0 then pure (.inl (st, buffer, bytesRead))
  else do
    let (st, buffer, next) ← readRound inode st buffer size offset bytesRead
    match next with
    | none => pure (.inl (st, buffer, bytesRead))
    | some (size, offset, bytesRead) => pure (.inr (st, buffer, size, offset, bytesRead))

/-- What `readLoop` returns when its fuel runs out. -/
def readExhausted (a : FsState × (Nat → UInt8) × Nat × Nat × Int) :
    Except Fault (FsState × (Nat → UInt8) × Int) :=
  pure (a.1, a.2.1, a.2.2.2.2)

theorem readLoop_eq_run (inode : Inode) :
    ∀ (fuel : Nat) (st : FsState) (buffer : Nat → UInt8) (size offset : Nat) (bytesRead : Int),
      readLoop inode fuel st buffer size offset bytesRead =
        Loop.run (readBody inode) readExhausted fuel (st, buffer, size, offset, bytesRead) := by
  intro fuel
  induction fuel with
  | zero => intros; rfl
  | succ fuel ih =>
    intro st buffer size offset bytesRead
    simp only [readLoop, Loop.run, readBody]
    split
    · rfl
    · cases readRound inode st buffer size offset bytesRead with
      | error e => rfl
      | ok r =>
        obtain ⟨st', buffer', next⟩ := r
        cases next with
        | none => rfl
        | some next =>
          obtain ⟨size', offset', bytesRead'⟩ := next
          exact ih st' buffer' size' offset' bytesRead'

/-- A round of the read loop that stops returns the count it was given. -/
theorem readBody_stop {inode : Inode} {a : FsState × (Nat → UInt8) × Nat × Nat × Int}
    {b : FsState × (Nat → UInt8) × Int} (h : readBody inode a = .ok (.inl b)) :
    b.2.2 = a.2.2.2.2 := by
  obtain ⟨st, buffer, size, offset, bytesRead⟩ := a
  unfold readBody at h
  dsimp only at h
  split at h
  · simp only [Trace.pure_eq_ok, Sum.inl.injEq] at h
    rw [← h]
  · obtain ⟨⟨st1, buffer1, next⟩, -, h⟩ := Trace.bind_eq_ok h
    cases next with
    | none =>
      simp only [Trace.pure_eq_ok, Sum.inl.injEq] at h
      rw [← h]
    | some next => simp only [Trace.pure_eq_ok, reduceCtorEq] at h

/-- A round of the read loop that goes on is a `readRound` that goes on. -/
theorem readBody_next {inode : Inode} {st st' : FsState} {buffer buffer' : Nat → UInt8}
    {size offset size' offset' : Nat} {bytesRead bytesRead' : Int} (hsize : size < 2 ^ 32)
    (h : readBody inode (st, buffer, size, offset, bytesRead) =
      .ok (.inr (st', buffer', size', offset', bytesRead'))) :
    ∃ c : Int, 0 < c ∧ c ≤ size ∧ (size' : Int) = size - c ∧
      bytesRead' = CInt.i32 (bytesRead + c) := by
  unfold readBody at h
  dsimp only at h
  split at h
  · simp only [Trace.pure_eq_ok, reduceCtorEq] at h
  · obtain ⟨⟨st1, buffer1, next⟩, hr, h⟩ := Trace.bind_eq_ok h
    cases next with
    | none => simp only [Trace.pure_eq_ok, reduceCtorEq] at h
    | some next =>
      simp only [Trace.pure_eq_ok, Sum.inr.injEq, Prod.mk.injEq] at h
      obtain ⟨rfl, rfl, rfl, rfl, rfl⟩ := h
      exact readRound_some hsize hr

/-- A round of `writeLoop` as the body of a loop over `(st, size, offset,
bytes_written)`. -/
def writeBody (inode : Inode) (buffer : Nat → UInt8) (a : FsState × Nat × Nat × Int) :
    Except Fault ((FsState × Int) ⊕ (FsState × Nat × Nat × Int)) :=
  let (st, size, offset, bytesWritten) := a
  if size = 0 then pure (.inl (st, bytesWritten))
  else do
    let (st, next) ← writeRound inode buffer st size offset bytesWritten
    match next with
    | none => pure (.inl (st, bytesWritten))
    | some (size, offset, bytesWritten) => pure (.inr (st, size, offset, bytesWritten))

/-- What `writeLoop` returns when its fuel runs out. -/
def writeExhausted (a : FsState × Nat × Nat × Int) : Except Fault (FsState × Int) :=
  pure (a.1, a.2.2.2)

theorem writeLoop_eq_run (inode : Inode) (buffer : Nat → UInt8) :
    ∀ (fuel : Nat) (st : FsState) (size offset : Nat) (bytesWritten : Int),
      writeLoop inode buffer fuel st size offset bytesWritten =
        Loop.run (writeBody inode buffer) writeExhausted fuel (st, size, offset, bytesWritten) := by
  intro fuel
  induction fuel with
  | zero => intros; rfl
  | succ fuel ih =>
    intro st size offset bytesWritten
    simp only [writeLoop, Loop.run, writeBody]
    split
    · rfl
    · cases writeRound inode buffer st size offset bytesWritten with
      | error e => rfl
      | ok r =>
        obtain ⟨st', next⟩ := r
        cases next with
        | none => rfl
        | some next =>
          obtain ⟨size', offset', bytesWritten'⟩ := next
          exact ih st' size' offset' bytesWritten'

/-- A round of the write loop that stops returns the count it was given. -/
theorem writeBody_stop {inode : Inode} {buffer : Nat → UInt8} {a : FsState × Nat × Nat × Int}
    {b : FsState × Int} (h : writeBody inode buffer a = .ok (.inl b)) : b.2 = a.2.2.2 := by
  obtain ⟨st, size, offset, bytesWritten⟩ := a
  unfold writeBody at h
  dsimp only at h
  split at h
  · simp only [Trace.pure_eq_ok, Sum.inl.injEq] at h
    rw [← h]
  · obtain ⟨⟨st1, next⟩, -, h⟩ := Trace.bind_eq_ok h
    cases next with
    | none =>
      simp only [Trace.pure_eq_ok, Sum.inl.injEq] at h
      rw [← h]
    | some next => simp only [Trace.pure_eq_ok, reduceCtorEq] at h

/-- A round of the write loop that goes on is a `writeRound` that goes on. -/
theorem writeBody_next {inode : Inode} {buffer : Nat → UInt8} {st st' : FsState}
    {size offset size' offset' : Nat} {bytesWritten bytesWritten' : Int}
    (hsize : size < 2 ^ 32)
    (h : writeBody inode buffer (st, size, offset, bytesWritten) =
      .ok (.inr (st', size', offset', bytesWritten'))) :
    ∃ c : Int, 0 < c ∧ c ≤ size ∧ (size' : Int) = size - c ∧
      bytesWritten' = CInt.i32 (bytesWritten + c) := by
  unfold writeBody at h
  dsimp only at h
  split at h
  · simp only [Trace.pure_eq_ok, reduceCtorEq] at h
  · obtain ⟨⟨st1, next⟩, hr, h⟩ := Trace.bind_eq_ok h
    cases next with
    | none => simp only [Trace.pure_eq_ok, reduceCtorEq] at h
    | some next =>
      simp only [Trace.pure_eq_ok, Sum.inr.injEq, Prod.mk.injEq] at h
      obtain ⟨rfl, rfl, rfl, rfl⟩ := h
      exact writeRound_some hsize hr

/-! ## The loops -/

/-- The read loop ends within `size` rounds: more fuel gives the same result. The
variant is what is left to copy. -/
theorem readLoop_fuel (inode : Inode) :
    ∀ (size fuel : Nat) (st : FsState) (buffer : Nat → UInt8) (offset : Nat) (bytesRead : Int),
      size ≤ fuel → size < 2 ^ 32 →
        readLoop inode fuel st buffer size offset bytesRead =
          readLoop inode size st buffer size offset bytesRead := by
  intro size fuel st buffer offset bytesRead hfuel hsize
  rw [readLoop_eq_run, readLoop_eq_run]
  refine Loop.run_fuel (fun a : FsState × (Nat → UInt8) × Nat × Nat × Int => a.2.2.1 < 2 ^ 32)
    (fun a => a.2.2.1) ?_ ?_ fuel _ hsize hfuel
  · rintro ⟨st, buffer, size, offset, bytesRead⟩ ⟨st', buffer', size', offset', bytesRead'⟩ hs h
    dsimp only at hs ⊢
    obtain ⟨c, hc, -, hsize', -⟩ := readBody_next hs h
    omega
  · rintro ⟨st, buffer, size, offset, bytesRead⟩ - h0
    dsimp only at h0
    subst h0
    rfl

/-- A disk of four sectors holding a file of one byte, `7`: its inode in sector `0`, the
doubly indirect block in `1`, the indirect block in `2` and the data in `3`; the cache is
empty and the inode open. -/
def oneByteFile : FsState where
  store := ⟨⟨4, fun s =>
    if s = 0 then (Sector.zero.setU32 4 1).setU32 8 1
    else if s = 1 then Sector.zero.setU32 0 2
    else if s = 2 then Sector.zero.setU32 0 3
    else fun _ => 7⟩, []⟩
  freeMap := [true, true, true, true]
  freeMapFile := none
  openInodes := [⟨0, 0, 1, 0, false⟩]
  nextId := 1

theorem readLoop_fuel_oneByteFile :
    4 ≤ 5 ∧ 4 < 2 ^ 32 ∧
      readLoop ⟨0, 0, 1, 0, false⟩ 5 oneByteFile (fun _ => 0) 4 0 0 =
        readLoop ⟨0, 0, 1, 0, false⟩ 4 oneByteFile (fun _ => 0) 4 0 0 :=
  ⟨by decide, by decide, readLoop_fuel _ 4 5 oneByteFile _ 0 0 (by decide) (by decide)⟩

/-- The write loop ends within `size` rounds: more fuel gives the same result. -/
theorem writeLoop_fuel (inode : Inode) (buffer : Nat → UInt8) :
    ∀ (size fuel : Nat) (st : FsState) (offset : Nat) (bytesWritten : Int),
      size ≤ fuel → size < 2 ^ 32 →
        writeLoop inode buffer fuel st size offset bytesWritten =
          writeLoop inode buffer size st size offset bytesWritten := by
  intro size fuel st offset bytesWritten hfuel hsize
  rw [writeLoop_eq_run, writeLoop_eq_run]
  refine Loop.run_fuel (fun a : FsState × Nat × Nat × Int => a.2.1 < 2 ^ 32) (fun a => a.2.1)
    ?_ ?_ fuel _ hsize hfuel
  · rintro ⟨st, size, offset, bytesWritten⟩ ⟨st', size', offset', bytesWritten'⟩ hs h
    dsimp only at hs ⊢
    obtain ⟨c, hc, -, hsize', -⟩ := writeBody_next hs h
    omega
  · rintro ⟨st, size, offset, bytesWritten⟩ - h0
    dsimp only at h0
    subst h0
    rfl

theorem writeLoop_fuel_oneByteFile :
    4 ≤ 5 ∧ 4 < 2 ^ 32 ∧
      writeLoop ⟨0, 0, 1, 0, false⟩ (fun _ => 9) 5 oneByteFile 4 0 0 =
        writeLoop ⟨0, 0, 1, 0, false⟩ (fun _ => 9) 4 oneByteFile 4 0 0 :=
  ⟨by decide, by decide, writeLoop_fuel _ _ 4 5 oneByteFile 0 0 (by decide) (by decide)⟩

/-- The read loop returns what it had read plus at most what is left to copy. The
invariant: the count only grows, and the count plus what is left never passes what was
asked for, so it stays in the range of an `int`. -/
theorem readLoop_bytes (inode : Inode) :
    ∀ (fuel : Nat) (st st' : FsState) (buffer buffer' : Nat → UInt8) (size offset : Nat)
      (bytesRead n : Int), size < 2 ^ 32 → 0 ≤ bytesRead → bytesRead + size < 2 ^ 31 →
      readLoop inode fuel st buffer size offset bytesRead = .ok (st', buffer', n) →
        bytesRead ≤ n ∧ n ≤ bytesRead + size := by
  intro fuel st st' buffer buffer' size offset bytesRead n hsize h0 hmax h
  rw [readLoop_eq_run] at h
  refine Loop.run_invariant
    (fun a => a.2.2.1 < 2 ^ 32 ∧ bytesRead ≤ a.2.2.2.2 ∧ a.2.2.2.2 + a.2.2.1 ≤ bytesRead + size)
    (fun b => bytesRead ≤ b.2.2 ∧ b.2.2 ≤ bytesRead + size) ?_ ?_ ?_ fuel _ _
    ⟨hsize, le_rfl, le_rfl⟩ h
  · rintro ⟨_, _, size₁, _, bytesRead₁⟩ b ⟨-, h₁, h₂⟩ hb
    simp only [readExhausted, Trace.pure_eq_ok] at hb
    subst hb
    dsimp only at h₁ h₂ ⊢
    omega
  · rintro ⟨_, _, size₁, _, bytesRead₁⟩ b ⟨-, h₁, h₂⟩ hb
    have hstop := readBody_stop hb
    dsimp only at h₁ h₂ hstop ⊢
    omega
  · rintro ⟨_, _, size₁, _, bytesRead₁⟩ ⟨_, _, size₂, _, bytesRead₂⟩ ⟨hs, h₁, h₂⟩ hb
    dsimp only at hs h₁ h₂ ⊢
    obtain ⟨c, hc, hcs, hsize₂, hbytes⟩ := readBody_next hs hb
    rw [CInt.i32_of_range (by omega) (by omega)] at hbytes
    omega

/-- The write loop returns what it had written plus at most what is left to copy, by the
same invariant as the read loop's. -/
theorem writeLoop_bytes (inode : Inode) (buffer : Nat → UInt8) :
    ∀ (fuel : Nat) (st st' : FsState) (size offset : Nat) (bytesWritten n : Int),
      size < 2 ^ 32 → 0 ≤ bytesWritten → bytesWritten + size < 2 ^ 31 →
      writeLoop inode buffer fuel st size offset bytesWritten = .ok (st', n) →
        bytesWritten ≤ n ∧ n ≤ bytesWritten + size := by
  intro fuel st st' size offset bytesWritten n hsize h0 hmax h
  rw [writeLoop_eq_run] at h
  refine Loop.run_invariant
    (fun a => a.2.1 < 2 ^ 32 ∧ bytesWritten ≤ a.2.2.2 ∧ a.2.2.2 + a.2.1 ≤ bytesWritten + size)
    (fun b => bytesWritten ≤ b.2 ∧ b.2 ≤ bytesWritten + size) ?_ ?_ ?_ fuel _ _
    ⟨hsize, le_rfl, le_rfl⟩ h
  · rintro ⟨_, size₁, _, bytesWritten₁⟩ b ⟨-, h₁, h₂⟩ hb
    simp only [writeExhausted, Trace.pure_eq_ok] at hb
    subst hb
    dsimp only at h₁ h₂ ⊢
    omega
  · rintro ⟨_, size₁, _, bytesWritten₁⟩ b ⟨-, h₁, h₂⟩ hb
    have hstop := writeBody_stop hb
    dsimp only at h₁ h₂ hstop ⊢
    omega
  · rintro ⟨_, size₁, _, bytesWritten₁⟩ ⟨_, size₂, _, bytesWritten₂⟩ ⟨hs, h₁, h₂⟩ hb
    dsimp only at hs h₁ h₂ ⊢
    obtain ⟨c, hc, hcs, hsize₂, hbytes⟩ := writeBody_next hs hb
    rw [CInt.i32_of_range (by omega) (by omega)] at hbytes
    omega

/-- `inode_read_at` of a `size` in the range of an `off_t` returns between `0` and `size`
bytes. -/
theorem inodeReadAt_bytes {st st' : FsState} {id size offset : Nat} {buffer buffer' : Nat → UInt8}
    {n : Int} (hsize : size < 2 ^ 31)
    (h : inodeReadAt st id buffer size offset = .ok (st', buffer', n)) : 0 ≤ n ∧ n ≤ size := by
  unfold inodeReadAt at h
  obtain ⟨inode, -, h⟩ := Trace.bind_eq_ok h
  have := readLoop_bytes inode size st st' buffer buffer' size offset 0 n (by omega) le_rfl
    (by omega) h
  omega

theorem inodeReadAt_bytes_oneByteFile :
    (4 : Nat) < 2 ^ 31 ∧ ∃ st' buffer' n,
      inodeReadAt oneByteFile 0 (fun _ => 0) 4 0 = .ok (st', buffer', n) ∧ 0 ≤ n ∧ n ≤ 4 := by
  have hn : (inodeReadAt oneByteFile 0 (fun _ => 0) 4 0).map (·.2.2) = .ok 1 := by
    decide
  obtain ⟨⟨st', buffer', n⟩, h, -⟩ := Trace.map_eq_ok hn
  exact ⟨by decide, st', buffer', n, h, inodeReadAt_bytes (by decide) h⟩

/-- `inode_write_at` of a `size` in the range of an `off_t` returns between `0` and `size`
bytes, also when writes are denied or the file cannot grow. -/
theorem inodeWriteAt_bytes {ops : FreeMapOps} {st st' : FsState} {id size offset : Nat}
    {buffer : Nat → UInt8} {n : Int} (hsize : size < 2 ^ 31)
    (h : inodeWriteAt ops st id buffer size offset = .ok (st', n)) : 0 ≤ n ∧ n ≤ size := by
  unfold inodeWriteAt at h
  obtain ⟨inode, -, h⟩ := Trace.bind_eq_ok h
  split at h
  · simp only [Trace.pure_eq_ok, Prod.mk.injEq] at h
    omega
  · obtain ⟨⟨st1, ok⟩, -, h⟩ := Trace.bind_eq_ok h
    dsimp only at h
    split at h
    · have := writeLoop_bytes inode buffer size st1 st' size offset 0 n (by omega) le_rfl
        (by omega) h
      omega
    · simp only [Trace.pure_eq_ok, Prod.mk.injEq] at h
      omega

theorem inodeWriteAt_bytes_oneByteFile :
    (1 : Nat) < 2 ^ 31 ∧ ∃ st' n,
      inodeWriteAt freeMapOps oneByteFile 0 (fun _ => 9) 1 0 = .ok (st', n) ∧ 0 ≤ n ∧ n ≤ 1 := by
  have hn : (inodeWriteAt freeMapOps oneByteFile 0 (fun _ => 9) 1 0).map Prod.snd = .ok 1 := by
    decide
  obtain ⟨⟨st', n⟩, h, -⟩ := Trace.map_eq_ok hn
  exact ⟨by decide, st', n, h, inodeWriteAt_bytes (by decide) h⟩

/-- A read at or past the end of the file copies nothing: from a valid cache,
`inode_read_at` at an `offset` no less than the inode's length returns `0` and leaves the
buffer as it was. -/
theorem inodeReadAt_past_length {st st' : FsState} {id size offset : Nat} {inode : Inode}
    {buffer buffer' : Nat → UInt8} {n : Int} (hv : st.store.Valid)
    (hi : st.getInode id = .ok inode)
    (hlen : InodeDisk.length (st.store.view inode.sector) ≤ offset) (hoff : offset < 2 ^ 31)
    (h : inodeReadAt st id buffer size offset = .ok (st', buffer', n)) :
    n = 0 ∧ buffer' = buffer := by
  unfold inodeReadAt at h
  rw [hi, Trace.ok_bind] at h
  cases size with
  | zero =>
    simp only [readLoop, Trace.pure_eq_ok, Prod.mk.injEq] at h
    exact ⟨h.2.2.symm, h.2.1.symm⟩
  | succ s =>
    simp only [readLoop, Nat.add_one_ne_zero, if_false] at h
    obtain ⟨⟨st1, buffer1, next⟩, hr, h⟩ := Trace.bind_eq_ok h
    have hpos : InodeDisk.length (st.store.view inode.sector) ≤ CInt.i32 offset := by
      rw [CInt.i32_of_range (by omega) (by omega)]
      exact hlen
    obtain ⟨rfl, rfl⟩ := readRound_past hv hpos hr
    simp only [Trace.pure_eq_ok, Prod.mk.injEq] at h
    exact ⟨h.2.2.symm, h.2.1.symm⟩

theorem inodeReadAt_past_length_oneByteFile :
    oneByteFile.store.Valid ∧ oneByteFile.getInode 0 = .ok ⟨0, 0, 1, 0, false⟩ ∧
      InodeDisk.length (oneByteFile.store.view 0) ≤ (1 : Nat) ∧ 1 < 2 ^ 31 ∧
      ∃ st' buffer' n, inodeReadAt oneByteFile 0 (fun _ => 5) 4 1 = .ok (st', buffer', n) ∧
        n = 0 ∧ buffer' = fun _ => 5 := by
  have hv : oneByteFile.store.Valid := WriteBack.valid_nil _ _
  have hi : oneByteFile.getInode 0 = .ok ⟨0, 0, 1, 0, false⟩ := rfl
  have hlen : InodeDisk.length (oneByteFile.store.view 0) ≤ (1 : Nat) := by decide
  have hn : (inodeReadAt oneByteFile 0 (fun _ => 5) 4 1).map (·.2.2) = .ok 0 := by
    decide
  obtain ⟨⟨st', buffer', n⟩, h, -⟩ := Trace.map_eq_ok hn
  exact ⟨hv, hi, hlen, by decide, st', buffer', n, h,
    inodeReadAt_past_length hv hi hlen (by decide) h⟩

/-- On a formatted disk, file `A` (one sector, at sector `8`) gets the byte `7` at offset
`0`. Creating a 64-sector file `B` then writes 66 other sectors through the cache and
evicts `A`'s data sector. The write of `9` at offset `1` misses, and
`cache_write_with_size_and_offset` starts the sector from zeros instead of reading it: both
writes return `1`, the read of two bytes at `0` returns `2`, and byte `0` reads `0`. -/
theorem partial_write_after_eviction_loses_byte :
    (do
      let st ← filesysInit (Block.blank 256) true
      let (st, sa) ← freeMapAllocate st 1
      let (st, sb) ← freeMapAllocate st 1
      let (st, _) ← inodeCreate freeMapOps st (sa.getD 0) BLOCK_SECTOR_SIZE
      let (st, a) := inodeOpen st (sa.getD 0)
      let (st, w1) ← inodeWriteAt freeMapOps st a (fun _ => 7) 1 0
      let (st, _) ← inodeCreate freeMapOps st (sb.getD 0) (64 * BLOCK_SECTOR_SIZE)
      let (st, w2) ← inodeWriteAt freeMapOps st a (fun _ => 9) 1 1
      let (_, buf, n) ← inodeReadAt st a (fun _ => 0) 2 0
      pure (w1, w2, n, buf 0, buf 1)) = .ok (1, 1, 2, 0, 9) := by
  -- the 66 allocations of `B` are evaluated with the one-pass scan
  rw [freeMapOps_eq_run, freeMapAllocate_eq_run]
  decide +kernel

end Pintos.Filesys
