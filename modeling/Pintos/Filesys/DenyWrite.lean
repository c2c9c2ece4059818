import Pintos.Filesys.File
import Pintos.Filesys.ReadWrite

/-!
The regions of `inode_write_at` between its monitor calls, and what a write denial reaches.
`inode_write_at` checks `deny_write_cnt` once, under `reader_checkin`; a write that extends
the file then gives up the reader role and takes `writer_checkin` for the resize and the
copy. `inode_deny_write`, which `load` reaches through `file_deny_write`, runs under
`writer_checkin` too, so it can run between the two regions of an extending write.

* `inodeWriteAt_regions`: the regions run back to back are `inode_write_at`;
* `writeCheck_denied`: a write whose check finds a denial returns `0` and changes nothing;
* `extending_write_ignores_new_denial`: an exec's denial that falls between the regions
  does not stop the write.
-/

namespace Pintos.Filesys

/-- What the reader region of `inode_write_at` decides. -/
inductive WritePath where
  /-- `deny_write_cnt` is not `0`: return `0` -/
  | denied
  /-- the write fits: copy under the reader role -/
  | inPlace
  /-- `inode_length (inode) < size + offset`: extend under the writer role -/
  | extend
  deriving DecidableEq, Repr

/-- The reader region's checks: the denial count, then whether the write ends past the
length, compared as `size_t`. -/
def writeCheck (st : FsState) (id : Nat) (size offset : Nat) : Except Fault (FsState × WritePath) := do
  let inode ← st.getInode id
  if inode.denyWriteCnt ≠ 0 then pure (st, .denied)
  else do
    let (st, len) ← inodeLength st inode
    pure (st, if CInt.u32 len < CInt.u32 (size + offset) then .extend else .inPlace)

/-- The copy loop of a write that fits, still under `reader_checkin`. -/
def writeInPlace (st : FsState) (id : Nat) (buffer : Nat → UInt8) (size offset : Nat) :
    Except Fault (FsState × Int) := do
  let inode ← st.getInode id
  writeLoop inode buffer size st size offset 0

/-- The writer region of an extending write: the cached inode resized to `size + offset`
and written back, then the copy loop; `0` when the resize fails. -/
def writeExtension (ops : FreeMapOps) (st : FsState) (id : Nat) (buffer : Nat → UInt8)
    (size offset : Nat) : Except Fault (FsState × Int) := do
  let inode ← st.getInode id
  let (st, diskInode) ← st.cacheRead inode.sector
  let (st, diskInode, ok) ← inodeResize ops resizeDepth st diskInode (CInt.i32 (size + offset))
  if ok then do
    let st ← st.cacheWrite inode.sector diskInode
    writeLoop inode buffer size st size offset 0
  else pure (st, 0)

/-- A read through the cache leaves `open_inodes` alone. -/
theorem FsState.cacheRead_openInodes {st st' : FsState} {k : Nat} {d : Sector}
    (h : st.cacheRead k = .ok (st', d)) : st'.openInodes = st.openInodes := by
  obtain ⟨⟨store, d'⟩, -, h⟩ := Trace.bind_eq_ok h
  simp only [Trace.pure_eq_ok, Prod.mk.injEq] at h
  rw [← h.1]

theorem inodeLength_openInodes {st st' : FsState} {inode : Inode} {len : Int}
    (h : inodeLength st inode = .ok (st', len)) : st'.openInodes = st.openInodes := by
  obtain ⟨⟨st₁, d⟩, h₁, h⟩ := Trace.bind_eq_ok h
  simp only [Trace.pure_eq_ok, Prod.mk.injEq] at h
  rw [← h.1, FsState.cacheRead_openInodes h₁]

theorem FsState.getInode_of_openInodes {st st' : FsState} (h : st'.openInodes = st.openInodes)
    (id : Nat) : st'.getInode id = st.getInode id := by
  simp only [FsState.getInode, h]

/-- Run back to back, the regions of `inode_write_at` are the whole call. -/
theorem inodeWriteAt_regions (ops : FreeMapOps) (st : FsState) (id : Nat) (buffer : Nat → UInt8)
    (size offset : Nat) :
    inodeWriteAt ops st id buffer size offset = (do
      let (st, path) ← writeCheck st id size offset
      match path with
      | .denied => pure (st, 0)
      | .inPlace => writeInPlace st id buffer size offset
      | .extend => writeExtension ops st id buffer size offset) := by
  unfold inodeWriteAt writeCheck
  cases hi : st.getInode id with
  | error e => rfl
  | ok inode =>
    simp only [Trace.ok_bind]
    by_cases hd : inode.denyWriteCnt ≠ 0
    · simp [hd]
    · simp only [hd, if_false, extendForWrite]
      cases hl : inodeLength st inode with
      | error e => rfl
      | ok r =>
        obtain ⟨st₁, len⟩ := r
        have hi₁ : st₁.getInode id = .ok inode :=
          (FsState.getInode_of_openInodes (inodeLength_openInodes hl) id).trans hi
        simp only [Trace.ok_bind]
        by_cases hx : CInt.u32 len < CInt.u32 (size + offset)
        · -- the resize and the copy run in the writer region
          simp only [hx, if_true, pure_bind, writeExtension, hi₁, Trace.ok_bind]
          simp only [bind_assoc]
          refine bind_congr fun _ => bind_congr fun ⟨st₃, d', ok⟩ => ?_
          cases ok <;> simp
        · simp [hx, writeInPlace, hi₁]

/-- A write whose reader region finds a denial returns `0` and leaves the file system as it
was. -/
theorem writeCheck_denied {st : FsState} {id : Nat} {inode : Inode} (hi : st.getInode id = .ok inode)
    (hd : inode.denyWriteCnt ≠ 0) (ops : FreeMapOps) (buffer : Nat → UInt8) (size offset : Nat) :
    writeCheck st id size offset = .ok (st, .denied) ∧
      inodeWriteAt ops st id buffer size offset = .ok (st, 0) := by
  constructor
  · simp [writeCheck, hi, hd]
  · simp [inodeWriteAt, hi, hd]

/-- Process A writes one byte at offset `1` of a one-byte file, so its reader region finds
no denial and that the write extends the file. Before A takes the writer role, process B
loads the same file: `file_open` reopens its inode and `file_deny_write` raises the count to
`1`. A's writer region then resizes the file and writes the byte: the write returns `1`,
and the file holds the new byte, although its count was `1` when the write happened. -/
theorem extending_write_ignores_new_denial :
    (do
      let (st, path) ← writeCheck oneByteFile 0 1 1
      let (st, id) := inodeOpen st 0
      let (st, _) ← fileDenyWrite st (some (fileOpen id))
      let denied := (← st.getInode 0).denyWriteCnt
      let (st, written) ← writeExtension freeMapOps st 0 (fun _ => 9) 1 1
      let (_, buffer, _) ← inodeReadAt st 0 (fun _ => 0) 2 0
      pure (path, denied, written, buffer 1)) = .ok (.extend, 1, 1, 9) := by
  decide +kernel

end Pintos.Filesys
