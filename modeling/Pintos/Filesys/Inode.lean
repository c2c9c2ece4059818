import Pintos.Filesys.Cache
import Pintos.Kernel.Bitmap
import Pintos.Lib.CInt

/-!
The inodes of `filesys/inode.c` over the buffer cache: the on-disk layout, `open_inodes`,
`byte_to_sector`, `inode_resize` with its rollback, `inode_create`, and the read and write
loops.

Every function that may allocate or free sectors takes the free map's two entry points as
a `FreeMapOps`. The free map writes itself through `inode_write_at` on its own file, and
`free_map_allocate` skips `lock_acquire` when the thread already holds `free_map_lock`;
which functions stand behind `FreeMapOps` depends on how deep in that nesting a call is,
and `FreeMap.lean` builds the three levels from the functions here.

Monitors: in a sequential run no other thread holds an inode's reader/writer monitor, so
`reader_checkin` and its kin return at once, except where a thread waits on itself; that
case is the free map's and is modelled there.
-/

namespace Pintos.Filesys

/-- `NUM_POINTERS`: sector numbers in a `struct indirect`. -/
def NUM_POINTERS : Nat := 128

/-- `INODE_MAGIC`. -/
def INODE_MAGIC : Nat := 0x494e4f44

/-- `block_sector_t` `-1`, what `byte_to_sector` returns past the end. -/
def NO_SECTOR : Nat := 2 ^ 32 - 1

/-! ## The on-disk inode and the index blocks

`struct inode_disk` holds `bool isdir` at byte 0, `indirect_ptr_idx` at 4, `off_t length`
at 8, `magic` at 12 and `unused` after it. -/

namespace InodeDisk

def isdir (d : Sector) : Bool := d.read 0 != 0

def indirectPtrIdx (d : Sector) : Nat := d.u32 4

def length (d : Sector) : Int := CInt.i32 (d.u32 8)

def setIsdir (d : Sector) : Sector := d.write 0 1 fun _ => 1

def setIndirectPtrIdx (d : Sector) (v : Nat) : Sector := d.setU32 4 v

def setLength (d : Sector) (v : Int) : Sector := d.setU32 8 (CInt.u32 v)

def setMagic (d : Sector) : Sector := d.setU32 12 INODE_MAGIC

/-- An `off_t` stored in `length` reads back as itself. -/
@[simp] theorem length_setLength (d : Sector) (v : Int) (h0 : -2 ^ 31 ≤ v) (h1 : v < 2 ^ 31) :
    length (setLength d v) = v := by
  unfold length setLength
  rw [Sector.u32_setU32 _ _ _ (by decide), Nat.mod_eq_of_lt (CInt.u32_lt v), CInt.i32_u32,
    CInt.i32_of_range h0 h1]

@[simp] theorem length_setIndirectPtrIdx (d : Sector) (v : Nat) :
    length (setIndirectPtrIdx d v) = length d := by
  unfold length setIndirectPtrIdx
  rw [Sector.u32_setU32_of_disjoint _ _ _ _ (by decide)]

@[simp] theorem indirectPtrIdx_setIndirectPtrIdx (d : Sector) (v : Nat) (h : v < 2 ^ 32) :
    indirectPtrIdx (setIndirectPtrIdx d v) = v := by
  unfold indirectPtrIdx setIndirectPtrIdx
  rw [Sector.u32_setU32 _ _ _ (by decide), Nat.mod_eq_of_lt h]

@[simp] theorem indirectPtrIdx_setLength (d : Sector) (v : Int) :
    indirectPtrIdx (setLength d v) = indirectPtrIdx d := by
  unfold indirectPtrIdx setLength
  rw [Sector.u32_setU32_of_disjoint _ _ _ _ (by decide)]

theorem length_range (d : Sector) : -2 ^ 31 ≤ length d ∧ length d < 2 ^ 31 :=
  CInt.i32_range _

end InodeDisk

/-- `ptrs[k]` of a `struct indirect`. -/
def ptr (d : Sector) (k : Nat) : Nat := d.u32 (4 * k)

def setPtr (d : Sector) (k v : Nat) : Sector := d.setU32 (4 * k) v

/-- `ptrs[k]` for an `int` index, as `byte_to_sector` computes one: outside `0 .. 127` the
read leaves the array. -/
def ptrAt (d : Sector) (k : Int) : Except Fault Nat :=
  if 0 ≤ k ∧ k < NUM_POINTERS then pure (ptr d k.toNat) else throw .wildAccess

/-! ## The file system's state -/

/-- `struct inode`: `id` is its address, the count of `malloc`s before it. The monitor's
counters and locks are left out. -/
structure Inode where
  id : Nat
  sector : Nat
  openCnt : Int
  denyWriteCnt : Int
  removed : Bool
  deriving DecidableEq, Repr

/-- Everything the file system code reads and writes: the device behind the buffer cache,
the in-memory free map, `free_map_file` (the address of its inode, `none` while `NULL`),
and `open_inodes`, front first. -/
structure FsState where
  store : Store
  freeMap : List Bool
  freeMapFile : Option Nat
  openInodes : List Inode
  nextId : Nat

namespace FsState

def cacheRead (st : FsState) (sector : Nat) : Except Fault (FsState × Sector) := do
  let (store, d) ← Filesys.cacheRead st.store sector
  pure ({ st with store }, d)

def cacheWrite (st : FsState) (sector : Nat) (d : Sector) : Except Fault FsState := do
  let store ← Filesys.cacheWrite st.store sector d
  pure { st with store }

/-- The `struct inode` at an address; a freed one is a use after free. -/
def getInode (st : FsState) (id : Nat) : Except Fault Inode :=
  match st.openInodes.find? (·.id = id) with
  | some inode => pure inode
  | none => throw .wildAccess

/-- Apply `f` to the `struct inode` at an address. -/
def modifyInode (st : FsState) (id : Nat) (f : Inode → Inode) : Except Fault FsState := do
  let _ ← st.getInode id
  pure { st with openInodes := st.openInodes.map fun i => if i.id = id then f i else i }

end FsState

/-- The two entry points of the free map that `inode.c` calls, as seen from one level of
nesting: `free_map_allocate (cnt, sectorp)` returns the sector it stored in `*sectorp`, or
`none` for `false`; `free_map_release (sector, cnt)`. -/
structure FreeMapOps where
  allocate : FsState → Nat → Except Fault (FsState × Option Nat)
  release : FsState → Nat → Nat → Except Fault FsState

/-! ## Open inodes -/

/-- `inode_open (sector)`: the open `struct inode` of `sector` with its count raised, or a
new one pushed to the front of `open_inodes`. -/
def inodeOpen (st : FsState) (sector : Nat) : FsState × Nat :=
  match st.openInodes.find? (·.sector = sector) with
  | some inode =>
    ({ st with openInodes := st.openInodes.map fun i =>
        if i.id = inode.id then { i with openCnt := i.openCnt + 1 } else i }, inode.id)
  | none =>
    let inode : Inode := ⟨st.nextId, sector, 1, 0, false⟩
    ({ st with openInodes := inode :: st.openInodes, nextId := st.nextId + 1 }, inode.id)

/-- `inode_reopen`; `NULL` stays `NULL`. -/
def inodeReopen (st : FsState) : Option Nat → Except Fault FsState
  | none => pure st
  | some id => st.modifyInode id fun i => { i with openCnt := i.openCnt + 1 }

def inodeRemove (st : FsState) (id : Nat) : Except Fault FsState :=
  st.modifyInode id fun i => { i with removed := true }

def inodeDenyWrite (st : FsState) (id : Nat) : Except Fault FsState := do
  let st ← st.modifyInode id fun i => { i with denyWriteCnt := i.denyWriteCnt + 1 }
  let inode ← st.getInode id
  if inode.denyWriteCnt ≤ inode.openCnt then pure st else throw (.assert .denyWriteCnt)

def inodeAllowWrite (st : FsState) (id : Nat) : Except Fault FsState := do
  let inode ← st.getInode id
  if 0 < inode.denyWriteCnt ∧ inode.denyWriteCnt ≤ inode.openCnt then
    st.modifyInode id fun i => { i with denyWriteCnt := i.denyWriteCnt - 1 }
  else throw (.assert .denyWriteCnt)

/-- `inode_length`: the `length` of the cached on-disk inode. -/
def inodeLength (st : FsState) (inode : Inode) : Except Fault (FsState × Int) := do
  let (st, d) ← st.cacheRead inode.sector
  pure (st, InodeDisk.length d)

def isDir (st : FsState) (inode : Inode) : Except Fault (FsState × Bool) := do
  let (st, d) ← st.cacheRead inode.sector
  pure (st, InodeDisk.isdir d)

/-- `byte_to_sector (inode, pos)`: the data sector of slot `(pos / 512 / 128, pos / 512 %
128)`, with C's truncating division, when `pos < length`. -/
def byteToSector (st : FsState) (inode : Inode) (pos : Int) : Except Fault (FsState × Nat) := do
  let (st, diskInode) ← st.cacheRead inode.sector
  if pos < InodeDisk.length diskInode then do
    let level1 := (pos.tdiv BLOCK_SECTOR_SIZE).tdiv NUM_POINTERS
    let level2 := (pos.tdiv BLOCK_SECTOR_SIZE).tmod NUM_POINTERS
    let (st, dbl) ← st.cacheRead (InodeDisk.indirectPtrIdx diskInode)
    let p ← ptrAt dbl level1
    let (st, ind) ← st.cacheRead p
    let sector ← ptrAt ind level2
    pure (st, sector)
  else pure (st, NO_SECTOR)

/-! ## `inode_resize` -/

/-- The size below which indirect block `i` is needed: `i * (BLOCK_SECTOR_SIZE *
NUM_POINTERS)`. -/
def indirectBound (i : Nat) : Int := i * (BLOCK_SECTOR_SIZE * NUM_POINTERS)

/-- The size below which data slot `(i, j)` is needed. -/
def dataBound (i j : Nat) : Int := indirectBound i + j * BLOCK_SECTOR_SIZE

/-- `add_sector_to_file`: a fresh sector, zeroed through the cache, or `none`. -/
def addSectorToFile (ops : FreeMapOps) (st : FsState) : Except Fault (FsState × Option Nat) := do
  let (st, r) ← ops.allocate st 1
  match r with
  | some sector => do
    let st ← st.cacheWrite sector Sector.zero
    pure (st, some sector)
  | none => pure (st, none)

/-- `if (grow && ptrs[k] == 0) add_sector_to_file (.., &ptrs[k])`, with `none` when the
allocation fails. -/
def growSlot (ops : FreeMapOps) (st : FsState) (blk : Sector) (k : Nat) (grow : Bool) :
    Except Fault (FsState × Option Sector) :=
  if grow ∧ ptr blk k = 0 then do
    let (st, r) ← addSectorToFile ops st
    pure (st, r.map (setPtr blk k))
  else pure (st, some blk)

/-- `if (shrink && ptrs[k] != 0) { free_map_release (ptrs[k], 1); ptrs[k] = 0; }` -/
def shrinkSlot (ops : FreeMapOps) (st : FsState) (blk : Sector) (k : Nat) (shrink : Bool) :
    Except Fault (FsState × Sector) :=
  if shrink ∧ ptr blk k ≠ 0 then do
    let st ← ops.release st (ptr blk k) 1
    pure (st, setPtr blk k 0)
  else pure (st, blk)

/-- The loop over `j` for indirect block `i`, from slot `j`, `k` slots to go; `false` when
an allocation failed. -/
def resizeDataLoop (ops : FreeMapOps) (size : Int) (i : Nat) :
    FsState → Sector → Nat → Nat → Except Fault (FsState × Sector × Bool)
  | st, ind, _, 0 => pure (st, ind, true)
  | st, ind, j, k + 1 => do
    let (st, r) ← growSlot ops st ind j (decide (size > dataBound i j))
    match r with
    | none => pure (st, ind, false)
    | some ind => do
      let (st, ind) ← shrinkSlot ops st ind j (decide (size ≤ dataBound i j))
      resizeDataLoop ops size i st ind (j + 1) k

/-- The body of the loop over `i` between the two slot checks: when `ptrs[i]` is set, the
indirect block is read, resized, and committed. -/
def resizeIndirect (ops : FreeMapOps) (size : Int) (st : FsState) (dbl : Sector) (i : Nat) :
    Except Fault (FsState × Bool) :=
  if ptr dbl i ≠ 0 then do
    let (st, ind) ← st.cacheRead (ptr dbl i)
    let (st, ind, ok) ← resizeDataLoop ops size i st ind 0 NUM_POINTERS
    if ok then do
      let st ← st.cacheWrite (ptr dbl i) ind
      pure (st, true)
    else pure (st, false)
  else pure (st, true)

/-- The loop over `i`, from indirect block `i`, `k` blocks to go. -/
def resizeLoop (ops : FreeMapOps) (size : Int) :
    FsState → Sector → Nat → Nat → Except Fault (FsState × Sector × Bool)
  | st, dbl, _, 0 => pure (st, dbl, true)
  | st, dbl, i, k + 1 => do
    let (st, r) ← growSlot ops st dbl i (decide (size > indirectBound i))
    match r with
    | none => pure (st, dbl, false)
    | some dbl => do
      let (st, ok) ← resizeIndirect ops size st dbl i
      if ok then do
        let (st, dbl) ← shrinkSlot ops st dbl i (decide (size ≤ indirectBound i))
        resizeLoop ops size st dbl (i + 1) k
      else pure (st, dbl, false)

/-- `inode_resize` from `cache_read (disk_inode->indirect_ptr_idx, ..)` on: both loops, the
commit of the doubly-indirect block, and the new length; `false`, with `disk_inode` as it
came, when an allocation failed. -/
def resizeTree (ops : FreeMapOps) (st : FsState) (diskInode : Sector) (size : Int) :
    Except Fault (FsState × Sector × Bool) := do
  let idx := InodeDisk.indirectPtrIdx diskInode
  let (st, dbl) ← st.cacheRead idx
  let (st, dbl, ok) ← resizeLoop ops size st dbl 0 NUM_POINTERS
  if ok then do
    let st ← st.cacheWrite idx dbl
    if size = 0 then do
      let st ← ops.release st idx 1
      pure (st, InodeDisk.setLength (InodeDisk.setIndirectPtrIdx diskInode 0) size, true)
    else pure (st, InodeDisk.setLength diskInode size, true)
  else pure (st, diskInode, false)

/-- `if (disk_inode->indirect_ptr_idx == 0) add_sector_to_file (.., &..)`. -/
def allocDoublyIndirect (ops : FreeMapOps) (st : FsState) (diskInode : Sector) :
    Except Fault (FsState × Option Sector) :=
  if InodeDisk.indirectPtrIdx diskInode = 0 then do
    let (st, r) ← addSectorToFile ops st
    pure (st, r.map (InodeDisk.setIndirectPtrIdx diskInode))
  else pure (st, some diskInode)

/-- `resizeTree` once the doubly-indirect block is there, or `false` with `disk_inode` as
it was when `add_sector_to_file` could not allocate it. -/
def resizeAfterAlloc (ops : FreeMapOps) (st : FsState) (diskInode : Sector) :
    Option Sector → Int → Except Fault (FsState × Sector × Bool)
  | none, _ => pure (st, diskInode, false)
  | some d, size => resizeTree ops st d size

/-- How deep the rollback recursion of `inode_resize` may nest before the kernel stack,
one page shared with `struct thread`, runs out. From an inode whose tree fits its length
the rollback never fails, so two levels are all a run uses. -/
def resizeDepth : Nat := 32

/-- `inode_resize (disk_inode, size)` with `depth` frames of stack left. A failed
allocation rolls back with `inode_resize (disk_inode, original_length)` on the
`disk_inode` as it then is, and returns `false`. -/
def inodeResize (ops : FreeMapOps) :
    Nat → FsState → Sector → Int → Except Fault (FsState × Sector × Bool)
  | 0, _, _, _ => throw .stackOverflow
  | depth + 1, st, diskInode, size =>
    if InodeDisk.indirectPtrIdx diskInode = 0 ∧ size = 0 then pure (st, diskInode, true)
    else do
      -- `size_t original_length = disk_inode->length;`, passed back as an `off_t`
      let originalLength := CInt.i32 (CInt.u32 (InodeDisk.length diskInode))
      let (st, r) ← allocDoublyIndirect ops st diskInode
      let (st, diskInode, ok) ← resizeAfterAlloc ops st diskInode r size
      if ok then pure (st, diskInode, true)
      else do
        let (st, diskInode, _) ← inodeResize ops depth st diskInode originalLength
        pure (st, diskInode, false)

/-! ## Creating inodes -/

/-- `if (length > 0) inode_resize (disk_inode, length)` in `inode_create`. -/
def initialResize (ops : FreeMapOps) (st : FsState) (diskInode : Sector) (length : Int) :
    Except Fault (FsState × Sector × Bool) :=
  if length > 0 then inodeResize ops resizeDepth st diskInode length
  else pure (st, diskInode, true)

/-- `inode_create (sector, length)`: a doubly-indirect block, the tree for `length`, and
the on-disk inode at `sector`. -/
def inodeCreate (ops : FreeMapOps) (st : FsState) (sector : Nat) (length : Int) :
    Except Fault (FsState × Bool) :=
  if length < 0 then throw (.assert .lengthNonNegative)
  else do
    let (st, r) ← ops.allocate st 1
    match r with
    | none => pure (st, false)
    | some dblSector => do
      let diskInode := InodeDisk.setIndirectPtrIdx (InodeDisk.setMagic Sector.zero) dblSector
      let st ← st.cacheWrite dblSector Sector.zero
      let (st, diskInode, ok) ← initialResize ops st diskInode length
      if ok then do
        let st ← st.cacheWrite sector diskInode
        pure (st, true)
      else pure (st, false)

/-- `inode_create_dir`: `inode_create`, then `isdir` set in the cached inode. -/
def inodeCreateDir (ops : FreeMapOps) (st : FsState) (sector : Nat) (length : Int) :
    Except Fault (FsState × Bool) := do
  let (st, ok) ← inodeCreate ops st sector length
  if ok then do
    let (st, d) ← st.cacheRead sector
    let st ← st.cacheWrite sector (InodeDisk.setIsdir d)
    pure (st, true)
  else pure (st, false)

/-! ## Reading, writing, closing -/

/-- `min_left`, the lesser of the bytes left in the inode and in the sector, as an `int`. -/
def minLeft (len : Int) (offset : Nat) : Int :=
  -- `inode_length (inode) - offset` is computed in `size_t`, then stored in an `off_t`
  let inodeLeft := CInt.i32 (len - offset)
  let sectorLeft : Int := BLOCK_SECTOR_SIZE - (offset % BLOCK_SECTOR_SIZE : Nat)
  if inodeLeft < sectorLeft then inodeLeft else sectorLeft

/-- How many bytes one round of the read and write loops copies: `size < min_left`
compares as `size_t`, and the value chosen converts back to `int`. -/
def chunkSize (len : Int) (size offset : Nat) : Int :=
  CInt.i32 (if (size : Int) < CInt.u32 (minLeft len offset) then size
    else CInt.u32 (minLeft len offset))

/-- One round of the loop of `inode_read_at` on a `size > 0`: the chunk at `offset` copied
to `buffer + bytes_read`, with `some` of the next `size`, `offset` and `bytes_read`, or
`none` where the loop breaks. `bytes_read` stays below `2^31`, since no round copies
past `inode_length`, so `buffer + bytes_read` is `buffer` shifted by `bytesRead.toNat`. -/
def readRound (inode : Inode) (st : FsState) (buffer : Nat → UInt8) (size offset : Nat)
    (bytesRead : Int) : Except Fault (FsState × (Nat → UInt8) × Option (Nat × Nat × Int)) := do
  let (st, sectorIdx) ← byteToSector st inode (CInt.i32 offset)
  if sectorIdx = NO_SECTOR then pure (st, buffer, none)
  else do
    let (st, len) ← inodeLength st inode
    let chunk := chunkSize len size offset
    if chunk ≤ 0 then pure (st, buffer, none)
    else do
      let (store, out) ← cacheReadWithSizeAndOffset st.store sectorIdx
        (fun i => buffer (i + bytesRead.toNat)) chunk.toNat (offset % BLOCK_SECTOR_SIZE)
      let buffer := fun i => if bytesRead.toNat ≤ i then out (i - bytesRead.toNat) else buffer i
      pure ({ st with store }, buffer,
        some (CInt.u32 (size - chunk), CInt.u32 (offset + chunk), CInt.i32 (bytesRead + chunk)))

/-- The loop of `inode_read_at`, `fuel` rounds at most; each round copies at least one
byte, so `size` rounds are enough (`readLoop_fuel`). -/
def readLoop (inode : Inode) :
    Nat → FsState → (Nat → UInt8) → Nat → Nat → Int →
      Except Fault (FsState × (Nat → UInt8) × Int)
  | 0, st, buffer, _, _, bytesRead => pure (st, buffer, bytesRead)
  | fuel + 1, st, buffer, size, offset, bytesRead =>
    if size = 0 then pure (st, buffer, bytesRead)
    else do
      let (st, buffer, next) ← readRound inode st buffer size offset bytesRead
      match next with
      | none => pure (st, buffer, bytesRead)
      | some (size, offset, bytesRead) => readLoop inode fuel st buffer size offset bytesRead

/-- `inode_read_at (inode, buffer, size, offset)`: the bytes read into `buffer`, and their
count. -/
def inodeReadAt (st : FsState) (id : Nat) (buffer : Nat → UInt8) (size offset : Nat) :
    Except Fault (FsState × (Nat → UInt8) × Int) := do
  let inode ← st.getInode id
  readLoop inode size st buffer size offset 0

/-- One round of the loop of `inode_write_at` on a `size > 0`; unlike the read loop it
does not stop at a sector of `-1`. -/
def writeRound (inode : Inode) (buffer : Nat → UInt8) (st : FsState) (size offset : Nat)
    (bytesWritten : Int) : Except Fault (FsState × Option (Nat × Nat × Int)) := do
  let (st, sectorIdx) ← byteToSector st inode (CInt.i32 offset)
  let (st, len) ← inodeLength st inode
  let chunk := chunkSize len size offset
  if chunk ≤ 0 then pure (st, none)
  else do
    let store ← cacheWriteWithSizeAndOffset st.store sectorIdx
      (fun i => buffer (i + bytesWritten.toNat)) chunk.toNat (offset % BLOCK_SECTOR_SIZE)
    pure ({ st with store },
      some (CInt.u32 (size - chunk), CInt.u32 (offset + chunk), CInt.i32 (bytesWritten + chunk)))

/-- The loop of `inode_write_at`, `fuel` rounds at most. -/
def writeLoop (inode : Inode) (buffer : Nat → UInt8) :
    Nat → FsState → Nat → Nat → Int → Except Fault (FsState × Int)
  | 0, st, _, _, bytesWritten => pure (st, bytesWritten)
  | fuel + 1, st, size, offset, bytesWritten =>
    if size = 0 then pure (st, bytesWritten)
    else do
      let (st, next) ← writeRound inode buffer st size offset bytesWritten
      match next with
      | none => pure (st, bytesWritten)
      | some (size, offset, bytesWritten) => writeLoop inode buffer fuel st size offset bytesWritten

/-- The extension of `inode_write_at`: when `inode_length (inode) < size + offset`,
compared as `size_t`, the cached inode is resized to `size + offset` as an `off_t` and
written back; `false` when the resize fails. -/
def extendForWrite (ops : FreeMapOps) (st : FsState) (inode : Inode) (size offset : Nat) :
    Except Fault (FsState × Bool) := do
  let (st, len) ← inodeLength st inode
  if CInt.u32 len < CInt.u32 (size + offset) then do
    let (st, diskInode) ← st.cacheRead inode.sector
    let (st, diskInode, ok) ← inodeResize ops resizeDepth st diskInode (CInt.i32 (size + offset))
    if ok then do
      let st ← st.cacheWrite inode.sector diskInode
      pure (st, true)
    else pure (st, false)
  else pure (st, true)

/-- `inode_write_at (inode, buffer, size, offset)`: the count of bytes written. -/
def inodeWriteAt (ops : FreeMapOps) (st : FsState) (id : Nat) (buffer : Nat → UInt8)
    (size offset : Nat) : Except Fault (FsState × Int) := do
  let inode ← st.getInode id
  if inode.denyWriteCnt ≠ 0 then pure (st, 0)
  else do
    let (st, ok) ← extendForWrite ops st inode size offset
    if ok then writeLoop inode buffer size st size offset 0 else pure (st, 0)

/-- `free_all_data_sectors`: the cached inode resized to `0`; the result is not written
back. -/
def freeAllDataSectors (ops : FreeMapOps) (st : FsState) (inode : Inode) :
    Except Fault FsState := do
  let (st, d) ← st.cacheRead inode.sector
  let (st, _, _) ← inodeResize ops resizeDepth st d 0
  pure st

/-- `inode_close`: the last close unlinks the `struct inode` and, when it was removed,
frees its tree and its sector. -/
def inodeClose (ops : FreeMapOps) (st : FsState) : Option Nat → Except Fault FsState
  | none => pure st
  | some id => do
    let inode ← st.getInode id
    if inode.openCnt - 1 = 0 then do
      let st := { st with openInodes := st.openInodes.filter (·.id ≠ id) }
      if inode.removed then do
        let st ← freeAllDataSectors ops st inode
        ops.release st inode.sector 1
      else pure st
    else st.modifyInode id fun i => { i with openCnt := i.openCnt - 1 }

end Pintos.Filesys
