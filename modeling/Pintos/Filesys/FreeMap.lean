import Pintos.Filesys.Inode

/-!
The free map of `filesys/free-map.c`: the bitmap in memory, written to its own file through
`inode_write_at` after every change.

The file system calls the free map from three depths, and `FreeMapOps` gives each its own
pair of entry points:

* `freeMapOps`, from a caller that holds nothing;
* `lockedOps`, from inside `free_map_create`, which holds `free_map_lock`: allocation skips
  `lock_acquire`, release asserts in it;
* `nestedOps`, from inside `bitmap_write`'s `inode_write_at` on the free map file when
  that write grows the file: the thread also holds the file's writer check-in, so a found
  sector's `bitmap_write` waits on the thread itself.

The free map file has `byte_cnt` bytes from `free_map_create` on and `bitmap_write` writes
exactly those, so a run from a formatted disk never reaches the third depth.
-/

namespace Pintos.Filesys

/-- `FREE_MAP_SECTOR`. -/
def FREE_MAP_SECTOR : Nat := 0

/-- `ROOT_DIR_SECTOR`. -/
def ROOT_DIR_SECTOR : Nat := 1

/-- `bitmap_write (free_map, free_map_file)`: the map's `byte_cnt` bytes at offset `0` of
the free map file, with `ops` the free map as seen from inside that write. A `NULL` file
faults on `file->inode`. -/
def bitmapWrite (ops : FreeMapOps) (st : FsState) : Except Fault (FsState × Bool) :=
  match st.freeMapFile with
  | none => throw .kernelFault
  | some id => do
    let size := byteCnt st.freeMap.length
    let (st, written) ← inodeWriteAt ops st id (bitmapByte st.freeMap) size 0
    pure (st, written = size)

/-- `free_map_release` when the thread holds `free_map_lock`: `lock_acquire` asserts. -/
def releaseLocked (_ : FsState) (_ _ : Nat) : Except Fault FsState :=
  throw (.assert .lockNotHeld)

/-- `free_map_allocate` from inside the free map file's own growth: a found sector's
`bitmap_write` blocks in `reader_checkin` behind the thread's own writer check-in. -/
def allocateNested (st : FsState) (cnt : Nat) : Except Fault (FsState × Option Nat) := do
  let (freeMap, sector) ← bitmapScanAndFlip st.freeMap 0 cnt false
  if sector ≠ BITMAP_ERROR ∧ st.freeMapFile.isSome then throw .deadlock
  else if sector ≠ BITMAP_ERROR then pure ({ st with freeMap }, some sector)
  else pure ({ st with freeMap }, none)

def nestedOps : FreeMapOps := ⟨allocateNested, releaseLocked⟩

/-- `free_map_allocate (cnt, sectorp)`: the first free group marked used, the map written
to its file when that is open, and the group handed back when the write falls short. -/
def freeMapAllocate (st : FsState) (cnt : Nat) : Except Fault (FsState × Option Nat) := do
  let (freeMap, sector) ← bitmapScanAndFlip st.freeMap 0 cnt false
  let st := { st with freeMap }
  if sector ≠ BITMAP_ERROR ∧ st.freeMapFile.isSome then do
    let (st, ok) ← bitmapWrite nestedOps st
    if ok then pure (st, some sector)
    else do
      let freeMap ← bitmapSetMultiple st.freeMap sector cnt false
      pure ({ st with freeMap }, none)
  else if sector ≠ BITMAP_ERROR then pure (st, some sector)
  else pure (st, none)

/-- `free_map_release (sector, cnt)`: asserts that the group is in use, frees it, and
writes the map. -/
def freeMapRelease (st : FsState) (sector cnt : Nat) : Except Fault FsState := do
  let all ← bitmapAll st.freeMap sector cnt
  if all then do
    let freeMap ← bitmapSetMultiple st.freeMap sector cnt false
    let (st, _) ← bitmapWrite nestedOps { st with freeMap }
    pure st
  else throw (.assert .freeMapAllUsed)

def freeMapOps : FreeMapOps := ⟨freeMapAllocate, freeMapRelease⟩

def lockedOps : FreeMapOps := ⟨freeMapAllocate, releaseLocked⟩

/-! ## Setting the free map up and down -/

/-- `free_map_init`: one bit per sector of the device, with the free map's and the root
directory's sectors in use. -/
def freeMapInit (st : FsState) : FsState :=
  let freeMap := bitmapCreate st.store.device.size
  { st with freeMap := bitmapMark (bitmapMark freeMap FREE_MAP_SECTOR) ROOT_DIR_SECTOR }

/-- `free_map_create`: the free map file's inode, opened as `free_map_file`, and the map
written to it. -/
def freeMapCreate (st : FsState) : Except Fault FsState := do
  let (st, ok) ← inodeCreate lockedOps st FREE_MAP_SECTOR (byteCnt st.freeMap.length)
  if ok then do
    let (st, id) := inodeOpen st FREE_MAP_SECTOR
    let (st, ok) ← bitmapWrite nestedOps { st with freeMapFile := some id }
    if ok then pure st else throw .panic
  else throw .panic

/-- Bit `i` of the bytes `bitmap_read` copies into `b->bits`. -/
def bitOfBytes (bytes : Nat → UInt8) (i : Nat) : Bool :=
  (bytes (i / 8)).toNat / 2 ^ (i % 8) % 2 = 1

/-- `free_map_open`: `free_map_file` opened anew, and `bitmap_read` from it. -/
def freeMapOpen (st : FsState) : Except Fault FsState := do
  let (st, id) := inodeOpen st FREE_MAP_SECTOR
  let st := { st with freeMapFile := some id }
  if st.freeMap.length > 0 then do
    let size := byteCnt st.freeMap.length
    let (st, bytes, n) ← inodeReadAt st id (bitmapByte st.freeMap) size 0
    -- the bits past `bit_cnt` are masked off by `last_mask`, and the model has none
    let st := { st with freeMap := (List.range st.freeMap.length).map (bitOfBytes bytes) }
    if n = size then pure st else throw .panic
  else pure st

/-- `free_map_close`: the map written a last time and `free_map_file` closed; the pointer
itself is left as it was. -/
def freeMapClose (st : FsState) : Except Fault FsState := do
  let (st, ok) ← bitmapWrite nestedOps st
  if ok then inodeClose lockedOps st st.freeMapFile else throw .panic

/-! ## Evaluating allocations

A concrete run that allocates many sectors evaluates `freeMapAllocateRun`, the same body
with the one-pass scan of `scanAndFlipRun`; `freeMapOps_eq_run` turns the one into the
other inside any call that takes its `FreeMapOps` as an argument. -/

/-- The body of `freeMapAllocate`, scanning with `scanAndFlipRun`. -/
def freeMapAllocateRun (st : FsState) (cnt : Nat) : Except Fault (FsState × Option Nat) := do
  let (freeMap, sector) ← scanAndFlipRun st.freeMap 0 cnt false
  let st := { st with freeMap }
  if sector ≠ BITMAP_ERROR ∧ st.freeMapFile.isSome then do
    let (st, ok) ← bitmapWrite nestedOps st
    if ok then pure (st, some sector)
    else do
      let freeMap ← bitmapSetMultiple st.freeMap sector cnt false
      pure ({ st with freeMap }, none)
  else if sector ≠ BITMAP_ERROR then pure (st, some sector)
  else pure (st, none)

def freeMapOpsRun : FreeMapOps := ⟨freeMapAllocateRun, freeMapRelease⟩

theorem freeMapAllocate_eq_run : freeMapAllocate = freeMapAllocateRun := by
  funext st cnt
  simp only [freeMapAllocate, freeMapAllocateRun, bitmapScanAndFlip_eq_run]

theorem freeMapOps_eq_run : freeMapOps = freeMapOpsRun := by
  rw [freeMapOps, freeMapOpsRun, freeMapAllocate_eq_run]

end Pintos.Filesys
