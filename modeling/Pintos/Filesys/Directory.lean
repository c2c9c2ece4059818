import Pintos.Filesys.FreeMap

/-!
Directories of `filesys/directory.c`: files of 20-byte `struct dir_entry` records, read and
written one record at a time through `inode_read_at` and `inode_write_at`.

Every scan over a directory's entries runs while `inode_read_at` returns a whole entry.
A read returns a whole entry only below `inode_length`, so `entryBound` reads always end a
scan; the model stops with `Fault.diverge` if one would go on longer.
-/

namespace Pintos.Filesys

/-- `NAME_MAX`. -/
def NAME_MAX : Nat := 14

/-- `sizeof (struct dir_entry)`: `inode_sector` at byte 0, `char name[NAME_MAX + 1]` at 4,
`bool in_use` at 19. -/
def DIR_ENTRY_SIZE : Nat := 20

/-- `PARENT_NAME`, `".."`. -/
def PARENT_NAME : List UInt8 := [0x2e, 0x2e]

/-- `SELF_NAME`, `"."`. -/
def SELF_NAME : List UInt8 := [0x2e]

/-- `struct dir`: the address of its inode and `pos`. -/
structure Dir where
  inode : Nat
  pos : Int
  deriving DecidableEq, Repr

namespace DirEntry

def inodeSector (e : Nat → UInt8) : Nat := leU32 e 0

/-- The bytes `strcmp` compares: `name` up to its terminator. An entry with none in its
`name` runs on into `in_use`; the model stops at the end of the entry. -/
def name (e : Nat → UInt8) : List UInt8 :=
  ((List.range 16).map fun i => e (4 + i)).takeWhile (· ≠ 0)

def inUse (e : Nat → UInt8) : Bool := e 19 != 0

def setInUse (e : Nat → UInt8) (b : Bool) : Nat → UInt8 :=
  Function.update e 19 (if b then 1 else 0)

/-- `strlcpy (e.name, name, sizeof e.name)`: at most `NAME_MAX` bytes and a terminator. -/
def setName (e : Nat → UInt8) (name : List UInt8) : Nat → UInt8 :=
  let n := min name.length NAME_MAX
  fun i => if 4 ≤ i ∧ i < 4 + n then name.getD (i - 4) 0 else if i = 4 + n then 0 else e i

def setInodeSector (e : Nat → UInt8) (sector : Nat) : Nat → UInt8 :=
  fun i => if i < 4 then Sector.byteOf sector i else e i

end DirEntry

/-- The reads a scan of the directory at `inode` can make, from the length the cache shows:
the bound of the scan loops. -/
def entryBound (st : FsState) (inode : Nat) : Nat :=
  match st.getInode inode with
  | .ok i => (InodeDisk.length (st.store.view i.sector)).toNat / DIR_ENTRY_SIZE + 1
  | .error _ => 1

/-- `dir_open (inode)`; `inode_open` never returns `NULL` in the model. -/
def dirOpen (inode : Nat) : Dir := ⟨inode, 0⟩

/-- `dir_open_root`. -/
def dirOpenRoot (st : FsState) : FsState × Dir :=
  let (st, id) := inodeOpen st ROOT_DIR_SECTOR
  (st, dirOpen id)

def dirReopen (st : FsState) (dir : Dir) : Except Fault (FsState × Dir) := do
  let st ← inodeReopen st (some dir.inode)
  pure (st, dirOpen dir.inode)

/-- `dir_close`; `NULL` is ignored. -/
def dirClose (st : FsState) : Option Dir → Except Fault FsState
  | none => pure st
  | some dir => inodeClose freeMapOps st (some dir.inode)

/-! ## Scans -/

/-- One read of the loop of `lookup`, at offset `ofs`: `inl` the bytes read and the next
offset, or `inr` the answer, the first entry in use named `name` with its offset. -/
def lookupRound (dir : Dir) (name : List UInt8) (st : FsState) (e : Nat → UInt8) (ofs : Nat) :
    Except Fault (FsState × ((Nat → UInt8) × Nat ⊕ Option ((Nat → UInt8) × Nat))) := do
  let (st, e, n) ← inodeReadAt st dir.inode e DIR_ENTRY_SIZE ofs
  if n = DIR_ENTRY_SIZE then
    if DirEntry.inUse e ∧ DirEntry.name e = name then pure (st, .inr (some (e, ofs)))
    else pure (st, .inl (e, CInt.u32 (ofs + DIR_ENTRY_SIZE)))
  else pure (st, .inr none)

/-- The loop of `lookup` from offset `ofs`. -/
def lookupLoop (dir : Dir) (name : List UInt8) :
    Nat → FsState → (Nat → UInt8) → Nat →
      Except Fault (FsState × Option ((Nat → UInt8) × Nat))
  | 0, _, _, _ => throw .diverge
  | fuel + 1, st, e, ofs => do
    let (st, r) ← lookupRound dir name st e ofs
    match r with
    | .inl (e, ofs) => lookupLoop dir name fuel st e ofs
    | .inr found => pure (st, found)

/-- `lookup (dir, name, &e, &ofs)`. -/
def lookup (st : FsState) (dir : Dir) (name : List UInt8) :
    Except Fault (FsState × Option ((Nat → UInt8) × Nat)) :=
  lookupLoop dir name (entryBound st dir.inode) st (fun _ => 0) 0

/-- `dir_lookup (dir, name, &inode)`: the entry's inode, opened. -/
def dirLookup (st : FsState) (dir : Dir) (name : List UInt8) :
    Except Fault (FsState × Option Nat) := do
  let (st, found) ← lookup st dir name
  match found with
  | some (e, _) =>
    let (st, id) := inodeOpen st (DirEntry.inodeSector e)
    pure (st, some id)
  | none => pure (st, none)

/-- One read of the free-slot loop of `dir_add`, at offset `ofs`: the bytes read, and the
next offset while the entry is in use. -/
def freeSlotRound (dir : Dir) (st : FsState) (e : Nat → UInt8) (ofs : Int) :
    Except Fault (FsState × (Nat → UInt8) × Option Int) := do
  let (st, e, n) ← inodeReadAt st dir.inode e DIR_ENTRY_SIZE (CInt.u32 ofs)
  if n = DIR_ENTRY_SIZE ∧ DirEntry.inUse e then pure (st, e, some (CInt.i32 (ofs + DIR_ENTRY_SIZE)))
  else pure (st, e, none)

/-- The free-slot loop of `dir_add`: the first entry not in use, or the end of the file,
with the bytes of the last read left in `e`. -/
def freeSlotLoop (dir : Dir) :
    Nat → FsState → (Nat → UInt8) → Int → Except Fault (FsState × (Nat → UInt8) × Int)
  | 0, _, _, _ => throw .diverge
  | fuel + 1, st, e, ofs => do
    let (st, e, next) ← freeSlotRound dir st e ofs
    match next with
    | some next => freeSlotLoop dir fuel st e next
    | none => pure (st, e, ofs)

/-- The write of `dir_add` at the slot `ofs` its scan found, over the bytes `e` the scan
left: `in_use`, then `name` by `strlcpy`, then `inode_sector`. -/
def writeSlot (st : FsState) (dir : Dir) (name : List UInt8) (sector : Nat)
    (e : Nat → UInt8) (ofs : Int) : Except Fault (FsState × Bool) := do
  let e := DirEntry.setInodeSector (DirEntry.setName (DirEntry.setInUse e true) name) sector
  let (st, n) ← inodeWriteAt freeMapOps st dir.inode e DIR_ENTRY_SIZE (CInt.u32 ofs)
  pure (st, n = DIR_ENTRY_SIZE)

/-- `dir_add (dir, name, sector)`: `false` when the name is taken or the write comes up
short. -/
def dirAdd (st : FsState) (dir : Dir) (name : List UInt8) (sector : Nat) :
    Except Fault (FsState × Bool) := do
  let (st, found) ← lookup st dir name
  if found.isSome then pure (st, false)
  else do
    let (st, e, ofs) ← freeSlotLoop dir (entryBound st dir.inode) st (fun _ => 0) 0
    writeSlot st dir name sector e ofs

/-- The loop of `number_entries`. -/
def countLoop (dir : Dir) :
    Nat → FsState → (Nat → UInt8) → Nat → Int → Except Fault (FsState × Int)
  | 0, _, _, _, _ => throw .diverge
  | fuel + 1, st, e, ofs, count => do
    let (st, e, n) ← inodeReadAt st dir.inode e DIR_ENTRY_SIZE ofs
    if n = DIR_ENTRY_SIZE then
      countLoop dir fuel st e (CInt.u32 (ofs + DIR_ENTRY_SIZE))
        (if DirEntry.inUse e then count + 1 else count)
    else pure (st, count)

/-- `number_entries (dir)`: the entries in use, `.` and `..` among them. -/
def numberEntries (st : FsState) (dir : Dir) : Except Fault (FsState × Int) :=
  countLoop dir (entryBound st dir.inode) st (fun _ => 0) 0 0

/-- The loop of `dir_readdir` from `dir->pos`. -/
def readdirLoop :
    Nat → FsState → Dir → (Nat → UInt8) → Except Fault (FsState × Dir × Option (List UInt8))
  | 0, _, _, _ => throw .diverge
  | fuel + 1, st, dir, e => do
    let (st, e, n) ← inodeReadAt st dir.inode e DIR_ENTRY_SIZE (CInt.u32 dir.pos)
    if n = DIR_ENTRY_SIZE then
      let dir := { dir with pos := CInt.i32 (dir.pos + DIR_ENTRY_SIZE) }
      if DirEntry.inUse e ∧ DirEntry.name e ≠ SELF_NAME ∧ DirEntry.name e ≠ PARENT_NAME then
        pure (st, dir, some ((DirEntry.name e).take NAME_MAX))
      else readdirLoop fuel st dir e
    else pure (st, dir, none)

/-- `dir_readdir (dir, name)`: the next name other than `.` and `..`, and the advanced
`pos`. -/
def dirReaddir (st : FsState) (dir : Dir) :
    Except Fault (FsState × Dir × Option (List UInt8)) :=
  readdirLoop (entryBound st dir.inode) st dir (fun _ => 0)

/-! ## Creating and removing entries -/

/-- `dir_create (sector, entry_cnt, parent_sector)`: a directory inode with room for
`entry_cnt + 2` entries, holding `..` and then `.`. -/
def dirCreate (st : FsState) (sector entryCnt parentSector : Nat) :
    Except Fault (FsState × Bool) := do
  let length := CInt.i32 (CInt.u32 ((entryCnt + 2) * DIR_ENTRY_SIZE))
  let (st, ok) ← inodeCreateDir freeMapOps st sector length
  if ok then do
    let (st, id) := inodeOpen st sector
    let dir := dirOpen id
    let (st, ok) ← dirAdd st dir PARENT_NAME parentSector
    let (st, success) ← Trace.seqAnd ok st fun st => dirAdd st dir SELF_NAME sector
    let st ← dirClose st (some dir)
    pure (st, success)
  else pure (st, false)

/-- `thread_current ()->cwd->inode->sector`: a `NULL` `cwd` faults. -/
def cwdSector (st : FsState) : Option Dir → Except Fault Nat
  | none => throw .kernelFault
  | some cwd => do
    let inode ← st.getInode cwd.inode
    pure inode.sector

/-- What keeps `dir_remove` from removing a directory: `number_entries (d) > 2`, then
`inode->open_cnt > 2`. -/
def dirBusy (st : FsState) (id : Nat) : Except Fault (FsState × Bool) := do
  let (st, count) ← numberEntries st (dirOpen id)
  let inode ← st.getInode id
  pure (st, decide (count > 2) || decide (inode.openCnt > 2))

/-- The checks of `dir_remove` once the entry is found and its inode open, up to the
`goto done`: not the `cwd`, not a directory with entries other than `.` and `..` or
with other openers, then the entry erased and the inode marked removed. -/
def removeEntry (st : FsState) (cwd : Option Dir) (dir : Dir) (e : Nat → UInt8) (ofs : Nat)
    (id : Nat) : Except Fault (FsState × Bool) := do
  let inode ← st.getInode id
  let cwd ← cwdSector st cwd
  if inode.sector = cwd then pure (st, false)
  else do
    let (st, isdir) ← isDir st inode
    let (st, busy) ← Trace.seqAnd isdir st fun st => dirBusy st id
    if busy then pure (st, false)
    else do
      let (st, n) ← inodeWriteAt freeMapOps st dir.inode (DirEntry.setInUse e false)
        DIR_ENTRY_SIZE ofs
      if n ≠ DIR_ENTRY_SIZE then pure (st, false)
      else do
        let st ← inodeRemove st id
        pure (st, true)

/-- What `dir_remove` does once `lookup` has found the entry `e` at `ofs`: open its inode,
make the checks and the erase of `removeEntry`, and close the inode at `done`. -/
def removeFoundEntry (st : FsState) (cwd : Option Dir) (dir : Dir) (e : Nat → UInt8)
    (ofs : Nat) : Except Fault (FsState × Bool) := do
  let (st, id) := inodeOpen st (DirEntry.inodeSector e)
  let (st, success) ← removeEntry st cwd dir e ofs id
  let st ← inodeClose freeMapOps st (some id)
  pure (st, success)

/-- `dir_remove (dir, name)` for a thread whose `cwd` is `cwd`. -/
def dirRemove (st : FsState) (cwd : Option Dir) (dir : Dir) (name : List UInt8) :
    Except Fault (FsState × Bool) := do
  let (st, found) ← lookup st dir name
  match found with
  | none => pure (st, false)
  | some (e, ofs) => removeFoundEntry st cwd dir e ofs

end Pintos.Filesys
