import Pintos.Filesys.Directory

/-!
Path names and the calls of `filesys/filesys.c`: `get_next_part`, the walk of
`get_last_dir`, `get_filename_from_path`, `filesys_create`, `filesys_open`,
`filesys_remove`, `verify_filepath`, `chdir`, and the set-up of a formatted disk.

A path is the bytes of its C string without the terminator. Each call takes and returns
the calling thread's `cwd`, which `get_last_dir` and `verify_filepath` set to the root when
it is `NULL`. A `struct dir` is a value here: freeing one does not invalidate other copies
of it.
-/

namespace Pintos.Filesys

/-! ## A formatted disk -/

/-- `do_format`. -/
def doFormat (st : FsState) : Except Fault FsState := do
  let st ← freeMapCreate st
  let (st, ok) ← dirCreate st ROOT_DIR_SECTOR 16 ROOT_DIR_SECTOR
  if ok then freeMapClose st else throw .panic

/-- `filesys_init (format)` on `fs_device`: empty `open_inodes` and buffer cache
(`inode_init`), the free map, `do_format` when asked, and `free_map_open`. -/
def filesysInit (device : Block) (format : Bool) : Except Fault FsState := do
  let st := freeMapInit ⟨⟨device, []⟩, [], none, [], 0⟩
  let st ← if format then doFormat st else pure st
  freeMapOpen st

/-- The bytes of a C string literal. -/
def cstr (s : String) : List UInt8 := s.toList.map fun c => c.toNat.toUInt8

/-! ## Path names -/

/-- `'/'`. -/
def SLASH : UInt8 := 0x2f

/-- `get_next_part (part, &src)`: `1` with the next name and the rest of the path; `0` at
the end; `-1` for a name longer than `NAME_MAX`, with its first `NAME_MAX` bytes copied.
On `0` and `-1`, `*srcp` keeps its value, and on `0` so does `part`. -/
def getNextPart (part src : List UInt8) : Int × List UInt8 × List UInt8 :=
  let rest := src.dropWhile (· = SLASH)
  if rest = [] then (0, part, src)
  else
    let name := rest.takeWhile (· ≠ SLASH)
    if name.length > NAME_MAX then (-1, name.take NAME_MAX, src)
    else (1, name, rest.drop name.length)

/-- The rounds the walks of `get_last_dir` and `verify_filepath` can make: each round
that consumes a name shortens the path, and once a name is too long every round looks it
up again one directory further down, which after `block_size` rounds revisits a directory
and goes on for ever. -/
def walkFuel (st : FsState) (fp : List UInt8) : Nat := fp.length + st.store.device.size + 1

/-- A `NULL` `cwd` becomes the root, as both walks do on a relative path. -/
def cwdOrRoot (st : FsState) : Option Dir → FsState × Dir
  | some cwd => (st, cwd)
  | none => dirOpenRoot st

/-- Where `get_last_dir` starts: the root for an absolute path, else a reopened `cwd`. -/
def startingDir (st : FsState) (cwd : Option Dir) (fp : List UInt8) :
    Except Fault (FsState × Option Dir × Dir) :=
  if fp.head? = some SLASH then
    let (st, dir) := dirOpenRoot st
    pure (st, cwd, dir)
  else do
    let (st, cwd) := cwdOrRoot st cwd
    let (st, dir) ← dirReopen st cwd
    pure (st, some cwd, dir)

/-- The loop of `get_last_dir`, with `prev` the directory above `dir`. -/
def lastDirLoop : Nat → FsState → Option Dir → Dir → List UInt8 → List UInt8 →
    Except Fault (FsState × Option Dir)
  | 0, _, _, _, _, _ => throw .diverge
  | fuel + 1, st, prev, dir, name, fp =>
    let (status, name, fp) := getNextPart name fp
    if status = 0 then do
      let st ← dirClose st (some dir)
      pure (st, prev)
    else do
      let (st, inode) ← dirLookup st dir name
      match inode with
      | none =>
        -- the missing name must be the last one
        if (getNextPart name fp).1 ≠ 1 then do
          let st ← dirClose st prev
          pure (st, some dir)
        else do
          let st ← dirClose st (some dir)
          pure (st, none)
      | some id => do
        let (st, isdir) ← isDir st (← st.getInode id)
        if isdir then do
          let st ← dirClose st prev
          lastDirLoop fuel st (some dir) (dirOpen id) name fp
        -- a file must be the last name; its inode stays open either way
        else if (getNextPart name fp).1 = 0 then do
          let st ← dirClose st prev
          pure (st, some dir)
        else do
          let st ← dirClose st (some dir)
          pure (st, none)

/-- `get_last_dir (fp)`: the directory that holds the last name of `fp`, or `NULL`. -/
def getLastDir (st : FsState) (cwd : Option Dir) (fp : List UInt8) :
    Except Fault (FsState × Option Dir × Option Dir) :=
  if fp = [] then pure (st, cwd, none)
  else do
    let (st, cwd, dir) ← startingDir st cwd fp
    let (st, result) ← lastDirLoop (walkFuel st fp) st none dir [] fp
    pure (st, cwd, result)

/-- The loop of `get_filename_from_path`; every round but the last consumes a name, so
`fp.length + 1` rounds end it. -/
def filenameLoop : Nat → List UInt8 → List UInt8 → Bool × List UInt8
  | 0, name, _ => (true, name)
  | fuel + 1, name, fp =>
    let (status, name, fp) := getNextPart name fp
    if status = 0 then (true, name)
    else if status = -1 then (false, name)
    else filenameLoop fuel name fp

/-- `get_filename_from_path (fp, name)`: the last name of `fp`, `false` when a name is too
long. The buffer starts out empty. -/
def getFilenameFromPath (fp : List UInt8) : Bool × List UInt8 :=
  filenameLoop (fp.length + 1) [] fp

/-! ## Creating, opening and removing -/

/-- The inode of a new entry: `dir_create (inode_sector, initial_size, dir->inode->sector)`
for a directory, `inode_create (inode_sector, initial_size)` for a file. -/
def createInode (st : FsState) (dir : Dir) (sector : Nat) (initialSize : Int) :
    Bool → Except Fault (FsState × Bool)
  | true => do
    let parent ← st.getInode dir.inode
    dirCreate st sector (CInt.u32 initialSize) parent.sector
  | false => inodeCreate freeMapOps st sector initialSize

/-- The `&&` chain of `filesys_create`, with the `inode_sector` it allocated (`0` when
none). -/
def createSteps (st : FsState) (dir : Option Dir) (filename : List UInt8) (initialSize : Int)
    (isdir : Bool) : Except Fault (FsState × Nat × Bool) :=
  match dir with
  | none => pure (st, 0, false)
  | some dir => do
    let (st, r) ← freeMapAllocate st 1
    match r with
    | none => pure (st, 0, false)
    | some sector => do
      let (st, ok) ← createInode st dir sector initialSize isdir
      let (st, ok) ← Trace.seqAnd ok st fun st => dirAdd st dir filename sector
      pure (st, sector, ok)

/-- `if (!success && inode_sector != 0) free_map_release (inode_sector, 1);` -/
def releaseIfFailed (st : FsState) (sector : Nat) (success : Bool) : Except Fault FsState :=
  if !success ∧ sector ≠ 0 then freeMapRelease st sector 1 else pure st

/-- `filesys_create (name, initial_size, isdir)`. A name too long returns before
`dir_close`. -/
def filesysCreate (st : FsState) (cwd : Option Dir) (name : List UInt8) (initialSize : Int)
    (isdir : Bool) : Except Fault (FsState × Option Dir × Bool) := do
  let (st, cwd, dir) ← getLastDir st cwd name
  let (ok, filename) := getFilenameFromPath name
  if !ok then pure (st, cwd, false)
  else do
    let (st, sector, success) ← createSteps st dir filename initialSize isdir
    let st ← releaseIfFailed st sector success
    let st ← dirClose st dir
    pure (st, cwd, success)

/-- Creating the file `a` a second time returns `false` but leaves the free map changed:
`inode_create` took sector `11` for the new inode's index block before `dir_add` found the
name taken, and only the inode's own sector `10` is released. -/
theorem create_existing_name_leaks_index_sector :
    (do
      let st ← filesysInit (Block.blank 256) true
      let (st, cwd, _) ← filesysCreate st none (cstr "a") 0 false
      let (st', _, created) ← filesysCreate st cwd (cstr "a") 0 false
      pure (created, (List.range 256).filter (fun i => st.freeMap[i]? ≠ st'.freeMap[i]?),
        st'.freeMap[11]?)) =
      .ok (false, [11], some true) := by
  -- compare the two maps in one walk rather than index them 256 times each
  simp only [filter_range_ne]
  decide +kernel

/-- `struct file`: its inode, `pos` and `deny_write`. -/
structure File where
  inode : Nat
  pos : Int
  denyWrite : Bool
  deriving DecidableEq, Repr

/-- `file_open (inode)`. -/
def fileOpen (inode : Nat) : File := ⟨inode, 0, false⟩

/-- What `filesys_open` returns, with `*isdir` telling which. -/
inductive Opened where
  | dir (d : Dir)
  | file (f : File)
  deriving DecidableEq, Repr

/-- The end of `filesys_open`: `dir` closed, the inode wrapped as a directory or a file. -/
def wrapOpened (st : FsState) (dir : Dir) (id : Nat) : Except Fault (FsState × Opened) := do
  let st ← dirClose st (some dir)
  let (st, isdir) ← isDir st (← st.getInode id)
  pure (st, if isdir then .dir (dirOpen id) else .file (fileOpen id))

/-- `filesys_open (name, &isdir)`. A failed lookup returns before `dir_close`. -/
def filesysOpen (st : FsState) (cwd : Option Dir) (name : List UInt8) :
    Except Fault (FsState × Option Dir × Option Opened) :=
  if name = [SLASH] then
    let (st, root) := dirOpenRoot st
    pure (st, cwd, some (.dir root))
  else do
    let (st, cwd, dir) ← getLastDir st cwd name
    match dir with
    | none => pure (st, cwd, none)
    | some dir => do
      let (st, inode) ← dirLookup st dir (getFilenameFromPath name).2
      match inode with
      | none => pure (st, cwd, none)
      | some id => do
        let (st, opened) ← wrapOpened st dir id
        pure (st, cwd, some opened)

/-- From a freshly formatted disk, with `cwd` still `NULL`, `open ("/x")` for a missing `x`
returns `NULL` but leaves the root's `struct inode` open with a count of `1`, held by no
handle: `filesys_open` returns before `dir_close (dir)`. -/
theorem failed_open_leaks_root_reference :
    (do
      let st ← filesysInit (Block.blank 256) true
      let (st, cwd, opened) ← filesysOpen st none (cstr "/x")
      pure (opened, cwd,
        (st.openInodes.find? (Inode.sector · = ROOT_DIR_SECTOR)).map Inode.openCnt)) =
      .ok (none, none, some 1) := by
  decide +kernel

/-- On a freshly formatted disk, `open ("//")` returns `NULL` while `open ("/")` returns the
root: `get_last_dir` finds no name after the slashes and returns its `prev`, still `NULL`,
and only the exact string `"/"` is special-cased. -/
theorem open_double_slash_finds_nothing :
    (do
      let st ← filesysInit (Block.blank 256) true
      let (st, _, twice) ← filesysOpen st none (cstr "//")
      let (_, _, once) ← filesysOpen st none (cstr "/")
      pure (twice, once.map fun (o : Opened) => match o with
        | .dir d => some d.inode
        | .file _ => none)) =
      .ok (none, some (some 4)) := by
  decide +kernel

/-- `dir != NULL && dir_remove (dir, filename)`. -/
def removeIn (st : FsState) (cwd : Option Dir) (filename : List UInt8) :
    Option Dir → Except Fault (FsState × Bool)
  | none => pure (st, false)
  | some dir => dirRemove st cwd dir filename

/-- `filesys_remove (name)`. -/
def filesysRemove (st : FsState) (cwd : Option Dir) (name : List UInt8) :
    Except Fault (FsState × Option Dir × Bool) := do
  let (st, cwd, dir) ← getLastDir st cwd name
  let (st, success) ← removeIn st cwd (getFilenameFromPath name).2 dir
  let st ← dirClose st dir
  pure (st, cwd, success)

/-- `mkdir ("a")` then `remove ("a/.")` from a freshly formatted disk: the remove succeeds
by unlinking the `.` entry of `a`, the last close frees `a`, and the root keeps its entry
`a`, naming sector `8`, which the free map now shows free. -/
theorem remove_dot_unlinks_live_directory :
    (do
      let st ← filesysInit (Block.blank 256) true
      let (st, cwd, _) ← filesysCreate st none (cstr "a") 16 true
      let (st, _, removed) ← filesysRemove st cwd (cstr "a/.")
      let (st, root) := dirOpenRoot st
      let (st, entry) ← lookup st root (cstr "a")
      pure (removed, entry.map fun (found : (Nat → UInt8) × Nat) => DirEntry.inodeSector found.1,
        st.freeMap[8]?)) =
      .ok (true, some 8, some false) := by
  decide +kernel

/-- The same run followed by `remove ("a")`: the entry still names `a`'s freed sector, its
directory looks empty, and closing it releases its data sector `9` a second time, which the
`ASSERT` of `free_map_release` stops. -/
theorem remove_after_dot_releases_free_sector :
    Trace.errorOf (do
      let st ← filesysInit (Block.blank 256) true
      let (st, cwd, _) ← filesysCreate st none (cstr "a") 16 true
      let (st, cwd, _) ← filesysRemove st cwd (cstr "a/.")
      filesysRemove st cwd (cstr "a")) = some (.assert .freeMapAllUsed) := by
  decide +kernel

/-! ## The current directory -/

/-- Where `verify_filepath` starts: for a `NULL` `dir` the root, which also becomes the
`cwd`; otherwise a second `struct dir` over the `cwd`'s inode, opened without
`inode_reopen`. An absolute path then closes that one and starts from a new root. -/
def verifyStart (st : FsState) (cwd : Option Dir) (fp : List UInt8) :
    Except Fault (FsState × Option Dir × Dir × Option Nat) := do
  let (st, cwd, dir) := match cwd with
    | none => let (st, root) := dirOpenRoot st; (st, some root, root)
    | some c => (st, some c, dirOpen c.inode)
  if fp.head? = some SLASH then do
    let st ← dirClose st (some dir)
    let (st, root) := dirOpenRoot st
    pure (st, cwd, root, some root.inode)
  else pure (st, cwd, dir, none)

/-- The loop of `verify_filepath`: `*inode` is the last inode looked up. -/
def verifyLoop : Nat → FsState → Dir → Option Nat → List UInt8 → List UInt8 →
    Except Fault (FsState × Bool × Option Nat)
  | 0, _, _, _, _, _ => throw .diverge
  | fuel + 1, st, dir, inode, name, fp =>
    let (status, name, fp) := getNextPart name fp
    if status = 0 then pure (st, true, inode)
    else do
      let (st, found) ← dirLookup st dir name
      match found with
      | none => do
        let st ← dirClose st (some dir)
        pure (st, false, found)
      | some id => do
        let (st, isdir) ← isDir st (← st.getInode id)
        if isdir then do
          let st ← dirClose st (some dir)
          verifyLoop fuel st (dirOpen id) found name fp
        else if (getNextPart name fp).1 = 1 then do
          let st ← dirClose st (some dir)
          pure (st, false, found)
        else pure (st, true, found)

/-- `verify_filepath (fp, dir, &inode)`, called with `dir` the `cwd`. -/
def verifyFilepath (st : FsState) (cwd : Option Dir) (fp : List UInt8) :
    Except Fault (FsState × Option Dir × Bool × Option Nat) :=
  if fp = [] then pure (st, cwd, false, none)
  else do
    let (st, cwd, dir, inode) ← verifyStart st cwd fp
    let (st, ok, inode) ← verifyLoop (walkFuel st fp) st dir inode [] fp
    pure (st, cwd, ok, inode)

/-- `chdir (name)`: the new `cwd` wraps the inode `verify_filepath` found; the old one is
not closed. -/
def chdir (st : FsState) (cwd : Option Dir) (name : List UInt8) :
    Except Fault (FsState × Option Dir × Bool) := do
  let (st, cwd, ok, inode) ← verifyFilepath st cwd name
  if ok then
    match inode with
    | some id => pure (st, some (dirOpen id), true)
    | none => throw .wildAccess
  else pure (st, cwd, false)

/-- `chdir ("f")` for a regular file `f` returns `true` and makes `f`'s inode the `cwd`:
the walk of `verify_filepath` ends on the file through its `break`. -/
theorem chdir_into_file_succeeds :
    (do
      let st ← filesysInit (Block.blank 256) true
      let (st, cwd, _) ← filesysCreate st none (cstr "f") 0 false
      let (st, cwd, changed) ← chdir st cwd (cstr "f")
      match cwd with
      | some c => do
        let (_, isdir) ← isDir st (← st.getInode c.inode)
        pure (changed, some isdir)
      | none => pure (changed, none)) =
      .ok (true, some false) := by
  decide +kernel

end Pintos.Filesys
