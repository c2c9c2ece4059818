import Pintos.Filesys.Filesys

/-!
The calls of `filesys/file.c` on a `struct file`. A `NULL` file is `none`: `file_length`,
`file_seek`, `file_tell`, `file_deny_write` and `file_allow_write` assert that it is not,
`file_close` ignores it, and the others are only called on a file. `file_read` and
`file_write` go through `inode_read_at` and `inode_write_at`, whose `size` and `offset` are
`size_t`, and move the position by what they moved.
-/

namespace Pintos.Filesys

/-- `ASSERT (file != NULL)`. -/
def assertFile : Option File → Except Fault File
  | some file => pure file
  | none => throw (.assert .fileNonNull)

/-- `file_deny_write (file)`: the inode's count goes up once per file. -/
def fileDenyWrite (st : FsState) (file : Option File) : Except Fault (FsState × File) := do
  let file ← assertFile file
  if !file.denyWrite then do
    let st ← inodeDenyWrite st file.inode
    pure (st, { file with denyWrite := true })
  else pure (st, file)

/-- `file_allow_write (file)`. -/
def fileAllowWrite (st : FsState) (file : Option File) : Except Fault (FsState × File) := do
  let file ← assertFile file
  if file.denyWrite then do
    let st ← inodeAllowWrite st file.inode
    pure (st, { file with denyWrite := false })
  else pure (st, file)

/-- `file_close (file)`: the denial is lifted before the inode is closed. -/
def fileClose (st : FsState) : Option File → Except Fault FsState
  | none => pure st
  | some file => do
    let (st, file) ← fileAllowWrite st (some file)
    inodeClose freeMapOps st (some file.inode)

/-- `file_read (file, buffer, size)`. -/
def fileRead (st : FsState) (file : File) (buffer : Nat → UInt8) (size : Int) :
    Except Fault (FsState × File × (Nat → UInt8) × Int) := do
  let (st, buffer, bytesRead) ← inodeReadAt st file.inode buffer (CInt.u32 size) (CInt.u32 file.pos)
  pure (st, { file with pos := file.pos + bytesRead }, buffer, bytesRead)

/-- `file_write (file, buffer, size)`. -/
def fileWrite (st : FsState) (file : File) (buffer : Nat → UInt8) (size : Int) :
    Except Fault (FsState × File × Int) := do
  let (st, bytesWritten) ←
    inodeWriteAt freeMapOps st file.inode buffer (CInt.u32 size) (CInt.u32 file.pos)
  pure (st, { file with pos := file.pos + bytesWritten }, bytesWritten)

/-- `file_length (file)`. -/
def fileLength (st : FsState) (file : Option File) : Except Fault (FsState × Int) := do
  let file ← assertFile file
  inodeLength st (← st.getInode file.inode)

/-- `file_seek (file, new_pos)`. -/
def fileSeek (file : Option File) (newPos : Int) : Except Fault File := do
  let file ← assertFile file
  if newPos ≥ 0 then pure { file with pos := newPos } else throw (.assert .seekNonNegative)

/-- `file_tell (file)`. -/
def fileTell (file : Option File) : Except Fault Int := do
  let file ← assertFile file
  pure file.pos

/-- `inode_sector (inode)`. -/
def inodeSector (st : FsState) (id : Nat) : Except Fault Nat := do
  let inode ← st.getInode id
  pure inode.sector

/-- `file_inumber (file)`. -/
def fileInumber (st : FsState) (file : File) : Except Fault Nat := inodeSector st file.inode

/-- `dir_inumber (dir)`. -/
def dirInumber (st : FsState) (dir : Dir) : Except Fault Nat := inodeSector st dir.inode

@[simp] theorem assertFile_none : assertFile none = throw (.assert .fileNonNull) := rfl

@[simp] theorem assertFile_some (file : File) : assertFile (some file) = pure file := rfl

end Pintos.Filesys
