import Pintos.Filesys.File
import Pintos.Kernel.Console
import Pintos.Userprog.Syscall

/-!
The descriptor calls of `userprog/syscall.c`: the thread's `fd_map` of `thread_fd_t`
records, the lookups `get_file_from_fd` and `get_dir_from_fd`, `remove_file`, and
`filesize`, `read`, `write`, `seek`, `tell`, `close`, `isdir` and `inumber`, with the cases
of `file_operation_handler` that call them and the one of `SYS_READDIR`.

A call takes its arguments as the handler read them off the frame, and works on the file
system, the thread's descriptors, the bytes of its address space and the console. A kernel
access to an unmapped user byte faults, as in `Pintos.Userprog.Syscall`.

* `handler_tell_agrees`, `handler_seek_agrees`: the model of `syscall_handler`'s memory
  accesses, run over the descriptors of a process, stops at the `ASSERT`s of `file.c` exactly
  where these calls do;
* `filesize_of_unopened_fd_fails_assert`: `filesize` of a descriptor with no record hands
  `NULL` to `file_length`, whose `ASSERT` stops the kernel, and `SYS_READDIR` on a file hands
  `NULL` to `dir_readdir`, which reads through it;
* `console_write_bytes`: `write` on descriptor `1` prints the buffer up to its first `NUL`,
  and stores nothing in `f->eax`.
-/

namespace Pintos.Userprog

open Pintos.Filesys

/-- `thread_fd_t`: a descriptor with the file or the directory `open` put in it; `calloc`
left the other one `NULL`. -/
structure ThreadFd where
  fd : Int
  f : Option File
  d : Option Dir
  deriving DecidableEq, Repr

/-- The loop of `get_file_from_fd` and `get_dir_from_fd`: the first record with `fd`. -/
def findFd (fdMap : List ThreadFd) (fd : Int) : Option ThreadFd := fdMap.find? (·.fd == fd)

/-- `get_file_from_fd (fd)`: `NULL` when no record has `fd`. -/
def getFileFromFd (fdMap : List ThreadFd) (fd : Int) : Option File := (findFd fdMap fd).bind (·.f)

/-- `get_dir_from_fd (fd)`. -/
def getDirFromFd (fdMap : List ThreadFd) (fd : Int) : Option Dir := (findFd fdMap fd).bind (·.d)

/-- `remove_file (fd)`: the first record with `fd` unlinked. -/
def removeFile (fdMap : List ThreadFd) (fd : Int) : List ThreadFd := fdMap.eraseP (·.fd == fd)

/-- A store through the pointer the loop found: into the first record with `fd`. -/
def updateFd (g : ThreadFd → ThreadFd) : List ThreadFd → Int → List ThreadFd
  | [], _ => []
  | w :: ws, fd => if w.fd == fd then g w :: ws else w :: updateFd g ws fd

/-- What a descriptor call reads and changes. -/
structure FdState where
  fs : FsState
  fdMap : List ThreadFd
  mem : AddressSpace
  /-- what the console has printed -/
  console : List UInt8

/-- How a call ends: the process exits from inside it, or the handler returns with what it
stored in `f->eax`, `none` when it stored nothing. -/
inductive Reply where
  | exit (status : Int)
  | eax (v : Option Int)
  deriving DecidableEq, Repr

/-- A byte of the address space, read by the kernel. -/
def userByte (as : AddressSpace) (a : Nat) : Except Fault UInt8 := do
  let _ ← touch as [a]
  pure (as.byte a)

/-- `bytes` stored from `buffer` on, into the bytes of the address space. -/
def storeBytes (as : AddressSpace) (buffer : Nat) (bytes : Nat → UInt8) : AddressSpace :=
  { as with byte := fun a => if buffer ≤ a then bytes (a - buffer) else as.byte a }

/-! ## The calls -/

/-- `filesize (fd)`. -/
def filesize (s : FdState) (fd : Int) : Except Fault (FdState × Int) := do
  let (fs, n) ← fileLength s.fs (getFileFromFd s.fdMap fd)
  pure ({ s with fs }, n)

/-- `read (fd, buffer, size)`: `-1` for a descriptor with no file. The bytes read land in
the buffer, which the kernel touches byte by byte. -/
def read (s : FdState) (fd : Int) (buffer : Nat) (size : Int) : Except Fault (FdState × Reply) :=
  if !isValidFile s.mem buffer then pure (s, .exit (-1))
  else
    match getFileFromFd s.fdMap fd with
    | none => pure (s, .eax (some (-1)))
    | some file => do
      let (fs, file, bytes, n) ← fileRead s.fs file (fun i => s.mem.byte (buffer + i)) size
      let _ ← touch s.mem ((List.range n.toNat).map (buffer + ·))
      let fdMap := updateFd (fun w => { w with f := some file }) s.fdMap fd
      pure ({ s with fs, fdMap, mem := storeBytes s.mem buffer bytes }, .eax (some n))

/-- `write (fd, buffer, size)`: `0` for a descriptor with no file. -/
def write (s : FdState) (fd : Int) (buffer : Nat) (size : Int) :
    Except Fault (FdState × Reply) :=
  if !isValidFile s.mem buffer then pure (s, .exit (-1))
  else
    match getFileFromFd s.fdMap fd with
    | none => pure (s, .eax (some 0))
    | some file => do
      let (fs, file, n) ← fileWrite s.fs file (fun i => s.mem.byte (buffer + i)) size
      let _ ← touch s.mem ((List.range n.toNat).map (buffer + ·))
      let fdMap := updateFd (fun w => { w with f := some file }) s.fdMap fd
      pure ({ s with fs, fdMap }, .eax (some n))

/-- `seek (fd, new_pos)`. -/
def seek (s : FdState) (fd : Int) (newPos : Int) : Except Fault FdState := do
  let file ← fileSeek (getFileFromFd s.fdMap fd) newPos
  pure { s with fdMap := updateFd (fun w => { w with f := some file }) s.fdMap fd }

/-- `tell (fd)`. -/
def tell (s : FdState) (fd : Int) : Except Fault Int :=
  fileTell (getFileFromFd s.fdMap fd)

/-- `close (fd)`: the file, if any, is closed, and the record unlinked; a directory's record
is unlinked without `dir_close`. -/
def close (s : FdState) (fd : Int) : Except Fault FdState := do
  let fs ← fileClose s.fs (getFileFromFd s.fdMap fd)
  pure { s with fs, fdMap := removeFile s.fdMap fd }

/-- `isdir (fd)`. -/
def isdir (fdMap : List ThreadFd) (fd : Int) : Bool := (getDirFromFd fdMap fd).isSome

/-- `inumber (fd)`: the sector of the directory or file, `-1` for neither. -/
def inumber (s : FdState) (fd : Int) : Except Fault Int :=
  match getDirFromFd s.fdMap fd with
  | some dir => do
    let sector ← dirInumber s.fs dir
    pure (CInt.i32 sector)
  | none =>
    match getFileFromFd s.fdMap fd with
    | some file => do
      let sector ← fileInumber s.fs file
      pure (CInt.i32 sector)
    | none => pure (-1)

/-- The `SYS_READDIR` case: `dir_readdir (get_dir_from_fd (fd), name)`. A `NULL` directory
is read through, at the bottom of memory; a name found is copied to `name` with
`strlcpy`, its terminator included. -/
def readdir (s : FdState) (fd : Int) (name : Nat) : Except Fault (FdState × Bool) :=
  match getDirFromFd s.fdMap fd with
  | none => throw .kernelFault
  | some dir => do
    let (fs, dir, entry) ← dirReaddir s.fs dir
    let fdMap := updateFd (fun w => { w with d := some dir }) s.fdMap fd
    match entry with
    | none => pure ({ s with fs, fdMap }, false)
    | some n => do
      let bytes := n ++ [0]
      let _ ← touch s.mem ((List.range bytes.length).map (name + ·))
      let mem := storeBytes s.mem name fun i => bytes.getD i (s.mem.byte (name + i))
      pure ({ s with fs, fdMap, mem }, true)

/-- The descriptor calls, with their arguments read off the frame. -/
inductive FdCall where
  | filesize (fd : Int)
  | read (fd : Int) (buffer : Nat) (size : Int)
  | write (fd : Int) (buffer : Nat) (size : Int)
  | seek (fd : Int) (newPos : Int)
  | tell (fd : Int)
  | close (fd : Int)
  | readdir (fd : Int) (name : Nat)
  | isdir (fd : Int)
  | inumber (fd : Int)

/-- The cases of `file_operation_handler` for the descriptor calls, after `is_valid_args`.
`write` first exits on a directory, and on descriptor `1` prints the buffer with
`printf ("%.*s", size, buffer)` and stores no result. -/
def fdCall (s : FdState) : FdCall → Except Fault (FdState × Reply)
  | .filesize fd => do
    let (s, n) ← filesize s fd
    pure (s, .eax (some n))
  | .read fd buffer size => read s fd buffer size
  | .write fd buffer size =>
    if isdir s.fdMap fd then pure (s, .exit (-1))
    else if fd = 1 then do
      let out ← printf (userByte s.mem) [chr '%', chr '.', chr '*', chr 's'] [CInt.u32 size, buffer]
      pure ({ s with console := s.console ++ out }, .eax none)
    else write s fd buffer size
  | .seek fd newPos => do
    let s ← seek s fd newPos
    pure (s, .eax none)
  | .tell fd => do
    let n ← tell s fd
    pure (s, .eax (some n))
  | .close fd => do
    let s ← close s fd
    pure (s, .eax none)
  | .readdir fd name => do
    let (s, found) ← readdir s fd name
    pure (s, .eax (some (if found then 1 else 0)))
  | .isdir fd => pure (s, .eax (some (if isdir s.fdMap fd then 1 else 0)))
  | .inumber fd => do
    let n ← inumber s fd
    pure (s, .eax (some n))

/-! ## The handler's view of the descriptors -/

/-- What the model of `syscall_handler`'s memory accesses sees of a process's descriptors:
which hold a directory and which a file, from its `fd_map`; the bytes the transfers move are
`transfer` and `readdirName`. -/
def FdState.view (s : FdState) (transfer : Int → Int → Option Nat)
    (readdirName : Int → Option Nat) : FdView :=
  ⟨isdir s.fdMap, fun fd => (getFileFromFd s.fdMap fd).isSome, transfer, readdirName⟩

section View

variable {s : FdState} {args : Nat} (transfer : Int → Int → Option Nat)
  (readdirName : Int → Option Nat)

/-- `tell` in the two models: on a frame that passes `is_valid_args (args, 2)`, the
handler's run over the view of a process ends where `tell` on the process ends, at
`file_tell`'s `ASSERT` or back in user mode. `filesize` takes the handler's branch of `tell`
(`fileOperationHandler_fileLength`), and goes on to read the inode. -/
theorem handler_tell_agrees (hv : isValidArgs s.mem args 2)
    (hnr : leU32 s.mem.byte args = SYS_TELL) :
    (fileOperationHandler s.mem (s.view transfer readdirName) args).map Prod.snd =
      (fdCall s (.tell (CInt.i32 (leU32 s.mem.byte (args + 4))))).map fun _ => .returned := by
  rw [fileOperationHandler_fileLength hv (.inr hnr)]
  cases hf : getFileFromFd s.fdMap (CInt.i32 (leU32 s.mem.byte (args + 4))) with
  | none =>
    simp only [FdState.view, hf, fdCall, tell, fileTell, Option.isSome_none, if_false,
      Bool.false_eq_true]
    rfl
  | some file =>
    simp only [FdState.view, hf, fdCall, tell, fileTell, Option.isSome_some, if_true]
    rfl

/-- `seek` in the two models, on a frame that passes `is_valid_args (args, 3)`: both stop at
the same `ASSERT` of `file_seek`, or both return. -/
theorem handler_seek_agrees (hv : isValidArgs s.mem args 3)
    (hnr : leU32 s.mem.byte args = SYS_SEEK) :
    (fileOperationHandler s.mem (s.view transfer readdirName) args).map Prod.snd =
      (fdCall s (.seek (CInt.i32 (leU32 s.mem.byte (args + 4)))
        (CInt.i32 (leU32 s.mem.byte (args + 8))))).map fun _ => .returned := by
  rw [fileOperationHandler_seek hv hnr]
  cases hf : getFileFromFd s.fdMap (CInt.i32 (leU32 s.mem.byte (args + 4))) with
  | none =>
    simp only [FdState.view, hf, fdCall, seek, fileSeek, Option.isSome_none, Bool.not_false,
      if_true]
    rfl
  | some file =>
    simp only [FdState.view, hf, fdCall, seek, fileSeek]
    -- the position is checked the other way round in `file_seek`
    by_cases hneg : CInt.i32 (leU32 s.mem.byte (args + 8)) < 0
    · have hge : ¬CInt.i32 (leU32 s.mem.byte (args + 8)) ≥ 0 := Int.not_le.mpr hneg
      simp only [hneg, hge, Option.isSome_some, Bool.not_true, Bool.false_eq_true, if_false]
      rfl
    · have hge : CInt.i32 (leU32 s.mem.byte (args + 8)) ≥ 0 := Int.not_lt.mp hneg
      simp only [hneg, hge, Option.isSome_some, Bool.not_true, Bool.false_eq_true, if_false,
        if_true]
      rfl

end View

/-- A process whose only descriptor is a file at `2` calls `filesize (3)`: no record has
`3`, and `file_length (NULL)` fails its `ASSERT`. `readdir (2, name)` on the file hands
`get_dir_from_fd`'s `NULL` to `dir_readdir`, which reads through it. -/
theorem filesize_of_unopened_fd_fails_assert :
    let s : FdState :=
      ⟨⟨⟨Block.blank 4, []⟩, [true, true, true, true], none, [⟨0, 0, 1, 0, false⟩], 1⟩,
        [⟨2, some (fileOpen 0), none⟩], ⟨fun _ => true, fun _ => 0⟩, []⟩
    fdCall s (.filesize 3) = .error (.assert .fileNonNull) ∧
      fdCall s (.readdir 2 0) = .error .kernelFault := by
  constructor <;> rfl

/-! ## The console -/

/-- `write (1, buffer, size)`, for a `size` that is a non-negative `int` and a descriptor
`1` that is not a directory: the console prints the bytes of the buffer up to its first
`NUL`, at most `size` of them, provided every byte `strnlen` reads is mapped, the one where
it stops included; `f->eax` is left as it was. -/
theorem console_write_bytes {s : FdState} {buffer size n : Nat} (hdir : isdir s.fdMap 1 = false)
    (hb : buffer ≠ 0) (hsize : size < 2 ^ 31) (hn : n ≤ size)
    (hnz : ∀ i < n, s.mem.byte (buffer + i) ≠ 0) (hend : n = size ∨ s.mem.byte (buffer + n) = 0)
    (hmapped : ∀ i ≤ n, s.mem.mapped ((buffer + i) / PGSIZE) = true) :
    fdCall s (.write 1 buffer size) =
      .ok ({ s with console := s.console ++ (List.range n).map (fun i => s.mem.byte (buffer + i)) },
        .eax none) := by
  have hmem : ∀ i ≤ n, userByte s.mem (buffer + i) = .ok (s.mem.byte (buffer + i)) := by
    intro i hi
    simp [userByte, touch, hmapped i hi]
  have hp := printf_precision_string hb hsize hn hnz hend hmem
  have hu : CInt.u32 (size : Int) = size := CInt.u32_nat (by omega)
  simp [fdCall, hdir, hu, hp]

/-- A process with no descriptors whose one mapped page, the top page of user memory, ends
with the bytes `a`, `NUL`, `b`. -/
def nulBufferState : FdState :=
  ⟨⟨⟨Block.blank 4, []⟩, [], none, [], 0⟩, [],
    ⟨fun page => page == PHYS_BASE / PGSIZE - 1,
      fun a => if a = PHYS_BASE - 3 then chr 'a' else if a = PHYS_BASE - 1 then chr 'b' else 0⟩,
    []⟩

theorem console_write_bytes_nul_buffer :
    isdir nulBufferState.fdMap 1 = false ∧ PHYS_BASE - 3 ≠ 0 ∧ 3 < 2 ^ 31 ∧ 1 ≤ 3 ∧
      (∀ i < 1, nulBufferState.mem.byte (PHYS_BASE - 3 + i) ≠ 0) ∧
      (1 = 3 ∨ nulBufferState.mem.byte (PHYS_BASE - 3 + 1) = 0) ∧
      (∀ i ≤ 1, nulBufferState.mem.mapped ((PHYS_BASE - 3 + i) / PGSIZE) = true) ∧
      fdCall nulBufferState (.write 1 (PHYS_BASE - 3) 3) =
        .ok ({ nulBufferState with
          console := nulBufferState.console ++
            (List.range 1).map (fun i => nulBufferState.mem.byte (PHYS_BASE - 3 + i)) },
          .eax none) := by
  have hdir : isdir nulBufferState.fdMap 1 = false := by decide
  have hnz : ∀ i < 1, nulBufferState.mem.byte (PHYS_BASE - 3 + i) ≠ 0 := by decide
  have hend : 1 = 3 ∨ nulBufferState.mem.byte (PHYS_BASE - 3 + 1) = 0 := by decide
  have hmapped : ∀ i ≤ 1, nulBufferState.mem.mapped ((PHYS_BASE - 3 + i) / PGSIZE) = true := by
    decide
  exact ⟨hdir, by decide, by decide, by decide, hnz, hend, hmapped,
    console_write_bytes hdir (by decide) (by decide) (by decide) hnz hend hmapped⟩

/-- `write (1, buffer, 3)` of those three bytes: the console prints `a` alone, and the
handler stores nothing in `f->eax`. -/
theorem console_write_stops_at_nul :
    (fdCall nulBufferState (.write 1 (PHYS_BASE - 3) 3)).map (fun r => (r.1.console, r.2)) =
      .ok ([chr 'a'], .eax none) := by
  decide

end Pintos.Userprog
