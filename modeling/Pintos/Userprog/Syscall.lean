import Pintos.Devices.Block
import Pintos.Lib.CInt
import Pintos.Lib.Trace

/-!
The memory accesses of `syscall_handler` in `userprog/syscall.c`. The process's address
space is the set of user pages its page directory maps, with the bytes of memory. The
handler validates pointers with `is_valid_args` and `is_valid_file`, reads the syscall
number and arguments from the user stack, and hands path strings and buffers to the file
system. The model follows every check and collects, in order, the addresses the kernel
reads or writes for the process. A kernel access to an unmapped user page is a page fault
in kernel context, and `page_fault` then panics; the model stops with `Fault.kernelFault`.

What a descriptor names comes from `FdView`, the part of the thread's `fd_map` and the file
system that decides which descriptors hold a file or a directory and how many bytes a call
moves; `FdState.view` of `Pintos.Userprog.FdCalls` reads it off a process.

* `isValidArgs_bytes`: `is_valid_args (args, n)` makes every byte from `args` to
  `args + 4 n` a mapped user byte;
* `scalar_calls_never_fault`: so, with a word-aligned `esp`, every call that takes no
  pointer touches only mapped user bytes and takes no page fault in the kernel; what stops
  one is an `ASSERT` of `file.c`, on the file of `filesize`, `seek` or `tell` or on the
  position of `seek` (`fileOperationHandler_fileLength`, `fileOperationHandler_seek`).

The path and buffer calls are where the checks fall short: `remove` and `chdir` hand the
path over unchecked, and the run after the handler shows `remove` of a path on an unmapped
page fault in the kernel.
-/

namespace Pintos.Userprog

/-- `PHYS_BASE`, where the kernel's mapping of physical memory starts. -/
def PHYS_BASE : Nat := 0xc0000000

def PGSIZE : Nat := 4096

/-! ## Syscall numbers, from `lib/syscall-nr.h` -/

def SYS_HALT : Nat := 0
def SYS_EXIT : Nat := 1
def SYS_EXEC : Nat := 2
def SYS_WAIT : Nat := 3
def SYS_CREATE : Nat := 4
def SYS_REMOVE : Nat := 5
def SYS_OPEN : Nat := 6
def SYS_FILESIZE : Nat := 7
def SYS_READ : Nat := 8
def SYS_WRITE : Nat := 9
def SYS_SEEK : Nat := 10
def SYS_TELL : Nat := 11
def SYS_CLOSE : Nat := 12
def SYS_PRACTICE : Nat := 13
def SYS_CHDIR : Nat := 16
def SYS_MKDIR : Nat := 17
def SYS_READDIR : Nat := 18
def SYS_ISDIR : Nat := 19
def SYS_INUMBER : Nat := 20

/-- The user pages the process's page directory maps, by page number, and the bytes of
the address space. -/
structure AddressSpace where
  mapped : Nat → Bool
  byte : Nat → UInt8

/-- What the descriptor calls find, as far as the bytes they move depend on it. -/
structure FdView where
  /-- `isdir (fd)`: `fd` names a directory. -/
  isDir : Int → Bool
  /-- `get_file_from_fd (fd) != NULL`: `fd` holds a file. -/
  hasFile : Int → Bool
  /-- The bytes `file_read` or `file_write` moves for `fd` asked for `size`; `none` when
  `fd` names no file. -/
  transfer : Int → Int → Option Nat
  /-- The bytes `dir_readdir` copies into `name`, terminator included; `none` when it
  copies nothing. -/
  readdirName : Int → Option Nat

/-- How a call ends: `exit (status)`, the machine powered off, or back in user mode. -/
inductive Outcome where
  | exit (status : Int)
  | halt
  | returned
  deriving DecidableEq, Repr

def isUserVaddr (a : Nat) : Bool := a < PHYS_BASE

/-- `pagedir_get_page (pd, uaddr) != NULL`. -/
def pagedirGetPage (as : AddressSpace) (a : Nat) : Bool := isUserVaddr a && as.mapped (a / PGSIZE)

/-- `is_valid_args (args, number_args)`: the first byte of `args` and the byte
`4 * number_args` after it are mapped user bytes. -/
def isValidArgs (as : AddressSpace) (args n : Nat) : Bool :=
  isUserVaddr args && isUserVaddr (args + 4 * n) &&
    pagedirGetPage as args && pagedirGetPage as (args + 4 * n)

/-- `is_valid_file (file)`: not `NULL`, and `is_valid_args (file, 1)`. -/
def isValidFile (as : AddressSpace) (file : Nat) : Bool := file != 0 && isValidArgs as file 1

/-- The kernel touches `addrs`: a user byte on an unmapped page faults. Kernel addresses
are mapped for the kernel and do not fault. -/
def touch (as : AddressSpace) (addrs : List Nat) : Except Fault (List Nat) :=
  if addrs.all fun a => !isUserVaddr a || as.mapped (a / PGSIZE) then pure addrs
  else throw .kernelFault

/-- `args[i]`: the four bytes at `args + 4 i`, read as an `uint32_t`. -/
def readArg (as : AddressSpace) (args i : Nat) : Except Fault (List Nat × Nat) := do
  let a := args + 4 * i
  let t ← touch as [a, a + 1, a + 2, a + 3]
  pure (t, leU32 as.byte a)

/-- The bytes of the C string at `p` that code scanning it up to its terminator reads, at
most `limit`; the scan ends at a byte that faults. -/
def stringAt (as : AddressSpace) : Nat → Nat → List Nat
  | 0, _ => []
  | limit + 1, p =>
    if isUserVaddr p && !as.mapped (p / PGSIZE) then [p]
    else if as.byte p = 0 then [p]
    else p :: stringAt as limit (p + 1)

/-- The bytes from `p` on that a scan with no limit reads. -/
def cString (as : AddressSpace) (p : Nat) : List Nat := stringAt as (2 ^ 32) p

/-- The file system reads the path at `file`, after `is_valid_file` when `checked`. Both
`get_last_dir` and `verify_filepath` start with `strcmp (fp, "")`, whose
`ASSERT (a != NULL)` stops a null path before any of its bytes is read. -/
def pathCall (as : AddressSpace) (checked : Bool) (file : Nat) :
    Except Fault (List Nat × Outcome) :=
  if checked && !isValidFile as file then pure ([], .exit (-1))
  else if file = 0 then throw .panic
  else do
    let t ← touch as (cString as file)
    pure (t, .returned)

/-- `read` and `write` on a file: `is_valid_file (buffer)`, then the bytes moved. -/
def bufferCall (as : AddressSpace) (fds : FdView) (fd : Int) (buffer size : Nat) :
    Except Fault (List Nat × Outcome) :=
  if !isValidFile as buffer then pure ([], .exit (-1))
  else
    match fds.transfer fd (CInt.i32 size) with
    | none => pure ([], .returned)
    | some n => do
      let t ← touch as ((List.range n).map (buffer + ·))
      pure (t, .returned)

/-- `is_valid_args (args, n)`, or `exit (-1)` before any access. -/
def checkArgs (as : AddressSpace) (args n : Nat) (k : Except Fault (List Nat × Outcome)) :
    Except Fault (List Nat × Outcome) :=
  if isValidArgs as args n then k else pure ([], .exit (-1))

/-- Adds the bytes read before `k` to what it touches. -/
def after (t : List Nat) (k : Except Fault (List Nat × Outcome)) :
    Except Fault (List Nat × Outcome) := do
  let (t', out) ← k
  pure (t ++ t', out)

/-- `file_operation_handler (f)`, from the `switch (args[0])`. -/
def fileOperationHandler (as : AddressSpace) (fds : FdView) (args : Nat) :
    Except Fault (List Nat × Outcome) := do
  let (t0, nr) ← readArg as args 0
  after t0 <|
  if nr = SYS_CREATE then checkArgs as args 3 do
    let (t1, file) ← readArg as args 1
    let (t2, _) ← readArg as args 2
    after (t1 ++ t2) (pathCall as true file)
  else if nr = SYS_REMOVE then checkArgs as args 2 do
    -- `remove` passes the path to `filesys_remove` without `is_valid_file`
    let (t1, file) ← readArg as args 1
    after t1 (pathCall as false file)
  else if nr = SYS_OPEN ∨ nr = SYS_MKDIR then checkArgs as args 2 do
    let (t1, file) ← readArg as args 1
    after t1 (pathCall as true file)
  else if nr = SYS_READ then checkArgs as args 4 do
    let (t3, size) ← readArg as args 3
    let (t2, buffer) ← readArg as args 2
    let (t1, fd) ← readArg as args 1
    after (t3 ++ t2 ++ t1) (bufferCall as fds (CInt.i32 fd) buffer size)
  else if nr = SYS_WRITE then checkArgs as args 4 do
    let (t3, size) ← readArg as args 3
    let (t2, buffer) ← readArg as args 2
    let (t1, fd) ← readArg as args 1
    after (t3 ++ t2 ++ t1) <|
    if fds.isDir (CInt.i32 fd) then pure ([], .exit (-1))
    else if CInt.i32 fd = 1 then do
      -- `printf ("%.*s", size, buffer)` reads up to the terminator, at most `size + 1`
      -- bytes, since `strnlen` reads `string[maxlen]` too, with no check of `buffer`
      let limit := if CInt.i32 size < 0 then 2 ^ 32 else size + 1
      let t ← touch as (stringAt as limit buffer)
      pure (t, .returned)
    else bufferCall as fds (CInt.i32 fd) buffer size
  else if nr = SYS_SEEK then checkArgs as args 3 do
    let (t2, newPos) ← readArg as args 2
    let (t1, fd) ← readArg as args 1
    -- `file_seek (get_file_from_fd (fd), new_pos)` and its two `ASSERT`s
    if !fds.hasFile (CInt.i32 fd) then throw (.assert .fileNonNull)
    else if CInt.i32 newPos < 0 then throw (.assert .seekNonNegative)
    else pure (t2 ++ t1, .returned)
  else if nr = SYS_FILESIZE ∨ nr = SYS_TELL then checkArgs as args 2 do
    let (t1, fd) ← readArg as args 1
    -- `file_length` and `file_tell` of `get_file_from_fd (fd)` assert it is not `NULL`
    if !fds.hasFile (CInt.i32 fd) then throw (.assert .fileNonNull)
    else pure (t1, .returned)
  else if nr = SYS_CLOSE ∨ nr = SYS_ISDIR ∨ nr = SYS_INUMBER then checkArgs as args 2 do
    let (t1, _) ← readArg as args 1
    pure (t1, .returned)
  else if nr = SYS_CHDIR then checkArgs as args 2 do
    -- `chdir` passes the path to `verify_filepath` without `is_valid_file`
    let (t1, file) ← readArg as args 1
    after t1 (pathCall as false file)
  else if nr = SYS_READDIR then checkArgs as args 3 do
    let (t1, fd) ← readArg as args 1
    let (t2, name) ← readArg as args 2
    after (t1 ++ t2) <|
    -- `get_dir_from_fd` gives `NULL` for a descriptor that names no directory, and
    -- `dir_readdir` reads `dir->inode` through it
    if !fds.isDir (CInt.i32 fd) then throw .kernelFault
    else match fds.readdirName (CInt.i32 fd) with
      | none => pure ([], .returned)
      | some n => do
        let t ← touch as ((List.range n).map (name + ·))
        pure (t, .returned)
  else pure ([], .returned)

/-- `syscall_handler (f)` for a process whose `esp` is `esp`. -/
def syscallHandler (as : AddressSpace) (fds : FdView) (esp : Nat) :
    Except Fault (List Nat × Outcome) :=
  let args := esp
  if !isValidArgs as args 1 then pure ([], .exit (-1))
  else do
    let (t0, nr) ← readArg as args 0
    after t0 <|
    if nr = SYS_EXIT then do
      let (t1, status) ← readArg as args 1
      pure (t1, .exit (CInt.i32 status))
    else if nr = SYS_PRACTICE then do
      let (t1, _) ← readArg as args 1
      pure (t1, .returned)
    else if nr = SYS_HALT then pure ([], .halt)
    else if nr = SYS_EXEC then checkArgs as args 2 do
      let (t1, file) ← readArg as args 1
      after t1 (pathCall as true file)
    else if nr = SYS_WAIT then checkArgs as args 2 do
      let (t1, _) ← readArg as args 1
      pure (t1, .returned)
    else fileOperationHandler as fds args

/-- A process with one mapped page, the top page of user memory, calls `remove` on a path at
`0x1000`, on a page it has not mapped: its frame at `PHYS_BASE - 12` holds `SYS_REMOVE` and
`args[1] = 0x1000`. The frame passes `is_valid_args (args, 2)`, and `strcmp` in
`get_last_dir` reads the path's first byte on the unmapped page: a page fault in the kernel.
The same frame with `SYS_OPEN` ends in `exit (-1)`, since `open` checks the path with
`is_valid_file`. -/
theorem remove_unmapped_path_faults_in_kernel :
    let stack (nr : Nat) : AddressSpace :=
      ⟨fun page => page == PHYS_BASE / PGSIZE - 1,
        fun a => if a = PHYS_BASE - 12 then nr.toUInt8 else if a = PHYS_BASE - 7 then 0x10 else 0⟩
    let fds : FdView := ⟨fun _ => false, fun _ => false, fun _ _ => none, fun _ => none⟩
    syscallHandler (stack SYS_REMOVE) fds (PHYS_BASE - 12) = .error .kernelFault ∧
      (syscallHandler (stack SYS_OPEN) fds (PHYS_BASE - 12)).map Prod.snd = .ok (.exit (-1)) := by
  decide

/-! ## What `is_valid_args` checks -/

/-- The bytes between two mapped user bytes less than a page apart are mapped user
bytes: they lie on the page of one or the other. -/
theorem pagedirGetPage_between {as : AddressSpace} {lo hi a : Nat}
    (hlo : pagedirGetPage as lo) (hhi : pagedirGetPage as hi) (hspan : hi - lo < PGSIZE)
    (h1 : lo ≤ a) (h2 : a ≤ hi) : pagedirGetPage as a := by
  simp only [pagedirGetPage, isUserVaddr, PGSIZE, Bool.and_eq_true, decide_eq_true_eq]
    at hlo hhi hspan ⊢
  refine ⟨by omega, ?_⟩
  -- `a` is on the page of `lo` or on the next one, which holds `hi`
  have hpage : a / 4096 = lo / 4096 ∨ a / 4096 = hi / 4096 := by omega
  rcases hpage with h | h
  · rw [h]; exact hlo.2
  · rw [h]; exact hhi.2

/-- `is_valid_args (args, n)` makes every byte from `args` to `args + 4 n` a mapped user
byte, for fewer than a page of arguments. -/
theorem isValidArgs_bytes {as : AddressSpace} {args n : Nat} (hn : 4 * n < PGSIZE)
    (h : isValidArgs as args n) :
    ∀ a, args ≤ a → a ≤ args + 4 * n → pagedirGetPage as a := by
  intro a h1 h2
  simp only [isValidArgs, Bool.and_eq_true] at h
  exact pagedirGetPage_between h.1.2 h.2 (by omega) h1 h2

/-- A word-aligned mapped user byte starts a word on its own page. -/
theorem word_of_aligned {as : AddressSpace} {a : Nat} (ha : a % 4 = 0)
    (h : pagedirGetPage as a) : ∀ j < 4, pagedirGetPage as (a + j) := by
  intro j hj
  simp only [pagedirGetPage, isUserVaddr, Bool.and_eq_true, decide_eq_true_eq] at h ⊢
  -- `PGSIZE` and `PHYS_BASE` are multiples of 4, so the word stays on the page and below
  have hpage : (a + j) / PGSIZE = a / PGSIZE := by unfold PGSIZE; omega
  refine ⟨?_, hpage ▸ h.2⟩
  unfold PHYS_BASE at h ⊢
  omega

/-- The words `args[0]` to `args[n - 1]` that `is_valid_args (args, n)` covers. -/
theorem word_of_isValidArgs {as : AddressSpace} {args n i : Nat} (hn : 4 * n < PGSIZE)
    (hv : isValidArgs as args n) (hi : i < n) :
    ∀ j < 4, pagedirGetPage as (args + 4 * i + j) :=
  fun j _ => isValidArgs_bytes hn hv _ (by omega) (by omega)

/-- `args[n]`, of which `is_valid_args (args, n)` checks the first byte only: on a
word-aligned stack the rest of it is on the same page. -/
theorem last_word_of_isValidArgs {as : AddressSpace} {args n : Nat} (halign : args % 4 = 0)
    (hv : isValidArgs as args n) : ∀ j < 4, pagedirGetPage as (args + 4 * n + j) := by
  have hlast : pagedirGetPage as (args + 4 * n) := by
    simp only [isValidArgs, Bool.and_eq_true] at hv
    exact hv.2
  exact word_of_aligned (by omega) hlast

/-! ## Calls with no pointer argument -/

/-- The four bytes of a word that starts on a mapped user byte and stays on its page. -/
theorem mem_word_mapped {as : AddressSpace} {a : Nat} (h : ∀ j < 4, pagedirGetPage as (a + j)) :
    ∀ b ∈ [a, a + 1, a + 2, a + 3], pagedirGetPage as b := by
  intro b hb
  simp only [List.mem_cons, List.not_mem_nil, or_false] at hb
  rcases hb with rfl | rfl | rfl | rfl
  · exact h 0 (by omega)
  · exact h 1 (by omega)
  · exact h 2 (by omega)
  · exact h 3 (by omega)

/-- `args[i]` when its four bytes are mapped user bytes: no fault, and the word. -/
theorem readArg_of_mapped {as : AddressSpace} {args i : Nat}
    (h : ∀ j < 4, pagedirGetPage as (args + 4 * i + j)) :
    readArg as args i = .ok ([args + 4 * i, args + 4 * i + 1, args + 4 * i + 2, args + 4 * i + 3],
      leU32 as.byte (args + 4 * i)) := by
  -- a mapped user byte does not fault
  have hall : [args + 4 * i, args + 4 * i + 1, args + 4 * i + 2, args + 4 * i + 3].all
      (fun a => !isUserVaddr a || as.mapped (a / PGSIZE)) = true := by
    rw [List.all_eq_true]
    intro a ha
    have hm := mem_word_mapped h a ha
    simp only [pagedirGetPage, Bool.and_eq_true] at hm
    simp [hm.2]
  simp only [readArg, touch, hall, if_true]
  rfl

/-- A run of the handler that ends without a page fault in the kernel: it returns having
touched only mapped user bytes, or stops at the `ASSERT (file != NULL)` or
`ASSERT (new_pos >= 0)` of `file.c`. -/
def NoKernelFault (as : AddressSpace) (r : Except Fault (List Nat × Outcome)) : Prop :=
  (∃ t out, r = .ok (t, out) ∧ ∀ a ∈ t, pagedirGetPage as a) ∨
    r = .error (.assert .fileNonNull) ∨ r = .error (.assert .seekNonNegative)

theorem noKernelFault_returned {as : AddressSpace} {t : List Nat} (out : Outcome)
    (ht : ∀ a ∈ t, pagedirGetPage as a) : NoKernelFault as (pure (t, out)) :=
  .inl ⟨t, out, rfl, ht⟩

theorem noKernelFault_pure (as : AddressSpace) (out : Outcome) : NoKernelFault as (pure ([], out)) :=
  noKernelFault_returned out fun _ h => by cases h

theorem noKernelFault_after {as : AddressSpace} {t : List Nat}
    {k : Except Fault (List Nat × Outcome)} (ht : ∀ a ∈ t, pagedirGetPage as a)
    (hk : NoKernelFault as k) : NoKernelFault as (after t k) := by
  rcases hk with ⟨t', out, rfl, ht'⟩ | rfl | rfl
  · exact noKernelFault_returned out fun a ha =>
      (List.mem_append.mp ha).elim (ht a) (ht' a)
  · exact .inr (.inl rfl)
  · exact .inr (.inr rfl)

theorem noKernelFault_checkArgs {as : AddressSpace} {args n : Nat}
    {k : Except Fault (List Nat × Outcome)} (hk : isValidArgs as args n → NoKernelFault as k) :
    NoKernelFault as (checkArgs as args n k) := by
  unfold checkArgs
  split
  · next h => exact hk h
  · exact noKernelFault_pure as _

/-- Reading `args[i]` when its four bytes are mapped user bytes, and going on with `f`. -/
theorem noKernelFault_readArg {as : AddressSpace} {args i : Nat}
    {f : List Nat × Nat → Except Fault (List Nat × Outcome)}
    (h : ∀ j < 4, pagedirGetPage as (args + 4 * i + j))
    (hf : ∀ t, (∀ a ∈ t, pagedirGetPage as a) →
      NoKernelFault as (f (t, leU32 as.byte (args + 4 * i)))) :
    NoKernelFault as (readArg as args i >>= f) := by
  rw [readArg_of_mapped h]
  exact hf _ (mem_word_mapped h)

/-- The calls that hand the file system or `process_execute` a pointer. -/
def pointerCalls : List Nat :=
  [SYS_EXEC, SYS_CREATE, SYS_REMOVE, SYS_OPEN, SYS_READ, SYS_WRITE, SYS_CHDIR, SYS_MKDIR,
    SYS_READDIR]

/-- `file_operation_handler` for a call with no pointer argument. -/
theorem fileOperationHandler_scalar {as : AddressSpace} {fds : FdView} {args : Nat}
    (hv : isValidArgs as args 1) (hnr : leU32 as.byte args ∉ pointerCalls) :
    NoKernelFault as (fileOperationHandler as fds args) := by
  simp only [pointerCalls, List.mem_cons, List.not_mem_nil, or_false, not_or] at hnr
  obtain ⟨-, hcreate, hremove, hopen, hread, hwrite, hchdir, hmkdir, hreaddir⟩ := hnr
  unfold fileOperationHandler
  apply noKernelFault_readArg (word_of_isValidArgs (by decide) hv (by omega))
  intro t0 ht0
  apply noKernelFault_after ht0
  simp only [Nat.mul_zero, Nat.add_zero]
  rw [if_neg hcreate, if_neg hremove, if_neg (not_or.mpr ⟨hopen, hmkdir⟩), if_neg hread,
    if_neg hwrite]
  split
  · -- `seek`: `args[2]` and `args[1]`, then the two `ASSERT`s of `file_seek`
    refine noKernelFault_checkArgs fun hv3 => ?_
    refine noKernelFault_readArg (word_of_isValidArgs (by decide) hv3 (by omega)) fun t2 ht2 => ?_
    refine noKernelFault_readArg (word_of_isValidArgs (by decide) hv3 (by omega)) fun t1 ht1 => ?_
    dsimp only
    split
    · exact .inr (.inl rfl)
    split
    · exact .inr (.inr rfl)
    · exact noKernelFault_returned _ fun a ha => (List.mem_append.mp ha).elim (ht2 a) (ht1 a)
  split
  · -- `filesize` and `tell`: `args[1]`, then `ASSERT (file != NULL)`
    refine noKernelFault_checkArgs fun hv2 => ?_
    refine noKernelFault_readArg (word_of_isValidArgs (by decide) hv2 (by omega)) fun t1 ht1 => ?_
    dsimp only
    split
    · exact .inr (.inl rfl)
    · exact noKernelFault_returned _ ht1
  split
  · -- `close`, `isdir` and `inumber`: `args[1]`
    refine noKernelFault_checkArgs fun hv2 => ?_
    exact noKernelFault_readArg (word_of_isValidArgs (by decide) hv2 (by omega))
      fun t1 ht1 => noKernelFault_returned _ ht1
  exact noKernelFault_pure as _

/-- With a word-aligned `esp`, every call that takes no pointer ends without a page fault in
the kernel and touches only mapped user bytes: `is_valid_args` covers the syscall number
and the arguments these calls read. What stops such a call is `file.c`'s `ASSERT` on the
file of `filesize`, `seek` or `tell`, or on the position of `seek`. -/
theorem scalar_calls_never_fault {as : AddressSpace} {fds : FdView} {esp : Nat}
    (halign : esp % 4 = 0) (hnr : leU32 as.byte esp ∉ pointerCalls) :
    NoKernelFault as (syscallHandler as fds esp) := by
  have hexec : leU32 as.byte esp ≠ SYS_EXEC := fun h => hnr (h ▸ List.mem_cons_self)
  unfold syscallHandler
  dsimp only
  split
  · exact noKernelFault_pure as _
  · next hv =>
    have hv : isValidArgs as esp 1 := by simpa using hv
    apply noKernelFault_readArg (word_of_isValidArgs (by decide) hv (by omega))
    intro t0 ht0
    apply noKernelFault_after ht0
    simp only [Nat.mul_zero, Nat.add_zero]
    split
    · -- `exit` reads `args[1]`, which `is_valid_args (args, 1)` checks only in part
      exact noKernelFault_readArg (last_word_of_isValidArgs halign hv)
        fun t1 ht1 => noKernelFault_returned _ ht1
    split
    · exact noKernelFault_readArg (last_word_of_isValidArgs halign hv)
        fun t1 ht1 => noKernelFault_returned _ ht1
    split
    · exact noKernelFault_pure as _
    split
    · refine noKernelFault_checkArgs fun hv2 => ?_
      exact noKernelFault_readArg (word_of_isValidArgs (by decide) hv2 (by omega))
        fun t1 ht1 => noKernelFault_returned _ ht1
    · exact fileOperationHandler_scalar hv hnr

/-- `tell` of descriptor `0` with the number and its argument on the stack page below
`PHYS_BASE`, in a process that holds no file: the handler stops at `file_tell`'s `ASSERT`. -/
theorem tell_without_file_never_faults :
    let as : AddressSpace := ⟨fun page => page == PHYS_BASE / PGSIZE - 1,
      fun a => if a = PHYS_BASE - 12 then SYS_TELL.toUInt8 else 0⟩
    let fds : FdView := ⟨fun _ => false, fun _ => false, fun _ _ => none, fun _ => none⟩
    (PHYS_BASE - 12) % 4 = 0 ∧ leU32 as.byte (PHYS_BASE - 12) ∉ pointerCalls ∧
      NoKernelFault as (syscallHandler as fds (PHYS_BASE - 12)) := by
  intro as fds
  have halign : (PHYS_BASE - 12) % 4 = 0 := by decide
  have hnr : leU32 as.byte (PHYS_BASE - 12) ∉ pointerCalls := by decide
  exact ⟨halign, hnr, scalar_calls_never_fault halign hnr⟩

/-- The handler on a `filesize` or `tell` frame that passes `is_valid_args (args, 2)`: it
returns, or stops at `ASSERT (file != NULL)` on a descriptor that holds no file. -/
theorem fileOperationHandler_fileLength {as : AddressSpace} {fds : FdView} {args : Nat}
    (hv : isValidArgs as args 2)
    (hnr : leU32 as.byte args = SYS_FILESIZE ∨ leU32 as.byte args = SYS_TELL) :
    (fileOperationHandler as fds args).map Prod.snd =
      if fds.hasFile (CInt.i32 (leU32 as.byte (args + 4))) then .ok .returned
      else .error (.assert .fileNonNull) := by
  have h0 := readArg_of_mapped (word_of_isValidArgs (by decide) hv (show 0 < 2 by omega))
  have h1 := readArg_of_mapped (word_of_isValidArgs (by decide) hv (show 1 < 2 by omega))
  simp only [Nat.mul_zero, Nat.add_zero, Nat.mul_one] at h0 h1
  rcases hnr with hnr | hnr <;>
  · simp only [fileOperationHandler, h0, h1, Trace.ok_bind, hnr, checkArgs, hv, after, SYS_TELL,
      SYS_CREATE, SYS_REMOVE, SYS_OPEN, SYS_MKDIR, SYS_READ, SYS_WRITE, SYS_SEEK, SYS_FILESIZE,
      Nat.reduceEqDiff, ↓reduceIte, or_true, or_false]
    cases fds.hasFile (CInt.i32 (leU32 as.byte (args + 4))) <;> rfl

/-- The handler on a `seek` frame that passes `is_valid_args (args, 3)`. -/
theorem fileOperationHandler_seek {as : AddressSpace} {fds : FdView} {args : Nat}
    (hv : isValidArgs as args 3) (hnr : leU32 as.byte args = SYS_SEEK) :
    (fileOperationHandler as fds args).map Prod.snd =
      if !fds.hasFile (CInt.i32 (leU32 as.byte (args + 4))) then .error (.assert .fileNonNull)
      else if CInt.i32 (leU32 as.byte (args + 8)) < 0 then .error (.assert .seekNonNegative)
      else .ok .returned := by
  have h0 := readArg_of_mapped (word_of_isValidArgs (by decide) hv (show 0 < 3 by omega))
  have h1 := readArg_of_mapped (word_of_isValidArgs (by decide) hv (show 1 < 3 by omega))
  have h2 := readArg_of_mapped (word_of_isValidArgs (by decide) hv (show 2 < 3 by omega))
  simp only [Nat.mul_zero, Nat.add_zero, Nat.mul_one, Nat.reduceMul] at h0 h1 h2
  simp only [fileOperationHandler, h0, h1, h2, Trace.ok_bind, hnr, checkArgs, hv, after,
    SYS_CREATE, SYS_REMOVE, SYS_OPEN, SYS_MKDIR, SYS_READ, SYS_WRITE, SYS_SEEK, Nat.reduceEqDiff,
    ↓reduceIte, or_false]
  split_ifs <;> rfl

end Pintos.Userprog
