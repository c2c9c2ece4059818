import Mathlib.Data.List.TakeDrop
import Pintos.Kernel.Console
import Pintos.Lib.Memory
import Pintos.Userprog.Syscall

/-!
Argument passing in `start_process`: the command line split into words by `get_word_list`,
which calls `strtok_r`, turned into `argv` by `get_argv_from_list`, and pushed on the user
stack by `load_arguments_to_stack`. The kernel writes the stack through the user mapping, so
a write on a user page that is not mapped is a page fault in the kernel.

The loops of `load_arguments_to_stack` store one byte at a time; `kernelStore` stores a block
at once, and faults when one of its bytes would.

* `pokeBytes_eq`, `pushChars_eq`, `pushWords_eq`, `pushAddresses_eq`: each loop is one store
  of what it pushes, laid out from its lowest address;
* `loadArgumentsToStack_eq_spec`: when nothing wraps around, `load_arguments_to_stack` is
  `loadArgumentsSpec`, one store of the words and of the frame below them, then the final test.
-/

namespace Pintos.Userprog

open Memory

/-! ## The command line -/

/-- `strtok_r (s, " ", &save_ptr)` on the bytes from `s` to the terminator: the token and
the bytes after the delimiter that ends it, which `strtok_r` overwrites with the token's
terminator; `none` when only delimiters are left. -/
def strtokR (s : List UInt8) : Option (List UInt8 × List UInt8) :=
  match s.dropWhile (· == chr ' ') with
  | [] => none
  | c :: s =>
    let (token, rest) := (c :: s).span (· != chr ' ')
    some (token, rest.drop 1)

theorem strtokR_length {s token rest : List UInt8} (h : strtokR s = some (token, rest)) :
    rest.length < s.length := by
  unfold strtokR at h
  split at h
  · cases h
  · next c t ht =>
    simp only [List.span_eq_takeWhile_dropWhile, Option.some.injEq, Prod.mk.injEq] at h
    obtain ⟨-, rfl⟩ := h
    -- what is left lies past the first byte that is not a space
    have h₁ : (c :: t).length ≤ s.length := ht ▸ (List.dropWhile_suffix _).length_le
    have h₂ := (List.dropWhile_suffix (· != chr ' ') (l := c :: t)).length_le
    simp only [List.length_drop, List.length_cons] at h₁ h₂ ⊢
    omega

/-- `get_word_list (file_name, word_lst)`: each token with `strlen (token) + 1`. -/
def getWordList (rest : List UInt8) : List (List UInt8 × Nat) :=
  match h : strtokR rest with
  | none => []
  | some (token, rest') => (token, token.length + 1) :: getWordList rest'
termination_by rest.length
decreasing_by exact strtokR_length h

/-- `strtok_r` hands back a token and what follows the space after it, or, when no space
ends the token, nothing. -/
theorem strtokR_lengths {s token rest : List UInt8} (h : strtokR s = some (token, rest)) :
    token.length + 1 + rest.length ≤ s.length ∨ rest = [] ∧ token.length ≤ s.length := by
  unfold strtokR at h
  split at h
  · cases h
  · next c t ht =>
    simp only [List.span_eq_takeWhile_dropWhile, Option.some.injEq, Prod.mk.injEq] at h
    obtain ⟨rfl, rfl⟩ := h
    have h₁ : (c :: t).length ≤ s.length := ht ▸ (List.dropWhile_suffix _).length_le
    have hlen := congrArg List.length
      (List.takeWhile_append_dropWhile (p := (· != chr ' ')) (l := c :: t))
    rw [List.length_append] at hlen
    -- the token ends at a space, which `strtok_r` steps over, or at the end
    cases hd : (c :: t).dropWhile (· != chr ' ') with
    | nil =>
      rw [hd, List.length_nil] at hlen
      exact .inr ⟨rfl, by omega⟩
    | cons d r =>
      rw [hd, List.length_cons] at hlen
      left
      rw [List.drop_one, List.tail_cons]
      omega

/-- `get_word_list` finds no word exactly when its first `strtok_r` finds no token. -/
theorem getWordList_eq_nil_iff {rest : List UInt8} : getWordList rest = [] ↔ strtokR rest = none := by
  rw [getWordList]
  split
  · next h => exact ⟨fun _ => h, fun _ => rfl⟩
  · next h => simp [h]

/-- The words `get_word_list` finds, each with its terminator, take at most the bytes of the
command line and one more: every token but the last gives up a space. -/
theorem sum_getWordList_le (s : List UInt8) : ((getWordList s).map (·.2)).sum ≤ s.length + 1 := by
  fun_induction getWordList s with
  | case1 s h => simp
  | case2 s token rest h ih =>
    simp only [List.map_cons, List.sum_cons]
    rcases strtokR_lengths h with hlen | ⟨rfl, hlen⟩
    · omega
    · -- nothing follows the last token
      have hnil : getWordList [] = [] := getWordList_eq_nil_iff.mpr rfl
      rw [hnil, List.map_nil, List.sum_nil]
      omega

/-- `get_argv_from_list (word_lst, argv, argv_lengths)`. -/
def getArgvFromList (wordLst : List (List UInt8 × Nat)) : List (List UInt8) × List Nat :=
  (wordLst.map (·.1), wordLst.map (·.2))

/-! ## The user stack -/

/-- `p - k` on a 32-bit pointer. -/
def ptrSub (p k : Nat) : Nat := CInt.u32 ((p : Int) - k)

/-- `stack_alignment_calc (stack_pointer, argc)`: the padding that leaves the final stack
pointer at `12` modulo `16`, once the `argv` array and the four words below it are pushed. -/
def stackAlignmentCalc (stackPointer argc : Nat) : Int :=
  let endStackPointer := CInt.u32 ((stackPointer : Int) - 16 - 4 * argc)
  if endStackPointer % 16 ≠ 12 then
    if endStackPointer % 16 > 12 then (endStackPointer % 16 : Int) - 12
    else (endStackPointer % 16 : Int) + 4
  else 0

/-- The kernel stores the byte `c` at `a`: a user address on a page that is not mapped is a
page fault in the kernel. -/
def pokeByte (as : AddressSpace) (a : Nat) (c : UInt8) : Except Fault AddressSpace := do
  let _ ← touch as [a]
  pure { as with byte := Function.update as.byte a c }

/-- `memset (dst, value, size)` and the stores of `memset_word`: the bytes at `dst`,
`dst + 1`, ... in order. -/
def pokeBytes (as : AddressSpace) (dst : Nat) : List UInt8 → Except Fault AddressSpace
  | [] => pure as
  | c :: cs => do
    let as ← pokeByte as dst c
    pokeBytes as (dst + 1) cs

/-- The four bytes `memset_word` stores for `load`, `(load >> (8 * i)) & 0xff` for `i` from
`0` to `3`: `load` as a 32-bit word, least significant byte first. -/
def wordBytes (load : Int) : List UInt8 :=
  (List.range 4).map fun i => ((CInt.u32 load / 2 ^ (8 * i)) % 256).toUInt8

/-- `memset_word (current_sp, load)`. -/
def memsetWord (as : AddressSpace) (currentSp : Nat) (load : Int) : Except Fault AddressSpace :=
  pokeBytes as currentSp (wordBytes load)

/-- The inner loop of `load_arguments_to_stack` over one word: `argv[i][j]` for `j` from
`word_length - 1` down to `0`, each a byte below the one before. `argv[i][j]` past the
token is its terminator. -/
def pushChars (word : List UInt8) (as : AddressSpace) (sp : Nat) : Nat →
    Except Fault (AddressSpace × Nat)
  | 0 => pure (as, sp)
  | j + 1 => do
    let sp := ptrSub sp 1
    let as ← pokeByte as sp ((word ++ [0]).getD j 0)
    pushChars word as sp j

/-- The outer loop over the words, with `address_lst`: where each word starts. The length is
read into an `int`. -/
def pushWords (as : AddressSpace) (sp : Nat) : List (List UInt8 × Nat) →
    Except Fault (AddressSpace × Nat × List Nat)
  | [] => pure (as, sp, [])
  | (word, wordLength) :: rest => do
    let (as, sp) ← pushChars word as sp (CInt.i32 wordLength).toNat
    let (as, sp', addressLst) ← pushWords as sp rest
    pure (as, sp', sp :: addressLst)

/-- The loop over `address_lst` from the last word down. -/
def pushAddresses (as : AddressSpace) (sp : Nat) : List Nat → Except Fault (AddressSpace × Nat)
  | [] => pure (as, sp)
  | a :: rest => do
    let sp := ptrSub sp 4
    let as ← memsetWord as sp a
    pushAddresses as sp rest

/-- The words the outer loop reads: `argv[i]` with `argv_lengths[i]`, for `i` below `argc`. -/
def argWords (argc : Nat) (argv : List (List UInt8)) (argvLengths : List Nat) :
    List (List UInt8 × Nat) :=
  (List.range argc).map fun i => (argv.getD i [], argvLengths.getD i 0)

/-- `load_arguments_to_stack (argc, argv, argv_lengths, if_esp)` with `*if_esp = esp`: the new
`*if_esp`, or `esp` when it returns `false`. `ifEsp` is the address of the caller's
`if_.esp`, which the final test compares with. -/
def loadArgumentsToStack (as : AddressSpace) (argc : Nat) (argv : List (List UInt8))
    (argvLengths : List Nat) (ifEsp esp : Nat) : Except Fault (AddressSpace × Bool × Nat) := do
  let (as, currentSp, addressLst) ← pushWords as esp (argWords argc argv argvLengths)
  let stackAlignment := CInt.u32 (stackAlignmentCalc currentSp argc)
  let currentSp := ptrSub currentSp stackAlignment
  let as ← pokeBytes as currentSp (List.replicate stackAlignment 0)
  -- null argv address
  let currentSp := ptrSub currentSp 4
  let as ← memsetWord as currentSp 0
  let (as, currentSp) ← pushAddresses as currentSp addressLst.reverse
  -- argv, argc, and the return address
  let currentSp := ptrSub currentSp 4
  let as ← memsetWord as currentSp (currentSp + 4)
  let currentSp := ptrSub currentSp 4
  let as ← memsetWord as currentSp argc
  let currentSp := ptrSub currentSp 4
  let as ← memsetWord as currentSp 69
  if currentSp > ifEsp then pure (as, false, esp) else pure (as, true, currentSp)

/-- The argument setup of `start_process (command)` once `load` has set `esp` to
`PHYS_BASE`: the copy of the command up to its terminator, split, and pushed. -/
def startProcessArgs (as : AddressSpace) (command : List UInt8) (ifEsp : Nat) :
    Except Fault (AddressSpace × Bool × Nat) :=
  let commandCopy := command.takeWhile (· != 0)
  let wordList := getWordList commandCopy
  let (argv, argvLengths) := getArgvFromList wordList
  loadArgumentsToStack as wordList.length argv argvLengths ifEsp PHYS_BASE

/-- The address space `setup_stack` leaves: the one zeroed page just below `PHYS_BASE`. -/
def setupStack : AddressSpace := ⟨fun page => page == PHYS_BASE / PGSIZE - 1, fun _ => 0⟩

/-! ## The kernel stack of `start_process` -/

/-- `sizeof (struct thread)` on i386, from `threads/thread.h` with `USERPROG`: `tid`, `status`,
`name[16]`, `stack`, `priority`, `allelem`, `elem`, `executable`, `cwd`, `fd_map`, `pagedir`,
`wait_status`, `children` and `magic`. -/
def sizeofThread : Nat := 4 + 4 + 16 + 4 + 4 + 8 + 8 + 4 + 4 + 16 + 4 + 4 + 16 + 4

/-- What a kernel thread's stack holds: its page, less the `struct thread` at the bottom of
the page, which the stack grows down towards. -/
def kernelStackRoom : Nat := PGSIZE - sizeofThread

/-- The bytes of the variable-length arrays `start_process (command)` puts on its kernel
stack, on i386: `char command_copy[strlen (command) + 1]`, `char *argv[argc + 1]` and
`size_t argv_lengths[argc]`. -/
def startProcessArrays (command : List UInt8) : Nat :=
  let commandCopy := command.takeWhile (· != 0)
  let argc := (getWordList commandCopy).length
  (commandCopy.length + 1) + 4 * (argc + 1) + 4 * argc

/-- The bytes of the frame `load_arguments_to_stack` pushes below `PHYS_BASE` for a word list:
the words with their terminators, the padding of `stack_alignment_calc`, the `argv` array with
its null pointer, then `argv`, `argc` and the return address. -/
def argFrameBytes (wordLst : List (List UInt8 × Nat)) : Nat :=
  let strings := (wordLst.map (·.2)).sum
  strings + CInt.u32 (stackAlignmentCalc (PHYS_BASE - strings) wordLst.length) +
    4 * (wordLst.length + 1) + 12

/-! ## The stores as one write -/

/-- The kernel can store a byte at `a` of an address space whose pages are `mapped`, as `touch`
checks it. -/
def writable (mapped : Nat → Bool) (a : Nat) : Bool := !isUserVaddr a || mapped (a / PGSIZE)

/-- The bytes `cs` stored at `dst` by the kernel at once: a page fault when one of them is on
a user page that is not mapped. -/
def kernelStore (as : AddressSpace) (dst : Nat) (cs : List UInt8) : Except Fault AddressSpace :=
  if ∀ i < cs.length, writable as.mapped (dst + i) then
    pure { as with byte := store as.byte dst cs }
  else throw .kernelFault

@[simp] theorem kernelStore_nil (as : AddressSpace) (dst : Nat) :
    kernelStore as dst [] = pure as := by
  simp [kernelStore]

theorem kernelStore_eq_ok {as as' : AddressSpace} {dst : Nat} {cs : List UInt8}
    (h : kernelStore as dst cs = .ok as') : as' = { as with byte := store as.byte dst cs } := by
  unfold kernelStore at h
  split at h
  · exact (Except.ok.inj h).symm
  · cases h

/-- A store that succeeds had every one of its bytes writable. -/
theorem kernelStore_writable {as as' : AddressSpace} {dst : Nat} {cs : List UInt8}
    (h : kernelStore as dst cs = .ok as') : ∀ i < cs.length, writable as.mapped (dst + i) := by
  unfold kernelStore at h
  split at h
  · assumption
  · cases h

/-- A store with a byte the kernel cannot write faults. -/
theorem kernelStore_fault {as : AddressSpace} {dst : Nat} {cs : List UInt8} {i : Nat}
    (hi : i < cs.length) (hw : writable as.mapped (dst + i) = false) :
    kernelStore as dst cs = throw .kernelFault :=
  if_neg fun h => by simp [h i hi] at hw

theorem kernelStore_append (as : AddressSpace) (dst : Nat) (bs cs : List UInt8) :
    kernelStore as dst (bs ++ cs) = (do
      let as ← kernelStore as dst bs
      kernelStore as (dst + bs.length) cs) := by
  unfold kernelStore
  by_cases hb : ∀ i < bs.length, writable as.mapped (dst + i)
  · rw [if_pos hb, pure_bind]
    -- past `bs`, the bytes of `bs ++ cs` are those of `cs`
    have hsplit : (∀ i < (bs ++ cs).length, writable as.mapped (dst + i)) ↔
        ∀ i < cs.length, writable as.mapped (dst + bs.length + i) := by
      constructor
      · intro h i hi
        rw [Nat.add_assoc]
        exact h (bs.length + i) (by simp; omega)
      · intro h i hi
        by_cases hib : i < bs.length
        · exact hb i hib
        · have := h (i - bs.length) (by simp at hi; omega)
          rwa [show dst + bs.length + (i - bs.length) = dst + i by omega] at this
    split_ifs with hbc hc hc
    · rw [store_append]
    · exact absurd (hsplit.mp hbc) hc
    · exact absurd (hsplit.mpr hc) hbc
    · rfl
  · have hbc : ¬ ∀ i < (bs ++ cs).length, writable as.mapped (dst + i) :=
      fun hbc => hb fun i hi => hbc i (by simp; omega)
    rw [if_neg hbc, if_neg hb]
    rfl

theorem pokeByte_eq (as : AddressSpace) (a : Nat) (c : UInt8) :
    pokeByte as a c = kernelStore as a [c] := by
  have hone : (∀ i < [c].length, writable as.mapped (a + i)) ↔ writable as.mapped a := by simp
  unfold pokeByte touch kernelStore
  by_cases h : writable as.mapped a
  · rw [if_pos (hone.mpr h), if_pos (by simpa [writable] using h)]
    rfl
  · rw [if_neg (mt hone.mp h), if_neg (by simpa [writable] using h)]
    rfl

/-- The byte loop of `memset` and `memset_word` is one store. -/
theorem pokeBytes_eq (as : AddressSpace) (dst : Nat) (cs : List UInt8) :
    pokeBytes as dst cs = kernelStore as dst cs := by
  induction cs generalizing as dst with
  | nil => rw [kernelStore_nil]; rfl
  | cons c cs ih =>
    simp only [pokeBytes, ih]
    rw [show c :: cs = [c] ++ cs from rfl, kernelStore_append, pokeByte_eq]
    rfl

theorem memsetWord_eq (as : AddressSpace) (currentSp : Nat) (load : Int) :
    memsetWord as currentSp load = kernelStore as currentSp (wordBytes load) :=
  pokeBytes_eq as currentSp (wordBytes load)

theorem ptrSub_of_le {p k : Nat} (h : k ≤ p) (hp : p < 2 ^ 32) : ptrSub p k = p - k := by
  have := CInt.u32_of_lt (x := (p : Int) - k) (by omega) (by omega)
  unfold ptrSub
  omega

/-- The bytes the inner loop stores for a word, from the lowest address up: `argv[i][0]` to
`argv[i][n - 1]`, where a byte past the word is its terminator. -/
def charsOf (word : List UInt8) (n : Nat) : List UInt8 :=
  (List.range n).map fun j => (word ++ [0]).getD j 0

@[simp] theorem length_charsOf (word : List UInt8) (n : Nat) : (charsOf word n).length = n := by
  simp [charsOf]

theorem charsOf_succ (word : List UInt8) (n : Nat) :
    charsOf word (n + 1) = charsOf word n ++ [(word ++ [0]).getD n 0] := by
  simp [charsOf, List.range_succ]

/-- `strlen (token) + 1` bytes are the token and its terminator. -/
theorem charsOf_length_succ (word : List UInt8) : charsOf word (word.length + 1) = word ++ [0] := by
  apply List.ext_getElem (by simp)
  intro i h _
  simp only [charsOf, List.getElem_map, List.getElem_range]
  rw [List.getD_eq_getElem?_getD, List.getElem?_eq_getElem, Option.getD_some]

/-- The bytes the outer loop pushes for each word: as many as its length says, read as an
`int`. -/
def wordBlocks (words : List (List UInt8 × Nat)) : List (List UInt8) :=
  words.map fun w => charsOf w.1 (CInt.i32 w.2).toNat

theorem wordBlocks_cons (word : List UInt8) (wordLength : Nat) (words : List (List UInt8 × Nat)) :
    wordBlocks ((word, wordLength) :: words) =
      charsOf word (CInt.i32 wordLength).toNat :: wordBlocks words := rfl

/-- Stores to disjoint ranges can be made in either order. -/
theorem kernelStore_comm {β : Type} (as : AddressSpace) {a b : Nat} {cs ds : List UInt8}
    (h : a + cs.length ≤ b ∨ b + ds.length ≤ a) (k : AddressSpace → Except Fault β) :
    (do let as ← kernelStore as a cs; let as ← kernelStore as b ds; k as) =
      (do let as ← kernelStore as b ds; let as ← kernelStore as a cs; k as) := by
  unfold kernelStore
  by_cases hc : ∀ i < cs.length, writable as.mapped (a + i)
  · by_cases hd : ∀ i < ds.length, writable as.mapped (b + i)
    · rw [if_pos hc, if_pos hd, pure_bind, pure_bind, if_pos hd, if_pos hc, pure_bind, pure_bind]
      simp only [store_comm h]
    · rw [if_pos hc, if_neg hd, pure_bind, if_neg hd]
      rfl
  · by_cases hd : ∀ i < ds.length, writable as.mapped (b + i)
    · rw [if_neg hc, if_pos hd, pure_bind, if_neg hc]
      rfl
    · rw [if_neg hc, if_neg hd]
      rfl

/-- A block stored just below another that was stored first: the two are one store. -/
theorem kernelStore_push {β : Type} (as : AddressSpace) {a b : Nat} {cs ds : List UInt8}
    (h : b + ds.length = a) (k : AddressSpace → Except Fault β) :
    (do let as ← kernelStore as a cs; let as ← kernelStore as b ds; k as) =
      (do let as ← kernelStore as b (ds ++ cs); k as) := by
  rw [kernelStore_comm as (Or.inr (Nat.le_of_eq h)), kernelStore_append, bind_assoc, h]

/-- The inner loop stores the word's bytes below `sp` as one block. -/
theorem pushChars_eq (word : List UInt8) (as : AddressSpace) {sp n : Nat} (h : n ≤ sp)
    (hsp : sp < 2 ^ 32) :
    pushChars word as sp n = (do
      let as ← kernelStore as (sp - n) (charsOf word n)
      pure (as, sp - n)) := by
  induction n generalizing as sp with
  | zero => simp [pushChars, charsOf]
  | succ j ih =>
    rw [pushChars, ptrSub_of_le (by omega) hsp, pokeByte_eq]
    simp only [ih _ (show j ≤ sp - 1 by omega) (by omega)]
    rw [kernelStore_push as (show sp - 1 - j + (charsOf word j).length = sp - 1 by simp; omega),
      ← charsOf_succ, show sp - 1 - j = sp - (j + 1) by omega]

theorem length_wordBlocks (words : List (List UInt8 × Nat)) :
    (wordBlocks words).length = words.length := by
  simp [wordBlocks]

/-- The outer loop stores the words one below the other as one block under `sp`, and
`address_lst` holds where each word starts. -/
theorem pushWords_eq (as : AddressSpace) {sp : Nat} {words : List (List UInt8 × Nat)}
    (h : (wordBlocks words).flatten.length ≤ sp) (hsp : sp < 2 ^ 32) :
    pushWords as sp words = (do
      let as ← kernelStore as (sp - (wordBlocks words).flatten.length)
        (wordBlocks words).reverse.flatten
      pure (as, sp - (wordBlocks words).flatten.length,
        (List.range words.length).map (blockStart sp (wordBlocks words)))) := by
  induction words generalizing as sp with
  | nil => simp [pushWords, wordBlocks]
  | cons w words ih =>
    obtain ⟨word, wordLength⟩ := w
    -- the first word's block, then the rest below it
    rw [wordBlocks_cons, List.flatten_cons, List.length_append, length_charsOf] at h ⊢
    rw [pushWords, pushChars_eq word as (by omega) hsp]
    simp only [bind_assoc, pure_bind]
    simp only [ih _ (show (wordBlocks words).flatten.length ≤ sp - (CInt.i32 wordLength).toNat by
      omega) (by omega), bind_assoc, pure_bind]
    rw [kernelStore_push as (by rw [length_reverse_flatten]; omega), List.length_cons,
      ← length_wordBlocks words, map_blockStart_cons, length_charsOf, List.reverse_cons,
      List.flatten_append, List.flatten_singleton, Nat.sub_sub]

@[simp] theorem length_wordBytes (load : Int) : (wordBytes load).length = 4 := by
  simp [wordBytes]

theorem length_flatten_map_wordBytes (addrs : List Nat) :
    (addrs.map fun a : Nat => wordBytes a).flatten.length = 4 * addrs.length := by
  induction addrs with
  | nil => rfl
  | cons a addrs ih =>
    rw [List.map_cons, List.flatten_cons, List.length_append, ih, length_wordBytes,
      List.length_cons]
    omega

/-- The loop over `address_lst` stores the addresses one below the other, as one block. -/
theorem pushAddresses_eq (as : AddressSpace) {sp : Nat} {addrs : List Nat}
    (h : 4 * addrs.length ≤ sp) (hsp : sp < 2 ^ 32) :
    pushAddresses as sp addrs = (do
      let as ← kernelStore as (sp - 4 * addrs.length)
        (addrs.map fun a : Nat => wordBytes a).reverse.flatten
      pure (as, sp - 4 * addrs.length)) := by
  induction addrs generalizing as sp with
  | nil => simp [pushAddresses]
  | cons a addrs ih =>
    rw [List.length_cons] at h
    rw [pushAddresses, ptrSub_of_le (by omega) hsp, memsetWord_eq]
    simp only [ih _ (show 4 * addrs.length ≤ sp - 4 by omega) (by omega)]
    rw [kernelStore_push as (by rw [length_reverse_flatten, length_flatten_map_wordBytes]; omega),
      List.map_cons, List.reverse_cons, List.flatten_append, List.flatten_singleton,
      List.length_cons,
      show sp - 4 - 4 * addrs.length = sp - 4 * (addrs.length + 1) by omega]

/-! ## The whole frame -/

theorem stackAlignmentCalc_range {sp argc : Nat} (h : 16 + 4 * argc ≤ sp) (hsp : sp < 2 ^ 32) :
    0 ≤ stackAlignmentCalc sp argc ∧ stackAlignmentCalc sp argc < 16 ∧
      ((sp : Int) - 16 - 4 * argc - stackAlignmentCalc sp argc) % 16 = 12 := by
  have he : (CInt.u32 ((sp : Int) - 16 - 4 * argc) : Int) = sp - 16 - 4 * argc :=
    CInt.u32_of_lt (by omega) (by omega)
  unfold stackAlignmentCalc
  dsimp only
  split_ifs <;> omega

/-- The padding leaves the stack pointer at `12` modulo `16` once the four words and the
`argv` array are below it. -/
theorem stackAlignment_mod {sp argc : Nat} (h : 31 + 4 * argc ≤ sp) (hsp : sp < 2 ^ 32) :
    CInt.u32 (stackAlignmentCalc sp argc) < 16 ∧
      (sp - CInt.u32 (stackAlignmentCalc sp argc) - 16 - 4 * argc) % 16 = 12 := by
  have hr := stackAlignmentCalc_range (show 16 + 4 * argc ≤ sp by omega) hsp
  have hv := CInt.u32_of_lt hr.1 (by omega)
  omega

/-- `stack_alignment_calc` asks for less than `16` bytes, wherever the stack pointer is. -/
theorem stackAlignmentCalc_lt_16 (sp argc : Nat) : CInt.u32 (stackAlignmentCalc sp argc) < 16 := by
  have hr : 0 ≤ stackAlignmentCalc sp argc ∧ stackAlignmentCalc sp argc < 16 := by
    unfold stackAlignmentCalc
    dsimp only
    split_ifs <;> omega
  have hv := CInt.u32_of_lt hr.1 (by omega)
  omega

@[simp] theorem length_argWords (argc : Nat) (argv : List (List UInt8)) (argvLengths : List Nat) :
    (argWords argc argv argvLengths).length = argc := by
  simp [argWords]

/-- The frame below the words, lowest byte first: the return address, `argc`, `argv` (the
address `12` bytes above `base`), the `argv` array, its null end, and the padding. -/
def argFrame (base argc pad : Nat) (addressLst : List Nat) : List UInt8 :=
  wordBytes 69 ++ wordBytes argc ++ wordBytes (base + 12) ++
    (addressLst.map fun a : Nat => wordBytes a).flatten ++ wordBytes 0 ++ List.replicate pad 0

/-- What `load_arguments_to_stack` does when nothing wraps around: the words pushed from `esp`
down, the frame below them, both as one store, and the stack pointer at the frame's base. -/
def loadArgumentsSpec (as : AddressSpace) (argc : Nat) (argv : List (List UInt8))
    (argvLengths : List Nat) (ifEsp esp : Nat) : Except Fault (AddressSpace × Bool × Nat) :=
  let blocks := wordBlocks (argWords argc argv argvLengths)
  let wordsSp := esp - blocks.flatten.length
  let pad := CInt.u32 (stackAlignmentCalc wordsSp argc)
  let base := wordsSp - pad - 16 - 4 * argc
  do
    let as ← kernelStore as base
      (argFrame base argc pad ((List.range argc).map (blockStart esp blocks)) ++
        blocks.reverse.flatten)
    if base > ifEsp then pure (as, false, esp) else pure (as, true, base)

/-- A run of the specification that returns `true` made its one store, and returns the
frame's base. -/
theorem loadArgumentsSpec_true {as as' : AddressSpace} {argc : Nat} {argv : List (List UInt8)}
    {argvLengths : List Nat} {ifEsp esp sp : Nat}
    (h : loadArgumentsSpec as argc argv argvLengths ifEsp esp = .ok (as', true, sp)) :
    let blocks := wordBlocks (argWords argc argv argvLengths)
    let pad := CInt.u32 (stackAlignmentCalc (esp - blocks.flatten.length) argc)
    sp = esp - blocks.flatten.length - pad - 16 - 4 * argc ∧
      kernelStore as sp (argFrame sp argc pad ((List.range argc).map (blockStart esp blocks)) ++
        blocks.reverse.flatten) = .ok as' := by
  unfold loadArgumentsSpec at h
  obtain ⟨as₁, hs, hret⟩ := Trace.bind_eq_ok h
  split at hret
  · -- the test that returns `false` leaves `esp` as it was
    simp at hret
  · simp only [Trace.pure_eq_ok, Prod.mk.injEq] at hret
    obtain ⟨rfl, -, rfl⟩ := hret
    exact ⟨rfl, hs⟩

/-- Without wrap-around, `load_arguments_to_stack` refines its specification. -/
theorem loadArgumentsToStack_eq_spec (as : AddressSpace) (argc : Nat) (argv : List (List UInt8))
    (argvLengths : List Nat) (ifEsp : Nat) {esp : Nat}
    (h : (wordBlocks (argWords argc argv argvLengths)).flatten.length + 31 + 4 * argc ≤ esp)
    (hesp : esp < 2 ^ 32) :
    loadArgumentsToStack as argc argv argvLengths ifEsp esp =
      loadArgumentsSpec as argc argv argvLengths ifEsp esp := by
  unfold loadArgumentsToStack loadArgumentsSpec
  simp only []
  rw [pushWords_eq as (by omega) hesp]
  simp only [bind_assoc, pure_bind, length_argWords]
  generalize (wordBlocks (argWords argc argv argvLengths)) = blocks at *
  have hlen : ((List.range argc).map (blockStart esp blocks)).reverse.length = argc := by simp
  obtain ⟨hpad, hmod⟩ :=
    stackAlignment_mod (show 31 + 4 * argc ≤ esp - blocks.flatten.length by omega)
    (by omega)
  generalize CInt.u32 (stackAlignmentCalc (esp - blocks.flatten.length) argc) = pad at *
  simp (disch := omega) only [ptrSub_of_le]
  simp only [pokeBytes_eq, memsetWord_eq, pushAddresses_eq _
    (show 4 * ((List.range argc).map (blockStart esp blocks)).reverse.length ≤
      esp - blocks.flatten.length - pad - 4 by omega) (by omega), bind_assoc, pure_bind, hlen]
  simp (disch := omega) only [ptrSub_of_le]
  -- the stores, from the words down to the return address, are one store of the whole frame
  rw [kernelStore_push as (by rw [List.length_replicate]; omega),
    kernelStore_push as (by rw [length_wordBytes]; omega),
    kernelStore_push as (by rw [length_reverse_flatten, length_flatten_map_wordBytes, hlen]; omega),
    kernelStore_push as (by rw [length_wordBytes]; omega),
    kernelStore_push as (by rw [length_wordBytes]; omega),
    kernelStore_push as (by rw [length_wordBytes]; omega)]
  have hbase : esp - blocks.flatten.length - pad - 4 - 4 * argc - 4 - 4 - 4 =
      esp - blocks.flatten.length - pad - 16 - 4 * argc := by omega
  have hargv : ((esp - blocks.flatten.length - pad - 4 - 4 * argc - 4 : Nat) : Int) + 4 =
      ((esp - blocks.flatten.length - pad - 16 - 4 * argc : Nat) : Int) + 12 := by omega
  rw [hbase, hargv, List.map_reverse, List.reverse_reverse]
  simp only [argFrame, List.append_assoc]

end Pintos.Userprog
