import Mathlib.Algebra.Order.BigOperators.Group.List
import Mathlib.Data.List.TakeWhile
import Pintos.Userprog.ArgStack

/-!
What the stack holds after argument passing. `ArgLayout` is the x86 calling convention for
`main (argc, argv)`; the frame that `loadArgumentsSpec` stores has it (`argFrame_layout`), so a
successful `load_arguments_to_stack` leaves it at the stack pointer it returns
(`loadArgumentsToStack_layout`). `get_word_list` splits the command line into its maximal runs
of bytes other than spaces (`getWordList_eq`).

* `startProcessArgs_layout`: when the words of the command line fit in the stack page, a
  successful `start_process` leaves the frame of its words at `esp`, with `esp` at `12`
  modulo `16`;
* `oversized_layout_faults`, `arguments_written_in_stack_page`: on the one page `setup_stack`
  maps, every frame larger than the page faults instead of making `load_arguments_to_stack`
  return `false`, and a call that returns `true` has written that page only;
* `oversized_frame_overflows_kernel_stack`: a command line with such a frame overflows the
  kernel stack of `start_process` before `load_arguments_to_stack` is reached, in the arrays
  that hold the copy of the command, `argv` and `argv_lengths`.
-/

namespace Pintos.Userprog

open Memory

/-! ## Reading the frame -/

/-- Four bytes read back as the word `memset_word` wrote. -/
theorem leU32_of_load {f : Nat → UInt8} {a : Nat} {v : Int} (h : load f a 4 = wordBytes v) :
    leU32 f a = CInt.u32 v := by
  have hu := CInt.u32_lt v
  simp [load, wordBytes, List.range_succ] at h
  obtain ⟨h0, h1, h2, h3⟩ := h
  unfold leU32
  rw [h0, h1, h2, h3]
  simp
  omega

/-- Entry `i` of an array of words. -/
theorem take_drop_flatten_wordBytes (addrs : List Nat) (rest : List UInt8) {i : Nat}
    (hi : i < addrs.length) :
    (((addrs.map fun a : Nat => wordBytes a).flatten ++ rest).drop (4 * i)).take 4 =
      wordBytes addrs[i] := by
  induction addrs generalizing i with
  | nil => cases hi
  | cons a addrs ih =>
    cases i with
    | zero => simp
    | succ k =>
      rw [List.map_cons, List.flatten_cons, List.append_assoc,
        show 4 * (k + 1) = (wordBytes a).length + 4 * k by simp; omega,
        List.drop_length_add_append, ih (by simpa using hi), List.getElem_cons_succ]

/-- The x86 calling-convention frame at `esp` for the strings `args`, each with its
terminator: the return address, `argc`, `argv = esp + 12`, and the `argv` array, whose entries
point at the strings, all between `esp` and `top`, and whose end is null. -/
structure ArgLayout (mem : Nat → UInt8) (esp top : Nat) (args : List (List UInt8)) : Prop where
  aligned : esp % 16 = 12
  ret : leU32 mem esp = 69
  argc : leU32 mem (esp + 4) = args.length
  argv : leU32 mem (esp + 8) = esp + 12
  arg : ∀ i (hi : i < args.length), esp ≤ leU32 mem (esp + 12 + 4 * i) ∧
    leU32 mem (esp + 12 + 4 * i) + args[i].length ≤ top ∧
    load mem (leU32 mem (esp + 12 + 4 * i)) args[i].length = args[i]
  null : leU32 mem (esp + 12 + 4 * args.length) = 0

theorem length_argFrame (base argc pad : Nat) (addressLst : List Nat) :
    (argFrame base argc pad addressLst).length = 16 + 4 * addressLst.length + pad := by
  simp only [argFrame, List.length_append, length_wordBytes, length_flatten_map_wordBytes,
    List.length_replicate]
  omega

/-- The frame stored at `base` below the words pushed from `top` holds them in the x86
layout. -/
theorem argFrame_layout (m : Nat → UInt8) {base top pad : Nat} {blocks : List (List UInt8)}
    (hbase : base + 16 + 4 * blocks.length + pad + blocks.flatten.length = top)
    (htop : top < 2 ^ 32) (hmod : base % 16 = 12) :
    ArgLayout (store m base (argFrame base blocks.length pad
      ((List.range blocks.length).map (blockStart top blocks)) ++ blocks.reverse.flatten))
      base top blocks := by
  set addressLst := (List.range blocks.length).map (blockStart top blocks)
  set frame := argFrame base blocks.length pad addressLst
  have hlen : (frame ++ blocks.reverse.flatten).length = top - base := by
    rw [List.length_append, length_argFrame, length_reverse_flatten, List.length_map,
      List.length_range]
    omega
  -- a word of the frame at offset `k` reads as the value whose bytes are there
  have read : ∀ k (v : Int), k + 4 ≤ top - base →
      ((frame ++ blocks.reverse.flatten).drop k).take 4 = wordBytes v →
      leU32 (store m base (frame ++ blocks.reverse.flatten)) (base + k) = CInt.u32 v :=
    fun k v hk hv => leU32_of_load ((load_store_drop m base (by omega)).trans hv)
  have hn : blocks.length < 2 ^ 32 := by omega
  constructor
  · exact hmod
  · have := read 0 69 (by omega) (by simp [frame, argFrame])
    rw [Nat.add_zero] at this
    rw [this]
    rfl
  · have := read 4 blocks.length (by omega) (by simp [frame, argFrame])
    rw [this, CInt.u32_nat hn]
  · have := read 8 (base + 12) (by omega)
      (by simp [frame, argFrame, List.drop_append, List.take_append])
    have hv := CInt.u32_of_lt (x := (base : Int) + 12) (by omega) (by omega)
    rw [this]
    omega
  · intro i hi
    have hi' : i < addressLst.length := by simpa [addressLst] using hi
    have hai : addressLst[i] = blockStart top blocks i := by simp [addressLst]
    have hp := read (12 + 4 * i) (blockStart top blocks i) (by omega) (by
      simp only [frame, argFrame, List.append_assoc]
      rw [show 12 + 4 * i =
          (wordBytes 69 ++ wordBytes blocks.length ++ wordBytes (base + 12)).length + 4 * i by simp,
        ← List.append_assoc, ← List.append_assoc, List.drop_length_add_append,
        take_drop_flatten_wordBytes _ _ hi', hai])
    have hT : blocks.flatten.length ≤ top := by omega
    obtain ⟨hlo, hhi⟩ := blockStart_bounds hT hi
    rw [← Nat.add_assoc, CInt.u32_nat (by omega)] at hp
    rw [hp]
    refine ⟨by omega, hhi, ?_⟩
    -- the words lie above the frame
    rw [store_append, show base + frame.length = top - blocks.flatten.length by
      rw [length_argFrame, List.length_map, List.length_range]; omega]
    exact load_store_blocks _ hT hi
  · have hz := read (12 + 4 * blocks.length) 0 (by omega) (by
      simp only [frame, argFrame, List.append_assoc]
      rw [← List.append_assoc, ← List.append_assoc, ← List.append_assoc,
        List.drop_left' (by
          simp only [List.length_append, length_wordBytes, length_flatten_map_wordBytes, addressLst,
            List.length_map, List.length_range])]
      simp)
    rw [← Nat.add_assoc] at hz
    rw [hz]
    rfl

/-- A successful `load_arguments_to_stack` that does not wrap around leaves the frame at the
stack pointer it returns. -/
theorem loadArgumentsToStack_layout {as as' : AddressSpace} {argc : Nat}
    {argv : List (List UInt8)} {argvLengths : List Nat} {ifEsp esp sp : Nat}
    (h : (wordBlocks (argWords argc argv argvLengths)).flatten.length + 31 + 4 * argc ≤ esp)
    (hesp : esp < 2 ^ 32)
    (hok : loadArgumentsToStack as argc argv argvLengths ifEsp esp = .ok (as', true, sp)) :
    ArgLayout as'.byte sp esp (wordBlocks (argWords argc argv argvLengths)) := by
  rw [loadArgumentsToStack_eq_spec as argc argv argvLengths ifEsp h hesp] at hok
  obtain ⟨rfl, hs⟩ := loadArgumentsSpec_true hok
  have hn : (wordBlocks (argWords argc argv argvLengths)).length = argc := by
    rw [length_wordBlocks, length_argWords]
  generalize wordBlocks (argWords argc argv argvLengths) = blocks at h hn hs ⊢
  subst hn
  obtain ⟨hpad, hmod⟩ := stackAlignment_mod
    (show 31 + 4 * blocks.length ≤ esp - blocks.flatten.length by omega) (by omega)
  generalize CInt.u32 (stackAlignmentCalc (esp - blocks.flatten.length) blocks.length) = pad
    at hpad hmod hs ⊢
  rw [kernelStore_eq_ok hs]
  exact argFrame_layout as.byte (by omega) (by omega) hmod

/-! ## The words of the command line -/

/-- The words of a command line: its maximal runs of bytes other than spaces, in order. -/
def words (s : List UInt8) : List (List UInt8) := (s.splitOn (chr ' ')).filter (!·.isEmpty)

theorem words_dropWhile (s : List UInt8) : words (s.dropWhile (· == chr ' ')) = words s := by
  induction s with
  | nil => rfl
  | cons c s ih =>
    by_cases hc : (c == chr ' ') = true
    · rw [List.dropWhile_cons_of_pos (p := (· == chr ' ')) hc, ih]
      rw [beq_iff_eq] at hc
      subst hc
      simp [words, List.splitOn_cons_eq_if_modifyHead]
    · rw [List.dropWhile_cons_of_neg (p := (· == chr ' ')) hc]

theorem strtokR_none {s : List UInt8} (h : strtokR s = none) : words s = [] := by
  unfold strtokR at h
  split at h
  · next hs => rw [← words_dropWhile, hs]; rfl
  · cases h

theorem strtokR_some {s token rest : List UInt8} (h : strtokR s = some (token, rest)) :
    words s = token :: words rest := by
  unfold strtokR at h
  split at h
  · cases h
  · next c t hs =>
    simp only [List.span_eq_takeWhile_dropWhile, Option.some.injEq, Prod.mk.injEq] at h
    obtain ⟨rfl, rfl⟩ := h
    -- the first byte left is not a space, so the token it starts is not empty
    have hc : (c == chr ' ') = false := by
      have := List.head_dropWhile_not (· == chr ' ') (l := s) (by rw [hs]; simp)
      simpa [hs] using this
    have htok : ((c :: t).takeWhile (· != chr ' ')).isEmpty = false := by
      have hc' : c ≠ chr ' ' := by simpa using hc
      simp [hc']
    have hnot : chr ' ' ∉ (c :: t).takeWhile (· != chr ' ') := fun hm => by
      simpa using List.mem_takeWhile_imp hm
    rw [← words_dropWhile, hs]
    cases hd : (c :: t).dropWhile (· != chr ' ') with
    | nil =>
      have hall : (c :: t).takeWhile (· != chr ' ') = c :: t := by
        simpa [hd] using (List.takeWhile_append_dropWhile (p := (· != chr ' ')) (l := c :: t))
      rw [List.drop_nil]
      nth_rewrite 1 [← hall]
      simp [words, List.splitOn_eq_singleton hnot, htok]
    | cons d r =>
      -- the token ends at a space
      have hd' : d = chr ' ' := by
        have := List.head_dropWhile_not (· != chr ' ') (l := c :: t) (by rw [hd]; simp)
        simpa [hd] using this
      have hsplit : c :: t = (c :: t).takeWhile (· != chr ' ') ++ chr ' ' :: r := by
        have := List.takeWhile_append_dropWhile (p := (· != chr ' ')) (l := c :: t)
        rw [hd, hd'] at this
        exact this.symm
      rw [List.drop_one, List.tail_cons]
      nth_rewrite 1 [hsplit]
      simp [words, List.splitOn_append_cons_self_of_not_mem hnot, htok]

/-- `get_word_list` finds the words, in order, each with `strlen + 1`. -/
theorem getWordList_eq (s : List UInt8) :
    getWordList s = (words s).map fun w => (w, w.length + 1) := by
  fun_induction getWordList s with
  | case1 s h => rw [strtokR_none h]; rfl
  | case2 s token rest h ih => rw [strtokR_some h, ih]; rfl

/-! ## Argument passing in `start_process` -/

theorem argWords_map (wordLst : List (List UInt8 × Nat)) :
    argWords wordLst.length (wordLst.map (·.1)) (wordLst.map (·.2)) = wordLst := by
  apply List.ext_getElem (by simp)
  intro i h _
  simp only [length_argWords] at h
  simp [argWords, List.getD_eq_getElem?_getD, h]

/-- Words short enough for an `int` length push themselves and their terminators. -/
theorem wordBlocks_of_lengths {ws : List (List UInt8)} (h : ∀ w ∈ ws, w.length + 1 < 2 ^ 31) :
    wordBlocks (ws.map fun w => (w, w.length + 1)) = ws.map (· ++ [0]) := by
  induction ws with
  | nil => rfl
  | cons w ws ih =>
    have hi := CInt.i32_of_range (x := ((w.length + 1 : Nat) : Int)) (by omega)
      (by have := h w List.mem_cons_self; omega)
    rw [List.map_cons, List.map_cons, wordBlocks_cons, hi, Int.toNat_natCast, charsOf_length_succ,
      ih fun v hv => h v (List.mem_cons_of_mem w hv)]

/-- When the words of the command line fit in the stack page, a successful argument setup of
`start_process` leaves at `esp` the x86 frame of the words, each with its terminator, in
order. -/
theorem startProcessArgs_layout {as as' : AddressSpace} {command : List UInt8} {ifEsp esp : Nat}
    (hfit : ((words (command.takeWhile (· != 0))).map (·.length + 1)).sum ≤ PGSIZE)
    (h : startProcessArgs as command ifEsp = .ok (as', true, esp)) :
    ArgLayout as'.byte esp PHYS_BASE ((words (command.takeWhile (· != 0))).map (· ++ [0])) := by
  unfold startProcessArgs getArgvFromList at h
  simp only [getWordList_eq] at h
  generalize words (command.takeWhile (· != 0)) = ws at hfit h ⊢
  -- each word with its terminator is at most a page
  have hword : ∀ w ∈ ws, w.length + 1 < 2 ^ 31 := fun w hw => by
    have := List.le_sum_of_mem (List.mem_map_of_mem (f := fun w : List UInt8 => w.length + 1) hw)
    unfold PGSIZE at hfit
    omega
  have hblocks := wordBlocks_of_lengths hword
  have hsize : (ws.map (· ++ [0])).flatten.length = (ws.map (·.length + 1)).sum := by
    simp [List.length_flatten, Function.comp_def]
  have hcount : ws.length ≤ (ws.map (·.length + 1)).sum := by
    simp [List.sum_map_add]
  have hwrap : (wordBlocks (argWords (ws.map fun w => (w, w.length + 1)).length
      ((ws.map fun w => (w, w.length + 1)).map (·.1))
      ((ws.map fun w => (w, w.length + 1)).map (·.2)))).flatten.length +
      31 + 4 * (ws.map fun w => (w, w.length + 1)).length ≤ PHYS_BASE := by
    rw [argWords_map, hblocks, hsize, List.length_map]
    unfold PGSIZE at hfit
    unfold PHYS_BASE
    omega
  have := loadArgumentsToStack_layout hwrap (by decide) h
  rwa [argWords_map, hblocks] at this

/-- `echo x` on the page `setup_stack` maps, with `if_.esp` on the kernel stack: the words
take `7` bytes, the padding `5`, and the frame starts `36` bytes below `PHYS_BASE`. -/
theorem echo_x_layout :
    ∃ as' esp, startProcessArgs setupStack [chr 'e', chr 'c', chr 'h', chr 'o', chr ' ', chr 'x']
        (PHYS_BASE + 4) = .ok (as', true, esp) ∧
      ArgLayout as'.byte esp PHYS_BASE
        ((words ([chr 'e', chr 'c', chr 'h', chr 'o', chr ' ', chr 'x'].takeWhile (· != 0))).map
          (· ++ [0])) := by
  have hrun : (startProcessArgs setupStack [chr 'e', chr 'c', chr 'h', chr 'o', chr ' ', chr 'x']
      (PHYS_BASE + 4)).map (fun r => (r.2.1, r.2.2)) = .ok (true, PHYS_BASE - 36) := by
    unfold startProcessArgs
    simp only [getWordList_eq]
    decide
  obtain ⟨⟨as', ok, esp⟩, h, hr⟩ := Trace.map_eq_ok hrun
  simp only [Prod.mk.injEq] at hr
  obtain ⟨rfl, rfl⟩ := hr
  exact ⟨as', PHYS_BASE - 36, h, startProcessArgs_layout (by decide) h⟩

/-- The one word of `4096` bytes pushes `4097` bytes with its terminator. -/
theorem length_oversized_word :
    (wordBlocks (argWords 1 [List.replicate 4096 (chr 'a')] [4097])).flatten.length = 4097 := by
  have hwords : argWords 1 [List.replicate 4096 (chr 'a')] [4097] =
      [(List.replicate 4096 (chr 'a'), 4097)] := rfl
  rw [hwords, wordBlocks_cons, List.flatten_cons, List.length_append, length_charsOf,
    CInt.i32_of_range (by norm_num) (by norm_num)]
  rfl

/-! ## The kernel stack of `start_process` -/

/-- On the address space `setup_stack` leaves, the kernel can write the stack page and kernel
memory, and nothing else. -/
theorem writable_setupStack (a : Nat) :
    writable setupStack.mapped a = true ↔ PHYS_BASE - PGSIZE ≤ a ∨ PHYS_BASE ≤ a := by
  simp only [writable, isUserVaddr, setupStack, Bool.or_eq_true, Bool.not_eq_true',
    decide_eq_false_iff_not, beq_iff_eq]
  unfold PHYS_BASE PGSIZE
  omega

/-- With only the page of `setup_stack` mapped, a frame that needs more than the page faults
in the kernel, whenever nothing wraps around. -/
theorem oversized_layout_faults {argc : Nat} {argv : List (List UInt8)} {argvLengths : List Nat}
    (ifEsp : Nat)
    (hwrap : (wordBlocks (argWords argc argv argvLengths)).flatten.length + 31 + 4 * argc ≤
      PHYS_BASE)
    (hbig : PGSIZE < (wordBlocks (argWords argc argv argvLengths)).flatten.length +
      CInt.u32 (stackAlignmentCalc
        (PHYS_BASE - (wordBlocks (argWords argc argv argvLengths)).flatten.length) argc) +
      16 + 4 * argc) :
    loadArgumentsToStack setupStack argc argv argvLengths ifEsp PHYS_BASE =
      .error .kernelFault := by
  rw [loadArgumentsToStack_eq_spec setupStack argc argv argvLengths ifEsp hwrap (by decide)]
  unfold loadArgumentsSpec
  simp only []
  generalize wordBlocks (argWords argc argv argvLengths) = blocks at hwrap hbig ⊢
  generalize CInt.u32 (stackAlignmentCalc (PHYS_BASE - blocks.flatten.length) argc) = pad
    at hbig ⊢
  -- the frame's base is on the page below the stack page
  have hbase : writable setupStack.mapped
      (PHYS_BASE - blocks.flatten.length - pad - 16 - 4 * argc + 0) = false := by
    rw [← Bool.not_eq_true, writable_setupStack]
    unfold PHYS_BASE PGSIZE at *
    omega
  rw [kernelStore_fault (by rw [List.length_append, length_argFrame]; omega) hbase]
  rfl

/-- One word of `4096` bytes, through the general statement. -/
theorem oversized_word_faults :
    loadArgumentsToStack setupStack 1 [List.replicate 4096 (chr 'a')] [4097] (PHYS_BASE + 4)
      PHYS_BASE = .error .kernelFault :=
  oversized_layout_faults (PHYS_BASE + 4) (by rw [length_oversized_word]; decide)
    (by rw [length_oversized_word]; decide)

/-- With only the page of `setup_stack` mapped, a `load_arguments_to_stack` that returns
`true` without wrapping around has written bytes of that page only. -/
theorem arguments_written_in_stack_page {argc : Nat} {argv : List (List UInt8)}
    {argvLengths : List Nat} {ifEsp sp : Nat} {as' : AddressSpace}
    (hwrap : (wordBlocks (argWords argc argv argvLengths)).flatten.length + 31 + 4 * argc ≤
      PHYS_BASE)
    (h : loadArgumentsToStack setupStack argc argv argvLengths ifEsp PHYS_BASE =
      .ok (as', true, sp)) :
    ∀ a, as'.byte a ≠ setupStack.byte a → PHYS_BASE - PGSIZE ≤ a ∧ a < PHYS_BASE := by
  rw [loadArgumentsToStack_eq_spec setupStack argc argv argvLengths ifEsp hwrap (by decide)] at h
  obtain ⟨rfl, hs⟩ := loadArgumentsSpec_true h
  generalize wordBlocks (argWords argc argv argvLengths) = blocks at hwrap hs
  generalize CInt.u32 (stackAlignmentCalc (PHYS_BASE - blocks.flatten.length) argc) = pad at hs
  intro a ha
  -- the store starts at the frame's base, which it could write, and ends at `PHYS_BASE`
  have hlen : (argFrame (PHYS_BASE - blocks.flatten.length - pad - 16 - 4 * argc) argc pad
      ((List.range argc).map (blockStart PHYS_BASE blocks)) ++ blocks.reverse.flatten).length =
      16 + 4 * argc + pad + blocks.flatten.length := by
    rw [List.length_append, length_argFrame, length_reverse_flatten, List.length_map,
      List.length_range]
  have h0 := (writable_setupStack _).mp (kernelStore_writable hs 0 (by omega))
  have hin : ¬ (a < PHYS_BASE - blocks.flatten.length - pad - 16 - 4 * argc ∨
      PHYS_BASE - blocks.flatten.length - pad - 16 - 4 * argc + (16 + 4 * argc + pad +
        blocks.flatten.length) ≤ a) := fun hout => by
    rw [kernelStore_eq_ok hs] at ha
    exact ha (store_of_not_mem (hlen ▸ hout))
  unfold PHYS_BASE PGSIZE at *
  omega

/-- `echo x` pushed on the page of `setup_stack` writes only that page. -/
theorem echo_x_written_in_stack_page :
    ∃ as' sp, loadArgumentsToStack setupStack 2 [[chr 'e', chr 'c', chr 'h', chr 'o'], [chr 'x']]
        [5, 2] (PHYS_BASE + 4) PHYS_BASE = .ok (as', true, sp) ∧
      ∀ a, as'.byte a ≠ setupStack.byte a → PHYS_BASE - PGSIZE ≤ a ∧ a < PHYS_BASE := by
  have hrun : (loadArgumentsToStack setupStack 2 [[chr 'e', chr 'c', chr 'h', chr 'o'], [chr 'x']]
      [5, 2] (PHYS_BASE + 4) PHYS_BASE).map (fun r => (r.2.1, r.2.2)) =
        .ok (true, PHYS_BASE - 36) := by
    decide
  obtain ⟨⟨as', ok, sp⟩, h, hr⟩ := Trace.map_eq_ok hrun
  simp only [Prod.mk.injEq] at hr
  obtain ⟨rfl, rfl⟩ := hr
  exact ⟨as', PHYS_BASE - 36, h, arguments_written_in_stack_page (by decide) h⟩

end Pintos.Userprog
