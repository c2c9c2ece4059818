import Pintos.Threads.Palloc

/-!
The block allocator of `threads/malloc.c` over the page allocator. A request of at most
1 kB is served from an arena: a page from `palloc_get_page`, cut into blocks of one
descriptor's size, whose free blocks are on that descriptor's list. A larger request gets
contiguous pages of its own, a "big block", with the page count in the arena header of the
first page.

An arena's header (`magic`, `desc`, `free_cnt`) lies at the start of its page. The model
keeps it beside memory, under the page's address: a page has a header from the moment
`malloc` writes one until the page goes back to `palloc`, whose `memset` wipes the magic.
The owning descriptor is its index in `descs`. A free list is the list of its blocks'
addresses, front first.

Sizes are `size_t`. A request within twelve bytes of `2^32` wraps `size + sizeof *a` to a
few bytes, and a product `a * b` that wraps may still pass `calloc`'s test:

* `malloc_huge_under_allocates`: `malloc (SIZE_MAX)` returns a one-page big block of
  4084 bytes;
* `calloc_wraps_product`: `calloc (65537, 65537)` returns a block of 135156 bytes, the
  size of the wrapped product `131073`, far below `65537 * 65537`.
-/

namespace Pintos.Threads

open CInt Memory

/-- `sizeof (struct arena)` on i386. -/
def ARENA_SIZE : Nat := 12

/-- `struct desc`: the size of its blocks, how many fit in an arena, and its free list. -/
structure Desc where
  blockSize : Nat
  blocksPerArena : Nat
  freeList : List Nat
  deriving DecidableEq, Repr, Inhabited

/-- `struct arena`: the owning descriptor, `none` for a big block, and `free_cnt`, the free
blocks of an arena or the pages of a big block. -/
structure Arena where
  desc : Option Nat
  freeCnt : Nat
  deriving DecidableEq, Repr

/-- The allocator: the page allocator with memory, the arena headers by page, and
`descs`. -/
structure Heap where
  palloc : Palloc
  arenas : Nat → Option Arena
  descs : List Desc

/-- The loop of `malloc_init` from `block_size`, with `slots` entries of `descs[10]`
left. -/
def initDescs : Nat → Nat → Except Fault (List Desc)
  | slots, blockSize =>
    if blockSize < PGSIZE / 2 then
      match slots with
      | 0 => throw .panic
      | slots + 1 => do
        let ds ← initDescs slots (blockSize * 2)
        pure (⟨blockSize, (PGSIZE - ARENA_SIZE) / blockSize, []⟩ :: ds)
    else pure []

/-- `malloc_init ()`, over the page allocator as `palloc_init` left it. -/
def mallocInit (p : Palloc) : Except Fault Heap := do
  let descs ← initDescs 10 16
  pure ⟨p, fun _ => none, descs⟩

/-- `pg_round_down (va)`. -/
def pgRoundDown (va : Nat) : Nat := va - pgOfs va

namespace Heap

/-- `descs[k]`. -/
def desc (h : Heap) (k : Nat) : Desc := h.descs.getD k default

def setMem (h : Heap) (m : Nat → UInt8) : Heap := { h with palloc := { h.palloc with mem := m } }

def setArena (h : Heap) (a : Nat) (ar : Option Arena) : Heap :=
  { h with arenas := Function.update h.arenas a ar }

def setFreeList (h : Heap) (k : Nat) (l : List Nat) : Heap :=
  { h with descs := h.descs.modify k fun d => { d with freeList := l } }

end Heap

/-- `block_to_arena (b)` with its `ASSERT`s: the page of `b` and the header there. -/
def blockToArena (h : Heap) (b : Nat) : Except Fault (Nat × Arena) :=
  let a := pgRoundDown b
  if a = 0 then throw .panic
  else
    match h.arenas a with
    | none => throw .panic
    | some ar =>
      let aligned := match ar.desc with
        | some k => u32 ((pgOfs b : Int) - ARENA_SIZE) % (h.desc k).blockSize == 0
        | none => pgOfs b == ARENA_SIZE
      if aligned then pure (a, ar) else throw .panic

/-- `arena_to_block (a, idx)` with its `ASSERT`s. A big block has no descriptor to read
`blocks_per_arena` from. -/
def arenaToBlock (h : Heap) (a idx : Nat) : Except Fault Nat :=
  if a = 0 then throw .panic
  else
    match h.arenas a with
    | none => throw .panic
    | some ⟨none, _⟩ => throw .kernelFault
    | some ⟨some k, _⟩ =>
      if idx < (h.desc k).blocksPerArena then pure (a + ARENA_SIZE + idx * (h.desc k).blockSize)
      else throw .panic

/-- The arena `malloc` makes when descriptor `k`'s free list is empty: a page from
`palloc_get_page (0)`, its header, and its blocks appended to the list; `NULL` when no page
is left. -/
def newArena (h : Heap) (k : Nat) : Except Fault (Heap × Nat) := do
  let (p, a) ← pallocGetPage h.palloc 0
  if a = 0 then pure ({ h with palloc := p }, 0)
  else
    let d := h.desc k
    let h := { h with palloc := p }.setArena a (some ⟨some k, d.blocksPerArena⟩)
    let bs ← (List.range d.blocksPerArena).mapM (arenaToBlock h a)
    pure (h.setFreeList k (d.freeList ++ bs), a)

/-- The end of `malloc` for descriptor `k`: `list_pop_front` and `a->free_cnt--`. -/
def popBlock (h : Heap) (k : Nat) : Except Fault (Heap × Nat) :=
  match (h.desc k).freeList with
  | [] => throw (.assert .listNonEmpty)
  | b :: rest => do
    let h := h.setFreeList k rest
    let (a, ar) ← blockToArena h b
    pure (h.setArena a (some { ar with freeCnt := u32 ((ar.freeCnt : Int) - 1) }), b)

/-- `malloc (size)`: the heap after the call and the block, `0` for `NULL`. -/
def malloc (h : Heap) (size : Nat) : Except Fault (Heap × Nat) :=
  if size = 0 then pure (h, 0)
  else
    match h.descs.findIdx? fun d => decide (d.blockSize ≥ size) with
    | none => do
      -- `DIV_ROUND_UP (size + sizeof *a, PGSIZE)`, both sums in `size_t`
      let pageCnt := u32 (u32 (size + ARENA_SIZE) + PGSIZE - 1) / PGSIZE
      let (p, a) ← pallocGetMultiple h.palloc 0 pageCnt
      if a = 0 then pure ({ h with palloc := p }, 0)
      else pure ({ h with palloc := p }.setArena a (some ⟨none, pageCnt⟩), a + ARENA_SIZE)
    | some k =>
      if (h.desc k).freeList = [] then do
        let (h, a) ← newArena h k
        if a = 0 then pure (h, 0) else popBlock h k
      else popBlock h k

/-- `calloc (a, b)`: `a * b` in `size_t`, refused if the product is below a factor. -/
def calloc (h : Heap) (a b : Nat) : Except Fault (Heap × Nat) :=
  let size := u32 (a * b)
  if size < a ∨ size < b then pure (h, 0)
  else do
    let (h, p) ← malloc h size
    if p ≠ 0 then pure (h.setMem (fill h.palloc.mem p size 0), p) else pure (h, p)

/-- `block_size (block)`. -/
def blockSize (h : Heap) (b : Nat) : Except Fault Nat := do
  let (_, ar) ← blockToArena h b
  match ar.desc with
  | some k => pure (h.desc k).blockSize
  | none => pure (u32 (((PGSIZE * ar.freeCnt : Nat) : Int) - pgOfs b))

/-- `free (p)`, as the debug build runs it: a block is cleared to `0xcc` before it goes
back on its list, and an arena whose blocks are all free goes back to `palloc` with its
blocks taken off the list. -/
def free (h : Heap) (p : Nat) : Except Fault Heap :=
  if p = 0 then pure h
  else do
    let (a, ar) ← blockToArena h p
    match ar.desc with
    | some k =>
      let d := h.desc k
      let freeCnt := u32 (ar.freeCnt + 1)
      let h := ((h.setMem (fill h.palloc.mem p d.blockSize 0xcc)).setFreeList k
        (p :: d.freeList)).setArena a (some { ar with freeCnt })
      if freeCnt ≥ d.blocksPerArena then
        if freeCnt ≠ d.blocksPerArena then throw .panic
        else do
          let bs ← (List.range d.blocksPerArena).mapM (arenaToBlock h a)
          let h := h.setFreeList k (bs.foldl List.erase (h.desc k).freeList)
          let pal ← pallocFreePage h.palloc a
          pure ({ h with palloc := pal }.setArena a none)
      else pure h
    | none => do
      let pal ← pallocFreeMultiple h.palloc a ar.freeCnt
      pure ({ h with palloc := pal }.setArena a none)

/-- `realloc (old_block, new_size)`. -/
def realloc (h : Heap) (old newSize : Nat) : Except Fault (Heap × Nat) :=
  if newSize = 0 then do
    let h ← free h old
    pure (h, 0)
  else do
    let (h, new) ← malloc h newSize
    if old ≠ 0 ∧ new ≠ 0 then do
      let oldSize ← blockSize h old
      let minSize := if newSize < oldSize then newSize else oldSize
      let h := h.setMem (store h.palloc.mem new (load h.palloc.mem old minSize))
      let h ← free h old
      pure (h, new)
    else pure (h, new)

/-! ## Big blocks -/

/-- The descriptors `malloc_init` sets up: blocks of 16 to 1024 bytes. -/
theorem mallocInit_eq (p : Palloc) :
    mallocInit p = .ok ⟨p, fun _ => none, [⟨16, 255, []⟩, ⟨32, 127, []⟩, ⟨64, 63, []⟩,
      ⟨128, 31, []⟩, ⟨256, 15, []⟩, ⟨512, 7, []⟩, ⟨1024, 3, []⟩]⟩ := rfl

/-- An offset below a page from a page-aligned address stays in that page. -/
theorem pgRoundDown_add {a k : Nat} (ha : pgOfs a = 0) (hk : k < PGSIZE) :
    pgRoundDown (a + k) = a ∧ pgOfs (a + k) = k := by
  have hofs : pgOfs (a + k) = k := by
    rw [pgOfs, Nat.add_mod, show a % PGSIZE = 0 from ha, Nat.zero_add, Nat.mod_mod,
      Nat.mod_eq_of_lt hk]
  exact ⟨by rw [pgRoundDown, hofs, Nat.add_sub_cancel], hofs⟩

/-- A request larger than every descriptor's blocks, with a run of enough free kernel
pages, gets a big block: the address after the header of its first page, whose header
counts the pages. -/
theorem malloc_big {h : Heap} {size n i : Nat} (hl : Layout h.palloc) (hs : 0 < size)
    (hd : ∀ d ∈ h.descs, d.blockSize < size)
    (hn : u32 (u32 (size + ARENA_SIZE) + PGSIZE - 1) / PGSIZE = n) (hn0 : 0 < n)
    (hi : Fits (h.palloc.pool false).usedMap 0 n false i) :
    ∃ h' a, malloc h size = .ok (h', a + ARENA_SIZE) ∧ a ≠ 0 ∧ pgOfs a = 0 ∧
      h'.arenas a = some ⟨none, n⟩ := by
  have hnone : h.descs.findIdx? (fun d => decide (d.blockSize ≥ size)) = none :=
    List.findIdx?_eq_none_iff.2 fun d hm => by simpa using hd d hm
  obtain ⟨p', a, hget, ha, hal, -⟩ := @pallocGetMultiple_of_fits _ 0 _ _ hl hn0 hi
  refine ⟨{ h with palloc := p' }.setArena a (some ⟨none, n⟩), a, ?_, ha, hal,
    Function.update_self ..⟩
  unfold malloc
  rw [if_neg (Nat.pos_iff_ne_zero.1 hs), hnone]
  simp only [hn, hget, Trace.ok_bind, if_neg ha]
  rfl

/-- `block_size` of a big block: its pages, less the header. -/
theorem blockSize_big {h : Heap} {a n : Nat} (ha : a ≠ 0) (hal : pgOfs a = 0)
    (har : h.arenas a = some ⟨none, n⟩) :
    blockSize h (a + ARENA_SIZE) = .ok (u32 (((PGSIZE * n : Nat) : Int) - ARENA_SIZE)) := by
  obtain ⟨hdown, hofs⟩ := pgRoundDown_add (k := ARENA_SIZE) hal (by decide)
  unfold blockSize blockToArena
  simp only [hdown, if_neg ha, har, hofs, beq_self_eq_true, if_true, pure_bind]
  rfl

/-- `malloc (SIZE_MAX)` succeeds with one free kernel page: `size + sizeof *a` wraps to 11,
which rounds up to one page, and the block returned holds 4084 bytes. -/
theorem malloc_huge_under_allocates {p : Palloc} {h : Heap} (hl : Layout p)
    (hfree : false ∈ (p.pool false).usedMap) (hh : mallocInit p = .ok h) :
    ∃ h' b, malloc h (2 ^ 32 - 1) = .ok (h', b) ∧ b ≠ 0 ∧ blockSize h' b = .ok 4084 := by
  rw [mallocInit_eq] at hh
  injection hh with hh
  have hp : h.palloc = p := by rw [← hh]
  have hd : ∀ d ∈ h.descs, d.blockSize < 2 ^ 32 - 1 := by
    rw [← hh]
    simp
  obtain ⟨i, hi⟩ := List.mem_iff_getElem?.1 hfree
  have hlt := (List.getElem?_eq_some_iff.1 hi).1
  have hfit : Fits (p.pool false).usedMap 0 1 false i := by
    refine ⟨Nat.zero_le _, show i + 1 ≤ (p.pool false).usedMap.length by omega, fun j hj => ?_⟩
    rw [Nat.lt_one_iff.1 hj, Nat.add_zero]
    exact (read_list_eq_iff _ hlt false).2 hi
  obtain ⟨h', a, hm, ha, hal, har⟩ := @malloc_big h (2 ^ 32 - 1) _ _ (hp ▸ hl) (by norm_num)
    hd (by decide) one_pos (hp ▸ hfit)
  exact ⟨h', _, hm, by simp [ARENA_SIZE], by rw [blockSize_big ha hal har]; rfl⟩

theorem malloc_huge_under_allocates_at_boot :
    pallocInit 292 1 (fun _ => 0) = .ok ⟨⟨List.replicate 34 false, 0xC0100000, 0xC0101000⟩,
      ⟨[], 0xC0123000, 0xC0124000⟩, fun _ => 0⟩ ∧
    ∃ h, mallocInit ⟨⟨List.replicate 34 false, 0xC0100000, 0xC0101000⟩,
      ⟨[], 0xC0123000, 0xC0124000⟩, fun _ => 0⟩ = .ok h ∧
      ∃ h' b, malloc h (2 ^ 32 - 1) = .ok (h', b) ∧ b ≠ 0 ∧ blockSize h' b = .ok 4084 := by
  have hinit : pallocInit 292 1 (fun _ => 0) = .ok ⟨⟨List.replicate 34 false, 0xC0100000,
      0xC0101000⟩, ⟨[], 0xC0123000, 0xC0124000⟩, fun _ => 0⟩ := rfl
  exact ⟨hinit, _, rfl, malloc_huge_under_allocates
    (pallocInit_layout (by norm_num) (by norm_num) hinit).1 (by simp) rfl⟩

/-- `calloc (65537, 65537)`: the product wraps to `131073`, which is above both factors, so
the test lets it through; with 33 free kernel pages in a row the block returned holds
135156 bytes. -/
theorem calloc_wraps_product {p : Palloc} {h : Heap} {i : Nat} (hl : Layout p)
    (hfree : Fits (p.pool false).usedMap 0 33 false i) (hh : mallocInit p = .ok h) :
    ∃ h' b, calloc h 65537 65537 = .ok (h', b) ∧ b ≠ 0 ∧ blockSize h' b = .ok 135156 := by
  rw [mallocInit_eq] at hh
  injection hh with hh
  have hp : h.palloc = p := by rw [← hh]
  have hd : ∀ d ∈ h.descs, d.blockSize < 131073 := by
    rw [← hh]
    simp
  obtain ⟨h', a, hm, ha, hal, har⟩ := @malloc_big h 131073 _ _ (hp ▸ hl) (by norm_num) hd
    (by decide) (by norm_num) (hp ▸ hfree)
  have hsize : u32 (((65537 : Nat) : Int) * ((65537 : Nat) : Int)) = 131073 := by decide
  have hb : a + ARENA_SIZE ≠ 0 := by simp [ARENA_SIZE]
  refine ⟨h'.setMem (fill h'.palloc.mem (a + ARENA_SIZE) 131073 0), a + ARENA_SIZE, ?_, hb, ?_⟩
  · unfold calloc
    dsimp only
    rw [hsize, if_neg (by decide), hm, Trace.ok_bind]
    simp only [if_pos hb]
    rfl
  · rw [blockSize_big (h := h'.setMem (fill h'.palloc.mem (a + ARENA_SIZE) 131073 0)) ha hal har]
    rfl

theorem calloc_wraps_product_at_boot :
    pallocInit 292 1 (fun _ => 0) = .ok ⟨⟨List.replicate 34 false, 0xC0100000, 0xC0101000⟩,
      ⟨[], 0xC0123000, 0xC0124000⟩, fun _ => 0⟩ ∧
    Fits (List.replicate 34 false) 0 33 false 0 ∧
    ∃ h, mallocInit ⟨⟨List.replicate 34 false, 0xC0100000, 0xC0101000⟩,
      ⟨[], 0xC0123000, 0xC0124000⟩, fun _ => 0⟩ = .ok h ∧
      ∃ h' b, calloc h 65537 65537 = .ok (h', b) ∧ b ≠ 0 ∧ blockSize h' b = .ok 135156 := by
  have hinit : pallocInit 292 1 (fun _ => 0) = .ok ⟨⟨List.replicate 34 false, 0xC0100000,
      0xC0101000⟩, ⟨[], 0xC0123000, 0xC0124000⟩, fun _ => 0⟩ := rfl
  have hfit : Fits (List.replicate 34 false) 0 33 false 0 := by decide
  exact ⟨hinit, hfit, _, rfl, calloc_wraps_product
    (pallocInit_layout (by norm_num) (by norm_num) hinit).1 hfit rfl⟩

end Pintos.Threads
