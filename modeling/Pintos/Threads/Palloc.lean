import Pintos.Kernel.Bitmap
import Pintos.Lib.Memory

/-!
The page allocator of `threads/palloc.c`. Free memory, from 1 MB to the end of RAM, is split
into a kernel pool and a user pool; each pool keeps its `used_map` in its own first pages and
hands out the pages after them, a first-fit run at a time (`bitmap_scan_and_flip`), until
`palloc_free_multiple` gives the run back.

A pool's bitmap is the list of its bits, stored from `usedMapAddr` up to the pool's `base`;
memory is a function from addresses to bytes, which the `memset`s of `PAL_ZERO` and of a
free fill. A failed `ASSERT`, the `NOT_REACHED` of a page from neither pool and the `PANIC`
of `PAL_ASSERT` stop the kernel: `.panic`. The two locks only make each call atomic, so a
call is one step.

Over it, the runs handed out and not yet freed (`Grant`s) and an invariant that ties them to
the bitmaps (`PallocSys.Inv`): each pool's bit `i` is set exactly when a live run holds page
`i`, and runs of one pool do not share a page.

* `pallocInit_inv`: `palloc_init` lays out the two pools one after the other below `2^32`,
  each past its own bitmap, for the memory sizes `start.S` lets through;
* `Inv.grant`, `Inv.release`: an allocation and a free keep the invariant;
* `palloc_never_hands_out_twice`: over every run, results are aligned runs of the pool
  `PAL_USER` selects, live runs are apart from each other and from both bitmaps, the bitmaps
  are the live runs, and a free gives back exactly its run.
-/

namespace Pintos.Threads

open CInt Memory

/-- `PGBITS`, the offset bits of an address. -/
def PGBITS : Nat := 12

/-- `PGSIZE`, the bytes of a page. -/
def PGSIZE : Nat := 2 ^ PGBITS

/-- `PHYS_BASE`, where the kernel maps physical memory. -/
def PHYS_BASE : Nat := 0xc0000000

theorem PGSIZE_eq : PGSIZE = 4096 := rfl

/-- `pg_ofs (va)`. -/
def pgOfs (va : Nat) : Nat := va % PGSIZE

/-- `pg_no (va)`. -/
def pgNo (va : Nat) : Nat := va / PGSIZE

/-- `ptov (paddr)`, which asserts that the address is below `PHYS_BASE`. -/
def ptov (paddr : Nat) : Except Fault Nat :=
  if paddr < PHYS_BASE then pure (paddr + PHYS_BASE) else throw .panic

/-- `DIV_ROUND_UP (x, step)`. -/
def divRoundUp (x step : Nat) : Nat := (x + step - 1) / step

/-- `bitmap_buf_size (bit_cnt)`: the `struct bitmap` (its count and its `bits` pointer, eight
bytes) followed by its elements. -/
def bitmapBufSize (bitCnt : Nat) : Nat := 8 + byteCnt bitCnt

/-- `PAL_ASSERT`: panic on failure. -/
def PAL_ASSERT : Nat := 1

/-- `PAL_ZERO`: zero the pages. -/
def PAL_ZERO : Nat := 2

/-- `PAL_USER`: a user page. -/
def PAL_USER : Nat := 4

/-- `flags & f`, read as a condition. -/
def hasFlag (flags f : Nat) : Bool := flags &&& f != 0

/-- `struct pool`: its bitmap's bits, where the bitmap is stored, and `base`. -/
structure Pool where
  /-- The bits of `used_map`, `true` for a page in use. -/
  usedMap : List Bool
  /-- Where `used_map` is stored: the pool's first page. -/
  usedMapAddr : Nat
  /-- `base`, the first page handed out. -/
  base : Nat
  deriving DecidableEq, Repr

/-- `kernel_pool`, `user_pool` and the memory the allocator fills. -/
structure Palloc where
  kernelPool : Pool
  userPool : Pool
  mem : Nat → UInt8

namespace Palloc

/-- The pool `flags & PAL_USER` selects. -/
def pool (p : Palloc) (user : Bool) : Pool := if user then p.userPool else p.kernelPool

/-- The selected pool replaced. -/
def setPool (p : Palloc) (user : Bool) (q : Pool) : Palloc :=
  if user then { p with userPool := q } else { p with kernelPool := q }

@[simp] theorem pool_false (p : Palloc) : p.pool false = p.kernelPool := rfl

@[simp] theorem pool_true (p : Palloc) : p.pool true = p.userPool := rfl

theorem pool_setPool (p : Palloc) (u : Bool) (q : Pool) (v : Bool) :
    (p.setPool u q).pool v = if v = u then q else p.pool v := by
  cases u <;> cases v <;> rfl

@[simp] theorem pool_setPool_self (p : Palloc) (u : Bool) (q : Pool) :
    (p.setPool u q).pool u = q := by
  cases u <;> rfl

@[simp] theorem pool_setPool_not (p : Palloc) (u : Bool) (q : Pool) :
    (p.setPool u q).pool (!u) = p.pool (!u) := by
  cases u <;> rfl

@[simp] theorem setPool_pool (p : Palloc) (u : Bool) : p.setPool u (p.pool u) = p := by
  cases u <;> rfl

@[simp] theorem pool_setMem (p : Palloc) (m : Nat → UInt8) (v : Bool) :
    ({ p with mem := m } : Palloc).pool v = p.pool v := by
  cases v <;> rfl

@[simp] theorem mem_setPool (p : Palloc) (u : Bool) (q : Pool) : (p.setPool u q).mem = p.mem := by
  cases u <;> rfl

/-- What a call leaves behind: pool `u` with the bitmap `b`, and the memory `m`. -/
def update (p : Palloc) (u : Bool) (b : List Bool) (m : Nat → UInt8) : Palloc :=
  { p.setPool u { p.pool u with usedMap := b } with mem := m }

@[simp] theorem usedMap_update (p : Palloc) (u : Bool) (b : List Bool) (m : Nat → UInt8)
    (v : Bool) : ((p.update u b m).pool v).usedMap = if v = u then b else (p.pool v).usedMap := by
  rw [update, pool_setMem, pool_setPool]
  split_ifs <;> rfl

@[simp] theorem base_update (p : Palloc) (u : Bool) (b : List Bool) (m : Nat → UInt8) (v : Bool) :
    ((p.update u b m).pool v).base = (p.pool v).base := by
  rw [update, pool_setMem, pool_setPool]
  split_ifs with hv
  · rw [hv]
  · rfl

@[simp] theorem usedMapAddr_update (p : Palloc) (u : Bool) (b : List Bool) (m : Nat → UInt8)
    (v : Bool) : ((p.update u b m).pool v).usedMapAddr = (p.pool v).usedMapAddr := by
  rw [update, pool_setMem, pool_setPool]
  split_ifs with hv
  · rw [hv]
  · rfl

end Palloc

/-! ## The allocator -/

/-- `init_pool (p, base, page_cnt, name)`: the bitmap in the pool's first pages, the pages
after it handed out. -/
def initPool (base pageCnt : Nat) : Except Fault Pool :=
  let bmPages := divRoundUp (bitmapBufSize pageCnt) PGSIZE
  if bmPages > pageCnt then throw .panic
  else
    let pageCnt := pageCnt - bmPages
    -- the `ASSERT` of `bitmap_create_in_buf` on the size of its buffer
    if bitmapBufSize pageCnt ≤ bmPages * PGSIZE then
      pure ⟨bitmapCreate pageCnt, base, base + bmPages * PGSIZE⟩
    else throw .panic

/-- `palloc_init (user_page_limit)`, with `init_ram_pages` as the loader left it. -/
def pallocInit (initRamPages userPageLimit : Nat) (mem : Nat → UInt8) :
    Except Fault Palloc := do
  let freeStart ← ptov (1024 * 1024)
  let freeEnd ← ptov (initRamPages * PGSIZE)
  -- a pointer difference, divided as a signed number and stored in a `size_t`
  let freePages := u32 (((freeEnd : Int) - freeStart).tdiv PGSIZE)
  let userPages := if freePages / 2 > userPageLimit then userPageLimit else freePages / 2
  let kernelPages := freePages - userPages
  let kernelPool ← initPool freeStart kernelPages
  let userPool ← initPool (freeStart + kernelPages * PGSIZE) userPages
  pure ⟨kernelPool, userPool, mem⟩

/-- `palloc_get_multiple (flags, page_cnt)`: the pages, `0` for `NULL`. -/
def pallocGetMultiple (p : Palloc) (flags pageCnt : Nat) : Except Fault (Palloc × Nat) :=
  let user := hasFlag flags PAL_USER
  let pool := p.pool user
  if pageCnt = 0 then pure (p, 0)
  else do
    let (usedMap, pageIdx) ← bitmapScanAndFlip pool.usedMap 0 pageCnt false
    let p := p.setPool user { pool with usedMap }
    let pages := if pageIdx ≠ BITMAP_ERROR then pool.base + PGSIZE * pageIdx else 0
    if pages ≠ 0 then
      if hasFlag flags PAL_ZERO then
        pure ({ p with mem := fill p.mem pages (u32 (PGSIZE * pageCnt)) 0 }, pages)
      else pure (p, pages)
    else if hasFlag flags PAL_ASSERT then throw .panic
    else pure (p, 0)

/-- `palloc_get_page (flags)`. -/
def pallocGetPage (p : Palloc) (flags : Nat) : Except Fault (Palloc × Nat) :=
  pallocGetMultiple p flags 1

/-- `page_from_pool (pool, page)`. -/
def pageFromPool (pool : Pool) (page : Nat) : Bool :=
  let pageNo := pgNo page
  let startPage := pgNo pool.base
  let endPage := startPage + pool.usedMap.length
  decide (pageNo ≥ startPage) && decide (pageNo < endPage)

/-- `palloc_free_multiple (pages, page_cnt)`, with the `memset` of a debug build. -/
def pallocFreeMultiple (p : Palloc) (pages pageCnt : Nat) : Except Fault Palloc :=
  if pgOfs pages ≠ 0 then throw .panic
  else if pages = 0 ∨ pageCnt = 0 then pure p
  else do
    let user ← if pageFromPool p.kernelPool pages then pure false
      else if pageFromPool p.userPool pages then pure true
      else throw .panic
    let pool := p.pool user
    let pageIdx := pgNo pages - pgNo pool.base
    let mem := fill p.mem pages (u32 (PGSIZE * pageCnt)) 0xcc
    let all ← bitmapAll pool.usedMap pageIdx pageCnt
    if !all then throw .panic
    else do
      let usedMap ← bitmapSetMultiple pool.usedMap pageIdx pageCnt false
      pure { p.setPool user { pool with usedMap } with mem }

/-- `palloc_free_page (page)`. -/
def pallocFreePage (p : Palloc) (page : Nat) : Except Fault Palloc :=
  pallocFreeMultiple p page 1

/-! ## Page arithmetic -/

theorem pgNo_add_mul (b i : Nat) : pgNo (b + PGSIZE * i) = pgNo b + i := by
  rw [pgNo, Nat.add_mul_div_left _ _ (by decide)]
  rfl

theorem pgOfs_add_mul (b i : Nat) : pgOfs (b + PGSIZE * i) = pgOfs b := by
  simp only [pgOfs, Nat.add_mul_mod_self_left]

theorem pgNo_le_pgNo {a b : Nat} (h : a ≤ b) : pgNo a ≤ pgNo b :=
  Nat.div_le_div_right h

/-- A page `i` of the pool is in it. -/
theorem pageFromPool_of_lt {q : Pool} {i : Nat} (hi : i < q.usedMap.length) :
    pageFromPool q (q.base + PGSIZE * i) = true := by
  simp only [pageFromPool, pgNo_add_mul, Bool.and_eq_true, decide_eq_true_eq]
  omega

/-- An address past the pool's pages is not in it. -/
theorem pageFromPool_of_ge {q : Pool} {a : Nat} (h : q.base + PGSIZE * q.usedMap.length ≤ a) :
    pageFromPool q a = false := by
  have := pgNo_le_pgNo h
  rw [pgNo_add_mul] at this
  simp only [pageFromPool, Bool.and_eq_false_iff, decide_eq_false_iff_not]
  omega

/-! ## Where the pools lie -/

/-- Where `palloc_init` puts the pools: each pool's bitmap at `usedMapAddr`, below the
page-aligned `base` of the pages it tracks; the kernel pool's pages below the user pool's
bitmap; and all of it below `2^32`. -/
structure Layout (p : Palloc) : Prop where
  aligned : ∀ u, pgOfs (p.pool u).base = 0
  map_fits : ∀ u, 0 < (p.pool u).usedMapAddr ∧
    (p.pool u).usedMapAddr + bitmapBufSize (p.pool u).usedMap.length ≤ (p.pool u).base
  kernel_below_user :
    (p.pool false).base + PGSIZE * (p.pool false).usedMap.length ≤ (p.pool true).usedMapAddr
  top : (p.pool true).base + PGSIZE * (p.pool true).usedMap.length ≤ 2 ^ 32

namespace Layout

variable {p : Palloc} (hl : Layout p)
include hl

theorem base_pos (u : Bool) : 0 < (p.pool u).base := by
  have := hl.map_fits u
  omega

theorem end_le (u : Bool) : (p.pool u).base + PGSIZE * (p.pool u).usedMap.length ≤ 2 ^ 32 := by
  cases u with
  | true => exact hl.top
  | false =>
    have := hl.map_fits true
    have := hl.kernel_below_user
    have := hl.top
    omega

theorem len_lt (u : Bool) : (p.pool u).usedMap.length < 2 ^ 32 := by
  have := hl.end_le u
  have := hl.base_pos u
  rw [PGSIZE_eq] at *
  omega

/-- The layout only reads where the pools and their bitmaps are and how many pages they
have. -/
theorem of_shape {p' : Palloc}
    (h : ∀ u, (p'.pool u).usedMapAddr = (p.pool u).usedMapAddr ∧ (p'.pool u).base = (p.pool u).base ∧
      (p'.pool u).usedMap.length = (p.pool u).usedMap.length) : Layout p' where
  aligned u := (h u).2.1 ▸ hl.aligned u
  map_fits u := by
    rw [(h u).1, (h u).2.1, (h u).2.2]
    exact hl.map_fits u
  kernel_below_user := by
    rw [(h false).2.1, (h false).2.2, (h true).1]
    exact hl.kernel_below_user
  top := by
    rw [(h true).2.1, (h true).2.2]
    exact hl.top

/-- A new bitmap of the same size for one pool, and any memory, keep the layout. -/
theorem update {u : Bool} {b : List Bool} (hb : b.length = (p.pool u).usedMap.length)
    (m : Nat → UInt8) : Layout (p.update u b m) := by
  refine hl.of_shape fun v => ⟨Palloc.usedMapAddr_update .., Palloc.base_update .., ?_⟩
  rw [Palloc.usedMap_update]
  split_ifs with hv
  · rw [hv, hb]
  · rfl

/-- Of two pools, one ends below the other's bitmap. -/
theorem pools_apart {u v : Bool} (huv : u ≠ v) :
    (p.pool u).base + PGSIZE * (p.pool u).usedMap.length ≤ (p.pool v).usedMapAddr ∨
      (p.pool v).base + PGSIZE * (p.pool v).usedMap.length ≤ (p.pool u).usedMapAddr :=
  match u, v, huv with
  | false, true, _ => .inl hl.kernel_below_user
  | true, false, _ => .inr hl.kernel_below_user
  | false, false, h => absurd rfl h
  | true, true, h => absurd rfl h

end Layout

/-! ## What one allocation does -/

/-- `palloc_get_multiple` either returns `NULL` and changes nothing, or finds a run of
`page_cnt` free pages in the pool `PAL_USER` selects, marks it used, and returns its first
page; only memory may change besides. -/
theorem pallocGetMultiple_eq_ok {p p' : Palloc} {flags n pages : Nat} (hl : Layout p)
    (h : pallocGetMultiple p flags n = .ok (p', pages)) :
    (pages = 0 ∧ p' = p) ∨
      ∃ idx m, 0 < n ∧ idx + n ≤ (p.pool (hasFlag flags PAL_USER)).usedMap.length ∧
        (∀ j < n, (p.pool (hasFlag flags PAL_USER)).usedMap[idx + j]? = some false) ∧
        pages = (p.pool (hasFlag flags PAL_USER)).base + PGSIZE * idx ∧
        p' = p.update (hasFlag flags PAL_USER)
          (setRange (p.pool (hasFlag flags PAL_USER)).usedMap idx n true) m := by
  unfold pallocGetMultiple at h
  generalize hasFlag flags PAL_USER = u at h ⊢
  by_cases h0 : n = 0
  · rw [if_pos h0, Trace.pure_eq_ok, Prod.mk.injEq] at h
    exact .inl ⟨h.2.symm, h.1.symm⟩
  rw [if_neg h0] at h
  obtain ⟨⟨b', idx⟩, hscan, h⟩ := Trace.bind_eq_ok h
  rcases bitmapScanAndFlip_eq_ok (hl.len_lt u) hscan with
    ⟨hidx, rfl⟩ | ⟨hidx, -, hend, hfree, rfl⟩
  · -- no run is free: `NULL`, or the `PANIC` of `PAL_ASSERT`
    left
    simp only [hidx, ne_eq, not_true_eq_false, if_false] at h
    cases hA : hasFlag flags PAL_ASSERT
    · rw [hA, if_neg Bool.false_ne_true, Trace.pure_eq_ok, Prod.mk.injEq] at h
      obtain ⟨rfl, rfl⟩ := h
      exact ⟨rfl, Palloc.setPool_pool p u⟩
    · rw [hA, if_pos rfl] at h
      exact absurd h Trace.throw_ne_ok
  · right
    have hpos : (p.pool u).base + PGSIZE * idx ≠ 0 := by
      have := hl.base_pos u
      omega
    refine ⟨idx, ?_⟩
    simp only [hidx, ne_eq, not_false_eq_true, if_true, hpos, Bool.not_false] at h
    split_ifs at h
    · -- `PAL_ZERO`: only memory changes besides the bitmap
      rw [Trace.pure_eq_ok, Prod.mk.injEq] at h
      obtain ⟨rfl, rfl⟩ := h
      exact ⟨_, Nat.pos_of_ne_zero h0, hend, hfree, rfl, rfl⟩
    · rw [Trace.pure_eq_ok, Prod.mk.injEq] at h
      obtain ⟨rfl, rfl⟩ := h
      refine ⟨p.mem, Nat.pos_of_ne_zero h0, hend, hfree, rfl, ?_⟩
      cases u <;> rfl

/-- With a run of `n` free pages in the pool `PAL_USER` selects, `palloc_get_multiple`
returns the first such run: a page that is not `NULL` and is page-aligned, with the layout
kept. -/
theorem pallocGetMultiple_of_fits {p : Palloc} {flags n i : Nat} (hl : Layout p) (hn : 0 < n)
    (hi : Fits (p.pool (hasFlag flags PAL_USER)).usedMap 0 n false i) :
    ∃ p' page, pallocGetMultiple p flags n = .ok (p', page) ∧ page ≠ 0 ∧ pgOfs page = 0 ∧
      Layout p' := by
  obtain ⟨idx, hscan, hspec⟩ := bitmapScan_first_fit (hl.len_lt (hasFlag flags PAL_USER))
    (Nat.zero_le _)
  have hfit : Fits (p.pool (hasFlag flags PAL_USER)).usedMap 0 n false idx := by
    rcases hspec with ⟨hf, -⟩ | ⟨-, hnone⟩
    · exact hf
    · exact absurd hi (hnone i)
  have hne : idx ≠ BITMAP_ERROR := by
    have : idx + n ≤ (p.pool (hasFlag flags PAL_USER)).usedMap.length := hfit.2.1
    have := hl.len_lt (hasFlag flags PAL_USER)
    rw [BITMAP_ERROR]
    omega
  have hflip := bitmapScanAndFlip_of_scan (hl.len_lt _) hscan fun _ => hfit.2.1
  rw [if_pos hne] at hflip
  have hpos : (p.pool (hasFlag flags PAL_USER)).base + PGSIZE * idx ≠ 0 := by
    have := hl.base_pos (hasFlag flags PAL_USER)
    omega
  have hal : pgOfs ((p.pool (hasFlag flags PAL_USER)).base + PGSIZE * idx) = 0 := by
    rw [pgOfs_add_mul, hl.aligned]
  have hlay : ∀ m, Layout (p.update (hasFlag flags PAL_USER)
      (setRange (p.pool (hasFlag flags PAL_USER)).usedMap idx n true) m) :=
    hl.update (length_setRange ..)
  unfold pallocGetMultiple
  rw [if_neg (Nat.pos_iff_ne_zero.1 hn)]
  obtain ⟨⟨b', idx'⟩, hflip', hb⟩ : ∃ r, bitmapScanAndFlip (p.pool (hasFlag flags PAL_USER)).usedMap 0 n false = .ok r ∧
      r = (setRange (p.pool (hasFlag flags PAL_USER)).usedMap idx n true, idx) := ⟨_, hflip, rfl⟩
  rw [hflip', Trace.ok_bind]
  obtain ⟨rfl, rfl⟩ := Prod.mk.inj hb
  simp only [if_pos hne, if_pos hpos]
  split_ifs
  · exact ⟨_, _, rfl, hpos, hal, hlay _⟩
  · refine ⟨_, _, rfl, hpos, hal, ?_⟩
    have := hlay p.mem
    cases hu : hasFlag flags PAL_USER <;> rw [hu] at this <;> exact this

/-! ## The pools `palloc_init` builds -/

theorem initPool_eq_ok {base n : Nat} {q : Pool} (h : initPool base n = .ok q) :
    ∃ bm, bm ≤ n ∧ bitmapBufSize (n - bm) ≤ bm * PGSIZE ∧
      q = ⟨bitmapCreate (n - bm), base, base + bm * PGSIZE⟩ := by
  simp only [initPool] at h
  generalize divRoundUp (bitmapBufSize n) PGSIZE = bm at h
  by_cases h1 : bm > n
  · rw [if_pos h1] at h
    exact absurd h Trace.throw_ne_ok
  rw [if_neg h1] at h
  by_cases h2 : bitmapBufSize (n - bm) ≤ bm * PGSIZE
  · rw [if_pos h2, Trace.pure_eq_ok] at h
    exact ⟨bm, by omega, h2, h.symm⟩
  · rw [if_neg h2] at h
    exact absurd h Trace.throw_ne_ok

/-- With `init_ram_pages` between 1 MB and 64 MB of pages, `palloc_init` has `init_ram_pages -
256` free pages to split, all of them below `2^32`; each pool, if its bitmap fits, starts
empty. -/
theorem pallocInit_layout {r lim : Nat} {mem : Nat → UInt8} {p : Palloc} (hram : 256 ≤ r)
    (hcap : r ≤ 16384) (h : pallocInit r lim mem = .ok p) :
    Layout p ∧ ∀ u, (p.pool u).usedMap = bitmapCreate (p.pool u).usedMap.length := by
  -- the binds are peeled one at a time: folding them by `simp` would make the kernel
  -- unfold `initPool` on the literal addresses
  rw [pallocInit] at h
  obtain ⟨fs, hs, h⟩ := Trace.bind_eq_ok h
  obtain ⟨fe, he, h⟩ := Trace.bind_eq_ok h
  have hfs : fs = 1024 * 1024 + PHYS_BASE := (Except.ok.inj hs).symm
  have hfe : fe = r * PGSIZE + PHYS_BASE := by
    rw [ptov, if_pos (by rw [PGSIZE_eq, PHYS_BASE]; omega)] at he
    exact (Except.ok.inj he).symm
  -- the free pages, as the signed difference of the two pointers gives them
  have hf : u32 (((fe : Int) - fs).tdiv (PGSIZE : Int)) = r - 256 := by
    have hd : (fe : Int) - fs = (((r - 256) * PGSIZE : Nat) : Int) := by
      rw [hfe, hfs, PGSIZE_eq, PHYS_BASE]
      omega
    rw [hd, ← Int.ofNat_tdiv, Nat.mul_div_cancel _ (by decide), u32_nat (by omega)]
  obtain ⟨kq, hk, h⟩ := Trace.bind_eq_ok h
  obtain ⟨uq, hu, h⟩ := Trace.bind_eq_ok h
  rw [Trace.pure_eq_ok] at h
  subst h
  rw [hf] at hk hu
  have hup : (if (r - 256) / 2 > lim then lim else (r - 256) / 2) ≤ r - 256 := by
    split_ifs <;> omega
  generalize (if (r - 256) / 2 > lim then lim else (r - 256) / 2) = up at hk hu hup
  obtain ⟨bk, hbk, hfk, rfl⟩ := initPool_eq_ok hk
  obtain ⟨bu, hbu, hfu, rfl⟩ := initPool_eq_ok hu
  subst hfs
  rw [PGSIZE_eq] at hfk hfu
  refine ⟨⟨fun u => ?_, fun u => ?_, ?_, ?_⟩, fun u => ?_⟩
  · cases u <;> simp only [Palloc.pool_false, Palloc.pool_true, pgOfs, PGSIZE_eq, PHYS_BASE] <;>
      omega
  · cases u <;> simp only [Palloc.pool_false, Palloc.pool_true, bitmapCreate,
      List.length_replicate, PGSIZE_eq, PHYS_BASE] <;> omega
  · simp only [Palloc.pool_false, Palloc.pool_true, bitmapCreate, List.length_replicate, PGSIZE_eq]
    omega
  · simp only [Palloc.pool_true, bitmapCreate, List.length_replicate, PGSIZE_eq, PHYS_BASE]
    omega
  · cases u <;> simp [bitmapCreate]

/-! ## Runs handed out -/

/-- A run of pages handed out and not yet freed: its pool, the index of its first page in
the pool, and its length. -/
structure Grant where
  user : Bool
  idx : Nat
  cnt : Nat
  deriving DecidableEq, Repr

/-- Page `i` of pool `u` belongs to the run. -/
def Grant.Holds (g : Grant) (u : Bool) (i : Nat) : Prop :=
  g.user = u ∧ g.idx ≤ i ∧ i < g.idx + g.cnt

/-- Two runs share no page: they are of different pools, or apart in one. -/
def Grant.Apart (g h : Grant) : Prop :=
  g.user = h.user → g.idx + g.cnt ≤ h.idx ∨ h.idx + h.cnt ≤ g.idx

instance : Std.Symm Grant.Apart :=
  ⟨fun _ _ hgh hu => (hgh hu.symm).symm⟩

/-- The address of the run's first page. -/
def Palloc.addr (p : Palloc) (g : Grant) : Nat := (p.pool g.user).base + PGSIZE * g.idx

/-- A call of the allocator. -/
inductive PallocCall where
  | get (flags pageCnt : Nat)
  | free (pages pageCnt : Nat)
  deriving DecidableEq, Repr

/-- The allocator with the runs it has handed out. -/
structure PallocSys where
  palloc : Palloc
  grants : List Grant

namespace PallocSys

/-- One call: an allocation records the run it returns, a free forgets the run it gives
back. -/
def step (s : PallocSys) : PallocCall → Except Fault (PallocSys × Nat)
  | .get flags n => do
    let (p, pages) ← pallocGetMultiple s.palloc flags n
    let user := hasFlag flags PAL_USER
    let g : Grant := ⟨user, pgNo pages - pgNo (p.pool user).base, n⟩
    pure (⟨p, if pages = 0 then s.grants else g :: s.grants⟩, pages)
  | .free pages n => do
    let p ← pallocFreeMultiple s.palloc pages n
    pure (⟨p, s.grants.filter fun g => !(s.palloc.addr g == pages && g.cnt == n)⟩, 0)

/-- A free gives back a run handed out and not yet freed; an allocation may always be asked
for. -/
def Enabled (s : PallocSys) : PallocCall → Prop
  | .get _ _ => True
  | .free pages n => ∃ g ∈ s.grants, s.palloc.addr g = pages ∧ g.cnt = n

instance (s : PallocSys) : (a : PallocCall) → Decidable (s.Enabled a)
  | .get _ _ => isTrue trivial
  | .free pages n =>
    inferInstanceAs (Decidable (∃ g ∈ s.grants, s.palloc.addr g = pages ∧ g.cnt = n))

/-- The calls that return, as the guarded steps of `Trace.Reachable`. -/
def next (s : PallocSys) (a : PallocCall) : Option PallocSys :=
  if s.Enabled a then (s.step a).toOption.map Prod.fst else none

theorem step_of_next {s s' : PallocSys} {a : PallocCall} (h : s.next a = some s') :
    s.Enabled a ∧ ∃ o, s.step a = .ok (s', o) := by
  unfold next at h
  split_ifs at h with hen
  refine ⟨hen, ?_⟩
  cases hs : s.step a with
  | error e => simp [hs, Except.toOption] at h
  | ok r =>
    simp only [hs, Except.toOption, Option.map_some, Option.some.injEq] at h
    exact ⟨r.2, by rw [← h]⟩

/-- The invariant: the layout of `palloc_init`, live runs inside their pool and apart, and
each bitmap set exactly on the pages of live runs. -/
structure Inv (s : PallocSys) : Prop where
  layout : Layout s.palloc
  inside : ∀ g ∈ s.grants, 0 < g.cnt ∧ g.idx + g.cnt ≤ (s.palloc.pool g.user).usedMap.length
  apart : s.grants.Pairwise Grant.Apart
  used : ∀ u i, i < (s.palloc.pool u).usedMap.length →
    ((s.palloc.pool u).usedMap[i]? = some true ↔ ∃ g ∈ s.grants, g.Holds u i)

/-- A run that a call returns, recorded: `palloc_get_multiple` at the level of runs. -/
theorem step_get_eq_ok {s s' : PallocSys} {flags n pages : Nat} (hl : Layout s.palloc)
    (h : s.step (.get flags n) = .ok (s', pages)) :
    (pages = 0 ∧ s' = s) ∨
      ∃ idx m, 0 < n ∧ idx + n ≤ (s.palloc.pool (hasFlag flags PAL_USER)).usedMap.length ∧
        (∀ j < n, (s.palloc.pool (hasFlag flags PAL_USER)).usedMap[idx + j]? = some false) ∧
        pages = (s.palloc.pool (hasFlag flags PAL_USER)).base + PGSIZE * idx ∧
        s' = ⟨s.palloc.update (hasFlag flags PAL_USER)
          (setRange (s.palloc.pool (hasFlag flags PAL_USER)).usedMap idx n true) m,
          ⟨hasFlag flags PAL_USER, idx, n⟩ :: s.grants⟩ := by
  obtain ⟨⟨p', pg⟩, hget, h⟩ := Trace.bind_eq_ok h
  rw [Trace.pure_eq_ok, Prod.mk.injEq] at h
  obtain ⟨rfl, rfl⟩ := h
  rcases pallocGetMultiple_eq_ok hl hget with ⟨rfl, rfl⟩ | ⟨idx, m, hn, hend, hfree, rfl, rfl⟩
  · exact .inl ⟨rfl, by simp⟩
  · right
    have hpos : (s.palloc.pool (hasFlag flags PAL_USER)).base + PGSIZE * idx ≠ 0 := by
      have := hl.base_pos (hasFlag flags PAL_USER)
      omega
    refine ⟨idx, m, hn, hend, hfree, rfl, ?_⟩
    -- the index recorded is the run's: both pools keep their bases
    simp only [if_neg hpos, Palloc.base_update, pgNo_add_mul, Nat.add_sub_cancel_left]

namespace Inv

variable {s : PallocSys} (hs : s.Inv)
include hs

theorem bit_of_holds {g : Grant} {u : Bool} {i : Nat} (hg : g ∈ s.grants) (hi : g.Holds u i) :
    (s.palloc.pool u).usedMap[i]? = some true := by
  obtain ⟨rfl, h1, h2⟩ := hi
  have := (hs.inside g hg).2
  exact (hs.used g.user i (by omega)).2 ⟨g, hg, rfl, h1, h2⟩

/-- A live run lies in the pages of its pool. -/
theorem addr_bounds {g : Grant} (hg : g ∈ s.grants) :
    (s.palloc.pool g.user).base ≤ s.palloc.addr g ∧
      s.palloc.addr g + PGSIZE * g.cnt ≤
        (s.palloc.pool g.user).base + PGSIZE * (s.palloc.pool g.user).usedMap.length := by
  have := (hs.inside g hg).2
  simp only [Palloc.addr, PGSIZE_eq]
  omega

/-- Runs apart as indices are apart as addresses, in one pool or across the two. -/
theorem addr_apart {g h : Grant} (hg : g ∈ s.grants) (hh : h ∈ s.grants) (hgh : g.Apart h) :
    s.palloc.addr g + PGSIZE * g.cnt ≤ s.palloc.addr h ∨
      s.palloc.addr h + PGSIZE * h.cnt ≤ s.palloc.addr g := by
  by_cases hu : g.user = h.user
  · have hi := hgh hu
    simp only [Palloc.addr, hu, PGSIZE_eq]
    omega
  · have hg' := hs.addr_bounds hg
    have hh' := hs.addr_bounds hh
    have hmg := (hs.layout.map_fits g.user).2
    have hmh := (hs.layout.map_fits h.user).2
    rcases hs.layout.pools_apart hu with h1 | h1 <;> omega

/-- Two live runs that start at one address are one run. -/
theorem addr_inj {g h : Grant} (hg : g ∈ s.grants) (hh : h ∈ s.grants)
    (he : s.palloc.addr g = s.palloc.addr h) : g = h := by
  by_contra hne
  have hap := hs.addr_apart hg hh (hs.apart.forall hg hh hne)
  have := Nat.mul_pos (show 0 < PGSIZE by decide) (hs.inside g hg).1
  have := Nat.mul_pos (show 0 < PGSIZE by decide) (hs.inside h hh).1
  omega

/-- A live run lies past the bitmap of each pool, or below it. -/
theorem off_bitmaps {g : Grant} (hg : g ∈ s.grants) (v : Bool) :
    s.palloc.addr g + PGSIZE * g.cnt ≤ (s.palloc.pool v).usedMapAddr ∨
      (s.palloc.pool v).base ≤ s.palloc.addr g := by
  by_cases hv : g.user = v
  · exact .inr (hv ▸ (hs.addr_bounds hg).1)
  · have hb := hs.addr_bounds hg
    have hmg := (hs.layout.map_fits g.user).2
    have hmv := (hs.layout.map_fits v).2
    rcases hs.layout.pools_apart hv with h1 | h1 <;> omega

/-- Marking a free run of pool `u` used and recording it keeps the invariant. -/
theorem grant {u : Bool} {idx n : Nat} (hn : 0 < n)
    (hend : idx + n ≤ (s.palloc.pool u).usedMap.length)
    (hfree : ∀ j < n, (s.palloc.pool u).usedMap[idx + j]? = some false) (m : Nat → UInt8) :
    Inv ⟨s.palloc.update u (setRange (s.palloc.pool u).usedMap idx n true) m,
      ⟨u, idx, n⟩ :: s.grants⟩ := by
  have hlen : ∀ v, ((s.palloc.update u (setRange (s.palloc.pool u).usedMap idx n true) m).pool
      v).usedMap.length = (s.palloc.pool v).usedMap.length := by
    intro v
    rw [Palloc.usedMap_update]
    split_ifs with hv
    · rw [length_setRange, hv]
    · rfl
  refine ⟨hs.layout.update (length_setRange ..) m, fun g hg => ?_, ?_, fun v i hi => ?_⟩
  · rw [hlen]
    rcases List.mem_cons.1 hg with rfl | hg
    · exact ⟨hn, hend⟩
    · exact hs.inside g hg
  · -- the new run shares no page with a live one: its pages were free
    refine List.pairwise_cons.2 ⟨fun h hh hu => ?_, hs.apart⟩
    by_contra hov
    replace hov : ¬(idx + n ≤ h.idx ∨ h.idx + h.cnt ≤ idx) := hov
    have := (hs.inside h hh).1
    -- the later of the two starts is a page of both
    obtain ⟨i, hi1, hi2, hi3, hi4⟩ : ∃ i, idx ≤ i ∧ i < idx + n ∧ h.idx ≤ i ∧ i < h.idx + h.cnt := by
      rcases Nat.le_total idx h.idx with hle | hle
      · exact ⟨h.idx, hle, by omega, le_rfl, by omega⟩
      · exact ⟨idx, le_rfl, by omega, hle, by omega⟩
    have hb := hs.bit_of_holds hh ⟨hu.symm, hi3, hi4⟩
    have hf := hfree (i - idx) (by omega)
    rw [Nat.add_sub_cancel' hi1, hb] at hf
    cases hf
  · rw [hlen] at hi
    have hold := hs.used v i hi
    obtain ⟨x, hx⟩ : ∃ x, (s.palloc.pool v).usedMap[i]? = some x :=
      ⟨_, List.getElem?_eq_getElem hi⟩
    simp only [Palloc.usedMap_update]
    by_cases hv : v = u
    · subst hv
      rw [if_pos rfl, getElem?_setRange]
      by_cases hr : idx ≤ i ∧ i < idx + n
      · simp [hr, hx, Grant.Holds]
      · rw [if_neg hr, hold]
        simp [Grant.Holds, hr]
    · rw [if_neg hv, hold]
      simp [Grant.Holds, Ne.symm hv]

/-- A live run other than `g` holds no page that `g` holds. -/
theorem not_holds_of_ne {g h : Grant} (hg : g ∈ s.grants) (hh : h ∈ s.grants) (hne : h ≠ g)
    {u : Bool} {i : Nat} (hgi : g.Holds u i) : ¬h.Holds u i := by
  rintro ⟨hu, h1, h2⟩
  have := hs.apart.forall hg hh (Ne.symm hne) (hgi.1.trans hu.symm)
  have := hgi.2
  omega

/-- Giving back a live run and forgetting it keeps the invariant. -/
theorem release {g : Grant} (hg : g ∈ s.grants) (m : Nat → UInt8) :
    Inv ⟨s.palloc.update g.user (setRange (s.palloc.pool g.user).usedMap g.idx g.cnt false) m,
      s.grants.filter (· ≠ g)⟩ := by
  have hlen : ∀ v, ((s.palloc.update g.user (setRange (s.palloc.pool g.user).usedMap g.idx g.cnt
      false) m).pool v).usedMap.length = (s.palloc.pool v).usedMap.length := by
    intro v
    rw [Palloc.usedMap_update]
    split_ifs with hv
    · rw [length_setRange, hv]
    · rfl
  -- a page that `g` does not hold is held by a run other than `g` or by none
  have hrest : ∀ v i, ¬g.Holds v i →
      ((∃ h ∈ s.grants.filter (· ≠ g), h.Holds v i) ↔ ∃ h ∈ s.grants, h.Holds v i) := by
    intro v i hgi
    simp only [List.mem_filter, decide_eq_true_eq]
    exact ⟨fun ⟨h, ⟨hh, _⟩, hi⟩ => ⟨h, hh, hi⟩,
      fun ⟨h, hh, hi⟩ => ⟨h, ⟨hh, fun hhg => hgi (hhg ▸ hi)⟩, hi⟩⟩
  refine ⟨hs.layout.update (length_setRange ..) m, fun h hh => ?_,
    hs.apart.filter _, fun v i hi => ?_⟩
  · rw [hlen]
    exact hs.inside h (List.mem_of_mem_filter hh)
  · rw [hlen] at hi
    have hold := hs.used v i hi
    obtain ⟨x, hx⟩ : ∃ x, (s.palloc.pool v).usedMap[i]? = some x :=
      ⟨_, List.getElem?_eq_getElem hi⟩
    rw [Palloc.usedMap_update]
    by_cases hv : v = g.user
    · subst hv
      rw [if_pos rfl, getElem?_setRange]
      by_cases hr : g.idx ≤ i ∧ i < g.idx + g.cnt
      · -- a page of `g`: now free, and no other run holds it
        rw [if_pos hr, hx, Option.map_some]
        refine ⟨fun h => absurd h (by simp), fun ⟨h, hh, hi⟩ => ?_⟩
        rw [List.mem_filter, decide_eq_true_eq] at hh
        exact absurd hi (hs.not_holds_of_ne hg hh.1 hh.2 ⟨rfl, hr⟩)
      · rw [if_neg hr, hold, hrest _ _ fun hgi => hr hgi.2]
    · rw [if_neg hv, hold, hrest _ _ fun hgi => hv hgi.1.symm]

/-- `palloc_free_multiple` of a live run marks exactly its pages free in its own pool; the
debug `memset` fills its pages. -/
theorem free_eq {g : Grant} (hg : g ∈ s.grants) :
    pallocFreeMultiple s.palloc (s.palloc.addr g) g.cnt =
      .ok (s.palloc.update g.user (setRange (s.palloc.pool g.user).usedMap g.idx g.cnt false)
        (fill s.palloc.mem (s.palloc.addr g) (u32 (PGSIZE * g.cnt)) 0xcc)) := by
  obtain ⟨hpos, hend⟩ := hs.inside g hg
  have hl := hs.layout
  have hofs : pgOfs (s.palloc.addr g) = 0 := by
    rw [Palloc.addr, pgOfs_add_mul]
    exact hl.aligned _
  have hne : s.palloc.addr g ≠ 0 := by
    have := hl.base_pos g.user
    simp only [Palloc.addr]
    omega
  have hin : pageFromPool (s.palloc.pool g.user) (s.palloc.addr g) = true :=
    pageFromPool_of_lt (by omega)
  have hidx : pgNo (s.palloc.addr g) - pgNo (s.palloc.pool g.user).base = g.idx := by
    rw [Palloc.addr, pgNo_add_mul]
    omega
  -- every page of the run is in use, so `bitmap_all` holds
  have hall : bitmapAll (s.palloc.pool g.user).usedMap g.idx g.cnt = .ok true := by
    have hnone : ¬∃ j < g.cnt, (s.palloc.pool g.user).usedMap[g.idx + j]? = some false := by
      rintro ⟨j, hj, hb⟩
      rw [hs.bit_of_holds hg ⟨rfl, by omega, by omega⟩] at hb
      cases hb
    rw [bitmapAll, bitmapContains_eq false hend (hl.len_lt _), decide_eq_false hnone]
    rfl
  have hset := bitmapSetMultiple_eq false hend (hl.len_lt g.user)
  rw [pallocFreeMultiple, if_neg (not_not.2 hofs), if_neg (by omega)]
  -- `page_from_pool` finds the run's pool; a user page lies past the kernel pool
  cases hu : g.user with
  | false =>
    rw [hu, Palloc.pool_false] at hin
    rw [hu] at hidx hall hset
    simp only [hin, if_true, pure_bind, hidx, hall, Bool.not_true, Bool.false_eq_true, if_false,
      Trace.ok_bind, hset]
    rfl
  | true =>
    have hk : pageFromPool s.palloc.kernelPool (s.palloc.addr g) = false := by
      apply pageFromPool_of_ge
      have := (hs.addr_bounds hg).1
      have := (hl.map_fits true).2
      have := hl.kernel_below_user
      rw [hu, Palloc.pool_true] at *
      rw [← Palloc.pool_false]
      omega
    rw [hu, Palloc.pool_true] at hin
    rw [hu] at hidx hall hset
    simp only [hk, hin, Bool.false_eq_true, if_false, if_true, pure_bind, hidx, hall,
      Bool.not_true, Trace.ok_bind, hset]
    rfl

end Inv

/-- `palloc_init`'s pools, with nothing handed out yet, meet the invariant. -/
theorem pallocInit_inv {r lim : Nat} {mem : Nat → UInt8} {p : Palloc} (hram : 256 ≤ r)
    (hcap : r ≤ 16384) (h : pallocInit r lim mem = .ok p) : Inv ⟨p, []⟩ := by
  obtain ⟨hl, hempty⟩ := pallocInit_layout hram hcap h
  refine ⟨hl, fun g hg => absurd hg List.not_mem_nil, List.Pairwise.nil, fun u i hi => ?_⟩
  rw [hempty u, bitmapCreate, List.getElem?_replicate, if_pos (by simpa using hi)]
  simp

/-- Every call that returns keeps the invariant. -/
theorem Inv.next {s s' : PallocSys} {a : PallocCall} (hs : s.Inv) (h : s.next a = some s') :
    s'.Inv := by
  obtain ⟨hen, o, hstep⟩ := step_of_next h
  cases a with
  | get flags n =>
    rcases step_get_eq_ok hs.layout hstep with ⟨-, rfl⟩ | ⟨idx, m, hn, hend, hfree, -, rfl⟩
    · exact hs
    · exact hs.grant hn hend hfree m
  | free pages n =>
    obtain ⟨g, hg, rfl, rfl⟩ := hen
    obtain ⟨p', hfree, h⟩ := Trace.bind_eq_ok hstep
    rw [hs.free_eq hg, Except.ok.injEq] at hfree
    rw [Trace.pure_eq_ok, Prod.mk.injEq] at h
    obtain ⟨rfl, -⟩ := h
    subst hfree
    -- the run freed is the only live run at its address with its length
    have hfilter : (s.grants.filter fun h => !(s.palloc.addr h == s.palloc.addr g &&
        h.cnt == g.cnt)) = s.grants.filter (· ≠ g) := by
      refine List.filter_congr fun h hh => ?_
      by_cases hhg : h = g
      · simp [hhg]
      · have hne : s.palloc.addr h ≠ s.palloc.addr g := fun he => hhg (hs.addr_inj hh hg he)
        simp [hhg, hne]
    rw [hfilter]
    exact hs.release hg _

/-- A non-`NULL` result of an allocation is a page-aligned run of `n` pages of the pool
`PAL_USER` selects, past that pool's bitmap. -/
theorem Inv.get_result {s s' : PallocSys} {flags n pages : Nat} (hs : s.Inv)
    (h : s.step (.get flags n) = .ok (s', pages)) (hp : pages ≠ 0) :
    pgOfs pages = 0 ∧ (s.palloc.pool (hasFlag flags PAL_USER)).base ≤ pages ∧
      pages + PGSIZE * n ≤ (s.palloc.pool (hasFlag flags PAL_USER)).base +
        PGSIZE * (s.palloc.pool (hasFlag flags PAL_USER)).usedMap.length := by
  rcases step_get_eq_ok hs.layout h with ⟨rfl, -⟩ | ⟨idx, m, hn, hend, -, rfl, -⟩
  · exact absurd rfl hp
  · refine ⟨by rw [pgOfs_add_mul]; exact hs.layout.aligned _, by omega, ?_⟩
    rw [PGSIZE_eq]
    omega

/-- What the allocator promises in a state: results are aligned runs of their pool, live runs
share no page with each other or with a bitmap, each bitmap is set exactly on the pages of
live runs, and a free of a live run marks exactly its pages free in its own pool. -/
structure Safe (s : PallocSys) : Prop where
  results : ∀ flags n s' pages, s.step (.get flags n) = .ok (s', pages) → pages ≠ 0 →
    pgOfs pages = 0 ∧ (s.palloc.pool (hasFlag flags PAL_USER)).base ≤ pages ∧
      pages + PGSIZE * n ≤ (s.palloc.pool (hasFlag flags PAL_USER)).base +
        PGSIZE * (s.palloc.pool (hasFlag flags PAL_USER)).usedMap.length
  apart : s.grants.Pairwise fun g h => s.palloc.addr g + PGSIZE * g.cnt ≤ s.palloc.addr h ∨
    s.palloc.addr h + PGSIZE * h.cnt ≤ s.palloc.addr g
  off_bitmaps : ∀ g ∈ s.grants, ∀ u, s.palloc.addr g + PGSIZE * g.cnt ≤ (s.palloc.pool u).usedMapAddr ∨
    (s.palloc.pool u).base ≤ s.palloc.addr g
  used : ∀ u i, i < (s.palloc.pool u).usedMap.length →
    ((s.palloc.pool u).usedMap[i]? = some true ↔ ∃ g ∈ s.grants, g.Holds u i)
  free_exact : ∀ g ∈ s.grants, pallocFreeMultiple s.palloc (s.palloc.addr g) g.cnt =
    .ok (s.palloc.update g.user (setRange (s.palloc.pool g.user).usedMap g.idx g.cnt false)
      (fill s.palloc.mem (s.palloc.addr g) (u32 (PGSIZE * g.cnt)) 0xcc))

theorem Inv.safe {s : PallocSys} (hs : s.Inv) : s.Safe where
  results _ _ _ _ h hp := hs.get_result h hp
  apart := hs.apart.imp_of_mem fun hg hh hgh => hs.addr_apart hg hh hgh
  off_bitmaps _ hg u := hs.off_bitmaps hg u
  used := hs.used
  free_exact _ hg := hs.free_eq hg

end PallocSys

/-- Over every run of allocations and frees from `palloc_init`, each free giving back a live
run, the allocator keeps its promises. -/
theorem palloc_never_hands_out_twice {r lim : Nat} {mem : Nat → UInt8} {p₀ : Palloc}
    {s : PallocSys} (hram : 256 ≤ r) (hcap : r ≤ 16384) (h₀ : pallocInit r lim mem = .ok p₀)
    (hs : Trace.Reachable PallocSys.next ⟨p₀, []⟩ s) : s.Safe :=
  (hs.invariant PallocSys.Inv (PallocSys.pallocInit_inv hram hcap h₀)
    fun _ _ _ hi h => hi.next h).safe

/-- From `palloc_init` with three pages in each pool: one kernel page, then two, the first
given back, and one page again, which is the page just freed. -/
theorem palloc_never_hands_out_twice_of_get_free :
    pallocInit 264 4 (fun _ => 0) = .ok ⟨⟨List.replicate 3 false, 0xC0100000, 0xC0101000⟩,
      ⟨List.replicate 3 false, 0xC0104000, 0xC0105000⟩, fun _ => 0⟩ ∧
    (Trace.replay PallocSys.next ⟨⟨⟨List.replicate 3 false, 0xC0100000, 0xC0101000⟩,
        ⟨List.replicate 3 false, 0xC0104000, 0xC0105000⟩, fun _ => 0⟩, []⟩
      [.get 0 1, .get 0 2, .free 0xC0101000 1, .get 0 1]).map PallocSys.grants =
      some [⟨false, 0, 1⟩, ⟨false, 1, 2⟩] ∧
    ∀ s, Trace.replay PallocSys.next ⟨⟨⟨List.replicate 3 false, 0xC0100000, 0xC0101000⟩,
        ⟨List.replicate 3 false, 0xC0104000, 0xC0105000⟩, fun _ => 0⟩, []⟩
      [.get 0 1, .get 0 2, .free 0xC0101000 1, .get 0 1] = some s → s.Safe :=
  ⟨rfl, by decide, fun _ hs => @palloc_never_hands_out_twice 264 4 (fun _ => 0) _ _
    (by norm_num) (by norm_num) rfl (Trace.Reachable.replay _ .refl hs)⟩

end Pintos.Threads
