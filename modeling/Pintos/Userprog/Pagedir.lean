import Mathlib.Data.List.Nodup
import Mathlib.Data.List.Perm.Basic
import Pintos.Devices.Block
import Pintos.Lib.Loop
import Pintos.Threads.Malloc
import Pintos.Userprog.Syscall

/-!
The two-level page tables of `userprog/pagedir.c`, over the 32-bit words of memory. A page
directory at `pd` holds 1024 entries, the first `pd_no (PHYS_BASE) = 768` of them for user
addresses, each `0` or the entry of a page table that `lookup_page` took from
`palloc_get_page`; the rest is the kernel's, copied from `init_page_dir` by `pagedir_create`.
`palloc_get_page` is an oracle, the page it gives or `none` for `NULL`, and `pagedir_destroy`
returns the pages it hands to `palloc_free_page`, in order.

A page directory implements a partial map from user pages to a kernel page and a writable bit
(`Pmap`). `Holds` relates the words to the map and to the page tables allocated so far, and
`Reach` is the runs from `pagedir_create` through `pagedir_set_page` on unmapped pages and
`pagedir_clear_page`:

* `lookupPage_present`, `lookupPage_absent`, `lookupPage_fail`, `lookupPage_alloc`: the four
  ways out of `lookup_page`;
* `Holds.setEntry`, `Holds.addTable`: writing one entry of a page table, and putting a new page
  table in place, keep the invariant; `holds_create` starts it;
* `Holds.setPage`, `Holds.clearPage`, `Holds.getPage`: the calls, each returning, on the map;
* `Holds.destroy`: `pagedir_destroy` frees the mapped pages, the page tables and `pd`, a page
  once for each time it occurs among them;
* `Reach.holds`, `pagedir_refines_map`: every reachable page directory implements its map;
  `destroy_frees_aliased_page_twice`: a kernel page mapped at two user pages is freed twice.
-/

namespace Pintos.Userprog.Pagedir

/-! ## `threads/pte.h` and `threads/vaddr.h` -/

/-- `PTSHIFT`, the first page table bit. -/
def PTSHIFT : Nat := 12

/-- `PTBITS`. -/
def PTBITS : Nat := 10

/-- `PDSHIFT`, the first page directory bit. -/
def PDSHIFT : Nat := PTSHIFT + PTBITS

/-- `PTMASK`: `BITMASK (PTSHIFT, PTBITS)`, the page table bits. -/
def PTMASK : Nat := (2 ^ PTBITS - 1) <<< PTSHIFT

/-- `pt_no (va)`. -/
def ptNo (va : Nat) : Nat := (va &&& PTMASK) >>> PTSHIFT

/-- `pd_no (va)`. -/
def pdNo (va : Nat) : Nat := va >>> PDSHIFT

/-- `PTE_ADDR`. -/
def PTE_ADDR : UInt32 := 0xfffff000

/-- `PTE_P`: present. -/
def PTE_P : UInt32 := 0x1

/-- `PTE_W`: writable. -/
def PTE_W : UInt32 := 0x2

/-- `PTE_U`: user. -/
def PTE_U : UInt32 := 0x4

/-- `vtop (vaddr)`, with its `ASSERT (is_kernel_vaddr (vaddr))`. -/
def vtop (vaddr : Nat) : Except Fault Nat :=
  if PHYS_BASE ≤ vaddr then pure (vaddr - PHYS_BASE) else throw .panic

/-- `pde_create (pt)`. -/
def pdeCreate (pt : Nat) : Except Fault UInt32 := do
  if Threads.pgOfs pt ≠ 0 then throw .panic
  let pa ← vtop pt
  pure (pa.toUInt32 ||| PTE_U ||| PTE_P ||| PTE_W)

/-- `pde_get_pt (pde)`. -/
def pdeGetPt (pde : UInt32) : Except Fault Nat := do
  if pde &&& PTE_P = 0 then throw .panic
  Threads.ptov (pde &&& PTE_ADDR).toNat

/-- `pte_create_kernel (page, writable)`. -/
def pteCreateKernel (page : Nat) (writable : Bool) : Except Fault UInt32 := do
  if Threads.pgOfs page ≠ 0 then throw .panic
  let pa ← vtop page
  pure (pa.toUInt32 ||| PTE_P ||| (if writable then PTE_W else 0))

/-- `pte_create_user (page, writable)`. -/
def pteCreateUser (page : Nat) (writable : Bool) : Except Fault UInt32 := do
  let pte ← pteCreateKernel page writable
  pure (pte ||| PTE_U)

/-- `pte_get_page (pte)`. -/
def pteGetPage (pte : UInt32) : Except Fault Nat := Threads.ptov (pte &&& PTE_ADDR).toNat

/-! ## `userprog/pagedir.c` -/

/-- The page `palloc_get_page (PAL_ZERO)` returns, zeroed. -/
def zeroPage (mem : Nat → UInt32) (page : Nat) : Nat → UInt32 :=
  fun a => if page ≤ a ∧ a < page + PGSIZE then 0 else mem a

/-- `pagedir_create ()`: the page directory, or `NULL` when `palloc_get_page` fails, and the
memory after `memcpy (pd, init_page_dir, PGSIZE)`. -/
def pagedirCreate (initPageDir : Nat) (mem : Nat → UInt32) (palloc : Option Nat) :
    Option Nat × (Nat → UInt32) :=
  match palloc with
  | none => (none, mem)
  | some pd => (some pd, fun a => if pd ≤ a ∧ a < pd + PGSIZE then mem (initPageDir + (a - pd))
      else mem a)

/-- `lookup_page (pd, vaddr, create)`: the address of the entry for `vaddr`, or `NULL`, with
a zeroed page table from `palloc_get_page (PAL_ZERO)` put in place when one is missing and
`create` holds. -/
def lookupPage (mem : Nat → UInt32) (pd vaddr : Nat) (create : Bool) (palloc : Option Nat) :
    Except Fault (Option Nat × (Nat → UInt32)) := do
  if pd = 0 then throw .panic
  if !(!create || isUserVaddr vaddr) then throw .panic
  let pde := pd + 4 * pdNo vaddr
  if mem pde = 0 then
    if create then
      match palloc with
      | none => pure (none, mem)
      | some pt =>
        let e ← pdeCreate pt
        let mem := Function.update (zeroPage mem pt) pde e
        let pt ← pdeGetPt (mem pde)
        pure (some (pt + 4 * ptNo vaddr), mem)
    else pure (none, mem)
  else
    let pt ← pdeGetPt (mem pde)
    pure (some (pt + 4 * ptNo vaddr), mem)

/-- `pagedir_set_page (pd, upage, kpage, writable)` in a kernel of `initRamPages` pages. -/
def pagedirSetPage (initRamPages initPageDir : Nat) (mem : Nat → UInt32) (pd upage kpage : Nat)
    (writable : Bool) (palloc : Option Nat) : Except Fault (Bool × (Nat → UInt32)) := do
  if Threads.pgOfs upage ≠ 0 then throw .panic
  if Threads.pgOfs kpage ≠ 0 then throw .panic
  if !isUserVaddr upage then throw .panic
  let pa ← vtop kpage
  if ¬pa >>> PTSHIFT < initRamPages then throw .panic
  if pd = initPageDir then throw .panic
  let (pte, mem) ← lookupPage mem pd upage true palloc
  match pte with
  | some pte =>
    if mem pte &&& PTE_P ≠ 0 then throw .panic
    let e ← pteCreateUser kpage writable
    pure (true, Function.update mem pte e)
  | none => pure (false, mem)

/-- `pagedir_get_page (pd, uaddr)`: the kernel address of `uaddr`, or `NULL`. -/
def pagedirGetPage (mem : Nat → UInt32) (pd uaddr : Nat) : Except Fault Nat := do
  if !isUserVaddr uaddr then throw .panic
  let (pte, _) ← lookupPage mem pd uaddr false none
  match pte with
  | some pte =>
    if mem pte &&& PTE_P ≠ 0 then
      let page ← pteGetPage (mem pte)
      pure (page + Threads.pgOfs uaddr)
    else pure 0
  | none => pure 0

/-- `pagedir_clear_page (pd, upage)`: the entry marked not present, its other bits kept. -/
def pagedirClearPage (mem : Nat → UInt32) (pd upage : Nat) : Except Fault (Nat → UInt32) := do
  if Threads.pgOfs upage ≠ 0 then throw .panic
  if !isUserVaddr upage then throw .panic
  let (pte, _) ← lookupPage mem pd upage false none
  match pte with
  | some pte =>
    if mem pte &&& PTE_P ≠ 0 then pure (Function.update mem pte (mem pte &&& ~~~PTE_P))
    else pure mem
  | none => pure mem

/-- The inner loop of `pagedir_destroy` over the entries of the page table `pt`. -/
def freeTable (mem : Nat → UInt32) (pt : Nat) (frees : List Nat) : Except Fault (List Nat) :=
  (List.range (PGSIZE / 4)).foldlM (fun frees j => do
    let pte := mem (pt + 4 * j)
    if pte &&& PTE_P ≠ 0 then
      let page ← pteGetPage pte
      pure (frees ++ [page])
    else pure frees) frees

/-- One round of the outer loop of `pagedir_destroy`, at the entry `i` of `pd`. -/
def destroyRound (mem : Nat → UInt32) (pd : Nat) (frees : List Nat) (i : Nat) :
    Except Fault (List Nat) := do
  let pde := mem (pd + 4 * i)
  if pde &&& PTE_P ≠ 0 then
    let pt ← pdeGetPt pde
    let frees ← freeTable mem pt frees
    pure (frees ++ [pt])
  else pure frees

/-- `pagedir_destroy (pd)`: the pages handed to `palloc_free_page`, in order. -/
def pagedirDestroy (initPageDir : Nat) (mem : Nat → UInt32) (pd : Nat) :
    Except Fault (List Nat) := do
  if pd = 0 then return []
  if pd = initPageDir then throw .panic
  let frees ← (List.range (pdNo PHYS_BASE)).foldlM (destroyRound mem pd) []
  pure (frees ++ [pd])

/-! ## Addresses -/

/-- A page of the kernel's half of the 32-bit address space. -/
def KernelPage (p : Nat) : Prop := PHYS_BASE ≤ p ∧ p < 2 ^ 32 ∧ Threads.pgOfs p = 0

/-- A page of the user's half. -/
def UserPage (u : Nat) : Prop := u < PHYS_BASE ∧ Threads.pgOfs u = 0

instance (p : Nat) : Decidable (KernelPage p) := inferInstanceAs (Decidable (_ ∧ _ ∧ _))

instance (u : Nat) : Decidable (UserPage u) := inferInstanceAs (Decidable (_ ∧ _))

/-- A kernel page in numbers. -/
theorem KernelPage.arith {p : Nat} (hp : KernelPage p) :
    3221225472 ≤ p ∧ p < 4294967296 ∧ p % 4096 = 0 := hp

/-- The user page at entry `j` of the page table at entry `i` of a page directory. -/
def upageAt (i j : Nat) : Nat := i * 2 ^ PDSHIFT + j * PGSIZE

theorem pdNo_eq (va : Nat) : pdNo va = va / 4194304 := Nat.shiftRight_eq_div_pow va 22

theorem ptNo_eq (va : Nat) : ptNo va = va / 4096 % 1024 := by
  have hmask : (1023 * 2 ^ 12) / 2 ^ 12 = 2 ^ 10 - 1 := by norm_num
  rw [ptNo, PTMASK, PTSHIFT, PTBITS, Nat.shiftRight_eq_div_pow, Nat.shiftLeft_eq,
    show 2 ^ 10 - 1 = 1023 from rfl, Nat.and_div_two_pow, hmask, Nat.and_two_pow_sub_one_eq_mod]

/-- Distinct pages share no word. -/
theorem page_disjoint {p q i j : Nat} (hp : Threads.pgOfs p = 0) (hq : Threads.pgOfs q = 0)
    (hne : p ≠ q) (hi : i < 1024) (hj : j < 1024) : p + 4 * i ≠ q + 4 * j := by
  simp only [Threads.pgOfs, Threads.PGSIZE, Threads.PGBITS] at hp hq
  omega

theorem pdNo_upageAt (i : Nat) {j : Nat} (hj : j < 1024) : pdNo (upageAt i j) = i := by
  simp only [pdNo_eq, upageAt, PDSHIFT, PTSHIFT, PTBITS, PGSIZE]
  omega

theorem ptNo_upageAt (i : Nat) {j : Nat} (hj : j < 1024) : ptNo (upageAt i j) = j := by
  simp only [ptNo_eq, upageAt, PDSHIFT, PTSHIFT, PTBITS, PGSIZE]
  omega

theorem upageAt_inj {i j i' j' : Nat} (hj : j < 1024) (hj' : j' < 1024)
    (h : upageAt i j = upageAt i' j') : i = i' ∧ j = j' := by
  simp only [upageAt, PDSHIFT, PTSHIFT, PTBITS, PGSIZE] at h
  omega

/-- The page of a user address is the entry its two indices pick. -/
theorem upageAt_pdNo_ptNo (va : Nat) : upageAt (pdNo va) (ptNo va) = Threads.pgRoundDown va := by
  simp only [upageAt, pdNo_eq, ptNo_eq, Threads.pgRoundDown, Threads.pgOfs, Threads.PGSIZE,
    Threads.PGBITS, PDSHIFT, PTSHIFT, PTBITS, PGSIZE]
  omega

theorem pdNo_lt {va : Nat} (h : va < PHYS_BASE) : pdNo va < 768 := by
  simp only [pdNo_eq, PHYS_BASE] at h ⊢
  omega

theorem ptNo_lt (va : Nat) : ptNo va < 1024 := by
  rw [ptNo_eq]
  omega

theorem UserPage.eq_upageAt {u : Nat} (h : UserPage u) : upageAt (pdNo u) (ptNo u) = u := by
  rw [upageAt_pdNo_ptNo, Threads.pgRoundDown, h.2, Nat.sub_zero]

/-- The user pages are the entries of the first 768 page tables. -/
theorem UserPage.iff {u : Nat} : UserPage u ↔ ∃ i < 768, ∃ j < 1024, u = upageAt i j := by
  constructor
  · intro h
    exact ⟨pdNo u, pdNo_lt h.1, ptNo u, ptNo_lt u, h.eq_upageAt.symm⟩
  · rintro ⟨i, hi, j, hj, rfl⟩
    simp only [UserPage, upageAt, Threads.pgOfs, Threads.PGSIZE, Threads.PGBITS, PDSHIFT, PTSHIFT,
      PTBITS, PGSIZE, PHYS_BASE]
    omega

/-! ## Entries -/

/-- The entry `pde_create (t)` makes for a page table `t`. -/
def pdeOf (t : Nat) : UInt32 := (t - PHYS_BASE).toUInt32 ||| 7

/-- The entry `pte_create_user (k, writable)` makes for a page `k`. -/
def pteOf (k : Nat) (writable : Bool) : UInt32 :=
  (k - PHYS_BASE).toUInt32 ||| (if writable then 7 else 5)

/-- The address bits of a word are the word rounded down to a page. -/
theorem toNat_and_PTE_ADDR (x : UInt32) : (x &&& PTE_ADDR).toNat = x.toNat / 4096 * 4096 := by
  have hx := x.toNat_lt
  rw [UInt32.toNat_and]
  have hmod : (x.toNat &&& PTE_ADDR.toNat) % 2 ^ 12 = 0 := by
    rw [Nat.and_mod_two_pow, show PTE_ADDR.toNat % 2 ^ 12 = 0 from rfl, Nat.and_zero]
  have hdiv : (x.toNat &&& PTE_ADDR.toNat) / 2 ^ 12 = x.toNat / 4096 := by
    rw [Nat.and_div_two_pow, show PTE_ADDR.toNat / 2 ^ 12 = 2 ^ 20 - 1 from rfl,
      Nat.and_two_pow_sub_one_eq_mod]
    exact Nat.mod_eq_of_lt (by omega)
  omega

/-- A word is present when it is odd. -/
theorem present_iff (x : UInt32) : x &&& PTE_P ≠ 0 ↔ x.toNat % 2 = 1 := by
  have h : (x &&& PTE_P).toNat = x.toNat % 2 := by
    rw [UInt32.toNat_and, show PTE_P.toNat = 2 ^ 1 - 1 from rfl, Nat.and_two_pow_sub_one_eq_mod,
      Nat.pow_one]
  rw [Ne, ← UInt32.toNat_inj, h, UInt32.toNat_zero]
  omega

/-- An entry is a page's physical address with flags in its low bits. -/
theorem toNat_entry {p : Nat} (hp : KernelPage p) {c : UInt32} (hc : c.toNat < 2 ^ 12) :
    ((p - PHYS_BASE).toUInt32 ||| c).toNat = p - PHYS_BASE + c.toNat := by
  have := hp.arith
  -- the physical address is a multiple of a page, so the flags land in its zero low bits
  have hpa : (p - PHYS_BASE).toUInt32.toNat = 2 ^ 12 * ((p - PHYS_BASE) / 4096) := by
    rw [Nat.toUInt32, UInt32.toNat_ofNat', PHYS_BASE]
    omega
  rw [UInt32.toNat_or, hpa, ← Nat.two_pow_add_eq_or_of_lt hc, PHYS_BASE]
  omega

theorem toNat_pdeOf {t : Nat} (ht : KernelPage t) : (pdeOf t).toNat = t - PHYS_BASE + 7 :=
  toNat_entry ht (by decide)

theorem toNat_pteOf {k : Nat} (hk : KernelPage k) (writable : Bool) :
    (pteOf k writable).toNat = k - PHYS_BASE + (if writable then 7 else 5) := by
  rw [pteOf, toNat_entry hk (by cases writable <;> decide)]
  cases writable <;> rfl

/-- `ptov` of the address bits of an entry for the page `p` is `p`. -/
theorem ptov_entry {p : Nat} (hp : KernelPage p) {x : UInt32} {c : Nat} (hc : c < 4096)
    (hx : x.toNat = p - PHYS_BASE + c) : Threads.ptov (x &&& PTE_ADDR).toNat = .ok p := by
  obtain ⟨h1, h2, h3⟩ := hp.arith
  have hpa : x.toNat / 4096 * 4096 = p - PHYS_BASE := by
    rw [hx, PHYS_BASE]
    omega
  rw [toNat_and_PTE_ADDR, hpa, Threads.ptov, if_pos (by rw [Threads.PHYS_BASE, PHYS_BASE]; omega)]
  simp only [Threads.PHYS_BASE, PHYS_BASE, pure, Except.pure, Except.ok.injEq]
  omega

theorem present_pdeOf {t : Nat} (ht : KernelPage t) : pdeOf t &&& PTE_P ≠ 0 := by
  have := ht.arith
  rw [present_iff, toNat_pdeOf ht, PHYS_BASE]
  omega

theorem present_pteOf {k : Nat} (hk : KernelPage k) (writable : Bool) :
    pteOf k writable &&& PTE_P ≠ 0 := by
  have := hk.arith
  rw [present_iff, toNat_pteOf hk, PHYS_BASE]
  cases writable <;> simp only [if_true, if_false, Bool.false_eq_true] <;> omega

theorem pdeOf_ne_zero {t : Nat} (ht : KernelPage t) : pdeOf t ≠ 0 := fun h =>
  present_pdeOf ht (by rw [h]; rfl)

theorem pdeOf_inj {t t' : Nat} (ht : KernelPage t) (ht' : KernelPage t')
    (h : pdeOf t = pdeOf t') : t = t' := by
  have hn := congrArg UInt32.toNat h
  rw [toNat_pdeOf ht, toNat_pdeOf ht'] at hn
  have := ht.1
  have := ht'.1
  omega

@[simp] theorem not_present_zero : ¬((0 : UInt32) &&& PTE_P ≠ 0) := by decide

/-- `*pte &= ~PTE_P` leaves an entry not present. -/
theorem not_present_clear (x : UInt32) : ¬(x &&& ~~~PTE_P &&& PTE_P ≠ 0) := by
  rw [UInt32.and_assoc, show ~~~PTE_P &&& PTE_P = 0 by decide, UInt32.and_zero]
  exact not_present_zero

theorem vtop_of {p : Nat} (hp : PHYS_BASE ≤ p) : vtop p = .ok (p - PHYS_BASE) := by
  rw [vtop, if_pos hp]
  rfl

theorem pdeCreate_of {t : Nat} (ht : KernelPage t) : pdeCreate t = .ok (pdeOf t) := by
  have hor : ∀ pa : UInt32, pa ||| PTE_U ||| PTE_P ||| PTE_W = pa ||| 7 := fun pa => by
    rw [UInt32.or_assoc, UInt32.or_assoc]
    rfl
  simp only [pdeCreate, ht.2.2, ne_eq, not_true_eq_false, if_false, vtop_of ht.1]
  exact congrArg Except.ok (hor _)

theorem pdeGetPt_pdeOf {t : Nat} (ht : KernelPage t) : pdeGetPt (pdeOf t) = .ok t := by
  simp only [pdeGetPt, present_pdeOf ht, if_false]
  exact ptov_entry ht (by decide) (toNat_pdeOf ht)

theorem pdeGetPt_zero : pdeGetPt 0 = .error .panic := rfl

theorem pteCreateUser_of {k : Nat} (hk : KernelPage k) (writable : Bool) :
    pteCreateUser k writable = .ok (pteOf k writable) := by
  have hor : ∀ pa : UInt32, pa ||| PTE_P ||| (if writable then PTE_W else 0) ||| PTE_U =
      pa ||| (if writable then 7 else 5) := fun pa => by
    rw [UInt32.or_assoc, UInt32.or_assoc]
    cases writable <;> rfl
  simp only [pteCreateUser, pteCreateKernel, hk.2.2, ne_eq, not_true_eq_false, if_false,
    vtop_of hk.1]
  exact congrArg Except.ok (hor _)

theorem pteGetPage_pteOf {k : Nat} (hk : KernelPage k) (writable : Bool) :
    pteGetPage (pteOf k writable) = .ok k :=
  ptov_entry hk (by cases writable <;> decide) (toNat_pteOf hk writable)

/-! ## `lookup_page` -/

section Lookup

variable {mem : Nat → UInt32} {pd vaddr : Nat}

/-- Through a present directory entry `lookup_page` returns the entry of `vaddr` in that page
table and allocates nothing. -/
theorem lookupPage_present {t : Nat} (hpd : pd ≠ 0) (hu : isUserVaddr vaddr) (ht : KernelPage t)
    (h : mem (pd + 4 * pdNo vaddr) = pdeOf t) (create : Bool) (palloc : Option Nat) :
    lookupPage mem pd vaddr create palloc = .ok (some (t + 4 * ptNo vaddr), mem) := by
  simp only [lookupPage, hpd, hu, h, pdeOf_ne_zero ht, pdeGetPt_pdeOf ht, Bool.or_true,
    Bool.not_true, if_false, Bool.false_eq_true]
  rfl

/-- Without a page table and without `create`, `lookup_page` returns `NULL`. -/
theorem lookupPage_absent (hpd : pd ≠ 0) (h : mem (pd + 4 * pdNo vaddr) = 0)
    (palloc : Option Nat) : lookupPage mem pd vaddr false palloc = .ok (none, mem) := by
  simp only [lookupPage, hpd, h, Bool.not_false, Bool.true_or, Bool.not_true, if_false, if_true,
    Bool.false_eq_true]
  rfl

/-- Without a page table, a failed `palloc_get_page` makes `lookup_page` return `NULL`. -/
theorem lookupPage_fail (hpd : pd ≠ 0) (hu : isUserVaddr vaddr)
    (h : mem (pd + 4 * pdNo vaddr) = 0) : lookupPage mem pd vaddr true none = .ok (none, mem) := by
  simp only [lookupPage, hpd, hu, h, Bool.or_true, Bool.not_true, if_false, if_true,
    Bool.false_eq_true]
  rfl

/-- Without a page table, `lookup_page` zeroes the page `palloc_get_page` gives, points the
directory entry at it and returns the entry of `vaddr` in it. -/
theorem lookupPage_alloc {t : Nat} (hpd : pd ≠ 0) (hu : isUserVaddr vaddr)
    (h : mem (pd + 4 * pdNo vaddr) = 0) (ht : KernelPage t) :
    lookupPage mem pd vaddr true (some t) = .ok (some (t + 4 * ptNo vaddr),
      Function.update (zeroPage mem t) (pd + 4 * pdNo vaddr) (pdeOf t)) := by
  simp only [lookupPage, hpd, hu, h, pdeCreate_of ht, bind, Except.bind, Function.update_self,
    pdeGetPt_pdeOf ht, Bool.or_true, Bool.not_true, if_false, if_true, Bool.false_eq_true]
  rfl

end Lookup

/-! ## The page directory of a map -/

/-- A partial map from user pages to a kernel page and whether it is writable. -/
abbrev Pmap := Nat → Option (Nat × Bool)

/-- What `pagedir_get_page` is for: the kernel address of `uaddr` under `M`, or `0`. -/
def Pmap.lookup (M : Pmap) (uaddr : Nat) : Nat :=
  match M (Threads.pgRoundDown uaddr) with
  | some (kpage, _) => kpage + Threads.pgOfs uaddr
  | none => 0

/-- The kernel pages `M` maps, once for each user page mapped to it, by user page. -/
def Pmap.pages (M : Pmap) : List Nat :=
  (List.range (PHYS_BASE / PGSIZE)).flatMap fun n => ((M (n * PGSIZE)).map Prod.fst).toList

/-- The kernel pages `M` maps in the page table at entry `i`, by entry. -/
def Pmap.row (M : Pmap) (i : Nat) : List Nat :=
  (List.range 1024).flatMap fun j => ((M (upageAt i j)).map Prod.fst).toList

/-- The user pages are those of the 768 page tables, in order. -/
theorem Pmap.pages_eq_row (M : Pmap) : Pmap.pages M = (List.range 768).flatMap (Pmap.row M) := by
  have hF : ∀ i j, ((M ((1024 * i + j) * PGSIZE)).map Prod.fst).toList =
      ((M (upageAt i j)).map Prod.fst).toList := by
    intro i j
    rw [show (1024 * i + j) * PGSIZE = upageAt i j by
      simp only [upageAt, PGSIZE, PDSHIFT, PTSHIFT, PTBITS]
      omega]
  have h := Loop.flatMap_range_mul 1024 (fun n => ((M (n * PGSIZE)).map Prod.fst).toList) 768
  simp only [hF] at h
  exact h

/-- The words of `mem` hold the page directory `pd` of the map `M`, whose page tables are
`T`, beside the page directory `initPd` it was copied from. -/
structure Holds (initPd : Nat) (mem : Nat → UInt32) (pd : Nat) (M : Pmap) (T : List Nat) :
    Prop where
  init_page : KernelPage initPd
  pd_page : KernelPage pd
  table_page : ∀ t ∈ T, KernelPage t
  nodup : (initPd :: pd :: T).Nodup
  /-- The kernel's entries are those of `init_page_dir`. -/
  kernel : ∀ i, 768 ≤ i → i < 1024 → mem (pd + 4 * i) = mem (initPd + 4 * i)
  /-- A user entry is empty or points to a page table. -/
  dir : ∀ i < 768, mem (pd + 4 * i) = 0 ∨ ∃ t ∈ T, mem (pd + 4 * i) = pdeOf t
  dir_inj : ∀ i < 768, ∀ i' < 768, ∀ t ∈ T, mem (pd + 4 * i) = pdeOf t →
    mem (pd + 4 * i') = pdeOf t → i = i'
  dir_onto : ∀ t ∈ T, ∃ i < 768, mem (pd + 4 * i) = pdeOf t
  user : ∀ u, M u ≠ none → UserPage u
  /-- Nothing is mapped where there is no page table. -/
  empty : ∀ i < 768, mem (pd + 4 * i) = 0 → ∀ j < 1024, M (upageAt i j) = none
  /-- An entry of a page table is present exactly where `M` maps its page, to the page and
  the writable bit of the entry. -/
  present : ∀ i < 768, ∀ t ∈ T, mem (pd + 4 * i) = pdeOf t → ∀ j < 1024,
    (mem (t + 4 * j) &&& PTE_P ≠ 0 ↔ M (upageAt i j) ≠ none)
  entry : ∀ i < 768, ∀ t ∈ T, mem (pd + 4 * i) = pdeOf t → ∀ j < 1024, ∀ k w,
    M (upageAt i j) = some (k, w) → mem (t + 4 * j) = pteOf k w
  mapped : ∀ u k w, M u = some (k, w) → KernelPage k

/-- The `ASSERT`s of `pagedir_set_page` on its arguments, and `upage` unmapped as it
requires. -/
structure SetPageOk (initRamPages : Nat) (M : Pmap) (upage kpage : Nat) : Prop where
  user : UserPage upage
  unmapped : M upage = none
  kernel : KernelPage kpage
  ram : (kpage - PHYS_BASE) >>> PTSHIFT < initRamPages

/-- The page `palloc_get_page` gives, if any, is a kernel page in no use yet. -/
def Fresh (initPd pd : Nat) (T : List Nat) (palloc : Option Nat) : Prop :=
  ∀ t ∈ palloc, KernelPage t ∧ t ∉ initPd :: pd :: T

theorem fresh_none {initPd pd : Nat} {T : List Nat} : Fresh initPd pd T none := fun _ ht => by
  cases ht

theorem zeroPage_of_ne {mem : Nat → UInt32} {p t i : Nat} (hp : Threads.pgOfs p = 0)
    (ht : Threads.pgOfs t = 0) (hne : p ≠ t) (hi : i < 1024) :
    zeroPage mem t (p + 4 * i) = mem (p + 4 * i) := by
  simp only [Threads.pgOfs, Threads.PGSIZE, Threads.PGBITS] at hp ht
  rw [zeroPage, if_neg]
  rw [PGSIZE]
  omega

theorem zeroPage_self (mem : Nat → UInt32) (t : Nat) {j : Nat} (hj : j < 1024) :
    zeroPage mem t (t + 4 * j) = 0 := by
  rw [zeroPage, if_pos]
  rw [PGSIZE]
  omega

namespace Holds

variable {initPd pd : Nat} {mem : Nat → UInt32} {M : Pmap} {T : List Nat}

theorem pd_ne_zero (h : Holds initPd mem pd M T) : pd ≠ 0 := by
  have := h.pd_page.arith
  omega

theorem pd_ne_init (h : Holds initPd mem pd M T) : pd ≠ initPd := fun he =>
  (List.nodup_cons.1 h.nodup).1 (he ▸ List.mem_cons_self)

theorem table_ne_pd (h : Holds initPd mem pd M T) {t : Nat} (ht : t ∈ T) : t ≠ pd := fun he =>
  (List.nodup_cons.1 (List.nodup_cons.1 h.nodup).2).1 (he ▸ ht)

theorem table_ne_init (h : Holds initPd mem pd M T) {t : Nat} (ht : t ∈ T) : t ≠ initPd :=
  fun he => (List.nodup_cons.1 h.nodup).1 (he ▸ List.mem_cons_of_mem _ ht)

/-- A directory entry points to one page table. -/
theorem table_unique (h : Holds initPd mem pd M T) {i t t' : Nat} (ht : t ∈ T) (ht' : t' ∈ T)
    (e : mem (pd + 4 * i) = pdeOf t) (e' : mem (pd + 4 * i) = pdeOf t') : t = t' :=
  pdeOf_inj (h.table_page t ht) (h.table_page t' ht') (e.symm.trans e')

/-- No user entry points to a page that is not a page table. -/
theorem ne_fresh (h : Holds initPd mem pd M T) {i t : Nat} (hi : i < 768) (ht : KernelPage t)
    (hn : t ∉ T) : mem (pd + 4 * i) ≠ pdeOf t := by
  rcases h.dir i hi with e | ⟨t', ht', e⟩ <;> rw [e]
  · exact (pdeOf_ne_zero ht).symm
  · exact fun he => hn (pdeOf_inj (h.table_page t' ht') ht he ▸ ht')

/-- Writing the entry `j` of the page table at entry `i` changes the map at `upageAt i j`
only, and keeps the invariant when the entry agrees with the new value. -/
theorem setEntry (h : Holds initPd mem pd M T) {i j t : Nat} (hi : i < 768) (hj : j < 1024)
    (ht : t ∈ T) (hpde : mem (pd + 4 * i) = pdeOf t) (e : UInt32) (v : Option (Nat × Bool))
    (hp : e &&& PTE_P ≠ 0 ↔ v ≠ none) (he : ∀ k w, v = some (k, w) → e = pteOf k w)
    (hk : ∀ k w, v = some (k, w) → KernelPage k) :
    Holds initPd (Function.update mem (t + 4 * j) e) pd (Function.update M (upageAt i j) v) T := by
  have htk := h.table_page t ht
  -- the write is inside the page table, away from both directories
  have hdir : ∀ i' < 1024, Function.update mem (t + 4 * j) e (pd + 4 * i') = mem (pd + 4 * i') :=
    fun i' hi' => Function.update_of_ne
      (page_disjoint h.pd_page.2.2 htk.2.2 (h.table_ne_pd ht).symm hi' hj) _ _
  have hinit : ∀ i' < 1024,
      Function.update mem (t + 4 * j) e (initPd + 4 * i') = mem (initPd + 4 * i') :=
    fun i' hi' => Function.update_of_ne
      (page_disjoint h.init_page.2.2 htk.2.2 (h.table_ne_init ht).symm hi' hj) _ _
  -- the written word is the entry of `upageAt i j` and of no other page
  have hslot : ∀ i' < 768, ∀ t' ∈ T, mem (pd + 4 * i') = pdeOf t' → ∀ j' < 1024,
      (t' + 4 * j' = t + 4 * j ↔ upageAt i' j' = upageAt i j) := by
    intro i' hi' t' ht' e' j' hj'
    constructor
    · intro hw
      have htt : t' = t := by
        by_contra hne
        exact page_disjoint (h.table_page t' ht').2.2 htk.2.2 hne hj' hj hw
      subst htt
      have hjj : j' = j := by omega
      rw [h.dir_inj i' hi' i hi t' ht' e' hpde, hjj]
    · intro hu
      obtain ⟨rfl, rfl⟩ := upageAt_inj hj' hj hu
      rw [h.table_unique ht' ht e' hpde]
  have hupd : ∀ i' j', i' < 768 → j' < 1024 → upageAt i' j' = upageAt i j → i' = i := by
    intro i' j' _ hj' hu
    exact (upageAt_inj hj' hj hu).1
  refine { init_page := h.init_page
           pd_page := h.pd_page
           table_page := h.table_page
           nodup := h.nodup
           kernel := ?kernel
           dir := ?dir
           dir_inj := ?dir_inj
           dir_onto := ?dir_onto
           user := ?user
           empty := ?empty
           present := ?present
           entry := ?entry
           mapped := ?mapped }
  case kernel =>
    intro i' hi₁ hi₂
    rw [hdir i' hi₂, hinit i' hi₂]
    exact h.kernel i' hi₁ hi₂
  case dir =>
    intro i' hi'
    rw [hdir i' (by omega)]
    exact h.dir i' hi'
  case dir_inj =>
    intro i₁ hi₁ i₂ hi₂ t' ht' e₁ e₂
    rw [hdir i₁ (by omega)] at e₁
    rw [hdir i₂ (by omega)] at e₂
    exact h.dir_inj i₁ hi₁ i₂ hi₂ t' ht' e₁ e₂
  case dir_onto =>
    intro t' ht'
    obtain ⟨i', hi', e'⟩ := h.dir_onto t' ht'
    exact ⟨i', hi', by rw [hdir i' (by omega)]; exact e'⟩
  case user =>
    intro u hu
    by_cases hs : u = upageAt i j
    · exact UserPage.iff.2 ⟨i, hi, j, hj, hs⟩
    · rw [Function.update_of_ne hs] at hu
      exact h.user u hu
  case empty =>
    intro i' hi' e' j' hj'
    rw [hdir i' (by omega)] at e'
    have hne : upageAt i' j' ≠ upageAt i j := fun hu => by
      rw [hupd i' j' hi' hj' hu, hpde] at e'
      exact pdeOf_ne_zero htk e'
    rw [Function.update_of_ne hne]
    exact h.empty i' hi' e' j' hj'
  case present =>
    intro i' hi' t' ht' e' j' hj'
    rw [hdir i' (by omega)] at e'
    by_cases hs : upageAt i' j' = upageAt i j
    · rw [(hslot i' hi' t' ht' e' j' hj').2 hs, hs, Function.update_self, Function.update_self]
      exact hp
    · have hw : t' + 4 * j' ≠ t + 4 * j := fun hw => hs ((hslot i' hi' t' ht' e' j' hj').1 hw)
      rw [Function.update_of_ne hw, Function.update_of_ne hs]
      exact h.present i' hi' t' ht' e' j' hj'
  case entry =>
    intro i' hi' t' ht' e' j' hj' k w hm
    rw [hdir i' (by omega)] at e'
    by_cases hs : upageAt i' j' = upageAt i j
    · rw [hs, Function.update_self] at hm
      rw [(hslot i' hi' t' ht' e' j' hj').2 hs, Function.update_self]
      exact he k w hm
    · have hw : t' + 4 * j' ≠ t + 4 * j := fun hw => hs ((hslot i' hi' t' ht' e' j' hj').1 hw)
      rw [Function.update_of_ne hs] at hm
      rw [Function.update_of_ne hw]
      exact h.entry i' hi' t' ht' e' j' hj' k w hm
  case mapped =>
    intro u k w hm
    by_cases hs : u = upageAt i j
    · rw [hs, Function.update_self] at hm
      exact hk k w hm
    · rw [Function.update_of_ne hs] at hm
      exact h.mapped u k w hm

/-- A zeroed page table put in an empty user entry adds a page table and maps nothing. -/
theorem addTable (h : Holds initPd mem pd M T) {i t : Nat} (hi : i < 768)
    (hz : mem (pd + 4 * i) = 0) (ht : KernelPage t) (hfresh : t ∉ initPd :: pd :: T) :
    Holds initPd (Function.update (zeroPage mem t) (pd + 4 * i) (pdeOf t)) pd M (T ++ [t]) := by
  have htp : t ≠ pd := fun he => hfresh (he ▸ List.mem_cons_of_mem _ List.mem_cons_self)
  have hti : t ≠ initPd := fun he => hfresh (he ▸ List.mem_cons_self)
  have htT : t ∉ T := fun hm => hfresh (List.mem_cons_of_mem _ (List.mem_cons_of_mem _ hm))
  have htab : ∀ t' ∈ T ++ [t], KernelPage t' := fun t' ht' => by
    rcases List.mem_append.1 ht' with ht' | ht'
    · exact h.table_page t' ht'
    · exact List.mem_singleton.1 ht' ▸ ht
  set mem' := Function.update (zeroPage mem t) (pd + 4 * i) (pdeOf t) with hmem'
  have hself : mem' (pd + 4 * i) = pdeOf t := Function.update_self _ _ _
  have hdir : ∀ i' < 1024, i' ≠ i → mem' (pd + 4 * i') = mem (pd + 4 * i') := fun i' hi' hne => by
    rw [hmem', Function.update_of_ne (by omega), zeroPage_of_ne h.pd_page.2.2 ht.2.2 htp.symm hi']
  -- the pages other than the directory and the new table keep their words
  have hpage : ∀ p, p ≠ pd → p ≠ t → Threads.pgOfs p = 0 → ∀ j < 1024,
      mem' (p + 4 * j) = mem (p + 4 * j) := fun p hp hpt hpo j hj => by
    rw [hmem', Function.update_of_ne (page_disjoint hpo h.pd_page.2.2 hp hj (by omega)),
      zeroPage_of_ne hpo ht.2.2 hpt hj]
  have hnew : ∀ j < 1024, mem' (t + 4 * j) = 0 := fun j hj => by
    rw [hmem', Function.update_of_ne (page_disjoint ht.2.2 h.pd_page.2.2 htp hj (by omega)),
      zeroPage_self _ _ hj]
  -- an entry other than `i` points where it did, to an old page table
  have hold : ∀ i' < 768, i' ≠ i → ∀ t' ∈ T ++ [t], mem' (pd + 4 * i') = pdeOf t' →
      t' ∈ T ∧ mem (pd + 4 * i') = pdeOf t' := by
    intro i' hi' hne t' ht' e'
    rw [hdir i' (by omega) hne] at e'
    rcases List.mem_append.1 ht' with ht' | ht'
    · exact ⟨ht', e'⟩
    · rw [List.mem_singleton.1 ht'] at e'
      exact absurd e' (h.ne_fresh hi' ht htT)
  -- and the entry `i` points to the new table
  have hat : ∀ t' ∈ T ++ [t], mem' (pd + 4 * i) = pdeOf t' → t' = t := fun t' ht' e' =>
    pdeOf_inj (htab t' ht') ht (e'.symm.trans hself)
  have hne_i : ∀ i', mem (pd + 4 * i') = 0 → mem' (pd + 4 * i') = 0 → i' ≠ i := fun i' _ e' he => by
    rw [he, hself] at e'
    exact pdeOf_ne_zero ht e'
  refine { init_page := h.init_page
           pd_page := h.pd_page
           table_page := htab
           nodup := ?nodup
           kernel := ?kernel
           dir := ?dir
           dir_inj := ?dir_inj
           dir_onto := ?dir_onto
           user := h.user
           empty := ?empty
           present := ?present
           entry := ?entry
           mapped := h.mapped }
  case nodup =>
    have hn : ((initPd :: pd :: T) ++ [t]).Nodup := by
      rw [List.nodup_append_comm]
      exact List.nodup_cons.2 ⟨hfresh, h.nodup⟩
    exact hn
  case kernel =>
    intro i' hi₁ hi₂
    rw [hdir i' hi₂ (by omega), hpage initPd h.pd_ne_init.symm hti.symm h.init_page.2.2 i' hi₂]
    exact h.kernel i' hi₁ hi₂
  case dir =>
    intro i' hi'
    by_cases hs : i' = i
    · exact .inr ⟨t, List.mem_append_right _ List.mem_cons_self, hs ▸ hself⟩
    · rw [hdir i' (by omega) hs]
      rcases h.dir i' hi' with e | ⟨t', ht', e⟩
      · exact .inl e
      · exact .inr ⟨t', List.mem_append_left _ ht', e⟩
  case dir_inj =>
    intro i₁ hi₁ i₂ hi₂ t' ht' e₁ e₂
    by_cases h₁ : i₁ = i <;> by_cases h₂ : i₂ = i
    · rw [h₁, h₂]
    · subst h₁
      have := hat t' ht' e₁
      subst this
      exact absurd (hold i₂ hi₂ h₂ t' ht' e₂).1 htT
    · subst h₂
      have := hat t' ht' e₂
      subst this
      exact absurd (hold i₁ hi₁ h₁ t' ht' e₁).1 htT
    · obtain ⟨ht₁, e₁⟩ := hold i₁ hi₁ h₁ t' ht' e₁
      exact h.dir_inj i₁ hi₁ i₂ hi₂ t' ht₁ e₁ (hold i₂ hi₂ h₂ t' ht' e₂).2
  case dir_onto =>
    intro t' ht'
    rcases List.mem_append.1 ht' with ht' | ht'
    · obtain ⟨i', hi', e'⟩ := h.dir_onto t' ht'
      have hs : i' ≠ i := fun hs => pdeOf_ne_zero (h.table_page t' ht') (e'.symm.trans (hs ▸ hz))
      exact ⟨i', hi', by rw [hdir i' (by omega) hs]; exact e'⟩
    · exact ⟨i, hi, List.mem_singleton.1 ht' ▸ hself⟩
  case empty =>
    intro i' hi' e' j' hj'
    by_cases hs : i' = i
    · rw [hs, hself] at e'
      exact absurd e' (pdeOf_ne_zero ht)
    · rw [hdir i' (by omega) hs] at e'
      exact h.empty i' hi' e' j' hj'
  case present =>
    intro i' hi' t' ht' e' j' hj'
    by_cases hs : i' = i
    · subst hs
      rw [hat t' ht' e', hnew j' hj', h.empty i' hi hz j' hj']
      simp
    · obtain ⟨ht'', e''⟩ := hold i' hi' hs t' ht' e'
      rw [hpage t' (h.table_ne_pd ht'') (fun he => htT (he ▸ ht'')) (h.table_page t' ht'').2.2 j' hj']
      exact h.present i' hi' t' ht'' e'' j' hj'
  case entry =>
    intro i' hi' t' ht' e' j' hj' k w hm
    by_cases hs : i' = i
    · subst hs
      rw [h.empty i' hi hz j' hj'] at hm
      exact absurd hm nofun
    · obtain ⟨ht'', e''⟩ := hold i' hi' hs t' ht' e'
      rw [hpage t' (h.table_ne_pd ht'') (fun he => htT (he ▸ ht'')) (h.table_page t' ht'').2.2 j' hj']
      exact h.entry i' hi' t' ht'' e'' j' hj' k w hm

/-! ### The calls on a page directory -/

theorem isUserVaddr_of {va : Nat} (h : va < PHYS_BASE) : isUserVaddr va = true :=
  decide_eq_true h

/-- An entry where `M` maps nothing is not present. -/
theorem not_present_of_none (h : Holds initPd mem pd M T) {i j t : Nat} (hi : i < 768)
    (hj : j < 1024) (ht : t ∈ T) (e : mem (pd + 4 * i) = pdeOf t) (hm : M (upageAt i j) = none) :
    ¬(mem (t + 4 * j) &&& PTE_P ≠ 0) := by
  rw [h.present i hi t ht e j hj, hm]
  exact fun hn => hn rfl

/-- `pagedir_get_page` reads the map. -/
theorem getPage (h : Holds initPd mem pd M T) {uaddr : Nat} (hu : uaddr < PHYS_BASE) :
    pagedirGetPage mem pd uaddr = .ok (Pmap.lookup M uaddr) := by
  have hi := pdNo_lt hu
  have hj := ptNo_lt uaddr
  rw [Pmap.lookup, ← upageAt_pdNo_ptNo]
  rcases h.dir _ hi with hz | ⟨t, ht, e⟩
  · rw [h.empty _ hi hz _ hj]
    simp only [pagedirGetPage, isUserVaddr_of hu, lookupPage_absent h.pd_ne_zero hz, Bool.not_true,
      if_false, Bool.false_eq_true]
    rfl
  · have hlook := lookupPage_present h.pd_ne_zero (isUserVaddr_of hu) (h.table_page t ht) e false
      none
    cases hm : M (upageAt (pdNo uaddr) (ptNo uaddr)) with
    | none =>
      simp only [pagedirGetPage, isUserVaddr_of hu, hlook, h.not_present_of_none hi hj ht e hm,
        Bool.not_true, if_false, Bool.false_eq_true, bind, Except.bind]
      rfl
    | some p =>
      obtain ⟨k, w⟩ := p
      have hk := h.mapped _ k w hm
      simp only [pagedirGetPage, isUserVaddr_of hu, hlook, h.entry _ hi t ht e _ hj k w hm,
        present_pteOf hk, pteGetPage_pteOf hk, Bool.not_true, if_false, Bool.false_eq_true, ne_eq,
        not_false_eq_true, if_true, bind, Except.bind]
      rfl

/-- `pagedir_set_page` returns, maps `upage` when it returns true, with a new page table when
the directory had none for it, and returns false, changing nothing, only when it needed a page
table and `palloc_get_page` failed. -/
theorem setPage {initRamPages upage kpage : Nat} {palloc : Option Nat}
    (h : Holds initPd mem pd M T) (hv : SetPageOk initRamPages M upage kpage)
    (hf : Fresh initPd pd T palloc) (writable : Bool) :
    ∃ ok mem', pagedirSetPage initRamPages initPd mem pd upage kpage writable palloc =
        .ok (ok, mem') ∧
      Holds initPd mem' pd (if ok then Function.update M upage (some (kpage, writable)) else M)
        (if mem (pd + 4 * pdNo upage) = 0 then T ++ palloc.toList else T) ∧
      (ok = false → mem' = mem ∧ mem (pd + 4 * pdNo upage) = 0 ∧ palloc = none) := by
  obtain ⟨hu, hun, hk, hram⟩ := hv
  obtain ⟨i, hi, j, hj, rfl⟩ := UserPage.iff.1 hu
  have hpn : pdNo (upageAt i j) = i := pdNo_upageAt i hj
  have htn : ptNo (upageAt i j) = j := ptNo_upageAt i hj
  have huv := isUserVaddr_of hu.1
  -- the new entry agrees with the new value of the map
  have hp : pteOf kpage writable &&& PTE_P ≠ 0 ↔ some (kpage, writable) ≠ none :=
    iff_of_true (present_pteOf hk writable) nofun
  have he : ∀ k w, some (kpage, writable) = some (k, w) → pteOf kpage writable = pteOf k w := by
    intro k w hkw
    cases hkw
    rfl
  have hkk : ∀ k w, some (kpage, writable) = some (k, w) → KernelPage k := by
    intro k w hkw
    cases hkw
    exact hk
  rw [hpn]
  rcases h.dir i hi with hz | ⟨t, ht, e⟩
  · cases palloc with
    | none =>
      -- no page table, and `palloc_get_page` fails
      refine ⟨false, mem, ?_, ?_, fun _ => ⟨rfl, hz, rfl⟩⟩
      · simp only [pagedirSetPage, hu.2, hk.2.2, huv, vtop_of hk.1, hram, h.pd_ne_init,
          lookupPage_fail h.pd_ne_zero huv (hpn ▸ hz), ne_eq, not_true_eq_false, Bool.not_true,
          if_false, Bool.false_eq_true, bind, Except.bind]
        rfl
      · rw [if_pos hz, Option.toList_none, List.append_nil]
        exact h
    | some t =>
      -- no page table: a zeroed one from `palloc_get_page` is put in place
      obtain ⟨htk, hfr⟩ := hf t rfl
      have h₁ := h.addTable hi hz htk hfr
      have hpte : Function.update (zeroPage mem t) (pd + 4 * i) (pdeOf t) (t + 4 * j) = 0 := by
        rw [Function.update_of_ne (page_disjoint htk.2.2 h.pd_page.2.2
          (fun he => hfr (he ▸ List.mem_cons_of_mem _ List.mem_cons_self)) hj (by omega)),
          zeroPage_self _ _ hj]
      refine ⟨true, Function.update (Function.update (zeroPage mem t) (pd + 4 * i) (pdeOf t))
        (t + 4 * j) (pteOf kpage writable), ?_, ?_, nofun⟩
      · simp only [pagedirSetPage, hu.2, hk.2.2, huv, vtop_of hk.1, hram, h.pd_ne_init,
          lookupPage_alloc h.pd_ne_zero huv (hpn ▸ hz) htk, hpn, htn, hpte, not_present_zero,
          pteCreateUser_of hk, ne_eq, not_true_eq_false, Bool.not_true, if_false,
          Bool.false_eq_true, bind, Except.bind]
        rfl
      · rw [if_pos hz, if_pos rfl, Option.toList_some]
        exact h₁.setEntry hi hj (List.mem_append_right _ List.mem_cons_self)
          (Function.update_self _ _ _) _ _ hp he hkk
  · -- a page table is there
    have htk := h.table_page t ht
    refine ⟨true, Function.update mem (t + 4 * j) (pteOf kpage writable), ?_, ?_, nofun⟩
    · simp only [pagedirSetPage, hu.2, hk.2.2, huv, vtop_of hk.1, hram, h.pd_ne_init,
        lookupPage_present h.pd_ne_zero huv htk (hpn ▸ e), htn,
        h.not_present_of_none hi hj ht e hun, pteCreateUser_of hk, ne_eq, not_true_eq_false,
        Bool.not_true, if_false, Bool.false_eq_true, bind, Except.bind]
      rfl
    · rw [if_pos rfl, if_neg (show ¬mem (pd + 4 * i) = 0 by rw [e]; exact pdeOf_ne_zero htk)]
      exact h.setEntry hi hj ht e _ _ hp he hkk

/-- `pagedir_clear_page` unmaps `upage`, mapped or not. -/
theorem clearPage (h : Holds initPd mem pd M T) {upage : Nat} (hu : UserPage upage) :
    ∃ mem', pagedirClearPage mem pd upage = .ok mem' ∧
      Holds initPd mem' pd (Function.update M upage none) T := by
  obtain ⟨i, hi, j, hj, rfl⟩ := UserPage.iff.1 hu
  have hpn : pdNo (upageAt i j) = i := pdNo_upageAt i hj
  have htn : ptNo (upageAt i j) = j := ptNo_upageAt i hj
  have huv := isUserVaddr_of hu.1
  rcases h.dir i hi with hz | ⟨t, ht, e⟩
  · refine ⟨mem, ?_, ?_⟩
    · simp only [pagedirClearPage, hu.2, huv, lookupPage_absent h.pd_ne_zero (hpn ▸ hz), ne_eq,
        not_true_eq_false, Bool.not_true, if_false, Bool.false_eq_true]
      rfl
    · rw [Function.update_eq_self_iff.2 (h.empty i hi hz j hj).symm]
      exact h
  · have hlook := lookupPage_present h.pd_ne_zero huv (h.table_page t ht) (hpn ▸ e) false none
    by_cases hpr : mem (t + 4 * j) &&& PTE_P ≠ 0
    · -- a present entry loses its present bit
      refine ⟨Function.update mem (t + 4 * j) (mem (t + 4 * j) &&& ~~~PTE_P), ?_,
        h.setEntry hi hj ht e (mem (t + 4 * j) &&& ~~~PTE_P) none
        (iff_of_false (not_present_clear _) fun hn => hn rfl) nofun nofun⟩
      simp only [pagedirClearPage, hu.2, huv, hlook, htn, hpr, ne_eq, not_true_eq_false,
        not_false_eq_true, Bool.not_true, if_false, if_true, Bool.false_eq_true, bind, Except.bind]
      rfl
    · have hm : M (upageAt i j) = none := by
        by_contra hn
        exact hpr ((h.present i hi t ht e j hj).2 hn)
      refine ⟨mem, ?_, ?_⟩
      · simp only [pagedirClearPage, hu.2, huv, hlook, htn, hpr, ne_eq, not_true_eq_false,
          Bool.not_true, if_false, Bool.false_eq_true, bind, Except.bind]
        rfl
      · rw [Function.update_eq_self_iff.2 hm.symm]
        exact h

/-! ### `pagedir_destroy` -/

/-- The page table a user entry points to, as `pde_get_pt` finds it. -/
theorem mem_tableAt (h : Holds initPd mem pd M T) {i t : Nat} (hi : i < 768) :
    t ∈ (pdeGetPt (mem (pd + 4 * i))).toOption.toList ↔ t ∈ T ∧ mem (pd + 4 * i) = pdeOf t := by
  rw [Option.mem_toList]
  rcases h.dir i hi with hz | ⟨t', ht', e⟩
  · rw [hz, pdeGetPt_zero]
    exact iff_of_false nofun fun ⟨ht, he⟩ => pdeOf_ne_zero (h.table_page t ht) he.symm
  · rw [e, pdeGetPt_pdeOf (h.table_page t' ht')]
    show some t' = some t ↔ _
    rw [Option.some.injEq]
    constructor
    · rintro rfl
      exact ⟨ht', rfl⟩
    · rintro ⟨ht, he⟩
      exact pdeOf_inj (h.table_page t' ht') (h.table_page t ht) he

/-- The inner loop frees the pages the page table at entry `i` maps, by entry. -/
theorem freeTable_eq (h : Holds initPd mem pd M T) {i t : Nat} (hi : i < 768) (ht : t ∈ T)
    (e : mem (pd + 4 * i) = pdeOf t) (acc : List Nat) :
    freeTable mem t acc = .ok (acc ++ Pmap.row M i) := by
  rw [freeTable, Pmap.row, show PGSIZE / 4 = 1024 from rfl]
  refine Loop.foldlM_append (fun j hj acc => ?_) acc
  have hj' : j < 1024 := List.mem_range.1 hj
  cases hm : M (upageAt i j) with
  | none =>
    simp only [h.not_present_of_none hi hj' ht e hm, if_false, Option.map_none,
      Option.toList_none, List.append_nil]
    rfl
  | some p =>
    obtain ⟨k, w⟩ := p
    have hk := h.mapped _ k w hm
    simp only [h.entry i hi t ht e j hj' k w hm, present_pteOf hk, pteGetPage_pteOf hk, ne_eq,
      not_false_eq_true, if_true, Option.map_some, Option.toList_some, bind, Except.bind]
    rfl

/-- A round of the outer loop frees the pages of the page table at entry `i`, then the page
table, and nothing for an empty entry. -/
theorem destroyRound_eq (h : Holds initPd mem pd M T) {i : Nat} (hi : i < 768)
    (acc : List Nat) : destroyRound mem pd acc i =
      .ok (acc ++ (Pmap.row M i ++ (pdeGetPt (mem (pd + 4 * i))).toOption.toList)) := by
  rcases h.dir i hi with hz | ⟨t, ht, e⟩
  · have hrow : Pmap.row M i = [] := by
      rw [Pmap.row, List.flatMap_eq_nil_iff]
      intro j hj
      rw [h.empty i hi hz j (List.mem_range.1 hj)]
      rfl
    simp only [destroyRound, hz, not_present_zero, if_false, hrow, pdeGetPt_zero, Except.toOption,
      Option.toList_none, List.append_nil]
    rfl
  · have htk := h.table_page t ht
    simp only [destroyRound, e, present_pdeOf htk, pdeGetPt_pdeOf htk, h.freeTable_eq hi ht e,
      ne_eq, not_false_eq_true, if_true, bind, Except.bind, List.append_assoc]
    rfl

/-- The page tables the user entries point to are the page tables, each once. -/
theorem tables_perm (h : Holds initPd mem pd M T) :
    ((List.range 768).flatMap fun i => (pdeGetPt (mem (pd + 4 * i))).toOption.toList).Perm T := by
  have hT : T.Nodup := (List.nodup_cons.1 (List.nodup_cons.1 h.nodup).2).2
  have hnd : ((List.range 768).flatMap fun i =>
      (pdeGetPt (mem (pd + 4 * i))).toOption.toList).Nodup := by
    refine List.nodup_flatMap.2 ⟨fun i _ => Option.toList_nodup _, ?_⟩
    refine List.nodup_range.imp_of_mem fun {a b} ha hb hab t hta htb => hab ?_
    have ha' := List.mem_range.1 ha
    have hb' := List.mem_range.1 hb
    obtain ⟨ht, e₁⟩ := (h.mem_tableAt ha').1 hta
    exact h.dir_inj a ha' b hb' t ht e₁ ((h.mem_tableAt hb').1 htb).2
  rw [List.perm_ext_iff_of_nodup hnd hT]
  intro t
  rw [List.mem_flatMap]
  constructor
  · rintro ⟨i, hi, ht⟩
    exact ((h.mem_tableAt (List.mem_range.1 hi)).1 ht).1
  · intro ht
    obtain ⟨i, hi, e⟩ := h.dir_onto t ht
    exact ⟨i, List.mem_range.2 hi, (h.mem_tableAt hi).2 ⟨ht, e⟩⟩

theorem pdNo_PHYS_BASE : pdNo PHYS_BASE = 768 := rfl

/-- `pagedir_destroy` frees the pages the map maps, the page tables and the page directory:
each page as many times as it occurs among them. -/
theorem destroy (h : Holds initPd mem pd M T) :
    ∃ frees, pagedirDestroy initPd mem pd = .ok frees ∧
      frees.Perm (Pmap.pages M ++ T ++ [pd]) := by
  have hloop := Loop.foldlM_append (l := List.range 768) (f := destroyRound mem pd)
    (fun i hi acc => h.destroyRound_eq (List.mem_range.1 hi) acc) []
  refine ⟨[] ++ (List.range 768).flatMap (fun i =>
    Pmap.row M i ++ (pdeGetPt (mem (pd + 4 * i))).toOption.toList) ++ [pd], ?_, ?_⟩
  · simp only [pagedirDestroy, pdNo_PHYS_BASE, h.pd_ne_zero, h.pd_ne_init, hloop, if_false,
      bind, Except.bind]
    rfl
  · rw [List.nil_append, Pmap.pages_eq_row]
    exact ((List.flatMap_append_perm _ _ _).symm.trans
      (List.Perm.append_left _ h.tables_perm)).append_right [pd]

end Holds

/-- `pagedir_create` copies `init_page_dir`, whose user entries are empty: the page directory
of the empty map. -/
theorem holds_create {initPd pd : Nat} {mem : Nat → UInt32} (hinit : KernelPage initPd)
    (hpd : KernelPage pd) (hne : pd ≠ initPd) (hz : ∀ i < 768, mem (initPd + 4 * i) = 0) :
    Holds initPd (pagedirCreate initPd mem (some pd)).2 pd (fun _ => none) [] := by
  have hi := hinit.arith
  have hp := hpd.arith
  have hcopy : ∀ i < 1024, (pagedirCreate initPd mem (some pd)).2 (pd + 4 * i) =
      mem (initPd + 4 * i) := fun i hi' => by
    simp only [pagedirCreate]
    rw [if_pos, Nat.add_sub_cancel_left]
    rw [PGSIZE]
    omega
  have hkeep : ∀ i < 1024, (pagedirCreate initPd mem (some pd)).2 (initPd + 4 * i) =
      mem (initPd + 4 * i) := fun i hi' => by
    have hd := page_disjoint hinit.2.2 hpd.2.2 hne.symm hi' (Nat.zero_lt_succ 1023)
    simp only [pagedirCreate]
    rw [if_neg]
    rw [PGSIZE]
    omega
  -- there are no page tables yet, and nothing is mapped
  refine { init_page := hinit
           pd_page := hpd
           table_page := fun _ ht => absurd ht List.not_mem_nil
           nodup := by simp [Ne.symm hne]
           kernel := ?kernel
           dir := ?dir
           dir_inj := fun _ _ _ _ _ ht => absurd ht List.not_mem_nil
           dir_onto := fun _ ht => absurd ht List.not_mem_nil
           user := fun _ hu => absurd rfl hu
           empty := fun _ _ _ _ _ => rfl
           present := fun _ _ _ ht => absurd ht List.not_mem_nil
           entry := fun _ _ _ ht => absurd ht List.not_mem_nil
           mapped := fun _ _ _ hm => absurd hm (Option.some_ne_none _).symm }
  case kernel =>
    intro i hi₁ hi₂
    rw [hcopy i hi₂, hkeep i hi₂]
  case dir =>
    intro i hi'
    rw [hcopy i (by omega)]
    exact .inl (hz i hi')

/-! ## Runs -/

/-- The page directories `pagedir_create` copies from `init_page_dir` at `initPd`, whose user
entries are empty, and the calls of `pagedir_set_page` on unmapped pages and of
`pagedir_clear_page` on them, with the map they implement and the page tables `lookup_page`
took from `palloc_get_page`. -/
inductive Reach (initRamPages initPd : Nat) : (Nat → UInt32) → Nat → Pmap → List Nat → Prop
  | create {mem : Nat → UInt32} {pd : Nat} : KernelPage initPd →
      (∀ i < 768, mem (initPd + 4 * i) = 0) → KernelPage pd → pd ≠ initPd →
      Reach initRamPages initPd (pagedirCreate initPd mem (some pd)).2 pd (fun _ => none) []
  | setPage {mem mem' : Nat → UInt32} {pd upage kpage : Nat} {M : Pmap} {T : List Nat}
      {writable ok : Bool} {palloc : Option Nat} :
      Reach initRamPages initPd mem pd M T → SetPageOk initRamPages M upage kpage →
      Fresh initPd pd T palloc →
      pagedirSetPage initRamPages initPd mem pd upage kpage writable palloc = .ok (ok, mem') →
      Reach initRamPages initPd mem' pd
        (if ok then Function.update M upage (some (kpage, writable)) else M)
        (if mem (pd + 4 * pdNo upage) = 0 then T ++ palloc.toList else T)
  | clearPage {mem mem' : Nat → UInt32} {pd upage : Nat} {M : Pmap} {T : List Nat} :
      Reach initRamPages initPd mem pd M T → UserPage upage →
      pagedirClearPage mem pd upage = .ok mem' →
      Reach initRamPages initPd mem' pd (Function.update M upage none) T

/-- Every reachable page directory is the page directory of its map. Induction on the run,
with `Holds.setPage` and `Holds.clearPage` for the steps. -/
theorem Reach.holds {initRamPages initPd pd : Nat} {mem : Nat → UInt32} {M : Pmap}
    {T : List Nat} (h : Reach initRamPages initPd mem pd M T) : Holds initPd mem pd M T := by
  induction h with
  | create hinit hz hpd hne => exact holds_create hinit hpd hne hz
  | @setPage mem mem' pd upage kpage M T writable ok palloc _ hv hf hs ih =>
    obtain ⟨ok', mem'', hs', hH, -⟩ := ih.setPage hv hf writable
    rw [hs] at hs'
    cases hs'
    exact hH
  | clearPage _ hu hs ih =>
    obtain ⟨mem'', hs', hH⟩ := ih.clearPage hu
    rw [hs] at hs'
    cases hs'
    exact hH

/-- A page directory from `pagedir_create`, after any `pagedir_set_page` calls on unmapped user
pages and `pagedir_clear_page` calls, implements its map: `pagedir_get_page` reads it at every
user address, the kernel half is `init_page_dir`'s, each further call returns (`set_page`
returning false, leaving memory as it was, only when a page table was missing and
`palloc_get_page` failed), and `pagedir_destroy` frees the mapped pages, the page tables and
`pd`, a page once for each time it occurs among them. -/
theorem pagedir_refines_map {initRamPages initPd pd : Nat} {mem : Nat → UInt32} {M : Pmap}
    {T : List Nat} (h : Reach initRamPages initPd mem pd M T) :
    (∀ uaddr, uaddr < PHYS_BASE → pagedirGetPage mem pd uaddr = .ok (Pmap.lookup M uaddr)) ∧
    (∀ i, 768 ≤ i → i < 1024 → mem (pd + 4 * i) = mem (initPd + 4 * i)) ∧
    (∀ upage kpage writable palloc, SetPageOk initRamPages M upage kpage →
      Fresh initPd pd T palloc → ∃ ok mem',
        pagedirSetPage initRamPages initPd mem pd upage kpage writable palloc = .ok (ok, mem') ∧
        (ok = false → mem' = mem ∧ mem (pd + 4 * pdNo upage) = 0 ∧ palloc = none)) ∧
    (∀ upage, UserPage upage → ∃ mem', pagedirClearPage mem pd upage = .ok mem') ∧
    ∃ frees, pagedirDestroy initPd mem pd = .ok frees ∧
      frees.Perm (Pmap.pages M ++ T ++ [pd]) ∧
      ((Pmap.pages M ++ T ++ [pd]).Nodup → frees.Nodup) := by
  have hH := h.holds
  refine ⟨fun uaddr hu => hH.getPage hu, hH.kernel, ?_, ?_, ?_⟩
  · intro upage kpage writable palloc hv hf
    obtain ⟨ok, mem', hs, -, hok⟩ := hH.setPage hv hf writable
    exact ⟨ok, mem', hs, hok⟩
  · intro upage hu
    obtain ⟨mem', hs, -⟩ := hH.clearPage hu
    exact ⟨mem', hs⟩
  · obtain ⟨frees, hd, hp⟩ := hH.destroy
    exact ⟨frees, hd, hp, hp.nodup_iff.2⟩

theorem pagedir_refines_map_after_create :
    Reach 8 0xc0001000 (pagedirCreate 0xc0001000 (fun _ => 0) (some 0xc0002000)).2 0xc0002000
      (fun _ => none) [] ∧
    let mem := (pagedirCreate 0xc0001000 (fun _ => 0) (some 0xc0002000)).2
    (∀ uaddr, uaddr < PHYS_BASE →
      pagedirGetPage mem 0xc0002000 uaddr = .ok (Pmap.lookup (fun _ => none) uaddr)) ∧
    (∀ i, 768 ≤ i → i < 1024 → mem (0xc0002000 + 4 * i) = mem (0xc0001000 + 4 * i)) ∧
    (∀ upage kpage writable palloc, SetPageOk 8 (fun _ => none) upage kpage →
      Fresh 0xc0001000 0xc0002000 [] palloc → ∃ ok mem',
        pagedirSetPage 8 0xc0001000 mem 0xc0002000 upage kpage writable palloc = .ok (ok, mem') ∧
        (ok = false → mem' = mem ∧ mem (0xc0002000 + 4 * pdNo upage) = 0 ∧ palloc = none)) ∧
    (∀ upage, UserPage upage → ∃ mem', pagedirClearPage mem 0xc0002000 upage = .ok mem') ∧
    ∃ frees, pagedirDestroy 0xc0001000 mem 0xc0002000 = .ok frees ∧
      frees.Perm (Pmap.pages (fun _ => none) ++ [] ++ [0xc0002000]) ∧
      ((Pmap.pages (fun _ => none) ++ [] ++ [0xc0002000]).Nodup → frees.Nodup) :=
  have h := Reach.create (by decide) (fun _ _ => rfl) (by decide) (by decide)
  ⟨h, pagedir_refines_map h⟩

/-- The pages of the first two user pages come first among the pages of a map. -/
theorem Pmap.pages_first_two {M : Pmap} {k l : Nat} {v w : Bool} (h₀ : M 0 = some (k, v))
    (h₁ : M PGSIZE = some (l, w)) : ∃ rest, Pmap.pages M = k :: l :: rest := by
  rw [Pmap.pages, show PHYS_BASE / PGSIZE = 786430 + 1 + 1 from rfl, List.range_succ_eq_map,
    List.range_succ_eq_map, List.map_cons, List.flatMap_cons, List.flatMap_cons]
  simp only [Nat.zero_mul, Nat.succ_eq_add_one, Nat.zero_add, Nat.one_mul, h₀, h₁,
    Option.map_some, Option.toList_some, List.singleton_append]
  exact ⟨_, rfl⟩

/-- One kernel page mapped at the user pages `0` and `4096` is freed twice by
`pagedir_destroy`. -/
theorem destroy_frees_aliased_page_twice :
    ∃ (mem : Nat → UInt32) (M : Pmap) (T frees : List Nat),
      Reach 8 0xc0001000 mem 0xc0002000 M T ∧
      M 0 = some (0xc0004000, true) ∧ M 4096 = some (0xc0004000, true) ∧
      pagedirDestroy 0xc0001000 mem 0xc0002000 = .ok frees ∧ ¬frees.Nodup := by
  have r₁ : Reach 8 0xc0001000 (pagedirCreate 0xc0001000 (fun _ => 0) (some 0xc0002000)).2
      0xc0002000 (fun _ => none) [] :=
    Reach.create (by decide) (fun _ _ => rfl) (by decide) (by decide)
  -- user page `0`, with the page table `0xc0003000` from `palloc_get_page`
  have sp₁ : SetPageOk 8 (fun _ => none) 0 0xc0004000 := ⟨by decide, rfl, by decide, by decide⟩
  have fr₁ : Fresh 0xc0001000 0xc0002000 [] (some 0xc0003000) := by
    intro t ht
    cases ht
    decide
  obtain ⟨ok₁, mem₂, hs₁, -, hok₁⟩ := r₁.holds.setPage sp₁ fr₁ true
  obtain rfl : ok₁ = true := by
    cases ok₁
    · exact absurd (hok₁ rfl).2.2 nofun
    · rfl
  have r₂ := Reach.setPage r₁ sp₁ fr₁ hs₁
  rw [if_pos rfl] at r₂
  -- user page `4096`, through the page table already there
  have sp₂ : SetPageOk 8 (Function.update (fun _ => none) 0 (some (0xc0004000, true))) 4096
      0xc0004000 := ⟨by decide, by decide, by decide, by decide⟩
  obtain ⟨ok₂, mem₃, hs₂, -, hok₂⟩ := r₂.holds.setPage sp₂ fresh_none true
  obtain rfl : ok₂ = true := by
    cases ok₂
    · have hm := r₂.holds.empty 0 (by decide) (hok₂ rfl).2.1 0 (by decide)
      exact absurd hm (by decide)
    · rfl
  have r₃ := Reach.setPage r₂ sp₂ fresh_none hs₂
  rw [if_pos rfl] at r₃
  obtain ⟨frees, hd, hp⟩ := r₃.holds.destroy
  obtain ⟨rest, hrest⟩ := Pmap.pages_first_two (k := 0xc0004000) (l := 0xc0004000) (v := true)
    (w := true) (M := Function.update (Function.update (fun _ => none) 0 (some (0xc0004000, true))) 4096
      (some (0xc0004000, true))) (by decide) (by decide)
  refine ⟨_, _, _, frees, r₃, by decide, by decide, hd, fun hn => ?_⟩
  have hn' := hp.nodup_iff.1 hn
  rw [hrest] at hn'
  exact (List.nodup_cons.1 hn').1 List.mem_cons_self

end Pintos.Userprog.Pagedir
