import Mathlib.Logic.Function.Basic
import Mathlib.Tactic.Ring

/-!
The block device under the file system (`devices/block.c`), the sector buffers that all of
`filesys/` reads and writes, and the ways a kernel call ends without returning: a `PANIC`,
a failed `ASSERT` (`lib/debug.h`), a page fault in kernel mode (which `kill` in
`userprog/exception.c` turns into a panic), and a thread that blocks forever.
-/

namespace Pintos

/-- The `ASSERT`s of the modelled code, by the condition they check. -/
inductive Assertion where
  /-- `cache_{read,write}_with_size_and_offset`: `sector_ofs + size <= BLOCK_SECTOR_SIZE`. -/
  | sectorBounds
  /-- `list_front`, `list_back`: `!list_empty (list)`. -/
  | listNonEmpty
  /-- `free_map_release`: `bitmap_all (free_map, sector, cnt)`. -/
  | freeMapAllUsed
  /-- `lock_acquire`: `!lock_held_by_current_thread (lock)`. -/
  | lockNotHeld
  /-- `inode_create`: `length >= 0`. -/
  | lengthNonNegative
  /-- `bitmap_test`, `bitmap_set`: `idx < b->bit_cnt`. -/
  | bitIndex
  /-- `bitmap_scan`, `bitmap_set_multiple`, `bitmap_contains`: `start <= b->bit_cnt` and
  `start + cnt <= b->bit_cnt`. -/
  | bitRange
  /-- `inode_deny_write`, `inode_allow_write`: `deny_write_cnt <= open_cnt`, and
  `deny_write_cnt > 0` before a decrement. -/
  | denyWriteCnt
  /-- `file_length`, `file_seek`, `file_tell`, `file_deny_write`, `file_allow_write`:
  `file != NULL`. -/
  | fileNonNull
  /-- `file_seek`: `new_pos >= 0`. -/
  | seekNonNegative
  deriving DecidableEq, Repr

inductive Fault where
  | assert (what : Assertion)
  /-- `check_sector`: "Access past end of device". -/
  | pastEnd (sector : Nat)
  /-- A kernel-mode page fault: "Kernel bug - unexpected interrupt in kernel". -/
  | kernelFault
  /-- A `PANIC` of the file system code ("free map creation failed", "can't open free
  map", "root directory creation failed", ...). -/
  | panic
  /-- The calling thread waits on a condition no other thread will signal. -/
  | deadlock
  /-- A recursion deeper than the kernel stack holds. -/
  | stackOverflow
  /-- A loop that never exits. -/
  | diverge
  /-- An array indexed outside its bounds, or a `struct inode` used after it was freed: the
  C code reads memory it does not own, and the model stops there. -/
  | wildAccess
  deriving DecidableEq, Repr

def BLOCK_SECTOR_SIZE : Nat := 512

/-- The bytes of one sector, as `char data[BLOCK_SECTOR_SIZE]` holds them. -/
abbrev Sector := Fin BLOCK_SECTOR_SIZE → UInt8

/-- The little-endian 32-bit word at byte offset `ofs` of a byte array. -/
def leU32 (f : Nat → UInt8) (ofs : Nat) : Nat :=
  (f ofs).toNat + 2 ^ 8 * (f (ofs + 1)).toNat + 2 ^ 16 * (f (ofs + 2)).toNat +
    2 ^ 24 * (f (ofs + 3)).toNat

theorem leU32_lt (f : Nat → UInt8) (ofs : Nat) : leU32 f ofs < 2 ^ 32 := by
  unfold leU32
  have h0 := (f ofs).toNat_lt
  have h1 := (f (ofs + 1)).toNat_lt
  have h2 := (f (ofs + 2)).toNat_lt
  have h3 := (f (ofs + 3)).toNat_lt
  omega

namespace Sector

def zero : Sector := fun _ => 0

/-- The byte at offset `k`; offsets past the sector read as `0` and are never used. -/
def read (d : Sector) (k : Nat) : UInt8 :=
  if h : k < BLOCK_SECTOR_SIZE then d ⟨k, h⟩ else 0

/-- `for (i = 0; i < size; i++) data[i + ofs] = buff[i];` -/
def write (d : Sector) (ofs size : Nat) (buff : Nat → UInt8) : Sector :=
  fun k => if ofs ≤ k.val ∧ k.val < ofs + size then buff (k.val - ofs) else d k

/-- The little-endian 32-bit word at byte offset `ofs`. -/
def u32 (d : Sector) (ofs : Nat) : Nat := leU32 d.read ofs

/-- Byte `i` of the little-endian encoding of `v`. -/
def byteOf (v i : Nat) : UInt8 := (v / 2 ^ (8 * i) % 2 ^ 8).toUInt8

/-- Store the 32-bit word `v` at byte offset `ofs`. -/
def setU32 (d : Sector) (ofs v : Nat) : Sector :=
  d.write ofs 4 (byteOf v)

@[simp] theorem read_zero (k : Nat) : zero.read k = 0 := by
  unfold read zero
  split <;> rfl

theorem read_write (d : Sector) (ofs size : Nat) (buff : Nat → UInt8) (k : Nat)
    (hk : k < BLOCK_SECTOR_SIZE) :
    (d.write ofs size buff).read k = if ofs ≤ k ∧ k < ofs + size then buff (k - ofs) else d.read k := by
  simp only [read, write, hk, dite_true]

theorem read_write_of_lt (d : Sector) (ofs size : Nat) (buff : Nat → UInt8) (k : Nat)
    (hk : k < ofs) : (d.write ofs size buff).read k = d.read k := by
  by_cases h : k < BLOCK_SECTOR_SIZE
  · rw [read_write _ _ _ _ _ h, if_neg (by omega)]
  · simp [read, h]

theorem read_write_of_ge (d : Sector) (ofs size : Nat) (buff : Nat → UInt8) (k : Nat)
    (hk : ofs + size ≤ k) : (d.write ofs size buff).read k = d.read k := by
  by_cases h : k < BLOCK_SECTOR_SIZE
  · rw [read_write _ _ _ _ _ h, if_neg (by omega)]
  · simp [read, h]

/-- A write of the whole sector does not depend on what the sector held. -/
theorem write_whole (d d' : Sector) (buff : Nat → UInt8) :
    d.write 0 BLOCK_SECTOR_SIZE buff = d'.write 0 BLOCK_SECTOR_SIZE buff := by
  funext k
  simp only [write, Nat.zero_le, true_and, Nat.zero_add, k.isLt, if_true]

theorem byteOf_toNat (v i : Nat) : (byteOf v i).toNat = v / 2 ^ (8 * i) % 2 ^ 8 := by
  simp [byteOf]

/-- A word stored with `setU32` reads back modulo `2^32`. -/
theorem u32_setU32 (d : Sector) (ofs v : Nat) (h : ofs + 4 ≤ BLOCK_SECTOR_SIZE) :
    (d.setU32 ofs v).u32 ofs = v % 2 ^ 32 := by
  unfold u32 leU32 setU32
  rw [read_write _ _ _ _ _ (by omega), read_write _ _ _ _ _ (by omega),
    read_write _ _ _ _ _ (by omega), read_write _ _ _ _ _ (by omega),
    if_pos ⟨by omega, by omega⟩, if_pos ⟨by omega, by omega⟩, if_pos ⟨by omega, by omega⟩,
    if_pos ⟨by omega, by omega⟩]
  simp only [Nat.sub_self, Nat.add_sub_cancel_left, byteOf_toNat]
  norm_num
  omega

/-- Storing a word leaves the bytes outside it as they were. -/
theorem read_setU32_of_disjoint (d : Sector) (ofs v k : Nat) (hk : k < ofs ∨ ofs + 4 ≤ k) :
    (d.setU32 ofs v).read k = d.read k := by
  rcases hk with hk | hk
  · exact read_write_of_lt _ _ _ _ _ hk
  · exact read_write_of_ge _ _ _ _ _ hk

theorem u32_setU32_of_disjoint (d : Sector) (ofs v ofs' : Nat)
    (h : ofs' + 4 ≤ ofs ∨ ofs + 4 ≤ ofs') : (d.setU32 ofs v).u32 ofs' = d.u32 ofs' := by
  unfold u32 leU32
  rw [read_setU32_of_disjoint _ _ _ _ (by omega), read_setU32_of_disjoint _ _ _ _ (by omega),
    read_setU32_of_disjoint _ _ _ _ (by omega), read_setU32_of_disjoint _ _ _ _ (by omega)]

theorem u32_lt (d : Sector) (ofs : Nat) : d.u32 ofs < 2 ^ 32 := leU32_lt d.read ofs

@[simp] theorem u32_zero (ofs : Nat) : zero.u32 ofs = 0 := by
  simp [u32, leU32]

end Sector

/-- `struct block`: its number of sectors and their contents. -/
structure Block where
  size : Nat
  sectors : Nat → Sector

/-- A device of `size` sectors, all zero. -/
def Block.blank (size : Nat) : Block := ⟨size, fun _ => Sector.zero⟩

/-- `block_read`, with `check_sector`'s panic past the end of the device. -/
def blockRead (b : Block) (sector : Nat) : Except Fault Sector :=
  if sector < b.size then pure (b.sectors sector) else throw (.pastEnd sector)

/-- `block_write`. -/
def blockWrite (b : Block) (sector : Nat) (data : Sector) : Except Fault Block :=
  if sector < b.size then pure { b with sectors := Function.update b.sectors sector data }
  else throw (.pastEnd sector)

theorem blockRead_eq_ok {b : Block} {sector : Nat} {d : Sector} (h : blockRead b sector = .ok d) :
    sector < b.size ∧ d = b.sectors sector := by
  unfold blockRead at h
  split at h
  · exact ⟨‹_›, (Except.ok.inj h).symm⟩
  · cases h

theorem blockWrite_eq_ok {b b' : Block} {sector : Nat} {d : Sector}
    (h : blockWrite b sector d = .ok b') :
    sector < b.size ∧ b' = { b with sectors := Function.update b.sectors sector d } := by
  unfold blockWrite at h
  split at h
  · exact ⟨‹_›, (Except.ok.inj h).symm⟩
  · cases h

end Pintos
