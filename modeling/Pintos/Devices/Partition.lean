import Pintos.Devices.Block
import Pintos.Lib.CInt
import Pintos.Lib.Trace

/-!
The partition scan of `devices/partition.c`. `read_partition_table` reads a partition
table, registers each primary or logical partition it lists, and calls itself on each
extended partition's table. Sector numbers are `block_sector_t`, 32 bits wide. Each nested
call takes a frame of the kernel stack: the model counts the frames left and stops with
`Fault.stackOverflow` when there are none. The messages printed are left out.

The call `block_read (block, 0, pt)` reads sector 0 whatever `sector` it was given. So
every table the scan visits is the MBR again:

* `partition_scan_recurses_forever`: an MBR whose first entry is an extended partition at
  offset 0 makes `read_partition_table` call itself with the same arguments at every
  level, for any depth of stack;
* `partitionScan_primary`: an MBR without extended entries gives each entry that is
  neither empty nor past the end of the device its partition, numbered in order.
-/

namespace Pintos.Devices

open CInt

/-- The roles of `enum block_type` that `found_partition` assigns. -/
inductive BlockType where
  | kernel
  | filesys
  | scratch
  | swap
  | foreign
  deriving DecidableEq, Repr

/-- The role `found_partition` gives a partition of type `partType`. -/
def blockTypeOf (partType : Nat) : BlockType :=
  if partType = 0x20 then .kernel
  else if partType = 0x21 then .filesys
  else if partType = 0x22 then .scratch
  else if partType = 0x23 then .swap
  else .foreign

/-- A partition `block_register` adds: `part_nr`, its role, its first sector and its
size. -/
structure Partition where
  partNr : Nat
  type : BlockType
  start : Nat
  size : Nat
  deriving DecidableEq, Repr

/-- `struct partition_table_entry`: the fields the scan reads. -/
structure Entry where
  type : Nat
  offset : Nat
  size : Nat
  deriving DecidableEq, Repr

/-- `pt->partitions[i]`, the four entries after the 446 bytes of loader. -/
def entry (pt : Sector) (i : Nat) : Entry :=
  ⟨(pt.read (446 + 16 * i + 4)).toNat, pt.u32 (446 + 16 * i + 8), pt.u32 (446 + 16 * i + 12)⟩

/-- `pt->signature`, the little-endian `uint16_t` at the end of the sector. -/
def signature (pt : Sector) : Nat := (pt.read 510).toNat + 2 ^ 8 * (pt.read 511).toNat

/-- The four extended partition types. -/
def isExtended (type : Nat) : Bool :=
  type == 0x05 || type == 0x0f || type == 0x85 || type == 0xc5

/-- `found_partition (block, part_type, start, size, part_nr)`: the partition registered,
if it lies inside the device. -/
def foundPartition (b : Block) (partType start size partNr : Nat) : List Partition :=
  if start ≥ b.size then []
  else if u32 (start + size) < start ∨ u32 (start + size) > b.size then []
  else [⟨partNr, blockTypeOf partType, start, size⟩]

/-- One round of the loop of `read_partition_table` over `pt->partitions`: entry `i` of the
table read for `sector`, with `recurse` the nested call. `acc` is `*part_nr` with the
partitions registered so far. -/
def scanEntry (b : Block)
    (recurse : Nat → Nat → Nat × List Partition → Except Fault (Nat × List Partition))
    (pt : Sector) (sector primaryExtendedSector : Nat) (acc : Nat × List Partition) (i : Nat) :
    Except Fault (Nat × List Partition) :=
  let e := entry pt i
  if e.size = 0 ∨ e.type = 0 then pure acc
  else if isExtended e.type then
    if sector = 0 then recurse e.offset e.offset acc
    else recurse (u32 (e.offset + primaryExtendedSector)) primaryExtendedSector acc
  else
    let partNr := acc.1 + 1
    pure (partNr, acc.2 ++ foundPartition b e.type (u32 (e.offset + sector)) e.size partNr)

/-- `read_partition_table (block, sector, primary_extended_sector, part_nr)` with `depth`
frames of stack left. -/
def readPartitionTable (b : Block) :
    Nat → Nat → Nat → Nat × List Partition → Except Fault (Nat × List Partition)
  | 0, _, _, _ => throw .stackOverflow
  | depth + 1, sector, primaryExtendedSector, acc =>
    if sector ≥ b.size then pure acc
    else do
      let pt ← blockRead b 0
      if signature pt ≠ 0xaa55 then pure acc
      else
        (List.range 4).foldlM
          (scanEntry b (readPartitionTable b depth) pt sector primaryExtendedSector) acc

/-- How many nested calls of `read_partition_table` the kernel stack holds: a page shared
with `struct thread`, and a frame of some sixty bytes. The results below hold for any
depth. -/
def partitionDepth : Nat := 64

/-- `partition_scan (block)`: the partitions registered. -/
def partitionScan (b : Block) : Except Fault (List Partition) := do
  let (_, found) ← readPartitionTable b partitionDepth 0 0 (0, [])
  pure found


/-- An MBR whose first entry is an extended partition at offset 0 sends the scan of sector
0 back to sector 0, until the stack runs out. Induction on the depth. -/
theorem readPartitionTable_self_extended {b : Block} (hsize : 0 < b.size)
    (hsig : signature (b.sectors 0) = 0xaa55)
    (hext : isExtended (entry (b.sectors 0) 0).type = true)
    (hoff : (entry (b.sectors 0) 0).offset = 0) (hnz : (entry (b.sectors 0) 0).size ≠ 0) :
    ∀ depth acc, readPartitionTable b depth 0 0 acc = .error .stackOverflow := by
  have hread : blockRead b 0 = .ok (b.sectors 0) := by rw [blockRead, if_pos hsize]; rfl
  have hty : (entry (b.sectors 0) 0).type ≠ 0 := by
    intro h
    rw [h] at hext
    cases hext
  intro depth
  induction depth with
  | zero => intro _; rfl
  | succ depth ih =>
    intro acc
    rw [readPartitionTable, if_neg (by omega), hread, Trace.ok_bind,
      if_neg (by rw [hsig]; decide), show List.range 4 = 0 :: [1, 2, 3] from rfl,
      List.foldlM_cons]
    simp only [scanEntry, hnz, hty, or_self, if_false, hext, if_true, hoff, ih]
    rfl

/-- The scan of an MBR whose first entry is an extended partition at offset 0 never ends:
at every depth of stack it calls itself on sector 0 again. -/
theorem partition_scan_recurses_forever {b : Block} (hsize : 0 < b.size)
    (hsig : signature (b.sectors 0) = 0xaa55)
    (hext : isExtended (entry (b.sectors 0) 0).type = true)
    (hoff : (entry (b.sectors 0) 0).offset = 0) (hnz : (entry (b.sectors 0) 0).size ≠ 0) :
    partitionScan b = .error .stackOverflow ∧
      ∀ depth acc, readPartitionTable b depth 0 0 acc = .error .stackOverflow := by
  have hloop := readPartitionTable_self_extended hsize hsig hext hoff hnz
  refine ⟨?_, hloop⟩
  rw [partitionScan, hloop]
  rfl

/-- A one-sector device whose MBR has an extended partition at offset 0. -/
theorem partition_scan_recurses_forever_on_loop :
    ∃ b : Block, b = ⟨1, fun _ k =>
      if k.val = 450 then 0x05 else if k.val = 458 then 1
      else if k.val = 510 then 0x55 else if k.val = 511 then 0xaa else 0⟩ ∧
    0 < b.size ∧ signature (b.sectors 0) = 0xaa55 ∧
      isExtended (entry (b.sectors 0) 0).type = true ∧ (entry (b.sectors 0) 0).offset = 0 ∧
      (entry (b.sectors 0) 0).size ≠ 0 ∧
      (partitionScan b = .error .stackOverflow ∧
        ∀ depth acc, readPartitionTable b depth 0 0 acc = .error .stackOverflow) := by
  refine ⟨_, rfl, ?_⟩
  have h1 : 0 < 1 := Nat.one_pos
  have h2 : signature (fun k : Fin BLOCK_SECTOR_SIZE =>
      if k.val = 450 then (0x05 : UInt8) else if k.val = 458 then 1
      else if k.val = 510 then 0x55 else if k.val = 511 then 0xaa else 0) = 0xaa55 := by decide
  have h3 : isExtended (entry (fun k : Fin BLOCK_SECTOR_SIZE =>
      if k.val = 450 then (0x05 : UInt8) else if k.val = 458 then 1
      else if k.val = 510 then 0x55 else if k.val = 511 then 0xaa else 0) 0).type = true := by
    decide
  have h4 : (entry (fun k : Fin BLOCK_SECTOR_SIZE =>
      if k.val = 450 then (0x05 : UInt8) else if k.val = 458 then 1
      else if k.val = 510 then 0x55 else if k.val = 511 then 0xaa else 0) 0).offset = 0 := by
    decide
  have h5 : (entry (fun k : Fin BLOCK_SECTOR_SIZE =>
      if k.val = 450 then (0x05 : UInt8) else if k.val = 458 then 1
      else if k.val = 510 then 0x55 else if k.val = 511 then 0xaa else 0) 0).size ≠ 0 := by
    decide
  exact ⟨h1, h2, h3, h4, h5, partition_scan_recurses_forever h1 h2 h3 h4 h5⟩

/-! ## Tables without extended partitions -/

/-- Whether an entry describes a partition at all. -/
def Entry.used (e : Entry) : Bool := e.size ≠ 0 ∧ e.type ≠ 0

/-- The partitions a table of primary entries lists: its used entries, numbered from
`n + 1` in order, each registered if it lies inside the device. -/
def primaryPartitions (b : Block) (es : List Entry) (n : Nat) : List Partition :=
  ((es.filter Entry.used).zipIdx (n + 1)).flatMap fun p =>
    foundPartition b p.1.type p.1.offset p.1.size p.2

theorem primaryPartitions_nil (b : Block) (n : Nat) : primaryPartitions b [] n = [] := rfl

theorem primaryPartitions_cons_unused {b : Block} {e : Entry} (he : e.used = false)
    (es : List Entry) (n : Nat) : primaryPartitions b (e :: es) n = primaryPartitions b es n := by
  simp only [primaryPartitions, List.filter_cons, he, Bool.false_eq_true, if_false]

theorem primaryPartitions_cons_used {b : Block} {e : Entry} (he : e.used = true)
    (es : List Entry) (n : Nat) :
    primaryPartitions b (e :: es) n =
      foundPartition b e.type e.offset e.size (n + 1) ++ primaryPartitions b es (n + 1) := by
  simp only [primaryPartitions, List.filter_cons, he, if_true, List.zipIdx_cons,
    List.flatMap_cons]

/-- The loop over entries none of which is extended, in the table at sector 0: it numbers
and registers the used ones. Induction on the entries left. -/
theorem foldlM_scanEntry_primary (b : Block)
    (recurse : Nat → Nat → Nat × List Partition → Except Fault (Nat × List Partition))
    (pt : Sector) (primaryExtendedSector : Nat) :
    ∀ (is : List Nat) (n : Nat) (l : List Partition),
      (∀ i ∈ is, isExtended (entry pt i).type = false) →
      is.foldlM (scanEntry b recurse pt 0 primaryExtendedSector) (n, l) =
        .ok (n + ((is.map (entry pt)).filter Entry.used).length,
          l ++ primaryPartitions b (is.map (entry pt)) n) := by
  intro is
  induction is with
  | nil => intro n l _; simp [primaryPartitions_nil]
  | cons i is ih =>
    intro n l hno
    have hi := hno i List.mem_cons_self
    have hrest := fun j hj => hno j (List.mem_cons_of_mem i hj)
    have hofs : u32 (((entry pt i).offset : Int) + ((0 : Nat) : Int)) = (entry pt i).offset := by
      rw [Int.natCast_zero, Int.add_zero]
      exact u32_nat (Sector.u32_lt ..)
    rw [List.foldlM_cons, List.map_cons]
    cases hu : (entry pt i).used with
    | false =>
      have hempty : (entry pt i).size = 0 ∨ (entry pt i).type = 0 := by
        simp only [Entry.used, decide_eq_false_iff_not, not_and, not_not] at hu
        omega
      simp only [scanEntry, if_pos hempty, pure_bind, ih n l hrest, List.filter_cons, hu,
        primaryPartitions_cons_unused hu]
      rfl
    | true =>
      have hne : ¬((entry pt i).size = 0 ∨ (entry pt i).type = 0) := by
        simp only [Entry.used, decide_eq_true_eq] at hu
        omega
      simp only [scanEntry, if_neg hne, hi, Bool.false_eq_true, if_false, hofs, pure_bind,
        ih (n + 1) _ hrest, List.filter_cons, hu, if_true, List.length_cons,
        primaryPartitions_cons_used hu, List.append_assoc]
      congr 2
      omega

/-- A valid MBR without extended entries: `partition_scan` registers each used entry that
lies inside the device, at the sector its offset gives, numbered in order. -/
theorem partitionScan_primary {b : Block} (hsize : 0 < b.size)
    (hsig : signature (b.sectors 0) = 0xaa55)
    (hno : ∀ i < 4, isExtended (entry (b.sectors 0) i).type = false) :
    partitionScan b = .ok (primaryPartitions b ((List.range 4).map (entry (b.sectors 0))) 0) := by
  have hread : blockRead b 0 = .ok (b.sectors 0) := by rw [blockRead, if_pos hsize]; rfl
  rw [partitionScan, partitionDepth, readPartitionTable, if_neg (by omega), hread, Trace.ok_bind,
    if_neg (by rw [hsig]; decide),
    foldlM_scanEntry_primary b _ _ 0 (List.range 4) 0 [] fun i hi => hno i (List.mem_range.1 hi)]
  rfl

/-- A two-sector device with one file system partition at sector 1. -/
theorem partitionScan_primary_of_filesys :
    ∃ b : Block, b = ⟨2, fun _ k =>
      if k.val = 450 then 0x21 else if k.val = 454 then 1 else if k.val = 458 then 1
      else if k.val = 510 then 0x55 else if k.val = 511 then 0xaa else 0⟩ ∧
    0 < b.size ∧ signature (b.sectors 0) = 0xaa55 ∧
      (∀ i < 4, isExtended (entry (b.sectors 0) i).type = false) ∧
      partitionScan b = .ok (primaryPartitions b ((List.range 4).map (entry (b.sectors 0))) 0) ∧
      primaryPartitions b ((List.range 4).map (entry (b.sectors 0))) 0 = [⟨1, .filesys, 1, 1⟩] := by
  refine ⟨_, rfl, ?_⟩
  have h1 : 0 < 2 := Nat.two_pos
  have h2 : signature (fun k : Fin BLOCK_SECTOR_SIZE =>
      if k.val = 450 then (0x21 : UInt8) else if k.val = 454 then 1 else if k.val = 458 then 1
      else if k.val = 510 then 0x55 else if k.val = 511 then 0xaa else 0) = 0xaa55 := by decide
  have h3 : ∀ i < 4, isExtended (entry (fun k : Fin BLOCK_SECTOR_SIZE =>
      if k.val = 450 then (0x21 : UInt8) else if k.val = 454 then 1 else if k.val = 458 then 1
      else if k.val = 510 then 0x55 else if k.val = 511 then 0xaa else 0) i).type = false := by
    decide
  exact ⟨h1, h2, h3, partitionScan_primary h1 h2 h3, by decide⟩

end Pintos.Devices
