import Mathlib.Data.Nat.Bitwise
import Pintos.Kernel.ListFamily
import Pintos.Kernel.Strtok
import Pintos.Lib.Memory

/-!
The hash table of `lib/kernel/hash.c`, a table of chains: an array of `bucket_cnt` lists of
`lib/kernel/list.c`, 16 bytes each, and every element in the list its hash picks. A
`struct hash_elem` is the `struct list_elem` it holds, so an element is the address of its
list cell, and `hash` and `less` take it with `aux` folded in. `malloc` is the address it
returns for a request of so many bytes, `NULL` for none; the functions that a table calls on
its elements (`destructor`, `action`) are pointers, and the model gives back the elements
they are called on, in order.

* `hashString_eq`: `hash_string (s)` is `hash_bytes (s, strlen (s))`, and `hashBytes_int`:
  `hash_int (i)` hashes the four bytes of `i`;
* `bucketCnt_run`: the loop of `rehash` that turns off low bits ends at the greatest power of
  two not above where it starts;
* `bucketIdx_lt`: a power-of-two `bucket_cnt` masks every hash to a bucket;
* `findElem_eq`: `find_elem` returns the first element of its bucket equal to the key.
-/

namespace Pintos

/-- `struct hash`, with `aux` folded into `hash` and `less`. -/
structure Hash where
  elemCnt : Nat
  bucketCnt : Nat
  buckets : Nat
  hash : Nat → UInt32
  less : Nat → Nat → Bool

/-- `struct hash_iterator`: the table it walks, its current bucket and element. -/
structure HashIterator where
  hash : Hash
  bucket : Nat
  elem : Nat

section Operations

/-- `FNV_32_PRIME`. -/
def FNV_32_PRIME : UInt32 := 16777619

/-- `FNV_32_BASIS`. -/
def FNV_32_BASIS : UInt32 := 2166136261

/-- `hash = (hash * FNV_32_PRIME) ^ byte`, the round of the Fowler-Noll-Vo loops. -/
def fnvStep (hash : UInt32) (byte : UInt8) : UInt32 := hash * FNV_32_PRIME ^^^ byte.toUInt32

/-- `hash_bytes (buf, size)`: the loop `while (size-- > 0)` over the bytes from `buf`. -/
def hashBytes (mem : Nat → UInt8) (buf size : Nat) : Except Fault UInt32 := do
  if buf = 0 then throw .panic
  pure ((Memory.load mem buf size).foldl fnvStep FNV_32_BASIS)

/-- One round of `while (*s != '\0')` in `hash_string (s)`. -/
def hashStringRound (mem : Nat → UInt8) : UInt32 × Nat → Except Fault (UInt32 ⊕ UInt32 × Nat)
  | (hash, s) =>
    if mem s ≠ 0 then pure (.inr (fnvStep hash (mem s), CInt.u32 (s + 1))) else pure (.inl hash)

/-- `hash_string (s)`. -/
def hashString (mem : Nat → UInt8) (s : Nat) : Except Fault UInt32 := do
  if s = 0 then throw .panic
  Loop.run (hashStringRound mem) (fun _ => throw .diverge) (2 ^ 32) (FNV_32_BASIS, s)

/-- The bytes of the `int` `i` as x86 stores them, lowest first. -/
def intBytes (i : Int) : List UInt8 := (List.range 4).map (Sector.byteOf (CInt.u32 i))

/-- `hash_int (i)`: `hash_bytes (&i, sizeof i)` over the bytes of `i`. -/
def hashInt (i : Int) : UInt32 := (intBytes i).foldl fnvStep FNV_32_BASIS

/-- `bucket_idx` in `find_bucket (h, e)`: the hash masked by `bucket_cnt - 1`. -/
def bucketIdx (H : Hash) (e : Nat) : Nat := (H.hash e).toNat &&& (H.bucketCnt - 1)

/-- `find_bucket (h, e)`: `&h->buckets[bucket_idx]`, a `struct list` being 16 bytes. -/
def findBucket (H : Hash) (e : Nat) : Nat := H.buckets + 16 * bucketIdx H e

/-- The bucket of an element does not depend on how many elements the table counts. -/
@[simp] theorem findBucket_elemCnt (H : Hash) (n e : Nat) :
    findBucket { H with elemCnt := n } e = findBucket H e := rfl

/-- The test of `find_elem`: neither element is less than the other. -/
def equal (less : Nat → Nat → Bool) (a b : Nat) : Bool := !less a b && !less b a

/-- One round of the `for` loop of `find_elem (h, bucket, e)`. -/
def findElemRound (h : Links) (H : Hash) (bucket e i : Nat) : Except Fault (Nat ⊕ Nat) := do
  let t ← listEnd bucket
  if i = t then return .inl 0
  if equal H.less i e then return .inl i
  let i ← listNext h i
  return .inr i

/-- `find_elem (h, bucket, e)`: the element of `bucket` equal to `e`, or `NULL`. -/
def findElem (h : Links) (H : Hash) (bucket e : Nat) : Except Fault Nat := do
  let i ← listBegin h bucket
  Loop.run (findElemRound h H bucket e) (fun _ => throw .diverge) (2 ^ 32) i

/-- `turn_off_least_1bit (x)`. -/
def turnOffLeast1bit (x : Nat) : Nat := x &&& (x - 1)

/-- `is_power_of_2 (x)`. -/
def isPowerOf2 (x : Nat) : Bool := x != 0 && turnOffLeast1bit x == 0

/-- `BEST_ELEMS_PER_BUCKET`. -/
def BEST_ELEMS_PER_BUCKET : Nat := 2

/-- One round of `while (!is_power_of_2 (new_bucket_cnt))` in `rehash`. -/
def bucketCntRound (x : Nat) : Except Fault (Nat ⊕ Nat) :=
  if isPowerOf2 x then pure (.inl x) else pure (.inr (turnOffLeast1bit x))

/-- One round of `for (i = 0; i < new_bucket_cnt; i++) list_init (&new_buckets[i]);`. -/
def initBucketsRound (newBuckets newBucketCnt : Nat) :
    Links × Nat → Except Fault (Links ⊕ Links × Nat)
  | (h, i) => do
    if i < newBucketCnt then
      let h ← listInit h (newBuckets + 16 * i)
      return .inr (h, i + 1)
    return .inl h

/-- One round of the inner `for` loop of `rehash`: `elem` moved from its old bucket to the
front of its bucket in the new table `H`. -/
def moveElemRound (H : Hash) (oldBucket : Nat) : Links × Nat → Except Fault (Links ⊕ Links × Nat)
  | (h, elem) => do
    let t ← listEnd oldBucket
    if elem = t then return .inl h
    let newBucket := findBucket H elem
    let next ← listNext h elem
    let (h, _) ← listRemove h elem
    let h ← listPushFront h newBucket elem
    return .inr (h, next)

/-- One round of the outer `for` loop of `rehash`, over the old buckets. -/
def moveBucketsRound (H : Hash) (oldBuckets oldBucketCnt : Nat) :
    Links × Nat → Except Fault (Links ⊕ Links × Nat)
  | (h, i) => do
    if i < oldBucketCnt then
      let oldBucket := oldBuckets + 16 * i
      let elem ← listBegin h oldBucket
      let h ← Loop.run (moveElemRound H oldBucket) (fun _ => throw .diverge) (2 ^ 32) (h, elem)
      return .inr (h, i + 1)
    return .inl h

/-- `rehash (h)`. -/
def rehash (h : Links) (H : Hash) (malloc : Nat → Nat) : Except Fault (Links × Hash) := do
  let oldBuckets := H.buckets
  let oldBucketCnt := H.bucketCnt
  let newBucketCnt := H.elemCnt / BEST_ELEMS_PER_BUCKET
  let newBucketCnt := if newBucketCnt < 4 then 4 else newBucketCnt
  let newBucketCnt ← Loop.run bucketCntRound (fun _ => throw .diverge) (2 ^ 32) newBucketCnt
  if newBucketCnt = oldBucketCnt then return (h, H)
  let newBuckets := malloc (16 * newBucketCnt)
  if newBuckets = 0 then return (h, H)
  let h ← Loop.run (initBucketsRound newBuckets newBucketCnt) (fun _ => throw .diverge) (2 ^ 32)
    (h, 0)
  let H := { H with buckets := newBuckets, bucketCnt := newBucketCnt }
  let h ← Loop.run (moveBucketsRound H oldBuckets oldBucketCnt) (fun _ => throw .diverge)
    (2 ^ 32) (h, 0)
  return (h, H)

/-- `insert_elem (h, bucket, e)`. -/
def insertElem (h : Links) (H : Hash) (bucket e : Nat) : Except Fault (Links × Hash) := do
  let H := { H with elemCnt := H.elemCnt + 1 }
  let h ← listPushFront h bucket e
  return (h, H)

/-- `remove_elem (h, e)`. -/
def removeElem (h : Links) (H : Hash) (e : Nat) : Except Fault (Links × Hash) := do
  let H := { H with elemCnt := H.elemCnt - 1 }
  let (h, _) ← listRemove h e
  return (h, H)

/-- One round of `while (!list_empty (bucket))` in `hash_clear`: the front element popped
and handed to `destructor`. -/
def clearBucketRound (bucket : Nat) :
    Links × List Nat → Except Fault (Links × List Nat ⊕ Links × List Nat)
  | (h, calls) => do
    if ← listEmpty h bucket then return .inl (h, calls)
    let (h, e) ← listPopFront h bucket
    return .inr (h, calls ++ [e])

/-- One round of the `for` loop of `hash_clear (h, destructor)` over the buckets. -/
def hashClearRound (H : Hash) (destructor : Nat) :
    Links × List Nat × Nat → Except Fault (Links × List Nat ⊕ Links × List Nat × Nat)
  | (h, calls, i) => do
    if i < H.bucketCnt then
      let bucket := H.buckets + 16 * i
      let (h, calls) ← if destructor ≠ 0 then
          Loop.run (clearBucketRound bucket) (fun _ => throw .diverge) (2 ^ 32) (h, calls)
        else pure (h, calls)
      let h ← listInit h bucket
      return .inr (h, calls, i + 1)
    return .inl (h, calls)

/-- `hash_clear (h, destructor)`: the links, the table, and the elements `destructor` is
called on. -/
def hashClear (h : Links) (H : Hash) (destructor : Nat) :
    Except Fault (Links × Hash × List Nat) := do
  let (h, calls) ← Loop.run (hashClearRound H destructor) (fun _ => throw .diverge) (2 ^ 32)
    (h, [], 0)
  return (h, { H with elemCnt := 0 }, calls)

/-- `hash_init (h, hash, less, aux)`: the links, the table, and whether it succeeded. -/
def hashInit (h : Links) (hash : Nat → UInt32) (less : Nat → Nat → Bool) (malloc : Nat → Nat) :
    Except Fault (Links × Hash × Bool) := do
  let H : Hash := { elemCnt := 0, bucketCnt := 4, buckets := malloc (16 * 4), hash, less }
  if H.buckets ≠ 0 then
    let (h, H, _) ← hashClear h H 0
    return (h, H, true)
  return (h, H, false)

/-- `hash_destroy (h, destructor)`: the links, and the elements `destructor` is called on;
the buckets are freed. -/
def hashDestroy (h : Links) (H : Hash) (destructor : Nat) : Except Fault (Links × List Nat) := do
  let (h, _, calls) ← if destructor ≠ 0 then hashClear h H destructor else pure (h, H, [])
  return (h, calls)

/-- `hash_insert (h, new)`: the links, the table, and the equal element already there or
`NULL`. -/
def hashInsert (h : Links) (H : Hash) (new : Nat) (malloc : Nat → Nat) :
    Except Fault (Links × Hash × Nat) := do
  let bucket := findBucket H new
  let old ← findElem h H bucket new
  let (h, H) ← if old = 0 then insertElem h H bucket new else pure (h, H)
  let (h, H) ← rehash h H malloc
  return (h, H, old)

/-- `hash_replace (h, new)`: the links, the table, and the equal element replaced or
`NULL`. -/
def hashReplace (h : Links) (H : Hash) (new : Nat) (malloc : Nat → Nat) :
    Except Fault (Links × Hash × Nat) := do
  let bucket := findBucket H new
  let old ← findElem h H bucket new
  let (h, H) ← if old ≠ 0 then removeElem h H old else pure (h, H)
  let (h, H) ← insertElem h H bucket new
  let (h, H) ← rehash h H malloc
  return (h, H, old)

/-- `hash_find (h, e)`. -/
def hashFind (h : Links) (H : Hash) (e : Nat) : Except Fault Nat :=
  findElem h H (findBucket H e) e

/-- `hash_delete (h, e)`: the links, the table, and the equal element removed or `NULL`. -/
def hashDelete (h : Links) (H : Hash) (e : Nat) (malloc : Nat → Nat) :
    Except Fault (Links × Hash × Nat) := do
  let found ← findElem h H (findBucket H e) e
  if found ≠ 0 then
    let (h, H) ← removeElem h H found
    let (h, H) ← rehash h H malloc
    return (h, H, found)
  return (h, H, found)

/-- One round of the inner `for` loop of `hash_apply`: `next` read, then `action` called. -/
def applyBucketRound (h : Links) (bucket : Nat) :
    List Nat × Nat → Except Fault (List Nat ⊕ List Nat × Nat)
  | (calls, elem) => do
    let t ← listEnd bucket
    if elem = t then return .inl calls
    let next ← listNext h elem
    return .inr (calls ++ [elem], next)

/-- One round of the outer `for` loop of `hash_apply`, over the buckets. -/
def hashApplyRound (h : Links) (H : Hash) :
    List Nat × Nat → Except Fault (List Nat ⊕ List Nat × Nat)
  | (calls, i) => do
    if i < H.bucketCnt then
      let bucket := H.buckets + 16 * i
      let elem ← listBegin h bucket
      let calls ← Loop.run (applyBucketRound h bucket) (fun _ => throw .diverge) (2 ^ 32)
        (calls, elem)
      return .inr (calls, i + 1)
    return .inl calls

/-- `hash_apply (h, action)`: the elements `action` is called on. -/
def hashApply (h : Links) (H : Hash) (action : Nat) : Except Fault (List Nat) := do
  if action = 0 then throw .panic
  Loop.run (hashApplyRound h H) (fun _ => throw .diverge) (2 ^ 32) ([], 0)

/-- `hash_first (i, h)`. -/
def hashFirst (H : Hash) : Except Fault HashIterator := do
  let elem ← listHead H.buckets
  return { hash := H, bucket := H.buckets, elem }

/-- One round of `while (i->elem == list_end (i->bucket))` in `hash_next (i)`. -/
def hashNextRound (h : Links) (i : HashIterator) : Except Fault (HashIterator ⊕ HashIterator) := do
  let t ← listEnd i.bucket
  if i.elem ≠ t then return .inl i
  let bucket := i.bucket + 16
  if bucket ≥ i.hash.buckets + 16 * i.hash.bucketCnt then return .inl { i with bucket, elem := 0 }
  let elem ← listBegin h bucket
  return .inr { i with bucket, elem }

/-- `hash_next (i)`: the iterator moved on, and the element it is now at or `NULL`. -/
def hashNext (h : Links) (i : HashIterator) : Except Fault (HashIterator × Nat) := do
  let elem ← listNext h i.elem
  let i ← Loop.run (hashNextRound h) (fun _ => throw .diverge) (2 ^ 32) { i with elem }
  return (i, i.elem)

/-- `hash_cur (i)`. -/
def hashCur (i : HashIterator) : Nat := i.elem

/-- `hash_size (h)`. -/
def hashSize (H : Hash) : Nat := H.elemCnt

/-- `hash_empty (h)`. -/
def hashEmpty (H : Hash) : Bool := H.elemCnt == 0

end Operations

section Bytes

variable {mem : Nat → UInt8}

/-- The walk of `hash_string` over the bytes `w` before the terminator. Induction on `w`. -/
theorem hashString_loop : ∀ (w : List UInt8) (s : Nat) (hash : UInt32) (fuel : Nat),
    CStr mem s w → s + w.length < 2 ^ 32 → w.length < fuel →
    Loop.run (hashStringRound mem) (fun _ => throw .diverge) fuel (hash, s) =
      .ok (w.foldl fnvStep hash)
  | _, _, _, 0, _, _, hfuel => absurd hfuel (Nat.not_lt_zero _)
  | [], s, hash, fuel + 1, hw, _, _ => by
    have h0 : mem s = 0 := by simpa using hw.nul
    exact Loop.run_succ_of_stop (by simp [hashStringRound, h0])
  | b :: w, s, hash, fuel + 1, hw, hlt, hfuel => by
    have hb : mem s = b := by
      have := hw.byte 0 (by simp)
      rwa [Nat.add_zero, List.getElem_cons_zero] at this
    have hb0 : b ≠ 0 := fun h0 => hw.no_nul (h0 ▸ List.mem_cons_self)
    have hw' : CStr mem (s + 1) w := by
      refine ⟨fun h0 => hw.no_nul (List.mem_cons_of_mem _ h0), fun i hi => ?_, ?_⟩
      · have := hw.byte (i + 1) (by simpa using hi)
        rw [List.getElem_cons_succ] at this
        rw [Nat.add_assoc, Nat.add_comm 1 i]
        exact this
      · simpa [Nat.add_assoc, Nat.add_comm 1 w.length] using hw.nul
    have hround : hashStringRound mem (hash, s) = .ok (.inr (fnvStep hash b, s + 1)) := by
      simp only [List.length_cons] at hlt
      simp [hashStringRound, hb, hb0, u32_succ (show s + 1 < 2 ^ 32 by omega)]
    rw [Loop.run_succ_of_next hround, List.foldl_cons]
    exact hashString_loop w (s + 1) _ fuel hw' (by simp at hlt; omega) (by simp at hfuel; omega)

/-- `hash_string (s)` hashes the bytes of the string, as `hash_bytes (s, strlen (s))` does. -/
theorem hashString_eq {s : Nat} {w : List UInt8} (hw : CStr mem s w) (hs : 0 < s)
    (hlt : s + w.length < 2 ^ 32) :
    hashString mem s = .ok (w.foldl fnvStep FNV_32_BASIS) ∧
      (do let n ← strlen mem s; hashBytes mem s n) = hashString mem s := by
  have hrun := hashString_loop w s FNV_32_BASIS (2 ^ 32) hw hlt (by omega)
  have hload : Memory.load mem s w.length = w := by
    refine List.ext_getElem (by simp [Memory.load]) fun i h₁ h₂ => ?_
    simpa [Memory.load] using hw.byte i h₂
  have hstr : hashString mem s = .ok (w.foldl fnvStep FNV_32_BASIS) := by
    rw [hashString, if_neg (by omega)]
    exact hrun
  refine ⟨hstr, ?_⟩
  rw [strlen_eq hw hs hlt, hstr]
  simp [hashBytes, show s ≠ 0 by omega, hload]

/-- `hash_int (i)` is `hash_bytes` of the four bytes of `i` wherever they are stored. -/
theorem hashBytes_int (i : Int) {a : Nat} (ha : a ≠ 0) :
    hashBytes (Memory.store mem a (intBytes i)) a 4 = .ok (hashInt i) := by
  have hload : Memory.load (Memory.store mem a (intBytes i)) a 4 = intBytes i := by
    simpa [intBytes] using Memory.load_store mem a (intBytes i)
  simp [hashBytes, ha, hload, hashInt]

end Bytes

section Buckets

/-- `is_power_of_2` decides `Nat.isPowerOfTwo`. -/
theorem isPowerOf2_iff (x : Nat) : isPowerOf2 x = true ↔ x.isPowerOfTwo := by
  rw [← Nat.ne_zero_and_sub_one_eq_zero_iff_isPowerOfTwo]
  simp [isPowerOf2, turnOffLeast1bit]

/-- Turning off the lowest bit of a number that is not a power of two keeps its highest
bit: the core lemma `Nat.and_sub_one_testBit_log2`. -/
theorem log2_turnOffLeast1bit {x : Nat} (hx : x ≠ 0) (hp : ¬ x.isPowerOfTwo) :
    (turnOffLeast1bit x).log2 = x.log2 ∧ turnOffLeast1bit x < x ∧ turnOffLeast1bit x ≠ 0 := by
  have hbit := Nat.and_sub_one_testBit_log2 hx hp
  have hge : 2 ^ x.log2 ≤ turnOffLeast1bit x := Nat.ge_two_pow_of_testBit hbit
  have hle : turnOffLeast1bit x ≤ x - 1 := Nat.and_le_right
  have hlt : x < 2 ^ (x.log2 + 1) := Nat.lt_log2_self
  have h0 : turnOffLeast1bit x ≠ 0 := by
    have := Nat.one_le_two_pow (n := x.log2)
    omega
  exact ⟨(Nat.log2_eq_iff h0).2 ⟨hge, by omega⟩, by omega, h0⟩

/-- The loop of `rehash` that turns off low bits until a power of two is left ends at the
greatest power of two not above where it starts. Strong induction on the start. -/
theorem bucketCnt_run : ∀ (x fuel : Nat), x ≠ 0 → x < fuel →
    Loop.run bucketCntRound (fun _ => throw .diverge) fuel x = .ok (2 ^ x.log2) := by
  intro x
  induction x using Nat.strong_induction_on with
  | _ x ih =>
    intro fuel hx hfuel
    obtain ⟨fuel, rfl⟩ : ∃ f, fuel = f + 1 := ⟨fuel - 1, by omega⟩
    by_cases hp : x.isPowerOfTwo
    · obtain ⟨k, rfl⟩ := hp
      refine Loop.run_succ_of_stop ?_
      simp [bucketCntRound, (isPowerOf2_iff _).2 ⟨k, rfl⟩, Nat.log2_two_pow]
    · obtain ⟨hlog, hlt, h0⟩ := log2_turnOffLeast1bit hx hp
      have hround : bucketCntRound x = .ok (.inr (turnOffLeast1bit x)) := by
        have : isPowerOf2 x = false := by
          cases h : isPowerOf2 x
          · rfl
          · exact absurd ((isPowerOf2_iff x).1 h) hp
        simp [bucketCntRound, this]
      rw [Loop.run_succ_of_next hround, ih _ hlt fuel h0 (by omega), hlog]

/-- The bucket count `rehash` aims at for `n` elements: one bucket for every
`BEST_ELEMS_PER_BUCKET`, at least four, rounded down to a power of two. -/
def idealBucketCnt (n : Nat) : Nat := 2 ^ (max (n / BEST_ELEMS_PER_BUCKET) 4).log2

theorem idealBucketCnt_pow (n : Nat) : (idealBucketCnt n).isPowerOfTwo := ⟨_, rfl⟩

theorem four_le_idealBucketCnt (n : Nat) : 4 ≤ idealBucketCnt n := by
  have h : 2 ≤ (max (n / BEST_ELEMS_PER_BUCKET) 4).log2 :=
    (Nat.le_log2 (by omega)).2 (by simp)
  calc 4 = 2 ^ 2 := rfl
    _ ≤ idealBucketCnt n := Nat.pow_le_pow_right (by omega) h

/-- The bucket count `rehash` computes for fewer than `2 ^ 32` elements. -/
theorem rehash_bucketCnt {n : Nat} (hn : n < 2 ^ 32) :
    Loop.run bucketCntRound (fun _ => throw .diverge) (2 ^ 32)
        (if n / BEST_ELEMS_PER_BUCKET < 4 then 4 else n / BEST_ELEMS_PER_BUCKET) =
      .ok (idealBucketCnt n) := by
  have hmax : (if n / BEST_ELEMS_PER_BUCKET < 4 then 4 else n / BEST_ELEMS_PER_BUCKET) =
      max (n / BEST_ELEMS_PER_BUCKET) 4 := by
    split <;> omega
  rw [hmax]
  exact bucketCnt_run _ _ (by omega) (by simp only [BEST_ELEMS_PER_BUCKET]; omega)

/-- A power-of-two `bucket_cnt` masks every hash to one of its buckets. -/
theorem bucketIdx_lt {H : Hash} (hp : H.bucketCnt.isPowerOfTwo) (e : Nat) :
    bucketIdx H e < H.bucketCnt := by
  obtain ⟨k, hk⟩ := hp
  rw [bucketIdx, hk]
  exact Nat.and_lt_two_pow _ (by have := Nat.one_le_two_pow (n := k); omega)

end Buckets

section Find

variable {h : Links} {H : Hash} {bucket : Nat}

/-- The walk of `find_elem` over the cells `R` before the tail. Induction on `R`. -/
theorem findElem_loop (e : Nat) (h0 : bucket ≠ 0) : ∀ (R P : List Nat) (fuel : Nat),
    Chain h (P ++ R ++ [bucket + 8]) → R.length < fuel →
    Loop.run (findElemRound h H bucket e) (fun _ => throw .diverge) fuel (R.headD (bucket + 8)) =
      .ok ((R.find? fun x => equal H.less x e).getD 0)
  | _, _, 0, _, hfuel => absurd hfuel (Nat.not_lt_zero _)
  | [], P, fuel + 1, _, _ =>
    Loop.run_succ_of_stop (by simp [findElemRound, listEnd_of_ne_zero h0])
  | y :: R, P, fuel + 1, hc, hfuel => by
    have hy : y ≠ bucket + 8 := ne_of_nodup hc.nodup (A := P) (B := R) (C := []) (by simp)
    cases hye : equal H.less y e with
    | true =>
      exact Loop.run_succ_of_stop (by simp [findElemRound, listEnd_of_ne_zero h0, hy, hye])
    | false =>
      have hround : findElemRound h H bucket e y = .ok (.inr (R.headD (bucket + 8))) := by
        simp [findElemRound, listEnd_of_ne_zero h0, hy, hye, hc.listNext_headD]
      rw [List.headD_cons, Loop.run_succ_of_next hround, List.find?_cons_of_neg (by simp [hye])]
      exact findElem_loop e h0 R (P ++ [y]) fuel (by simpa using hc) (by simpa using hfuel)

/-- `find_elem` returns the first element of the bucket equal to `e`, or `NULL`. -/
theorem findElem_eq {l : List Nat} (hL : Linked h bucket l) (e : Nat) :
    findElem h H bucket e = .ok ((l.find? fun x => equal H.less x e).getD 0) := by
  rw [findElem, listBegin_eq hL.chain, Trace.ok_bind]
  exact findElem_loop e hL.ne_zero l [bucket] (2 ^ 32) hL.chain
    (by have := hL.length_le; omega)

end Find

end Pintos
