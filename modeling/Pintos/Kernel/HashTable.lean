import Pintos.Kernel.Hash
import Pintos.Lib.KeyedSet

/-!
The representation invariant of a hash table of `lib/kernel/hash.c` and what the helpers of
`hash.c` do to it. `Table h H B` says that the table `H` holds the buckets `B` under the links
`h`: the `bucket_cnt` buckets, one every 16 bytes from `buckets`, are well-formed lists that
share no cell (`Lists`); `bucket_cnt` is a power of two of at least four; each element sits in
the bucket its hash picks (`Placed`); `elem_cnt` counts the elements; and no two of them are
equal under `less` (`KeyedSet.Keyed`). The hash and `less` of a table are `Consistent`: being
equal is an equivalence, and equal elements hash equally.

* `Table.findElem_eq`: `find_elem` in the bucket of a key finds the member of its class among
  all the elements of the table;
* `Table.insertElem`, `Table.removeElem`: `insert_elem` of a fresh element that has no equal,
  and `remove_elem` of an element, keep the invariant;
* `Table.rehash`: `rehash`, whether `malloc` gives it a block apart from the table or `NULL`,
  keeps the invariant and the elements, and leaves either the old bucket count or the one it
  aims at;
* `Table.hashClear`: `hash_clear` empties every bucket and hands the elements, bucket by
  bucket, to the destructor.
-/

namespace Pintos

open Links

section Slots

/-- The `struct list`s of an array at `b`, one every 16 bytes, holding `B`. -/
def slots (b : Nat) : List (List Nat) → List (Nat × List Nat)
  | [] => []
  | l :: B => (b, l) :: slots (b + 16) B

@[simp] theorem slots_nil (b : Nat) : slots b [] = [] := rfl

@[simp] theorem slots_cons (b : Nat) (l : List Nat) (B : List (List Nat)) :
    slots b (l :: B) = (b, l) :: slots (b + 16) B := rfl

theorem slots_append (b : Nat) (B C : List (List Nat)) :
    slots b (B ++ C) = slots b B ++ slots (b + 16 * B.length) C := by
  induction B generalizing b with
  | nil => simp
  | cons l B ih =>
    rw [List.cons_append, slots_cons, slots_cons, ih, List.length_cons, List.cons_append]
    congr 3
    omega

theorem mem_slots {b : Nat} {B : List (List Nat)} {p : Nat × List Nat} :
    p ∈ slots b B ↔ ∃ i, ∃ hi : i < B.length, p = (b + 16 * i, B[i]) := by
  induction B generalizing b with
  | nil => simp
  | cons l B ih =>
    rw [slots_cons, List.mem_cons, ih]
    constructor
    · rintro (rfl | ⟨i, hi, rfl⟩)
      · exact ⟨0, by simp, by simp⟩
      · exact ⟨i + 1, by simpa using hi, by simp; omega⟩
    · rintro ⟨i, hi, rfl⟩
      cases i with
      | zero => exact .inl (by simp)
      | succ i => exact .inr ⟨i, by simpa using hi, by simp; omega⟩

/-- The array with bucket `i` set to `l`, that bucket apart from the others. -/
theorem slots_set {b i : Nat} {B : List (List Nat)} (hi : i < B.length) (l : List Nat) :
    slots b (B.set i l) =
      slots b (B.take i) ++ (b + 16 * i, l) :: slots (b + 16 * (i + 1)) (B.drop (i + 1)) := by
  rw [List.set_eq_take_append_cons_drop, if_pos hi, slots_append, slots_cons,
    List.length_take, Nat.min_eq_left hi.le]
  congr 3

/-- Bucket `i` apart from the others. -/
theorem slots_split {b i : Nat} {B : List (List Nat)} (hi : i < B.length) :
    slots b B =
      slots b (B.take i) ++ (b + 16 * i, B[i]) :: slots (b + 16 * (i + 1)) (B.drop (i + 1)) := by
  rw [← slots_set hi, List.set_getElem_self]

theorem flatten_set {i : Nat} {B : List (List Nat)} (hi : i < B.length) (l : List Nat) :
    (B.set i l).flatten = (B.take i).flatten ++ l ++ (B.drop (i + 1)).flatten := by
  rw [List.set_eq_take_append_cons_drop, if_pos hi]
  simp

theorem flatten_split {i : Nat} {B : List (List Nat)} (hi : i < B.length) :
    B.flatten = (B.take i).flatten ++ B[i] ++ (B.drop (i + 1)).flatten := by
  rw [← flatten_set hi, List.set_getElem_self]

/-- A cell pushed onto a bucket joins the elements. -/
theorem flatten_set_cons {i : Nat} {B : List (List Nat)} (hi : i < B.length) (x : Nat) :
    (B.set i (x :: B[i])).flatten.Perm (x :: B.flatten) := by
  rw [flatten_set hi, flatten_split hi, List.append_assoc, List.append_assoc, List.cons_append]
  exact List.perm_middle

/-- An element taken out of a bucket leaves the others. -/
theorem flatten_set_remove {i : Nat} {B : List (List Nat)} (hi : i < B.length) {A C : List Nat}
    {x : Nat} (hx : B[i] = A ++ x :: C) :
    B.flatten.Perm (x :: (B.set i (A ++ C)).flatten) := by
  rw [flatten_set hi, flatten_split hi, hx]
  have hm : ((B.take i).flatten ++ A ++ x :: (C ++ (B.drop (i + 1)).flatten)).Perm
      (x :: ((B.take i).flatten ++ A ++ (C ++ (B.drop (i + 1)).flatten))) := List.perm_middle
  simpa using hm

theorem flatten_set_remove_sublist {i : Nat} {B : List (List Nat)} (hi : i < B.length)
    {A C : List Nat} {x : Nat} (hx : B[i] = A ++ x :: C) :
    (B.set i (A ++ C)).flatten.Sublist B.flatten := by
  rw [flatten_set hi, flatten_split hi, hx]
  exact (((List.sublist_cons_self x C).append_left A).append_left _).append_right _

theorem mem_flatten_iff {B : List (List Nat)} {x : Nat} :
    x ∈ B.flatten ↔ ∃ i, ∃ hi : i < B.length, x ∈ B[i] := by
  rw [List.mem_flatten]
  constructor
  · rintro ⟨l, hl, hx⟩
    obtain ⟨i, hi, rfl⟩ := List.getElem_of_mem hl
    exact ⟨i, hi, hx⟩
  · rintro ⟨i, hi, hx⟩
    exact ⟨B[i], List.getElem_mem hi, hx⟩

/-- A cell apart from an array's lists: no element, and no head or tail of a bucket. -/
theorem fresh_slots {b x : Nat} {B : List (List Nat)} :
    Fresh (slots b B) x ↔
      x ∉ B.flatten ∧ ∀ k < B.length, x ≠ b + 16 * k ∧ x ≠ b + 16 * k + 8 := by
  constructor
  · intro hf
    refine ⟨fun hx => ?_, fun k hk => ?_⟩
    · obtain ⟨i, hi, hxi⟩ := mem_flatten_iff.1 hx
      exact hf _ (mem_slots.2 ⟨i, hi, rfl⟩) (by simp [hxi])
    · have := hf _ (mem_slots.2 ⟨k, hk, rfl⟩)
      simp only [mem_listCells, not_or] at this
      exact ⟨this.1, this.2.2⟩
  · rintro ⟨hx, hk⟩ p hp
    obtain ⟨i, hi, rfl⟩ := mem_slots.1 hp
    simp only [mem_listCells, not_or]
    exact ⟨(hk i hi).1, fun hxi => hx (mem_flatten_iff.2 ⟨i, hi, hxi⟩), (hk i hi).2⟩

end Slots

section Invariant

/-- `hash` and `less` as `hash.h` asks of a table: being equal under `less` is an
equivalence, as for a strict weak order, and equal elements hash equally. -/
structure Consistent (hash : Nat → UInt32) (less : Nat → Nat → Bool) : Prop where
  equiv : Equivalence fun a b => equal less a b = true
  hash_eq : ∀ a b, equal less a b = true → hash a = hash b

/-- Each element of bucket `i` hashes to `i`. -/
def Placed (H : Hash) (B : List (List Nat)) : Prop :=
  ∀ i (hi : i < B.length), ∀ x ∈ B[i], bucketIdx H x = i

/-- The table `H` holding the buckets `B` under the links `h`. -/
structure Table (h : Links) (H : Hash) (B : List (List Nat)) : Prop where
  lists : Lists h (slots H.buckets B)
  length : B.length = H.bucketCnt
  pow : H.bucketCnt.isPowerOfTwo
  four_le : 4 ≤ H.bucketCnt
  placed : Placed H B
  count : H.elemCnt = B.flatten.length
  keyed : KeyedSet.Keyed (equal H.less) B.flatten

/-- `x` is no cell of the table `H` holding `S`: not an element, and not the head or the tail
of a bucket. -/
def Avoids (H : Hash) (S : List Nat) (x : Nat) : Prop :=
  x ∉ S ∧ ∀ k < H.bucketCnt, x ≠ H.buckets + 16 * k ∧ x ≠ H.buckets + 16 * k + 8

/-- `malloc` returns, for an array of `n` buckets, `NULL` or a block below `2 ^ 32` none of
whose cells the table `H` holding `S` uses. -/
def MallocOk (malloc : Nat → Nat) (H : Hash) (S : List Nat) : Prop :=
  ∀ n, malloc (16 * n) ≠ 0 → malloc (16 * n) + 16 * n ≤ 2 ^ 32 ∧
    ∀ k < n, Avoids H S (malloc (16 * n) + 16 * k) ∧ Avoids H S (malloc (16 * n) + 16 * k + 8)

/-- A strict weak order whose equal elements hash equally is consistent. -/
theorem Consistent.of_strictWeakOrder {hash : Nat → UInt32} {less : Nat → Nat → Bool}
    [IsStrictWeakOrder Nat fun a b => less a b = true]
    (hh : ∀ a b, equal less a b = true → hash a = hash b) : Consistent hash less := by
  refine ⟨⟨fun a => ?_, fun {a b} hab => ?_, fun {a b c} hab hbc => ?_⟩, hh⟩
  · have := @Std.Irrefl.irrefl _ (fun a b => less a b = true) _ a
    simp [equal, this]
  · simp only [equal, Bool.and_eq_true, Bool.not_eq_true'] at hab ⊢
    exact ⟨hab.2, hab.1⟩
  · simp only [equal, Bool.and_eq_true, Bool.not_eq_true'] at hab hbc ⊢
    have := @IsStrictWeakOrder.incomp_trans _ (fun a b => less a b = true) _ a b c
      ⟨by simp [hab.1], by simp [hab.2]⟩ ⟨by simp [hbc.1], by simp [hbc.2]⟩
    simpa using this

/-- Equal elements fall in one bucket. -/
theorem Consistent.bucketIdx_eq {H : Hash} (hC : Consistent H.hash H.less) {a b : Nat}
    (hab : equal H.less a b = true) : bucketIdx H a = bucketIdx H b := by
  simp [bucketIdx, hC.hash_eq a b hab]

/-- A table whose element count alone changed. -/
theorem placed_elemCnt {H : Hash} {B : List (List Nat)} (n : Nat) :
    Placed { H with elemCnt := n } B ↔ Placed H B := Iff.rfl

/-- A cell pushed onto the bucket it hashes to keeps every element in its bucket. -/
theorem Placed.set_cons {H : Hash} {B : List (List Nat)} (hP : Placed H B) {j : Nat}
    (hj : j < B.length) {x : Nat} (hx : bucketIdx H x = j) : Placed H (B.set j (x :: B[j])) := by
  intro i hi y hy
  rw [List.getElem_set] at hy
  split at hy
  · subst i
    rcases List.mem_cons.1 hy with rfl | hy
    · exact hx
    · exact hP j hj y hy
  · exact hP i (by simpa using hi) y hy

/-- Taking an element out of a bucket keeps every element in its bucket. -/
theorem Placed.set_remove {H : Hash} {B : List (List Nat)} (hP : Placed H B) {j : Nat}
    (hj : j < B.length) {A C : List Nat} {x : Nat} (hx : B[j] = A ++ x :: C) :
    Placed H (B.set j (A ++ C)) := by
  intro i hi y hy
  rw [List.getElem_set] at hy
  split at hy
  · subst i
    exact hP j hj y (by rw [hx]; simp only [List.mem_append, List.mem_cons] at hy ⊢; tauto)
  · exact hP i (by simpa using hi) y hy

end Invariant

namespace Table

variable {h : Links} {H : Hash} {B : List (List Nat)}

theorem bucket (hT : Table h H B) {i : Nat} (hi : i < B.length) :
    Linked h (H.buckets + 16 * i) B[i] :=
  hT.lists.linked _ (mem_slots.2 ⟨i, hi, rfl⟩)

theorem fresh_iff (hT : Table h H B) {x : Nat} :
    Fresh (slots H.buckets B) x ↔ Avoids H B.flatten x := by
  rw [fresh_slots, hT.length]
  rfl

theorem mem_ne_zero (hT : Table h H B) {x : Nat} (hx : x ∈ B.flatten) :
    x ≠ 0 ∧ x < 2 ^ 32 := by
  obtain ⟨i, hi, hxi⟩ := mem_flatten_iff.1 hx
  have hL := hT.bucket hi
  exact ⟨hL.chain.ne_zero_of_mem (by simp [hxi]), hL.lt x (by simp [hxi])⟩

theorem nodup (hT : Table h H B) (hC : Consistent H.hash H.less) : B.flatten.Nodup :=
  hT.keyed.nodup hC.equiv

/-- There are fewer than `2 ^ 32` elements: they are distinct, not `NULL` and below
`2 ^ 32`. -/
theorem length_lt (hT : Table h H B) (hC : Consistent H.hash H.less) :
    B.flatten.length < 2 ^ 32 := by
  have hnd : (0 :: B.flatten).Nodup :=
    List.nodup_cons.2 ⟨fun h0 => (hT.mem_ne_zero h0).1 rfl, hT.nodup hC⟩
  have := length_le_of_lt hnd fun x hx => by
    rcases List.mem_cons.1 hx with rfl | hx
    · exact Nat.two_pow_pos 32
    · exact (hT.mem_ne_zero hx).2
  simp only [List.length_cons] at this
  omega

/-- The array fits below `2 ^ 32`. -/
theorem buckets_le (hT : Table h H B) : H.buckets + 16 * H.bucketCnt ≤ 2 ^ 32 + 8 := by
  have hk : H.bucketCnt - 1 < B.length := by have := hT.four_le; rw [hT.length]; omega
  have := (hT.bucket hk).lt (H.buckets + 16 * (H.bucketCnt - 1) + 8) (by simp)
  have := hT.four_le
  have hmul : 16 * H.bucketCnt = 16 * (H.bucketCnt - 1) + 16 := by omega
  omega

/-- The bucket of a key holds the member of its class, if the table has one. -/
theorem find_bucket (hT : Table h H B) (hC : Consistent H.hash H.less) {k : Nat} (hk : k < B.length)
    {e : Nat} (hke : bucketIdx H e = k) :
    KeyedSet.find (equal H.less) B[k] e = KeyedSet.find (equal H.less) B.flatten e := by
  have hsub : B[k].Sublist B.flatten := List.sublist_flatten_of_mem (List.getElem_mem hk)
  cases hf : KeyedSet.find (equal H.less) B.flatten e with
  | none => exact KeyedSet.find_eq_none.2 fun x hx => KeyedSet.find_eq_none.1 hf x (hsub.subset hx)
  | some x =>
    obtain ⟨hx, hxe⟩ := KeyedSet.find_mem hf
    obtain ⟨j, hj, hxj⟩ := mem_flatten_iff.1 hx
    -- `x` hashes as `e` does, so it sits in the bucket of `e`
    have hjk : j = k := by rw [← hT.placed j hj x hxj, hC.bucketIdx_eq hxe, hke]
    subst hjk
    exact (KeyedSet.find_eq_some hC.equiv (hT.keyed.sublist hsub)).2 ⟨hxj, hxe⟩

/-- `find_elem (h, find_bucket (h, e), e)` is the member of the class of `e`, or `NULL`. -/
theorem findElem_eq (hT : Table h H B) (hC : Consistent H.hash H.less) (e : Nat) :
    findElem h H (findBucket H e) e =
      .ok ((KeyedSet.find (equal H.less) B.flatten e).getD 0) := by
  have hk : bucketIdx H e < B.length := hT.length ▸ bucketIdx_lt hT.pow e
  rw [findBucket, Pintos.findElem_eq (hT.bucket hk) e, ← hT.find_bucket hC hk rfl]
  rfl

/-- `insert_elem` of a fresh element that has no equal in the table. -/
theorem insertElem (hT : Table h H B) (hC : Consistent H.hash H.less) {e : Nat}
    (he : Avoids H B.flatten e) (he0 : e ≠ 0) (hlt : e < 2 ^ 32)
    (hnone : KeyedSet.find (equal H.less) B.flatten e = none) :
    ∃ h' B', Pintos.insertElem h H (findBucket H e) e =
        .ok (h', { H with elemCnt := H.elemCnt + 1 }) ∧
      Table h' { H with elemCnt := H.elemCnt + 1 } B' ∧ B'.flatten.Perm (e :: B.flatten) := by
  have hk : bucketIdx H e < B.length := hT.length ▸ bucketIdx_lt hT.pow e
  have hF := hT.lists
  rw [slots_split hk] at hF
  have hfresh := hT.fresh_iff.2 he
  rw [slots_split hk] at hfresh
  obtain ⟨hpush, hF'⟩ := hF.pushFront hfresh he0 hlt
  have hperm := flatten_set_cons hk e
  refine ⟨h.insert (B[bucketIdx H e].headD (H.buckets + 16 * bucketIdx H e + 8)) e,
    B.set (bucketIdx H e) (e :: B[bucketIdx H e]), ?_, ⟨?_, by simpa using hT.length, hT.pow,
    hT.four_le, hT.placed.set_cons hk rfl, ?_, ?_⟩, hperm⟩
  · simp only [Pintos.insertElem, findBucket]
    rw [hpush]
    rfl
  · rw [slots_set hk]
    exact hF'
  · simp [hperm.length_eq, hT.count]
  · exact (KeyedSet.keyed_cons hC.equiv hT.keyed hnone).perm hC.equiv hperm.symm

/-- `remove_elem` of an element of bucket `k`; the element is then apart from the table. -/
theorem removeElem (hT : Table h H B) {k : Nat} (hk : k < B.length) {A C : List Nat} {x : Nat}
    (hx : B[k] = A ++ x :: C) :
    Pintos.removeElem h H x = .ok (h.unlink x, { H with elemCnt := H.elemCnt - 1 }) ∧
      Table (h.unlink x) { H with elemCnt := H.elemCnt - 1 } (B.set k (A ++ C)) ∧
      B.flatten.Perm (x :: (B.set k (A ++ C)).flatten) ∧
      Avoids H (B.set k (A ++ C)).flatten x := by
  have hF := hT.lists
  rw [slots_split hk, hx] at hF
  obtain ⟨hrem, hF'⟩ := hF.remove
  have hfresh := hF.fresh_of_remove
  rw [← slots_set hk] at hF' hfresh
  have hperm := flatten_set_remove hk hx
  have hT' : Table (h.unlink x) { H with elemCnt := H.elemCnt - 1 } (B.set k (A ++ C)) :=
    ⟨hF', by simpa using hT.length, hT.pow, hT.four_le, hT.placed.set_remove hk hx,
      by simp [hT.count, hperm.length_eq], hT.keyed.sublist (flatten_set_remove_sublist hk hx)⟩
  refine ⟨?_, hT', hperm, ?_⟩
  · simp [Pintos.removeElem, hrem]
  · have := (fresh_slots.1 hfresh)
    refine ⟨this.1, fun j hj => this.2 j (by simpa [hT.length] using hj)⟩

/-- `remove_elem` of any element of the table. -/
theorem removeElem_mem (hT : Table h H B) {x : Nat} (hx : x ∈ B.flatten) :
    ∃ B', Pintos.removeElem h H x = .ok (h.unlink x, { H with elemCnt := H.elemCnt - 1 }) ∧
      Table (h.unlink x) { H with elemCnt := H.elemCnt - 1 } B' ∧
      B'.flatten.Perm (B.flatten.erase x) ∧ Avoids H B'.flatten x := by
  obtain ⟨k, hk, hxk⟩ := mem_flatten_iff.1 hx
  obtain ⟨A, C, hAC⟩ := List.append_of_mem hxk
  obtain ⟨hrem, hT', hperm, hav⟩ := hT.removeElem hk hAC
  refine ⟨_, hrem, hT', ?_, hav⟩
  simpa using (hperm.erase x).symm

end Table

section Rehash

variable {H' : Hash}

/-- `list_init` of bucket `i` of a new array at `nb` whose cells are apart from `F`. -/
theorem Lists.initSlot {h : Links} {F : List (Nat × List Nat)} {nb nc i : Nat}
    (hF : Lists h (F ++ slots nb (List.replicate i [])))
    (hfresh : ∀ k < nc, Fresh F (nb + 16 * k) ∧ Fresh F (nb + 16 * k + 8))
    (hnb : nb ≠ 0) (hle : nb + 16 * nc ≤ 2 ^ 32) (hi : i < nc) :
    ∃ h', listInit h (nb + 16 * i) = .ok h' ∧
      Lists h' (F ++ slots nb (List.replicate (i + 1) [])) := by
  -- the two cells of the new bucket are apart from `F` and from the buckets before it
  have hnew : ∀ c, c = nb + 16 * i ∨ c = nb + 16 * i + 8 →
      Fresh (F ++ slots nb (List.replicate i [])) c := by
    intro c hc
    refine fresh_append.2 ⟨?_, fresh_slots.2 ⟨by simp, fun k hk => ?_⟩⟩
    · rcases hc with rfl | rfl
      · exact (hfresh i hi).1
      · exact (hfresh i hi).2
    · simp only [List.length_replicate] at hk
      omega
  obtain ⟨h', hinit, hF'⟩ := hF.init (hnew _ (.inl rfl)) (hnew _ (.inr rfl)) (by omega)
    (by omega)
  refine ⟨h', hinit, ?_⟩
  rw [List.replicate_succ', slots_append, ← List.append_assoc]
  simpa using hF'

/-- The loop of `rehash` that initialises the new buckets from `i` on. Induction on the
buckets left. -/
theorem initBuckets_loop {F : List (Nat × List Nat)} {nb nc : Nat}
    (hfresh : ∀ k < nc, Fresh F (nb + 16 * k) ∧ Fresh F (nb + 16 * k + 8))
    (hnb : nb ≠ 0) (hle : nb + 16 * nc ≤ 2 ^ 32) :
    ∀ (j i : Nat) (h : Links) (fuel : Nat), i + j = nc → j < fuel →
      Lists h (F ++ slots nb (List.replicate i [])) →
      ∃ h', Loop.run (initBucketsRound nb nc) (fun _ => throw .diverge) fuel (h, i) = .ok h' ∧
        Lists h' (F ++ slots nb (List.replicate nc []))
  | _, _, _, 0, _, hfuel, _ => absurd hfuel (Nat.not_lt_zero _)
  | 0, i, h, fuel + 1, hij, _, hF => by
    refine ⟨h, Loop.run_succ_of_stop ?_, by simpa [← hij] using hF⟩
    simp [initBucketsRound, show ¬ i < nc by omega]
  | j + 1, i, h, fuel + 1, hij, hfuel, hF => by
    obtain ⟨h', hinit, hF'⟩ := hF.initSlot hfresh hnb hle (show i < nc by omega)
    have hround : initBucketsRound nb nc (h, i) = .ok (.inr (h', i + 1)) := by
      simp [initBucketsRound, show i < nc by omega, hinit]
    rw [Loop.run_succ_of_next hround]
    exact initBuckets_loop hfresh hnb hle j (i + 1) h' fuel (by omega) (by omega) hF'

/-- The inner loop of `rehash` over an old bucket at `a` holding `r`: each element moved to
the front of its bucket in the new array of `H'`. Induction on `r`. -/
theorem moveElem_loop (hpow : H'.bucketCnt.isPowerOfTwo) (G₁ G₂ : List (Nat × List Nat))
    (a : Nat) : ∀ (r : List Nat) (N : List (List Nat)) (h : Links) (fuel : Nat),
      Lists h (G₁ ++ (a, r) :: G₂ ++ slots H'.buckets N) → N.length = H'.bucketCnt →
      Placed H' N → r.length < fuel →
      ∃ h' N', Loop.run (moveElemRound H' a) (fun _ => throw .diverge) fuel
          (h, r.headD (a + 8)) = .ok h' ∧
        Lists h' (G₁ ++ (a, []) :: G₂ ++ slots H'.buckets N') ∧ N'.length = N.length ∧
        Placed H' N' ∧ N'.flatten.Perm (r ++ N.flatten)
  | _, _, _, 0, _, _, _, hfuel => absurd hfuel (Nat.not_lt_zero _)
  | [], N, h, fuel + 1, hF, _, hP, _ => by
    have ha : a ≠ 0 := (hF.linked (a, []) (by simp)).ne_zero
    refine ⟨h, N, Loop.run_succ_of_stop ?_, hF, rfl, hP, by simp⟩
    simp [moveElemRound, listEnd_of_ne_zero ha]
  | x :: r, N, h, fuel + 1, hF, hN, hP, hfuel => by
    have hF₁ : Lists h (G₁ ++ (a, [] ++ x :: r) :: (G₂ ++ slots H'.buckets N)) := by
      simpa using hF
    have hL : Linked h a (x :: r) := hF.linked (a, x :: r) (by simp)
    have ha : a ≠ 0 := hL.ne_zero
    have hxt : x ≠ a + 8 := fun hx => hL.tail_not_mem (hx ▸ List.mem_cons_self)
    have hx0 : x ≠ 0 := hL.chain.ne_zero_of_mem (by simp)
    have hxlt : x < 2 ^ 32 := hL.lt x (by simp)
    have hnext : listNext h x = .ok (r.headD (a + 8)) :=
      Chain.listNext_headD (P := [a]) (by simpa using hL.chain)
    obtain ⟨hrem, hF₂⟩ := hF₁.remove
    have hfresh := hF₁.fresh_of_remove
    -- the bucket of `x` in the new array, apart from the rest of the family
    obtain ⟨j, hj⟩ : ∃ j, bucketIdx H' x = j := ⟨_, rfl⟩
    have hjN : j < N.length := hN ▸ hj ▸ bucketIdx_lt hpow x
    have hsplit : G₁ ++ (a, [] ++ r) :: (G₂ ++ slots H'.buckets N) =
        (G₁ ++ (a, r) :: G₂ ++ slots H'.buckets (N.take j)) ++
          (H'.buckets + 16 * j, N[j]) :: slots (H'.buckets + 16 * (j + 1)) (N.drop (j + 1)) := by
      rw [slots_split hjN]
      simp
    rw [hsplit] at hF₂ hfresh
    obtain ⟨hpush, hF₃⟩ := hF₂.pushFront hfresh hx0 hxlt
    have hround : moveElemRound H' a (h, x) = .ok (.inr
        ((h.unlink x).insert (N[j].headD (H'.buckets + 16 * j + 8)) x, r.headD (a + 8))) := by
      have hfb : findBucket H' x = H'.buckets + 16 * j := by rw [findBucket, hj]
      simp only [moveElemRound, listEnd_of_ne_zero ha, Trace.ok_bind, hxt, if_false, hfb,
        hnext, hrem, hpush]
      rfl
    have hF₄ : Lists ((h.unlink x).insert (N[j].headD (H'.buckets + 16 * j + 8)) x)
        (G₁ ++ (a, r) :: G₂ ++ slots H'.buckets (N.set j (x :: N[j]))) := by
      rw [slots_set hjN]
      simpa using hF₃
    obtain ⟨h', N', hrun, hF', hlen, hP', hperm⟩ :=
      moveElem_loop hpow G₁ G₂ a r _ _ fuel hF₄
      (by simpa using hN) (hP.set_cons hjN hj) (by simpa using hfuel)
    refine ⟨h', N', ?_, hF', by simpa using hlen, hP', ?_⟩
    · rw [List.headD_cons, Loop.run_succ_of_next hround]
      exact hrun
    · -- `x` went into bucket `j`, the rest of `r` after it
      exact hperm.trans (((flatten_set_cons hjN x).append_left r).trans List.perm_middle)

/-- The outer loop of `rehash` over the old buckets from `i` on, which hold `R`, those
before `i` already emptied. Induction on `R`. -/
theorem moveBuckets_loop (hpow : H'.bucketCnt.isPowerOfTwo) (ob oc : Nat) :
    ∀ (R : List (List Nat)) (i : Nat) (N : List (List Nat)) (h : Links) (fuel : Nat),
      i + R.length = oc → R.length < fuel →
      Lists h (slots ob (List.replicate i [] ++ R) ++ slots H'.buckets N) →
      N.length = H'.bucketCnt → Placed H' N →
      ∃ h' N', Loop.run (moveBucketsRound H' ob oc) (fun _ => throw .diverge) fuel (h, i) =
          .ok h' ∧
        Lists h' (slots ob (List.replicate oc []) ++ slots H'.buckets N') ∧
        N'.length = N.length ∧ Placed H' N' ∧ N'.flatten.Perm (R.flatten ++ N.flatten)
  | _, _, _, _, 0, _, hfuel, _, _, _ => absurd hfuel (Nat.not_lt_zero _)
  | [], i, N, h, fuel + 1, hi, _, hF, _, hP => by
    simp only [List.length_nil, Nat.add_zero] at hi
    refine ⟨h, N, Loop.run_succ_of_stop ?_, by simpa [← hi] using hF, rfl, hP, by simp⟩
    simp [moveBucketsRound, hi]
  | l :: R, i, N, h, fuel + 1, hi, hfuel, hF, hN, hP => by
    simp only [List.length_cons] at hi hfuel
    have hsplit : slots ob (List.replicate i [] ++ l :: R) ++ slots H'.buckets N =
        slots ob (List.replicate i []) ++ (ob + 16 * i, l) ::
          slots (ob + 16 * i + 16) R ++ slots H'.buckets N := by
      rw [slots_append]
      simp
    rw [hsplit] at hF
    have hL : Linked h (ob + 16 * i) l := hF.linked (ob + 16 * i, l) (by simp)
    obtain ⟨h₁, N₁, hrun, hF₁, hlen, hP₁, hperm⟩ :=
      moveElem_loop hpow (slots ob (List.replicate i [])) (slots (ob + 16 * i + 16) R)
        (ob + 16 * i) l N h (2 ^ 32) hF hN hP (by have := hL.length_le; omega)
    have hround : moveBucketsRound H' ob oc (h, i) = .ok (.inr (h₁, i + 1)) := by
      simp only [moveBucketsRound, show i < oc by omega, if_true, listBegin_eq hL.chain,
        Trace.ok_bind, hrun]
      rfl
    have hF₂ :
        Lists h₁ (slots ob (List.replicate (i + 1) [] ++ R) ++ slots H'.buckets N₁) := by
      rw [List.replicate_succ', List.append_assoc, slots_append]
      simpa using hF₁
    obtain ⟨h₂, N₂, hrun₂, hF₃, hlen₂, hP₂, hperm₂⟩ :=
      moveBuckets_loop hpow ob oc R (i + 1)
      N₁ h₁ fuel (by omega) (by omega) hF₂ (by rw [hlen, hN]) hP₁
    refine ⟨h₂, N₂, by rw [Loop.run_succ_of_next hround]; exact hrun₂, hF₃,
      by rw [hlen₂, hlen], hP₂, ?_⟩
    -- the elements of bucket `i` went in before those of the buckets after it
    refine hperm₂.trans ((hperm.append_left R.flatten).trans ?_)
    rw [List.flatten_cons, ← List.append_assoc]
    exact List.perm_append_comm.append_right _

end Rehash

namespace Table

variable {h : Links} {H : Hash} {B : List (List Nat)}

/-- `rehash`, with `malloc` returning `NULL` or a block apart from the table, keeps the
invariant and the elements, and leaves the bucket count as it was or at the count it aims
at. -/
theorem rehash (hT : Table h H B) (hC : Consistent H.hash H.less) {malloc : Nat → Nat}
    (hm : MallocOk malloc H B.flatten) :
    ∃ h' H' B', Pintos.rehash h H malloc = .ok (h', H') ∧ Table h' H' B' ∧
      B'.flatten.Perm B.flatten ∧ H'.elemCnt = H.elemCnt ∧ H'.hash = H.hash ∧
      H'.less = H.less ∧
      (H'.bucketCnt = H.bucketCnt ∨ H'.bucketCnt = idealBucketCnt H.elemCnt) := by
  have hcnt := rehash_bucketCnt (hT.count ▸ hT.length_lt hC)
  by_cases hsame : idealBucketCnt H.elemCnt = H.bucketCnt
  · refine ⟨h, H, B, ?_, hT, List.Perm.refl _, rfl, rfl, rfl, .inl rfl⟩
    simp [Pintos.rehash, hcnt, hsame, -Nat.reducePow]
  by_cases h0 : malloc (16 * idealBucketCnt H.elemCnt) = 0
  · refine ⟨h, H, B, ?_, hT, List.Perm.refl _, rfl, rfl, rfl, .inl rfl⟩
    simp [Pintos.rehash, hcnt, hsame, h0, -Nat.reducePow]
  -- a new array of `idealBucketCnt` buckets apart from the table
  obtain ⟨hle, hav⟩ := hm _ h0
  have hfresh : ∀ k < idealBucketCnt H.elemCnt,
      Fresh (slots H.buckets B) (malloc (16 * idealBucketCnt H.elemCnt) + 16 * k) ∧
        Fresh (slots H.buckets B) (malloc (16 * idealBucketCnt H.elemCnt) + 16 * k + 8) :=
    fun k hk => ⟨hT.fresh_iff.2 (hav k hk).1, hT.fresh_iff.2 (hav k hk).2⟩
  obtain ⟨h₁, hinit, hF₁⟩ := initBuckets_loop hfresh h0 hle (idealBucketCnt H.elemCnt) 0 h
    (2 ^ 32) (by simp) (by omega) (by simpa using hT.lists)
  let H' : Hash :=
    { H with buckets := malloc (16 * idealBucketCnt H.elemCnt), bucketCnt := idealBucketCnt H.elemCnt }
  have hpow : H'.bucketCnt.isPowerOfTwo := idealBucketCnt_pow H.elemCnt
  have hbl := hT.buckets_le
  obtain ⟨h₂, N, hmove, hF₂, hlen, hP, hperm⟩ :=
    moveBuckets_loop hpow H.buckets H.bucketCnt B 0 (List.replicate (idealBucketCnt H.elemCnt) [])
      h₁ (2 ^ 32) (by simp [hT.length]) (by rw [hT.length]; omega) (by simpa using hF₁)
      (by simp [H']) (fun i hi x hx => by simp at hx)
  have hperm' : N.flatten.Perm B.flatten := by simpa using hperm
  refine ⟨h₂, H', N, ?_,
    ⟨hF₂.sublist (List.sublist_append_right _ _), by simpa using hlen, hpow,
    four_le_idealBucketCnt _, hP, by rw [hperm'.length_eq]; exact hT.count,
    hT.keyed.perm hC.equiv hperm'.symm⟩, hperm', rfl, rfl, rfl, .inr rfl⟩
  simp [Pintos.rehash, hcnt, hsame, h0, hinit, hmove, H', -Nat.reducePow]

end Table

section Clear

/-- The `while` loop of `hash_clear` over a bucket at `a` holding `r`: each element popped
and handed to `destructor`, first to last. Induction on `r`. -/
theorem clearBucket_loop (G₁ G₂ : List (Nat × List Nat)) (a : Nat) :
    ∀ (r : List Nat) (h : Links) (calls : List Nat) (fuel : Nat),
      Lists h (G₁ ++ (a, r) :: G₂) → r.length < fuel →
      ∃ h', Loop.run (clearBucketRound a) (fun _ => throw .diverge) fuel (h, calls) =
          .ok (h', calls ++ r) ∧ Lists h' (G₁ ++ (a, []) :: G₂)
  | _, _, _, 0, _, hfuel => absurd hfuel (Nat.not_lt_zero _)
  | [], h, calls, fuel + 1, hF, _ => by
    have hL : Linked h a [] := hF.middle.1
    refine ⟨h, Loop.run_succ_of_stop ?_, hF⟩
    simp [clearBucketRound, listEmpty_eq hL]
  | x :: r, h, calls, fuel + 1, hF, hfuel => by
    have hL : Linked h a (x :: r) := hF.middle.1
    have hF₁ : Lists h (G₁ ++ (a, [] ++ x :: r) :: G₂) := by simpa using hF
    obtain ⟨hpop, -⟩ := listPopFront_spec hL
    obtain ⟨-, hF₂⟩ := hF₁.remove
    have hround : clearBucketRound a (h, calls) = .ok (.inr (h.unlink x, calls ++ [x])) := by
      simp [clearBucketRound, listEmpty_eq hL, hpop]
    obtain ⟨h', hrun, hF'⟩ := clearBucket_loop G₁ G₂ a r (h.unlink x) (calls ++ [x]) fuel
      (by simpa using hF₂) (by simpa using hfuel)
    refine ⟨h', ?_, hF'⟩
    rw [Loop.run_succ_of_next hround, hrun]
    simp

/-- The `for` loop of `hash_clear` over the buckets from `i` on, which hold `R`, those before
`i` already emptied. Induction on `R`. -/
theorem hashClear_loop (H : Hash) (destructor : Nat) :
    ∀ (R : List (List Nat)) (i : Nat) (h : Links) (calls : List Nat) (fuel : Nat),
      i + R.length = H.bucketCnt → R.length < fuel →
      Lists h (slots H.buckets (List.replicate i [] ++ R)) →
      ∃ h', Loop.run (hashClearRound H destructor) (fun _ => throw .diverge) fuel (h, calls, i) =
          .ok (h', calls ++ if destructor ≠ 0 then R.flatten else []) ∧
        Lists h' (slots H.buckets (List.replicate H.bucketCnt []))
  | _, _, _, _, 0, _, hfuel, _ => absurd hfuel (Nat.not_lt_zero _)
  | [], i, h, calls, fuel + 1, hi, _, hF => by
    simp only [List.length_nil, Nat.add_zero] at hi
    refine ⟨h, Loop.run_succ_of_stop ?_, by simpa [← hi] using hF⟩
    simp [hashClearRound, hi]
  | l :: R, i, h, calls, fuel + 1, hi, hfuel, hF => by
    simp only [List.length_cons] at hi hfuel
    have hsplit : slots H.buckets (List.replicate i [] ++ l :: R) =
        slots H.buckets (List.replicate i []) ++ (H.buckets + 16 * i, l) ::
          slots (H.buckets + 16 * i + 16) R := by
      rw [slots_append]
      simp
    rw [hsplit] at hF
    have hL : Linked h (H.buckets + 16 * i) l := hF.middle.1
    -- the bucket popped into `destructor`, or left as it is, and then emptied by `list_init`
    obtain ⟨h₁, l₁, hround₁, hF₁⟩ : ∃ h₁ l₁,
        hashClearRound H destructor (h, calls, i) = (do
          let h ← listInit h₁ (H.buckets + 16 * i)
          return .inr (h, calls ++ (if destructor ≠ 0 then l else []), i + 1)) ∧
        Lists h₁ (slots H.buckets (List.replicate i []) ++ (H.buckets + 16 * i, l₁) ::
          slots (H.buckets + 16 * i + 16) R) := by
      by_cases hd : destructor ≠ 0
      · obtain ⟨h₁, hrun, hF₁⟩ := clearBucket_loop _ _ _ l h calls (2 ^ 32) hF
          (by have := hL.length_le; omega)
        refine ⟨h₁, [], ?_, hF₁⟩
        simp [hashClearRound, show i < H.bucketCnt by omega, hd, hrun, -Nat.reducePow]
      · refine ⟨h, l, ?_, hF⟩
        simp [hashClearRound, show i < H.bucketCnt by omega, hd]
    obtain ⟨h₂, hinit, hF₂⟩ := hF₁.reinit
    have hround : hashClearRound H destructor (h, calls, i) =
        .ok (.inr (h₂, calls ++ (if destructor ≠ 0 then l else []), i + 1)) := by
      rw [hround₁, hinit]
      rfl
    have hF₃ : Lists h₂ (slots H.buckets (List.replicate (i + 1) [] ++ R)) := by
      rw [List.replicate_succ', List.append_assoc, slots_append]
      simpa using hF₂
    obtain ⟨h₃, hrun, hF₄⟩ := hashClear_loop H destructor R (i + 1) h₂ _ fuel (by omega)
      (by omega) hF₃
    refine ⟨h₃, by rw [Loop.run_succ_of_next hround, hrun]; by_cases hd : destructor ≠ 0 <;>
      simp [hd], hF₄⟩

/-- The `for` loop of `hash_clear` with a `NULL` destructor over a new array whose cells are
fresh: `list_init` of each bucket. Induction on the buckets left. -/
theorem clearFresh_loop (H : Hash) (hb : H.buckets ≠ 0)
    (hle : H.buckets + 16 * H.bucketCnt ≤ 2 ^ 32) :
    ∀ (j i : Nat) (h : Links) (fuel : Nat), i + j = H.bucketCnt → j < fuel →
      Lists h (slots H.buckets (List.replicate i [])) →
      ∃ h', Loop.run (hashClearRound H 0) (fun _ => throw .diverge) fuel (h, [], i) =
          .ok (h', []) ∧ Lists h' (slots H.buckets (List.replicate H.bucketCnt []))
  | _, _, _, 0, _, hfuel, _ => absurd hfuel (Nat.not_lt_zero _)
  | 0, i, h, fuel + 1, hij, _, hF => by
    refine ⟨h, Loop.run_succ_of_stop ?_, by simpa [← hij] using hF⟩
    simp [hashClearRound, show ¬ i < H.bucketCnt by omega]
  | j + 1, i, h, fuel + 1, hij, hfuel, hF => by
    obtain ⟨h', hinit, hF'⟩ := Lists.initSlot (F := []) (by simpa using hF)
      (fun k _ => ⟨by simp [Fresh], by simp [Fresh]⟩) hb hle (show i < H.bucketCnt by omega)
    have hround : hashClearRound H 0 (h, [], i) = .ok (.inr (h', [], i + 1)) := by
      simp [hashClearRound, show i < H.bucketCnt by omega, hinit]
    rw [Loop.run_succ_of_next hround]
    exact clearFresh_loop H hb hle j (i + 1) h' fuel (by omega) (by omega) (by simpa using hF')

end Clear

namespace Table

variable {h : Links} {H : Hash} {B : List (List Nat)}

/-- A table whose buckets are all empty and which counts no element. -/
theorem empty (hF : Lists h (slots H.buckets (List.replicate H.bucketCnt [])))
    (hpow : H.bucketCnt.isPowerOfTwo) (h4 : 4 ≤ H.bucketCnt) (h0 : H.elemCnt = 0) :
    Table h H (List.replicate H.bucketCnt []) :=
  ⟨hF, by simp, hpow, h4, fun i hi x hx => by simp at hx, by simp [h0],
    by simp [KeyedSet.Keyed]⟩

/-- `hash_clear` empties every bucket, handing the elements to a non-`NULL` destructor
bucket by bucket. -/
theorem hashClear (hT : Table h H B) (destructor : Nat) :
    ∃ h', Pintos.hashClear h H destructor =
        .ok (h', { H with elemCnt := 0 }, if destructor ≠ 0 then B.flatten else []) ∧
      Table h' { H with elemCnt := 0 } (List.replicate H.bucketCnt []) := by
  obtain ⟨h', hrun, hF⟩ := hashClear_loop H destructor B 0 h [] (2 ^ 32) (by simp [hT.length])
    (by have := hT.buckets_le; rw [hT.length]; omega) (by simpa using hT.lists)
  refine ⟨h', ?_, empty hF hT.pow hT.four_le rfl⟩
  rw [Pintos.hashClear, hrun]
  simp

end Table

end Pintos
