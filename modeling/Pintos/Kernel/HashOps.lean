import Pintos.Kernel.HashTable

/-!
The public operations of `lib/kernel/hash.c` against what a hash table is for. `Holds h H S`
says that the table `H` holds the elements `S`, in some order, under the invariant `Table`;
the abstract table is the list `S` keyed by the equality of `less` (`KeyedSet`).

* `hashInit_spec`: `hash_init` with a block from `malloc` gives an empty table;
* `hashInsert_spec`, `hashReplace_spec`, `hashFind_spec`, `hashDelete_spec`: each operation
  returns what `KeyedSet.insert`, `replace`, `find` and `delete` return and leaves the table
  holding their set, with `malloc` giving `rehash` `NULL` or a block apart from the table;
* `hashClear_spec`, `hashApply_spec`, `hashDestroy_spec`: the destructor and the action are
  called once on each element;
* `hashSize_spec`: `elem_cnt` is the number of elements;
* `hashIterate_spec`: `hash_first` and then `hash_next` until it returns `NULL` visit each
  element once;
* `reachable_run`: a table reached from `hash_init` through valid calls (`Reachable`) holds
  the set the same calls leave on the abstract table, and each further valid call returns
  what the abstract table returns;
* `hash_table_implements_set`: the representation invariant of every reachable table, field
  by field, with the calls behaving as the set.
-/

namespace Pintos

open Links

section Apply

variable {h : Links} {bucket : Nat}

/-- The inner `for` loop of `hash_apply` over the rest `R` of a bucket. Induction on `R`. -/
theorem applyBucket_loop (h0 : bucket ≠ 0) : ∀ (R P calls : List Nat) (fuel : Nat),
    Chain h (P ++ R ++ [bucket + 8]) → R.length < fuel →
    Loop.run (applyBucketRound h bucket) (fun _ => throw .diverge) fuel
      (calls, R.headD (bucket + 8)) = .ok (calls ++ R)
  | _, _, _, 0, _, hfuel => absurd hfuel (Nat.not_lt_zero _)
  | [], P, calls, fuel + 1, _, _ =>
    Loop.run_succ_of_stop (by simp [applyBucketRound, listEnd_of_ne_zero h0])
  | y :: R, P, calls, fuel + 1, hc, hfuel => by
    have hy : y ≠ bucket + 8 := ne_of_nodup hc.nodup (A := P) (B := R) (C := []) (by simp)
    have hround : applyBucketRound h bucket (calls, y) =
        .ok (.inr (calls ++ [y], R.headD (bucket + 8))) := by
      simp [applyBucketRound, listEnd_of_ne_zero h0, hy, hc.listNext_headD]
    rw [List.headD_cons, Loop.run_succ_of_next hround,
      applyBucket_loop h0 R (P ++ [y]) (calls ++ [y]) fuel (by simpa using hc)
        (by simpa using hfuel)]
    simp

variable {H : Hash} {B : List (List Nat)}

/-- The outer `for` loop of `hash_apply` over the buckets from `i` on. Induction on the fuel,
which stays above the number of buckets left. -/
theorem hashApply_loop (hT : Table h H B) : ∀ (i : Nat) (calls : List Nat) (fuel : Nat),
    B.length - i < fuel →
    Loop.run (hashApplyRound h H) (fun _ => throw .diverge) fuel (calls, i) =
      .ok (calls ++ (B.drop i).flatten)
  | _, _, 0, hfuel => absurd hfuel (Nat.not_lt_zero _)
  | i, calls, fuel + 1, hfuel => by
    by_cases hi : i < B.length
    · have hL := hT.bucket hi
      have hround : hashApplyRound h H (calls, i) = .ok (.inr (calls ++ B[i], i + 1)) := by
        have hwalk := applyBucket_loop hL.ne_zero B[i] [H.buckets + 16 * i] calls (2 ^ 32)
          hL.chain (by have := hL.length_le; omega)
        rw [List.headD_eq_head?_getD] at hwalk
        simp [hashApplyRound, ← hT.length, hi, listBegin_eq hL.chain, hwalk, -Nat.reducePow]
      rw [Loop.run_succ_of_next hround, hashApply_loop hT (i + 1) _ fuel (by omega),
        List.drop_eq_getElem_cons hi, List.flatten_cons, List.append_assoc]
    · refine Loop.run_succ_of_stop ?_
      simp [hashApplyRound, ← hT.length, hi, List.drop_eq_nil_of_le (Nat.le_of_not_lt hi)]

/-- `hash_apply` calls `action` on every element, bucket by bucket. -/
theorem hashApply_eq (hT : Table h H B) {action : Nat} (ha : action ≠ 0) :
    hashApply h H action = .ok B.flatten := by
  rw [hashApply, if_neg ha,
    hashApply_loop hT 0 [] (2 ^ 32) (by have := hT.buckets_le; rw [hT.length]; omega)]
  simp

end Apply

section Holds

variable {malloc : Nat → Nat} {H H' : Hash} {S T : List Nat}

/-- A cell apart from a table is apart from one with the same array and fewer elements. -/
theorem Avoids.mono {x : Nat} (hx : Avoids H S x) (hb : H'.buckets = H.buckets)
    (hc : H'.bucketCnt = H.bucketCnt) (hT : T ⊆ S) : Avoids H' T x :=
  ⟨fun hm => hx.1 (hT hm), by rw [hb, hc]; exact hx.2⟩

theorem MallocOk.mono (hm : MallocOk malloc H S) (hb : H'.buckets = H.buckets)
    (hc : H'.bucketCnt = H.bucketCnt) (hT : T ⊆ S) : MallocOk malloc H' T := fun n hn =>
  ⟨(hm n hn).1, fun k hk =>
    ⟨((hm n hn).2 k hk).1.mono hb hc hT, ((hm n hn).2 k hk).2.mono hb hc hT⟩⟩

/-- The table `H` holds the elements `S`, in some order. -/
def Holds (h : Links) (H : Hash) (S : List Nat) : Prop :=
  ∃ B, Table h H B ∧ B.flatten.Perm S

/-- `hash_init` with a block from `malloc` gives an empty table; without, it fails. -/
theorem hashInit_spec (h : Links) (hash : Nat → UInt32) (less : Nat → Nat → Bool)
    (hm : malloc (16 * 4) ≠ 0 → malloc (16 * 4) + 16 * 4 ≤ 2 ^ 32) :
    ∃ h' H, hashInit h hash less malloc = .ok (h', H, malloc (16 * 4) != 0) ∧
      H.hash = hash ∧ H.less = less ∧ (malloc (16 * 4) ≠ 0 → Holds h' H []) := by
  by_cases hb : malloc (16 * 4) = 0
  · exact ⟨h, ⟨0, 4, malloc (16 * 4), hash, less⟩, by simp [hashInit, hb], rfl, rfl,
      fun hb' => absurd hb hb'⟩
  let H : Hash := { elemCnt := 0, bucketCnt := 4, buckets := malloc (16 * 4), hash, less }
  -- `hash_clear (h, NULL)` sets up the four buckets of the new block
  obtain ⟨h', hrun, hF⟩ := clearFresh_loop H hb (hm hb) 4 0 h (2 ^ 32) rfl (by decide)
    ⟨by simp, by simp⟩
  refine ⟨h', H, ?_, rfl, rfl,
    fun _ => ⟨_, Table.empty hF ⟨2, rfl⟩ le_rfl rfl, by simp⟩⟩
  simp [hashInit, hb, Pintos.hashClear, H, hrun, -Nat.reducePow]

variable {h : Links}

/-- `elem_cnt` is the number of elements. -/
theorem hashSize_spec (hS : Holds h H S) : hashSize H = S.length ∧ hashEmpty H = S.isEmpty := by
  obtain ⟨B, hT, hp⟩ := hS
  have hcnt : H.elemCnt = S.length := hT.count.trans hp.length_eq
  refine ⟨hcnt, ?_⟩
  cases S <;> simp [hashEmpty, hcnt]

namespace Table

variable {B : List (List Nat)}

/-- `find_elem` in the bucket of `e` gives the member of the class of `e` among the elements,
in whatever order they are taken. -/
theorem findElem_perm (hT : Table h H B) (hC : Consistent H.hash H.less)
    (hp : B.flatten.Perm S) (e : Nat) :
    findElem h H (findBucket H e) e = .ok ((KeyedSet.find (equal H.less) S e).getD 0) := by
  rw [hT.findElem_eq hC e, KeyedSet.find_perm hC.equiv hT.keyed hp]

/-- `rehash` of a table holding `U`, with `malloc` giving blocks apart from a table of the
same array holding `T ⊇ U`, leaves a table holding `U`. -/
theorem rehash_holds {U : List Nat} (hT : Table h H B) (hC : Consistent H.hash H.less)
    (hm : MallocOk malloc H' T) (hb : H.buckets = H'.buckets) (hc : H.bucketCnt = H'.bucketCnt)
    (hp : B.flatten.Perm U) (hU : U ⊆ T) :
    ∃ h' H'', Pintos.rehash h H malloc = .ok (h', H'') ∧ Holds h' H'' U ∧
      H''.hash = H.hash ∧ H''.less = H.less := by
  obtain ⟨h', H'', B', hre, hT', hp', -, hh, hl, -⟩ :=
    hT.rehash hC (hm.mono hb hc fun _ hx => hU (hp.subset hx))
  exact ⟨h', H'', hre, ⟨B', hT', hp'.trans hp⟩, hh, hl⟩

end Table

/-- `hash_find` returns the member of the class of `e`, or `NULL`. -/
theorem hashFind_spec (hS : Holds h H S) (hC : Consistent H.hash H.less) (e : Nat) :
    hashFind h H e = .ok ((KeyedSet.find (equal H.less) S e).getD 0) :=
  let ⟨_, hT, hp⟩ := hS
  hT.findElem_perm hC hp e

/-- `hash_insert` of a fresh element returns what `KeyedSet.insert` does and leaves the table
holding its set. -/
theorem hashInsert_spec (hS : Holds h H S) (hC : Consistent H.hash H.less) {new : Nat}
    (hnew : Avoids H S new) (h0 : new ≠ 0) (hlt : new < 2 ^ 32)
    (hm : MallocOk malloc H (new :: S)) :
    ∃ h' H', hashInsert h H new malloc =
        .ok (h', H', (KeyedSet.insert (equal H.less) S new).2.getD 0) ∧
      Holds h' H' (KeyedSet.insert (equal H.less) S new).1 ∧ H'.hash = H.hash ∧
      H'.less = H.less := by
  obtain ⟨B, hT, hp⟩ := hS
  have hfind := hT.findElem_perm hC hp new
  unfold KeyedSet.insert
  cases hf : KeyedSet.find (equal H.less) S new with
  | some x =>
    -- an equal element is there: nothing is inserted, but the table is rehashed
    have hx0 : x ≠ 0 := (hT.mem_ne_zero (hp.symm.subset (KeyedSet.find_mem hf).1)).1
    obtain ⟨h', H', hre, hS'⟩ := hT.rehash_holds hC hm rfl rfl hp (List.subset_cons_self _ _)
    exact ⟨h', H', by simp [hashInsert, hfind, hf, hx0, hre], hS'⟩
  | none =>
    have hnone : KeyedSet.find (equal H.less) B.flatten new = none := by
      rw [← KeyedSet.find_perm hC.equiv hT.keyed hp, hf]
    obtain ⟨h₁, B₁, hins, hT₁, hp₁⟩ :=
      hT.insertElem hC (hnew.mono rfl rfl hp.subset) h0 hlt hnone
    obtain ⟨h', H', hre, hS'⟩ :=
      hT₁.rehash_holds hC hm rfl rfl (hp₁.trans (hp.cons new)) (List.Subset.refl _)
    exact ⟨h', H', by simp [hashInsert, hfind, hf, hins, hre], hS'⟩

/-- `hash_replace` of a fresh element returns what `KeyedSet.replace` does and leaves the
table holding its set. -/
theorem hashReplace_spec (hS : Holds h H S) (hC : Consistent H.hash H.less) {new : Nat}
    (hnew : Avoids H S new) (h0 : new ≠ 0) (hlt : new < 2 ^ 32)
    (hm : MallocOk malloc H (new :: S)) :
    ∃ h' H', hashReplace h H new malloc =
        .ok (h', H', (KeyedSet.replace (equal H.less) S new).2.getD 0) ∧
      Holds h' H' (KeyedSet.replace (equal H.less) S new).1 ∧ H'.hash = H.hash ∧
      H'.less = H.less := by
  obtain ⟨B, hT, hp⟩ := hS
  have hfind := hT.findElem_perm hC hp new
  have hpf := KeyedSet.find_perm hC.equiv hT.keyed hp new
  unfold KeyedSet.replace
  cases hf : KeyedSet.find (equal H.less) S new with
  | some x =>
    -- the equal element is taken out, then `new` goes in
    have hfB : KeyedSet.find (equal H.less) B.flatten new = some x := by rw [← hpf, hf]
    have hxB : x ∈ B.flatten := (KeyedSet.find_mem hfB).1
    have hx0 : x ≠ 0 := (hT.mem_ne_zero hxB).1
    obtain ⟨B₁, hrem, hT₁, hp₁, -⟩ := hT.removeElem_mem hxB
    have hp₁' : B₁.flatten.Perm (S.erase x) := hp₁.trans (hp.erase x)
    have hnone : KeyedSet.find (equal H.less) B₁.flatten new = none := by
      rw [KeyedSet.find_perm hC.equiv (hT.keyed.sublist List.erase_sublist) hp₁.symm]
      exact KeyedSet.find_erase hC.equiv hT.keyed hfB
    have hsub : B₁.flatten ⊆ S := fun y hy => List.erase_subset (hp₁'.subset hy)
    obtain ⟨h₂, B₂, hins, hT₂, hp₂⟩ :=
      hT₁.insertElem hC (hnew.mono rfl rfl hsub) h0 hlt hnone
    obtain ⟨h', H', hre, hS'⟩ := hT₂.rehash_holds hC hm rfl rfl
      (hp₂.trans (hp₁'.cons new)) (List.cons_subset_cons _ List.erase_subset)
    rw [findBucket_elemCnt] at hins
    exact ⟨h', H', by simp [hashReplace, hfind, hf, hx0, hrem, hins, hre], hS'⟩
  | none =>
    obtain ⟨h₁, B₁, hins, hT₁, hp₁⟩ :=
      hT.insertElem hC (hnew.mono rfl rfl hp.subset) h0 hlt (by rw [← hpf, hf])
    obtain ⟨h', H', hre, hS'⟩ :=
      hT₁.rehash_holds hC hm rfl rfl (hp₁.trans (hp.cons new)) (List.Subset.refl _)
    exact ⟨h', H', by simp [hashReplace, hfind, hf, hins, hre], hS'⟩

/-- `hash_delete` returns what `KeyedSet.delete` does and leaves the table holding its set. -/
theorem hashDelete_spec (hS : Holds h H S) (hC : Consistent H.hash H.less) (e : Nat)
    (hm : MallocOk malloc H S) :
    ∃ h' H', hashDelete h H e malloc =
        .ok (h', H', (KeyedSet.delete (equal H.less) S e).2.getD 0) ∧
      Holds h' H' (KeyedSet.delete (equal H.less) S e).1 ∧ H'.hash = H.hash ∧
      H'.less = H.less := by
  obtain ⟨B, hT, hp⟩ := hS
  have hfind := hT.findElem_perm hC hp e
  unfold KeyedSet.delete
  cases hf : KeyedSet.find (equal H.less) S e with
  | some x =>
    have hxB : x ∈ B.flatten := hp.symm.subset (KeyedSet.find_mem hf).1
    have hx0 : x ≠ 0 := (hT.mem_ne_zero hxB).1
    obtain ⟨B₁, hrem, hT₁, hp₁, -⟩ := hT.removeElem_mem hxB
    obtain ⟨h', H', hre, hS'⟩ :=
      hT₁.rehash_holds hC hm rfl rfl (hp₁.trans (hp.erase x)) List.erase_subset
    exact ⟨h', H', by simp [hashDelete, hfind, hf, hx0, hrem, hre], hS'⟩
  | none => exact ⟨h, H, by simp [hashDelete, hfind, hf], ⟨B, hT, hp⟩, rfl, rfl⟩

/-- `hash_clear` empties the table and calls a non-`NULL` destructor once on each element. -/
theorem hashClear_spec (hS : Holds h H S) (destructor : Nat) :
    ∃ h' calls, hashClear h H destructor = .ok (h', { H with elemCnt := 0 }, calls) ∧
      calls.Perm (if destructor ≠ 0 then S else []) ∧ Holds h' { H with elemCnt := 0 } [] := by
  obtain ⟨B, hT, hp⟩ := hS
  obtain ⟨h', hclr, hT'⟩ := hT.hashClear destructor
  refine ⟨h', _, hclr, ?_, ⟨_, hT', by simp⟩⟩
  by_cases hd : destructor ≠ 0 <;> simp [hd, hp]

/-- `hash_apply` calls `action` once on each element. -/
theorem hashApply_spec (hS : Holds h H S) {action : Nat} (ha : action ≠ 0) :
    ∃ calls, hashApply h H action = .ok calls ∧ calls.Perm S :=
  let ⟨B, hT, hp⟩ := hS
  ⟨B.flatten, hashApply_eq hT ha, hp⟩

/-- `hash_destroy` calls a non-`NULL` destructor once on each element. -/
theorem hashDestroy_spec (hS : Holds h H S) (destructor : Nat) :
    ∃ h' calls, hashDestroy h H destructor = .ok (h', calls) ∧
      calls.Perm (if destructor ≠ 0 then S else []) := by
  by_cases hd : destructor ≠ 0
  · obtain ⟨h', calls, hclr, hp, -⟩ := hashClear_spec hS destructor
    exact ⟨h', calls, by simp [hashDestroy, hd, hclr], hp⟩
  · exact ⟨h, [], by simp [hashDestroy, hd], by simp [hd]⟩

end Holds

section Iterate

/-- The iterator `i` of the table `H` with the buckets `B` stands in bucket `j` at the cell
just before the part `R` of it, the buckets after `j` being `Rs`. -/
def IterAt (H : Hash) (B : List (List Nat)) (i : HashIterator) (R : List Nat)
    (Rs : List (List Nat)) : Prop :=
  i.hash = H ∧ ∃ j, ∃ hj : j < B.length, ∃ P, i.bucket = H.buckets + 16 * j ∧
    B.drop (j + 1) = Rs ∧ (H.buckets + 16 * j) :: B[j] = P ++ i.elem :: R

/-- The iterator `i` has the elements `l` still to visit. -/
def IterOn (H : Hash) (B : List (List Nat)) (i : HashIterator) (l : List Nat) : Prop :=
  ∃ R Rs, IterAt H B i R Rs ∧ R ++ Rs.flatten = l

/-- The iterator `i` is at the first of `l`, or at `NULL` when `l` is empty, and has the rest
of `l` still to visit. -/
def NextAt (H : Hash) (B : List (List Nat)) (i : HashIterator) : List Nat → Prop
  | [] => i.elem = 0
  | x :: l => i.elem = x ∧ IterOn H B i l

/-- `n` calls of `hash_next`, as a caller's loop `while (hash_next (&i))` makes them: the
iterator after them and what they return. -/
def hashNextN (h : Links) : HashIterator → Nat → Except Fault (HashIterator × List Nat)
  | i, 0 => pure (i, [])
  | i, n + 1 => do
    let (i, e) ← hashNext h i
    let (i, es) ← hashNextN h i n
    return (i, e :: es)

variable {h : Links} {H : Hash} {B : List (List Nat)}

/-- At an element of a bucket the loop of `hash_next` stops at once. -/
theorem hashNextRound_stop {i : HashIterator} (h0 : i.bucket ≠ 0)
    (he : i.elem ≠ i.bucket + 8) : hashNextRound h i = .ok (.inl i) := by
  simp [hashNextRound, listEnd_of_ne_zero h0, he]

/-- The loop of `hash_next` from the end of bucket `j`, over the buckets `Rs` after it, stops
at the first element of `Rs` or, past the last bucket, at `NULL`. Induction on `Rs`. -/
theorem hashNext_skip (hT : Table h H B) :
    ∀ (Rs : List (List Nat)) (i : HashIterator) (j fuel : Nat), i.hash = H →
      j < B.length → i.bucket = H.buckets + 16 * j → i.elem = i.bucket + 8 →
      B.drop (j + 1) = Rs → Rs.length < fuel →
      ∃ i', Loop.run (hashNextRound h) (fun _ => throw .diverge) fuel i = .ok i' ∧
        NextAt H B i' Rs.flatten
  | _, _, _, 0, _, _, _, _, _, hfuel => absurd hfuel (Nat.not_lt_zero _)
  | [], i, j, fuel + 1, hH, hj, hb, he, hRs, _ => by
    -- bucket `j` was the last one
    have hlast : B.length ≤ j + 1 := List.drop_eq_nil_iff.1 hRs
    have h0 : i.bucket ≠ 0 := by rw [hb]; exact (hT.bucket hj).ne_zero
    have hend : i.bucket + 16 ≥ i.hash.buckets + 16 * i.hash.bucketCnt := by
      rw [hH, ← hT.length]; omega
    refine ⟨{ i with bucket := i.bucket + 16, elem := 0 }, Loop.run_succ_of_stop ?_, rfl⟩
    simp [hashNextRound, listEnd_of_ne_zero h0, he, hend]
  | l :: Rs, i, j, fuel + 1, hH, hj, hb, he, hRs, hfuel => by
    have hj1 : j + 1 < B.length := by
      by_contra hn
      simp [List.drop_eq_nil_of_le (Nat.le_of_not_lt hn)] at hRs
    rw [List.drop_eq_getElem_cons hj1, List.cons.injEq] at hRs
    obtain ⟨hl, hRs⟩ := hRs
    have h0 : i.bucket ≠ 0 := by rw [hb]; exact (hT.bucket hj).ne_zero
    have hb1 : i.bucket + 16 = H.buckets + 16 * (j + 1) := by omega
    have hL : Linked h (i.bucket + 16) l := by rw [hb1, ← hl]; exact hT.bucket hj1
    have hend : ¬ i.bucket + 16 ≥ i.hash.buckets + 16 * i.hash.bucketCnt := by
      rw [hH, ← hT.length]; omega
    -- on to bucket `j + 1`, at its first element or its end
    let i₁ : HashIterator :=
      { i with bucket := i.bucket + 16, elem := l.headD (i.bucket + 16 + 8) }
    have hround : hashNextRound h i = .ok (.inr i₁) := by
      simp [hashNextRound, listEnd_of_ne_zero h0, he, hend, listBegin_eq hL.chain, i₁]
    rw [Loop.run_succ_of_next hround]
    cases l with
    | nil =>
      simpa using hashNext_skip hT Rs i₁ (j + 1) fuel hH hj1 hb1 rfl hRs
        (by simpa using hfuel)
    | cons x l =>
      obtain ⟨fuel, rfl⟩ : ∃ f, fuel = f + 1 := ⟨fuel - 1, by simp at hfuel; omega⟩
      have hx : x ≠ i.bucket + 16 + 8 :=
        ne_of_nodup hL.chain.nodup (A := [i.bucket + 16]) (B := l) (C := []) (by simp)
      refine ⟨i₁, Loop.run_succ_of_stop (hashNextRound_stop (by simp [i₁]) hx), rfl, l, Rs,
        ⟨hH, j + 1, hj1, [i.bucket + 16], hb1, hRs, ?_⟩, rfl⟩
      rw [hl, ← hb1]
      rfl

/-- One call of `hash_next` returns the next element to visit, or `NULL` after the last. -/
theorem hashNext_spec (hT : Table h H B) {i : HashIterator} {l : List Nat}
    (hi : IterOn H B i l) : ∃ i', hashNext h i = .ok (i', i'.elem) ∧ NextAt H B i' l := by
  obtain ⟨R, Rs, ⟨hH, j, hj, P, hb, hRs, hP⟩, rfl⟩ := hi
  have hL := hT.bucket hj
  have hc : Chain h (P ++ i.elem :: R ++ [H.buckets + 16 * j + 8]) := by
    rw [← hP]; exact hL.chain
  have hnext := hc.listNext_headD
  have h0 : i.bucket ≠ 0 := by rw [hb]; exact hL.ne_zero
  have hlt : Rs.length < 2 ^ 32 := by
    have := hT.buckets_le
    have : Rs.length ≤ H.bucketCnt := by rw [← hT.length, ← hRs]; simp
    omega
  cases R with
  | cons x R =>
    -- the next element of the same bucket
    have hx : x ≠ i.bucket + 8 := by
      rw [hb]; exact ne_of_nodup hc.nodup (A := P ++ [i.elem]) (B := R) (C := []) (by simp)
    refine ⟨{ i with elem := x }, ?_, rfl, R, Rs,
      ⟨hH, j, hj, P ++ [i.elem], hb, hRs, by simp [hP]⟩, rfl⟩
    have hrun : Loop.run (hashNextRound h) (fun _ => throw .diverge) (2 ^ 32)
        { i with elem := x } = .ok { i with elem := x } :=
      Loop.run_succ_of_stop (hashNextRound_stop h0 hx)
    simp [hashNext, hnext, hrun, -Nat.reducePow]
  | nil =>
    -- the end of the bucket: on to the buckets after it
    obtain ⟨i', hrun, hN⟩ := hashNext_skip hT Rs { i with elem := H.buckets + 16 * j + 8 } j
      (2 ^ 32) hH hj hb (by simp [hb]) hRs hlt
    refine ⟨i', ?_, by simpa using hN⟩
    simp [hashNext, hnext, hrun, -Nat.reducePow]

/-- `hash_first` stands before the first bucket, with every element still to visit. -/
theorem hashFirst_spec (hT : Table h H B) :
    ∃ i, hashFirst H = .ok i ∧ IterOn H B i B.flatten := by
  have hB : 0 < B.length := by have := hT.four_le; rw [hT.length]; omega
  have h0 : H.buckets ≠ 0 := by simpa using (hT.bucket hB).ne_zero
  refine ⟨⟨H, H.buckets, H.buckets⟩, by simp [hashFirst, listHead, listRend, h0], B[0],
    B.drop 1, ⟨rfl, 0, hB, [], by simp, rfl, by simp⟩, ?_⟩
  cases B with
  | nil => simp at hB
  | cons b B => simp

/-- `n + 1` calls of `hash_next` from an iterator with `n` elements to visit return them in
order, and then `NULL`. Induction on the elements. -/
theorem hashNextN_spec (hT : Table h H B) : ∀ (l : List Nat) (i : HashIterator),
    IterOn H B i l → ∃ i', hashNextN h i (l.length + 1) = .ok (i', l ++ [0])
  | [], i, hi => by
    obtain ⟨i', hnext, hN⟩ := hashNext_spec hT hi
    exact ⟨i', by simp [hashNextN, hnext, show i'.elem = 0 from hN]⟩
  | x :: l, i, hi => by
    obtain ⟨i', hnext, hx, hi'⟩ := hashNext_spec hT hi
    obtain ⟨i'', hrest⟩ := hashNextN_spec hT l i' hi'
    refine ⟨i'', ?_⟩
    rw [List.length_cons, hashNextN, hnext]
    simp [hx, hrest]

/-- `hash_first` and then `hash_next` until it returns `NULL` visit each element once. -/
theorem hashIterate_spec {S : List Nat} (hS : Holds h H S) :
    ∃ i i' l, hashFirst H = .ok i ∧ hashNextN h i (S.length + 1) = .ok (i', l ++ [0]) ∧
      l.Perm S := by
  obtain ⟨B, hT, hp⟩ := hS
  obtain ⟨i, hfirst, hi⟩ := hashFirst_spec hT
  obtain ⟨i', hrun⟩ := hashNextN_spec hT B.flatten i hi
  exact ⟨i, i', B.flatten, hfirst, by rw [← hp.length_eq]; exact hrun, hp⟩

end Iterate

/-- The calls a client makes on a table. -/
inductive HashOp where
  | insert (new : Nat)
  | replace (new : Nat)
  | find (e : Nat)
  | delete (e : Nat)
  | clear (destructor : Nat)
  | apply (action : Nat)
  deriving Repr, DecidableEq

namespace HashOp

/-- The call made: the links, the table, and the pointers it returns or hands to the
destructor or the action. -/
def run (h : Links) (H : Hash) (malloc : Nat → Nat) :
    HashOp → Except Fault (Links × Hash × List Nat)
  | insert new => do
    let (h, H, old) ← hashInsert h H new malloc
    return (h, H, [old])
  | replace new => do
    let (h, H, old) ← hashReplace h H new malloc
    return (h, H, [old])
  | find e => do
    let found ← hashFind h H e
    return (h, H, [found])
  | delete e => do
    let (h, H, found) ← hashDelete h H e malloc
    return (h, H, [found])
  | clear destructor => do
    let (h, H, calls) ← hashClear h H destructor
    return (h, H, calls)
  | apply action => do
    let calls ← hashApply h H action
    return (h, H, calls)

/-- What the call does on the abstract table, the set `S` keyed by the equality of `less`:
the set it leaves, and the pointers it returns, up to their order. -/
def onSet (less : Nat → Nat → Bool) (S : List Nat) : HashOp → List Nat × List Nat
  | insert new => ((KeyedSet.insert (equal less) S new).1,
      [(KeyedSet.insert (equal less) S new).2.getD 0])
  | replace new => ((KeyedSet.replace (equal less) S new).1,
      [(KeyedSet.replace (equal less) S new).2.getD 0])
  | find e => (S, [(KeyedSet.find (equal less) S e).getD 0])
  | delete e => ((KeyedSet.delete (equal less) S e).1,
      [(KeyedSet.delete (equal less) S e).2.getD 0])
  | clear destructor => ([], if destructor ≠ 0 then S else [])
  | apply _ => (S, S)

/-- What the caller provides: an element to add that is apart from the table, `malloc`
giving `NULL` or a block apart from the table where `rehash` runs, and an action. -/
def Valid (malloc : Nat → Nat) (H : Hash) (S : List Nat) : HashOp → Prop
  | insert new | replace new =>
    Avoids H S new ∧ new ≠ 0 ∧ new < 2 ^ 32 ∧ MallocOk malloc H (new :: S)
  | find _ | clear _ => True
  | delete _ => MallocOk malloc H S
  | apply action => action ≠ 0

variable {h : Links} {H : Hash} {S : List Nat} {malloc : Nat → Nat}

/-- A valid call on a table that holds `S` does what the abstract table does. -/
theorem run_spec (hS : Holds h H S) (hC : Consistent H.hash H.less) {op : HashOp}
    (hv : op.Valid malloc H S) :
    ∃ h' H' r, op.run h H malloc = .ok (h', H', r) ∧ r.Perm (op.onSet H.less S).2 ∧
      Holds h' H' (op.onSet H.less S).1 ∧ H'.hash = H.hash ∧ H'.less = H.less := by
  cases op with
  | insert new =>
    obtain ⟨hnew, h0, hlt, hm⟩ := hv
    obtain ⟨h', H', hrun, hS', hh, hl⟩ := hashInsert_spec hS hC hnew h0 hlt hm
    exact ⟨h', H', [(KeyedSet.insert (equal H.less) S new).2.getD 0], by simp [run, hrun],
      List.Perm.refl _, hS', hh, hl⟩
  | replace new =>
    obtain ⟨hnew, h0, hlt, hm⟩ := hv
    obtain ⟨h', H', hrun, hS', hh, hl⟩ := hashReplace_spec hS hC hnew h0 hlt hm
    exact ⟨h', H', [(KeyedSet.replace (equal H.less) S new).2.getD 0], by simp [run, hrun],
      List.Perm.refl _, hS', hh, hl⟩
  | find e =>
    exact ⟨h, H, [(KeyedSet.find (equal H.less) S e).getD 0],
      by simp [run, hashFind_spec hS hC e], List.Perm.refl _, hS, rfl, rfl⟩
  | delete e =>
    obtain ⟨h', H', hrun, hS', hh, hl⟩ := hashDelete_spec hS hC e hv
    exact ⟨h', H', [(KeyedSet.delete (equal H.less) S e).2.getD 0], by simp [run, hrun],
      List.Perm.refl _, hS', hh, hl⟩
  | clear destructor =>
    obtain ⟨h', calls, hclr, hp, hS'⟩ := hashClear_spec hS destructor
    exact ⟨h', _, calls, by simp [run, hclr], hp, hS', rfl, rfl⟩
  | apply action =>
    obtain ⟨calls, happ, hp⟩ := hashApply_spec hS hv
    exact ⟨h, H, calls, by simp [run, happ], hp, hS, rfl, rfl⟩

end HashOp

/-- The states a table with functions `hash` and `less` reaches from `hash_init` through valid
calls, each with the set the same calls leave on the abstract table. -/
inductive Reachable (hash : Nat → UInt32) (less : Nat → Nat → Bool) :
    Links → Hash → List Nat → Prop
  | init {h h' : Links} {H : Hash} {malloc : Nat → Nat} :
    malloc (16 * 4) + 16 * 4 ≤ 2 ^ 32 → hashInit h hash less malloc = .ok (h', H, true) →
    Reachable hash less h' H []
  | step {h h' : Links} {H H' : Hash} {S r : List Nat} {op : HashOp} {malloc : Nat → Nat} :
    Reachable hash less h H S → op.Valid malloc H S → op.run h H malloc = .ok (h', H', r) →
    Reachable hash less h' H' (op.onSet less S).1

section Runs

variable {hash : Nat → UInt32} {less : Nat → Nat → Bool} {h : Links} {H : Hash}
  {S : List Nat}

/-- Every reachable table holds the set of its abstract table. Induction on the run. -/
theorem reachable_holds (hC : Consistent hash less) (hR : Reachable hash less h H S) :
    Holds h H S ∧ H.hash = hash ∧ H.less = less := by
  induction hR with
  | @init h h' H malloc hm hinit =>
    -- `hash_init` reported success, so `malloc` gave it a block
    obtain ⟨h'', H'', hinit', hh, hl, hS⟩ := hashInit_spec h hash less (fun _ => hm)
    rw [hinit] at hinit'
    simp only [Except.ok.injEq, Prod.mk.injEq] at hinit'
    obtain ⟨rfl, rfl, hb⟩ := hinit'
    exact ⟨hS (by simpa using hb.symm), hh, hl⟩
  | step _ hv hrun ih =>
    obtain ⟨hS, hh, hl⟩ := ih
    obtain ⟨h'', H'', r', hrun', -, hS', hh', hl'⟩ := HashOp.run_spec hS (hh ▸ hl ▸ hC) hv
    rw [hrun] at hrun'
    obtain ⟨rfl, rfl, -⟩ : _ ∧ _ ∧ _ := by simpa using hrun'
    exact ⟨hl ▸ hS', hh' ▸ hh, hl' ▸ hl⟩

/-- From a reachable table, a valid call does not fault: it returns what the abstract table
returns, up to order, and leaves a table that holds the abstract table's next set and is
reachable in turn. -/
theorem reachable_run (hC : Consistent hash less) (hR : Reachable hash less h H S)
    {op : HashOp} {malloc : Nat → Nat} (hv : op.Valid malloc H S) :
    ∃ h' H' r, op.run h H malloc = .ok (h', H', r) ∧ r.Perm (op.onSet less S).2 ∧
      Holds h' H' (op.onSet less S).1 ∧ Reachable hash less h' H' (op.onSet less S).1 := by
  obtain ⟨hS, hh, hl⟩ := reachable_holds hC hR
  have hC' : Consistent H.hash H.less := by rw [hh, hl]; exact hC
  obtain ⟨h', H', r, hrun, hp, hS', -⟩ := HashOp.run_spec hS hC' hv
  rw [hl] at hp hS'
  exact ⟨h', H', r, hrun, hp, hS', hR.step hv hrun⟩

/-- The hash table implements a set. In every table reached from `hash_init` by valid calls,
the representation invariant holds: its buckets are well-formed lists holding the elements,
each in the bucket `hash (e) & (bucket_cnt - 1)`, `bucket_cnt` is a power of two and at least
`4`, `elem_cnt` is the number of elements across the buckets, and no two elements are equal
under `less`. Each further valid call returns what the set keyed by that equality returns,
and leaves a table reached in turn. -/
theorem hash_table_implements_set (hC : Consistent hash less) (hR : Reachable hash less h H S) :
    (∃ B : List (List Nat), Lists h (slots H.buckets B) ∧ B.flatten.Perm S ∧
      B.length = H.bucketCnt ∧
      (∀ i (hi : i < B.length), ∀ x ∈ B[i], (hash x).toNat &&& (H.bucketCnt - 1) = i) ∧
      H.bucketCnt.isPowerOfTwo ∧ 4 ≤ H.bucketCnt ∧ H.elemCnt = B.flatten.length) ∧
    KeyedSet.Keyed (equal less) S ∧
    ∀ (op : HashOp) (malloc : Nat → Nat), op.Valid malloc H S →
      ∃ h' H' r, op.run h H malloc = .ok (h', H', r) ∧ r.Perm (op.onSet less S).2 ∧
        Reachable hash less h' H' (op.onSet less S).1 := by
  obtain ⟨⟨B, hT, hp⟩, hh, hl⟩ := reachable_holds hC hR
  have hC' : Consistent H.hash H.less := by rw [hh, hl]; exact hC
  refine ⟨⟨B, hT.lists, hp, hT.length, fun i hi x hx => ?_, hT.pow, hT.four_le, hT.count⟩,
    ?_, fun op malloc hv => ?_⟩
  · -- `bucket_idx` reads the table's own hash, which is `hash`
    rw [← hh]
    exact hT.placed i hi x hx
  · rw [← hl]
    exact KeyedSet.Keyed.perm hC'.equiv hT.keyed hp
  · obtain ⟨h', H', r, hrun, hp', -, -⟩ := HashOp.run_spec ⟨B, hT, hp⟩ hC' hv
    rw [hl] at hp'
    exact ⟨h', H', r, hrun, hp', hR.step hv hrun⟩

/-- `<` on numbers, all hashed to `0`, is consistent. -/
theorem consistent_lt_zero : Consistent (fun _ => 0) (fun a b => decide (a < b)) := by
  refine ⟨⟨fun a => ?_, fun {a b} hab => ?_, fun {a b c} hab hbc => ?_⟩,
    fun _ _ _ => rfl⟩ <;>
    simp only [equal, Bool.and_eq_true, Bool.not_eq_true', decide_eq_false_iff_not] at * <;>
    omega

/-- `hash_init` with the block at `4096` that `malloc` gives: four buckets there. -/
theorem reachable_init_at_4096 :
    ∃ h H, Reachable (fun _ => 0) (fun a b => decide (a < b)) h H [] ∧ H.bucketCnt = 4 ∧
      H.buckets = 4096 := by
  have hfields : (hashInit ⟨fun _ => 0, fun _ => 0⟩ (fun _ => 0) (fun a b => decide (a < b))
      (fun _ => 4096)).map (fun r => (r.2.1.bucketCnt, r.2.1.buckets, r.2.2)) =
      .ok (4, 4096, true) := by
    decide
  obtain ⟨⟨h, H, ok⟩, hinit, heq⟩ := Trace.map_eq_ok hfields
  simp only [Prod.mk.injEq] at heq
  obtain ⟨hcnt, hbuckets, rfl⟩ := heq
  exact ⟨h, H, Reachable.init (by decide) hinit, hcnt, hbuckets⟩

/-- Inserting `7`, apart from the four buckets, into a new table is a valid call. -/
theorem valid_insert_seven {H : Hash} (hcnt : H.bucketCnt = 4) (hbuckets : H.buckets = 4096) :
    (HashOp.insert 7).Valid (fun _ => 0) H [] :=
  ⟨⟨List.not_mem_nil, fun k hk => by rw [hbuckets]; rw [hcnt] at hk; omega⟩, by decide,
    by decide, fun _ hn => absurd rfl hn⟩

/-- A table of numbers ordered by `<`, all hashed to `0`, made by `hash_init` from a block at
`4096`; `7` is inserted, with `malloc` failing when the table would grow, and then looked
up. -/
theorem reachable_run_after_insert :
    ∃ h H, Reachable (fun _ => 0) (fun a b => decide (a < b)) h H
        ((HashOp.insert 7).onSet (fun a b => decide (a < b)) []).1 ∧
      ∃ h' H' r, (HashOp.find 7).run h H (fun _ => 0) = .ok (h', H', r) ∧
        r.Perm ((HashOp.find 7).onSet (fun a b => decide (a < b))
          ((HashOp.insert 7).onSet (fun a b => decide (a < b)) []).1).2 ∧
        Holds h' H' ((HashOp.find 7).onSet (fun a b => decide (a < b))
          ((HashOp.insert 7).onSet (fun a b => decide (a < b)) []).1).1 ∧
        Reachable (fun _ => 0) (fun a b => decide (a < b)) h' H'
          ((HashOp.find 7).onSet (fun a b => decide (a < b))
            ((HashOp.insert 7).onSet (fun a b => decide (a < b)) []).1).1 := by
  have hC := consistent_lt_zero
  -- `hash_init` sets up four buckets at `4096`
  obtain ⟨h, H, hR, hcnt, hbuckets⟩ := reachable_init_at_4096
  obtain ⟨h₁, H₁, _, _, _, _, hR₁⟩ := reachable_run hC hR (valid_insert_seven hcnt hbuckets)
  exact ⟨h₁, H₁, hR₁, reachable_run hC hR₁
    (show (HashOp.find 7).Valid (fun _ => 0) H₁ _ from trivial)⟩

/-- The table of numbers ordered by `<`, all hashed to `0`, that `hash_init` made at `4096`,
after `7` is inserted. -/
theorem hash_table_implements_set_after_insert :
    ∃ h H, Reachable (fun _ => 0) (fun a b => decide (a < b)) h H
        ((HashOp.insert 7).onSet (fun a b => decide (a < b)) []).1 ∧
      (∃ B : List (List Nat), Lists h (slots H.buckets B) ∧
        B.flatten.Perm ((HashOp.insert 7).onSet (fun a b => decide (a < b)) []).1 ∧
        B.length = H.bucketCnt ∧
        (∀ i (hi : i < B.length), ∀ x ∈ B[i], ((fun _ => 0 : Nat → UInt32) x).toNat &&&
          (H.bucketCnt - 1) = i) ∧
        H.bucketCnt.isPowerOfTwo ∧ 4 ≤ H.bucketCnt ∧ H.elemCnt = B.flatten.length) ∧
      KeyedSet.Keyed (equal fun a b => decide (a < b))
        ((HashOp.insert 7).onSet (fun a b => decide (a < b)) []).1 ∧
      ∀ (op : HashOp) (malloc : Nat → Nat),
        op.Valid malloc H ((HashOp.insert 7).onSet (fun a b => decide (a < b)) []).1 →
        ∃ h' H' r, op.run h H malloc = .ok (h', H', r) ∧
          r.Perm (op.onSet (fun a b => decide (a < b))
            ((HashOp.insert 7).onSet (fun a b => decide (a < b)) []).1).2 ∧
          Reachable (fun _ => 0) (fun a b => decide (a < b)) h' H'
            (op.onSet (fun a b => decide (a < b))
              ((HashOp.insert 7).onSet (fun a b => decide (a < b)) []).1).1 := by
  obtain ⟨h, H, hR, hcnt, hbuckets⟩ := reachable_init_at_4096
  have hv := valid_insert_seven hcnt hbuckets
  obtain ⟨hS, hh, hl⟩ := reachable_holds consistent_lt_zero hR
  obtain ⟨h₁, H₁, r, hrun, -, -, -⟩ :=
    HashOp.run_spec hS (by rw [hh, hl]; exact consistent_lt_zero) hv
  exact ⟨h₁, H₁, hR.step hv hrun,
    hash_table_implements_set consistent_lt_zero (hR.step hv hrun)⟩

end Runs

end Pintos
