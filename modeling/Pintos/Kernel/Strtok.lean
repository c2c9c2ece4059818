import Mathlib.Data.List.TakeWhile
import Pintos.Devices.Block
import Pintos.Lib.CInt
import Pintos.Lib.Loop

/-!
`strchr`, `strlen` and `strtok_r` of `lib/string.c`, on memory as a function from addresses
to bytes; a pointer is its address and `NULL` is `0`. Pointers are 32-bit, so a `for (;;)`
that has gone round the address space never ends, and each loop runs on `2 ^ 32` rounds of
fuel. `strtok_r`'s `save_ptr` is the address of a `char *` of its caller, never `NULL`: the
model takes the value of `*save_ptr` and returns the value the call leaves there.

The tokens are specified apart from the code: `spansFrom D o r` splits `r` at every
delimiter (`List.splitOnP`), keeps the nonempty pieces, and gives each the address it starts
at when `r` starts at `o`.

* `strtokR_step`: what one call does to a string `r` at its current position: `NULL` when no
  token is left, else the first token, NUL-terminated in place, and the position after it;
* `strtokLoop_tokens`: the loop of the example above `strtok_r` visits exactly the tokens,
  in order, each NUL-terminated in place, within `strlen (s) + 2` calls.
-/

namespace Pintos

/-- The bytes `r` and then a terminator lie in memory from `x`: the C string at `x` is `r`. -/
structure CStr (mem : Nat → UInt8) (x : Nat) (r : List UInt8) : Prop where
  no_nul : 0 ∉ r
  byte : ∀ i (h : i < r.length), mem (x + i) = r[i]
  nul : mem (x + r.length) = 0

/-- One round of `for (;;)` in `strchr (string, c)`. -/
def strchrRound (mem : Nat → UInt8) (c : UInt8) (string : Nat) : Except Fault (Nat ⊕ Nat) :=
  if mem string = c then pure (.inl string)
  else if mem string = 0 then pure (.inl 0)
  else pure (.inr (CInt.u32 (string + 1)))

/-- `strchr (string, c)`: the first byte of `string` equal to `c`, the terminator included,
or `NULL`. -/
def strchr (mem : Nat → UInt8) (string : Nat) (c : UInt8) : Except Fault Nat :=
  if string = 0 then throw .panic
  else Loop.run (strchrRound mem c) (fun _ => throw .diverge) (2 ^ 32) string

/-- One round of `for (p = string; *p != '\0'; p++)` in `strlen`. -/
def strlenRound (mem : Nat → UInt8) (p : Nat) : Except Fault (Nat ⊕ Nat) :=
  if mem p ≠ 0 then pure (.inr (CInt.u32 (p + 1))) else pure (.inl p)

/-- `strlen (string)`. -/
def strlen (mem : Nat → UInt8) (string : Nat) : Except Fault Nat := do
  if string = 0 then throw .panic
  let p ← Loop.run (strlenRound mem) (fun _ => throw .diverge) (2 ^ 32) string
  pure (CInt.u32 ((p : Int) - string))

/-- Where the loop of `strtok_r` that skips delimiters ends: at the terminator, where the call
returns `NULL`, or at the first byte of a token. -/
inductive SkipEnd
  | atNull (s : Nat)
  | atToken (s : Nat)

/-- One round of `while (strchr (delimiters, *s) != NULL)` in `strtok_r`. -/
def skipRound (mem : Nat → UInt8) (delimiters s : Nat) : Except Fault (SkipEnd ⊕ Nat) := do
  let found ← strchr mem delimiters (mem s)
  if found ≠ 0 then
    if mem s = 0 then pure (.inl (.atNull s)) else pure (.inr (CInt.u32 (s + 1)))
  else pure (.inl (.atToken s))

/-- One round of `while (strchr (delimiters, *s) == NULL)` in `strtok_r`. -/
def scanRound (mem : Nat → UInt8) (delimiters s : Nat) : Except Fault (Nat ⊕ Nat) := do
  let found ← strchr mem delimiters (mem s)
  if found = 0 then pure (.inr (CInt.u32 (s + 1))) else pure (.inl s)

/-- `strtok_r (s, delimiters, save_ptr)` with `savePtr` the value of `*save_ptr`: the token or
`NULL`, the memory after, and the new `*save_ptr`. -/
def strtokR (mem : Nat → UInt8) (s delimiters savePtr : Nat) :
    Except Fault (Nat × (Nat → UInt8) × Nat) := do
  if delimiters = 0 then throw .panic
  let s := if s = 0 then savePtr else s
  if s = 0 then throw .panic
  match ← Loop.run (skipRound mem delimiters) (fun _ => throw .diverge) (2 ^ 32) s with
  | .atNull s => pure (0, mem, s)
  | .atToken s =>
    let token := s
    let s ← Loop.run (scanRound mem delimiters) (fun _ => throw .diverge) (2 ^ 32) s
    if mem s ≠ 0 then pure (token, Function.update mem s 0, CInt.u32 (s + 1))
    else pure (token, mem, s)

/-- A round of the loop in the example above `strtok_r`: the memory, the `s` of the next call
(the string in the first, `NULL` after), `save_ptr`, and the tokens so far. -/
def strtokLoopRound (delimiters : Nat) (c : (Nat → UInt8) × Nat × Nat × List Nat) :
    Except Fault ((List Nat × (Nat → UInt8)) ⊕ (Nat → UInt8) × Nat × Nat × List Nat) := do
  let (mem, s, savePtr, tokens) := c
  let (token, mem, savePtr) ← strtokR mem s delimiters savePtr
  if token = 0 then pure (.inl (tokens, mem))
  else pure (.inr (mem, 0, savePtr, tokens ++ [token]))

/-- `for (token = strtok_r (s, delimiters, &save_ptr); token != NULL;
token = strtok_r (NULL, delimiters, &save_ptr))`: the tokens in order and the memory after.
`save_ptr` starts uninitialised; a first call with `s` not `NULL` does not read it. -/
def strtokLoop (mem : Nat → UInt8) (s delimiters : Nat) : Except Fault (List Nat × (Nat → UInt8)) :=
  Loop.run (strtokLoopRound delimiters) (fun _ => throw .diverge) (2 ^ 32) (mem, s, 0, [])

/-! ## The string at a pointer -/

section CStr

variable {mem mem' : Nat → UInt8} {x : Nat}

theorem CStr.nil_iff : CStr mem x [] ↔ mem x = 0 :=
  ⟨fun h => h.nul, fun h => ⟨List.not_mem_nil, fun _ h' => absurd h' (Nat.not_lt_zero _), h⟩⟩

theorem CStr.cons_iff {b : UInt8} {r : List UInt8} :
    CStr mem x (b :: r) ↔ mem x = b ∧ b ≠ 0 ∧ CStr mem (x + 1) r := by
  constructor
  · intro h
    have h0 := h.byte 0 (by simp)
    rw [Nat.add_zero, List.getElem_cons_zero] at h0
    refine ⟨h0, fun hb => h.no_nul (by simp [hb]), ?_, ?_, ?_⟩
    · exact fun h0 => h.no_nul (List.mem_cons_of_mem _ h0)
    · intro i hi
      have := h.byte (i + 1) (by simpa using hi)
      rwa [show x + (i + 1) = x + 1 + i by omega] at this
    · have := h.nul
      rwa [List.length_cons, show x + (r.length + 1) = x + 1 + r.length by omega] at this
  · rintro ⟨hb, hb0, hr⟩
    refine ⟨?_, ?_, ?_⟩
    · rintro (_ | ⟨_, h0⟩)
      · exact hb0 rfl
      · exact hr.no_nul h0
    · intro i hi
      cases i with
      | zero => simpa using hb
      | succ i =>
        rw [show x + (i + 1) = x + 1 + i by omega]
        exact hr.byte i (by simpa using hi)
    · rw [List.length_cons, show x + (r.length + 1) = x + 1 + r.length by omega]
      exact hr.nul

/-- The string from a later byte of a string. -/
theorem CStr.append {l r : List UInt8} : CStr mem x (l ++ r) → CStr mem (x + l.length) r := by
  induction l generalizing x with
  | nil => simp
  | cons b l ih =>
    intro h
    rw [List.cons_append, CStr.cons_iff] at h
    have := ih h.2.2
    rwa [List.length_cons, show x + (l.length + 1) = x + 1 + l.length by omega]

theorem CStr.byte_append {l r : List UInt8} (h : CStr mem x (l ++ r)) (i : Nat) (hi : i < l.length) :
    mem (x + i) = l[i] := by
  rw [h.byte i (by simp; omega), List.getElem_append_left hi]

/-- A string is read from its bytes and its terminator. -/
theorem CStr.congr {r : List UInt8} (h : CStr mem x r)
    (hm : ∀ i ≤ r.length, mem' (x + i) = mem (x + i)) : CStr mem' x r :=
  ⟨h.no_nul, fun i hi => (hm i (by omega)).trans (h.byte i hi), (hm _ le_rfl).trans h.nul⟩

end CStr

/-! ## The tokens of a string -/

/-- The pieces of a list cut at its separators, each with the offset it starts at, counted
from `o`. -/
def pieceStarts {α : Type} : Nat → List (List α) → List (Nat × List α)
  | _, [] => []
  | o, w :: ws => (o, w) :: pieceStarts (o + w.length + 1) ws

/-- The maximal nonempty runs of bytes outside `D` in `r`, each with the address it starts
at when `r` starts at `o`. -/
def spansFrom (D : List UInt8) (o : Nat) (r : List UInt8) : List (Nat × List UInt8) :=
  (pieceStarts o (r.splitOnP fun b => b ∈ D)).filter fun x => !x.2.isEmpty

section Spans

variable {D : List UInt8}

theorem splitOnP_delims {l : List UInt8} :
    ∀ ds : List UInt8, (∀ b ∈ ds, b ∈ D) →
      (ds ++ l).splitOnP (fun b => b ∈ D) = List.replicate ds.length [] ++ l.splitOnP (fun b => b ∈ D)
  | [], _ => rfl
  | b :: ds, h => by
    have hb : b ∈ D := h b List.mem_cons_self
    rw [List.cons_append, List.splitOnP_cons_eq_if_modifyHead, if_pos (by simpa using hb),
      splitOnP_delims ds fun b hb => h b (List.mem_cons_of_mem _ hb)]
    rfl

theorem pieceStarts_replicate_nil {α : Type} (L : List (List α)) :
    ∀ (n o : Nat), pieceStarts o (List.replicate n [] ++ L) =
      (List.range' o n).map (fun a => (a, [])) ++ pieceStarts (o + n) L
  | 0, o => rfl
  | n + 1, o => by
    rw [List.replicate_succ, List.cons_append, pieceStarts, pieceStarts_replicate_nil L n,
      List.range'_succ]
    simp [Nat.add_right_comm, Nat.add_assoc]

@[simp] theorem spansFrom_nil (o : Nat) : spansFrom D o [] = [] := rfl

/-- Delimiters before the rest only move where its tokens start. -/
theorem spansFrom_delims {ds : List UInt8} (hds : ∀ b ∈ ds, b ∈ D) (o : Nat) (l : List UInt8) :
    spansFrom D o (ds ++ l) = spansFrom D (o + ds.length) l := by
  simp only [spansFrom, splitOnP_delims ds hds, pieceStarts_replicate_nil, List.filter_append]
  simp

/-- A last token, with no delimiter after it. -/
theorem spansFrom_token {token : List UInt8} (ht : token ≠ []) (htok : ∀ b ∈ token, b ∉ D)
    (o : Nat) : spansFrom D o token = [(o, token)] := by
  rw [spansFrom, List.splitOnP_eq_singleton (by simpa using htok)]
  simp [pieceStarts, ht]

/-- A token and the delimiter that ends it. -/
theorem spansFrom_token_delim {token : List UInt8} (ht : token ≠ []) (htok : ∀ b ∈ token, b ∉ D)
    {b : UInt8} (hb : b ∈ D) (o : Nat) (rest : List UInt8) :
    spansFrom D o (token ++ b :: rest) = (o, token) :: spansFrom D (o + token.length + 1) rest := by
  rw [spansFrom, List.splitOnP_append_cons_of_forall_mem (by simpa using htok) b (by simpa using hb)]
  simp [pieceStarts, ht, spansFrom]

theorem map_snd_pieceStarts {α : Type} :
    ∀ (o : Nat) (ws : List (List α)), (pieceStarts o ws).map Prod.snd = ws
  | _, [] => rfl
  | o, w :: ws => by rw [pieceStarts, List.map_cons, map_snd_pieceStarts]

/-- The tokens are the pieces between delimiters that are not empty. -/
theorem map_snd_spansFrom (o : Nat) (r : List UInt8) :
    (spansFrom D o r).map Prod.snd = (r.splitOnP fun b => b ∈ D).filter fun w => !w.isEmpty := by
  rw [spansFrom, show (fun x : Nat × List UInt8 => !x.2.isEmpty) = (fun w => !w.isEmpty) ∘ Prod.snd
    from rfl, ← List.filter_map, map_snd_pieceStarts]

end Spans

/-- A list cut before its first byte that fails `p`. -/
theorem exists_cut (p : UInt8 → Prop) [DecidablePred p] (r : List UInt8) :
    ∃ ds t, r = ds ++ t ∧ (∀ b ∈ ds, p b) ∧ ∀ b t', t = b :: t' → ¬p b := by
  refine ⟨r.takeWhile (fun b => p b), r.dropWhile (fun b => p b),
    List.takeWhile_append_dropWhile.symm, fun b hb => by simpa using List.mem_takeWhile_imp hb, ?_⟩
  intro b t' h
  have := List.head_dropWhile_not (fun b => decide (p b)) (l := r) (by rw [h]; simp)
  simpa [h] using this

/-! ## One call -/

section Calls

variable {mem : Nat → UInt8} {d : Nat} {D : List UInt8}

theorem u32_succ {y : Nat} (hy : y + 1 < 2 ^ 32) : CInt.u32 ((y : Int) + 1) = y + 1 := by
  simpa using CInt.u32_nat hy

/-- The loop of `strchr` over a string `l` from `x`: it finds `c` exactly when `c` is a byte of
`l` or the terminator. Induction on `l`. -/
theorem strchr_loop (c : UInt8) : ∀ (l : List UInt8) (x fuel : Nat), CStr mem x l → 0 < x →
    x + l.length < 2 ^ 32 → l.length < fuel →
    ∃ r, Loop.run (strchrRound mem c) (fun _ => throw .diverge) fuel x = .ok r ∧
      (r = 0 ↔ c ∉ l ∧ c ≠ 0)
  | _, _, 0, _, _, _, hfuel => absurd hfuel (Nat.not_lt_zero _)
  | [], x, fuel + 1, h, hx, _, _ => by
    have h0 : mem x = 0 := CStr.nil_iff.1 h
    by_cases hc : c = 0
    · refine ⟨x, Loop.run_succ_of_stop (by simp [strchrRound, h0, hc]), ?_⟩
      simp only [hc, ne_eq, not_true_eq_false, and_false, iff_false]
      omega
    · refine ⟨0, Loop.run_succ_of_stop ?_, by simp [hc]⟩
      simp [strchrRound, h0, Ne.symm hc]
  | b :: l, x, fuel + 1, h, hx, hend, hfuel => by
    obtain ⟨hb, hb0, hl⟩ := CStr.cons_iff.1 h
    simp only [List.length_cons] at hend hfuel
    by_cases hc : b = c
    · subst hc
      refine ⟨x, Loop.run_succ_of_stop (by simp [strchrRound, hb]), ?_⟩
      simp only [List.mem_cons_self, not_true_eq_false, false_and, iff_false]
      omega
    · have hnext : strchrRound mem c x = .ok (.inr (x + 1)) := by
        simp [strchrRound, hb, hc, hb0, u32_succ (show x + 1 < 2 ^ 32 by omega)]
      obtain ⟨r, hr, hiff⟩ := strchr_loop c l (x + 1) fuel hl (by omega) (by omega) (by omega)
      refine ⟨r, by rw [Loop.run_succ_of_next hnext, hr], ?_⟩
      rw [hiff, List.mem_cons]
      constructor
      · rintro ⟨hcl, hc0⟩
        exact ⟨fun h' => h'.elim (fun h'' => hc h''.symm) hcl, hc0⟩
      · rintro ⟨hcl, hc0⟩
        exact ⟨fun h' => hcl (Or.inr h'), hc0⟩

theorem strlenRound_byte {y : Nat} (hy : mem y ≠ 0) (hy' : y + 1 < 2 ^ 32) :
    strlenRound mem y = .ok (.inr (y + 1)) := by
  simp [strlenRound, hy, u32_succ hy']

/-- `strlen` of a string is its length. -/
theorem strlen_eq {a : Nat} {w : List UInt8} (hw : CStr mem a w) (ha : 0 < a)
    (haw : a + w.length < 2 ^ 32) : strlen mem a = .ok w.length := by
  have hrun : Loop.run (strlenRound mem) (fun _ => throw .diverge) (2 ^ 32) a = .ok (a + w.length) := by
    obtain ⟨f, hf⟩ : ∃ f, 2 ^ 32 = f + 1 + w.length := ⟨2 ^ 32 - w.length - 1, by omega⟩
    rw [hf, Loop.run_advance w.length (f + 1) a fun i hi =>
      strlenRound_byte (by rw [hw.byte i hi]; exact fun h0 => hw.no_nul (h0 ▸ List.getElem_mem hi))
        (by omega)]
    exact Loop.run_succ_of_stop (by simp [strlenRound, hw.nul])
  simp only [strlen, if_neg (show a ≠ 0 by omega), hrun]
  simp [CInt.u32_nat (show w.length < 2 ^ 32 by omega)]

variable (hD : CStr mem d D) (hd : 0 < d) (hdD : d + D.length < 2 ^ 32)
include hD hd hdD

/-- `strchr (delimiters, c)` is `NULL` exactly for a byte that is neither a delimiter nor the
terminator. -/
theorem strchr_delimiters (c : UInt8) :
    ∃ r, strchr mem d c = .ok r ∧ (r = 0 ↔ c ∉ D ∧ c ≠ 0) := by
  rw [strchr, if_neg (by omega)]
  exact strchr_loop c D d (2 ^ 32) hD hd hdD (by omega)

theorem skipRound_delim {y : Nat} (hb : mem y ∈ D) (hy : y + 1 < 2 ^ 32) :
    skipRound mem d y = .ok (.inr (y + 1)) := by
  obtain ⟨r, hr, hiff⟩ := strchr_delimiters hD hd hdD (mem y)
  have hr0 : r ≠ 0 := fun h => (hiff.1 h).1 hb
  have hy0 : mem y ≠ 0 := fun h => hD.no_nul (h ▸ hb)
  rw [skipRound, hr, Trace.ok_bind]
  simp [hr0, hy0, u32_succ hy]

theorem skipRound_nul {y : Nat} (hy : mem y = 0) : skipRound mem d y = .ok (.inl (.atNull y)) := by
  obtain ⟨r, hr, hiff⟩ := strchr_delimiters hD hd hdD (mem y)
  have hr0 : r ≠ 0 := fun h => (hiff.1 h).2 hy
  rw [skipRound, hr, Trace.ok_bind]
  simp [hr0, hy]

theorem skipRound_token {y : Nat} (hb : mem y ∉ D) (hy : mem y ≠ 0) :
    skipRound mem d y = .ok (.inl (.atToken y)) := by
  obtain ⟨r, hr, hiff⟩ := strchr_delimiters hD hd hdD (mem y)
  rw [skipRound, hr, Trace.ok_bind]
  simp [hiff.2 ⟨hb, hy⟩]

theorem scanRound_token {y : Nat} (hb : mem y ∉ D) (hy : mem y ≠ 0) (hy' : y + 1 < 2 ^ 32) :
    scanRound mem d y = .ok (.inr (y + 1)) := by
  obtain ⟨r, hr, hiff⟩ := strchr_delimiters hD hd hdD (mem y)
  rw [scanRound, hr, Trace.ok_bind]
  simp [hiff.2 ⟨hb, hy⟩, u32_succ hy']

theorem scanRound_stop {y : Nat} (hy : mem y ∈ D ∨ mem y = 0) :
    scanRound mem d y = .ok (.inl y) := by
  obtain ⟨r, hr, hiff⟩ := strchr_delimiters hD hd hdD (mem y)
  have hr0 : r ≠ 0 := fun h => hy.elim (fun hb => (hiff.1 h).1 hb) (fun h0 => (hiff.1 h).2 h0)
  rw [scanRound, hr, Trace.ok_bind]
  simp [hr0]

/-- Delimiters are skipped a round each, up to the terminator or a token. -/
theorem skip_run {x : Nat} {ds t : List UInt8} (hds : ∀ b ∈ ds, b ∈ D) (h : CStr mem x (ds ++ t))
    (hend : x + (ds ++ t).length < 2 ^ 32) (fuel : Nat) :
    Loop.run (skipRound mem d) (fun _ => throw .diverge) (fuel + ds.length) x =
      Loop.run (skipRound mem d) (fun _ => throw .diverge) fuel (x + ds.length) := by
  apply Loop.run_advance
  intro i hi
  have hb : mem (x + i) = ds[i] := h.byte_append i hi
  apply skipRound_delim hD hd hdD (hb ▸ hds _ (List.getElem_mem hi))
  simp only [List.length_append] at hend
  omega

/-- The bytes of a token are scanned a round each. -/
theorem scan_run {x : Nat} {token rest : List UInt8} (htok : ∀ b ∈ token, b ∉ D)
    (h : CStr mem x (token ++ rest)) (hend : x + (token ++ rest).length < 2 ^ 32) (fuel : Nat) :
    Loop.run (scanRound mem d) (fun _ => throw .diverge) (fuel + token.length) x =
      Loop.run (scanRound mem d) (fun _ => throw .diverge) fuel (x + token.length) := by
  apply Loop.run_advance
  intro i hi
  have hb : mem (x + i) = token[i] := h.byte_append i hi
  have hmem : token[i] ∈ token ++ rest := List.mem_append_left _ (List.getElem_mem hi)
  apply scanRound_token hD hd hdD (hb ▸ htok _ (List.getElem_mem hi))
    (hb ▸ fun h0 => h.no_nul (h0 ▸ hmem))
  simp only [List.length_append] at hend
  omega

/-- Skipping a string of delimiters ends at its terminator. -/
theorem skip_loop_nul {x : Nat} {ds : List UInt8} (hds : ∀ b ∈ ds, b ∈ D) (h : CStr mem x ds)
    (hend : x + ds.length < 2 ^ 32) :
    Loop.run (skipRound mem d) (fun _ => throw .diverge) (2 ^ 32) x = .ok (.atNull (x + ds.length)) := by
  obtain ⟨f, hf⟩ : ∃ f, 2 ^ 32 = f + 1 + ds.length := ⟨2 ^ 32 - ds.length - 1, by omega⟩
  rw [hf, skip_run hD hd hdD hds (t := []) (by simpa using h) (by simpa using hend)]
  exact Loop.run_succ_of_stop (skipRound_nul hD hd hdD h.nul)

/-- Skipping delimiters ends at the first byte of a token. -/
theorem skip_loop_token {x : Nat} {ds t : List UInt8} {b : UInt8} (hds : ∀ b ∈ ds, b ∈ D)
    (hb : b ∉ D) (h : CStr mem x (ds ++ b :: t)) (hend : x + (ds ++ b :: t).length < 2 ^ 32) :
    Loop.run (skipRound mem d) (fun _ => throw .diverge) (2 ^ 32) x = .ok (.atToken (x + ds.length)) := by
  obtain ⟨f, hf⟩ : ∃ f, 2 ^ 32 = f + 1 + ds.length := ⟨2 ^ 32 - ds.length - 1, by
    simp only [List.length_append, List.length_cons] at hend; omega⟩
  rw [hf, skip_run hD hd hdD hds h hend]
  obtain ⟨hbx, hb0, -⟩ := CStr.cons_iff.1 h.append
  exact Loop.run_succ_of_stop (skipRound_token hD hd hdD (hbx ▸ hb) (hbx ▸ hb0))

/-- Scanning a token ends at the delimiter or terminator after it. -/
theorem scan_loop {x : Nat} {token rest : List UInt8} (htok : ∀ b ∈ token, b ∉ D)
    (hrest : ∀ b t, rest = b :: t → b ∈ D) (h : CStr mem x (token ++ rest))
    (hend : x + (token ++ rest).length < 2 ^ 32) :
    Loop.run (scanRound mem d) (fun _ => throw .diverge) (2 ^ 32) x = .ok (x + token.length) := by
  obtain ⟨f, hf⟩ : ∃ f, 2 ^ 32 = f + 1 + token.length := ⟨2 ^ 32 - token.length - 1, by
    simp only [List.length_append] at hend; omega⟩
  rw [hf, scan_run hD hd hdD htok h hend]
  apply Loop.run_succ_of_stop
  apply scanRound_stop hD hd hdD
  cases rest with
  | nil => exact .inr (by simpa using h.nul)
  | cons b t => exact .inl ((CStr.cons_iff.1 h.append).1 ▸ hrest b t rfl)

theorem strtokR_of_delims {x s sv : Nat} {ds : List UInt8} (hds : ∀ b ∈ ds, b ∈ D)
    (h : CStr mem x ds) (hx : 0 < x) (hend : x + ds.length < 2 ^ 32)
    (hs : (if s = 0 then sv else s) = x) :
    strtokR mem s d sv = .ok (0, mem, x + ds.length) := by
  simp only [strtokR, if_neg (show d ≠ 0 by omega), hs, if_neg (show x ≠ 0 by omega),
    skip_loop_nul hD hd hdD hds h hend]
  rfl

/-- The skip and the scan over a token that starts after the delimiters `ds`. -/
theorem token_loops {x : Nat} {ds token rest : List UInt8} (hds : ∀ b ∈ ds, b ∈ D)
    (htok : ∀ b ∈ token, b ∉ D) (ht : token ≠ []) (hrest : ∀ b t, rest = b :: t → b ∈ D)
    (h : CStr mem x (ds ++ token ++ rest)) (hend : x + (ds ++ token ++ rest).length < 2 ^ 32) :
    Loop.run (skipRound mem d) (fun _ => throw .diverge) (2 ^ 32) x = .ok (.atToken (x + ds.length)) ∧
      Loop.run (scanRound mem d) (fun _ => throw .diverge) (2 ^ 32) (x + ds.length) =
        .ok (x + ds.length + token.length) := by
  obtain ⟨b0, tk, rfl⟩ := List.exists_cons_of_ne_nil ht
  rw [List.append_assoc] at h hend
  constructor
  · exact skip_loop_token hD hd hdD hds (htok b0 List.mem_cons_self) (t := tk ++ rest)
      (by simpa using h) (by simpa using hend)
  · exact scan_loop hD hd hdD htok hrest h.append (by simp only [List.length_append] at hend ⊢; omega)

theorem strtokR_of_last_token {x s sv : Nat} {ds token : List UInt8} (hds : ∀ b ∈ ds, b ∈ D)
    (htok : ∀ b ∈ token, b ∉ D) (ht : token ≠ []) (h : CStr mem x (ds ++ token)) (hx : 0 < x)
    (hend : x + (ds ++ token).length < 2 ^ 32) (hs : (if s = 0 then sv else s) = x) :
    strtokR mem s d sv = .ok (x + ds.length, mem, x + ds.length + token.length) := by
  obtain ⟨hskip, hscan⟩ := token_loops hD hd hdD hds htok ht
    (show ∀ b t, ([] : List UInt8) = b :: t → b ∈ D by simp)
    (by simpa using h) (by simpa using hend)
  have hnul : mem (x + ds.length + token.length) = 0 := by
    have := h.nul
    rwa [List.length_append, ← Nat.add_assoc] at this
  simp only [strtokR, if_neg (show d ≠ 0 by omega), hs, if_neg (show x ≠ 0 by omega), hskip,
    Trace.ok_bind, hscan, hnul]
  rfl

theorem strtokR_of_token_delim {x s sv : Nat} {ds token rest : List UInt8} {b : UInt8}
    (hds : ∀ b ∈ ds, b ∈ D) (htok : ∀ b ∈ token, b ∉ D) (ht : token ≠ []) (hb : b ∈ D)
    (h : CStr mem x (ds ++ token ++ b :: rest)) (hx : 0 < x)
    (hend : x + (ds ++ token ++ b :: rest).length < 2 ^ 32) (hs : (if s = 0 then sv else s) = x) :
    strtokR mem s d sv = .ok (x + ds.length,
      Function.update mem (x + ds.length + token.length) 0, x + ds.length + token.length + 1) := by
  obtain ⟨hskip, hscan⟩ := token_loops hD hd hdD hds htok ht
    (fun _ _ h' => (List.cons.inj h').1 ▸ hb) h hend
  have hbx : mem (x + ds.length + token.length) = b := by
    have := (CStr.cons_iff.1 h.append).1
    rwa [List.length_append, ← Nat.add_assoc] at this
  have hb0 : b ≠ 0 := fun h0 => hD.no_nul (h0 ▸ hb)
  simp only [List.length_append, List.length_cons] at hend
  simp only [strtokR, if_neg (show d ≠ 0 by omega), hs, if_neg (show x ≠ 0 by omega), hskip,
    Trace.ok_bind, hscan, hbx]
  have hu : CInt.u32 ((x : Int) + ds.length + token.length + 1) = x + ds.length + token.length + 1 := by
    simpa using CInt.u32_nat (n := x + ds.length + token.length + 1) (by omega)
  simp [hb0, hu]

/-- What one call of `strtok_r` does to the string `r` at its position `x`: `NULL` when no token
is left; else the first token of `r`, NUL-terminated in place, the position after it and the
string left there, the memory written only within `r`. -/
theorem strtokR_step {x : Nat} {r : List UInt8} (hr : CStr mem x r) (hx : 0 < x)
    (hend : x + r.length < 2 ^ 32) {s sv : Nat} (hs : (if s = 0 then sv else s) = x) :
    (spansFrom D x r = [] ∧ strtokR mem s d sv = .ok (0, mem, x + r.length)) ∨
    ∃ (a : Nat) (w : List UInt8) (mem' : Nat → UInt8) (x' : Nat) (r' : List UInt8),
      strtokR mem s d sv = .ok (a, mem', x') ∧ spansFrom D x r = (a, w) :: spansFrom D x' r' ∧
      x ≤ a ∧ x' + r'.length = x + r.length ∧ r'.length < r.length ∧
      CStr mem' a w ∧ CStr mem' x' r' ∧ (a + w.length < x' ∨ a + w.length = x' ∧ r' = []) ∧
      ∀ y, (y < x ∨ x + r.length ≤ y) → mem' y = mem y := by
  obtain ⟨ds, t, rfl, hds, ht⟩ := exists_cut (· ∈ D) r
  cases t with
  | nil =>
    -- only delimiters are left
    rw [List.append_nil] at hr hend ⊢
    refine .inl ⟨?_, strtokR_of_delims hD hd hdD hds hr hx hend hs⟩
    rw [← List.append_nil ds, spansFrom_delims hds, spansFrom_nil]
  | cons b0 t =>
    obtain ⟨token, rest, htr, htok, hrest⟩ := exists_cut (· ∉ D) (b0 :: t)
    have hne : token ≠ [] := by
      rintro rfl
      exact hrest b0 t (by simpa using htr.symm) (ht b0 t rfl)
    have hlen := List.length_pos_of_ne_nil hne
    rw [htr] at hr hend
    rw [htr, spansFrom_delims hds]
    have htokc : CStr mem (x + ds.length) (token ++ rest) := hr.append
    rw [← List.append_assoc] at hr hend
    refine .inr ?_
    cases rest with
    | nil =>
      -- the token ends at the terminator
      rw [List.append_nil] at hr hend htokc ⊢
      refine ⟨x + ds.length, token, mem, x + ds.length + token.length, [],
        strtokR_of_last_token hD hd hdD hds htok hne hr hx hend hs,
        by rw [spansFrom_token hne htok, spansFrom_nil], by omega, ?_, ?_, htokc,
        CStr.nil_iff.2 htokc.nul, .inr ⟨rfl, rfl⟩, fun _ _ => rfl⟩
      · simp only [List.length_nil, List.length_append]
        omega
      · simp only [List.length_nil, List.length_append]
        omega
    | cons b rest' =>
      -- the token ends at a delimiter, which the call overwrites
      have hb : b ∈ D := not_not.1 (hrest b rest' rfl)
      have hcall := strtokR_of_token_delim hD hd hdD hds htok hne hb hr hx hend hs
      simp only [List.length_append, List.length_cons] at hend ⊢
      refine ⟨x + ds.length, token, Function.update mem (x + ds.length + token.length) 0,
        x + ds.length + token.length + 1, rest', hcall, spansFrom_token_delim hne htok hb _ _,
        by omega, by omega, by omega, ?_, ?_, .inl (by omega),
        fun y hy => Function.update_of_ne (by omega) _ _⟩
      · refine ⟨fun h0 => htokc.no_nul (List.mem_append_left _ h0), fun i hi => ?_, by simp⟩
        rw [Function.update_of_ne (by omega)]
        exact htokc.byte_append i hi
      · exact (CStr.cons_iff.1 htokc.append).2.2.congr fun i _ => Function.update_of_ne (by omega) _ _

end Calls

/-! ## The calls in a loop -/

section Loop

variable {d : Nat} {D : List UInt8}

variable {σ β : Type}

/-- A loop of `strtok_r` calls, one a round, from the position `x` with the string `r` left
there: `hstop` and `hnext` say what a round does with its call's result, `acc` is what the
loop has collected and `entry a w` what it collects for the token `w` at `a`. The loop
collects the tokens of `r` in order, each NUL-terminated in place, and writes only within
`r`, given more rounds of fuel than `r` has bytes. Induction on the fuel, each round by
`strtokR_step`. -/
theorem tokenLoop_run (R : σ → Except Fault ((List β × (Nat → UInt8)) ⊕ σ))
    (memOf : σ → Nat → UInt8) (sOf svOf : σ → Nat) (acc : σ → List β)
    (entry : Nat → List UInt8 → β) (hd : 0 < d) (hdD : d + D.length < 2 ^ 32)
    (hstop : ∀ st y, strtokR (memOf st) (sOf st) d (svOf st) = .ok (0, memOf st, y) →
      R st = .ok (.inl (acc st, memOf st)))
    (hnext : ∀ st a w m y, 0 < a → a + w.length < 2 ^ 32 → CStr m a w →
      strtokR (memOf st) (sOf st) d (svOf st) = .ok (a, m, y) →
      ∃ st', R st = .ok (.inr st') ∧ memOf st' = m ∧
        (if sOf st' = 0 then svOf st' else sOf st') = y ∧ acc st' = acc st ++ [entry a w]) :
    ∀ (n : Nat) (st : σ) (x : Nat) (r : List UInt8),
      CStr (memOf st) x r → CStr (memOf st) d D → 0 < x → x + r.length < 2 ^ 32 →
      (x + r.length < d ∨ d + D.length < x) → (if sOf st = 0 then svOf st else sOf st) = x →
      r.length < n →
      ∃ mem', Loop.run R (fun _ => throw .diverge) n st =
          .ok (acc st ++ (spansFrom D x r).map (fun aw => entry aw.1 aw.2), mem') ∧
        (∀ aw ∈ spansFrom D x r, CStr mem' aw.1 aw.2) ∧
        ∀ y, (y < x ∨ x + r.length ≤ y) → mem' y = memOf st y := by
  intro n
  induction n with
  | zero =>
    intro st x r _ _ _ _ _ _ hn
    exact absurd hn (Nat.not_lt_zero _)
  | succ n ih =>
    intro st x r hr hD hx hend hdisj hs hn
    rcases strtokR_step hD hd hdD hr hx hend hs with
      ⟨hnil, hcall⟩ | ⟨a, w, mem1, x', r', hcall, hspans, hxa, hx', hlt, hw, hr', hafter, hframe⟩
    · -- `NULL`: the loop is over
      refine ⟨memOf st, ?_, by simp [hnil], fun _ _ => rfl⟩
      rw [hnil, List.map_nil, List.append_nil]
      exact Loop.run_succ_of_stop (hstop st _ hcall)
    · -- a token: the loop goes on from the position after it
      have hwend : a + w.length < 2 ^ 32 := by rcases hafter with h | ⟨h, -⟩ <;> omega
      obtain ⟨st', hround, hmem, hs', hacc⟩ := hnext st a w mem1 x' (by omega) hwend hw hcall
      have hD1 : CStr mem1 d D := hD.congr fun i _ => hframe _ (by omega)
      obtain ⟨mem2, hrun, htoks, hframe2⟩ :=
        ih st' x' r' (hmem ▸ hr') (hmem ▸ hD1) (by omega) (by omega) (by omega) hs' (by omega)
      rw [hmem] at hframe2
      refine ⟨mem2, ?_, ?_, fun y hy => (hframe2 y (by omega)).trans (hframe y hy)⟩
      · rw [Loop.run_succ_of_next hround, hrun, hacc, hspans]
        simp
      · rw [hspans]
        rintro aw (_ | ⟨_, haw⟩)
        · refine hw.congr fun i hi => hframe2 _ ?_
          rcases hafter with h | ⟨-, rfl⟩
          · omega
          · simp only [List.length_nil, Nat.add_zero]
            omega
        · exact htoks aw haw

/-- `tokenLoop_run` on a whole string `s` at `p`: within `strlen (s) + 2` rounds, and so on any
fuel beyond. -/
theorem tokenLoop_tokens (R : σ → Except Fault ((List β × (Nat → UInt8)) ⊕ σ))
    (memOf : σ → Nat → UInt8) (sOf svOf : σ → Nat) (acc : σ → List β)
    (entry : Nat → List UInt8 → β) (hd : 0 < d) (hdD : d + D.length < 2 ^ 32)
    (hstop : ∀ st y, strtokR (memOf st) (sOf st) d (svOf st) = .ok (0, memOf st, y) →
      R st = .ok (.inl (acc st, memOf st)))
    (hnext : ∀ st a w m y, 0 < a → a + w.length < 2 ^ 32 → CStr m a w →
      strtokR (memOf st) (sOf st) d (svOf st) = .ok (a, m, y) →
      ∃ st', R st = .ok (.inr st') ∧ memOf st' = m ∧
        (if sOf st' = 0 then svOf st' else sOf st') = y ∧ acc st' = acc st ++ [entry a w])
    (st : σ) {p : Nat} {s : List UInt8} (hs : CStr (memOf st) p s) (hD : CStr (memOf st) d D)
    (hp : 0 < p) (hps : p + s.length < 2 ^ 32) (hdisj : p + s.length < d ∨ d + D.length < p)
    (hsp : (if sOf st = 0 then svOf st else sOf st) = p) (fuel : Nat) (hfuel : s.length + 2 ≤ fuel) :
    ∃ mem', Loop.run R (fun _ => throw .diverge) fuel st =
        .ok (acc st ++ (spansFrom D p s).map (fun aw => entry aw.1 aw.2), mem') ∧
      Loop.run R (fun _ => throw .diverge) (s.length + 2) st =
        .ok (acc st ++ (spansFrom D p s).map (fun aw => entry aw.1 aw.2), mem') ∧
      ∀ aw ∈ spansFrom D p s, CStr mem' aw.1 aw.2 := by
  obtain ⟨mem', hrun, htoks, -⟩ := tokenLoop_run R memOf sOf svOf acc entry hd hdD hstop hnext
    (s.length + 2) st p s hs hD hp hps hdisj hsp (by omega)
  refine ⟨mem', ?_, hrun, htoks⟩
  rw [show fuel = s.length + 2 + (fuel - (s.length + 2)) by omega]
  exact Loop.run_add_of_ok (fun _ _ => Trace.throw_ne_ok) _ _ _ _ hrun

/-- The loop of the example above `strtok_r` on a string `s` at `p`, with the delimiters `D`
elsewhere: it visits the tokens of `s`, in order, each NUL-terminated in place, within
`strlen (s) + 2` calls. -/
theorem strtokLoop_tokens {mem : Nat → UInt8} {p : Nat} {s : List UInt8} (hs : CStr mem p s)
    (hD : CStr mem d D) (hp : 0 < p) (hd : 0 < d) (hps : p + s.length < 2 ^ 32)
    (hdD : d + D.length < 2 ^ 32) (hdisj : p + s.length < d ∨ d + D.length < p) :
    ∃ mem', strtokLoop mem p d = .ok ((spansFrom D p s).map Prod.fst, mem') ∧
      Loop.run (strtokLoopRound d) (fun _ => throw .diverge) (s.length + 2) (mem, p, 0, []) =
        .ok ((spansFrom D p s).map Prod.fst, mem') ∧
      ∀ aw ∈ spansFrom D p s, CStr mem' aw.1 aw.2 := by
  -- the state is `(mem, s, save_ptr, tokens)`, and a round collects the token's pointer
  have hstop : ∀ (st : (Nat → UInt8) × Nat × Nat × List Nat) y,
      strtokR st.1 st.2.1 d st.2.2.1 = .ok (0, st.1, y) →
        strtokLoopRound d st = .ok (.inl (st.2.2.2, st.1)) := by
    rintro ⟨mem, s, sv, toks⟩ y hcall
    simp [strtokLoopRound, hcall]
  have hnext : ∀ (st : (Nat → UInt8) × Nat × Nat × List Nat) a (w : List UInt8) m y, 0 < a →
      a + w.length < 2 ^ 32 → CStr m a w → strtokR st.1 st.2.1 d st.2.2.1 = .ok (a, m, y) →
      ∃ st', strtokLoopRound d st = .ok (.inr st') ∧ st'.1 = m ∧
        (if st'.2.1 = 0 then st'.2.2.1 else st'.2.1) = y ∧ st'.2.2.2 = st.2.2.2 ++ [a] := by
    rintro ⟨mem, s, sv, toks⟩ a w m y ha - - hcall
    exact ⟨(m, 0, y, toks ++ [a]), by simp [strtokLoopRound, hcall, ha.ne'], rfl, by simp, rfl⟩
  obtain ⟨mem', hrun, hrun', htoks⟩ := tokenLoop_tokens (strtokLoopRound d) (fun st => st.1)
    (fun st => st.2.1) (fun st => st.2.2.1) (fun st => st.2.2.2) (fun a _ => a) hd hdD hstop hnext
    (mem, p, 0, []) hs hD hp hps hdisj (by simp [hp.ne']) (2 ^ 32) (by omega)
  exact ⟨mem', hrun, hrun', htoks⟩

end Loop

end Pintos
