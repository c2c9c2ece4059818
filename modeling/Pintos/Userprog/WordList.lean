import Pintos.Kernel.Strtok
import Pintos.Userprog.ArgLayout

/-!
`get_word_list` of `userprog/process.c` on the command line in memory: its loop
`while ((token = strtok_r (rest, " ", &rest)))`, which hands `strtok_r` the same variable as
the string and as its save pointer, and the `strlen` of each token. The literal `" "` lies at
`space`; each `word_t` is an entry of the list, with the token's pointer and
`strlen (token) + 1`.

* `getWordListAt_words`: the loop lists the tokens of the command line, in order, each
  NUL-terminated in place, within `strlen (file_name) + 2` calls of `strtok_r`;
* `getWordListAt_refines`: what it lists is `getWordList`, the list model that argument
  passing is proved with (`Pintos.Userprog.ArgLayout`);
* `strtok_r_yields_tokens`: `strtok_r` yields exactly the tokens, for any delimiters and in
  the pattern of `get_word_list`.
-/

namespace Pintos.Userprog

/-- A round of `while ((token = strtok_r (rest, " ", &rest)))` in `get_word_list`: the memory,
`rest`, and the words so far, each as its pointer and `strlen (token) + 1`. -/
def getWordListRound (space : Nat) (c : (Nat → UInt8) × Nat × List (Nat × Nat)) :
    Except Fault ((List (Nat × Nat) × (Nat → UInt8)) ⊕ (Nat → UInt8) × Nat × List (Nat × Nat)) := do
  let (mem, rest, wordLst) := c
  let (token, mem, rest) ← Pintos.strtokR mem rest space rest
  if token = 0 then pure (.inl (wordLst, mem))
  else do
    let lengthWord ← strlen mem token
    pure (.inr (mem, rest, wordLst ++ [(token, lengthWord + 1)]))

/-- `get_word_list (file_name, word_lst)` on the bytes at `fileName`: the words and the memory
after. -/
def getWordListAt (mem : Nat → UInt8) (fileName space : Nat) :
    Except Fault (List (Nat × Nat) × (Nat → UInt8)) :=
  Loop.run (getWordListRound space) (fun _ => throw .diverge) (2 ^ 32) (mem, fileName, [])

/-- The words of `getWordList` are the tokens for the one delimiter `' '`. -/
theorem words_eq_spansFrom (o : Nat) (s : List UInt8) :
    words s = (spansFrom [chr ' '] o s).map Prod.snd := by
  rw [map_snd_spansFrom, words]
  congr 1
  simp only [List.splitOn, List.mem_singleton]
  congr 1

/-- `get_word_list` on a command line `s` at `p`, with `" "` at `space` elsewhere: it lists the
tokens of `s` with their lengths, in order, each NUL-terminated in place, within
`strlen (s) + 2` calls. -/
theorem getWordListAt_words {mem : Nat → UInt8} {p space : Nat} {s : List UInt8}
    (hs : CStr mem p s) (hsp : CStr mem space [chr ' ']) (hp : 0 < p) (hsp0 : 0 < space)
    (hps : p + s.length < 2 ^ 32) (hspe : space + 1 < 2 ^ 32)
    (hdisj : p + s.length < space ∨ space + 1 < p) :
    ∃ mem', getWordListAt mem p space =
        .ok ((spansFrom [chr ' '] p s).map (fun aw => (aw.1, aw.2.length + 1)), mem') ∧
      Loop.run (getWordListRound space) (fun _ => throw .diverge) (s.length + 2) (mem, p, []) =
        .ok ((spansFrom [chr ' '] p s).map (fun aw => (aw.1, aw.2.length + 1)), mem') ∧
      ∀ aw ∈ spansFrom [chr ' '] p s, CStr mem' aw.1 aw.2 := by
  -- the state is `(mem, rest, word_lst)`: `rest` is both the string and the save pointer,
  -- and a round collects the token's pointer and `strlen (token) + 1`
  have hstop : ∀ (st : (Nat → UInt8) × Nat × List (Nat × Nat)) y,
      Pintos.strtokR st.1 st.2.1 space st.2.1 = .ok (0, st.1, y) →
        getWordListRound space st = .ok (.inl (st.2.2, st.1)) := by
    rintro ⟨mem, rest, wordLst⟩ y hcall
    simp [getWordListRound, hcall]
  have hnext : ∀ (st : (Nat → UInt8) × Nat × List (Nat × Nat)) a (w : List UInt8) m y, 0 < a →
      a + w.length < 2 ^ 32 → CStr m a w → Pintos.strtokR st.1 st.2.1 space st.2.1 = .ok (a, m, y) →
      ∃ st', getWordListRound space st = .ok (.inr st') ∧ st'.1 = m ∧
        (if st'.2.1 = 0 then st'.2.1 else st'.2.1) = y ∧ st'.2.2 = st.2.2 ++ [(a, w.length + 1)] := by
    rintro ⟨mem, rest, wordLst⟩ a w m y ha haw hw hcall
    exact ⟨(m, y, wordLst ++ [(a, w.length + 1)]),
      by simp [getWordListRound, hcall, strlen_eq hw ha haw, ha.ne'], rfl, by simp, rfl⟩
  obtain ⟨mem', hrun, hrun', htoks⟩ := tokenLoop_tokens (getWordListRound space) (fun st => st.1)
    (fun st => st.2.1) (fun st => st.2.1) (fun st => st.2.2) (fun a w => (a, w.length + 1))
    (D := [chr ' ']) hsp0 hspe hstop hnext (mem, p, []) hs hsp hp hps hdisj (by simp) (2 ^ 32)
    (by omega)
  exact ⟨mem', hrun, hrun', htoks⟩

/-- The pointer loop of `get_word_list` refines its list model: the string at each pointer it
lists is the word of `getWordList` there, with the same length. -/
theorem getWordListAt_refines {mem : Nat → UInt8} {p space : Nat} {s : List UInt8}
    (hs : CStr mem p s) (hsp : CStr mem space [chr ' ']) (hp : 0 < p) (hsp0 : 0 < space)
    (hps : p + s.length < 2 ^ 32) (hspe : space + 1 < 2 ^ 32)
    (hdisj : p + s.length < space ∨ space + 1 < p) :
    ∃ wordLst mem', getWordListAt mem p space = .ok (wordLst, mem') ∧
      List.Forall₂ (fun tn wn => CStr mem' tn.1 wn.1 ∧ tn.2 = wn.2) wordLst (getWordList s) := by
  obtain ⟨mem', hrun, -, htoks⟩ := getWordListAt_words hs hsp hp hsp0 hps hspe hdisj
  refine ⟨_, mem', hrun, ?_⟩
  rw [getWordList_eq, words_eq_spansFrom p, List.map_map, List.forall₂_map_left_iff,
    List.forall₂_map_right_iff, List.forall₂_same]
  exact fun aw haw => ⟨htoks aw haw, rfl⟩

/-- `strtok_r` yields exactly the tokens: for a string `s` at `p` and delimiters `D` elsewhere,
the calls `strtok_r (s, D, &save_ptr)`, then `strtok_r (NULL, D, &save_ptr)` until `NULL`,
return the maximal nonempty runs of bytes outside `D`, in order, each NUL-terminated where it
lies in `s`, within `strlen (s) + 2` calls; and so does `get_word_list`'s
`strtok_r (rest, " ", &rest)`. -/
theorem strtok_r_yields_tokens :
    (∀ (mem : Nat → UInt8) (p d : Nat) (s D : List UInt8),
      CStr mem p s → CStr mem d D → 0 < p → 0 < d → p + s.length < 2 ^ 32 →
      d + D.length < 2 ^ 32 → (p + s.length < d ∨ d + D.length < p) →
      strlen mem p = .ok s.length ∧
      ∃ mem', strtokLoop mem p d = .ok ((spansFrom D p s).map Prod.fst, mem') ∧
        Loop.run (strtokLoopRound d) (fun _ => throw .diverge) (s.length + 2) (mem, p, 0, []) =
          .ok ((spansFrom D p s).map Prod.fst, mem') ∧
        ∀ aw ∈ spansFrom D p s, CStr mem' aw.1 aw.2) ∧
    ∀ (mem : Nat → UInt8) (p space : Nat) (s : List UInt8),
      CStr mem p s → CStr mem space [chr ' '] → 0 < p → 0 < space → p + s.length < 2 ^ 32 →
      space + 1 < 2 ^ 32 → (p + s.length < space ∨ space + 1 < p) →
      strlen mem p = .ok s.length ∧
      ∃ mem', getWordListAt mem p space =
          .ok ((spansFrom [chr ' '] p s).map (fun aw => (aw.1, aw.2.length + 1)), mem') ∧
        Loop.run (getWordListRound space) (fun _ => throw .diverge) (s.length + 2) (mem, p, []) =
          .ok ((spansFrom [chr ' '] p s).map (fun aw => (aw.1, aw.2.length + 1)), mem') ∧
        ∀ aw ∈ spansFrom [chr ' '] p s, CStr mem' aw.1 aw.2 := by
  constructor
  · intro mem p d s D hs hD hp hd hps hdD hdisj
    exact ⟨strlen_eq hs hp hps, strtokLoop_tokens hs hD hp hd hps hdD hdisj⟩
  · intro mem p space s hs hsp hp hsp0 hps hspe hdisj
    exact ⟨strlen_eq hs hp hps, getWordListAt_words hs hsp hp hsp0 hps hspe hdisj⟩

/-- The memory of `" a  bc"` at `10` and of `" "` at `2`. -/
def aBcMem (a : Nat) : UInt8 :=
  if a = 2 ∨ a = 10 ∨ a = 12 ∨ a = 13 then chr ' '
  else if a = 11 then chr 'a' else if a = 14 then chr 'b' else if a = 15 then chr 'c' else 0

theorem aBc_cstr : CStr aBcMem 10 [chr ' ', chr 'a', chr ' ', chr ' ', chr 'b', chr 'c'] :=
  ⟨by decide, by decide, by decide⟩

theorem space_cstr : CStr aBcMem 2 [chr ' '] := ⟨by decide, by decide, by decide⟩

theorem strtok_r_yields_tokens_on_a_bc :
    (strlen aBcMem 10 = .ok 6 ∧
      ∃ mem', strtokLoop aBcMem 10 2 =
        .ok ((spansFrom [chr ' '] 10 [chr ' ', chr 'a', chr ' ', chr ' ', chr 'b', chr 'c']).map
          Prod.fst, mem') ∧
        Loop.run (strtokLoopRound 2) (fun _ => throw .diverge) 8 (aBcMem, 10, 0, []) =
          .ok ((spansFrom [chr ' '] 10 [chr ' ', chr 'a', chr ' ', chr ' ', chr 'b', chr 'c']).map
            Prod.fst, mem') ∧
        ∀ aw ∈ spansFrom [chr ' '] 10 [chr ' ', chr 'a', chr ' ', chr ' ', chr 'b', chr 'c'],
          CStr mem' aw.1 aw.2) ∧
    (strlen aBcMem 10 = .ok 6 ∧
      ∃ mem', getWordListAt aBcMem 10 2 =
        .ok ((spansFrom [chr ' '] 10 [chr ' ', chr 'a', chr ' ', chr ' ', chr 'b', chr 'c']).map
          (fun aw => (aw.1, aw.2.length + 1)), mem') ∧
        Loop.run (getWordListRound 2) (fun _ => throw .diverge) 8 (aBcMem, 10, []) =
          .ok ((spansFrom [chr ' '] 10 [chr ' ', chr 'a', chr ' ', chr ' ', chr 'b', chr 'c']).map
            (fun aw => (aw.1, aw.2.length + 1)), mem') ∧
        ∀ aw ∈ spansFrom [chr ' '] 10 [chr ' ', chr 'a', chr ' ', chr ' ', chr 'b', chr 'c'],
          CStr mem' aw.1 aw.2) :=
  ⟨strtok_r_yields_tokens.1 _ _ _ _ _ aBc_cstr space_cstr (by decide) (by decide) (by decide)
      (by decide) (by decide),
    strtok_r_yields_tokens.2 _ _ _ _ aBc_cstr space_cstr (by decide) (by decide) (by decide)
      (by decide) (by decide)⟩

/-- The tokens of `" a  bc"` at `10` are `"a"` at `11` and `"bc"` at `14`. -/
example : spansFrom [chr ' '] 10 [chr ' ', chr 'a', chr ' ', chr ' ', chr 'b', chr 'c'] =
    [(11, [chr 'a']), (14, [chr 'b', chr 'c'])] := by decide

end Pintos.Userprog
