import Pintos.Devices.Block
import Mathlib.Logic.Function.Basic

/-!
`memmove` and `strlcpy` of `lib/string.c`. Memory is a function from addresses to bytes; a pointer is its
address, `NULL` is `0`. The copy runs forward when `dst < src` and backward otherwise, so
that a byte of the source is read before the copy overwrites it, whichever way the two
ranges overlap (`memmove_eq`).

What the function returns is its cursor `dst` as the chosen loop leaves it: back at `dst_`
after the backward copy, but `size` bytes past it after the forward one
(`memmove_forward_returns_end`). The comment above `memmove` promises `DST`.
-/

namespace Pintos

/-- `while (size-- > 0) *dst++ = *src++;`, with `k` bytes to go: the memory and the cursor
`dst` it leaves. -/
def copyUp (m : Nat → UInt8) (dst src : Nat) : Nat → (Nat → UInt8) × Nat
  | 0 => (m, dst)
  | k + 1 => copyUp (Function.update m dst (m src)) (dst + 1) (src + 1) k

/-- `while (size-- > 0) *--dst = *--src;`, with `k` bytes to go and the cursors one past
the bytes still to copy. -/
def copyDown (m : Nat → UInt8) (dst src : Nat) : Nat → (Nat → UInt8) × Nat
  | 0 => (m, dst)
  | k + 1 => copyDown (Function.update m (dst - 1) (m (src - 1))) (dst - 1) (src - 1) k

/-- `memmove (dst_, src_, size)`: the memory after the copy and the pointer returned. -/
def memmove (m : Nat → UInt8) (dst src size : Nat) : Except Fault ((Nat → UInt8) × Nat) :=
  if dst = 0 ∧ size ≠ 0 then throw .panic
  else if src = 0 ∧ size ≠ 0 then throw .panic
  else if dst < src then pure (copyUp m dst src size)
  else pure (copyDown m (dst + size) (src + size) size)

/-- The forward copy, below its source: each byte is read before any write reaches it. -/
theorem copyUp_eq : ∀ (k : Nat) (m : Nat → UInt8) (dst src : Nat), dst < src →
    copyUp m dst src k =
      (fun x => if dst ≤ x ∧ x < dst + k then m (src + (x - dst)) else m x, dst + k)
  | 0, m, dst, src, _ => by
    simp only [copyUp, Nat.add_zero]
    congr 1
    funext x
    rw [if_neg (by omega)]
  | k + 1, m, dst, src, hlt => by
    rw [copyUp, copyUp_eq k _ (dst + 1) (src + 1) (by omega)]
    congr 1
    · funext x
      by_cases hx : x = dst
      · -- the first byte written
        subst hx
        rw [if_neg (by omega), if_pos (by omega), Function.update_self, Nat.sub_self,
          Nat.add_zero]
      · -- the bytes read later lie past `dst`, which the first write changed
        rw [Function.update_of_ne hx]
        by_cases hr : dst + 1 ≤ x ∧ x < dst + 1 + k
        · rw [if_pos hr, if_pos (by omega), Function.update_of_ne (by omega)]
          congr 1
          omega
        · rw [if_neg hr, if_neg (by omega)]
    · omega

/-- The backward copy, from the ends down, above its source. -/
theorem copyDown_eq : ∀ (k : Nat) (m : Nat → UInt8) (dst src : Nat), src ≤ dst → k ≤ src →
    copyDown m dst src k =
      (fun x => if dst - k ≤ x ∧ x < dst then m (src - (dst - x)) else m x, dst - k)
  | 0, m, dst, src, _, _ => by
    simp only [copyDown, Nat.sub_zero]
    congr 1
    funext x
    rw [if_neg (by omega)]
  | k + 1, m, dst, src, hle, hk => by
    rw [copyDown, copyDown_eq k _ (dst - 1) (src - 1) (by omega) (by omega)]
    congr 1
    · funext x
      by_cases hx : x = dst - 1
      · subst hx
        rw [if_neg (by omega), if_pos (by omega), Function.update_self]
        congr 1
        omega
      · rw [Function.update_of_ne hx]
        by_cases hr : dst - 1 - k ≤ x ∧ x < dst - 1
        · rw [if_pos hr, if_pos (by omega), Function.update_of_ne (by omega)]
          congr 1
          omega
        · rw [if_neg hr, if_neg (by omega)]
    · omega

/-- `memmove` copies the source bytes to `[dst, dst + size)` in either overlap and leaves
every other byte alone; it returns `dst + size` after a forward copy and `dst` after a
backward one. -/
theorem memmove_eq (m : Nat → UInt8) {dst src size : Nat} (hd : dst ≠ 0 ∨ size = 0)
    (hs : src ≠ 0 ∨ size = 0) :
    memmove m dst src size =
      .ok (fun x => if dst ≤ x ∧ x < dst + size then m (src + (x - dst)) else m x,
        if dst < src then dst + size else dst) := by
  unfold memmove
  rw [if_neg (by omega), if_neg (by omega)]
  by_cases hlt : dst < src
  · rw [if_pos hlt, if_pos hlt, copyUp_eq size m dst src hlt]
    rfl
  · rw [if_neg hlt, if_neg hlt, copyDown_eq size m _ _ (by omega) (by omega)]
    -- the cursors one past the ends come back down to `dst` and `src`
    simp only [Nat.add_sub_cancel]
    congr 2
    funext x
    split_ifs with h
    · congr 1
      omega
    · rfl

theorem memmove_eq_of_overlap :
    ((1 : Nat) ≠ 0 ∨ (3 : Nat) = 0) ∧ ((2 : Nat) ≠ 0 ∨ (3 : Nat) = 0) ∧
    memmove (fun x => x.toUInt8) 1 2 3 =
      .ok (fun x => if 1 ≤ x ∧ x < 1 + 3 then (2 + (x - 1)).toUInt8 else x.toUInt8,
        if 1 < 2 then 1 + 3 else 1) :=
  ⟨by decide, by decide, memmove_eq _ (by decide) (by decide)⟩

/-- After a forward copy `memmove` returns the end of the destination, not `dst`. -/
theorem memmove_forward_returns_end (m : Nat → UInt8) {dst src size : Nat} (hd : dst ≠ 0)
    (hlt : dst < src) :
    ∃ m', memmove m dst src size = .ok (m', dst + size) := by
  unfold memmove
  rw [if_neg (by omega), if_neg (by omega), if_pos hlt, copyUp_eq size m dst src hlt]
  exact ⟨_, rfl⟩

theorem memmove_forward_returns_end_of_one :
    (1 : Nat) ≠ 0 ∧ 1 < 2 ∧ ∃ m', memmove (fun _ => 0) 1 2 1 = .ok (m', 1 + 1) :=
  ⟨by decide, by decide, memmove_forward_returns_end _ (by decide) (by decide)⟩

/-- `strlcpy (dst, src, size)` for a C string `src`, given by its bytes without the
terminator: the bytes it stores from `dst` on, at most `size - 1` of `src` and then a
terminator, none if `size` is `0`. -/
def strlcpy (src : List UInt8) (size : Nat) : List UInt8 :=
  if size > 0 then src.take (size - 1) ++ [0] else []

theorem strlcpy_of_lt {src : List UInt8} {size : Nat} (h : src.length < size) :
    strlcpy src size = src ++ [0] := by
  simp [strlcpy, show size > 0 by omega, List.take_of_length_le (show src.length ≤ size - 1 by omega)]

end Pintos
