import Mathlib.Tactic.Linarith
import Pintos.Lib.CInt

/-!
The 64-bit division helpers of `lib/arithmetic.c`, which gcc calls for `/` and `%` on
`long long` operands of an i386 kernel. Words are Nat (unsigned) and Int (signed) values
with the conversions of `CInt` wherever the C code assigns, returns or does arithmetic in
a fixed width; `none` is the divide error (#DE) of a `div` instruction.

* `udivdi3_eq`: `__udivdi3 (n, d)` is `n / d` for every non-zero `d`, and none of its
  `divl` steps traps;
* `umoddi3_eq`: `__umoddi3 (n, d)` is `n % d` reduced modulo `2^32`, because `umod64`
  returns `uint32_t`; `umoddi3_truncates` is a remainder it loses;
* `divdi3_eq`: `__divdi3 (n, d)` is the quotient rounded toward zero, except for
  `INT64_MIN / -1`;
* `moddi3_eq`: `__moddi3 (n, d)` is the remainder of truncated division reduced to
  `int32_t`, because `smod64` returns `int32_t`.
-/

namespace Pintos

open CInt

/-- `divl (n, d)`: `divl` of `edx:eax = n` by `d`, which raises a divide error when `d` is
zero or the quotient does not fit in 32 bits. -/
def divl (n d : Nat) : Option Nat :=
  if d = 0 ∨ 2 ^ 32 ≤ n / d then none else some (n / d)

/-- One test of `nlz` on the count `n` and the word `x`:
`if (x <= limit) { n += bits; x <<= bits; }`. -/
def nlzStep (limit bits : Nat) (p : Nat × Nat) : Nat × Nat :=
  if p.2 ≤ limit then (p.1 + bits, u32 (p.2 * 2 ^ bits)) else p

/-- `nlz (x)`: the leading zero bits of a `uint32_t`, by halving the search window. -/
def nlz (x : Nat) : Nat :=
  let (n, x) := nlzStep 0x3FFFFFFF 2 <| nlzStep 0x0FFFFFFF 4 <| nlzStep 0x00FFFFFF 8 <|
    nlzStep 0x0000FFFF 16 (0, x)
  if x ≤ 0x7FFFFFFF then n + 1 else n

/-- The branch of `udiv64` for a divisor that fits in 32 bits: two `div`s of the high word
(`n1 % d0`, `n1 / d0`) and one `divl` of the rest. -/
def udiv64Small (n d : Nat) : Option Nat :=
  let b : Nat := 2 ^ 32
  let n1 : Nat := n / 2 ^ 32
  let n0 : Nat := u32 n
  let d0 : Nat := u32 d
  if d0 = 0 then none
  else do
    let q ← divl (u64 (b * (n1 % d0) + n0)) d0
    pure (u64 (q + b * (n1 / d0)))

/-- The branch of `udiv64` for a divisor of more than 32 bits: the normalised estimate of
Hacker's Delight, and its correction by one. -/
def udiv64Large (n d : Nat) : Option Nat :=
  if n < d then some 0
  else do
    let d1 : Nat := d / 2 ^ 32
    let s : Nat := nlz d1
    let q₀ ← divl (n / 2) (u32 (u64 (d * 2 ^ s) / 2 ^ 32 : Nat))
    let q := q₀ / 2 ^ (31 - s)
    pure (if u64 (n - u64 (u64 (q - 1 : Int) * d)) < d then u64 (q - 1 : Int) else q)

/-- `udiv64 (n, d)`. -/
def udiv64 (n d : Nat) : Option Nat :=
  if d / 2 ^ 32 = 0 then udiv64Small n d else udiv64Large n d

/-- `umod64 (n, d)`, whose result type is `uint32_t`. -/
def umod64 (n d : Nat) : Option Nat := do
  let q ← udiv64 n d
  pure (u32 (u64 (n - u64 (d * q))))

/-- `sdiv64 (n, d)`: the quotient of the absolute values, negated when the signs differ. -/
def sdiv64 (n d : Int) : Option Int := do
  let nAbs := if 0 ≤ n then u64 n else u64 (-(u64 n : Int))
  let dAbs := if 0 ≤ d then u64 d else u64 (-(u64 d : Int))
  let qAbs ← udiv64 nAbs dAbs
  pure (if (n < 0 ↔ d < 0) then i64 qAbs else i64 (-(i64 qAbs)))

/-- `smod64 (n, d)`, whose result type is `int32_t`. -/
def smod64 (n d : Int) : Option Int := do
  let q ← sdiv64 n d
  pure (i32 (i64 (n - i64 (d * q))))

/-- `__divdi3 (n, d)`. -/
def divdi3 (n d : Int) : Option Int := sdiv64 n d

/-- `__moddi3 (n, d)`: the `int32_t` of `smod64`, widened to `long long`. -/
def moddi3 (n d : Int) : Option Int := smod64 n d

/-- `__udivdi3 (n, d)`. -/
def udivdi3 (n d : Nat) : Option Nat := udiv64 n d

/-- `__umoddi3 (n, d)`: the `uint32_t` of `umod64`, widened to `unsigned long long`. -/
def umoddi3 (n d : Nat) : Option Nat := umod64 n d

/-! ## `divl` and `nlz` -/

theorem divl_eq {n d : Nat} (hd : 0 < d) (hq : n / d < 2 ^ 32) : divl n d = some (n / d) := by
  unfold divl
  rw [if_neg (by omega)]

/-- The invariant of `nlz`: the word is `x` shifted up by the count, with no bit lost,
and each test leaves a set bit in the top half of the window it searched. -/
theorem nlzStep_spec (x limit bits : Nat) (p : Nat × Nat) (hlim : limit + 1 = 2 ^ (32 - bits))
    (hbits : bits ≤ 16) (hp : p.2 = x * 2 ^ p.1) (hlo : 2 ^ (32 - 2 * bits) ≤ p.2)
    (hhi : p.2 < 2 ^ 32) :
    (nlzStep limit bits p).2 = x * 2 ^ (nlzStep limit bits p).1 ∧
      2 ^ (32 - bits) ≤ (nlzStep limit bits p).2 ∧ (nlzStep limit bits p).2 < 2 ^ 32 := by
  have hw : 2 ^ (32 - bits) * 2 ^ bits = 2 ^ 32 := by
    rw [← Nat.pow_add, Nat.sub_add_cancel (by omega)]
  have hw2 : 2 ^ (32 - 2 * bits) * 2 ^ bits = 2 ^ (32 - bits) := by
    rw [← Nat.pow_add]
    congr 1
    omega
  unfold nlzStep
  split_ifs with h
  · -- the shift loses no bit, since the word is below `2^(32 - bits)`
    have hlt : p.2 * 2 ^ bits < 2 ^ 32 := by
      rw [← hw]
      exact Nat.mul_lt_mul_of_pos_right (by omega) (Nat.two_pow_pos bits)
    have hu : u32 (↑(p.2 * 2 ^ bits)) = p.2 * 2 ^ bits := u32_nat hlt
    push_cast at hu
    refine ⟨?_, ?_, ?_⟩
    · rw [hu, hp, Nat.pow_add, Nat.mul_assoc]
    · rw [hu, ← hw2]
      exact Nat.mul_le_mul_right _ hlo
    · rw [hu]
      exact hlt
  · exact ⟨hp, by omega, hhi⟩

/-- `nlz` shifts a non-zero word up until its top bit is set. -/
theorem nlz_spec {x : Nat} (h0 : 0 < x) (h1 : x < 2 ^ 32) :
    2 ^ 31 ≤ x * 2 ^ nlz x ∧ x * 2 ^ nlz x < 2 ^ 32 := by
  obtain ⟨e16, l16, h16⟩ := nlzStep_spec x 0x0000FFFF 16 (0, x) (by norm_num) (by norm_num)
    (by simp) (by simp; omega) h1
  obtain ⟨e8, l8, h8⟩ := nlzStep_spec x 0x00FFFFFF 8 _ (by norm_num) (by norm_num) e16
    (by simpa using l16) h16
  obtain ⟨e4, l4, h4⟩ := nlzStep_spec x 0x0FFFFFFF 4 _ (by norm_num) (by norm_num) e8
    (by simpa using l8) h8
  obtain ⟨e2, l2, h2⟩ := nlzStep_spec x 0x3FFFFFFF 2 _ (by norm_num) (by norm_num) e4
    (by simpa using l4) h4
  unfold nlz
  generalize nlzStep 0x3FFFFFFF 2 _ = p at e2 l2 h2 ⊢
  obtain ⟨n, y⟩ := p
  dsimp only at e2 l2 h2 ⊢
  -- the last test moves the top bit into place by one more shift
  split_ifs with h
  · have hs : x * 2 ^ (n + 1) = y * 2 := by rw [Nat.pow_succ, ← Nat.mul_assoc, ← e2]
    rw [hs]
    omega
  · rw [← e2]
    omega

/-! ## `udiv64` -/

/-- A divisor that fits in 32 bits: the high word's remainder above the low word is a
numerator whose quotient fits in 32 bits, and the two quotients add up to `n / d`. -/
theorem udiv64Small_eq {n d : Nat} (hd0 : 0 < d) (hd : d < 2 ^ 32) (hn : n < 2 ^ 64) :
    udiv64Small n d = some (n / d) := by
  have hmod := Nat.div_add_mod n (2 ^ 32)
  have hq := Nat.div_add_mod (n / 2 ^ 32) d
  have hr := Nat.mod_lt (n / 2 ^ 32) hd0
  have hlow := Nat.mod_lt n (show 0 < 2 ^ 32 by norm_num)
  have ht : 2 ^ 32 * (n / 2 ^ 32 % d) + n % 2 ^ 32 < d * 2 ^ 32 := by omega
  have hsplit : n / d =
      (2 ^ 32 * (n / 2 ^ 32 % d) + n % 2 ^ 32) / d + 2 ^ 32 * (n / 2 ^ 32 / d) := by
    rw [← Nat.add_mul_div_left _ _ hd0]
    congr 1
    rw [Nat.mul_left_comm]
    omega
  have hlt : (2 ^ 32 * (n / 2 ^ 32 % d) + n % 2 ^ 32) / d < 2 ^ 32 := Nat.div_lt_of_lt_mul ht
  have hres : n / d < 2 ^ 64 := lt_of_le_of_lt (Nat.div_le_self n d) hn
  simp only [udiv64Small, u32_natCast, Nat.mod_eq_of_lt hd, ← Int.natCast_mod,
    ← Int.natCast_div, ← Nat.cast_mul, ← Nat.cast_add, u64_natCast, if_neg hd0.ne']
  rw [Nat.mod_eq_of_lt (by omega), divl_eq hd0 hlt]
  simp only [Option.bind_eq_bind, Option.bind_some, Option.pure_def, Option.some.injEq]
  rw [← hsplit, Nat.mod_eq_of_lt hres]

section Large

variable {n d : Nat}

/-- The normalisation of a divisor of more than 32 bits: `d << s` does not wrap, and its
high word `v1` has its top bit set. -/
theorem normalize_bounds (hd : 2 ^ 32 ≤ d) (hd' : d < 2 ^ 64) :
    nlz (d / 2 ^ 32) ≤ 31 ∧ d * 2 ^ nlz (d / 2 ^ 32) < 2 ^ 64 ∧
      2 ^ 31 ≤ d * 2 ^ nlz (d / 2 ^ 32) / 2 ^ 32 ∧
      d * 2 ^ nlz (d / 2 ^ 32) / 2 ^ 32 < 2 ^ 32 := by
  have hd1 : 0 < d / 2 ^ 32 := Nat.div_pos hd (by norm_num)
  have hd1' : d / 2 ^ 32 < 2 ^ 32 := Nat.div_lt_of_lt_mul (by omega)
  obtain ⟨hs1, hs2⟩ := nlz_spec hd1 hd1'
  generalize nlz (d / 2 ^ 32) = s at hs1 hs2 ⊢
  have hs : s ≤ 31 := by
    have : 2 ^ s < 2 ^ 32 := lt_of_le_of_lt (Nat.le_mul_of_pos_left _ hd1) hs2
    have := (Nat.pow_lt_pow_iff_right (by norm_num)).1 this
    omega
  have hw : 2 ^ (32 - s) * 2 ^ s = 2 ^ 32 := by
    rw [← Nat.pow_add, Nat.sub_add_cancel (by omega)]
  -- the high word is below `2^(32 - s)`, so one more unit of it still fits after the shift
  have hsucc : (d / 2 ^ 32 + 1) * 2 ^ s ≤ 2 ^ 32 := by
    have h : d / 2 ^ 32 * 2 ^ s < 2 ^ (32 - s) * 2 ^ s := by rw [hw]; exact hs2
    calc (d / 2 ^ 32 + 1) * 2 ^ s ≤ 2 ^ (32 - s) * 2 ^ s :=
          Nat.mul_le_mul_right _ (Nat.lt_of_mul_lt_mul_right h)
      _ = 2 ^ 32 := hw
  have hlt : d < (d / 2 ^ 32 + 1) * 2 ^ 32 := by omega
  have hge : d / 2 ^ 32 * 2 ^ 32 ≤ d := Nat.div_mul_le_self d _
  have hv : d * 2 ^ s < 2 ^ 64 := by
    have h1 : d * 2 ^ s < (d / 2 ^ 32 + 1) * 2 ^ 32 * 2 ^ s :=
      Nat.mul_lt_mul_of_pos_right hlt (Nat.two_pow_pos s)
    have h2 : (d / 2 ^ 32 + 1) * 2 ^ s * 2 ^ 32 ≤ 2 ^ 32 * 2 ^ 32 :=
      Nat.mul_le_mul_right _ hsucc
    rw [Nat.mul_right_comm] at h1
    omega
  refine ⟨hs, hv, ?_, Nat.div_lt_of_lt_mul (by omega)⟩
  rw [Nat.le_div_iff_mul_le (by norm_num)]
  have h1 : 2 ^ 31 * 2 ^ 32 ≤ d / 2 ^ 32 * 2 ^ s * 2 ^ 32 := Nat.mul_le_mul_right _ hs1
  have h2 : d / 2 ^ 32 * 2 ^ 32 * 2 ^ s ≤ d * 2 ^ s := Nat.mul_le_mul_right _ hge
  rw [Nat.mul_right_comm] at h2
  exact h1.trans h2

/-- `v1 << (32 - s)`, the high word of `d << s` shifted back, is `d` rounded down to a
multiple of `2^(32 - s)`. -/
theorem round_bounds {s : Nat} (hs : s ≤ 31) :
    d * 2 ^ s / 2 ^ 32 * 2 ^ (32 - s) ≤ d ∧
      d < d * 2 ^ s / 2 ^ 32 * 2 ^ (32 - s) + 2 ^ (32 - s) := by
  have hw : 2 ^ (32 - s) * 2 ^ s = 2 ^ 32 := by
    rw [← Nat.pow_add, Nat.sub_add_cancel (by omega)]
  have h1 : d * 2 ^ s / 2 ^ 32 * 2 ^ (32 - s) * 2 ^ s ≤ d * 2 ^ s := by
    rw [Nat.mul_assoc, hw]
    exact Nat.div_mul_le_self _ _
  have h2 : d * 2 ^ s < (d * 2 ^ s / 2 ^ 32 * 2 ^ (32 - s) + 2 ^ (32 - s)) * 2 ^ s := by
    rw [Nat.add_mul, Nat.mul_assoc, hw]
    exact Nat.lt_div_mul_add (by norm_num)
  exact ⟨Nat.le_of_mul_le_mul_right h1 (Nat.two_pow_pos s),
    Nat.lt_of_mul_lt_mul_right h2⟩

/-- The estimate: `divl (n >> 1, v1) >> (31 - s)` is `n` divided by `v1 << (32 - s)`. -/
theorem estimate_eq (v1 s : Nat) (hs : s ≤ 31) :
    n / 2 / v1 / 2 ^ (31 - s) = n / (v1 * 2 ^ (32 - s)) := by
  rw [Nat.div_div_eq_div_mul, Nat.div_div_eq_div_mul]
  congr 1
  rw [show 32 - s = 31 - s + 1 by omega, Nat.pow_succ]
  ring

/-- Dividing by `d` rounded down to a multiple `D` of `m` overshoots `n / d` by at most
one, for a rounded divisor of at least `2^31 * m` and `n < 2^64`. -/
theorem div_round_le {D m : Nat} (hm : m = 2 ∨ 4 ≤ m) (hD : 2 ^ 31 * m ≤ D) (hDd : D ≤ d)
    (hdD : d < D + m) (hn : n < 2 ^ 64) : n / D ≤ n / d + 1 := by
  by_contra hc
  have hd0 : 0 < d := by omega
  set Q := n / d
  have h1 : (Q + 2) * D ≤ n :=
    le_trans (Nat.mul_le_mul_right D (by omega)) (Nat.div_mul_le_self n D)
  have h2 : n < (Q + 1) * d := by
    rw [Nat.add_mul, Nat.one_mul]
    exact Nat.lt_div_mul_add hd0
  have hQd : Q * d ≤ n := Nat.div_mul_le_self n d
  obtain ⟨e, rfl⟩ : ∃ e, d = D + e := ⟨d - D, by omega⟩
  -- the rounding error `e` times the quotient makes up for a whole `D`
  have h3 : D < (Q + 1) * e := by nlinarith
  rcases hm with rfl | hm
  · -- `m = 2`: `e ≤ 1`, so `Q ≥ D ≥ 2^32` and `Q * d` is already past `2^64`
    have hQ : D ≤ Q := by
      rcases (show e = 0 ∨ e = 1 by omega) with rfl | rfl <;> omega
    have : 2 ^ 32 * 2 ^ 32 ≤ Q * (D + e) := Nat.mul_le_mul (by omega) (by omega)
    omega
  · -- `m ≥ 4`: `Q ≥ 2^31`, so `(Q + 2) * D` is past `2^64`
    have hQ : 2 ^ 31 < Q + 1 := by
      have hem : e < m := by omega
      have he := Nat.mul_lt_mul_of_pos_left hem (show 0 < Q + 1 from Nat.succ_pos Q)
      have : 2 ^ 31 * m < (Q + 1) * m := by omega
      exact Nat.lt_of_mul_lt_mul_right this
    have : (2 ^ 31 + 2) * (2 ^ 31 * 4) ≤ (Q + 2) * D :=
      Nat.mul_le_mul (by omega) (le_trans (Nat.mul_le_mul_left _ hm) hD)
    omega

/-- The correction: an estimate that is `n / d` or one more comes back as `n / d`. -/
theorem correction_eq {q : Nat} (hd : 2 ≤ d) (hdn : d ≤ n) (hn : n < 2 ^ 64)
    (hq : q = n / d ∨ q = n / d + 1) :
    (if u64 (n - u64 (u64 (q - 1 : Int) * d)) < d then u64 (q - 1 : Int) else q) = n / d := by
  have hQ : 0 < n / d := Nat.div_pos hdn (by omega)
  have hmul : n / d * d ≤ n := Nat.div_mul_le_self n d
  have hlt : n < n / d * d + d := Nat.lt_div_mul_add (by omega)
  have hq1 : u64 ((q : Int) - 1) = q - 1 := by
    simpa using u64_sub (show 1 ≤ q by omega) (show q < 2 ^ 64 by
      have := Nat.div_le_div_left hd (show 0 < 2 by norm_num) (a := n)
      omega)
  -- `(q - 1) * d` is at most `n`, so neither subtraction wraps
  have hprod : (q - 1) * d ≤ n := by
    rcases hq with rfl | rfl
    · exact le_trans (Nat.mul_le_mul_right _ (Nat.sub_le _ _)) hmul
    · rw [Nat.add_sub_cancel]
      exact hmul
  rw [hq1, ← Nat.cast_mul, u64_natCast, Nat.mod_eq_of_lt (by omega), u64_sub hprod hn]
  rcases hq with rfl | rfl
  · rw [Nat.sub_one_mul, if_neg (by omega)]
  · rw [Nat.add_sub_cancel, if_pos (by omega)]

/-- A divisor of more than 32 bits. -/
theorem udiv64Large_eq (hd : 2 ^ 32 ≤ d) (hd' : d < 2 ^ 64) (hn : n < 2 ^ 64) :
    udiv64Large n d = some (n / d) := by
  unfold udiv64Large
  split_ifs with hnd
  · rw [Nat.div_eq_of_lt hnd]
  obtain ⟨hs, hv, hv1, hv1'⟩ := normalize_bounds hd hd'
  -- `d << s` does not wrap, and its high word passes through `uint32_t` unchanged
  have hshift : u64 ((d : Int) * 2 ^ nlz (d / 2 ^ 32)) = d * 2 ^ nlz (d / 2 ^ 32) := by
    rw [show (d : Int) * 2 ^ nlz (d / 2 ^ 32) = ((d * 2 ^ nlz (d / 2 ^ 32) : Nat) : Int) by
      push_cast; ring, u64_natCast, Nat.mod_eq_of_lt hv]
  simp only [hshift, u32_natCast, Nat.mod_eq_of_lt hv1']
  set s := nlz (d / 2 ^ 32)
  set v1 := d * 2 ^ s / 2 ^ 32
  have hq0 : n / 2 / v1 < 2 ^ 32 := Nat.div_lt_of_lt_mul (by omega)
  rw [divl_eq (by omega) hq0]
  simp only [Option.bind_eq_bind, Option.bind_some, Option.pure_def]
  rw [estimate_eq v1 s hs]
  obtain ⟨hDd, hdD⟩ := round_bounds (d := d) hs
  congr 1
  apply correction_eq (by omega) (by omega) hn
  -- the estimate is `n / d` or one more
  have hm : 2 ^ (32 - s) = 2 ∨ 4 ≤ 2 ^ (32 - s) := by
    rcases Nat.lt_or_ge s 31 with h | h
    · exact .inr (le_trans (by norm_num) (Nat.pow_le_pow_right (by norm_num) (by omega :
        2 ≤ 32 - s)))
    · exact .inl (by rw [show 32 - s = 1 by omega]; norm_num)
  have hlo : n / d ≤ n / (v1 * 2 ^ (32 - s)) :=
    Nat.div_le_div_left hDd (Nat.mul_pos (by omega) (Nat.two_pow_pos _))
  have hhi := div_round_le hm (Nat.mul_le_mul_right _ hv1) hDd hdD hn
  omega

end Large

/-! ## The unsigned helpers -/

section Unsigned

variable {n d : Nat}

/-- `udiv64` divides exactly, by whichever branch the divisor's high word selects; neither
branch reaches a trapping `divl`. -/
theorem udiv64_eq (hd : 0 < d) (hd' : d < 2 ^ 64) (hn : n < 2 ^ 64) :
    udiv64 n d = some (n / d) := by
  unfold udiv64
  split_ifs with h
  · exact udiv64Small_eq hd (by omega) hn
  · exact udiv64Large_eq (by omega) hd' hn

/-- `umod64` computes `n - d * (n / d)` in 64 bits without wrapping, and then keeps the low
32 bits of it for its `uint32_t` result. -/
theorem umod64_eq (hd : 0 < d) (hd' : d < 2 ^ 64) (hn : n < 2 ^ 64) :
    umod64 n d = some (n % d % 2 ^ 32) := by
  have hmul : d * (n / d) ≤ n := Nat.mul_div_le n d
  simp only [umod64, udiv64_eq hd hd' hn, Option.bind_eq_bind, Option.bind_some,
    Option.pure_def, Option.some.injEq]
  rw [← Nat.cast_mul, u64_natCast, Nat.mod_eq_of_lt (by omega), u64_sub hmul hn,
    ← Nat.mod_eq_sub_mul_div, u32_natCast]

theorem udivdi3_eq (hd : 0 < d) (hd' : d < 2 ^ 64) (hn : n < 2 ^ 64) :
    udivdi3 n d = some (n / d) :=
  udiv64_eq hd hd' hn

theorem udivdi3_eq_of_large :
    udivdi3 (2 ^ 64 - 1) (2 ^ 32 + 1) = some ((2 ^ 64 - 1) / (2 ^ 32 + 1)) :=
  udivdi3_eq (by norm_num) (by norm_num) (by norm_num)

theorem umoddi3_eq (hd : 0 < d) (hd' : d < 2 ^ 64) (hn : n < 2 ^ 64) :
    umoddi3 n d = some (n % d % 2 ^ 32) :=
  umod64_eq hd hd' hn

theorem umoddi3_eq_of_wide : umoddi3 (2 ^ 33 + 5) (2 ^ 33) = some ((2 ^ 33 + 5) % 2 ^ 33 % 2 ^ 32) :=
  umoddi3_eq (by norm_num) (by norm_num) (by norm_num)

/-- The remainder of `2^32` by `2^32 + 1` is `2^32` itself, which the `uint32_t` result of
`umod64` turns into `0`. -/
theorem umoddi3_truncates :
    umoddi3 (2 ^ 32) (2 ^ 32 + 1) = some 0 ∧ 2 ^ 32 % (2 ^ 32 + 1) = 2 ^ 32 := by
  refine ⟨?_, by norm_num⟩
  rw [umoddi3, umod64_eq (by norm_num) (by norm_num) (by norm_num)]
  norm_num

end Unsigned

/-! ## The signed helpers -/

/-- Truncated division by the magnitudes and the signs of its operands, as `sdiv64`
computes it. -/
theorem tdiv_eq_natAbs (n d : Int) :
    n.tdiv d = if (n < 0 ↔ d < 0) then ((n.natAbs / d.natAbs : Nat) : Int)
      else -((n.natAbs / d.natAbs : Nat) : Int) := by
  rcases eq_or_ne d 0 with rfl | hd
  · simp
  -- one case per sign of each operand; a zero dividend sits in the positive case
  obtain ⟨a, rfl | rfl⟩ := Int.eq_nat_or_neg n <;> obtain ⟨b, rfl | rfl⟩ := Int.eq_nat_or_neg d <;>
    have := Nat.div_le_self a b <;> have := Int.natCast_nonneg (a / b) <;>
    simp only [Int.neg_tdiv, Int.tdiv_neg, ← Int.ofNat_tdiv, Int.natAbs_neg, Int.natAbs_natCast] <;>
    split_ifs <;> omega

/-- The remainder of truncated division has the sign of the dividend. -/
theorem tmod_eq_natAbs (n d : Int) :
    n.tmod d = if 0 ≤ n then ((n.natAbs % d.natAbs : Nat) : Int)
      else -((n.natAbs % d.natAbs : Nat) : Int) := by
  obtain ⟨a, rfl | rfl⟩ := Int.eq_nat_or_neg n <;> obtain ⟨b, rfl | rfl⟩ := Int.eq_nat_or_neg d <;>
    have := Nat.mod_le a b <;>
    simp only [Int.neg_tmod, Int.tmod_neg, ← Int.ofNat_tmod, Int.natAbs_neg, Int.natAbs_natCast] <;>
    split_ifs <;> omega

section Signed

variable {n d : Int}

/-- The magnitude `sdiv64` takes of an `int64_t`: `(uint64_t) n`, or `-(uint64_t) n` for a
negative `n`, is `|n|`, `INT64_MIN` included. -/
theorem abs64_eq (h0 : -2 ^ 63 ≤ n) (h1 : n < 2 ^ 63) :
    (if 0 ≤ n then u64 n else u64 (-(u64 n : Int))) = n.natAbs := by
  split_ifs with h
  · rw [← Int.natCast_inj, Int.natAbs_of_nonneg h]
    exact u64_of_lt h (by omega)
  · exact u64_neg_u64 (by omega) (by omega)

variable (hn0 : -2 ^ 63 ≤ n) (hn1 : n < 2 ^ 63) (hd0 : -2 ^ 63 ≤ d) (hd1 : d < 2 ^ 63)
  (hd : d ≠ 0) (hov : ¬(n = -2 ^ 63 ∧ d = -1))
include hn0 hn1 hd0 hd1 hd hov

/-- `sdiv64` divides the magnitudes exactly and gives the quotient its sign; a quotient
of `2^63` arises only from `INT64_MIN / 1`, where negating the wrapped value wraps back. -/
theorem sdiv64_eq : sdiv64 n d = some (n.tdiv d) := by
  have hle : n.natAbs / d.natAbs ≤ n.natAbs := Nat.div_le_self _ _
  have h0 := Int.natCast_nonneg (n.natAbs / d.natAbs)
  have hu : udiv64 n.natAbs d.natAbs = some (n.natAbs / d.natAbs) :=
    udiv64_eq (by omega) (by omega) (by omega)
  simp only [sdiv64, abs64_eq hn0 hn1, abs64_eq hd0 hd1, hu, Option.bind_eq_bind,
    Option.bind_some, Option.pure_def, Option.some.injEq]
  -- the magnitude of the quotient is `2^63` only for `INT64_MIN` divided by `±1`
  have hq : n.natAbs / d.natAbs < 2 ^ 63 ∨ (n = -2 ^ 63 ∧ d.natAbs = 1) := by
    rcases Nat.lt_or_ge d.natAbs 2 with h | h
    · have h1 : d.natAbs = 1 := by omega
      rw [h1, Nat.div_one]
      omega
    · have := Nat.div_le_div_left h (show 0 < 2 by norm_num) (a := n.natAbs)
      omega
  rw [tdiv_eq_natAbs]
  split_ifs with hs
  · exact i64_of_range (by omega) (by omega)
  · rcases hq with hq | ⟨rfl, h1⟩
    · have hi : i64 (n.natAbs / d.natAbs : Nat) = (n.natAbs / d.natAbs : Nat) :=
        i64_of_range (by omega) (by omega)
      rw [hi, i64_of_range (by omega) (by omega)]
    · rw [h1, Nat.div_one]
      decide

/-- `smod64` forms `n - d * q` in 64 bits, where it does not wrap, and keeps the low 32
bits of it for its `int32_t` result. -/
theorem smod64_eq : smod64 n d = some (i32 (n.tmod d)) := by
  have hm := tmod_eq_natAbs n d
  have hle : n.natAbs % d.natAbs ≤ n.natAbs := Nat.mod_le _ _
  -- the remainder lies between `0` and `n`, so `n - r` and `r` both fit in `int64_t`
  have hr : -2 ^ 63 ≤ n.tmod d ∧ n.tmod d < 2 ^ 63 ∧
      -2 ^ 63 ≤ n - n.tmod d ∧ n - n.tmod d < 2 ^ 63 := by
    split_ifs at hm <;> omega
  have hprod : d * n.tdiv d = n - n.tmod d := by
    rw [Int.tmod_def]
    omega
  simp only [smod64, sdiv64_eq hn0 hn1 hd0 hd1 hd hov, Option.bind_eq_bind, Option.bind_some,
    Option.pure_def, Option.some.injEq]
  rw [hprod, i64_of_range hr.2.2.1 hr.2.2.2, sub_sub_cancel, i64_of_range hr.1 hr.2.1]

theorem divdi3_eq : divdi3 n d = some (n.tdiv d) :=
  sdiv64_eq hn0 hn1 hd0 hd1 hd hov

theorem moddi3_eq : moddi3 n d = some (i32 (n.tmod d)) :=
  smod64_eq hn0 hn1 hd0 hd1 hd hov

end Signed

theorem divdi3_eq_of_min : divdi3 (-2 ^ 63) 1 = some ((-2 ^ 63 : Int).tdiv 1) :=
  divdi3_eq (by norm_num) (by norm_num) (by norm_num) (by norm_num) (by norm_num) (by norm_num)

theorem moddi3_eq_of_neg : moddi3 (-7) 2 = some (i32 ((-7 : Int).tmod 2)) :=
  moddi3_eq (by norm_num) (by norm_num) (by norm_num) (by norm_num) (by norm_num) (by norm_num)

end Pintos
