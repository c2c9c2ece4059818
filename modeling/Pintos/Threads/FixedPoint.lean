import Pintos.Devices.Block
import Pintos.Lib.CInt

/-!
The 16.16 fixed-point numbers of `threads/fixed-point.h`. A `fixed_point_t` is its `int`
field `f`, standing for `f / 2^16`; every result goes back into an `int`, which `i32` models
(signed overflow wraps, as the compiler's code does). Division is C's, toward zero: `tdiv`.

`fix_round`, which adds one half and truncates, rounds a nonnegative value to the nearest
integer (`fixRound_bounds`), and `fix_trunc` and `fix_round`
give back every nonnegative `n` that `fix_int` holds (`fixInt_round_trip`). But an `int`
holds `n * 2^16` only for `|n| < 2^15`, half the range the `ASSERT` of `fix_int` admits, and
for a negative value the half added moves it toward zero before the truncation: even
`fix_round (fix_int (n))` is `n + 1` for every negative `n` (`fixed_point_conversions_diverge`).
-/

namespace Pintos.Threads

open CInt

/-- `FIX_P`, the integer bits. -/
def FIX_P : Nat := 16

/-- `FIX_Q`, the fraction bits. -/
def FIX_Q : Nat := 16

/-- `FIX_F`, `1 << FIX_Q`. -/
def FIX_F : Int := 2 ^ FIX_Q

/-- `FIX_MAX_INT`, `(1 << FIX_P) - 1`. -/
def FIX_MAX_INT : Int := 2 ^ FIX_P - 1

/-- `FIX_MIN_INT`, `-FIX_MAX_INT`. -/
def FIX_MIN_INT : Int := -FIX_MAX_INT

/-- `fixed_point_t`: its `int` field `f`. -/
structure FixedPoint where
  f : Int
  range : -2 ^ 31 ≤ f ∧ f < 2 ^ 31

/-- `__mk_fix (f)`, with the value the C code computes stored into the `int` field. -/
def mkFix (f : Int) : FixedPoint := ⟨i32 f, i32_range f⟩

/-- `fix_int (n)`. -/
def fixInt (n : Int) : Except Fault FixedPoint :=
  if n ≥ FIX_MIN_INT ∧ n ≤ FIX_MAX_INT then pure (mkFix (n * FIX_F)) else throw .panic

/-- `fix_frac (n, d)`, the product taken in `long long`. -/
def fixFrac (n d : Int) : Except Fault FixedPoint :=
  if d = 0 then throw .panic
  else if n.tdiv d ≥ FIX_MIN_INT ∧ n.tdiv d ≤ FIX_MAX_INT then
    pure (mkFix ((n * FIX_F).tdiv d))
  else throw .panic

/-- `fix_round (x)`. -/
def fixRound (x : FixedPoint) : Int := (i32 (x.f + FIX_F / 2)).tdiv FIX_F

/-- `fix_trunc (x)`. -/
def fixTrunc (x : FixedPoint) : Int := x.f.tdiv FIX_F

/-- `fix_add (x, y)`. -/
def fixAdd (x y : FixedPoint) : FixedPoint := mkFix (x.f + y.f)

/-- `fix_sub (x, y)`. -/
def fixSub (x y : FixedPoint) : FixedPoint := mkFix (x.f - y.f)

/-- `fix_mul (x, y)`, the product taken in `long long`. -/
def fixMul (x y : FixedPoint) : FixedPoint := mkFix ((x.f * y.f).tdiv FIX_F)

/-- `fix_scale (x, n)`. -/
def fixScale (x : FixedPoint) (n : Int) : Except Fault FixedPoint :=
  if n ≥ 0 then pure (mkFix (x.f * n)) else throw .panic

/-- `fix_div (x, y)`; a zero divisor is the processor's divide error, which the kernel
takes as an unexpected exception. -/
def fixDiv (x y : FixedPoint) : Except Fault FixedPoint :=
  if y.f = 0 then throw .kernelFault else pure (mkFix ((x.f * FIX_F).tdiv y.f))

/-- `fix_unscale (x, n)`. -/
def fixUnscale (x : FixedPoint) (n : Int) : Except Fault FixedPoint :=
  if n > 0 then pure (mkFix (x.f.tdiv n)) else throw .panic

/-- `fix_inv (x)`. -/
def fixInv (x : FixedPoint) : Except Fault FixedPoint := do
  let one ← fixInt 1
  fixDiv one x

/-- `fix_compare (x, y)`. -/
def fixCompare (x y : FixedPoint) : Int :=
  if x.f < y.f then -1 else if x.f > y.f then 1 else 0

/-! ## Division toward zero by `FIX_F` -/

theorem FIX_F_eq : FIX_F = 65536 := rfl

/-- C division of a negative dividend is the floor of its negation, negated. -/
theorem tdiv_of_neg {a b : Int} (ha : a < 0) : a.tdiv b = -((-a) / b) := by
  have h := Int.neg_tdiv (-a) b
  rw [Int.neg_neg] at h
  rw [h, Int.tdiv_eq_ediv_of_nonneg (by omega)]

/-- Inside the range an `int` can hold at 16 fraction bits, `fix_int` is exact. -/
theorem fixInt_eq {n : Int} (h1 : -2 ^ 15 ≤ n) (h2 : n < 2 ^ 15) :
    ∃ x, fixInt n = .ok x ∧ x.f = n * 2 ^ 16 := by
  have hadm : n ≥ FIX_MIN_INT ∧ n ≤ FIX_MAX_INT := by
    rw [show FIX_MIN_INT = -65535 from rfl, show FIX_MAX_INT = 65535 from rfl]
    omega
  refine ⟨mkFix (n * FIX_F), by rw [fixInt, if_pos hadm]; rfl, ?_⟩
  show i32 (n * FIX_F) = n * 2 ^ 16
  rw [FIX_F_eq, i32_of_range (by omega) (by omega)]
  norm_num

/-- A whole number of units truncates to itself. -/
theorem fixTrunc_of_mul {x : FixedPoint} {k : Int} (hx : x.f = k * 2 ^ 16) : fixTrunc x = k := by
  rw [fixTrunc, hx, FIX_F_eq, show (2 : Int) ^ 16 = 65536 by norm_num,
    Int.mul_tdiv_cancel _ (by decide)]

/-- Where the sum cannot overflow, `fix_round` of a nonnegative value is the nearest
integer, a half rounded up. -/
theorem fixRound_bounds (x : FixedPoint) (h0 : 0 ≤ x.f) (h1 : x.f < 2 ^ 31 - 2 ^ 15) :
    fixRound x * 2 ^ 16 - 2 ^ 15 ≤ x.f ∧ x.f < fixRound x * 2 ^ 16 + 2 ^ 15 := by
  have hs : i32 (x.f + FIX_F / 2) = x.f + 2 ^ 15 := by
    rw [FIX_F_eq, i32_of_range (by omega) (by omega)]
    rfl
  rw [fixRound, hs, FIX_F_eq, Int.tdiv_eq_ediv_of_nonneg (by omega)]
  omega

theorem fixRound_bounds_of_three_halves :
    0 ≤ (mkFix 98304).f ∧ (mkFix 98304).f < 2 ^ 31 - 2 ^ 15 ∧
      fixRound (mkFix 98304) * 2 ^ 16 - 2 ^ 15 ≤ (mkFix 98304).f ∧
        (mkFix 98304).f < fixRound (mkFix 98304) * 2 ^ 16 + 2 ^ 15 :=
  ⟨by decide, by decide, fixRound_bounds _ (by decide) (by decide)⟩

/-- The half that `fix_round` adds to a whole number of units. -/
theorem i32_round_of_mul {x : FixedPoint} {n : Int} (hx : x.f = n * 2 ^ 16) (h1 : -2 ^ 15 ≤ n)
    (h2 : n < 2 ^ 15) : i32 (x.f + FIX_F / 2) = n * 65536 + 32768 := by
  rw [hx, FIX_F_eq, i32_of_range (by omega) (by omega)]
  norm_num

/-- `fix_trunc` and `fix_round` give back every nonnegative `n` that `fix_int` holds
exactly. -/
theorem fixInt_round_trip {n : Int} (h0 : 0 ≤ n) (h2 : n < 2 ^ 15) :
    ∃ x, fixInt n = .ok x ∧ fixTrunc x = n ∧ fixRound x = n := by
  obtain ⟨x, hfix, hx⟩ := fixInt_eq (by omega) h2
  refine ⟨x, hfix, fixTrunc_of_mul hx, ?_⟩
  rw [fixRound, i32_round_of_mul hx (by omega) h2, FIX_F_eq,
    Int.tdiv_eq_ediv_of_nonneg (by omega)]
  omega

theorem fixInt_round_trip_of_five :
    (0 : Int) ≤ 5 ∧ (5 : Int) < 2 ^ 15 ∧ ∃ x, fixInt 5 = .ok x ∧ fixTrunc x = 5 ∧ fixRound x = 5 :=
  ⟨by decide, by decide, fixInt_round_trip (by decide) (by decide)⟩

/-- The conversions miss their promise in two places. `FIX_MAX_INT` is `2^16 - 1`, but an
`int` holds `n * 2^16` only for `n < 2^15`: every larger `n` the `ASSERT` admits wraps to a
negative number, which `fix_trunc` reads as `n - 2^16`. And for every negative `n` that
`fix_int` holds exactly, `fix_trunc` gives `n` back but `fix_round` gives `n + 1`. -/
theorem fixed_point_conversions_diverge :
    (∀ n, 2 ^ 15 ≤ n → n ≤ FIX_MAX_INT →
      ∃ x, fixInt n = .ok x ∧ x.f = n * 2 ^ 16 - 2 ^ 32 ∧ fixTrunc x = n - 2 ^ 16) ∧
    (∀ n, -2 ^ 15 ≤ n → n < 0 →
      ∃ x, fixInt n = .ok x ∧ fixTrunc x = n ∧ fixRound x = n + 1) := by
  have hmax : FIX_MAX_INT = 65535 := rfl
  have hmin : FIX_MIN_INT = -65535 := rfl
  constructor
  · intro n h1 h2
    have hwrap : (mkFix (n * FIX_F)).f = n * 2 ^ 16 - 2 ^ 32 := by
      show i32 (n * FIX_F) = _
      -- the product lies in `[2^31, 2^32)`, one turn above the range of an `int`
      rw [FIX_F_eq, CInt.i32, Int.bmod_def, if_neg (by omega),
        Int.emod_eq_of_lt (by omega) (by omega)]
      norm_num
    refine ⟨mkFix (n * FIX_F), by rw [fixInt, if_pos ⟨by omega, h2⟩]; rfl, hwrap,
      fixTrunc_of_mul (k := n - 2 ^ 16) (by rw [hwrap]; ring)⟩
  · intro n h1 hneg
    obtain ⟨x, hfix, hx⟩ := fixInt_eq h1 (by omega)
    refine ⟨x, hfix, fixTrunc_of_mul hx, ?_⟩
    rw [fixRound, i32_round_of_mul hx h1 (by omega), FIX_F_eq, tdiv_of_neg (by omega)]
    omega

theorem fixed_point_conversions_diverge_at_edges :
    ((2 : Int) ^ 15 ≤ 32768 ∧ (32768 : Int) ≤ FIX_MAX_INT ∧
      ∃ x, fixInt 32768 = .ok x ∧ x.f = 32768 * 2 ^ 16 - 2 ^ 32 ∧ fixTrunc x = 32768 - 2 ^ 16) ∧
    (-2 ^ 15 ≤ (-1 : Int) ∧ (-1 : Int) < 0 ∧
      ∃ x, fixInt (-1) = .ok x ∧ fixTrunc x = -1 ∧ fixRound x = -1 + 1) :=
  ⟨⟨by norm_num, by decide, fixed_point_conversions_diverge.1 32768 (by norm_num) (by decide)⟩,
    ⟨by norm_num, by decide, fixed_point_conversions_diverge.2 (-1) (by norm_num) (by decide)⟩⟩

end Pintos.Threads
