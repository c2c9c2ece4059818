import Mathlib.Tactic.Ring
import Mathlib.Tactic.Linarith

/-!
C's conversions to 32- and 64-bit types as gcc performs them on a two's-complement
machine: to an unsigned type the value is taken modulo `2^32` (`2^64`); to a signed type
it wraps into `[-2^31, 2^31)` (`[-2^63, 2^63)`). A model applies them exactly where the C
source converts (an assignment, a parameter, the usual arithmetic conversions of a
comparison).
-/

namespace CInt

/-- Conversion to `uint32_t` (and `size_t`, `unsigned`, on a 32-bit machine). -/
def u32 (x : Int) : Nat := (x % 2 ^ 32).toNat

/-- Conversion to `int32_t` (and `int`, `off_t`). -/
def i32 (x : Int) : Int := x.bmod (2 ^ 32)

theorem u32_lt (x : Int) : u32 x < 2 ^ 32 := by
  unfold u32
  have h1 := Int.emod_nonneg x (show (2 : Int) ^ 32 ≠ 0 by norm_num)
  have h2 := Int.emod_lt_of_pos x (show (0 : Int) < 2 ^ 32 by norm_num)
  omega

theorem u32_of_lt {x : Int} (h0 : 0 ≤ x) (h1 : x < 2 ^ 32) : (u32 x : Int) = x := by
  unfold u32
  rw [Int.emod_eq_of_lt h0 h1]
  omega

theorem u32_nat {n : Nat} (h : n < 2 ^ 32) : u32 n = n := by
  have := u32_of_lt (Int.natCast_nonneg n) (by omega)
  omega

theorem i32_of_range {x : Int} (h0 : -2 ^ 31 ≤ x) (h1 : x < 2 ^ 31) : i32 x = x :=
  Int.bmod_eq_of_le (by norm_num; omega) (by norm_num; omega)

theorem i32_range (x : Int) : -2 ^ 31 ≤ i32 x ∧ i32 x < 2 ^ 31 := by
  unfold i32
  have h1 := @Int.le_bmod x (2 ^ 32) (by norm_num)
  have h2 := @Int.bmod_lt x (2 ^ 32) (by norm_num)
  norm_num at h1 h2
  exact ⟨h1, h2⟩

/-- Storing a value in an unsigned word and reading it back as a signed one wraps it. -/
theorem i32_u32 (x : Int) : i32 (u32 x) = i32 x := by
  unfold i32 u32
  have h := Int.emod_nonneg x (show (2 : Int) ^ 32 ≠ 0 by norm_num)
  rw [Int.toNat_of_nonneg h, show ((2 : Int) ^ 32) = ((2 ^ 32 : Nat) : Int) by norm_num,
    Int.emod_bmod]

/-- A value of an unsigned word that reads back as a positive `int` was below `2^31`. -/
theorem i32_eq_of_pos {v : Int} (h0 : 0 ≤ v) (h1 : v < 2 ^ 32) (hpos : 0 < i32 v) :
    i32 v = v := by
  have hr := i32_range v
  have hm : i32 v % ((2 ^ 32 : Nat) : Int) = v % ((2 ^ 32 : Nat) : Int) := Int.bmod_emod
  push_cast at hm
  omega

/-- Conversion to `uint64_t` (`unsigned long long`). -/
def u64 (x : Int) : Nat := (x % 2 ^ 64).toNat

/-- Conversion to `int64_t` (`long long`). -/
def i64 (x : Int) : Int := x.bmod (2 ^ 64)

theorem u64_lt (x : Int) : u64 x < 2 ^ 64 := by
  unfold u64
  have h1 := Int.emod_nonneg x (show (2 : Int) ^ 64 ≠ 0 by norm_num)
  have h2 := Int.emod_lt_of_pos x (show (0 : Int) < 2 ^ 64 by norm_num)
  omega

theorem u64_of_lt {x : Int} (h0 : 0 ≤ x) (h1 : x < 2 ^ 64) : (u64 x : Int) = x := by
  unfold u64
  rw [Int.emod_eq_of_lt h0 h1]
  omega

theorem u64_nat {n : Nat} (h : n < 2 ^ 64) : u64 n = n := by
  have := u64_of_lt (Int.natCast_nonneg n) (by omega)
  omega

/-- A `uint64_t` subtraction that does not go below zero. -/
theorem u32_natCast (n : Nat) : u32 n = n % 2 ^ 32 := by
  unfold u32
  omega

theorem u64_natCast (n : Nat) : u64 n = n % 2 ^ 64 := by
  unfold u64
  omega

theorem u64_sub {a b : Nat} (hb : b ≤ a) (ha : a < 2 ^ 64) : u64 ((a : Int) - b) = a - b := by
  have := u64_of_lt (x := (a : Int) - b) (by omega) (by omega)
  omega

/-- `-(uint64_t) n` for a negative `n`: its absolute value. -/
theorem u64_neg_u64 {x : Int} (h0 : -2 ^ 64 < x) (h1 : x < 0) :
    u64 (-(u64 x : Int)) = x.natAbs := by
  have hx : (u64 x : Int) = x + 2 ^ 64 := by
    unfold u64
    omega
  rw [hx]
  unfold u64
  omega

theorem i64_of_range {x : Int} (h0 : -2 ^ 63 ≤ x) (h1 : x < 2 ^ 63) : i64 x = x :=
  Int.bmod_eq_of_le (by norm_num; omega) (by norm_num; omega)

theorem i64_range (x : Int) : -2 ^ 63 ≤ i64 x ∧ i64 x < 2 ^ 63 := by
  unfold i64
  have h1 := @Int.le_bmod x (2 ^ 64) (by norm_num)
  have h2 := @Int.bmod_lt x (2 ^ 64) (by norm_num)
  norm_num at h1 h2
  exact ⟨h1, h2⟩

end CInt
