import Mathlib.Data.Nat.Digits.Lemmas
import Pintos.Kernel.Console

/-!
What `format_integer` renders, and `snprintf` of `lib/stdio.c`, which stores what `__vprintf`
outputs into a buffer.

* `digitLoop_plain`: without the `'` flag the digit loop writes the digits of the value,
  lowest first;
* `formatInteger_zero_padded`: so `%0<w>o` and the like render a value below `base ^ w` as
  its `w` digits, zeros first;
* `snprintf_zero_padded_octal`: and `snprintf (buf, w + 1, "%0<w>o", value)` stores them
  with a terminator.
-/

namespace Pintos

/-- The characters of a list of digit values, in the same order. -/
def IntegerBase.digitChars (b : IntegerBase) (ds : List Nat) : List UInt8 :=
  ds.map fun d => b.digits.getD d 0

section Digits

variable {b : IntegerBase}

@[simp] theorem digitChars_nil : b.digitChars [] = [] := rfl

@[simp] theorem digitChars_append (ds ds' : List Nat) :
    b.digitChars (ds ++ ds') = b.digitChars ds ++ b.digitChars ds' := by
  simp [IntegerBase.digitChars]

@[simp] theorem digitChars_replicate_zero (n : Nat) :
    b.digitChars (List.replicate n 0) = List.replicate n (b.digits.getD 0 0) := by
  simp [IntegerBase.digitChars]

/-- Without grouping, the digit loop appends the digits of `value`, lowest first, given fuel
for as many rounds as `value`. Induction on the fuel. -/
theorem digitLoop_plain (hb : 2 ≤ b.base) :
    ∀ (fuel value digitCnt : Nat) (buf : List UInt8), value ≤ fuel →
      digitLoop b false fuel value digitCnt buf = buf ++ b.digitChars (Nat.digits b.base value) := by
  intro fuel
  induction fuel with
  | zero =>
    intro value digitCnt buf hv
    obtain rfl : value = 0 := by omega
    simp [digitLoop]
  | succ fuel ih =>
    intro value digitCnt buf hv
    rcases Nat.eq_zero_or_pos value with rfl | hpos
    · simp [digitLoop]
    · have hdiv : value / b.base < value := Nat.div_lt_self hpos (by omega)
      rw [digitLoop, if_pos hpos, ih _ _ _ (by omega), Nat.digits_def' (by omega) hpos]
      simp [IntegerBase.digitChars]

/-- An unsigned conversion with the `0` flag, width `w > 0` and no precision renders a value
below `base ^ w` as exactly `w` digits, zeros first. -/
theorem formatInteger_zero_padded (hb : 2 ≤ b.base) (hzero : b.digits.getD 0 0 = chr '0')
    {width value : Nat} (hw : 0 < width) (hv : value < b.base ^ width) (type : PrintfType) :
    formatInteger value false false b ⟨{ zero := true }, width, -1, type⟩ =
      (b.digitChars (Nat.digitsAppend b.base width value)).reverse := by
  have hlen : (Nat.digits b.base value).length ≤ width :=
    (Nat.digits_length_le_iff (by omega) value).2 hv
  simp only [formatInteger, digitLoop_plain hb value value 0 [] le_rfl, List.nil_append,
    Nat.digitsAppend, digitChars_append, digitChars_replicate_zero, hzero]
  rcases Nat.eq_zero_or_pos value with rfl | hpos
  · -- zero has no digits: the precision puts one `0` in the buffer, the width the rest
    simp only [Nat.digits_zero, List.length_nil, digitChars_nil]
    simp [← List.replicate_succ']
    omega
  · have hne : Nat.digits b.base value ≠ [] := Nat.digits_ne_nil_iff_ne_zero.2 (by omega)
    have hone : 1 ≤ (Nat.digits b.base value).length := List.length_pos_of_ne_nil hne
    have hprec : 1 - (Nat.digits b.base value).length = 0 := by omega
    have hpad : (max 0 ((width : Int) - (Nat.digits b.base value).length)).toNat =
        width - (Nat.digits b.base value).length := by omega
    simp [IntegerBase.digitChars, hprec, hpad]

end Digits

/-- `snprintf (buffer, buf_size, format, ...)`: the bytes it stores, at most
`buf_size - 1` of the output and then a terminator, none if `buf_size` is `0`. -/
def snprintf (mem : Nat → Except Fault UInt8) (bufSize : Nat) (format : List UInt8)
    (args : List Nat) : Except Fault (List UInt8) := do
  let out ← vprintf mem format args
  pure (if bufSize > 0 then out.take (bufSize - 1) ++ [0] else [])

/-- The `w` octal digits of `value`, zeros first. -/
def octalDigits (w value : Nat) : List UInt8 :=
  (baseO.digitChars (Nat.digitsAppend 8 w value)).reverse

theorem length_octalDigits {w value : Nat} (hv : value < 8 ^ w) :
    (octalDigits w value).length = w := by
  simp [octalDigits, IntegerBase.digitChars, Nat.length_digitsAppend (by decide) w hv]

/-- `snprintf (buffer, w + 1, format, value)` for a format that parses as `%0<w>o`: the `w`
octal digits of a value below `8 ^ w` and a terminator. -/
theorem snprintf_zero_padded_octal (mem : Nat → Except Fault UInt8) {fmt : List UInt8}
    {w value : Nat} (hw : 0 < w) (hv : value < 8 ^ w) (hv32 : value < 2 ^ 32)
    (hfmt : parseConversion fmt [value] = (⟨{ zero := true }, w, -1, .int⟩, [chr 'o'], [value])) :
    snprintf mem (w + 1) (chr '%' :: fmt) [value] = .ok (octalDigits w value ++ [0]) := by
  have hrender : formatInteger value false false baseO ⟨{ zero := true }, w, -1, .int⟩ =
      octalDigits w value :=
    formatInteger_zero_padded (by decide) (by decide) hw hv .int
  have hfmt0 : fmt ≠ [] := by
    rintro rfl
    cases hfmt
  obtain ⟨ch, fmt', rfl⟩ := List.exists_cons_of_ne_nil hfmt0
  have hch : ch ≠ chr '%' := by
    rintro rfl
    cases hfmt
  have hdigits := length_octalDigits hv
  simp only [snprintf, vprintf, vprintfLoop, List.length_cons]
  have hmod : value % 4294967296 = value := Nat.mod_eq_of_lt (by omega)
  simp +decide [hch, hfmt, convert, unsignedArg, vaArg, hmod, hrender, vprintfLoop,
    List.take_of_length_le (le_of_eq hdigits)]

end Pintos
