import Pintos.Devices.Block
import Pintos.Lib.CInt
import Pintos.Lib.Trace

/-!
`printf` on the console: `__vprintf` of `lib/stdio.c`, with `parse_conversion`,
`format_integer` and `format_string`, and `vprintf` of `lib/kernel/console.c`, which sends
every character `__vprintf` outputs to the console and counts them.

A format is the bytes of its string without the terminator. The variadic arguments are the
32-bit words `va_arg` takes in order, a 64-bit one taking two, low word first; reading past
the last one gives `0`. The bytes of a `%s` string are read through `mem`, which faults
where the memory does: for a user buffer, at an unmapped page.

* `strnlen_eq`: `strnlen` stops at the first `NUL` or at `maxlen`, and it reads the byte
  at `maxlen` too;
* `printf_precision_string`: so `printf ("%.*s", size, s)` prints the bytes of `s` up to
  its first `NUL`, at most `size` of them.
-/

namespace Pintos

/-- A character of a C literal. -/
def chr (c : Char) : UInt8 := c.toNat.toUInt8

/-- `isdigit`. -/
def isDigit (ch : UInt8) : Bool := chr '0' ≤ ch && ch ≤ chr '9'

/-- The flags of `struct printf_conversion`, one bit each. -/
structure PrintfFlags where
  minus : Bool := false
  plus : Bool := false
  space : Bool := false
  pound : Bool := false
  zero : Bool := false
  group : Bool := false
  deriving DecidableEq, Repr

/-- The types of `struct printf_conversion`, from the length modifiers. -/
inductive PrintfType where
  | char
  | short
  | int
  | intmax
  | long
  | longlong
  | ptrdifft
  | sizet
  deriving DecidableEq, Repr

/-- `struct printf_conversion`; a `precision` of `-1` is none. -/
structure PrintfConversion where
  flags : PrintfFlags
  width : Int
  precision : Int
  type : PrintfType
  deriving DecidableEq, Repr

/-- `va_arg` of a 32-bit type. -/
def vaArg : List Nat → Nat × List Nat
  | [] => (0, [])
  | w :: ws => (w, ws)

/-- `va_arg` of a 64-bit type. -/
def vaArg64 (args : List Nat) : Nat × List Nat :=
  let (lo, args) := vaArg args
  let (hi, args) := vaArg args
  (lo + hi * 2 ^ 32, args)

/-! ## `parse_conversion` -/

/-- The flag characters at the start of a conversion. -/
def parseFlags : List UInt8 → PrintfFlags → PrintfFlags × List UInt8
  | [], f => (f, [])
  | ch :: rest, f =>
    if ch = chr '-' then parseFlags rest { f with minus := true }
    else if ch = chr '+' then parseFlags rest { f with plus := true }
    else if ch = chr ' ' then parseFlags rest { f with space := true }
    else if ch = chr '#' then parseFlags rest { f with pound := true }
    else if ch = chr '0' then parseFlags rest { f with zero := true }
    -- the quote character
    else if ch = 0x27 then parseFlags rest { f with group := true }
    else (f, ch :: rest)

/-- `for (; isdigit (*format); format++) n = n * 10 + *format - '0';` -/
def parseDigits : List UInt8 → Int → Int × List UInt8
  | [], n => (n, [])
  | ch :: rest, n =>
    if isDigit ch then parseDigits rest (n * 10 + (ch.toNat - (chr '0').toNat)) else (n, ch :: rest)

/-- The field width: a `*` takes an `int` argument, else digits; a negative width is the
`-` flag. -/
def parseWidth (format : List UInt8) (args : List Nat) (flags : PrintfFlags) :
    Int × PrintfFlags × List UInt8 × List Nat :=
  let (width, format, args) :=
    match format with
    | ch :: rest =>
      if ch = chr '*' then
        let (w, args) := vaArg args
        (CInt.i32 w, rest, args)
      else
        let (w, format) := parseDigits format 0
        (w, format, args)
    | [] => (0, [], args)
  if width < 0 then (-width, { flags with minus := true }, format, args)
  else (width, flags, format, args)

/-- The precision after a `.`: a `*` takes an `int` argument, else digits from `0`; a
negative one is none, `-1`. -/
def parsePrecision (format : List UInt8) (args : List Nat) : Int × List UInt8 × List Nat :=
  match format with
  | ch :: rest =>
    if ch = chr '.' then
      let (precision, format, args) :=
        match rest with
        | ch' :: rest' =>
          if ch' = chr '*' then
            let (p, args) := vaArg args
            (CInt.i32 p, rest', args)
          else
            let (p, format) := parseDigits rest 0
            (p, format, args)
        | [] => (0, [], args)
      (if precision < 0 then -1 else precision, format, args)
    else (-1, format, args)
  | [] => (-1, [], args)

/-- The length modifier: `hh`, `h`, `j`, `l`, `ll`, `t`, `z`, or none for `int`. -/
def parseType (format : List UInt8) : PrintfType × List UInt8 :=
  match format with
  | ch :: rest =>
    if ch = chr 'h' then
      match rest with
      | ch' :: rest' => if ch' = chr 'h' then (.char, rest') else (.short, rest)
      | [] => (.short, rest)
    else if ch = chr 'j' then (.intmax, rest)
    else if ch = chr 'l' then
      match rest with
      | ch' :: rest' => if ch' = chr 'l' then (.longlong, rest') else (.long, rest)
      | [] => (.long, rest)
    else if ch = chr 't' then (.ptrdifft, rest)
    else if ch = chr 'z' then (.sizet, rest)
    else (.int, format)
  | [] => (.int, [])

/-- `parse_conversion (format, &c, &args)`: the conversion, the format from its conversion
character on, and the arguments left. -/
def parseConversion (format : List UInt8) (args : List Nat) :
    PrintfConversion × List UInt8 × List Nat :=
  let (flags, format) := parseFlags format {}
  let flags := if flags.minus then { flags with zero := false } else flags
  let flags := if flags.plus then { flags with space := false } else flags
  let (width, flags, format, args) := parseWidth format args flags
  let (precision, format, args) := parsePrecision format args
  let flags := if precision ≥ 0 then { flags with zero := false } else flags
  let (type, format) := parseType format
  (⟨flags, width, precision, type⟩, format, args)

/-! ## Formatting -/

/-- `struct integer_base`; an `x` of `0` is none. -/
structure IntegerBase where
  base : Nat
  digits : List UInt8
  x : UInt8
  group : Nat

def baseD : IntegerBase := ⟨10, "0123456789".toList.map chr, 0, 3⟩
def baseO : IntegerBase := ⟨8, "01234567".toList.map chr, 0, 3⟩
def baseX : IntegerBase := ⟨16, "0123456789abcdef".toList.map chr, chr 'x', 4⟩
def baseXUpper : IntegerBase := ⟨16, "0123456789ABCDEF".toList.map chr, chr 'X', 4⟩

/-- The digit loop of `format_integer`: `buf` in the order it is filled, lowest digit first,
with a `,` before every `group`-th digit under the `'` flag. Each round divides `value` by
the base, so `value` rounds are enough. -/
def digitLoop (b : IntegerBase) (grouping : Bool) :
    Nat → Nat → Nat → List UInt8 → List UInt8
  | 0, _, _, buf => buf
  | fuel + 1, value, digitCnt, buf =>
    if value > 0 then
      let buf := if grouping ∧ digitCnt > 0 ∧ digitCnt % b.group = 0 then buf ++ [chr ','] else buf
      digitLoop b grouping fuel (value / b.base) (digitCnt + 1)
        (buf ++ [b.digits.getD (value % b.base) 0])
    else buf

/-- `format_integer (value, is_signed, negative, b, c)`. The zeros of the precision stop at
the 63 bytes the buffer holds. -/
def formatInteger (value : Nat) (isSigned negative : Bool) (b : IntegerBase)
    (c : PrintfConversion) : List UInt8 :=
  let sign : Option UInt8 :=
    if isSigned then
      if c.flags.plus then some (if negative then chr '-' else chr '+')
      else if c.flags.space then some (if negative then chr '-' else chr ' ')
      else if negative then some (chr '-') else none
    else none
  let x : UInt8 := if c.flags.pound ∧ value ≠ 0 then b.x else 0
  let buf := digitLoop b c.flags.group value value 0 []
  let precision : Int := if c.precision < 0 then 1 else c.precision
  let buf := buf ++ List.replicate (min precision 63 - buf.length).toNat (chr '0')
  let buf :=
    if c.flags.pound ∧ b.base = 8 ∧ buf.getLast? ≠ some (chr '0') then buf ++ [chr '0'] else buf
  let padCnt : Int :=
    max 0 (c.width - buf.length - (if x ≠ 0 then 2 else 0) - (if sign.isSome then 1 else 0))
  let pad (ch : UInt8) := List.replicate padCnt.toNat ch
  (if !c.flags.minus ∧ !c.flags.zero then pad (chr ' ') else []) ++ sign.toList ++
    (if x ≠ 0 then [chr '0', x] else []) ++ (if c.flags.zero then pad (chr '0') else []) ++
    buf.reverse ++ (if c.flags.minus then pad (chr ' ') else [])

/-- `format_string (string, length, c)`: the `length` bytes, padded with spaces to the
width, on the right under the `-` flag. -/
def formatString (string : List UInt8) (length : Nat) (c : PrintfConversion) : List UInt8 :=
  let pad := if c.width > length then List.replicate (c.width - length).toNat (chr ' ') else []
  (if !c.flags.minus then pad else []) ++ string.take length ++ (if c.flags.minus then pad else [])

/-- The loop of `strnlen (string, maxlen)` from `string[length]`, with `left` bytes to
`maxlen`: it reads `string[length]` before it compares `length` with `maxlen`. -/
def strnlenLoop (mem : Nat → Except Fault UInt8) (string : Nat) : Nat → Nat → Except Fault Nat
  | length, 0 => do
    let _ ← mem (string + length)
    pure length
  | length, left + 1 => do
    let b ← mem (string + length)
    if b = 0 then pure length else strnlenLoop mem string (length + 1) left

/-- `strnlen (string, maxlen)`. -/
def strnlen (mem : Nat → Except Fault UInt8) (string maxlen : Nat) : Except Fault Nat :=
  strnlenLoop mem string 0 maxlen

/-- The `n` bytes from `string`. -/
def readBytes (mem : Nat → Except Fault UInt8) (string : Nat) : Nat → Except Fault (List UInt8)
  | 0 => pure []
  | n + 1 => do
    let b ← mem string
    let bs ← readBytes mem (string + 1) n
    pure (b :: bs)

/-- The bytes of the literal `"(null)"` and its terminator, which `%s` prints for `NULL`. -/
def nullString (i : Nat) : Except Fault UInt8 := pure (("(null)".toList.map chr).getD i 0)

/-- The `s` conversion: the string the argument points to, cut by `strnlen` at the
precision, where a precision of `-1` is `SIZE_MAX`. -/
def stringConversion (mem : Nat → Except Fault UInt8) (c : PrintfConversion) (s : Nat) :
    Except Fault (List UInt8) := do
  let mem := if s = 0 then nullString else mem
  let length ← strnlen mem s (CInt.u32 c.precision)
  let string ← readBytes mem s length
  pure (formatString string length c)

/-- The value of a signed conversion, by its type. -/
def signedArg (type : PrintfType) (args : List Nat) : Int × List Nat :=
  match type with
  | .char => let (w, args) := vaArg args; ((w : Int).bmod (2 ^ 8), args)
  | .short => let (w, args) := vaArg args; ((w : Int).bmod (2 ^ 16), args)
  | .int | .long | .ptrdifft => let (w, args) := vaArg args; (CInt.i32 w, args)
  | .intmax | .longlong => let (w, args) := vaArg64 args; ((w : Int).bmod (2 ^ 64), args)
  | .sizet =>
    -- `if (value > SIZE_MAX / 2) value = value - SIZE_MAX - 1;`
    let (w, args) := vaArg args
    (if w > (2 ^ 32 - 1) / 2 then (w : Int) - (2 ^ 32 - 1) - 1 else w, args)

/-- The value of an unsigned conversion, by its type. -/
def unsignedArg (type : PrintfType) (args : List Nat) : Nat × List Nat :=
  match type with
  | .char => let (w, args) := vaArg args; (w % 2 ^ 8, args)
  | .short => let (w, args) := vaArg args; (w % 2 ^ 16, args)
  | .int | .long | .sizet => let (w, args) := vaArg args; (w % 2 ^ 32, args)
  -- a `ptrdiff_t` widened to `uintmax_t` and masked back to 32 bits
  | .ptrdifft => let (w, args) := vaArg args; (w % 2 ^ 32, args)
  | .intmax | .longlong => let (w, args) := vaArg64 args; (w % 2 ^ 64, args)

/-- `__printf ("<<no %%%c in kernel>>", output, aux, *format)` and the like: the text
around the conversion character. -/
def noConversion (pre post : String) (ch : UInt8) : List UInt8 :=
  pre.toList.map chr ++ [ch] ++ post.toList.map chr

/-- The `switch (*format)` of `__vprintf` on the conversion character `ch`: its output and
the arguments left. -/
def convert (mem : Nat → Except Fault UInt8) (c : PrintfConversion) (ch : UInt8)
    (args : List Nat) : Except Fault (List UInt8 × List Nat) :=
  if ch = chr 'd' ∨ ch = chr 'i' then
    let (value, args) := signedArg c.type args
    pure (formatInteger value.natAbs true (value < 0) baseD c, args)
  else if ch = chr 'o' ∨ ch = chr 'u' ∨ ch = chr 'x' ∨ ch = chr 'X' then
    let (value, args) := unsignedArg c.type args
    let b := if ch = chr 'o' then baseO else if ch = chr 'u' then baseD
      else if ch = chr 'x' then baseX else baseXUpper
    pure (formatInteger value false false b c, args)
  else if ch = chr 'c' then
    let (w, args) := vaArg args
    pure (formatString [w.toUInt8] 1 c, args)
  else if ch = chr 's' then do
    let (s, args) := vaArg args
    let out ← stringConversion mem c s
    pure (out, args)
  else if ch = chr 'p' then
    -- `c.flags = POUND`: the other flags are dropped
    let (p, args) := vaArg args
    pure (formatInteger p false false baseX { c with flags := { pound := true } }, args)
  else if ch = chr 'f' ∨ ch = chr 'e' ∨ ch = chr 'E' ∨ ch = chr 'g' ∨ ch = chr 'G' ∨
      ch = chr 'n' then
    pure (noConversion "<<no %" " in kernel>>" ch, args)
  else pure (noConversion "<<no %" " conversion>>" ch, args)

/-- The loop of `__vprintf` over the format: every round takes at least one byte of it, so
`format.length` rounds are enough. -/
def vprintfLoop (mem : Nat → Except Fault UInt8) :
    Nat → List UInt8 → List Nat → Except Fault (List UInt8)
  | 0, _, _ => pure []
  | _ + 1, [], _ => pure []
  | fuel + 1, ch :: format, args =>
    if ch ≠ chr '%' then do
      let out ← vprintfLoop mem fuel format args
      pure (ch :: out)
    else
      match format with
      | ch' :: format' =>
        if ch' = chr '%' then do
          let out ← vprintfLoop mem fuel format' args
          pure (chr '%' :: out)
        else do
          let (c, format, args) := parseConversion format args
          -- `parse_conversion` stops at the conversion character, `\0` at the end
          let (conv, format) := match format with
            | conv :: format => (conv, format)
            | [] => (0, [])
          let (out, args) ← convert mem c conv args
          let rest ← vprintfLoop mem fuel format args
          pure (out ++ rest)
      | [] => do
        let (out, _) ← convert mem (parseConversion [] args).1 0 args
        pure out

/-- `__vprintf (format, args, output, aux)`: the characters it outputs, in order. -/
def vprintf (mem : Nat → Except Fault UInt8) (format : List UInt8) (args : List Nat) :
    Except Fault (List UInt8) :=
  vprintfLoop mem format.length format args

/-- `printf (format, ...)` in the kernel: `vprintf` of `console.c` writes every character of
`__vprintf` to the console. -/
def printf (mem : Nat → Except Fault UInt8) (format : List UInt8) (args : List Nat) :
    Except Fault (List UInt8) :=
  vprintf mem format args

/-! ## What `%.*s` prints -/

section Bytes

variable {mem : Nat → Except Fault UInt8} {string : Nat} {bytes : Nat → UInt8}

/-- The loop of `strnlen` from `string[length]` ends at the first `NUL` or after `left`
more bytes, whichever comes first, having read the byte it stops at. -/
theorem strnlenLoop_eq :
    ∀ (k length left : Nat), k ≤ left → (∀ i < k, bytes (length + i) ≠ 0) →
      (k = left ∨ bytes (length + k) = 0) →
      (∀ i ≤ k, mem (string + (length + i)) = .ok (bytes (length + i))) →
      strnlenLoop mem string length left = .ok (length + k) := by
  intro k
  induction k with
  | zero =>
    intro length left _ _ hend hmem
    have hb := hmem 0 (Nat.le_refl 0)
    simp only [Nat.add_zero] at hb hend
    cases left with
    | zero => simp [strnlenLoop, hb]
    | succ left =>
      have hz : bytes length = 0 := hend.resolve_left (by omega)
      simp [strnlenLoop, hb, hz]
  | succ k ih =>
    intro length left hk hnz hend hmem
    obtain ⟨left, rfl⟩ : ∃ l, left = l + 1 := ⟨left - 1, by omega⟩
    have hb := hmem 0 (Nat.zero_le _)
    have h0 := hnz 0 (Nat.succ_pos k)
    simp only [Nat.add_zero] at hb h0
    -- the rest of the scan starts one byte on, with one byte less to go
    have hrest := ih (length + 1) left (by omega)
      (fun i hi => by simpa [Nat.add_assoc, Nat.add_comm 1 i] using hnz (i + 1) (by omega))
      (by rcases hend with h | h
          · left; omega
          · right; simpa [Nat.add_assoc, Nat.add_comm 1 k] using h)
      (fun i hi => by simpa [Nat.add_assoc, Nat.add_comm 1 i] using hmem (i + 1) (by omega))
    rw [strnlenLoop, hb, Trace.ok_bind, if_neg h0, hrest]
    simp [Nat.add_assoc, Nat.add_comm 1 k]

/-- `strnlen (string, maxlen)` is the index of the first `NUL` when it comes before
`maxlen`, else `maxlen`; it reads every byte up to that one. -/
theorem strnlen_eq {n maxlen : Nat} (hn : n ≤ maxlen) (hnz : ∀ i < n, bytes i ≠ 0)
    (hend : n = maxlen ∨ bytes n = 0) (hmem : ∀ i ≤ n, mem (string + i) = .ok (bytes i)) :
    strnlen mem string maxlen = .ok n := by
  have h : strnlenLoop mem string 0 maxlen = .ok (0 + n) :=
    strnlenLoop_eq n 0 maxlen hn (by simpa using hnz) (by simpa using hend) (by simpa using hmem)
  simpa [strnlen] using h

theorem readBytes_eq :
    ∀ (n string : Nat) (bytes : Nat → UInt8), (∀ i < n, mem (string + i) = .ok (bytes i)) →
      readBytes mem string n = .ok ((List.range n).map bytes) := by
  intro n
  induction n with
  | zero => intro string bytes _; rfl
  | succ n ih =>
    intro string bytes hmem
    have hb := hmem 0 (Nat.succ_pos n)
    have hrest := ih (string + 1) (fun i => bytes (i + 1))
      (fun i hi => by simpa [Nat.add_assoc, Nat.add_comm 1 i] using hmem (i + 1) (by omega))
    simp only [Nat.add_zero] at hb
    simp [readBytes, hb, hrest, List.range_succ_eq_map, Function.comp_def]

end Bytes

/-- `.*s` after the `%`: no flags, no width, the precision from the first argument, and
the conversion character `s`. -/
theorem parseConversion_precision_star (w : Nat) (args : List Nat) :
    parseConversion [chr '.', chr '*', chr 's'] (w :: args) =
      (⟨{}, 0, if CInt.i32 w < 0 then -1 else CInt.i32 w, .int⟩, [chr 's'], args) := by
  by_cases hw : CInt.i32 w < 0 <;>
    simp +decide [parseConversion, parseFlags, parseWidth, parseDigits, parsePrecision,
      parseType, vaArg, hw]

/-- `printf ("%.*s", size, s)` for a string that is not `NULL` and a `size` that is a
non-negative `int`: the bytes of `s` up to its first `NUL`, at most `size` of them, given
that every byte up to where `strnlen` stops can be read. -/
theorem printf_precision_string {mem : Nat → Except Fault UInt8} {s size n : Nat}
    {bytes : Nat → UInt8} (hs : s ≠ 0) (hsize : size < 2 ^ 31) (hn : n ≤ size)
    (hnz : ∀ i < n, bytes i ≠ 0) (hend : n = size ∨ bytes n = 0)
    (hmem : ∀ i ≤ n, mem (s + i) = .ok (bytes i)) :
    printf mem [chr '%', chr '.', chr '*', chr 's'] [size, s] = .ok ((List.range n).map bytes) := by
  have hw : CInt.i32 size = size := CInt.i32_of_range (by omega) (by omega)
  have hu : CInt.u32 (size : Int) = size := CInt.u32_nat (by omega)
  have hlen : strnlen mem s size = .ok n := strnlen_eq hn hnz hend hmem
  have hread : readBytes mem s n = .ok ((List.range n).map bytes) :=
    readBytes_eq n s bytes (fun i hi => hmem i (by omega))
  have hfmt : formatString ((List.range n).map bytes) n ⟨{}, 0, size, .int⟩ =
      (List.range n).map bytes := by
    simp [formatString, List.take_of_length_le]
  have hp : ¬((size : Int) < 0) := by omega
  simp +decide [printf, vprintf, vprintfLoop, parseConversion_precision_star, hw, hp, convert,
    stringConversion, vaArg, hs, hu, hlen, hread, hfmt]

/-! ## Grouping and precision -/

/-- Under the `'` flag the zeros of the precision count the `,` separators in the buffer as
digits, and they are not grouped: `%'.5d` prints `1234` with four digits and `1` with five
digits but no separator. -/
theorem printf_grouped_precision_counts_separators (mem : Nat → Except Fault UInt8) :
    vprintf mem [chr '%', 0x27, chr '.', chr '5', chr 'd'] [1234] =
        .ok [chr '1', chr ',', chr '2', chr '3', chr '4'] ∧
      vprintf mem [chr '%', 0x27, chr '.', chr '5', chr 'd'] [1] =
        .ok [chr '0', chr '0', chr '0', chr '0', chr '1'] :=
  ⟨rfl, rfl⟩

end Pintos
