import Mathlib.Data.List.TakeWhile
import Pintos.Kernel.Format
import Pintos.Kernel.String

/-!
`ustar_make_header` and `ustar_parse_header` of `lib/ustar.c`. A header is the 512 bytes of
`char header[USTAR_HEADER_SIZE]`; `struct ustar_header` is a view of them, a field being
its `offsetof` and its size. A file name is the bytes of its C string without the
terminator.

* `ustar_header_round_trip`: a header made for a name whose stripped form fits parses back
  to that name, the type and the size, and every header that parses to a file re-encodes
  to one that parses to the same triple.
-/

namespace Pintos

def USTAR_HEADER_SIZE : Nat := 512

/-- `char header[USTAR_HEADER_SIZE]`. -/
abbrev UstarBytes := Fin USTAR_HEADER_SIZE → UInt8

/-- A field of `struct ustar_header`: its `offsetof` and its size. -/
structure UstarField where
  ofs : Nat
  size : Nat

def nameField : UstarField := ⟨0, 100⟩
def modeField : UstarField := ⟨100, 8⟩
def uidField : UstarField := ⟨108, 8⟩
def gidField : UstarField := ⟨116, 8⟩
def sizeField : UstarField := ⟨124, 12⟩
def mtimeField : UstarField := ⟨136, 12⟩
def chksumField : UstarField := ⟨148, 8⟩
def typeflagField : UstarField := ⟨156, 1⟩
def magicField : UstarField := ⟨257, 6⟩
def versionField : UstarField := ⟨263, 2⟩
def unameField : UstarField := ⟨265, 32⟩
def gnameField : UstarField := ⟨297, 32⟩
def prefixField : UstarField := ⟨345, 155⟩

/-- `enum ustar_type`. -/
inductive UstarType where
  | regular
  | directory
  | eof
  deriving DecidableEq, Repr

/-- The byte of a type in the `typeflag` field: `'0'`, `'5'`, and `-1` as a `char`. -/
def UstarType.byte : UstarType → UInt8
  | .regular => chr '0'
  | .directory => chr '5'
  | .eof => 0xff

def ULONG_MAX : Nat := 2 ^ 32 - 1
def INT_MAX : Nat := 2 ^ 31 - 1

namespace UstarBytes

/-- The byte at offset `i`. -/
def byte (h : UstarBytes) (i : Nat) : UInt8 :=
  if hi : i < USTAR_HEADER_SIZE then h ⟨i, hi⟩ else 0

/-- The bytes of a field. -/
def field (h : UstarBytes) (f : UstarField) : List UInt8 :=
  (List.range f.size).map fun k => h.byte (f.ofs + k)

/-- `bs` stored from the start of field `f`, as far as the field reaches. -/
def write (h : UstarBytes) (f : UstarField) (bs : List UInt8) : UstarBytes :=
  fun i => if f.ofs ≤ i.val ∧ i.val - f.ofs < min bs.length f.size then bs.getD (i.val - f.ofs) 0
    else h i

end UstarBytes

/-- `calculate_chksum (h)`: the sum of the header's bytes, with the `chksum` field counted
as spaces. -/
def calculateChksum (h : UstarBytes) : Nat :=
  (List.finRange USTAR_HEADER_SIZE).foldl (fun chksum i =>
    chksum + if chksumField.ofs ≤ i.val ∧ i.val < chksumField.ofs + chksumField.size then
      (chr ' ').toNat else (h i).toNat) 0

/-- The loop of `strip_antisocial_prefixes`: while the name starts with `/`, `./` or `../`,
it goes on after the first `/`, which `strchr` finds at the end of that prefix. -/
def stripLoop : List UInt8 → List UInt8
  | [] => []
  | c :: rest =>
    if c = chr '/' then stripLoop rest
    else if c = chr '.' then
      match rest with
      | c' :: rest' =>
        if c' = chr '/' then stripLoop rest'
        else if c' = chr '.' then
          match rest' with
          | c'' :: rest'' => if c'' = chr '/' then stripLoop rest'' else c :: rest
          | [] => c :: rest
        else c :: rest
      | [] => c :: rest
    else c :: rest

/-- `strip_antisocial_prefixes (file_name)`: `"."` for what is left empty or `".."`. -/
def stripAntisocialPrefixes (fileName : List UInt8) : List UInt8 :=
  let fileName := stripLoop fileName
  if fileName = [] ∨ fileName = [chr '.', chr '.'] then [chr '.'] else fileName

/-- `ustar_make_header (file_name, type, size, header)`: the header, or `none` for `false`
when the stripped name is longer than 99 bytes. The formats are `"%07o"` and `"%011o"`. -/
def ustarMakeHeader (mem : Nat → Except Fault UInt8) (fileName : List UInt8) (type : UstarType)
    (size : Int) : Except Fault (Option UstarBytes) := do
  if type ≠ .regular ∧ type ≠ .directory then throw .panic
  let fileName := stripAntisocialPrefixes fileName
  if fileName.length > 99 then return none
  let h : UstarBytes := fun _ => 0
  let h := h.write nameField (strlcpy fileName nameField.size)
  let mode ← snprintf mem modeField.size ("%07o".toList.map chr)
    [if type = .regular then 0o644 else 0o755]
  let h := h.write modeField mode
  let h := h.write uidField (strlcpy ("0000000".toList.map chr) uidField.size)
  let h := h.write gidField (strlcpy ("0000000".toList.map chr) gidField.size)
  let sizeBytes ← snprintf mem sizeField.size ("%011o".toList.map chr) [CInt.u32 size]
  let h := h.write sizeField sizeBytes
  -- `sizeof h->size`, the size of `mtime` too
  let mtime ← snprintf mem sizeField.size ("%011o".toList.map chr) [1136102400]
  let h := h.write mtimeField mtime
  let h := h.write typeflagField [type.byte]
  let h := h.write magicField (strlcpy ("ustar".toList.map chr) magicField.size)
  let h := h.write versionField [chr '0', chr '0']
  let h := h.write gnameField (strlcpy ("root".toList.map chr) gnameField.size)
  let h := h.write unameField (strlcpy ("root".toList.map chr) unameField.size)
  let chksum ← snprintf mem chksumField.size ("%07o".toList.map chr) [calculateChksum h]
  return some (h.write chksumField chksum)

/-- The loop of `parse_octal_field` over the bytes of the field from offset `ofs`, with the
value so far. -/
def parseOctalLoop : List UInt8 → Nat → Nat → Option Nat
  | [], _, _ => none
  | c :: rest, ofs, value =>
    if chr '0' ≤ c ∧ c ≤ chr '7' then
      if value > ULONG_MAX / 8 then none
      else parseOctalLoop rest (ofs + 1) (c.toNat - (chr '0').toNat + value * 8)
    else if c = chr ' ' ∨ c = 0 then if ofs > 0 then some value else none
    else none

/-- `parse_octal_field (s, size, &value)`: the value, or `none` for `false`. -/
def parseOctalField (s : List UInt8) : Option Nat :=
  parseOctalLoop s 0 0

/-- `is_all_zeros (header, USTAR_HEADER_SIZE)`. -/
def isAllZeros (h : UstarBytes) : Bool :=
  (List.finRange USTAR_HEADER_SIZE).all fun i => h i = 0

/-- `ustar_parse_header (header, &file_name, &type, &size)`: the name (`none` for `NULL`),
type and size it stores, or the message it returns. -/
def ustarParseHeader (h : UstarBytes) : Except String (Option (List UInt8) × UstarType × Nat) :=
  if isAllZeros h then pure (none, .eof, 0)
  else if h.field magicField ≠ "ustar".toList.map chr ++ [0] then throw "not a ustar archive"
  else if h.byte versionField.ofs ≠ chr '0' ∨ h.byte (versionField.ofs + 1) ≠ chr '0' then
    throw "invalid ustar version"
  else match parseOctalField (h.field chksumField) with
    | none => throw "corrupt chksum field"
    | some chksum =>
      if chksum ≠ calculateChksum h then throw "checksum mismatch"
      else if h.byte (nameField.ofs + nameField.size - 1) ≠ 0 ∨ h.byte prefixField.ofs ≠ 0 then
        throw "file name too long"
      else if h.byte typeflagField.ofs ≠ UstarType.regular.byte ∧
          h.byte typeflagField.ofs ≠ UstarType.directory.byte then
        throw "unimplemented file type"
      else do
        let type := if h.byte typeflagField.ofs = UstarType.regular.byte then UstarType.regular
          else .directory
        let size ← if type = .regular then
            match parseOctalField (h.field sizeField) with
            | none => throw "corrupt file size field"
            | some size => if size > INT_MAX then throw "file too large" else pure size
          else pure 0
        pure (some (stripAntisocialPrefixes ((h.field nameField).takeWhile (· ≠ 0))), type, size)

/-! ## Fields -/

namespace UstarBytes

variable {h : UstarBytes} {f g : UstarField} {bs : List UInt8}

theorem byte_write {i : Nat} (hi : i < USTAR_HEADER_SIZE) :
    (h.write f bs).byte i =
      if f.ofs ≤ i ∧ i - f.ofs < min bs.length f.size then bs.getD (i - f.ofs) 0
      else h.byte i := by
  simp [byte, write, hi]

@[simp] theorem length_field : (h.field f).length = f.size := by
  simp [field]

theorem getD_field {k : Nat} (hk : k < f.size) : (h.field f).getD k 0 = h.byte (f.ofs + k) := by
  simp [field, hk]

@[simp] theorem field_zero : field (fun _ => 0) f = List.replicate f.size 0 := by
  simp [field, byte]

/-- A write leaves the fields it does not overlap as they were. -/
theorem field_write_of_disjoint (hd : f.ofs + f.size ≤ g.ofs ∨ g.ofs + g.size ≤ f.ofs) :
    (h.write g bs).field f = h.field f := by
  simp only [field, List.map_inj_left, List.mem_range]
  intro k hk
  by_cases hi : f.ofs + k < USTAR_HEADER_SIZE
  · rw [byte_write hi, if_neg (by omega)]
  · simp [byte, hi]

/-- A write into its own field reads back as what it wrote and what the field held past it. -/
theorem field_write_self (hf : f.ofs + f.size ≤ USTAR_HEADER_SIZE) (hl : bs.length ≤ f.size) :
    (h.write f bs).field f = bs ++ (h.field f).drop bs.length := by
  apply List.ext_getElem
  · simp
    omega
  · intro k hk _
    simp only [length_field] at hk
    have hi : f.ofs + k < USTAR_HEADER_SIZE := by omega
    simp only [field, List.getElem_map, List.getElem_range, byte_write hi]
    by_cases hkb : k < bs.length
    · rw [if_pos (by omega), List.getElem_append_left hkb]
      simp [hkb]
    · rw [if_neg (by omega), List.getElem_append_right (by omega)]
      simp
      congr 2
      omega

/-- A write that fills its field reads back as what it wrote. -/
theorem field_write_of_length (hf : f.ofs + f.size ≤ USTAR_HEADER_SIZE) (hl : bs.length = f.size) :
    (h.write f bs).field f = bs := by
  rw [field_write_self hf hl.le, hl, List.drop_eq_nil_of_le (by simp), List.append_nil]

end UstarBytes

/-! ## The checksum -/

/-- The checksum does not read the `chksum` field. -/
theorem calculateChksum_write_chksumField (h : UstarBytes) (bs : List UInt8) :
    calculateChksum (h.write chksumField bs) = calculateChksum h := by
  unfold calculateChksum
  congr 1
  funext chksum i
  by_cases hi : chksumField.ofs ≤ i.val ∧ i.val < chksumField.ofs + chksumField.size
  · simp only [if_pos hi]
  · simp only [if_neg hi, UstarBytes.write]
    rw [if_neg (by omega)]

theorem foldl_add_le {β : Type} (t : β → Nat) {m : Nat} (ht : ∀ x, t x ≤ m) :
    ∀ (l : List β) (a : Nat), l.foldl (fun c x => c + t x) a ≤ a + m * l.length := by
  intro l
  induction l with
  | nil => simp
  | cons x l ih =>
    intro a
    have := ih (a + t x)
    have := ht x
    simp only [List.foldl_cons, List.length_cons]
    grind

/-- A checksum is at most `512 * 255`, so `"%07o"` renders it in full. -/
theorem calculateChksum_lt (h : UstarBytes) : calculateChksum h < 8 ^ 7 := by
  have hle := foldl_add_le (fun i : Fin USTAR_HEADER_SIZE =>
      if chksumField.ofs ≤ i.val ∧ i.val < chksumField.ofs + chksumField.size then
        (chr ' ').toNat else (h i).toNat) (m := 255)
    (fun i => by split <;> [decide; exact Nat.le_of_lt_succ (h i).toNat_lt])
    (List.finRange USTAR_HEADER_SIZE) 0
  simp only [List.length_finRange] at hle
  unfold calculateChksum
  simp only [USTAR_HEADER_SIZE] at hle ⊢
  omega

/-! ## Octal fields -/

/-- The big-endian reading of a little-endian digit list is its value. -/
theorem foldl_reverse_eq_ofDigits (b : Nat) (ds : List Nat) :
    ds.reverse.foldl (fun a d => d + a * b) 0 = Nat.ofDigits b ds := by
  rw [List.foldl_reverse]
  induction ds with
  | nil => rfl
  | cons d ds ih =>
    rw [List.foldr_cons, ih, Nat.ofDigits_cons, Nat.mul_comm]

theorem le_foldl_octal : ∀ (ds : List Nat) (a : Nat), a ≤ ds.foldl (fun a d => d + a * 8) a := by
  intro ds
  induction ds with
  | nil => simp
  | cons d ds ih =>
    intro a
    have := ih (d + a * 8)
    simp only [List.foldl_cons]
    omega

theorem octal_digit_char : ∀ d < 8, chr '0' ≤ baseO.digits.getD d 0 ∧
    baseO.digits.getD d 0 ≤ chr '7' ∧ (baseO.digits.getD d 0).toNat - (chr '0').toNat = d := by
  decide

/-- Octal digits below `ULONG_MAX` in all are read as their value. Induction on the digits;
each value so far is at most an eighth of the last. -/
theorem parseOctalLoop_digits :
    ∀ (ds : List Nat) (ofs value : Nat) (rest : List UInt8), (∀ d ∈ ds, d < 8) →
      ds.foldl (fun a d => d + a * 8) value ≤ ULONG_MAX →
      parseOctalLoop (baseO.digitChars ds ++ rest) ofs value =
        parseOctalLoop rest (ofs + ds.length) (ds.foldl (fun a d => d + a * 8) value) := by
  intro ds
  induction ds with
  | nil => simp
  | cons d ds ih =>
    intro ofs value rest hds hmax
    have hd := octal_digit_char d (hds d (by simp))
    have hstep := le_foldl_octal ds (d + value * 8)
    simp only [List.foldl_cons] at hmax hstep
    have hvalue : ¬value > ULONG_MAX / 8 := by
      simp only [ULONG_MAX] at hmax ⊢
      omega
    have hrest := ih (ofs + 1) (d + value * 8) rest (fun d' hd' => hds d' (by simp [hd']))
      hmax
    simp only [IntegerBase.digitChars, List.map_cons, List.cons_append] at hrest ⊢
    rw [parseOctalLoop, if_pos ⟨hd.1, hd.2.1⟩, if_neg hvalue, hd.2.2, hrest]
    simp [Nat.add_assoc, Nat.add_comm 1]

/-- `parse_octal_field` reads back what `"%0<w>o"` writes, up to the terminator. -/
theorem parseOctalField_octalDigits {w value : Nat} (hw : 0 < w) (hv : value < 8 ^ w)
    (hmax : value ≤ ULONG_MAX) (rest : List UInt8) :
    parseOctalField (octalDigits w value ++ 0 :: rest) = some value := by
  have hds : ∀ d ∈ (Nat.digitsAppend 8 w value).reverse, d < 8 := fun d hd =>
    Nat.lt_of_mem_digitsAppend (by decide) w d (List.mem_reverse.1 hd)
  have hval : (Nat.digitsAppend 8 w value).reverse.foldl (fun a d => d + a * 8) 0 = value := by
    rw [foldl_reverse_eq_ofDigits, Nat.digitsAppend, Nat.ofDigits_append_replicate_zero,
      Nat.ofDigits_digits]
  have hlen : (Nat.digitsAppend 8 w value).reverse.length = w := by
    rw [List.length_reverse, Nat.length_digitsAppend (by decide) w hv]
  have hchars : octalDigits w value = baseO.digitChars (Nat.digitsAppend 8 w value).reverse := by
    simp [octalDigits, IntegerBase.digitChars, List.map_reverse]
  rw [parseOctalField, hchars, parseOctalLoop_digits _ 0 0 _ hds (by rw [hval]; exact hmax),
    hval, hlen]
  simp [parseOctalLoop, show ¬(chr '0' ≤ 0) by decide, hw]

/-! ## Stripping prefixes -/

/-- The loop strips a prefix of the name. -/
theorem stripLoop_suffix (s : List UInt8) : stripLoop s <:+ s := by
  fun_induction stripLoop s with
  | case2 rest ih => exact ih.trans (List.suffix_cons _ _)
  | case3 rest _ ih => exact ih.trans ((List.suffix_cons _ _).trans (List.suffix_cons _ _))
  | case4 rest _ _ ih =>
    exact ih.trans (((List.suffix_cons _ _).trans (List.suffix_cons _ _)).trans
      (List.suffix_cons _ _))
  | _ => exact List.suffix_refl _

/-- What the loop leaves starts with none of the prefixes, so a second run keeps it. -/
theorem stripLoop_stripLoop (s : List UInt8) : stripLoop (stripLoop s) = stripLoop s := by
  fun_induction stripLoop s with
  | case7 c rest h1 h2 h3 =>
    rw [stripLoop.eq_def]
    simp [h1, h2, h3]
  | case9 c rest h1 h2 =>
    rw [stripLoop.eq_def]
    simp [h1, h2]
  | _ => simp_all [stripLoop]

theorem stripAntisocialPrefixes_idem (s : List UInt8) :
    stripAntisocialPrefixes (stripAntisocialPrefixes s) = stripAntisocialPrefixes s := by
  unfold stripAntisocialPrefixes
  by_cases h : stripLoop s = [] ∨ stripLoop s = [chr '.', chr '.']
  · simp only [if_pos h]
    decide
  · simp only [if_neg h, stripLoop_stripLoop]

theorem suffix_stripAntisocialPrefixes (s : List UInt8) :
    stripAntisocialPrefixes s <:+ s ∨ stripAntisocialPrefixes s = [chr '.'] := by
  unfold stripAntisocialPrefixes
  dsimp only
  split_ifs
  · exact .inr rfl
  · exact .inl (stripLoop_suffix s)

theorem zero_not_mem_stripAntisocialPrefixes {s : List UInt8} (hs : 0 ∉ s) :
    0 ∉ stripAntisocialPrefixes s := by
  rcases suffix_stripAntisocialPrefixes s with h | h
  · exact fun h0 => hs (h.subset h0)
  · rw [h]
    decide

/-! ## Making a header -/

/-- `snprintf (buffer, 8, "%07o", value)`. -/
theorem snprintf_07o (mem : Nat → Except Fault UInt8) {value : Nat} (hv : value < 8 ^ 7) :
    snprintf mem 8 ("%07o".toList.map chr) [value] = .ok (octalDigits 7 value ++ [0]) :=
  snprintf_zero_padded_octal mem (by decide) hv (by omega) rfl

/-- `snprintf (buffer, 12, "%011o", value)`. -/
theorem snprintf_011o (mem : Nat → Except Fault UInt8) {value : Nat} (hv : value < 8 ^ 11)
    (hv32 : value < 2 ^ 32) :
    snprintf mem 12 ("%011o".toList.map chr) [value] = .ok (octalDigits 11 value ++ [0]) :=
  snprintf_zero_padded_octal mem (by decide) hv hv32 rfl

/-- What `ustar_make_header` leaves in the fields that `ustar_parse_header` reads, for the
stripped name `name`. -/
structure MadeHeader (h : UstarBytes) (name : List UInt8) (type : UstarType) (size : Nat) :
    Prop where
  name_eq : h.field nameField = name ++ 0 :: List.replicate (99 - name.length) 0
  magic_eq : h.field magicField = "ustar".toList.map chr ++ [0]
  version_eq : h.field versionField = [chr '0', chr '0']
  chksum_eq : h.field chksumField = octalDigits 7 (calculateChksum h) ++ [0]
  prefix_eq : h.field prefixField = List.replicate 155 0
  typeflag_eq : h.field typeflagField = [type.byte]
  size_eq : h.field sizeField = octalDigits 11 size ++ [0]

/-- A regular file or directory whose stripped name fits, of a size that is a
non-negative `int`, gets a header. -/
theorem ustarMakeHeader_made (mem : Nat → Except Fault UInt8) {fileName : List UInt8}
    {type : UstarType} {size : Int} (htype : type = .regular ∨ type = .directory)
    (hlen : (stripAntisocialPrefixes fileName).length ≤ 99) (h0 : 0 ≤ size)
    (hsize : size ≤ INT_MAX) :
    ∃ h, ustarMakeHeader mem fileName type size = .ok (some h) ∧
      MadeHeader h (stripAntisocialPrefixes fileName) type size.toNat := by
  have hu : CInt.u32 size = size.toNat := by
    have := CInt.u32_of_lt h0 (by simp only [INT_MAX] at hsize; omega)
    omega
  have hmode : ∀ v ∈ [0o644, 0o755], snprintf mem 8 ("%07o".toList.map chr) [v] =
      .ok (octalDigits 7 v ++ [0]) := by
    simp only [List.mem_cons, List.not_mem_nil, or_false]
    rintro v (rfl | rfl) <;> exact snprintf_07o mem (by decide)
  have hsz := @snprintf_011o mem size.toNat (by simp only [INT_MAX] at hsize; omega)
    (by simp only [INT_MAX] at hsize; omega)
  have hmtime := @snprintf_011o mem 1136102400 (by decide) (by decide)
  have hchksum : ∀ h, snprintf mem 8 ("%07o".toList.map chr) [calculateChksum h] =
      .ok (octalDigits 7 (calculateChksum h) ++ [0]) := fun h =>
    snprintf_07o mem (calculateChksum_lt h)
  have htype' : ¬(type ≠ .regular ∧ type ≠ .directory) := by
    rcases htype with rfl | rfl <;> simp
  have hlen' : ¬(stripAntisocialPrefixes fileName).length > 99 := by omega
  obtain ⟨mode, hmode'⟩ : ∃ bs, snprintf mem modeField.size ("%07o".toList.map chr)
      [if type = .regular then 0o644 else 0o755] = .ok bs :=
    ⟨_, hmode _ (by split <;> simp)⟩
  simp only [ustarMakeHeader, if_neg htype', if_neg hlen', hmode', Trace.ok_bind, hu,
    show sizeField.size = 12 from rfl, show chksumField.size = 8 from rfl, hsz, hmtime,
    hchksum]
  refine ⟨_, rfl, ?_⟩
  have hname : strlcpy (stripAntisocialPrefixes fileName) 100 =
      stripAntisocialPrefixes fileName ++ [0] := strlcpy_of_lt (by omega)
  have hmagic : strlcpy ("ustar".toList.map chr) 6 = "ustar".toList.map chr ++ [0] :=
    strlcpy_of_lt (by decide)
  have hsize8 : size.toNat < 8 ^ 11 := by simp only [INT_MAX] at hsize; omega
  constructor
  all_goals try simp only [calculateChksum_write_chksumField]
  all_goals simp only [UstarBytes.field_write_of_disjoint, nameField, modeField, uidField, gidField, sizeField, mtimeField, chksumField, typeflagField,
    magicField, versionField, unameField, gnameField, prefixField, Nat.reduceAdd, Nat.reduceLeDiff,
    or_true, true_or, UstarBytes.field_zero]
  · rw [hname, UstarBytes.field_write_self (by decide) (by simp; omega), UstarBytes.field_zero,
      List.drop_replicate, List.append_assoc]
    simp only [List.length_append, List.length_singleton, List.singleton_append]
    congr 3
    omega
  · rw [hmagic, UstarBytes.field_write_of_length (by decide) (by decide)]
  · rw [UstarBytes.field_write_of_length (by decide) rfl]
  · rw [UstarBytes.field_write_of_length (by decide)
      (by simp [length_octalDigits (calculateChksum_lt _)])]
  · rw [UstarBytes.field_write_of_length (by decide) (by rfl)]
  · rw [UstarBytes.field_write_of_length (by decide) (by simp [length_octalDigits hsize8])]

/-! ## Parsing a made header -/

theorem takeWhile_ne_zero {name : List UInt8} (hname : 0 ∉ name) (rest : List UInt8) :
    (name ++ 0 :: rest).takeWhile (· ≠ 0) = name := by
  rw [List.takeWhile_append_of_pos]
  · simp
  · intro a ha
    simp only [ne_eq, decide_eq_true_eq]
    rintro rfl
    exact hname ha

theorem getD_append_zeros {l : List UInt8} {i : Nat} (hi : l.length ≤ i) (k : Nat) :
    (l ++ 0 :: List.replicate k 0).getD i 0 = 0 := by
  rw [List.getD_eq_getElem?_getD, List.getElem?_append_right hi, ← List.replicate_succ,
    List.getElem?_replicate]
  split <;> rfl

/-- A header with the fields `ustar_make_header` writes parses back to the name, stripped,
the type, and the size of a regular file. -/
theorem ustarParseHeader_of_made {h : UstarBytes} {name : List UInt8} {type : UstarType}
    {size : Nat} (hm : MadeHeader h name type size) (hname : 0 ∉ name) (hlen : name.length ≤ 99)
    (htype : type = .regular ∨ type = .directory) (hsize : size ≤ INT_MAX) :
    ustarParseHeader h =
      .ok (some (stripAntisocialPrefixes name), type, if type = .regular then size else 0) := by
  have hbyte : ∀ (f : UstarField) (k : Nat), k < f.size → h.byte (f.ofs + k) = (h.field f).getD k 0 :=
    fun _ _ hk => (UstarBytes.getD_field hk).symm
  have hu : h ⟨257, by decide⟩ = chr 'u' := by
    have := hbyte magicField 0 (by decide)
    rw [hm.magic_eq] at this
    exact this
  have hzeros : isAllZeros h = false := by
    rw [isAllZeros, List.all_eq_false]
    exact ⟨⟨257, by decide⟩, List.mem_finRange _, by simp [hu]; decide⟩
  have hversion : h.byte versionField.ofs = chr '0' ∧ h.byte (versionField.ofs + 1) = chr '0' := by
    have h0 := hbyte versionField 0 (by decide)
    have h1 := hbyte versionField 1 (by decide)
    rw [hm.version_eq] at h0 h1
    exact ⟨h0, h1⟩
  have hchksum : parseOctalField (h.field chksumField) = some (calculateChksum h) := by
    rw [hm.chksum_eq, parseOctalField_octalDigits (by decide) (calculateChksum_lt h)
      (by have := calculateChksum_lt h; simp only [ULONG_MAX]; omega)]
  have hlong : h.byte (nameField.ofs + nameField.size - 1) = 0 ∧ h.byte prefixField.ofs = 0 := by
    have h99 := hbyte nameField 99 (by decide)
    have h345 := hbyte prefixField 0 (by decide)
    rw [hm.name_eq, getD_append_zeros hlen] at h99
    rw [hm.prefix_eq] at h345
    exact ⟨h99, h345⟩
  have htypeflag : h.byte typeflagField.ofs = type.byte := by
    have := hbyte typeflagField 0 (by decide)
    rw [hm.typeflag_eq] at this
    exact this
  have hsize' : parseOctalField (h.field sizeField) = some size := by
    rw [hm.size_eq, parseOctalField_octalDigits (by decide)
      (by simp only [INT_MAX] at hsize; omega) (by simp only [INT_MAX, ULONG_MAX] at hsize ⊢; omega)]
  have hfile : (h.field nameField).takeWhile (· ≠ 0) = name := by
    rw [hm.name_eq, takeWhile_ne_zero hname]
  have hle : ¬size > INT_MAX := by omega
  simp only [ustarParseHeader, hzeros, hm.magic_eq, hversion, hchksum, hlong, htypeflag, hfile]
  rcases htype with rfl | rfl
  · simp [hsize', hle, UstarType.byte]
  · simp +decide

/-! ## Re-encoding a parsed header -/

/-- The C string in a field whose last byte is `NUL` is shorter than the field. -/
theorem length_takeWhile_ne_zero :
    ∀ (l : List UInt8) (i : Nat), l.getD i 0 = 0 → (l.takeWhile (· ≠ 0)).length ≤ i
  | [], _, _ => by simp
  | a :: l, 0, h => by simp_all
  | a :: l, i + 1, h => by
    by_cases ha : a = 0
    · simp [ha]
    · simpa [ha] using length_takeWhile_ne_zero l i (by simpa using h)

/-- What a header that parses as a file holds: the name is the stripped C string of the
`name` field, whose last byte is `NUL`, and the size is an `int`, `0` for a directory. -/
theorem ustarParseHeader_eq_ok {h : UstarBytes} {name : List UInt8} {type : UstarType}
    {size : Nat} (hp : ustarParseHeader h = .ok (some name, type, size)) :
    name = stripAntisocialPrefixes ((h.field nameField).takeWhile (· ≠ 0)) ∧
      h.byte (nameField.ofs + nameField.size - 1) = 0 ∧
      (type = .regular ∧ size ≤ INT_MAX ∨ type = .directory ∧ size = 0) := by
  unfold ustarParseHeader at hp
  have hz : ¬isAllZeros h = true := fun hz => by
    rw [if_pos hz] at hp
    cases hp
  have hmagic : ¬h.field magicField ≠ "ustar".toList.map chr ++ [0] := fun hm => by
    rw [if_neg hz, if_pos hm] at hp
    exact Trace.throw_ne_ok hp
  have hversion : ¬(h.byte versionField.ofs ≠ chr '0' ∨
      h.byte (versionField.ofs + 1) ≠ chr '0') := fun hv => by
    rw [if_neg hz, if_neg hmagic, if_pos hv] at hp
    exact Trace.throw_ne_ok hp
  rw [if_neg hz, if_neg hmagic, if_neg hversion] at hp
  obtain ⟨chksum, hck⟩ : ∃ c, parseOctalField (h.field chksumField) = some c := by
    cases hc : parseOctalField (h.field chksumField) with
    | none =>
      rw [hc] at hp
      exact absurd hp Trace.throw_ne_ok
    | some c => exact ⟨c, rfl⟩
  rw [hck] at hp
  dsimp only at hp
  split_ifs at hp with hsum hlong htf hreg hreg'
  · -- a regular file: the size field parses, within `INT_MAX`
    have hname : h.byte (nameField.ofs + nameField.size - 1) = 0 := by
      simp only [not_or, not_not] at hlong
      exact hlong.1
    cases hs : parseOctalField (h.field sizeField) with
    | none =>
      rw [hs] at hp
      cases hp
    | some s =>
      rw [hs] at hp
      dsimp only at hp
      split_ifs at hp with hmax
      · cases hp
      · simp only [pure_bind, Trace.pure_eq_ok, Prod.mk.injEq, Option.some.injEq] at hp
        obtain ⟨rfl, rfl, rfl⟩ := hp
        exact ⟨rfl, hname, .inl ⟨rfl, by omega⟩⟩
  · exact absurd rfl hreg'
  · rename_i hfalse
    exact hfalse.elim
  · simp only [pure_bind, Trace.pure_eq_ok, Prod.mk.injEq, Option.some.injEq] at hp
    obtain ⟨rfl, rfl, rfl⟩ := hp
    simp only [not_or, not_not] at hlong
    exact ⟨rfl, hlong.1, .inr ⟨rfl, rfl⟩⟩

/-! ## The round trip -/

/-- A header made for a regular file or directory whose stripped name fits and whose size
is a non-negative `int` parses back to the stripped name, the type, and the size of a
regular file. -/
theorem ustarParseHeader_ustarMakeHeader (mem : Nat → Except Fault UInt8) {fileName : List UInt8}
    {type : UstarType} {size : Int} (hnul : 0 ∉ fileName)
    (hlen : (stripAntisocialPrefixes fileName).length ≤ 99)
    (htype : type = .regular ∨ type = .directory) (h0 : 0 ≤ size) (hsize : size ≤ INT_MAX) :
    ∃ h, ustarMakeHeader mem fileName type size = .ok (some h) ∧
      ustarParseHeader h = .ok (some (stripAntisocialPrefixes fileName), type,
        if type = .regular then size.toNat else 0) := by
  obtain ⟨h, hmake, hm⟩ := ustarMakeHeader_made mem htype hlen h0 hsize
  refine ⟨h, hmake, ?_⟩
  rw [ustarParseHeader_of_made hm (zero_not_mem_stripAntisocialPrefixes hnul) hlen htype
    (by omega), stripAntisocialPrefixes_idem]

/-- `ustar_make_header` and `ustar_parse_header` round-trip: a regular file or directory
whose name, stripped of its antisocial prefixes, has at most 99 bytes, of a size from `0` to
`INT_MAX`, gets a header that parses back to the stripped name, the type, and the size (`0`
for a directory); and a header that parses as a file re-encodes to one that parses to the
same name, type and size. -/
theorem ustar_header_round_trip :
    (∀ (mem : Nat → Except Fault UInt8) (fileName : List UInt8) (type : UstarType) (size : Int),
      0 ∉ fileName → (stripAntisocialPrefixes fileName).length ≤ 99 →
      (type = .regular ∨ type = .directory) → 0 ≤ size → size ≤ INT_MAX →
      ∃ h, ustarMakeHeader mem fileName type size = .ok (some h) ∧
        ustarParseHeader h = .ok (some (stripAntisocialPrefixes fileName), type,
          if type = .regular then size.toNat else 0)) ∧
    ∀ (mem : Nat → Except Fault UInt8) (h : UstarBytes) (name : List UInt8) (type : UstarType)
      (size : Nat), ustarParseHeader h = .ok (some name, type, size) →
      ∃ h', ustarMakeHeader mem name type size = .ok (some h') ∧
        ustarParseHeader h' = .ok (some name, type, size) := by
  refine ⟨fun mem _ _ _ hnul hlen htype h0 hsize =>
    ustarParseHeader_ustarMakeHeader mem hnul hlen htype h0 hsize, ?_⟩
  intro mem h name type size hp
  obtain ⟨rfl, h99, htype⟩ := ustarParseHeader_eq_ok hp
  -- the parsed name is the stripped C string of the `name` field
  have hcs : ((h.field nameField).takeWhile (· ≠ 0)).length ≤ 99 := by
    refine length_takeWhile_ne_zero _ 99 ?_
    rw [UstarBytes.getD_field (by decide)]
    exact h99
  have hnul : (0 : UInt8) ∉ (h.field nameField).takeWhile (· ≠ 0) := fun h0 => by
    simpa using List.mem_takeWhile_imp h0
  have hlen : (stripAntisocialPrefixes (stripAntisocialPrefixes
      ((h.field nameField).takeWhile (· ≠ 0)))).length ≤ 99 := by
    rw [stripAntisocialPrefixes_idem]
    rcases suffix_stripAntisocialPrefixes ((h.field nameField).takeWhile (· ≠ 0)) with hs | hs
    · exact hs.length_le.trans hcs
    · rw [hs]
      decide
  have htype' : type = .regular ∨ type = .directory := htype.imp And.left And.left
  obtain ⟨h', hmake, hparse⟩ := ustarParseHeader_ustarMakeHeader mem
    (zero_not_mem_stripAntisocialPrefixes hnul) hlen htype' (Int.natCast_nonneg size)
    (by rcases htype with ⟨_, hs⟩ | ⟨_, rfl⟩ <;> simp only [INT_MAX] at * <;> omega)
  refine ⟨h', hmake, ?_⟩
  rw [hparse, stripAntisocialPrefixes_idem]
  rcases htype with ⟨rfl, _⟩ | ⟨rfl, rfl⟩ <;> simp

/-- The round trip of the file `a`, a regular file of 42 bytes. -/
theorem ustar_header_round_trip_of_file (mem : Nat → Except Fault UInt8) :
    ∃ h, ustarMakeHeader mem [chr 'a'] .regular 42 = .ok (some h) ∧
      ustarParseHeader h = .ok (some [chr 'a'], .regular, 42) := by
  have hround := ustar_header_round_trip.1 mem [chr 'a'] .regular 42 (by decide) (by decide)
    (.inl rfl) (by decide) (by decide)
  have hstrip : stripAntisocialPrefixes [chr 'a'] = [chr 'a'] := by decide
  simpa [hstrip] using hround

end Pintos
