import NexusKernel.Common.Numeral
import NexusKernel.Lib.String

/-!
# The console output (`kernel/lib/stdio.c`, lines 52–168)

A printer is modelled by the characters that it hands to `vga_putchar`, in order. A digit
buffer is filled from index 0 on, so it is the list of what was stored.

`kprintf` walks over an array of characters. Its arguments are 32-bit words, as on the
stack; nothing in the code says of what kind a word is, and `%s` takes any word as an
address. The model logs the indices of the format that are read and the words that are
taken, and nothing reads either log.

Results:
* `printInt_eq`, `print_int_canonical_iff`: what `print_int` emits, and for which values
  it is their numeral.
* `printUint_eq`, `printHex_eq`, `print_unsigned_faithful`: what `print_uint` and
  `print_hex` emit, which is a numeral for every value; `storeHex_eq`: the mask and the
  shift of the latter take digits to the base 16.
* `kprintfFrom_paired`: a format in which every `%` is followed by a character is printed
  directive by directive and read up to its end.
* `kprintfFrom_unpaired`: any other is read beyond its end.
* `kprintf_taken`: which conversions take the arguments.
* `kprintf_stays_inside_iff`: which formats are not read beyond their end.
-/

namespace NexusKernel.Lib

/-! ## Numbers -/

/-- A character constant. -/
def chr (c : Char) : Byte := BitVec.ofNat 8 c.toNat

/-- The digits `'0' + d`. -/
def decimal : Radix Byte where
  base := 10
  one_lt_base := by decide
  symbol d := BitVec.ofNat 8 (48 + d)
  value c := c.toNat - 48
  value_symbol := by decide

/-- The digits `"0123456789abcdef"[d]` (line 107). -/
def hexadecimal : Radix Byte where
  base := 16
  one_lt_base := by decide
  symbol := cstr "0123456789abcdef"
  value c := if c.toNat < 58 then c.toNat - 48 else c.toNat - 87
  value_symbol := by decide

/-- The loop `while (value > 0)` that stores the digits, the lowest one first (lines
    74–77 and 96–99), from the buffer `buf` on. -/
def storeDigits (r : Radix Byte) (value : ℕ) (buf : List Byte) : List Byte :=
  if 0 < value then storeDigits r (value / r.base) (buf ++ [r.symbol (value % r.base)]) else buf
termination_by value
decreasing_by exact Nat.div_lt_self ‹_› r.one_lt_base

/-- The mask and the shift of `print_hex` (lines 117–118) are the remainder and the quotient
    that `storeDigits` has. -/
theorem hex_digit_step (value : BitVec 32) :
    (value &&& 0xF).toNat = value.toNat % hexadecimal.base ∧
      (value >>> 4).toNat = value.toNat / hexadecimal.base := by
  constructor
  · exact (BitVec.toNat_and value 0xF).trans (Nat.and_two_pow_sub_one_eq_mod value.toNat 4)
  · exact (BitVec.toNat_ushiftRight value 4).trans (Nat.shiftRight_eq_div_pow value.toNat 4)

/-- The same loop in `print_hex` (lines 116–119). -/
def storeHex (value : BitVec 32) (buf : List Byte) : List Byte :=
  if 0 < value.toNat then
    storeHex (value >>> 4) (buf ++ [hexadecimal.symbol (value &&& 0xF).toNat])
  else buf
termination_by value.toNat
decreasing_by
  rw [(hex_digit_step value).2]
  exact Nat.div_lt_self ‹_› hexadecimal.one_lt_base

/-- The magnitude that `print_int` computes (lines 64–67); `-value` wraps around. -/
def magnitude (value : BitVec 32) : BitVec 32 := if value.toInt < 0 then -value else value

/-- `buf` after the first loop of `print_int`. The comparison is signed: a magnitude that
    is still negative stores nothing. -/
def intBuffer (value : BitVec 32) : List Byte := storeDigits decimal (magnitude value).toInt.toNat []

/-- `print_int` (lines 58–84); the last loop empties the buffer from its end. -/
def printInt (value : BitVec 32) : List Byte :=
  if magnitude value = 0 then [chr '0']
  else (if value.toInt < 0 then [chr '-'] else []) ++ (intBuffer value).reverse

/-- `print_uint` (lines 86–103). -/
def printUint (value : BitVec 32) : List Byte :=
  if value = 0 then [chr '0'] else (storeDigits decimal value.toNat []).reverse

/-- `print_hex` (lines 105–124). -/
def printHex (value : BitVec 32) : List Byte :=
  if value = 0 then [chr '0', chr 'x', chr '0']
  else [chr '0', chr 'x'] ++ (storeHex value []).reverse

/-- The loop stores the digits of the value. -/
theorem storeDigits_eq (r : Radix Byte) (value : ℕ) (buf : List Byte) :
    storeDigits r value buf = buf ++ (Nat.digits r.base value).map r.symbol := by
  fun_induction storeDigits r value buf with
  | case1 value buf hpos ih =>
    rw [ih, Nat.digits_def' r.one_lt_base hpos, List.map_cons, List.append_assoc,
      List.singleton_append]
  | case2 value buf hzero =>
    obtain rfl : value = 0 := by omega
    simp

theorem storeHex_eq (value : BitVec 32) (buf : List Byte) :
    storeHex value buf = storeDigits hexadecimal value.toNat buf := by
  fun_induction storeHex value buf with
  | case1 value buf hpos ih =>
    rw [ih, (hex_digit_step value).1, (hex_digit_step value).2, storeDigits.eq_def _ value.toNat,
      if_pos hpos]
  | case2 value buf hzero => rw [storeDigits, if_neg hzero]

theorem length_storeDigits_le {r : Radix Byte} {value k : ℕ} (h : value < r.base ^ k) :
    (storeDigits r value []).length ≤ k := by
  rw [storeDigits_eq, List.nil_append, List.length_map, Nat.digits_length_le_iff r.one_lt_base]
  exact h

/-! ### Signed numbers -/

/-- A printed numeral: an optional sign and a canonical text that reads back. -/
def IsNumeral (l : List Byte) (v : ℤ) : Prop :=
  ∃ ds, l = (if v < 0 then [chr '-'] else []) ++ ds ∧ decimal.Canonical ds ∧
    (if v < 0 then -(decimal.read ds : ℤ) else decimal.read ds) = v

theorem toInt_magnitude {value : BitVec 32} (h : value ≠ BitVec.intMin 32) :
    (magnitude value).toInt = |value.toInt| := by
  unfold magnitude
  split_ifs with hneg
  · rw [BitVec.toInt_neg_of_ne_intMin h, abs_of_neg hneg]
  · rw [abs_of_nonneg (by omega)]

/-- What `print_int` emits for all values but the least one. -/
theorem printInt_eq {value : BitVec 32} (h : value ≠ BitVec.intMin 32) :
    printInt value =
      (if value.toInt < 0 then [chr '-'] else []) ++ decimal.text value.toInt.natAbs := by
  have hmag := toInt_magnitude h
  unfold printInt Radix.text
  by_cases hzero : magnitude value = 0
  · have habs : value.toInt = 0 := by simpa [hzero] using hmag.symm
    rw [if_pos hzero, if_neg (by omega), if_pos (by omega)]
    rfl
  · have hne : value.toInt.natAbs ≠ 0 := by
      intro habs
      refine hzero (BitVec.eq_of_toInt_eq ?_)
      rw [hmag, Int.natAbs_eq_zero.mp habs]
      rfl
    rw [if_neg hzero, if_neg hne, intBuffer, storeDigits_eq, List.nil_append, hmag,
      Int.abs_eq_natAbs, Int.toNat_natCast]

theorem length_intBuffer (value : BitVec 32) : (intBuffer value).length ≤ 12 := by
  apply length_storeDigits_le
  have := (magnitude value).toInt_lt
  show (magnitude value).toInt.toNat < 10 ^ 12
  omega

/-- The least value is its own negative, so the loop stores nothing. -/
theorem printInt_intMin : printInt (BitVec.intMin 32) = [chr '-'] := by
  have hbuf : intBuffer (BitVec.intMin 32) = [] := by
    rw [intBuffer, storeDigits_eq]
    decide
  rw [printInt, hbuf]
  decide

theorem not_isNumeral_sign {v : ℤ} (hv : v < 0) : ¬ IsNumeral [chr '-'] v := by
  intro ⟨ds, hds, hcanon, _⟩
  rw [if_pos hv, List.singleton_append, List.cons.injEq] at hds
  exact hcanon.ne_nil hds.2.symm

/-- For every value: what `print_int` emits is its decimal numeral, with a sign exactly if
    it is negative, iff the value is not the least one; the buffer never holds more than
    12 digits. -/
theorem print_int_canonical_iff (value : BitVec 32) :
    (IsNumeral (printInt value) value.toInt ↔ value ≠ BitVec.intMin 32) ∧
      (intBuffer value).length ≤ 12 := by
  refine ⟨⟨?_, ?_⟩, length_intBuffer value⟩
  · rintro hnum rfl
    rw [printInt_intMin] at hnum
    exact not_isNumeral_sign (by decide) hnum
  · intro h
    refine ⟨_, printInt_eq h, Radix.canonical_text _, ?_⟩
    rw [Radix.read_text]
    split_ifs <;> omega

/-- `INT32_MIN` is printed as a sign without digits. -/
theorem least_value_printed :
    printInt 0x80000000#32 = [chr '-'] ∧
      ¬ IsNumeral (printInt 0x80000000#32) (0x80000000#32).toInt := by
  have hprint : printInt 0x80000000#32 = [chr '-'] := printInt_intMin
  refine ⟨hprint, ?_⟩
  rw [hprint]
  exact not_isNumeral_sign (by decide)

/-! ### Unsigned numbers -/

/-- The digits from the last one stored on are the numeral, with the digit that is printed
    for zero. -/
theorem reverse_storeDigits (r : Radix Byte) (value : BitVec 32) :
    (if value = 0 then [r.symbol 0] else (storeDigits r value.toNat []).reverse) =
      r.text value.toNat := by
  have hzero : value = 0 ↔ value.toNat = 0 := BitVec.toNat_eq
  rw [storeDigits_eq, List.nil_append, Radix.text]
  exact if_congr hzero rfl rfl

theorem printUint_eq (value : BitVec 32) : printUint value = decimal.text value.toNat :=
  reverse_storeDigits decimal value

theorem printHex_eq (value : BitVec 32) :
    printHex value = [chr '0', chr 'x'] ++ hexadecimal.text value.toNat := by
  rw [← reverse_storeDigits, printHex, storeHex_eq]
  split_ifs
  · rfl
  · rfl

/-- `l` is the canonical text of the number `n`. -/
structure Denotes (r : Radix Byte) (l : List Byte) (n : ℕ) : Prop where
  canonical : r.Canonical l
  read_eq : r.read l = n

theorem denotes_text (r : Radix Byte) (n : ℕ) : Denotes r (r.text n) n :=
  ⟨Radix.canonical_text n, Radix.read_text n⟩

/-- For every value: what `print_uint` emits is its decimal numeral, what `print_hex` emits
    is `0x` and its hexadecimal numeral, and the buffers hold at most 12 and 9 digits;
    different values are printed differently. -/
theorem print_unsigned_faithful :
    (∀ value : BitVec 32, Denotes decimal (printUint value) value.toNat ∧
      (storeDigits decimal value.toNat []).length ≤ 12) ∧
    (∀ value : BitVec 32, (∃ ds, printHex value = [chr '0', chr 'x'] ++ ds ∧
      Denotes hexadecimal ds value.toNat) ∧
      (storeHex value []).length ≤ 9) ∧
    Function.Injective printUint ∧ Function.Injective printHex := by
  refine ⟨?_, ?_, ?_, ?_⟩
  · intro value
    have hlt := value.isLt
    refine ⟨printUint_eq value ▸ denotes_text decimal _, length_storeDigits_le ?_⟩
    show value.toNat < 10 ^ 12
    omega
  · intro value
    have hlt := value.isLt
    refine ⟨⟨_, printHex_eq value, denotes_text hexadecimal _⟩, ?_⟩
    rw [storeHex_eq]
    apply length_storeDigits_le
    show value.toNat < 16 ^ 9
    omega
  · intro v w h
    rw [printUint_eq, printUint_eq] at h
    exact BitVec.eq_of_toNat_eq (Radix.text_injective h)
  · intro v w h
    rw [printHex_eq, printHex_eq] at h
    exact BitVec.eq_of_toNat_eq (Radix.text_injective (List.append_cancel_left h))

/-! ## Formats -/

/-- The characters from an address on. -/
def charsAt (mem : Mem) (s : BitVec 32) : ℕ → Byte := fun i => mem (u32 (s.toNat + i))

/-- `print_str` (lines 52–56) from index `i` on; `none` if the terminator does not come
    within `fuel` characters. -/
def printStr (s : ℕ → Byte) : (fuel i : ℕ) → Option (List Byte)
  | 0, _ => none
  | fuel + 1, i => if s i ≠ 0 then (printStr s fuel (i + 1)).map (s i :: ·) else some []

/-- The conversions that take an argument. -/
inductive Conversion where
  | int
  | uint
  | hex
  | string
  | char
deriving DecidableEq

/-- The conversion that a letter stands for (lines 134–152). -/
def conversionOf (c : Byte) : Option Conversion :=
  if c = chr 'd' ∨ c = chr 'i' then some .int
  else if c = chr 'u' then some .uint
  else if c = chr 'x' ∨ c = chr 'X' ∨ c = chr 'p' then some .hex
  else if c = chr 's' then some .string
  else if c = chr 'c' then some .char
  else none

/-- What a conversion prints for the word `v`. -/
def Conversion.print (mem : Mem) (fuel : ℕ) (v : BitVec 32) : Conversion → Option (List Byte)
  | .int => some (printInt v)
  | .uint => some (printUint v)
  | .hex => some (printHex v)
  | .string => printStr (charsAt mem v) fuel 0
  | .char => some [v.setWidth 8]

/-- One iteration's output: a character of the format itself (line 162) or what stands
    for a directive. -/
inductive Piece where
  | ordinary (c : Byte)
  | directive (text : List Byte)
deriving DecidableEq

def Piece.text : Piece → List Byte
  | .ordinary c => [c]
  | .directive text => text

/-- A finished call: its output, the arguments it took with the conversion of each, and
    the indices of the format that it read. -/
structure Printed where
  pieces : List Piece
  taken : List (Conversion × BitVec 32)
  reads : List ℕ

/-- The characters handed to `vga_putchar`. -/
def Printed.chars (r : Printed) : List Byte := r.pieces.flatMap Piece.text

/-- One iteration of the loop in front of the others. -/
def Printed.cons (r : Printed) (piece : Piece) (taken : List (Conversion × BitVec 32))
    (reads : List ℕ) : Printed :=
  ⟨piece :: r.pieces, taken ++ r.taken, reads ++ r.reads⟩

/-- The output for `%` and a character that is not the letter of a conversion (lines
    153–159). -/
def literal (c : Byte) : List Byte := if c = chr '%' then [chr '%'] else [chr '%', c]

/-- The loop of `kprintf` (lines 131–165) from index `i` of the format on; `none` if it
    does not end within `fuel` iterations, or takes more arguments than `args`. -/
def kprintfFrom (mem : Mem) (fmt : ℕ → Byte) : (fuel i : ℕ) → List (BitVec 32) → Option Printed
  | 0, _, _ => none
  | fuel + 1, i, args =>
    if fmt i = 0 then some ⟨[], [], [i]⟩
    else if fmt i = chr '%' then
      match conversionOf (fmt (i + 1)), args with
      | none, args =>
        (kprintfFrom mem fmt fuel (i + 2) args).map
          (·.cons (.directive (literal (fmt (i + 1)))) [] [i, i + 1])
      | some _, [] => none
      | some k, v :: args =>
        (k.print mem fuel v).bind fun text =>
          (kprintfFrom mem fmt fuel (i + 2) args).map
            (·.cons (.directive text) [(k, v)] [i, i + 1])
    else (kprintfFrom mem fmt fuel (i + 1) args).map (·.cons (.ordinary (fmt i)) [] [i])

/-- `kprintf(fmt, args...)` (lines 126–168). -/
def kprintf (mem : Mem) (fuel : ℕ) (fmt : ℕ → Byte) (args : List (BitVec 32)) : Option Printed :=
  kprintfFrom mem fmt fuel 0 args

/-! ## Directives -/

/-- What a format is made of. -/
inductive Directive where
  | ordinary (c : Byte)
  | convert (k : Conversion)
  | literal (c : Byte)
deriving DecidableEq

/-- The directive of `%` and a character. -/
def Directive.of (c : Byte) : Directive := (conversionOf c).elim (.literal c) .convert

/-- The directives of a format: a `%` goes with the character behind it. -/
def directives : List Byte → List Directive
  | [] => []
  | c :: l =>
    if c = chr '%' then
      match l with
      | [] => []
      | c' :: l => .of c' :: directives l
    else .ordinary c :: directives l

/-- Every `%` has a character behind it. -/
def Paired : List Byte → Prop
  | [] => True
  | c :: l =>
    if c = chr '%' then
      match l with
      | [] => False
      | _ :: l => Paired l
    else Paired l

@[simp] theorem directives_percent (c : Byte) (l : List Byte) :
    directives (chr '%' :: c :: l) = .of c :: directives l := if_pos rfl

theorem directives_ordinary {c : Byte} (hc : c ≠ chr '%') (l : List Byte) :
    directives (c :: l) = .ordinary c :: directives l := by
  rw [directives.eq_def]
  exact if_neg hc

@[simp] theorem paired_percent (c : Byte) (l : List Byte) :
    Paired (chr '%' :: c :: l) = Paired l := if_pos rfl

theorem paired_ordinary {c : Byte} (hc : c ≠ chr '%') (l : List Byte) :
    Paired (c :: l) = Paired l := by
  rw [Paired.eq_def]
  exact if_neg hc

/-- The ordinary characters among the directives. -/
def Directive.ordinary? : Directive → Option Byte
  | .ordinary c => some c
  | _ => none

def Directive.conversion? : Directive → Option Conversion
  | .convert k => some k
  | _ => none

def Piece.ordinary? : Piece → Option Byte
  | .ordinary c => some c
  | .directive _ => none

/-- The array holds the text `l` from index `i` on, and the terminator behind it. -/
def Spells (a : ℕ → Byte) : ℕ → List Byte → Prop
  | i, [] => a i = 0
  | i, c :: l => a i = c ∧ c ≠ 0 ∧ Spells a (i + 1) l

/-- There is an argument for each conversion, and those for `%s` are addresses of
    strings. -/
def Enough (mem : Mem) : List Directive → List (BitVec 32) → Prop
  | [], _ => True
  | .convert _ :: _, [] => False
  | .convert k :: ds, v :: args =>
    (k = .string → ∃ t : CString, Spells (charsAt mem v) 0 t.chars) ∧ Enough mem ds args
  | _ :: ds, args => Enough mem ds args

theorem spells_of_bytes {a : ℕ → Byte} {i : ℕ} {l : List Byte} (hl : 0 ∉ l)
    (h : ∀ k ≤ l.length, a (i + k) = l.getD k 0) : Spells a i l := by
  induction l generalizing i with
  | nil => exact h 0 le_rfl
  | cons c l ih =>
    refine ⟨h 0 (Nat.zero_le _), (List.ne_of_not_mem_cons hl).symm, ?_⟩
    apply ih (List.not_mem_of_not_mem_cons hl)
    intro k hk
    have hnext := h (k + 1) (Nat.succ_le_succ hk)
    rwa [← Nat.add_assoc, Nat.add_right_comm] at hnext

theorem spells_bytes (f : CString) : Spells f.bytes 0 f.chars := by
  apply spells_of_bytes f.zero_not_mem
  intro k _
  rw [Nat.zero_add, CString.bytes]

theorem printStr_of_spells {a : ℕ → Byte} {i fuel : ℕ} {l : List Byte} (h : Spells a i l)
    (hfuel : l.length < fuel) : printStr a fuel i = some l := by
  induction l generalizing i fuel with
  | nil =>
    obtain ⟨fuel, rfl⟩ := Nat.exists_eq_succ_of_ne_zero (show fuel ≠ 0 by omega)
    simp [printStr, show a i = 0 from h]
  | cons c l ih =>
    obtain ⟨fuel, rfl⟩ := Nat.exists_eq_succ_of_ne_zero (show fuel ≠ 0 by omega)
    obtain ⟨rfl, hne, hrest⟩ := h
    rw [List.length_cons] at hfuel
    simpa [printStr, ih hrest (Nat.lt_of_succ_lt_succ hfuel)] using hne

/-- A conversion prints its argument, given enough fuel. -/
theorem Conversion.exists_print {mem : Mem} {v : BitVec 32} {k : Conversion}
    (h : k = .string → ∃ t : CString, Spells (charsAt mem v) 0 t.chars) :
    ∃ N, ∀ fuel ≥ N, ∃ text, k.print mem fuel v = some text := by
  cases k with
  | string =>
    obtain ⟨t, ht⟩ := h rfl
    exact ⟨t.strlen + 1, fun fuel hfuel => ⟨t.chars, printStr_of_spells ht hfuel⟩⟩
  | int => exact ⟨0, fun _ _ => ⟨_, rfl⟩⟩
  | uint => exact ⟨0, fun _ _ => ⟨_, rfl⟩⟩
  | hex => exact ⟨0, fun _ _ => ⟨_, rfl⟩⟩
  | char => exact ⟨0, fun _ _ => ⟨_, rfl⟩⟩

/-! ## The loop -/

section

variable {mem : Mem} {fmt : ℕ → Byte} {fuel i : ℕ} {args : List (BitVec 32)} {r : Printed}

theorem kprintfFrom_end (h : fmt i = 0) :
    kprintfFrom mem fmt (fuel + 1) i args = some ⟨[], [], [i]⟩ := if_pos h

theorem kprintfFrom_ordinary (h : fmt i ≠ 0) (hp : fmt i ≠ chr '%') :
    kprintfFrom mem fmt (fuel + 1) i args =
      (kprintfFrom mem fmt fuel (i + 1) args).map (·.cons (.ordinary (fmt i)) [] [i]) :=
  (if_neg h).trans (if_neg hp)

theorem percent_ne_zero (hp : fmt i = chr '%') : fmt i ≠ 0 := by
  rw [hp]
  decide

theorem kprintfFrom_literal (hp : fmt i = chr '%') (hk : conversionOf (fmt (i + 1)) = none) :
    kprintfFrom mem fmt (fuel + 1) i args =
      (kprintfFrom mem fmt fuel (i + 2) args).map
        (·.cons (.directive (literal (fmt (i + 1)))) [] [i, i + 1]) := by
  rw [kprintfFrom.eq_def]
  simp only [if_neg (percent_ne_zero hp), if_pos hp, hk]

theorem kprintfFrom_convert (hp : fmt i = chr '%') {k : Conversion}
    (hk : conversionOf (fmt (i + 1)) = some k) (v : BitVec 32) :
    kprintfFrom mem fmt (fuel + 1) i (v :: args) =
      (k.print mem fuel v).bind fun text =>
        (kprintfFrom mem fmt fuel (i + 2) args).map
          (·.cons (.directive text) [(k, v)] [i, i + 1]) := by
  rw [kprintfFrom.eq_def]
  simp only [if_neg (percent_ne_zero hp), if_pos hp, hk]

theorem kprintfFrom_convert_nil (hp : fmt i = chr '%') {k : Conversion}
    (hk : conversionOf (fmt (i + 1)) = some k) :
    kprintfFrom mem fmt (fuel + 1) i [] = none := by
  rw [kprintfFrom.eq_def]
  simp only [if_neg (percent_ne_zero hp), if_pos hp, hk]

/-- A `%` and the character behind it make one iteration, whatever that character is. -/
theorem kprintfFrom_percent (hp : fmt i = chr '%')
    (h : kprintfFrom mem fmt (fuel + 1) i args = some r) :
    ∃ text taken args' r', kprintfFrom mem fmt fuel (i + 2) args' = some r' ∧
      args = taken.map Prod.snd ++ args' ∧
      taken.map Prod.fst = (conversionOf (fmt (i + 1))).toList ∧
      r = r'.cons (.directive text) taken [i, i + 1] := by
  cases hk : conversionOf (fmt (i + 1)) with
  | none =>
    rw [kprintfFrom_literal hp hk] at h
    obtain ⟨r', hr', rfl⟩ := Option.map_eq_some_iff.mp h
    exact ⟨_, [], args, r', hr', rfl, rfl, rfl⟩
  | some k =>
    obtain - | ⟨v, args⟩ := args
    · rw [kprintfFrom_convert_nil hp hk] at h
      cases h
    rw [kprintfFrom_convert hp hk] at h
    obtain ⟨text, -, h⟩ := Option.bind_eq_some_iff.mp h
    obtain ⟨r', hr', rfl⟩ := Option.map_eq_some_iff.mp h
    exact ⟨text, [(k, v)], args, r', hr', rfl, rfl, rfl⟩

/-- What the first iteration of a call that ends has done. -/
theorem kprintfFrom_cases (h : kprintfFrom mem fmt (fuel + 1) i args = some r) :
    r = ⟨[], [], [i]⟩ ∨
      ∃ piece taken reads next args' r', kprintfFrom mem fmt fuel next args' = some r' ∧
        args = taken.map Prod.snd ++ args' ∧ r = r'.cons piece taken (i :: reads) := by
  by_cases hend : fmt i = 0
  · rw [kprintfFrom_end hend, Option.some_inj] at h
    exact Or.inl h.symm
  by_cases hp : fmt i = chr '%'
  · obtain ⟨text, taken, args', r', hr', hargs, -, rfl⟩ := kprintfFrom_percent hp h
    exact Or.inr ⟨_, taken, _, _, args', r', hr', hargs, rfl⟩
  · rw [kprintfFrom_ordinary hend hp] at h
    obtain ⟨r', hr', rfl⟩ := Option.map_eq_some_iff.mp h
    exact Or.inr ⟨_, [], _, _, args, r', hr', rfl, rfl⟩

/-- Every call that ends has read the character it started from. -/
theorem mem_reads (h : kprintfFrom mem fmt fuel i args = some r) : i ∈ r.reads := by
  obtain - | fuel := fuel
  · cases h
  obtain rfl | ⟨_, _, _, _, _, r', -, -, rfl⟩ := kprintfFrom_cases h
  · simp
  · simp [Printed.cons]

/-- The arguments are taken from the front, each once. -/
theorem taken_prefix (h : kprintfFrom mem fmt fuel i args = some r) :
    r.taken.map Prod.snd <+: args := by
  induction fuel generalizing i args r with
  | zero => cases h
  | succ fuel ih =>
    obtain rfl | ⟨_, taken, _, _, args', r', hr', rfl, rfl⟩ := kprintfFrom_cases h
    · simp
    · simpa [Printed.cons] using ih hr'

/-- What a call has done that ends on the terminator of the text `l` at `i`. -/
structure Follows (l : List Byte) (i : ℕ) (r : Printed) : Prop where
  reads : ∀ j ∈ r.reads, j ≤ i + l.length
  ordinary : r.pieces.filterMap Piece.ordinary? = (directives l).filterMap Directive.ordinary?
  taken : r.taken.map Prod.fst = (directives l).filterMap Directive.conversion?

theorem Follows.ordinary_cons {l : List Byte} {c : Byte} (h : Follows l (i + 1) r)
    (hc : c ≠ chr '%') : Follows (c :: l) i (r.cons (.ordinary c) [] [i]) := by
  have hdir := directives_ordinary hc l
  refine ⟨?_, ?_, ?_⟩
  · intro j hj
    rw [List.length_cons]
    obtain rfl | hj := List.mem_cons.mp hj
    · omega
    · have := h.reads j hj
      omega
  · simp [Printed.cons, hdir, h.ordinary, Piece.ordinary?, Directive.ordinary?]
  · simp [Printed.cons, hdir, List.filterMap_cons, h.taken, Directive.conversion?]

theorem Follows.directive_cons {l text : List Byte} {c : Byte} {taken : List (Conversion × BitVec 32)}
    (h : Follows l (i + 2) r) (htaken : taken.map Prod.fst = (conversionOf c).toList) :
    Follows (chr '%' :: c :: l) i (r.cons (.directive text) taken [i, i + 1]) := by
  refine ⟨?_, ?_, ?_⟩
  · intro j hj
    rw [List.length_cons, List.length_cons]
    obtain rfl | hj := List.mem_cons.mp hj
    · omega
    obtain rfl | hj := List.mem_cons.mp hj
    · omega
    · have := h.reads j hj
      omega
  · cases hk : conversionOf c <;>
      simp [Printed.cons, List.filterMap_cons, h.ordinary, hk, Piece.ordinary?, Directive.of,
        Directive.ordinary?]
  · cases hk : conversionOf c <;>
      simp [Printed.cons, List.filterMap_cons, h.taken, htaken, hk, Directive.of,
        Directive.conversion?]

/-- Along the directives: a call that ends follows a text in which every `%` has a
    character behind it. -/
theorem kprintfFrom_paired {l : List Byte} (hfmt : Spells fmt i l) (hl : Paired l)
    (h : kprintfFrom mem fmt fuel i args = some r) : Follows l i r := by
  obtain - | fuel := fuel
  · cases h
  induction l using directives.induct generalizing i fuel args r with
  | case1 =>
    rw [kprintfFrom_end hfmt, Option.some_inj] at h
    subst h
    exact ⟨by simp, rfl, rfl⟩
  | case2 => exact absurd hl (by simp [Paired])
  | case3 c l ih =>
    obtain ⟨hp, -, rfl, -, hrest⟩ := hfmt
    obtain ⟨text, taken, args', r', hr', -, htaken, rfl⟩ := kprintfFrom_percent hp h
    obtain - | fuel := fuel
    · cases hr'
    exact (ih hrest (by simpa using hl) fuel hr').directive_cons htaken
  | case4 c l hc ih =>
    obtain ⟨rfl, hne, hrest⟩ := hfmt
    rw [kprintfFrom_ordinary hne hc] at h
    obtain ⟨r', hr', rfl⟩ := Option.map_eq_some_iff.mp h
    obtain - | fuel := fuel
    · cases hr'
    rw [paired_ordinary hc] at hl
    exact (ih hrest hl fuel hr').ordinary_cons hc

/-- One more iteration needs one more unit of fuel. -/
theorem enough_fuel_succ {P Q : ℕ → Prop} (h : ∃ N, ∀ fuel ≥ N, P fuel)
    (hstep : ∀ fuel, P fuel → Q (fuel + 1)) : ∃ N, ∀ fuel ≥ N, Q fuel := by
  obtain ⟨N, hN⟩ := h
  refine ⟨N + 1, fun fuel hfuel => ?_⟩
  obtain ⟨k, rfl⟩ := Nat.exists_eq_add_of_le' hfuel
  exact hstep (k + N) (hN _ (Nat.le_add_left N k))

/-- Such a text is printed to its end, given enough arguments. -/
theorem exists_kprintfFrom {l : List Byte} (hfmt : Spells fmt i l) (hl : Paired l)
    (hargs : Enough mem (directives l) args) :
    ∃ N, ∀ fuel ≥ N, ∃ r, kprintfFrom mem fmt fuel i args = some r := by
  induction l using directives.induct generalizing i args with
  | case1 =>
    apply enough_fuel_succ ⟨0, fun _ _ => trivial⟩
    intro fuel _
    exact ⟨_, kprintfFrom_end hfmt⟩
  | case2 => exact absurd hl (by simp [Paired])
  | case3 c l ih =>
    obtain ⟨hp, -, rfl, -, hrest⟩ := hfmt
    rw [directives_percent, Directive.of] at hargs
    rw [paired_percent] at hl
    cases hk : conversionOf (fmt (i + 1)) with
    | none =>
      rw [hk] at hargs
      apply enough_fuel_succ (ih hrest hl hargs)
      intro fuel ⟨r, hr⟩
      rw [kprintfFrom_literal hp hk, hr]
      exact ⟨_, rfl⟩
    | some k =>
      rw [hk] at hargs
      obtain - | ⟨v, args⟩ := args
      · exact hargs.elim
      obtain ⟨N, hN⟩ := ih hrest hl hargs.2
      obtain ⟨M, hM⟩ := Conversion.exists_print hargs.1
      apply enough_fuel_succ ⟨max N M, fun fuel hfuel =>
        And.intro (hN fuel (le_of_max_le_left hfuel)) (hM fuel (le_of_max_le_right hfuel))⟩
      intro fuel ⟨⟨r, hr⟩, text, htext⟩
      rw [kprintfFrom_convert hp hk, htext, hr]
      exact ⟨_, rfl⟩
  | case4 c l hc ih =>
    obtain ⟨rfl, hne, hrest⟩ := hfmt
    rw [directives_ordinary hc] at hargs
    rw [paired_ordinary hc] at hl
    apply enough_fuel_succ (ih hrest hl hargs)
    intro fuel ⟨r, hr⟩
    rw [kprintfFrom_ordinary hne hc, hr]
    exact ⟨_, rfl⟩

/-- A text whose last `%` stands alone is read beyond its terminator. -/
theorem kprintfFrom_unpaired {l : List Byte} (hfmt : Spells fmt i l) (hl : ¬ Paired l)
    (h : kprintfFrom mem fmt fuel i args = some r) : i + l.length + 1 ∈ r.reads := by
  obtain - | fuel := fuel
  · cases h
  induction l using directives.induct generalizing i fuel args r with
  | case1 => exact absurd trivial hl
  | case2 =>
    -- the terminator goes with the `%`, and the loop goes on behind it
    obtain ⟨_, _, _, r', hr', _, _, rfl⟩ := kprintfFrom_percent hfmt.1 h
    simp [Printed.cons, mem_reads hr']
  | case3 c l ih =>
    obtain ⟨hp, -, -, -, hrest⟩ := hfmt
    obtain ⟨_, _, _, r', hr', _, _, rfl⟩ := kprintfFrom_percent hp h
    obtain - | fuel := fuel
    · cases hr'
    have hmem := ih hrest (by simpa using hl) fuel hr'
    rw [List.length_cons, List.length_cons, show i + (l.length + 1 + 1) + 1 = i + 2 + l.length + 1
      by omega]
    exact List.mem_append_right _ hmem
  | case4 c l hc ih =>
    obtain ⟨rfl, hne, hrest⟩ := hfmt
    rw [kprintfFrom_ordinary hne hc] at h
    obtain ⟨r', hr', rfl⟩ := Option.map_eq_some_iff.mp h
    obtain - | fuel := fuel
    · cases hr'
    rw [paired_ordinary hc] at hl
    have hmem := ih hrest hl fuel hr'
    rw [List.length_cons, show i + (l.length + 1) + 1 = i + 1 + l.length + 1 by omega]
    exact List.mem_append_right _ hmem

end

/-- A text without a `%` is printed, whatever the arguments. -/
theorem exists_kprintf_of_plain (mem : Mem) {f : CString} (hf : chr '%' ∉ f.chars)
    (args : List (BitVec 32)) :
    ∃ N, ∀ fuel ≥ N, ∃ r, kprintf mem fuel f.bytes args = some r := by
  have hplain : ∀ l : List Byte, chr '%' ∉ l → Paired l ∧ Enough mem (directives l) args := by
    intro l hl
    induction l with
    | nil => exact ⟨trivial, trivial⟩
    | cons c l ih =>
      obtain ⟨hc, hl⟩ := not_or.mp (mt List.mem_cons.mpr hl)
      rw [paired_ordinary (Ne.symm hc), directives_ordinary (Ne.symm hc)]
      exact ih hl
  obtain ⟨hpaired, henough⟩ := hplain f.chars hf
  exact exists_kprintfFrom (spells_bytes f) hpaired henough

/-- The arguments are taken from the front by the conversions of the format, in order. -/
theorem kprintf_taken {mem : Mem} {fuel : ℕ} {f : CString} {args : List (BitVec 32)} {r : Printed}
    (hf : Paired f.chars) (h : kprintf mem fuel f.bytes args = some r) :
    r.taken = ((directives f.chars).filterMap Directive.conversion?).zip args := by
  have hkinds := (kprintfFrom_paired (spells_bytes f) hf h).taken
  obtain ⟨rest, hrest⟩ := taken_prefix h
  rw [← hkinds, ← hrest]
  generalize r.taken = taken
  induction taken with
  | nil => rfl
  | cons kv taken ih => simp [← ih]

/-- A call ends, reads the format up to its terminator only and prints each ordinary
    character of it once, in order. -/
def StaysInside (mem : Mem) (f : CString) (fmt : ℕ → Byte) (args : List (BitVec 32)) : Prop :=
  ∃ N, ∀ fuel ≥ N, ∃ r, kprintf mem fuel fmt args = some r ∧ (∀ j ∈ r.reads, j ≤ f.strlen) ∧
    r.pieces.filterMap Piece.ordinary? = (directives f.chars).filterMap Directive.ordinary?

/-- For every format, whatever stands in memory behind it, and enough arguments of the
    kinds that are taken: `kprintf` stays inside the format iff every `%` in it has a
    character behind it. -/
theorem kprintf_stays_inside_iff {mem : Mem} {f : CString} {fmt : ℕ → Byte}
    {args : List (BitVec 32)} (hfmt : ∀ i ≤ f.strlen, fmt i = f.bytes i)
    (hargs : Enough mem (directives f.chars) args) :
    StaysInside mem f fmt args ↔ Paired f.chars := by
  have hspells : Spells fmt 0 f.chars := by
    apply spells_of_bytes f.zero_not_mem
    intro k hk
    rw [Nat.zero_add]
    exact hfmt k hk
  constructor
  · intro ⟨N, hN⟩
    by_contra hl
    obtain ⟨r, hr, hreads, -⟩ := hN N le_rfl
    have hlast := hreads _ (kprintfFrom_unpaired hspells hl hr)
    rw [CString.strlen] at hlast
    omega
  · intro hl
    obtain ⟨N, hN⟩ := exists_kprintfFrom hspells hl hargs
    refine ⟨N, fun fuel hfuel => ?_⟩
    obtain ⟨r, hr⟩ := hN fuel hfuel
    have hfollows := kprintfFrom_paired hspells hl hr
    refine ⟨r, hr, ?_, hfollows.ordinary⟩
    simpa [CString.strlen] using hfollows.reads

/-- A string and a number, in a memory of zeros. -/
theorem kprintf_stays_inside_iff_small :
    Enough (fun _ => 0) (directives (CString.lit "%s:%d").chars) [0, 7] ∧
      StaysInside (fun _ => 0) (CString.lit "%s:%d") (CString.lit "%s:%d").bytes [0, 7] := by
  have hchars : (CString.lit "%s:%d").chars = [chr '%', chr 's', chr ':', chr '%', chr 'd'] := by
    decide
  have hargs : Enough (fun _ => 0) (directives (CString.lit "%s:%d").chars) [0, 7] := by
    rw [hchars]
    exact ⟨fun _ => ⟨CString.lit "", rfl⟩, ⟨nofun, trivial⟩⟩
  refine ⟨hargs, (kprintf_stays_inside_iff (fun _ _ => rfl) hargs).mpr ?_⟩
  rw [hchars, paired_percent, paired_ordinary (by decide), paired_percent]
  trivial

/-- The format `"%"`, followed in memory by an `A`: the call reads and prints the
    terminator and the `A`. -/
theorem lone_percent_runs_on :
    let fmt : ℕ → Byte := fun i => [chr '%', 0, chr 'A'].getD i 0
    (∀ i ≤ (CString.lit "%").strlen, fmt i = (CString.lit "%").bytes i) ∧
      (kprintf (fun _ => 0) 4 fmt []).map (fun r => (r.chars, r.reads)) =
        some ([chr '%', 0, chr 'A'], [0, 1, 2, 3]) ∧
      ¬ StaysInside (fun _ => 0) (CString.lit "%") fmt [] := by
  intro fmt
  refine ⟨by decide, by decide, ?_⟩
  intro ⟨N, hN⟩
  obtain ⟨r, hr, hreads, -⟩ := hN N le_rfl
  have hspells : Spells fmt 0 [chr '%'] := ⟨rfl, by decide, rfl⟩
  have hlast := hreads _ (kprintfFrom_unpaired hspells (by simp [Paired]) hr)
  exact absurd hlast (by decide)

end NexusKernel.Lib
