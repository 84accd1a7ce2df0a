import NexusKernel.Common.Mem

/-!
# C strings and copies (`kernel/lib/string.c`)

A character array is the byte at every index; a C string is such an array read up
to its first zero byte. A string that is only read is its list of characters, a
`CString`; what follows its terminator is never looked at.

Results:
* `strcmp_eq_zero_iff`: `strcmp` returns 0 on equal strings only.
* `stringAt_strncpy`: the string that `strncpy` leaves in a larger array.
* `memcpy_eq`, `memmove_eq`: what the copies leave in memory.
-/

namespace NexusKernel

/-- The character array of a string literal. -/
def cstr (s : String) : ℕ → Byte := fun i => BitVec.ofNat 8 ((s.toList.map Char.toNat).getD i 0)

/-- `strncpy` (`string.c`, lines 87–95) from index `i` on, with `n` left. The loop
    that pads does not count the terminator it follows, so a source shorter than
    `n` is padded to `n + 1` bytes. -/
def strncpyFrom (src : ℕ → Byte) : (n i : ℕ) → (ℕ → Byte) → ℕ → Byte
  | 0, _, dest => dest
  | n + 1, i, dest =>
    let dest := Function.update dest i (src i)
    if src i = 0 then fill dest (i + 1) (n + 1) 0 else strncpyFrom src n (i + 1) dest

/-- `strncpy(dest, src, n)`. -/
def strncpy (dest src : ℕ → Byte) (n : ℕ) : ℕ → Byte := strncpyFrom src n 0 dest

/-! ## Strings that are read -/

/-- A string: its characters, none of them the terminator. -/
@[ext]
structure CString where
  chars : List Byte
  zero_not_mem : 0 ∉ chars
deriving DecidableEq

/-- The string that starts with the bytes `l`, read up to the first zero byte. -/
def CString.ofList (l : List Byte) : CString :=
  ⟨l.takeWhile (· ≠ 0), fun h => by simpa using List.mem_takeWhile_imp h⟩

/-- A string literal. -/
def CString.lit (s : String) : CString := .ofList (s.toList.map fun c => BitVec.ofNat 8 c.toNat)

/-- The string as an array. -/
def CString.bytes (s : CString) : ℕ → Byte := fun i => s.chars.getD i 0

/-- `strlen` (lines 50–56). -/
def CString.strlen (s : CString) : ℕ := s.chars.length

/-- The string in an array of `n` bytes. -/
def stringAt (a : ℕ → Byte) (n : ℕ) : CString := .ofList ((List.range n).map a)

/-- `strcmp` (lines 58–65); a list that has ended reads as the terminator. -/
def strcmpChars : List Byte → List Byte → ℤ
  | [], [] => 0
  | [], b :: _ => -b.toNat
  | a :: _, [] => a.toNat
  | a :: as, b :: bs => if a = b then strcmpChars as bs else a.toNat - b.toNat

@[inherit_doc strcmpChars]
def strcmp (s t : CString) : ℤ := strcmpChars s.chars t.chars

/-- The string up to the first `c`, as it reads once that `c` is overwritten by the
    terminator. -/
def CString.upTo (c : Byte) (s : CString) : CString :=
  ⟨s.chars.takeWhile (· ≠ c), fun h => s.zero_not_mem (List.takeWhile_subset _ h)⟩

/-- What follows the place that `strchr(s, c)` (lines 107–115) returns, or `none` for
    `NULL`. -/
def CString.after (c : Byte) (s : CString) : Option CString :=
  if c ∈ s.chars then
    some ⟨(s.chars.dropWhile (· ≠ c)).tail, fun h =>
      s.zero_not_mem ((List.dropWhile_suffix _).subset (List.mem_of_mem_tail h))⟩
  else none

/-- A string with a `c` splits at the first one. -/
theorem CString.chars_of_after {c : Byte} {s t : CString} (h : s.after c = some t) :
    s.chars = (s.upTo c).chars ++ c :: t.chars := by
  unfold CString.after at h
  split_ifs at h with hc
  obtain rfl := Option.some_inj.mp h
  have hne : s.chars.dropWhile (· ≠ c) ≠ [] := by
    rw [ne_eq, List.dropWhile_eq_nil_iff]
    intro h
    simpa using h c hc
  have hhead : (s.chars.dropWhile (· ≠ c)).head hne = c := by
    simpa using List.head_dropWhile_not (· ≠ c) hne
  have hdrop : s.chars.dropWhile (· ≠ c) = c :: (s.chars.dropWhile (· ≠ c)).tail := by
    conv_lhs => rw [← List.cons_head_tail hne, hhead]
  calc s.chars = s.chars.takeWhile (· ≠ c) ++ s.chars.dropWhile (· ≠ c) :=
        List.takeWhile_append_dropWhile.symm
    _ = (s.upTo c).chars ++ c :: (s.chars.dropWhile (· ≠ c)).tail := by rw [hdrop]; rfl

/-- A string without a `c` is not split. -/
theorem CString.upTo_of_after {c : Byte} {s : CString} (h : s.after c = none) : s.upTo c = s := by
  unfold CString.after at h
  split_ifs at h with hc
  refine CString.ext (List.takeWhile_eq_self_iff.mpr ?_)
  intro b hb
  rw [decide_eq_true_eq]
  rintro rfl
  exact hc hb

theorem CString.not_mem_upTo (c : Byte) (s : CString) : c ∉ (s.upTo c).chars := by
  intro h
  simpa using List.mem_takeWhile_imp h

theorem CString.ofList_chars (s : CString) : CString.ofList s.chars = s := by
  refine CString.ext (List.takeWhile_eq_self_iff.mpr ?_)
  intro b hb
  rw [decide_eq_true_eq]
  rintro rfl
  exact s.zero_not_mem hb

theorem strcmpChars_eq_zero_iff {l m : List Byte} (hl : 0 ∉ l) (hm : 0 ∉ m) :
    strcmpChars l m = 0 ↔ l = m := by
  have hne : ∀ {a : Byte}, a ≠ 0 → a.toNat ≠ 0 := by
    intro a ha h
    exact ha (BitVec.eq_of_toNat_eq h)
  induction l generalizing m with
  | nil =>
    cases m with
    | nil => simp [strcmpChars]
    | cons b m =>
      have hb := hne (List.ne_of_not_mem_cons hm).symm
      simp [strcmpChars, hb]
  | cons a l ih =>
    cases m with
    | nil =>
      have ha := hne (List.ne_of_not_mem_cons hl).symm
      simp [strcmpChars, ha]
    | cons b m =>
      by_cases hab : a = b
      · subst hab
        have htail := ih (List.not_mem_of_not_mem_cons hl) (List.not_mem_of_not_mem_cons hm)
        rw [strcmpChars, if_pos rfl]
        exact htail.trans (by simp)
      · rw [strcmpChars, if_neg hab]
        have hnat : a.toNat ≠ b.toNat := fun h => hab (BitVec.eq_of_toNat_eq h)
        refine iff_of_false (by omega) ?_
        intro h
        exact hab (List.cons.inj h).1

/-- `strcmp` returns 0 on equal strings only. -/
theorem strcmp_eq_zero_iff {s t : CString} : strcmp s t = 0 ↔ s = t := by
  rw [strcmp, strcmpChars_eq_zero_iff s.zero_not_mem t.zero_not_mem, CString.ext_iff]

/-! ## Strings that are copied -/

/-- The first `n` characters of a string. -/
def CString.take (s : CString) (n : ℕ) : CString :=
  ⟨s.chars.take n, fun h => s.zero_not_mem (List.mem_of_mem_take h)⟩

theorem CString.take_of_le {s : CString} {n : ℕ} (h : s.strlen ≤ n) : s.take n = s :=
  CString.ext (List.take_of_length_le h)

theorem CString.bytes_eq_zero_iff {s : CString} {i : ℕ} : s.bytes i = 0 ↔ s.strlen ≤ i := by
  unfold bytes strlen
  constructor
  · intro h
    by_contra hlt
    rw [List.getD_eq_getElem _ _ (by omega)] at h
    exact s.zero_not_mem (h ▸ List.getElem_mem _)
  · intro h
    exact List.getD_eq_default _ _ h

/-- What `strncpy` writes: the characters and, behind a string that is shorter than
    `n`, zeros up to index `n`. -/
theorem strncpyFrom_apply {s : CString} {n i : ℕ} {dest : ℕ → Byte} (hi : i ≤ s.strlen) (x : ℕ) :
    strncpyFrom s.bytes n i dest x =
      if i ≤ x ∧ (x < i + n ∨ s.strlen < i + n ∧ x = i + n) then s.bytes x else dest x := by
  induction n generalizing i dest with
  | zero => rw [strncpyFrom, if_neg (by omega)]
  | succ n ih =>
    rw [strncpyFrom]
    by_cases hend : s.bytes i = 0
    · have hlen := CString.bytes_eq_zero_iff.mp hend
      rw [if_pos hend]
      by_cases hx : i + 1 ≤ x ∧ x < i + 1 + (n + 1)
      · rw [fill_inside hx.1 hx.2, if_pos (by omega), CString.bytes_eq_zero_iff.mpr (by omega)]
      · rw [fill_outside (by omega)]
        by_cases hxi : x = i
        · rw [hxi, Function.update_self, if_pos (by omega)]
        · rw [Function.update_of_ne hxi, if_neg (by omega)]
    · have hlen : i < s.strlen := Nat.lt_of_not_le (mt CString.bytes_eq_zero_iff.mpr hend)
      rw [if_neg hend, ih hlen]
      by_cases hxi : x = i
      · rw [hxi, if_neg (by omega), if_pos (by omega), Function.update_self]
      · rw [Function.update_of_ne hxi]
        refine if_congr ?_ rfl rfl
        omega

/-- An array that holds the characters of `s` and then a zero holds the string `s`. -/
theorem stringAt_eq {a : ℕ → Byte} {n : ℕ} {s : CString} (hlt : s.strlen < n)
    (hchars : ∀ i ≤ s.strlen, a i = s.bytes i) : stringAt a n = s := by
  have hrange : List.range n = List.range s.strlen ++ List.range' s.strlen (n - s.strlen) := by
    have happend : List.range' 0 s.strlen ++ List.range' (0 + s.strlen) (n - s.strlen) =
        List.range' 0 (s.strlen + (n - s.strlen)) := List.range'_append_1
    rw [Nat.zero_add, Nat.add_sub_cancel' hlt.le] at happend
    rw [List.range_eq_range', List.range_eq_range', happend]
  have hinit : (List.range s.strlen).map a = s.chars := by
    refine List.ext_getElem (by simp [CString.strlen]) ?_
    intro i h1 h2
    rw [List.getElem_map, List.getElem_range, hchars i (le_of_lt h2), CString.bytes,
      List.getD_eq_getElem _ _ h2]
  obtain ⟨k, hk⟩ : ∃ k, n - s.strlen = k + 1 := ⟨n - s.strlen - 1, by omega⟩
  have hzero : a s.strlen = 0 := by
    rw [hchars _ le_rfl]
    exact CString.bytes_eq_zero_iff.mpr le_rfl
  have hall : ∀ b ∈ s.chars, decide (b ≠ 0) = true := by
    intro b hb
    rw [decide_eq_true_eq]
    rintro rfl
    exact s.zero_not_mem hb
  apply CString.ext
  show ((List.range n).map a).takeWhile _ = _
  rw [hrange, hk, List.range'_succ, List.map_append, List.map_cons, hinit, hzero,
    List.takeWhile_append_of_pos hall, List.takeWhile_cons_of_neg (by simp), List.append_nil]

/-- The string that `strncpy(dest, s, n)` leaves in an array of `n + 1` bytes, if it
    pads or the last byte was zero before. -/
theorem stringAt_strncpy {s : CString} {n : ℕ} {dest : ℕ → Byte}
    (h : s.strlen < n ∨ dest n = 0) : stringAt (strncpy dest s.bytes n) (n + 1) = s.take n := by
  have hlen : (s.take n).strlen = min n s.strlen := List.length_take
  refine stringAt_eq (by omega) ?_
  intro i hi
  rw [hlen] at hi
  have hbytes : i < n → (s.take n).bytes i = s.bytes i := by
    intro hin
    unfold CString.bytes CString.take
    simp only [List.getD_eq_getElem?_getD, List.getElem?_take_of_lt hin]
  rw [strncpy, strncpyFrom_apply (Nat.zero_le _)]
  by_cases hin : i < n
  · rw [if_pos (by omega), hbytes hin]
  · obtain rfl : i = n := by omega
    have hdest : dest i = 0 := h.resolve_left (by omega)
    rw [if_neg (by omega), hdest]
    exact (CString.bytes_eq_zero_iff.mpr (by omega)).symm

/-! ## Copies -/

/-- `memcpy(dest, src, n)` from an array of the caller's. -/
def copyIn (m : Mem) (dest n : ℕ) (src : ℕ → Byte) : Mem :=
  fun x => if dest ≤ x ∧ x < dest + n then src (x - dest) else m x

/-- The same through a pointer that wraps around: the byte `i` goes to `dest + i` modulo
    `2^32`. -/
def copyInWrapped (m : Mem) (dest n : ℕ) (src : ℕ → Byte) : Mem :=
  fun x => if x < 2 ^ 32 ∧ sub32 x dest < n then src (sub32 x dest) else m x

/-- `memcpy(dest, src, n)` (lines 12–19) inside one memory. -/
def memcpy (m : Mem) (dest src : ℕ) : (n : ℕ) → Mem
  | 0 => m
  | n + 1 => memcpy (Function.update m dest (m src)) (dest + 1) (src + 1) n

theorem memcpy_outside {m : Mem} {dest src n x : ℕ} (h : x < dest ∨ dest + n ≤ x) :
    memcpy m dest src n x = m x := by
  induction n generalizing m dest src with
  | zero => rfl
  | succ n ih =>
    rw [memcpy, ih (by omega)]
    exact Function.update_of_ne (by omega) _ _

/-- A forward copy is right unless it overwrites bytes it has yet to read. -/
theorem memcpy_eq {m : Mem} {dest src n : ℕ} (h : dest ≤ src ∨ src + n ≤ dest) :
    memcpy m dest src n = copyIn m dest n fun i => m (src + i) := by
  induction n generalizing m dest src with
  | zero =>
    funext x
    exact (if_neg (by omega)).symm
  | succ n ih =>
    rw [memcpy, ih (by omega)]
    funext x
    simp only [copyIn]
    by_cases hx : x = dest
    · subst hx
      rw [if_neg (by omega), if_pos (by omega), Function.update_self, Nat.sub_self, Nat.add_zero]
    · by_cases hin : dest + 1 ≤ x ∧ x < dest + 1 + n
      · rw [if_pos hin, if_pos (by omega), Function.update_of_ne (by omega)]
        congr 1
        omega
      · rw [if_neg hin, if_neg (by omega), Function.update_of_ne hx]

/-- The second loop of `memmove` (lines 29–32), from the end of the ranges down. -/
def memmoveDown (m : Mem) (dest src : ℕ) : (n : ℕ) → Mem
  | 0 => m
  | n + 1 => memmoveDown (Function.update m (dest + n) (m (src + n))) dest src n

/-- `memmove(dest, src, n)` (lines 21–35); its first loop is that of `memcpy`. -/
def memmove (m : Mem) (dest src n : ℕ) : Mem :=
  if dest < src then memcpy m dest src n else memmoveDown m dest src n

theorem memmoveDown_eq {m : Mem} {dest src n : ℕ} (h : src ≤ dest) :
    memmoveDown m dest src n = copyIn m dest n fun i => m (src + i) := by
  induction n generalizing m with
  | zero =>
    funext x
    exact (if_neg (by omega)).symm
  | succ n ih =>
    rw [memmoveDown, ih]
    funext x
    simp only [copyIn]
    by_cases hin : dest ≤ x ∧ x < dest + n
    · rw [if_pos hin, if_pos (by omega), Function.update_of_ne (by omega)]
    · rw [if_neg hin]
      by_cases hx : x = dest + n
      · subst hx
        rw [if_pos (by omega), Function.update_self, Nat.add_sub_cancel_left]
      · rw [if_neg (by omega), Function.update_of_ne hx]

/-- `memmove` copies as if through a buffer, however the ranges overlap. -/
theorem memmove_eq (m : Mem) (dest src n : ℕ) :
    memmove m dest src n = copyIn m dest n fun i => m (src + i) := by
  unfold memmove
  split_ifs with h
  · exact memcpy_eq (Or.inl h.le)
  · exact memmoveDown_eq (by omega)

end NexusKernel
