import NexusKernel.Lib.StringOrder

/-!
# Strings in arrays of fixed size

`strlen`, `strchr` and `strcmp` read an array until they meet a zero byte. Here they are
given an array of `size` bytes and have no result once they would read behind its end.
`HoldsAt a size i s` says that the string `s` starts at index `i` and ends inside.

Results:
* `HoldsAt.strlenIn`, `HoldsAt.strchrIn`, `HoldsAt.strcmpIn`: in such an array the
  functions stay inside and see the string.
* `Terminated.holdsAt`: an array with a zero byte holds a string.
* `terminated_strncpy_iff`, `strncpy_outside`: when `strncpy` leaves a zero byte in an
  array one byte longer than its limit, and that it writes nothing else.
* `strncpy_padded_copy_iff`: when it changes nothing behind its limit.
-/

namespace NexusKernel

variable {a : ℕ → Byte} {size i : ℕ} {s : CString}

/-- `strlen` (`string.c`, lines 50–56) from index `i`, with `room` bytes left. -/
def strlenFrom (a : ℕ → Byte) : (room i : ℕ) → Option ℕ
  | 0, _ => none
  | room + 1, i => if a i = 0 then some 0 else (strlenFrom a room (i + 1)).map (· + 1)

/-- `strchr` (lines 107–115) from index `i`, with `room` bytes left: the index of the
    character, or `none` for `NULL`. -/
def strchrFrom (a : ℕ → Byte) (c : Byte) : (room i : ℕ) → Option (Option ℕ)
  | 0, _ => none
  | room + 1, i =>
    if a i = 0 then some (if c = 0 then some i else none)
    else if a i = c then some (some i)
    else strchrFrom a c room (i + 1)

/-- `strcmp` (lines 58–65) of an array with the string `t`, from index `i` of both. -/
def strcmpFrom (a : ℕ → Byte) (t : CString) : (room i : ℕ) → Option ℤ
  | 0, _ => none
  | room + 1, i =>
    if a i ≠ 0 ∧ a i = t.bytes i then strcmpFrom a t room (i + 1)
    else some ((a i).toNat - (t.bytes i).toNat)

/-- `strlen(a + i)` in an array of `size` bytes. -/
def strlenIn (a : ℕ → Byte) (size i : ℕ) : Option ℕ := strlenFrom a (size - i) i

/-- `strchr(a + i, c)` in an array of `size` bytes. -/
def strchrIn (a : ℕ → Byte) (size : ℕ) (c : Byte) (i : ℕ) : Option (Option ℕ) :=
  strchrFrom a c (size - i) i

/-- `strcmp(a, t)` with an array of `size` bytes. -/
def strcmpIn (a : ℕ → Byte) (size : ℕ) (t : CString) : Option ℤ := strcmpFrom a t size 0

/-- The string `s` starts at index `i` of the array and ends inside. -/
structure HoldsAt (a : ℕ → Byte) (size i : ℕ) (s : CString) : Prop where
  fits : i + s.strlen < size
  bytes : ∀ j ≤ s.strlen, a (i + j) = s.bytes j

/-- One of the bytes is zero. -/
def Terminated (a : ℕ → Byte) (size : ℕ) : Prop := ∃ i < size, a i = 0

/-! ## Reading -/

theorem CString.bytes_of_lt {i : ℕ} (h : i < s.strlen) : s.bytes i = s.chars.get ⟨i, h⟩ :=
  List.getD_eq_getElem _ _ h

section

variable {c : Byte} {rest : CString}

theorem CString.strlen_of_after (h : s.after c = some rest) :
    s.strlen = (s.upTo c).strlen + rest.strlen + 1 := by
  unfold CString.strlen
  rw [CString.chars_of_after h, List.length_append, List.length_cons]
  rfl

theorem CString.bytes_upTo (h : s.after c = some rest) {j : ℕ} (hj : j < (s.upTo c).strlen) :
    s.bytes j = (s.upTo c).bytes j := by
  unfold CString.bytes
  rw [CString.chars_of_after h, List.getD_append _ _ _ _ hj]

/-- From the first `c` on, the string is `c` and what follows it. -/
theorem CString.bytes_after (h : s.after c = some rest) (j : ℕ) :
    s.bytes ((s.upTo c).strlen + j) = (c :: rest.chars).getD j 0 := by
  unfold CString.bytes CString.strlen
  rw [CString.chars_of_after h, List.getD_append_right _ _ _ _ (Nat.le_add_right _ _),
    Nat.add_sub_cancel_left]

end

theorem HoldsAt.stringAt (h : HoldsAt a size i s) :
    stringAt (fun j => a (i + j)) (size - i) = s := by
  have hfits := h.fits
  exact stringAt_eq (by omega) h.bytes

theorem HoldsAt.zero_iff (h : HoldsAt a size i s) : a i = 0 ↔ s.chars = [] := by
  have hfirst := h.bytes 0 (Nat.zero_le _)
  rw [Nat.add_zero] at hfirst
  rw [hfirst, CString.bytes_eq_zero_iff, Nat.le_zero]
  exact List.length_eq_zero_iff

theorem strlenFrom_eq {k room : ℕ} (hne : ∀ j < k, a (i + j) ≠ 0) (hzero : a (i + k) = 0)
    (hk : k < room) : strlenFrom a room i = some k := by
  induction k generalizing i room with
  | zero =>
    obtain ⟨room, rfl⟩ := Nat.exists_eq_succ_of_ne_zero (by omega : room ≠ 0)
    rw [Nat.add_zero] at hzero
    rw [strlenFrom, if_pos hzero]
  | succ k ih =>
    obtain ⟨room, rfl⟩ := Nat.exists_eq_succ_of_ne_zero (by omega : room ≠ 0)
    have hrest : strlenFrom a room (i + 1) = some k := by
      refine ih ?_ ?_ (by omega)
      · intro j hj
        rw [Nat.add_assoc, Nat.add_comm 1 j]
        exact hne (j + 1) (by omega)
      · rw [Nat.add_assoc, Nat.add_comm 1 k]
        exact hzero
    have hfirst : a i ≠ 0 := hne 0 (by omega)
    rw [strlenFrom, if_neg hfirst, hrest]
    rfl

/-- The search ends at the first zero or `c`. -/
theorem strchrFrom_eq {c : Byte} (hc : c ≠ 0) {k room : ℕ}
    (hne : ∀ j < k, a (i + j) ≠ 0 ∧ a (i + j) ≠ c) (hend : a (i + k) = 0 ∨ a (i + k) = c)
    (hk : k < room) :
    strchrFrom a c room i = some (if a (i + k) = 0 then none else some (i + k)) := by
  induction k generalizing i room with
  | zero =>
    obtain ⟨room, rfl⟩ := Nat.exists_eq_succ_of_ne_zero (by omega : room ≠ 0)
    rw [Nat.add_zero] at hend ⊢
    rw [strchrFrom]
    by_cases hzero : a i = 0
    · rw [if_pos hzero, if_pos hzero, if_neg hc]
    · rw [if_neg hzero, if_neg hzero, if_pos (hend.resolve_left hzero)]
  | succ k ih =>
    obtain ⟨room, rfl⟩ := Nat.exists_eq_succ_of_ne_zero (by omega : room ≠ 0)
    have hshift : i + (k + 1) = i + 1 + k := by omega
    rw [hshift] at hend ⊢
    have hfirst : a i ≠ 0 ∧ a i ≠ c := hne 0 (by omega)
    rw [strchrFrom, if_neg hfirst.1, if_neg hfirst.2]
    refine ih ?_ hend (by omega)
    intro j hj
    rw [Nat.add_assoc, Nat.add_comm 1 j]
    exact hne (j + 1) (by omega)

/-- The loop is that over two arrays of which every byte can be read. -/
theorem strcmpFrom_eq (t : CString) (room : ℕ) :
    strcmpFrom a t room i =
      compareFrom (fun j => some (a j)) (fun j => some (t.bytes j)) none room i := by
  induction room generalizing i with
  | zero => rfl
  | succ room ih =>
    rw [strcmpFrom, ih]
    rfl

namespace HoldsAt

theorem ne_zero (h : HoldsAt a size i s) {j : ℕ} (hj : j < s.strlen) : a (i + j) ≠ 0 := by
  rw [h.bytes j hj.le]
  exact mt CString.bytes_eq_zero_iff.mp (by omega)

theorem zero (h : HoldsAt a size i s) : a (i + s.strlen) = 0 := by
  rw [h.bytes _ le_rfl]
  exact CString.bytes_eq_zero_iff.mpr le_rfl

theorem strlenIn (h : HoldsAt a size i s) : NexusKernel.strlenIn a size i = some s.strlen := by
  have hfits := h.fits
  exact strlenFrom_eq (fun _ hj => h.ne_zero hj) h.zero (by omega)

theorem strcmpIn (h : HoldsAt a size 0 s) (t : CString) :
    NexusKernel.strcmpIn a size t = some (strcmp s t) := by
  have hfits := h.fits
  rw [Nat.zero_add] at hfits
  rw [NexusKernel.strcmpIn, strcmpFrom_eq]
  refine compareFrom_of_lt (m := t.chars) ?_ ?_ s.zero_not_mem hfits
  · intro j hj
    exact congrArg some (h.bytes j hj)
  · intro j _
    rw [Nat.zero_add]
    rfl

/-- `strchr` finds the first `c`, if there is one. -/
theorem strchrIn (h : HoldsAt a size i s) {c : Byte} (hc : c ≠ 0) :
    NexusKernel.strchrIn a size c i = some ((s.after c).map fun _ => i + (s.upTo c).strlen) := by
  have hfits := h.fits
  have hbefore : ∀ j < (s.upTo c).strlen, (s.upTo c).bytes j ≠ 0 ∧ (s.upTo c).bytes j ≠ c := by
    intro j hj
    refine ⟨mt CString.bytes_eq_zero_iff.mp (by omega), ?_⟩
    rw [CString.bytes_of_lt hj]
    intro he
    have hmem : (s.upTo c).chars.get ⟨j, hj⟩ ∈ (s.upTo c).chars := List.get_mem _ _
    rw [he] at hmem
    exact CString.not_mem_upTo c s hmem
  rcases hafter : s.after c with _ | rest
  · rw [CString.upTo_of_after hafter] at hbefore
    have hne : ∀ j < s.strlen, a (i + j) ≠ 0 ∧ a (i + j) ≠ c := by
      intro j hj
      rw [h.bytes j hj.le]
      exact hbefore j hj
    rw [NexusKernel.strchrIn, strchrFrom_eq hc hne (Or.inl h.zero) (by omega), if_pos h.zero]
    rfl
  · have hlen := CString.strlen_of_after hafter
    have hat : a (i + (s.upTo c).strlen) = c := by
      rw [h.bytes _ (by omega)]
      exact CString.bytes_after hafter 0
    have hne : ∀ j < (s.upTo c).strlen, a (i + j) ≠ 0 ∧ a (i + j) ≠ c := by
      intro j hj
      rw [h.bytes j (by omega), CString.bytes_upTo hafter hj]
      exact hbefore j hj
    rw [NexusKernel.strchrIn, strchrFrom_eq hc hne (Or.inr hat) (by omega), hat, if_neg hc]
    rfl

/-- With a zero in the place of the first `c`, the string up to it starts at the same
    index, and what follows behind. -/
theorem split (h : HoldsAt a size i s) {c : Byte} {rest : CString} (hafter : s.after c = some rest) :
    HoldsAt (Function.update a (i + (s.upTo c).strlen) 0) size i (s.upTo c) ∧
      HoldsAt (Function.update a (i + (s.upTo c).strlen) 0) size (i + (s.upTo c).strlen + 1)
        rest := by
  have hfits := h.fits
  have hlen := CString.strlen_of_after hafter
  refine ⟨⟨by omega, ?_⟩, ⟨by omega, ?_⟩⟩
  · intro j hj
    by_cases hend : j = (s.upTo c).strlen
    · rw [hend, Function.update_self]
      exact (CString.bytes_eq_zero_iff.mpr le_rfl).symm
    · rw [Function.update_of_ne (by omega), h.bytes j (by omega)]
      exact CString.bytes_upTo hafter (by omega)
  · intro j hj
    have hshift : i + (s.upTo c).strlen + 1 + j = i + ((s.upTo c).strlen + (j + 1)) := by omega
    rw [Function.update_of_ne (by omega), hshift, h.bytes _ (by omega)]
    exact CString.bytes_after hafter (j + 1)

end HoldsAt

/-! ## Copying -/

/-- An array with a zero byte holds a string. -/
theorem Terminated.holdsAt (h : Terminated a size) : HoldsAt a size 0 (stringAt a size) := by
  have hex : ∃ i, a i = 0 := ⟨_, h.choose_spec.2⟩
  have hlt : Nat.find hex < size := (Nat.find_min' hex h.choose_spec.2).trans_lt h.choose_spec.1
  have hmin : ∀ j < Nat.find hex, a j ≠ 0 := fun j hj => Nat.find_min hex hj
  obtain ⟨s, hs⟩ : ∃ s : CString, s.chars = (List.range (Nat.find hex)).map a := by
    refine ⟨⟨_, ?_⟩, rfl⟩
    intro hmem
    obtain ⟨j, hj, hzero⟩ := List.mem_map.mp hmem
    exact hmin j (List.mem_range.mp hj) hzero
  have hlen : s.strlen = Nat.find hex := by
    rw [CString.strlen, hs, List.length_map, List.length_range]
  have hholds : HoldsAt a size 0 s := by
    refine ⟨by omega, ?_⟩
    intro j hj
    rw [Nat.zero_add]
    by_cases hend : j = s.strlen
    · rw [CString.bytes_eq_zero_iff.mpr hend.ge, hend, hlen]
      exact Nat.find_spec hex
    · have hjlt : j < s.strlen := by omega
      rw [CString.bytes_of_lt hjlt]
      simp [hs]
  have hstring := hholds.stringAt
  simp only [Nat.zero_add, Nat.sub_zero] at hstring
  rw [hstring]
  exact hholds

/-- `strncpy(dest, s, n)` writes no byte behind the first `n + 1`. -/
theorem strncpy_outside {dest : ℕ → Byte} {n x : ℕ} (hx : n < x) :
    strncpy dest s.bytes n x = dest x := by
  rw [strncpy, strncpyFrom_apply (Nat.zero_le _), if_neg (by omega)]

/-- It leaves a zero among them iff the string is shorter than `n` or the last byte was
    zero before. -/
theorem terminated_strncpy_iff {dest : ℕ → Byte} {n : ℕ} :
    Terminated (strncpy dest s.bytes n) (n + 1) ↔ s.strlen < n ∨ dest n = 0 := by
  constructor
  · intro ⟨x, hx, hzero⟩
    rw [strncpy, strncpyFrom_apply (Nat.zero_le _)] at hzero
    split_ifs at hzero with hin
    · have hlen := CString.bytes_eq_zero_iff.mp hzero
      omega
    · obtain rfl : x = n := by omega
      exact Or.inr hzero
  · intro hcase
    by_cases hlen : s.strlen < n
    · refine ⟨s.strlen, by omega, ?_⟩
      rw [strncpy, strncpyFrom_apply (Nat.zero_le _), if_pos (by omega)]
      exact CString.bytes_eq_zero_iff.mpr le_rfl
    · refine ⟨n, by omega, ?_⟩
      rw [strncpy, strncpyFrom_apply (Nat.zero_le _), if_neg (by omega)]
      exact hcase.resolve_left hlen

/-- `strncpy` looks at nothing behind the terminator of its source. -/
theorem strncpyFrom_congr {src dest : ℕ → Byte} {n : ℕ} (hsrc : ∀ j ≤ s.strlen, src j = s.bytes j)
    (hi : i ≤ s.strlen) : strncpyFrom src n i dest = strncpyFrom s.bytes n i dest := by
  induction n generalizing i dest with
  | zero => rfl
  | succ n ih =>
    rw [strncpyFrom, strncpyFrom, hsrc i hi]
    by_cases hend : s.bytes i = 0
    · rw [if_pos hend, if_pos hend]
    · have hlt : i < s.strlen := Nat.lt_of_not_le (mt CString.bytes_eq_zero_iff.mpr hend)
      rw [if_neg hend, if_neg hend]
      exact ih hlt

/-- The first `n` bytes are those of the source, padded with zeros, and no other byte has
    changed. -/
structure PaddedCopy (src : ℕ → Byte) (len n : ℕ) (dest after : ℕ → Byte) : Prop where
  copied : ∀ i < min n len, after i = src i
  padded : ∀ i, len ≤ i → i < n → after i = 0
  unchanged : ∀ i ≥ n, after i = dest i

/-- For every source, limit and destination: `strncpy` copies and pads up to the limit and
    changes nothing behind it iff the source fills the limit or the byte behind it was
    zero before. -/
theorem strncpy_padded_copy_iff {src dest : ℕ → Byte} {n : ℕ}
    (hsrc : ∀ i ≤ s.strlen, src i = s.bytes i) :
    PaddedCopy src s.strlen n dest (strncpy dest src n) ↔ n ≤ s.strlen ∨ dest n = 0 := by
  have happly : ∀ x, strncpy dest src n x =
      if x < n ∨ s.strlen < n ∧ x = n then s.bytes x else dest x := by
    intro x
    rw [strncpy, strncpyFrom_congr hsrc (Nat.zero_le _), strncpyFrom_apply (Nat.zero_le _)]
    simp
  constructor
  · intro h
    by_contra hcase
    obtain ⟨hlen, hdest⟩ := not_or.mp hcase
    -- the byte behind the limit belongs to the padding
    have hlast := h.unchanged n le_rfl
    rw [happly, if_pos (by omega), CString.bytes_eq_zero_iff.mpr (by omega)] at hlast
    exact hdest hlast.symm
  · intro hcase
    refine ⟨?_, ?_, ?_⟩
    · intro i hi
      rw [happly, if_pos (by omega), hsrc i (by omega)]
    · intro i hlen hi
      rw [happly, if_pos (by omega), CString.bytes_eq_zero_iff.mpr hlen]
    · intro i hi
      rw [happly]
      split_ifs with hin
      · obtain rfl : i = n := by omega
        rw [hcase.resolve_left (by omega), CString.bytes_eq_zero_iff.mpr (by omega)]
      · rfl

/-- A source of three characters with a limit of two. -/
theorem strncpy_padded_copy_iff_abc :
    PaddedCopy (CString.lit "abc").bytes 3 2 (fun _ => 7)
      (strncpy (fun _ => 7) (CString.lit "abc").bytes 2) :=
  (strncpy_padded_copy_iff (s := CString.lit "abc") fun _ _ => rfl).mpr (Or.inl (by decide))

/-- `strncpy(dest, "a", 2)` clears `dest[2]`. -/
theorem strncpy_clears_byte_behind :
    strncpy (fun _ => 7) (CString.lit "a").bytes 2 2 = 0 ∧
      ¬ PaddedCopy (CString.lit "a").bytes 1 2 (fun _ => 7)
        (strncpy (fun _ => 7) (CString.lit "a").bytes 2) := by
  have hcleared : strncpy (fun _ => 7) (CString.lit "a").bytes 2 2 = 0 := by decide
  refine ⟨hcleared, ?_⟩
  intro h
  have hlast := h.unchanged 2 le_rfl
  rw [hcleared] at hlast
  exact absurd hlast (by decide)

end NexusKernel
