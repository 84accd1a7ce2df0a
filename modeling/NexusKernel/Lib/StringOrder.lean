import NexusKernel.Lib.String

/-!
# The order of strings (`strcmp` and `strncmp`, `kernel/lib/string.c`, lines 58–77)

The two functions are given arrays that may end anywhere: `none` stands for an index with
no byte to read, and a function that reads there has no result. Both loops compare
characters for equality only, where the sign of a `char` does not matter; the difference
they return is that of unsigned characters.

Results:
* `compareFrom_eq`: on arrays that hold two strings, the functions return what
  `strcmpChars` computes from the characters, and read nothing behind the terminators.
* `compares_strcmpChars`: its sign is the lexicographic comparison; `o.Compares l m` says
  that `o` is how `l` and `m` compare.
* `strings_compared_lexicographically`: both functions compare in lexicographic order.
-/

namespace NexusKernel

/-! ## Lists in lexicographic order -/

section

variable {α : Type} [LinearOrder α] {o : Ordering} {a b : α} {l m : List α}

theorem compares_cons_self (h : o.Compares l m) : o.Compares (a :: l) (a :: m) := by
  cases o with
  | lt => exact List.cons_lt_cons_self.mpr h
  | eq => exact congrArg (List.cons a) h
  | gt => exact List.cons_lt_cons_self.mpr h

/-- The first difference decides. -/
theorem compares_cons_of_ne (h : o.Compares a b) (hne : a ≠ b) : o.Compares (a :: l) (b :: m) := by
  cases o with
  | lt => exact List.cons_lt_cons_iff.mpr (Or.inl h)
  | eq => exact absurd h hne
  | gt => exact List.cons_lt_cons_iff.mpr (Or.inl h)

end

/-! ## Functions -/

/-- The loop of both functions from index `i` on, and the `return` behind it (lines 60–64
    and 69–76). The `return` reads both characters, so it makes no difference that the loop
    reads the second one only if the first is not zero. After `n` iterations the result is
    `limit`. -/
def compareFrom (s1 s2 : ℕ → Option Byte) (limit : Option ℤ) : (n i : ℕ) → Option ℤ
  | 0, _ => limit
  | n + 1, i =>
    (s1 i).bind fun a => (s2 i).bind fun b =>
      if a ≠ 0 ∧ a = b then compareFrom s1 s2 limit n (i + 1) else some (a.toNat - b.toNat)

/-- `strcmp(s1, s2)` (lines 58–65); `none` if the loop does not end within `fuel`
    iterations. -/
def strcmpAt (s1 s2 : ℕ → Option Byte) (fuel : ℕ) : Option ℤ := compareFrom s1 s2 none fuel 0

/-- `strncmp(s1, s2, n)` (lines 67–77): when `n` has come down to zero, the result is 0. -/
def strncmpAt (s1 s2 : ℕ → Option Byte) (n : ℕ) : Option ℤ := compareFrom s1 s2 (some 0) n 0

/-- The array holds the text `l` from index `i` on, and a zero behind it. -/
def HoldsFrom (a : ℕ → Option Byte) (i : ℕ) (l : List Byte) : Prop :=
  ∀ j ≤ l.length, a (i + j) = some (l.getD j 0)

/-- The unsigned characters of a string. -/
def CString.codes (s : CString) : List ℕ := s.chars.map BitVec.toNat

/-! ## The result -/

section

variable {a b : ℕ → Option Byte} {i : ℕ} {l m : List Byte}

theorem HoldsFrom.head (h : HoldsFrom a i l) : a i = some (l.getD 0 0) := h 0 (Nat.zero_le _)

theorem HoldsFrom.tail {c : Byte} (h : HoldsFrom a i (c :: l)) : HoldsFrom a (i + 1) l := by
  intro j hj
  have hnext := h (j + 1) (Nat.succ_le_succ hj)
  rwa [← Nat.add_assoc, Nat.add_right_comm] at hnext

/-- Along both texts: the characters behind the first difference, and behind the
    terminator of either text, are not looked at. -/
theorem compareFrom_eq {limit : Option ℤ} {n : ℕ} (ha : HoldsFrom a i l) (hb : HoldsFrom b i m)
    (hl : 0 ∉ l) (hlimit : n ≤ l.length → limit = some 0) :
    compareFrom a b limit n i = some (strcmpChars (l.take n) (m.take n)) := by
  induction n generalizing i l m with
  | zero => simpa [compareFrom, strcmpChars] using hlimit (Nat.zero_le _)
  | succ n ih =>
    rw [compareFrom, ha.head, hb.head, Option.bind_some, Option.bind_some]
    cases l with
    | nil => cases m <;> simp [strcmpChars]
    | cons x l =>
      have hx : x ≠ 0 := (List.ne_of_not_mem_cons hl).symm
      cases m with
      | nil => simp [strcmpChars]
      | cons y m =>
        by_cases hxy : x = y
        · have hrest := ih ha.tail hb.tail (List.not_mem_of_not_mem_cons hl) fun h =>
            hlimit (Nat.succ_le_succ h)
          rw [if_pos ⟨hx, hxy⟩, hrest, List.take_succ_cons, List.take_succ_cons, strcmpChars,
            if_pos hxy]
        · have hne : ¬ ((x :: l).getD 0 0 ≠ 0 ∧ (x :: l).getD 0 0 = (y :: m).getD 0 0) :=
            fun h => hxy h.2
          rw [if_neg hne, List.take_succ_cons, List.take_succ_cons, strcmpChars, if_neg hxy]
          rfl

/-- A comparison does not look further than the terminator of the first text. -/
theorem strcmpChars_take {n : ℕ} (h : l.length < n) (m : List Byte) :
    strcmpChars l (m.take n) = strcmpChars l m := by
  obtain ⟨n, rfl⟩ := Nat.exists_eq_succ_of_ne_zero (by omega : n ≠ 0)
  induction l generalizing m n with
  | nil => cases m <;> simp [strcmpChars]
  | cons x l ih =>
    cases m with
    | nil => rfl
    | cons y m =>
      obtain ⟨n, rfl⟩ := Nat.exists_eq_succ_of_ne_zero (by rw [List.length_cons] at h; omega : n ≠ 0)
      rw [List.take_succ_cons, strcmpChars, strcmpChars, ih m n (by simpa using h)]

/-- The loop ends on the terminator of the first text at the latest. -/
theorem compareFrom_of_lt {limit : Option ℤ} {n : ℕ} (ha : HoldsFrom a i l) (hb : HoldsFrom b i m)
    (hl : 0 ∉ l) (hn : l.length < n) : compareFrom a b limit n i = some (strcmpChars l m) := by
  rw [compareFrom_eq ha hb hl fun h => absurd hn (not_lt.mpr h), List.take_of_length_le hn.le,
    strcmpChars_take hn]

/-- The sign of the result is the lexicographic comparison. -/
theorem compares_strcmpChars (hl : 0 ∉ l) (hm : 0 ∉ m) :
    (cmp (strcmpChars l m) 0).Compares (l.map BitVec.toNat) (m.map BitVec.toNat) := by
  have hpos : ∀ {c : Byte}, c ≠ 0 → 0 < c.toNat := by
    intro c hc
    exact Nat.pos_of_ne_zero fun h => hc (BitVec.eq_of_toNat_eq h)
  induction l generalizing m with
  | nil =>
    cases m with
    | nil => rfl
    | cons y m =>
      have hy := hpos (List.ne_of_not_mem_cons hm).symm
      rw [strcmpChars, (cmp_eq_lt_iff _ _).mpr (by omega)]
      exact List.nil_lt_cons _ _
  | cons x l ih =>
    have hx := hpos (List.ne_of_not_mem_cons hl).symm
    cases m with
    | nil =>
      rw [strcmpChars, (cmp_eq_gt_iff _ _).mpr (by omega)]
      exact List.nil_lt_cons _ _
    | cons y m =>
      rw [strcmpChars, List.map_cons, List.map_cons]
      by_cases hxy : x = y
      · rw [if_pos hxy, hxy]
        apply compares_cons_self
        exact ih (List.not_mem_of_not_mem_cons hl) (List.not_mem_of_not_mem_cons hm)
      · have hcmp : cmp (x.toNat - y.toNat : ℤ) 0 = cmp x.toNat y.toNat := by
          rw [cmp_sub_zero]
          exact Nat.strictMono_cast.cmp_map_eq x.toNat y.toNat
        rw [if_neg hxy, hcmp]
        apply compares_cons_of_ne (cmp_compares _ _)
        exact fun h => hxy (BitVec.eq_of_toNat_eq h)

end

theorem compares_strcmp (s t : CString) : (cmp (strcmp s t) 0).Compares s.codes t.codes :=
  compares_strcmpChars s.zero_not_mem t.zero_not_mem

theorem strcmp_le_zero_iff {s t : CString} : strcmp s t ≤ 0 ↔ s.codes ≤ t.codes := by
  rw [← not_lt, ← not_lt, ← cmp_eq_gt_iff]
  exact not_congr (compares_strcmp s t).eq_gt

/-- `strcmp` and `strncmp` on the arrays `a` and `b` return, and their results have the
    sign of the lexicographic comparison of the strings `s` and `t`, or of their first `n`
    characters; what `strcmp` returns is an order. -/
structure ComparesLexicographically (a b : ℕ → Option Byte) (s t : CString) : Prop where
  strcmp_returns : ∀ fuel > s.strlen, strcmpAt a b fuel = some (strcmp s t)
  sign_strcmp : (cmp (strcmp s t) 0).Compares s.codes t.codes
  zero_iff : strcmp s t = 0 ↔ s = t
  swap : cmp (strcmp t s) 0 = (cmp (strcmp s t) 0).swap
  trans : ∀ u, strcmp s t ≤ 0 → strcmp t u ≤ 0 → strcmp s u ≤ 0
  sign_strncmp : ∀ n, ∃ v, strncmpAt a b n = some v ∧
    (cmp v 0).Compares (s.codes.take n) (t.codes.take n)

/-- For all arrays that hold two strings, whatever is behind the terminators or if nothing
    can be read there. -/
theorem strings_compared_lexicographically {a b : ℕ → Option Byte} {s t : CString}
    (ha : HoldsFrom a 0 s.chars) (hb : HoldsFrom b 0 t.chars) :
    ComparesLexicographically a b s t where
  strcmp_returns fuel hfuel := by
    exact compareFrom_of_lt ha hb s.zero_not_mem hfuel
  sign_strcmp := compares_strcmp s t
  zero_iff := strcmp_eq_zero_iff
  swap := (compares_strcmp t s).inj (Ordering.compares_swap.mpr (compares_strcmp s t))
  trans u hst htu := by
    rw [strcmp_le_zero_iff] at hst htu ⊢
    exact hst.trans htu
  sign_strncmp n := by
    refine ⟨_, compareFrom_eq ha hb s.zero_not_mem fun _ => rfl, ?_⟩
    rw [CString.codes, CString.codes, ← List.map_take, ← List.map_take]
    exact compares_strcmp (s.take n) (t.take n)

/-- The array that ends with the terminator. -/
def CString.array (s : CString) : ℕ → Option Byte := fun i =>
  if i ≤ s.strlen then some (s.bytes i) else none

theorem holdsFrom_array (s : CString) : HoldsFrom s.array 0 s.chars := by
  intro j hj
  rw [Nat.zero_add]
  exact if_pos hj

/-- A character above `0x7F` is greater than a letter. -/
theorem strings_compared_lexicographically_high :
    ComparesLexicographically (CString.ofList [0x80]).array (CString.lit "a").array
        (CString.ofList [0x80]) (CString.lit "a") ∧
      strcmpAt (CString.ofList [0x80]).array (CString.lit "a").array 2 = some 31 := by
  have h := strings_compared_lexicographically (holdsFrom_array (CString.ofList [0x80]))
    (holdsFrom_array (CString.lit "a"))
  refine ⟨h, ?_⟩
  rw [h.strcmp_returns 2 (by decide)]
  decide

end NexusKernel
