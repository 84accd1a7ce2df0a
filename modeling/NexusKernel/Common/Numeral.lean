import Mathlib

/-!
# Positional numerals

A radix is a base together with symbols for its digits, of any type. A numeral lists
the symbols of a number's digits, the most significant one first.

* `Radix.read_map`: reading symbols is evaluating digits.
* `Radix.canonical_text`, `Radix.read_text`: the numeral of a number has no leading
  zero and reads back, so different numbers have different numerals.
-/

namespace NexusKernel

/-- A base and the symbols of its digits. -/
structure Radix (α : Type) where
  base : ℕ
  one_lt_base : 1 < base
  symbol : ℕ → α
  value : α → ℕ
  value_symbol : ∀ d < base, value (symbol d) = d

namespace Radix

variable {α : Type} (r : Radix α)

/-- The numeral of `n`; zero has one digit. -/
def text (n : ℕ) : List α :=
  if n = 0 then [r.symbol 0] else ((Nat.digits r.base n).map r.symbol).reverse

/-- The number that a text denotes. -/
def read (l : List α) : ℕ := l.foldl (fun n c => r.base * n + r.value c) 0

/-- At least one symbol, only symbols of digits, and a zero in front only if it is the
    whole text. -/
structure Canonical (l : List α) : Prop where
  ne_nil : l ≠ []
  symbols : ∀ c ∈ l, ∃ d < r.base, c = r.symbol d
  leading : l.head? = some (r.symbol 0) → l = [r.symbol 0]

variable {r}

theorem symbol_injOn {d e : ℕ} (hd : d < r.base) (he : e < r.base)
    (h : r.symbol d = r.symbol e) : d = e := by
  rw [← r.value_symbol d hd, h, r.value_symbol e he]

theorem read_append_single (l : List α) (c : α) :
    r.read (l ++ [c]) = r.base * r.read l + r.value c := by
  simp [read]

/-- Reading symbols is evaluating digits. -/
theorem read_map {ds : List ℕ} (h : ∀ d ∈ ds, d < r.base) :
    r.read (ds.map r.symbol).reverse = Nat.ofDigits r.base ds := by
  induction ds with
  | nil => rfl
  | cons d ds ih =>
    rw [List.map_cons, List.reverse_cons, read_append_single, ih fun e he => h e (by simp [he]),
      r.value_symbol d (h d (by simp)), Nat.ofDigits_cons, add_comm]

theorem canonical_text (n : ℕ) : r.Canonical (r.text n) := by
  have hb := r.one_lt_base
  unfold text
  split_ifs with hn
  · exact ⟨by simp, by simpa using ⟨0, by omega, rfl⟩, fun _ => rfl⟩
  · have hne : Nat.digits r.base n ≠ [] := Nat.digits_ne_nil_iff_ne_zero.mpr hn
    refine ⟨by simpa using hne, ?_, ?_⟩
    · intro c hc
      obtain ⟨d, hd, rfl⟩ := List.mem_map.mp (List.mem_reverse.mp hc)
      exact ⟨d, Nat.digits_lt_base hb hd, rfl⟩
    · -- the first symbol is that of the last digit, which is not zero
      intro hhead
      have hlast : r.symbol ((Nat.digits r.base n).getLast hne) = r.symbol 0 := by
        simpa [List.getLast?_eq_some_getLast hne] using hhead
      have hlt := Nat.digits_lt_base hb (List.getLast_mem hne)
      exact absurd (symbol_injOn hlt (by omega) hlast) (Nat.getLast_digit_ne_zero r.base hn)

theorem read_text (n : ℕ) : r.read (r.text n) = n := by
  unfold text
  split_ifs with hn
  · simp [read, hn, r.value_symbol 0 (by have := r.one_lt_base; omega)]
  · rw [read_map fun d hd => Nat.digits_lt_base r.one_lt_base hd, Nat.ofDigits_digits]

theorem text_injective : Function.Injective r.text := Function.LeftInverse.injective read_text

end Radix

end NexusKernel
