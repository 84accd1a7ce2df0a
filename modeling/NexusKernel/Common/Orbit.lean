import Mathlib

/-!
# Loops that iterate a function

`while (P x) x = f x;` meets the states `a, f a, f (f a), …` until one is outside `P`.

* `exitsAfter_zero`, `exitsAfter_succ`: one iteration.
* `exists_exitsAfter`: a loop that goes up to a bound ends.
* `ExitsAfter.congr`: a loop that takes the same steps ends with it.
-/

namespace NexusKernel

variable {α : Type} {f : α → α} {P : α → Prop} {a : α} {n : ℕ}

/-- The loop from `a` on makes `n` iterations and ends. -/
structure ExitsAfter (f : α → α) (P : α → Prop) (a : α) (n : ℕ) : Prop where
  inside : ∀ k < n, P (f^[k] a)
  outside : ¬ P (f^[n] a)

theorem exitsAfter_zero : ExitsAfter f P a 0 ↔ ¬ P a :=
  ⟨fun h => h.outside, fun h => ⟨fun _ hk => absurd hk (Nat.not_lt_zero _), h⟩⟩

theorem exitsAfter_succ : ExitsAfter f P a (n + 1) ↔ P a ∧ ExitsAfter f P (f a) n := by
  constructor
  · intro h
    exact ⟨h.inside 0 n.succ_pos, fun k hk => h.inside (k + 1) (Nat.succ_lt_succ hk), h.outside⟩
  · intro ⟨ha, h⟩
    refine ⟨?_, h.outside⟩
    intro k hk
    cases k with
    | zero => exact ha
    | succ k => exact h.inside k (Nat.lt_of_succ_lt_succ hk)

/-- A loop that goes up ends when it has reached a bound. -/
theorem exists_exitsAfter {f : ℕ → ℕ} {a : ℕ} (hf : ∀ x, x < f x) (b : ℕ) :
    ∃ n, ExitsAfter f (· < b) a n := by
  have hmono : StrictMono fun n => f^[n] a := by
    refine strictMono_nat_of_lt_succ fun n => ?_
    rw [Function.iterate_succ_apply']
    exact hf _
  have hleaves : ∃ n, ¬ f^[n] a < b := ⟨b, not_lt.mpr hmono.le_apply⟩
  exact ⟨Nat.find hleaves, fun k hk => not_not.mp (Nat.find_min hleaves hk),
    Nat.find_spec hleaves⟩

/-- Two loops whose steps agree as long as they go on end together. -/
theorem ExitsAfter.congr {g : α → α} (h : ExitsAfter f P a n)
    (heq : ∀ k < n, g (f^[k] a) = f^[k + 1] a) : ExitsAfter g P a n ∧ ∀ k ≤ n, g^[k] a = f^[k] a := by
  have hsame : ∀ k ≤ n, g^[k] a = f^[k] a := by
    intro k hk
    induction k with
    | zero => rfl
    | succ k ih => rw [Function.iterate_succ_apply', ih (by omega), heq k hk]
  refine ⟨⟨?_, ?_⟩, hsame⟩
  · intro k hk
    rw [hsame k hk.le]
    exact h.inside k hk
  · rw [hsame n le_rfl]
    exact h.outside

end NexusKernel
