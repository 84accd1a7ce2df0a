import NexusKernel.Common.Heap

/-!
# One heap, several clients

A client with a log of its calls sees the blocks it holds as a heap of its own
(`Heap.Lawful.held`). Other clients of the same heap call it in between: what they hold are
live blocks that the log does not hold.

* `calls_keep_other`: the calls of the client leave the blocks of the others
  alone.
* `LogOk.mono`, `heldBlocks_mono`: so do the calls of the others with what the client holds.
* `other_apart`: no address lies in a block of each.
-/

namespace NexusKernel

variable {τ : Type} {H : Heap τ} {blocks : τ → ℕ → Option ℕ} {t u : τ × List HeapEvent} {q m : ℕ}

/-- A new block is live and large enough. -/
theorem Heap.Lawful.kmalloc_new (hH : H.Lawful blocks) {x : τ} {n : ℕ}
    (h0 : (H.kmalloc x n).1 ≠ 0) :
    ∃ m, n ≤ m ∧ blocks (H.kmalloc x n).2 (H.kmalloc x n).1 = some m := by
  obtain ⟨m, hm, hblocks⟩ := hH.kmalloc_blocks x n h0
  refine ⟨m, hm, ?_⟩
  rw [hblocks, Function.update_self]

theorem call_keeps_other (hH : H.Lawful blocks) (hq : blocks t.1 q = some m)
    (hout : q ∉ held t.2) (hcall : H.logged.Call (heldBlocks blocks) t u) :
    blocks u.1 q = some m ∧ q ∉ held u.2 := by
  obtain ⟨n, rfl⟩ | ⟨p, hp, rfl⟩ := hcall
  · refine ⟨hH.kmalloc_live t.1 n hq, ?_⟩
    by_cases h0 : (H.kmalloc t.1 n).1 = 0
    · rw [logged_of_fail h0]
      exact hout
    · rw [logged_of_success h0]
      exact List.not_mem_cons_of_ne_of_not_mem (hH.kmalloc_ne h0 hq).symm hout
  · obtain ⟨k, hk⟩ := Option.isSome_iff_exists.mp hp
    obtain ⟨hheld, hk⟩ := heldBlocks_eq_some_iff.mp hk
    have hqp : q ≠ p := by
      rintro rfl
      exact hout hheld
    refine ⟨?_, fun hmem => hout (List.mem_filter.mp hmem).1⟩
    show blocks (H.kfree t.1 p) q = some m
    rw [hH.kfree_blocks t.1 p (hk ▸ rfl), Function.update_of_ne hqp, hq]

theorem calls_keep_other (hH : H.Lawful blocks) (hq : blocks t.1 q = some m)
    (hout : q ∉ held t.2) (hcalls : H.logged.Calls (heldBlocks blocks) t u) :
    blocks u.1 q = some m ∧ q ∉ held u.2 := by
  induction hcalls with
  | refl => exact ⟨hq, hout⟩
  | tail _ hcall ih => exact call_keeps_other hH ih.1 ih.2 hcall

section

variable {x y : τ} {log : List HeapEvent}
  (hkeep : ∀ p m, p ∈ held log → blocks x p = some m → blocks y p = some m)

include hkeep

theorem LogOk.mono (h : LogOk blocks (x, log)) : LogOk blocks (y, log) := by
  refine ⟨h.nodup, h.frees, ?_⟩
  intro p hp
  obtain ⟨k, hk⟩ := Option.isSome_iff_exists.mp (h.live p hp)
  exact Option.isSome_iff_exists.mpr ⟨k, hkeep p k hp hk⟩

theorem heldBlocks_mono (h : LogOk blocks (x, log)) :
    heldBlocks blocks (y, log) = heldBlocks blocks (x, log) := by
  funext p
  unfold heldBlocks
  split_ifs with hp
  · obtain ⟨k, hk⟩ := Option.isSome_iff_exists.mp (h.live p hp)
    exact (hkeep p k hp hk).trans hk.symm
  · rfl

end

/-- An address in a block of the others is neither the start of a block held nor in one. -/
theorem other_apart (hH : H.Lawful blocks) (hq : blocks t.1 q = some m)
    (hout : q ∉ held t.2) {a : ℕ} (ha : q ≤ a ∧ a < q + m) {p k : ℕ}
    (hp : heldBlocks blocks t p = some k) : a ≠ p ∧ (a < p ∨ p + k ≤ a) := by
  obtain ⟨hheld, hp⟩ := heldBlocks_eq_some_iff.mp hp
  have hqp : q ≠ p := by
    rintro rfl
    exact hout hheld
  have := hH.disjoint t.1 q p m k hq hp hqp
  omega

end NexusKernel
