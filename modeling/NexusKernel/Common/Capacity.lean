import NexusKernel.Common.Tiling

/-!
# How much fits into a tiling

* `sum_le_span`: the payloads of different cells, with their headers, are not larger than
  the whole.
-/

namespace NexusKernel.Tiling

variable {H a : ℕ} {cs : List Cell}

/-- The cell `e` is the only one at `a`. -/
theorem placed_cons_cases (hH : 0 < H) {e c : Cell} {x : ℕ} (h : (x, c) ∈ placed H a (e :: cs)) :
    (x = a ∧ c = e) ∨ (x ≠ a ∧ (x, c) ∈ placed H (a + H + e.size) cs) := by
  simp only [placed, List.mem_cons, Prod.mk.injEq] at h
  obtain h | h := h
  · exact Or.inl h
  · have := (placed_bounds h).1
    exact Or.inr ⟨by omega, h⟩

/-- `L` lists payloads by their addresses, each with a size it has at least. -/
theorem sum_le_span (hH : 0 < H) {L : List (ℕ × ℕ)} (hnodup : (L.map Prod.fst).Nodup)
    (hL : ∀ q ∈ L, ∃ x c, q.1 = x + H ∧ (x, c) ∈ placed H a cs ∧ q.2 ≤ c.size) :
    (L.map fun q => H + q.2).sum ≤ span H cs := by
  induction cs generalizing a L with
  | nil =>
    cases L with
    | nil => simp [span]
    | cons q L =>
      obtain ⟨x, c, -, hc, -⟩ := hL q List.mem_cons_self
      simp [placed] at hc
  | cons e cs ih =>
    -- a payload that is not the first one is among the other cells
    have hrest : ∀ q ∈ L, q.1 ≠ a + H →
        ∃ x c, q.1 = x + H ∧ (x, c) ∈ placed H (a + H + e.size) cs ∧ q.2 ≤ c.size := by
      intro q hq hne
      obtain ⟨x, c, hx, hc, hle⟩ := hL q hq
      obtain ⟨rfl, -⟩ | ⟨-, hc⟩ := placed_cons_cases hH hc
      · exact absurd hx hne
      · exact ⟨x, c, hx, hc, hle⟩
    by_cases hfirst : ∃ q ∈ L, q.1 = a + H
    · obtain ⟨q, hq, hqa⟩ := hfirst
      obtain ⟨pre, post, rfl⟩ := List.append_of_mem hq
      rw [List.map_append, List.map_cons, List.nodup_middle, List.nodup_cons, ← List.map_append]
        at hnodup
      have htail := ih hnodup.2 fun r hr => hrest r (by
        rw [List.mem_append] at hr
        simp only [List.mem_append, List.mem_cons]
        tauto) (by
        intro hra
        exact hnodup.1 (List.mem_map.mpr ⟨r, hr, hra.trans hqa.symm⟩))
      obtain ⟨x, c, hx, hc, hle⟩ := hL q hq
      obtain ⟨-, rfl⟩ | ⟨hne, -⟩ := placed_cons_cases hH hc
      · simp only [List.map_append, List.map_cons, List.sum_append, List.sum_cons, span] at htail ⊢
        omega
      · omega
    · have htail := ih hnodup fun q hq => hrest q hq fun hqa => hfirst ⟨q, hq, hqa⟩
      rw [span]
      omega

end NexusKernel.Tiling
