import NexusKernel.Common.Heap

/-!
# Owners of heap blocks

Each of some owners holds a list of blocks: `R a` says that `a` is an owner and `B a`
lists its blocks. `Owns` says that they are live and that no block is held twice,
`Covers` that every live block has an owner.

* `Owns.exchange`: one owner exchanges its blocks, appears or disappears, and the
  others keep theirs.
* `Covers.exchange`: no block is lost if only that owner changes.
-/

namespace NexusKernel

variable {τ α : Type} {H : Heap τ} {blocks : τ → ℕ → Option ℕ} {t u : τ} {R R' : α → Prop}
  {B B' : α → List ℕ}

/-- What the owners hold is live, and no block is held twice. -/
structure Owns (live : ℕ → Option ℕ) (R : α → Prop) (B : α → List ℕ) : Prop where
  live : ∀ a, R a → ∀ p ∈ B a, (live p).isSome
  nodup : ∀ a, R a → (B a).Nodup
  disjoint : ∀ a b, R a → R b → ∀ p ∈ B a, p ∈ B b → a = b

/-- Every live block has an owner. -/
def Covers (live : ℕ → Option ℕ) (R : α → Prop) (B : α → List ℕ) : Prop :=
  ∀ p, (live p).isSome → ∃ a, R a ∧ p ∈ B a

/-- `l` is what `x` holds. -/
def Holds (R : α → Prop) (B : α → List ℕ) (x : α) (l : List ℕ) : Prop :=
  (R x ∧ l = B x) ∨ (¬ R x ∧ l = [])

theorem Holds.mem_iff {x : α} {l : List ℕ} (h : Holds R B x l) {p : ℕ} : p ∈ l ↔ R x ∧ p ∈ B x := by
  obtain ⟨hx, rfl⟩ | ⟨hx, rfl⟩ := h <;> simp [hx]

/-- The owner `x` exchanges its blocks, appears or disappears; no other owner appears,
    and none changes. -/
structure OwnerChange (H : Heap τ) (blocks : τ → ℕ → Option ℕ) (t u : τ) (R R' : α → Prop)
    (B B' : α → List ℕ) (x : α) : Prop where
  exchange : ∃ old new, H.Exchange blocks t u old new ∧ Holds R B x old ∧ Holds R' B' x new
  other : ∀ a, a ≠ x → R' a → R a ∧ B' a = B a

/-- The blocks of the other owners stay live. -/
theorem Owns.keep (h : Owns (blocks t) R B) {x : α} (hc : OwnerChange H blocks t u R R' B B' x)
    {a : α} (hax : a ≠ x) (ha : R a) {p m : ℕ} (hp : p ∈ B a) (hm : blocks t p = some m) :
    blocks u p = some m := by
  obtain ⟨old, new, hex, hold, -⟩ := hc.exchange
  refine hex.keep p m ?_ hm
  intro hpold
  obtain ⟨hx, hpx⟩ := hold.mem_iff.mp hpold
  exact hax (h.disjoint a x ha hx p hp hpx)

theorem Owns.exchange (h : Owns (blocks t) R B) {x : α}
    (hc : OwnerChange H blocks t u R R' B B' x) : Owns (blocks u) R' B' := by
  obtain ⟨old, new, hex, hold, hnew⟩ := hc.exchange
  -- a block of `x` is not one of another owner: it was its own before, or not live
  have hsep : ∀ a p, a ≠ x → R a → p ∈ B a → ¬ (R' x ∧ p ∈ B' x) := by
    intro a p hax ha hpa hpx
    have hfresh := hex.fresh p (hnew.mem_iff.mpr hpx)
    by_cases hpold : p ∈ old
    · obtain ⟨hx, hpB⟩ := hold.mem_iff.mp hpold
      exact hax (h.disjoint a x ha hx p hpa hpB)
    · have hlive := h.live a ha p hpa
      rw [hfresh hpold] at hlive
      exact Bool.noConfusion hlive
  refine ⟨?_, ?_, ?_⟩
  · intro a ha p hp
    by_cases hax : a = x
    · subst hax
      exact (hex.live p).mpr (Or.inr (hnew.mem_iff.mpr ⟨ha, hp⟩))
    · obtain ⟨hRa, hB⟩ := hc.other a hax ha
      rw [hB] at hp
      obtain ⟨m, hm⟩ := Option.isSome_iff_exists.mp (h.live a hRa p hp)
      rw [h.keep hc hax hRa hp hm]
      rfl
  · intro a ha
    by_cases hax : a = x
    · subst hax
      obtain ⟨-, hB⟩ | ⟨hout, -⟩ := hnew
      · rw [← hB]
        exact hex.nodup
      · exact absurd ha hout
    · obtain ⟨hRa, hB⟩ := hc.other a hax ha
      rw [hB]
      exact h.nodup a hRa
  · intro a b ha hb p hpa hpb
    by_cases hax : a = x
    · by_cases hbx : b = x
      · rw [hax, hbx]
      · obtain ⟨hRb, hB⟩ := hc.other b hbx hb
        rw [hB] at hpb
        exact absurd ⟨hax ▸ ha, hax ▸ hpa⟩ (hsep b p hbx hRb hpb)
    · obtain ⟨hRa, hBa⟩ := hc.other a hax ha
      rw [hBa] at hpa
      by_cases hbx : b = x
      · exact absurd ⟨hbx ▸ hb, hbx ▸ hpb⟩ (hsep a p hax hRa hpa)
      · obtain ⟨hRb, hBb⟩ := hc.other b hbx hb
        rw [hBb] at hpb
        exact h.disjoint a b hRa hRb p hpa hpb

/-- No block is lost if all other owners remain. -/
theorem Covers.exchange (h : Covers (blocks t) R B) {x : α}
    (hc : OwnerChange H blocks t u R R' B B' x) (hkeep : ∀ a, a ≠ x → R a → R' a) :
    Covers (blocks u) R' B' := by
  obtain ⟨old, new, hex, hold, hnew⟩ := hc.exchange
  intro p hp
  obtain ⟨hlive, hout⟩ | hin := (hex.live p).mp hp
  · obtain ⟨a, ha, hpa⟩ := h p hlive
    have hax : a ≠ x := by
      rintro rfl
      exact hout (hold.mem_iff.mpr ⟨ha, hpa⟩)
    have hR' := hkeep a hax ha
    refine ⟨a, hR', ?_⟩
    rw [(hc.other a hax hR').2]
    exact hpa
  · exact ⟨x, hnew.mem_iff.mp hin⟩

end NexusKernel
