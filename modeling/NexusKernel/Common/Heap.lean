import Mathlib

/-!
# A heap as its clients see it

A client calls `kmalloc` and `kfree` and sees pointers; 0 is `NULL`. `Heap.Lawful`
says what it relies on: a new block was not live, is large enough, and live blocks
do not overlap. When an allocation succeeds is left open.

`Heap.Exchange` is what a sequence of calls comes to: some blocks given back, others
taken.

`Heap.logged` keeps a log of the calls beside any heap, for results on which blocks
a client holds: `held` is what the log says was allocated and not freed, `FreesHeld`
that no block was freed that was not held. What a client holds is a heap of its own
(`Heap.Lawful.held`).
-/

namespace NexusKernel

structure Heap (τ : Type) where
  kmalloc : τ → ℕ → ℕ × τ
  kfree : τ → ℕ → τ

variable {τ : Type}

/-- `blocks t p` is the size of the live block at `p`, if there is one. -/
structure Heap.Lawful (H : Heap τ) (blocks : τ → ℕ → Option ℕ) : Prop where
  kmalloc_fail : ∀ t n, (H.kmalloc t n).1 = 0 → blocks (H.kmalloc t n).2 = blocks t
  kmalloc_fresh : ∀ t n, (H.kmalloc t n).1 ≠ 0 → blocks t (H.kmalloc t n).1 = none
  kmalloc_blocks : ∀ t n, (H.kmalloc t n).1 ≠ 0 → ∃ m, n ≤ m ∧
    blocks (H.kmalloc t n).2 = Function.update (blocks t) (H.kmalloc t n).1 (some m)
  kfree_blocks : ∀ t p, (blocks t p).isSome → blocks (H.kfree t p) = Function.update (blocks t) p none
  disjoint : ∀ t p q m n, blocks t p = some m → blocks t q = some n → p ≠ q →
    p + m ≤ q ∨ q + n ≤ p

section

variable {H : Heap τ} {blocks : τ → ℕ → Option ℕ} {t : τ} {p n : ℕ}

theorem Heap.Lawful.kmalloc_ne (h : H.Lawful blocks) (h0 : (H.kmalloc t n).1 ≠ 0) {q m : ℕ}
    (hq : blocks t q = some m) : (H.kmalloc t n).1 ≠ q := by
  intro hqp
  have hfresh := h.kmalloc_fresh t n h0
  rw [hqp, hq] at hfresh
  exact absurd hfresh (Option.some_ne_none m)

/-- A block that is live stays so through an allocation. -/
theorem Heap.Lawful.kmalloc_live (h : H.Lawful blocks) (t : τ) (n : ℕ) {q m : ℕ}
    (hq : blocks t q = some m) : blocks (H.kmalloc t n).2 q = some m := by
  by_cases h0 : (H.kmalloc t n).1 = 0
  · rw [h.kmalloc_fail t n h0, hq]
  · obtain ⟨k, -, hblocks⟩ := h.kmalloc_blocks t n h0
    rw [hblocks, Function.update_of_ne (h.kmalloc_ne h0 hq).symm, hq]

end

/-! ## Sequences of calls -/

/-- One call: an allocation, or the release of a live block. -/
def Heap.Call (H : Heap τ) (blocks : τ → ℕ → Option ℕ) (t u : τ) : Prop :=
  (∃ n, u = (H.kmalloc t n).2) ∨ ∃ p, (blocks t p).isSome ∧ u = H.kfree t p

def Heap.Calls (H : Heap τ) (blocks : τ → ℕ → Option ℕ) : τ → τ → Prop :=
  Relation.ReflTransGen (H.Call blocks)

/-- Calls that give back the blocks `old` and take the blocks `new`; what is on both
    lists is kept. -/
structure Heap.Exchange (H : Heap τ) (blocks : τ → ℕ → Option ℕ) (t u : τ) (old new : List ℕ) :
    Prop where
  calls : H.Calls blocks t u
  live : ∀ p, (blocks u p).isSome ↔ ((blocks t p).isSome ∧ p ∉ old) ∨ p ∈ new
  keep : ∀ p m, p ∉ old → blocks t p = some m → blocks u p = some m
  fresh : ∀ p ∈ new, p ∉ old → blocks t p = none
  nodup : new.Nodup

section

variable {H : Heap τ} {blocks : τ → ℕ → Option ℕ} {t u : τ} {old new : List ℕ}

/-- Blocks exchanged for the same ones. -/
theorem Heap.Exchange.refl (hnodup : new.Nodup) (hmem : ∀ p, p ∈ new ↔ p ∈ old)
    (hlive : ∀ p ∈ old, (blocks t p).isSome) : H.Exchange blocks t t old new where
  calls := Relation.ReflTransGen.refl
  live := by
    intro p
    by_cases hp : p ∈ old <;> simp [hp, hmem, hlive]
  keep := fun p m _ hm => hm
  fresh := fun p hp hout => absurd ((hmem p).mp hp) hout
  nodup := hnodup

/-- An allocation that fails changes nothing. -/
theorem Heap.Exchange.kmalloc_fail (h : H.Exchange blocks t u old new) (hH : H.Lawful blocks)
    {n : ℕ} (h0 : (H.kmalloc u n).1 = 0) :
    H.Exchange blocks t (H.kmalloc u n).2 old new := by
  have hblocks := hH.kmalloc_fail u n h0
  refine ⟨h.calls.tail (Or.inl ⟨n, rfl⟩), ?_, ?_, h.fresh, h.nodup⟩
  · rw [hblocks]
    exact h.live
  · rw [hblocks]
    exact h.keep

/-- One that succeeds takes one block more. -/
theorem Heap.Exchange.kmalloc (h : H.Exchange blocks t u old new) (hH : H.Lawful blocks)
    {n : ℕ} (h0 : (H.kmalloc u n).1 ≠ 0) :
    H.Exchange blocks t (H.kmalloc u n).2 old (new ++ [(H.kmalloc u n).1]) := by
  obtain ⟨m, -, hblocks⟩ := hH.kmalloc_blocks u n h0
  have hfresh := hH.kmalloc_fresh u n h0
  refine ⟨h.calls.tail (Or.inl ⟨n, rfl⟩), ?_, ?_, ?_, ?_⟩
  · intro p
    rw [hblocks]
    by_cases hp : p = (H.kmalloc u n).1
    · simp [hp]
    · rw [Function.update_of_ne hp, h.live]
      simp [hp]
  · intro p k hp hk
    exact hH.kmalloc_live u n (h.keep p k hp hk)
  · intro p hp hout
    rw [List.mem_append, List.mem_singleton] at hp
    obtain hp | rfl := hp
    · exact h.fresh p hp hout
    · by_contra hlive
      obtain ⟨k, hk⟩ := Option.ne_none_iff_exists'.mp hlive
      rw [h.keep _ k hout hk] at hfresh
      exact absurd hfresh (Option.some_ne_none k)
  · -- what was taken before is live, the new block was not
    refine h.nodup.append (List.nodup_singleton _) ?_
    intro p hp hpn
    have hlive := (h.live p).mpr (Or.inr hp)
    rw [List.mem_singleton.mp hpn, hfresh] at hlive
    exact Bool.noConfusion hlive

/-- A block taken can be given back. -/
theorem Heap.Exchange.kfree (h : H.Exchange blocks t u old new) (hH : H.Lawful blocks) {p : ℕ}
    (hp : p ∈ new) : H.Exchange blocks t (H.kfree u p) old (new.erase p) := by
  have hlive : (blocks u p).isSome := (h.live p).mpr (Or.inr hp)
  have hblocks := hH.kfree_blocks u p hlive
  refine ⟨h.calls.tail (Or.inr ⟨p, hlive, rfl⟩), ?_, ?_, ?_, h.nodup.erase p⟩
  · intro q
    rw [hblocks, h.nodup.mem_erase_iff]
    by_cases hq : q = p
    · rw [hq, Function.update_self]
      have hfresh := h.fresh p hp
      simp only [Option.isSome_none, Bool.false_eq_true, ne_eq, not_true_eq_false, false_and,
        or_false, false_iff, not_and, not_not]
      intro hlive
      by_contra hout
      rw [hfresh hout] at hlive
      exact Bool.noConfusion hlive
    · rw [Function.update_of_ne hq, h.live]
      simp [hq]
  · intro q m hq hm
    rw [hblocks, Function.update_of_ne, h.keep q m hq hm]
    rintro rfl
    rw [h.fresh q hp hq] at hm
    exact absurd hm.symm (Option.some_ne_none m)
  · intro q hq hout
    exact h.fresh q (List.mem_of_mem_erase hq) hout

/-- So can all of them, one after the other. -/
theorem Heap.Exchange.kfree_all (h : H.Exchange blocks t u old new) (hH : H.Lawful blocks) :
    H.Exchange blocks t (new.foldl H.kfree u) old [] := by
  induction new generalizing u with
  | nil => exact h
  | cons p new ih =>
    have hfree := h.kfree hH List.mem_cons_self
    rw [List.erase_cons_head] at hfree
    exact ih hfree

end

/-! ## The log -/

inductive HeapEvent where
  | alloc (p : ℕ)
  | free (p : ℕ)

/-- The same heap with a log of the blocks it gave out and took back, latest first. -/
def Heap.logged (H : Heap τ) : Heap (τ × List HeapEvent) where
  kmalloc t n :=
    ((H.kmalloc t.1 n).1, (H.kmalloc t.1 n).2,
      if (H.kmalloc t.1 n).1 = 0 then t.2 else .alloc (H.kmalloc t.1 n).1 :: t.2)
  kfree t p := (H.kfree t.1 p, .free p :: t.2)

/-- The blocks that were allocated and not freed since. -/
def held : List HeapEvent → List ℕ
  | [] => []
  | .alloc p :: log => p :: held log
  | .free p :: log => (held log).filter (· ≠ p)

/-- Every block freed was held at that time. -/
def FreesHeld : List HeapEvent → Prop
  | [] => True
  | .alloc _ :: log => FreesHeld log
  | .free p :: log => p ∈ held log ∧ FreesHeld log

/-- The live blocks among those held. -/
def heldBlocks (blocks : τ → ℕ → Option ℕ) (t : τ × List HeapEvent) (p : ℕ) : Option ℕ :=
  if p ∈ held t.2 then blocks t.1 p else none

section

variable {H : Heap τ} {blocks : τ → ℕ → Option ℕ} {t u : τ × List HeapEvent} {p : ℕ}

theorem heldBlocks_eq_some_iff {m : ℕ} :
    heldBlocks blocks t p = some m ↔ p ∈ held t.2 ∧ blocks t.1 p = some m := by
  unfold heldBlocks
  split_ifs with hp <;> simp [hp]

theorem logged_of_fail {n : ℕ} (h0 : (H.kmalloc t.1 n).1 = 0) :
    (H.logged.kmalloc t n).2 = ((H.kmalloc t.1 n).2, t.2) := Prod.ext rfl (if_pos h0)

theorem logged_of_success {n : ℕ} (h0 : (H.kmalloc t.1 n).1 ≠ 0) :
    (H.logged.kmalloc t n).2 = ((H.kmalloc t.1 n).2, .alloc (H.kmalloc t.1 n).1 :: t.2) :=
  Prod.ext rfl (if_neg h0)

/-- A client that looks only at what it holds sees a heap too. -/
theorem Heap.Lawful.held (h : H.Lawful blocks) : H.logged.Lawful (heldBlocks blocks) where
  kmalloc_fail t n h0 := by
    funext p
    rw [logged_of_fail h0, heldBlocks, h.kmalloc_fail t.1 n h0]
    rfl
  kmalloc_fresh t n h0 := by
    show (if _ then blocks t.1 (H.kmalloc t.1 n).1 else none) = none
    rw [h.kmalloc_fresh t.1 n h0, ite_self]
  kmalloc_blocks t n h0 := by
    obtain ⟨m, hm, hblocks⟩ := h.kmalloc_blocks t.1 n h0
    refine ⟨m, hm, ?_⟩
    funext p
    rw [logged_of_success h0, heldBlocks, hblocks]
    show (if p ∈ (H.kmalloc t.1 n).1 :: NexusKernel.held t.2 then
      Function.update (blocks t.1) (H.kmalloc t.1 n).1 (some m) p else none) =
        Function.update (heldBlocks blocks t) (H.kmalloc t.1 n).1 (some m) p
    by_cases hp : p = (H.kmalloc t.1 n).1
    · simp [hp]
    · simp [hp, heldBlocks]
  kfree_blocks t p hp := by
    obtain ⟨m, hm⟩ := Option.isSome_iff_exists.mp hp
    obtain ⟨-, hm⟩ := heldBlocks_eq_some_iff.mp hm
    funext q
    show (if q ∈ (NexusKernel.held t.2).filter (· ≠ p) then blocks (H.kfree t.1 p) q else none) = _
    rw [h.kfree_blocks t.1 p (hm ▸ rfl)]
    by_cases hq : q = p
    · simp [hq]
    · simp [hq, heldBlocks]
  disjoint t p q m n hp hq hne :=
    h.disjoint t.1 p q m n (heldBlocks_eq_some_iff.mp hp).2 (heldBlocks_eq_some_iff.mp hq).2 hne

/-- A log of a client that frees only what it holds. -/
structure LogOk (blocks : τ → ℕ → Option ℕ) (t : τ × List HeapEvent) : Prop where
  nodup : (held t.2).Nodup
  frees : FreesHeld t.2
  live : ∀ p ∈ held t.2, (blocks t.1 p).isSome

theorem LogOk.isSome_iff (h : LogOk blocks t) : (heldBlocks blocks t p).isSome ↔ p ∈ held t.2 := by
  unfold heldBlocks
  split_ifs with hp <;> simp [hp, h.live]

theorem logOk_call (hH : H.Lawful blocks) (ht : LogOk blocks t)
    (hcall : H.logged.Call (heldBlocks blocks) t u) : LogOk blocks u := by
  obtain ⟨n, rfl⟩ | ⟨p, hp, rfl⟩ := hcall
  · by_cases h0 : (H.kmalloc t.1 n).1 = 0
    · rw [logged_of_fail h0]
      refine ⟨ht.nodup, ht.frees, ?_⟩
      intro p hp
      rw [hH.kmalloc_fail t.1 n h0]
      exact ht.live p hp
    · rw [logged_of_success h0]
      obtain ⟨m, -, hblocks⟩ := hH.kmalloc_blocks t.1 n h0
      have hfresh := hH.kmalloc_fresh t.1 n h0
      refine ⟨List.nodup_cons.mpr ⟨?_, ht.nodup⟩, ht.frees, ?_⟩
      · intro hmem
        have hlive := ht.live _ hmem
        rw [hfresh] at hlive
        exact Bool.noConfusion hlive
      · intro p hp
        rw [hblocks]
        obtain rfl | hp := List.mem_cons.mp hp
        · rw [Function.update_self]
          rfl
        · obtain ⟨k, hk⟩ := Option.isSome_iff_exists.mp (ht.live p hp)
          rw [Function.update_of_ne (hH.kmalloc_ne h0 hk).symm, hk]
          rfl
  · obtain ⟨m, hm⟩ := Option.isSome_iff_exists.mp hp
    obtain ⟨hheld, hm⟩ := heldBlocks_eq_some_iff.mp hm
    refine ⟨ht.nodup.filter _, ⟨hheld, ht.frees⟩, ?_⟩
    intro q hq
    obtain ⟨hq, hqp⟩ := List.mem_filter.mp hq
    show (blocks (H.kfree t.1 p) q).isSome
    rw [hH.kfree_blocks t.1 p (hm ▸ rfl), Function.update_of_ne (of_decide_eq_true hqp)]
    exact ht.live q hq

theorem logOk_calls (hH : H.Lawful blocks) (ht : LogOk blocks t)
    (hcalls : H.logged.Calls (heldBlocks blocks) t u) : LogOk blocks u := by
  induction hcalls with
  | refl => exact ht
  | tail _ hcall ih => exact logOk_call hH ih hcall

end

/-! ## Blocks in fixed places -/

/-- A heap that gives out the places `1, 2, …` of 128 KiB each, in this order. The
    state is the last place given out and the places taken back. -/
def slotHeap : Heap (ℕ × List ℕ) where
  kmalloc t n :=
    if 0 < n ∧ n ≤ 0x20000 then
      ((t.1 + 1) * 0x20000, t.1 + 1, t.2.filter (· ≠ (t.1 + 1) * 0x20000))
    else (0, t)
  kfree t p := (t.1, p :: t.2)

def slotBlocks (t : ℕ × List ℕ) (p : ℕ) : Option ℕ :=
  if p % 0x20000 = 0 ∧ 0 < p ∧ p ≤ t.1 * 0x20000 ∧ p ∉ t.2 then some 0x20000 else none

section

variable {n : ℕ} (t : ℕ × List ℕ)

theorem slotHeap_kmalloc (h : 0 < n ∧ n ≤ 0x20000) : slotHeap.kmalloc t n =
    ((t.1 + 1) * 0x20000, t.1 + 1, t.2.filter (· ≠ (t.1 + 1) * 0x20000)) := if_pos h

theorem slotHeap_kmalloc_fail (h : ¬ (0 < n ∧ n ≤ 0x20000)) : slotHeap.kmalloc t n = (0, t) :=
  if_neg h

theorem slotHeap_kmalloc_ne_zero_iff :
    (slotHeap.kmalloc t n).1 ≠ 0 ↔ 0 < n ∧ n ≤ 0x20000 := by
  by_cases h : 0 < n ∧ n ≤ 0x20000
  · rw [slotHeap_kmalloc t h]
    exact iff_of_true (by positivity) h
  · rw [slotHeap_kmalloc_fail t h]
    exact iff_of_false (fun hne => hne rfl) h

end

theorem lawful_slotHeap : slotHeap.Lawful slotBlocks where
  kmalloc_fail t n h := by
    have hn := mt (slotHeap_kmalloc_ne_zero_iff t).mpr (not_not.mpr h)
    rw [slotHeap_kmalloc_fail t hn]
  kmalloc_fresh t n h := by
    rw [slotHeap_kmalloc t ((slotHeap_kmalloc_ne_zero_iff t).mp h), slotBlocks, if_neg]
    rintro ⟨-, -, hle, -⟩
    omega
  kmalloc_blocks t n h := by
    have hn := (slotHeap_kmalloc_ne_zero_iff t).mp h
    rw [slotHeap_kmalloc t hn]
    refine ⟨0x20000, hn.2, ?_⟩
    funext q
    by_cases hq : q = (t.1 + 1) * 0x20000
    · subst hq
      rw [Function.update_self, slotBlocks, if_pos]
      exact ⟨Nat.mul_mod_left _ _, by positivity, le_rfl, by simp⟩
    · rw [Function.update_of_ne hq]
      have hmem : q ∉ t.2.filter (· ≠ (t.1 + 1) * 0x20000) ↔ q ∉ t.2 := by simp [hq]
      have hle : q % 0x20000 = 0 → (q ≤ (t.1 + 1) * 0x20000 ↔ q ≤ t.1 * 0x20000) := by
        intro hmod
        omega
      unfold slotBlocks
      refine if_congr ?_ rfl rfl
      rw [hmem]
      constructor
      · rintro ⟨h1, h2, h3, h4⟩
        exact ⟨h1, h2, (hle h1).mp h3, h4⟩
      · rintro ⟨h1, h2, h3, h4⟩
        exact ⟨h1, h2, (hle h1).mpr h3, h4⟩
  kfree_blocks t p _ := by
    funext q
    by_cases hq : q = p
    · subst hq
      rw [Function.update_self, slotBlocks, if_neg]
      exact fun hlive => hlive.2.2.2 List.mem_cons_self
    · have hmem : q ∉ p :: t.2 ↔ q ∉ t.2 := by simp [hq]
      rw [Function.update_of_ne hq, slotBlocks, slotBlocks]
      exact if_congr (by rw [← hmem]; rfl) rfl rfl
  disjoint t p q m n hp hq hne := by
    unfold slotBlocks at hp hq
    split_ifs at hp hq with h1 h2
    · obtain rfl := Option.some_inj.mp hp
      obtain rfl := Option.some_inj.mp hq
      omega

end NexusKernel
