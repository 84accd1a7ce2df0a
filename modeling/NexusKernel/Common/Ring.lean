import Mathlib

/-!
# Bounded ring buffers

A buffer of `n` slots with a read index, a write index and the number of elements in
it. Full and empty buffers have equal indices; the count tells them apart. `contents` is
the queue that the buffer holds, oldest element first.

* `contents_push`, `contents_pop`: the operations add at the end and take from the front.
* `Fifo`: what went in is what came out followed by what the buffer holds, kept by both
  operations (`Fifo.push`, `Fifo.pop`).
-/

namespace NexusKernel

structure Ring (α : Type*) where
  slot : ℕ → α
  rd : ℕ
  wr : ℕ
  count : ℕ

namespace Ring

variable {α : Type*} {n : ℕ} {r : Ring α} {c : α}

/-- Both indices lie in the buffer, and the write index is `count` places ahead of the
    read index. -/
structure Valid (n : ℕ) (r : Ring α) : Prop where
  rd_lt : r.rd < n
  count_le : r.count ≤ n
  wr_eq : r.wr = (r.rd + r.count) % n

theorem Valid.wr_lt (h : r.Valid n) : r.wr < n := by
  rw [h.wr_eq]
  exact Nat.mod_lt _ (Nat.zero_lt_of_lt h.rd_lt)

/-- Store an element at the write index. -/
def push (n : ℕ) (r : Ring α) (c : α) : Ring α :=
  ⟨Function.update r.slot r.wr c, r.rd, (r.wr + 1) % n, r.count + 1⟩

/-- Drop the element at the read index. -/
def pop (n : ℕ) (r : Ring α) : Ring α := ⟨r.slot, (r.rd + 1) % n, r.wr, r.count - 1⟩

/-- The elements in the buffer, oldest first. -/
def contents (n : ℕ) (r : Ring α) : List α :=
  (List.range r.count).map fun i => r.slot ((r.rd + i) % n)

@[simp] theorem length_contents : (r.contents n).length = r.count := by
  simp [contents]

theorem Valid.push (h : r.Valid n) (hroom : r.count < n) (c : α) : (r.push n c).Valid n where
  rd_lt := h.rd_lt
  count_le := hroom
  wr_eq := by
    simp only [Ring.push]
    rw [h.wr_eq, Nat.mod_add_mod, Nat.add_assoc]

theorem Valid.pop (h : r.Valid n) (hne : 0 < r.count) : (r.pop n).Valid n where
  rd_lt := Nat.mod_lt _ (Nat.zero_lt_of_lt h.rd_lt)
  count_le := (Nat.sub_le _ _).trans h.count_le
  wr_eq := by
    simp only [Ring.pop]
    rw [h.wr_eq, Nat.mod_add_mod, Nat.add_assoc, Nat.add_sub_cancel' hne]

/-- The slots that are in use are not the one that is written. -/
theorem Valid.slot_ne (h : r.Valid n) (hroom : r.count < n) {i : ℕ} (hi : i < r.count) :
    (r.rd + i) % n ≠ r.wr := by
  rw [h.wr_eq]
  intro heq
  have hmod : i % n = r.count % n := Nat.ModEq.add_left_cancel' r.rd heq
  rw [Nat.mod_eq_of_lt (hi.trans hroom), Nat.mod_eq_of_lt hroom] at hmod
  omega

theorem contents_push (h : r.Valid n) (hroom : r.count < n) :
    (r.push n c).contents n = r.contents n ++ [c] := by
  simp only [contents, push, List.range_succ, List.map_append, List.map_cons, List.map_nil]
  congr 1
  · apply List.map_congr_left
    intro i hi
    exact Function.update_of_ne (h.slot_ne hroom (List.mem_range.mp hi)) _ _
  · rw [← h.wr_eq, Function.update_self]

theorem contents_pop (h : r.Valid n) (hne : 0 < r.count) :
    r.contents n = r.slot r.rd :: (r.pop n).contents n := by
  obtain ⟨m, hm⟩ := Nat.exists_eq_add_of_lt hne
  rw [Nat.zero_add] at hm
  simp only [contents, pop, hm, List.range_succ_eq_map, List.map_cons, List.map_map,
    Nat.add_sub_cancel, Nat.add_zero, Nat.mod_eq_of_lt h.rd_lt]
  congr 1
  apply List.map_congr_left
  intro i _
  simp only [Function.comp_apply, Nat.succ_eq_add_one, Nat.mod_add_mod]
  rw [Nat.add_assoc, Nat.add_comm 1 i]

/-! ## Histories -/

/-- The buffer with all that has gone into it and all that has come out of it, in order:
    nothing is lost, duplicated or moved ahead. -/
structure Fifo (n : ℕ) (r : Ring α) (accepted delivered : List α) : Prop where
  valid : r.Valid n
  accepted_eq : accepted = delivered ++ r.contents n

variable {accepted delivered : List α}

theorem Fifo.isPrefix (h : Fifo n r accepted delivered) : delivered <+: accepted :=
  ⟨_, h.accepted_eq.symm⟩

theorem Fifo.count_eq (h : Fifo n r accepted delivered) :
    r.count = accepted.length - delivered.length := by
  simp [h.accepted_eq]

theorem Fifo.push (h : Fifo n r accepted delivered) (hroom : r.count < n) (c : α) :
    Fifo n (r.push n c) (accepted ++ [c]) delivered where
  valid := h.valid.push hroom c
  accepted_eq := by rw [contents_push h.valid hroom, h.accepted_eq, List.append_assoc]

theorem Fifo.pop (h : Fifo n r accepted delivered) (hne : 0 < r.count) :
    Fifo n (r.pop n) accepted (delivered ++ [r.slot r.rd]) where
  valid := h.valid.pop hne
  accepted_eq := by
    rw [h.accepted_eq, contents_pop h.valid hne, List.append_assoc, List.singleton_append]

end Ring

end NexusKernel
