import Mathlib

/-!
# Singly linked lists

Nodes are addresses, 0 is the null pointer, and `next a` is the pointer stored in
node `a`. `Links next h l e` says that from `h` the pointers lead through the nodes
`l`, in this order, to `e`; a whole list ends at 0.

* `links_append`: a list splits wherever its node list does.
* `Links.congr`: only the pointers of the nodes on the list matter.
* `links_snoc`, `links_cons_update`, `links_remove`: adding a node at either end
  and taking one out, as updates of single pointers.
* `OnChain`: the nodes met from a start, also where the pointers lead round in a circle.
* `search_of_split`, `search_of_none`, `search_snd`: what the search loop returns.
-/

namespace NexusKernel

/-- From `h` the pointers lead through `l` to `e`. -/
def Links (next : ℕ → ℕ) : ℕ → List ℕ → ℕ → Prop
  | h, [], e => h = e
  | h, a :: l, e => h = a ∧ a ≠ 0 ∧ Links next (next a) l e

variable {next : ℕ → ℕ} {h e : ℕ} {l l' : List ℕ}

theorem links_cons {a : ℕ} : Links next h (a :: l) e ↔ h = a ∧ a ≠ 0 ∧ Links next (next a) l e :=
  Iff.rfl

theorem links_append :
    Links next h (l ++ l') e ↔ ∃ m, Links next h l m ∧ Links next m l' e := by
  induction l generalizing h with
  | nil => simp [Links]
  | cons a l ih =>
    rw [List.cons_append, links_cons, ih]
    constructor
    · rintro ⟨rfl, h0, m, hl, hl'⟩
      exact ⟨m, ⟨rfl, h0, hl⟩, hl'⟩
    · rintro ⟨m, ⟨rfl, h0, hl⟩, hl'⟩
      exact ⟨rfl, h0, m, hl, hl'⟩

theorem Links.congr {next' : ℕ → ℕ} (hl : Links next h l e) (heq : ∀ a ∈ l, next' a = next a) :
    Links next' h l e := by
  induction l generalizing h with
  | nil => exact hl
  | cons a l ih =>
    rw [List.forall_mem_cons] at heq
    obtain ⟨rfl, h0, hl⟩ := hl
    exact ⟨rfl, h0, ih (heq.1 ▸ hl) heq.2⟩

/-- A pointer of a node off the list can change. -/
theorem Links.update {a v : ℕ} (hl : Links next h l e) (ha : a ∉ l) :
    Links (Function.update next a v) h l e := by
  apply hl.congr
  intro b hb
  exact Function.update_of_ne (by rintro rfl; exact ha hb) _ _

/-- A null pointer starts the empty list and no other. -/
theorem Links.eq_nil_iff (hl : Links next h l 0) : l = [] ↔ h = 0 := by
  cases l with
  | nil => exact iff_of_true rfl hl
  | cons a l =>
    obtain ⟨rfl, h0, -⟩ := hl
    exact iff_of_false (List.cons_ne_nil _ _) h0

theorem Links.ne_zero (hl : Links next h l e) : ∀ a ∈ l, a ≠ 0 := by
  induction l generalizing h with
  | nil => exact fun a ha => absurd ha List.not_mem_nil
  | cons a l ih =>
    obtain ⟨rfl, h0, hl⟩ := hl
    exact List.forall_mem_cons.mpr ⟨h0, ih hl⟩

/-- The nodes of a list are determined by its start. -/
theorem Links.unique (hl : Links next h l 0) (hl' : Links next h l' 0) : l = l' := by
  induction l generalizing h l' with
  | nil =>
    obtain rfl : h = 0 := hl
    exact (hl'.eq_nil_iff.mpr rfl).symm
  | cons a l ih =>
    obtain ⟨rfl, h0, hl⟩ := hl
    cases l' with
    | nil => exact absurd hl' h0
    | cons b l' =>
      obtain ⟨rfl, -, hl'⟩ := hl'
      rw [ih hl hl']

/-- Redirecting the last node's pointer changes where the list ends. -/
theorem links_update_last {t v : ℕ} (hl : Links next h (l ++ [t]) e) (ht : t ∉ l) :
    Links (Function.update next t v) h (l ++ [t]) v := by
  obtain ⟨m, hinit, rfl, h0, -⟩ := links_append.mp hl
  exact links_append.mpr ⟨m, hinit.update ht, rfl, h0, Function.update_self _ _ _⟩

/-- Appending the node `x` behind the last node `t`. -/
theorem links_snoc {t x : ℕ} (hl : Links next h (l ++ [t]) 0) (ht : t ∉ l) (hx0 : x ≠ 0)
    (hx : x ∉ l ++ [t]) :
    Links (Function.update (Function.update next x 0) t x) h (l ++ [t] ++ [x]) 0 := by
  have hxt : x ≠ t := by rintro rfl; exact hx (List.mem_append_right _ List.mem_cons_self)
  refine links_append.mpr ⟨x, links_update_last (hl.update hx) ht, rfl, hx0, ?_⟩
  show Function.update (Function.update next x 0) t x x = 0
  rw [Function.update_of_ne hxt, Function.update_self]

/-- Putting the node `x` in front. -/
theorem links_cons_update {x : ℕ} (hl : Links next h l 0) (hx0 : x ≠ 0) (hx : x ∉ l) :
    Links (Function.update next x h) x (x :: l) 0 := by
  refine ⟨rfl, hx0, ?_⟩
  rw [Function.update_self]
  exact hl.update hx

/-- Taking out the node `x` behind `p`. -/
theorem links_remove {p x : ℕ} (hl : Links next h (l ++ p :: x :: l') 0) (hp : p ∉ l)
    (hp' : p ∉ l') : Links (Function.update next p (next x)) h (l ++ p :: l') 0 := by
  obtain ⟨m, hinit, rfl, h0, -, -, hrest⟩ := links_append.mp hl
  refine links_append.mpr ⟨m, hinit.update hp, rfl, h0, ?_⟩
  rw [Function.update_self]
  exact hrest.update hp'

/-! ## Nodes met on the way -/

section

variable {a : ℕ}

/-- From `h` the pointers lead to the node `a`. -/
inductive OnChain (next : ℕ → ℕ) (h : ℕ) : ℕ → Prop
  | start (h0 : h ≠ 0) : OnChain next h h
  | next {a : ℕ} (ha : OnChain next h a) (h0 : next a ≠ 0) : OnChain next h (next a)

/-- What is met from the second node is met from the first. -/
theorem OnChain.of_next (h0 : h ≠ 0) (ha : OnChain next (next h) a) : OnChain next h a := by
  induction ha with
  | start hn => exact .next (.start h0) hn
  | next _ hn ih => exact .next ih hn

/-- Only the pointers of the nodes met matter. -/
theorem OnChain.congr {next' : ℕ → ℕ} (heq : ∀ b, OnChain next h b → next' b = next b)
    (ha : OnChain next' h a) : OnChain next h a := by
  induction ha with
  | start h0 => exact .start h0
  | next _ hn ih =>
    rw [heq _ ih] at hn ⊢
    exact .next ih hn

/-- Redirecting `t` to a node `x` that ends there adds `x` at most. -/
theorem OnChain.of_append {t x : ℕ}
    (ha : OnChain (Function.update (Function.update next x 0) t x) h a) :
    OnChain next h a ∨ a = x := by
  induction ha with
  | start h0 => exact Or.inl (.start h0)
  | @next b _ hn ih =>
    by_cases hbt : b = t
    · rw [hbt, Function.update_self]
      exact Or.inr rfl
    rw [Function.update_of_ne hbt] at hn ⊢
    by_cases hbx : b = x
    · rw [hbx, Function.update_self] at hn
      exact absurd rfl hn
    · rw [Function.update_of_ne hbx] at hn ⊢
      exact Or.inl (.next (ih.resolve_right hbx) hn)

theorem Links.onChain (hl : Links next h l 0) (ha : OnChain next h a) : a ∈ l := by
  induction ha with
  | start h0 =>
    cases l with
    | nil => exact absurd hl h0
    | cons b l =>
      rw [hl.1]
      exact List.mem_cons_self
  | next _ hn ih =>
    obtain ⟨l₁, l₂, rfl⟩ := List.append_of_mem ih
    obtain ⟨m, -, rfl, -, hrest⟩ := links_append.mp hl
    cases l₂ with
    | nil => exact absurd hrest hn
    | cons c l₂ =>
      rw [hrest.1]
      exact List.mem_append_right _ (List.mem_cons_of_mem _ List.mem_cons_self)

end

/-! ## Searching -/

/-- The loop `while (a) { if (p a) break; prev = a; a = a->next; }`: the node before the
    one that is found and the one found, 0 if there is none. -/
def search (next : ℕ → ℕ) (p : ℕ → Bool) : (fuel prev a : ℕ) → Option (ℕ × ℕ)
  | 0, prev, a => if a = 0 then some (prev, 0) else none
  | fuel + 1, prev, a =>
    if a = 0 then some (prev, 0)
    else if p a then some (prev, a)
    else search next p fuel a (next a)

variable {p : ℕ → Bool} {fuel : ℕ}

/-- The loop stops at the first node that meets the condition. -/
theorem search_of_split (prev : ℕ) {c : ℕ} (hl : Links next h (l ++ c :: l') 0)
    (hfuel : (l ++ c :: l').length ≤ fuel) (hpre : ∀ a ∈ l, p a = false) (hc : p c = true) :
    search next p fuel prev h = some (l.getLast?.getD prev, c) := by
  induction l generalizing h fuel prev with
  | nil =>
    obtain ⟨rfl, h0, -⟩ := hl
    obtain ⟨fuel, rfl⟩ : ∃ n, fuel = n + 1 := ⟨fuel - 1, by simp at hfuel; omega⟩
    rw [search, if_neg h0, if_pos hc]
    rfl
  | cons a l ih =>
    obtain ⟨rfl, h0, hl⟩ := hl
    rw [List.forall_mem_cons] at hpre
    obtain ⟨fuel, rfl⟩ : ∃ n, fuel = n + 1 := ⟨fuel - 1, by simp at hfuel; omega⟩
    rw [search, if_neg h0, hpre.1, if_neg Bool.false_ne_true,
      ih _ hl (by simpa using hfuel) hpre.2, List.getLast?_cons]
    rfl

/-- Without such a node it runs to the end of the list. -/
theorem search_of_none (prev : ℕ) (hl : Links next h l 0) (hfuel : l.length ≤ fuel)
    (hnone : ∀ a ∈ l, p a = false) : ∃ q, search next p fuel prev h = some (q, 0) := by
  induction l generalizing h fuel prev with
  | nil =>
    obtain rfl : h = 0 := hl
    exact ⟨prev, by cases fuel <;> rfl⟩
  | cons a l ih =>
    obtain ⟨rfl, h0, hl⟩ := hl
    rw [List.forall_mem_cons] at hnone
    obtain ⟨fuel, rfl⟩ : ∃ n, fuel = n + 1 := ⟨fuel - 1, by simp at hfuel; omega⟩
    rw [search, if_neg h0, hnone.1, if_neg Bool.false_ne_true]
    exact ih _ hl (by simpa using hfuel) hnone.2

theorem search_snd (prev : ℕ) (hl : Links next h l 0) (hfuel : l.length ≤ fuel) :
    (search next p fuel prev h).map Prod.snd = some ((l.find? p).getD 0) := by
  cases hfind : l.find? p with
  | none =>
    rw [List.find?_eq_none] at hfind
    obtain ⟨q, hq⟩ := search_of_none prev hl hfuel fun a ha => Bool.eq_false_of_not_eq_true (hfind a ha)
    rw [hq]
    rfl
  | some c =>
    obtain ⟨hc, pre, post, rfl, hpre⟩ := List.find?_eq_some_iff_append.mp hfind
    rw [search_of_split prev hl hfuel (fun a ha => by simpa using hpre a ha) hc]
    rfl

/-- The list without one of its nodes. -/
theorem erase_middle {x : ℕ} (hnodup : (l ++ x :: l').Nodup) : (l ++ x :: l').erase x = l ++ l' := by
  have hx : x ∉ l := by
    intro hx
    exact List.disjoint_of_nodup_append hnodup hx List.mem_cons_self
  rw [List.erase_append_right _ hx, List.erase_cons_head]

end NexusKernel
