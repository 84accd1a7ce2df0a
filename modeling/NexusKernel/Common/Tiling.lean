import Mathlib

/-!
# Tilings of an interval by blocks with headers

The mathematics of a boundary-tag heap, independent of how it is stored. A heap
is a list of cells laid end to end from an address `a`; each cell takes `H`
header bytes and its payload.

* `placed H a cs` gives every cell its address; cells at different places do not
  overlap (`placed_disjoint`).
* `Canonical cs`: no two adjacent cells are free. A canonical tiling is
  determined by its used cells (`canonical_unique`).
* `carve` takes a free cell for an allocation, `release` gives a used one back and
  merges it with its free neighbours; both keep the span and `Canonical`, and
  change the used cells by exactly the cell concerned (`used_carve_iff`,
  `used_release_iff`).
-/

namespace NexusKernel.Tiling

/-- A block: the size of its payload and whether it is free. -/
structure Cell where
  size : ℕ
  free : Bool
  deriving DecidableEq, Repr

/-- The number of bytes that the cells take, headers of `H` bytes included. -/
def span (H : ℕ) : List Cell → ℕ
  | [] => 0
  | c :: cs => H + c.size + span H cs

/-- The cells with their addresses, the first one at `a`. -/
def placed (H : ℕ) : ℕ → List Cell → List (ℕ × Cell)
  | _, [] => []
  | a, c :: cs => (a, c) :: placed H (a + H + c.size) cs

/-- A used cell of payload size `n` at address `x`. -/
def Used (H a : ℕ) (cs : List Cell) (x n : ℕ) : Prop := (x, ⟨n, false⟩) ∈ placed H a cs

/-- No two adjacent cells are free. -/
def Canonical (cs : List Cell) : Prop := cs.IsChain fun c d => ¬(c.free = true ∧ d.free = true)

variable {H a : ℕ}

@[simp] theorem span_append (cs ds : List Cell) : span H (cs ++ ds) = span H cs + span H ds := by
  induction cs with
  | nil => simp [span]
  | cons c cs ih => simp only [List.cons_append, span, ih]; omega

theorem placed_append (cs ds : List Cell) :
    placed H a (cs ++ ds) = placed H a cs ++ placed H (a + span H cs) ds := by
  induction cs generalizing a with
  | nil => simp [placed, span]
  | cons c cs ih =>
    simp only [List.cons_append, placed, span, ih]
    rw [show a + H + c.size + span H cs = a + (H + c.size + span H cs) by omega]

theorem placed_bounds {cs : List Cell} {x : ℕ} {c : Cell} (h : (x, c) ∈ placed H a cs) :
    a ≤ x ∧ x + H + c.size ≤ a + span H cs := by
  induction cs generalizing a with
  | nil => simp [placed] at h
  | cons d cs ih =>
    simp only [placed, List.mem_cons, Prod.mk.injEq] at h
    simp only [span]
    rcases h with ⟨rfl, rfl⟩ | h
    · omega
    · have := ih h
      omega

/-- Two placed cells are the same or do not overlap. -/
theorem placed_disjoint {cs : List Cell} {x y : ℕ} {c d : Cell} (hx : (x, c) ∈ placed H a cs)
    (hy : (y, d) ∈ placed H a cs) :
    (x = y ∧ c = d) ∨ x + H + c.size ≤ y ∨ y + H + d.size ≤ x := by
  induction cs generalizing a with
  | nil => simp [placed] at hx
  | cons e cs ih =>
    simp only [placed, List.mem_cons, Prod.mk.injEq] at hx hy
    rcases hx with ⟨rfl, rfl⟩ | hx <;> rcases hy with ⟨rfl, rfl⟩ | hy
    · exact Or.inl ⟨rfl, rfl⟩
    · exact Or.inr (Or.inl (placed_bounds hy).1)
    · exact Or.inr (Or.inr (placed_bounds hx).1)
    · exact ih hx hy

/-- A placed cell splits the list around it. -/
theorem exists_split_of_mem_placed {cs : List Cell} {x : ℕ} {c : Cell}
    (h : (x, c) ∈ placed H a cs) :
    ∃ pre post, cs = pre ++ c :: post ∧ x = a + span H pre := by
  induction cs generalizing a with
  | nil => simp [placed] at h
  | cons d cs ih =>
    simp only [placed, List.mem_cons, Prod.mk.injEq] at h
    rcases h with ⟨rfl, rfl⟩ | h
    · exact ⟨[], cs, rfl, rfl⟩
    · obtain ⟨pre, post, rfl, rfl⟩ := ih h
      exact ⟨d :: pre, post, rfl, by simp only [span]; omega⟩

theorem mem_placed_split (pre post : List Cell) (c : Cell) :
    (a + span H pre, c) ∈ placed H a (pre ++ c :: post) := by
  rw [placed_append]
  exact List.mem_append_right _ List.mem_cons_self

/-! ## Used cells -/

@[simp] theorem used_nil {x n : ℕ} : ¬ Used H a [] x n := by simp [Used, placed]

theorem used_cons {c : Cell} {cs : List Cell} {x n : ℕ} :
    Used H a (c :: cs) x n ↔
      (x = a ∧ c = ⟨n, false⟩) ∨ Used H (a + H + c.size) cs x n := by
  simp only [Used, placed, List.mem_cons, Prod.mk.injEq, eq_comm]

theorem used_cons_free {c : Cell} {cs : List Cell} {x n : ℕ} (hc : c.free = true) :
    Used H a (c :: cs) x n ↔ Used H (a + H + c.size) cs x n := by
  rw [used_cons]
  constructor
  · rintro (⟨-, rfl⟩ | h)
    · cases hc
    · exact h
  · exact Or.inr

theorem used_append {cs ds : List Cell} {x n : ℕ} :
    Used H a (cs ++ ds) x n ↔ Used H a cs x n ∨ Used H (a + span H cs) ds x n := by
  simp only [Used, placed_append, List.mem_append]

theorem Used.bounds {cs : List Cell} {x n : ℕ} (h : Used H a cs x n) :
    a ≤ x ∧ x + H + n ≤ a + span H cs := placed_bounds h

theorem Used.size_unique (hH : 0 < H) {cs : List Cell} {x n k : ℕ} (h : Used H a cs x n)
    (h' : Used H a cs x k) : n = k := by
  rcases placed_disjoint h h' with ⟨-, he⟩ | hd | hd
  · exact congrArg Cell.size he
  · omega
  · omega

/-! ## Canonical tilings -/

theorem span_eq_zero (hH : 0 < H) {cs : List Cell} (h : span H cs = 0) : cs = [] := by
  cases cs with
  | nil => rfl
  | cons c cs => simp only [span] at h; omega

/-- In a canonical tiling that starts with a free cell, that cell ends where the
    first used cell begins, or at the end of the tiling. -/
theorem free_head_end {c : Cell} {cs : List Cell} (hc : c.free = true)
    (hcan : Canonical (c :: cs)) :
    (cs = [] ∧ ∀ x n, ¬ Used H a (c :: cs) x n) ∨
      ∃ n, Used H a (c :: cs) (a + H + c.size) n := by
  cases cs with
  | nil => exact Or.inl ⟨rfl, fun x n => by rw [used_cons_free hc]; exact used_nil⟩
  | cons d ds =>
    have hd : d.free = false := by
      have := (List.isChain_cons_cons.mp hcan).1
      simpa [hc] using this
    refine Or.inr ⟨d.size, (used_cons_free hc).mpr (used_cons.mpr (Or.inl ⟨rfl, ?_⟩))⟩
    cases d; cases hd; rfl

/-- Two canonical tilings of one interval that both start with a free cell and
    have the same used cells start with a free cell of the same size. -/
theorem free_head_size_le {c d : Cell} {cs ds : List Cell} (hc : c.free = true)
    (hd : d.free = true) (hcan : Canonical (c :: cs))
    (hspan : span H (c :: cs) = span H (d :: ds))
    (hused : ∀ x n, Used H a (c :: cs) x n ↔ Used H a (d :: ds) x n) : d.size ≤ c.size := by
  rcases free_head_end (a := a) (H := H) hc hcan with ⟨rfl, -⟩ | ⟨n, hn⟩
  · simp only [span] at hspan
    omega
  · have := ((used_cons_free hd).mp ((hused _ _).mp hn)).bounds
    omega

/-- A canonical tiling is determined by its used cells. -/
theorem canonical_unique (hH : 0 < H) {cs ds : List Cell} (hc : Canonical cs) (hd : Canonical ds)
    (hspan : span H cs = span H ds) (hused : ∀ x n, Used H a cs x n ↔ Used H a ds x n) :
    cs = ds := by
  induction cs generalizing a ds with
  | nil => exact (span_eq_zero hH hspan.symm).symm
  | cons c cs ih =>
    cases ds with
    | nil => exact span_eq_zero hH hspan
    | cons d ds =>
      -- the first cells are equal: used cells are seen at `a`, free ones have one size
      have hcd : c = d := by
        by_cases hcf : c.free = true
        · by_cases hdf : d.free = true
          · have h1 := free_head_size_le hcf hdf hc hspan hused
            have h2 := free_head_size_le hdf hcf hd hspan.symm fun x n => (hused x n).symm
            cases c; cases d; cases hcf; cases hdf
            simp only [Cell.mk.injEq, and_true]
            exact le_antisymm h2 h1
          · have h := (hused a d.size).mpr (used_cons.mpr (Or.inl ⟨rfl, by
              cases d; simpa using hdf⟩))
            have := ((used_cons_free hcf).mp h).bounds
            omega
        · have h := (hused a c.size).mp (used_cons.mpr (Or.inl ⟨rfl, by
            cases c; simpa using hcf⟩))
          rcases used_cons.mp h with ⟨-, h⟩ | h
          · rw [h]; cases c; simpa using hcf
          · have := h.bounds
            omega
      subst hcd
      congr 1
      refine ih (a := a + H + c.size) (List.isChain_cons.mp hc).2 (List.isChain_cons.mp hd).2
        (by simp only [span] at hspan; omega) fun x n => ?_
      have hxn := hused x n
      rw [used_cons, used_cons] at hxn
      constructor
      · intro h
        rcases hxn.mp (Or.inr h) with ⟨rfl, -⟩ | h'
        · have := h.bounds; omega
        · exact h'
      · intro h
        rcases hxn.mpr (Or.inr h) with ⟨rfl, -⟩ | h'
        · have := h.bounds; omega
        · exact h'

/-! ## Allocation -/

/-- The cells that replace a free cell `c` when `n` bytes of it are taken: the rest
    becomes a free cell if it can hold a header and `M` bytes. -/
def carve (H M n : ℕ) (c : Cell) : List Cell :=
  if n + H + M ≤ c.size then [⟨n, false⟩, ⟨c.size - n - H, true⟩] else [⟨c.size, false⟩]

/-- The size of the used cell that `carve` makes. -/
def carvedSize (H M n : ℕ) (c : Cell) : ℕ := if n + H + M ≤ c.size then n else c.size

theorem span_carve {M n : ℕ} {c : Cell} : span H (carve H M n c) = H + c.size := by
  unfold carve
  split_ifs <;> simp only [span] <;> omega

theorem used_carve {M n : ℕ} {c : Cell} {x k : ℕ} :
    Used H a (carve H M n c) x k ↔ x = a ∧ k = carvedSize H M n c := by
  unfold carve carvedSize
  split_ifs <;> simp [used_cons, eq_comm]

/-- Carving keeps a property of sizes that holds of the request and of the rest. -/
theorem forall_size_carve {p : ℕ → Prop} {M n : ℕ} {c : Cell} {pre post : List Cell}
    (h : ∀ d ∈ pre ++ c :: post, p d.size) (hn : p n) (hrest : p (c.size - n - H)) :
    ∀ d ∈ pre ++ (carve H M n c ++ post), p d.size := by
  intro d hd
  rcases List.mem_append.mp hd with hd | hd
  · exact h d (List.mem_append_left _ hd)
  · rcases List.mem_append.mp hd with hd | hd
    · have hc : p c.size := h c (by simp)
      unfold carve at hd
      split_ifs at hd
      · simp only [List.mem_cons, List.not_mem_nil, or_false] at hd
        rcases hd with rfl | rfl
        · exact hn
        · exact hrest
      · rw [List.mem_singleton] at hd
        rw [hd]; exact hc
    · exact h d (by simp [hd])

theorem used_carve_iff {M n : ℕ} {c : Cell} {pre post : List Cell} (hc : c.free = true) {x k : ℕ} :
    Used H a (pre ++ (carve H M n c ++ post)) x k ↔
      Used H a (pre ++ c :: post) x k ∨ (x = a + span H pre ∧ k = carvedSize H M n c) := by
  rw [used_append, used_append, used_append, used_carve, used_cons_free hc, span_carve,
    ← Nat.add_assoc]
  tauto

theorem canonical_carve {M n : ℕ} {c : Cell} {pre post : List Cell} (hc : c.free = true)
    (h : Canonical (pre ++ c :: post)) : Canonical (pre ++ (carve H M n c ++ post)) := by
  obtain ⟨hpre, hpost, hjoin⟩ := List.isChain_append.mp h
  obtain ⟨hnext, hpost⟩ := List.isChain_cons.mp hpost
  refine List.isChain_append.mpr ⟨hpre, ?_, ?_⟩
  · unfold carve
    split_ifs
    · refine List.isChain_cons.mpr ⟨by simp, List.isChain_cons.mpr ⟨fun y hy => ?_, hpost⟩⟩
      have := hnext y hy
      simpa [hc] using this
    · exact List.isChain_cons.mpr ⟨by simp, hpost⟩
  · intro x _ y hy
    have : y.free = false := by
      unfold carve at hy
      split_ifs at hy <;> simp at hy <;> rw [← hy]
    simp [this]

/-! ## Release -/

/-- Free `c` and merge it with the next cell if that one is free; the cells after
    the result come second. -/
def forward (H : ℕ) (c : Cell) : List Cell → Cell × List Cell
  | [] => (⟨c.size, true⟩, [])
  | d :: ds => if d.free then (⟨c.size + (H + d.size), true⟩, ds) else (⟨c.size, true⟩, d :: ds)

/-- Merge the free cell `c` with the last cell before it if that one is free. -/
def backward (H : ℕ) (pre : List Cell) (c : Cell) (post : List Cell) : List Cell :=
  match pre.getLast? with
  | none => c :: post
  | some e =>
    if e.free then pre.dropLast ++ ⟨e.size + (H + c.size), true⟩ :: post else pre ++ c :: post

/-- The tiling after the cell `c` between `pre` and `post` is given back. -/
def release (H : ℕ) (pre : List Cell) (c : Cell) (post : List Cell) : List Cell :=
  backward H pre (forward H c post).1 (forward H c post).2

theorem forward_cons (c d : Cell) (ds : List Cell) :
    forward H c (d :: ds) =
      if d.free then (⟨c.size + (H + d.size), true⟩, ds) else (⟨c.size, true⟩, d :: ds) := rfl

theorem forward_free (c : Cell) (post : List Cell) : (forward H c post).1.free = true := by
  cases post with
  | nil => rfl
  | cons d ds => rw [forward_cons]; split_ifs <;> rfl

theorem span_forward (c : Cell) (post : List Cell) :
    span H ((forward H c post).1 :: (forward H c post).2) = span H (c :: post) := by
  cases post with
  | nil => rfl
  | cons d ds =>
    rw [forward_cons]
    split_ifs
    · simp only [span]; omega
    · rfl

theorem backward_concat (pre : List Cell) (e c : Cell) (post : List Cell) :
    backward H (pre ++ [e]) c post =
      if e.free then pre ++ ⟨e.size + (H + c.size), true⟩ :: post
      else pre ++ [e] ++ c :: post := by
  simp [backward]

theorem span_backward (pre : List Cell) (c : Cell) (post : List Cell) :
    span H (backward H pre c post) = span H (pre ++ c :: post) := by
  rcases List.eq_nil_or_concat pre with rfl | ⟨pre, e, rfl⟩
  · rfl
  · rw [List.concat_eq_append, backward_concat]
    split_ifs
    · simp only [span_append, span]; omega
    · rfl

theorem span_release (pre : List Cell) (c : Cell) (post : List Cell) :
    span H (release H pre c post) = span H (pre ++ c :: post) := by
  unfold release
  rw [span_backward, span_append, span_forward, ← span_append]

theorem used_forward {c : Cell} {post : List Cell} {x n : ℕ} :
    Used H a ((forward H c post).1 :: (forward H c post).2) x n ↔
      Used H (a + H + c.size) post x n := by
  rw [used_cons_free (forward_free c post)]
  cases post with
  | nil => rfl
  | cons d ds =>
    rw [forward_cons]
    split_ifs with hd
    · rw [used_cons_free hd, show a + H + (c.size + (H + d.size)) = a + H + c.size + H + d.size by
        omega]
    · rfl

theorem used_backward {pre : List Cell} {c : Cell} {post : List Cell} (hc : c.free = true)
    {x n : ℕ} : Used H a (backward H pre c post) x n ↔ Used H a (pre ++ c :: post) x n := by
  rcases List.eq_nil_or_concat pre with rfl | ⟨pre, e, rfl⟩
  · rfl
  · rw [List.concat_eq_append, backward_concat]
    split_ifs with he
    · rw [List.append_assoc, used_append, used_append, List.singleton_append, used_cons_free he,
        used_cons_free hc, used_cons_free rfl,
        show a + span H pre + H + (e.size + (H + c.size)) =
          a + span H pre + H + e.size + H + c.size by omega]
    · rfl

/-- `release` takes exactly the released cell out of the used cells. -/
theorem used_release_iff {pre : List Cell} {c : Cell} {post : List Cell} {x n : ℕ} (hH : 0 < H) :
    Used H a (release H pre c post) x n ↔
      Used H a (pre ++ c :: post) x n ∧ x ≠ a + span H pre := by
  unfold release
  rw [used_backward (forward_free c post), used_append, used_forward, used_append, used_cons]
  constructor
  · rintro (h | h)
    · exact ⟨Or.inl h, by have := h.bounds; omega⟩
    · exact ⟨Or.inr (Or.inr h), by have := h.bounds; omega⟩
  · rintro ⟨h | ⟨rfl, -⟩ | h, hne⟩
    · exact Or.inl h
    · exact absurd rfl hne
    · exact Or.inr h

theorem canonical_forward {c : Cell} {post : List Cell} (h : Canonical post) :
    Canonical ((forward H c post).1 :: (forward H c post).2) := by
  cases post with
  | nil => exact List.isChain_singleton _
  | cons d ds =>
    rw [forward_cons]
    split_ifs with hd
    · obtain ⟨hnext, hds⟩ := List.isChain_cons.mp h
      refine List.isChain_cons.mpr ⟨fun y hy => ?_, hds⟩
      have := hnext y hy
      simpa [hd] using this
    · exact List.isChain_cons_cons.mpr ⟨by simp [hd], h⟩

theorem canonical_backward {pre : List Cell} {c : Cell} {post : List Cell} (hc : c.free = true)
    (hpre : Canonical pre) (hpost : Canonical (c :: post)) :
    Canonical (backward H pre c post) := by
  rcases List.eq_nil_or_concat pre with rfl | ⟨pre, e, rfl⟩
  · exact hpost
  · rw [List.concat_eq_append] at hpre ⊢
    rw [backward_concat]
    obtain ⟨hp, -, hjoin⟩ := List.isChain_append.mp hpre
    obtain ⟨hnext, hpost'⟩ := List.isChain_cons.mp hpost
    split_ifs with he
    · -- the merged cell stands where `e` stood: its neighbours were next to a free cell
      refine List.isChain_append.mpr ⟨hp, List.isChain_cons.mpr ⟨fun y hy => ?_, hpost'⟩, ?_⟩
      · have := hnext y hy
        simpa [hc] using this
      · intro x hx y hy
        have := hjoin x hx e (by simp)
        simp only [List.head?_cons, Option.mem_some] at hy
        subst hy
        simpa [he] using this
    · refine List.isChain_append.mpr ⟨hpre, hpost, fun x hx y _ => ?_⟩
      simp only [List.getLast?_append, List.getLast?_singleton, Option.some_or,
        Option.mem_some] at hx
      subst hx
      simp [he]

theorem canonical_release {pre : List Cell} {c : Cell} {post : List Cell}
    (h : Canonical (pre ++ c :: post)) : Canonical (release H pre c post) := by
  obtain ⟨hpre, hpost, -⟩ := List.isChain_append.mp h
  exact canonical_backward (forward_free c post) hpre
    (canonical_forward (List.isChain_cons.mp hpost).2)

/-- A property of sizes closed under adding a header keeps holding after a release. -/
theorem forall_size_release {p : ℕ → Prop} (hp : ∀ m n, p m → p n → p (m + (H + n)))
    {pre : List Cell} {c : Cell} {post : List Cell} (h : ∀ d ∈ pre ++ c :: post, p d.size) :
    ∀ d ∈ release H pre c post, p d.size := by
  have hpre : ∀ d ∈ pre, p d.size := fun d hd => h d (List.mem_append_left _ hd)
  have hc : p c.size := h c (by simp)
  have hpost : ∀ d ∈ post, p d.size := fun d hd => h d (by simp [hd])
  have hfwd : p (forward H c post).1.size ∧ ∀ d ∈ (forward H c post).2, p d.size := by
    cases post with
    | nil => exact ⟨hc, by simp [forward]⟩
    | cons d ds =>
      rw [forward_cons]
      split_ifs
      · exact ⟨hp _ _ hc (hpost d List.mem_cons_self),
          fun x hx => hpost x (List.mem_cons_of_mem _ hx)⟩
      · exact ⟨hc, hpost⟩
  unfold release
  rcases List.eq_nil_or_concat pre with rfl | ⟨pre, e, rfl⟩
  · intro d hd
    rcases List.mem_cons.mp hd with rfl | hd
    · exact hfwd.1
    · exact hfwd.2 d hd
  · rw [List.concat_eq_append] at hpre ⊢
    rw [backward_concat]
    intro d hd
    split_ifs at hd
    · rcases List.mem_append.mp hd with hd | hd
      · exact hpre d (List.mem_append_left _ hd)
      · rcases List.mem_cons.mp hd with rfl | hd
        · exact hp _ _ (hpre e (by simp)) hfwd.1
        · exact hfwd.2 d hd
    · rcases List.mem_append.mp hd with hd | hd
      · exact hpre d hd
      · rcases List.mem_cons.mp hd with rfl | hd
        · exact hfwd.1
        · exact hfwd.2 d hd

end NexusKernel.Tiling
