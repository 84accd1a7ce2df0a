import NexusKernel.Common.Run
import NexusKernel.Memory.KheapRepr

/-!
# The kernel heap over whole runs

A run is any sequence of `kmalloc` calls (any 32-bit size), `kfree` calls (of
`NULL` or of a pointer that is live) and stores of a client into the payload of a
live block, starting from `kheap_init`. The live pointers are those that a
`kmalloc` returned and no `kfree` took back since.

Results:

* `heapInv_run`: in every state reached, memory represents a canonical tiling of
  `heap_area` whose used cells are the live pointers.
* `kmalloc_returns`: the loop of `kmalloc` always ends.
* `kheap_tiles_heap_area`: the block list tiles `heap_area`, is doubly linked, and
  live pointers are its used blocks; only `kfree p` changes the block of `p`.
-/

namespace NexusKernel.Memory

open Tiling

/-! ## `kmalloc` and `kfree` on a represented tiling -/

section Functions

variable {m : Mem} {p a : ℕ} {cs : List Cell}

/-- The loop of `kmalloc` finds the first free cell that is large enough. -/
theorem kmallocLoop_eq (size fuel : ℕ) (h : Seg m p a cs 0) (hpos : 0 < a)
    (hfit : a + span 16 cs < 2 ^ 32) (hfuel : cs.length < fuel) :
    (kmallocLoop m size fuel (if cs = [] then 0 else a) = some (0, m) ∧
        ∀ c ∈ cs, ¬(c.free = true ∧ size ≤ c.size)) ∨
      ∃ pre c post, cs = pre ++ c :: post ∧ c.free = true ∧ size ≤ c.size ∧
        kmallocLoop m size fuel (if cs = [] then 0 else a) =
          some (a + span 16 pre + 16,
            setFree (splitBlock m (a + span 16 pre) size) (a + span 16 pre) false) := by
  induction cs generalizing p a fuel with
  | nil =>
    obtain ⟨fuel, rfl⟩ : ∃ k, fuel = k + 1 := ⟨fuel - 1, by simp at hfuel; omega⟩
    exact Or.inl ⟨by rw [if_pos rfl, kmallocLoop, if_pos rfl], by simp⟩
  | cons c cs ih =>
    obtain ⟨fuel, rfl⟩ : ∃ k, fuel = k + 1 := ⟨fuel - 1, by simp at hfuel; omega⟩
    obtain ⟨hh, ht⟩ := h
    simp only [span, List.length_cons] at hfit hfuel
    rw [if_neg (List.cons_ne_nil c cs), kmallocLoop, if_neg (by omega), hh.free, hh.size]
    by_cases hc : c.free = true ∧ size ≤ c.size
    · refine Or.inr ⟨[], c, cs, rfl, hc.1, hc.2, ?_⟩
      rw [if_pos ⟨by simp [hc.1], hc.2⟩]
      simp only [span, headerSize, Nat.add_zero]
      rw [u32_of_lt (by omega)]
    · rw [if_neg (by simpa using hc), hh.next]
      rcases ih fuel ht (by omega) (by omega) (by omega) with ⟨h1, h2⟩ | h1
      · refine Or.inl ⟨h1, fun d hd => ?_⟩
        rcases List.mem_cons.mp hd with rfl | hd
        · exact hc
        · exact h2 d hd
      · obtain ⟨pre, d, post, rfl, h2, h3, h4⟩ := h1
        refine Or.inr ⟨c :: pre, d, post, rfl, h2, h3, ?_⟩
        rw [h4]
        simp only [span]
        rw [show a + 16 + c.size + span 16 pre = a + (16 + c.size + span 16 pre) by omega]

/-- The list between the two halves of `coalesce_block` in `kfree`. -/
theorem coalesceNext_freed {pre : List Cell} {c : Cell} {post : List Cell}
    (h : Repr m a (pre ++ c :: post)) (hpos : 0 < a)
    (hfit : a + span 16 (pre ++ c :: post) < 2 ^ 32) :
    Seg (setFree m (a + span 16 pre) true) (lastAddr 0 a pre) (a + span 16 pre)
      (⟨c.size, true⟩ :: post) 0 ∧
    Repr (coalesceNext (setFree m (a + span 16 pre) true) (a + span 16 pre)) a
      (pre ++ (forward 16 c post).1 :: (forward 16 c post).2) := by
  obtain ⟨hpre, hh, ht⟩ := seg_append.mp h
  rw [span_append] at hfit
  have hseg : Seg (setFree m (a + span 16 pre) true) (lastAddr 0 a pre) (a + span 16 pre)
      (⟨c.size, true⟩ :: post) 0 := ⟨hh.setFree true, ht.congr (agreeOn_setFree (by omega))⟩
  obtain ⟨h2, hag⟩ := coalesceNext_seg hseg rfl (by omega) (by simp only [span] at hfit ⊢; omega)
  have hfwd : forward 16 ⟨c.size, true⟩ post = forward 16 c post := by cases post <;> rfl
  rw [hfwd] at h2
  exact ⟨hseg, seg_append.mpr ⟨(hpre.congr (agreeOn_setFree (by omega))).congr
    (hag.mono (by omega) (by omega)), h2⟩⟩

/-- `block->free = true` and `coalesce_block` release the cell at the block. -/
theorem kfree_repr {pre : List Cell} {c : Cell} {post : List Cell}
    (h : Repr m a (pre ++ c :: post)) (hpos : 0 < a)
    (hfit : a + span 16 (pre ++ c :: post) < 2 ^ 32) :
    Repr (coalesceBlock (setFree m (a + span 16 pre) true) (a + span 16 pre)) a
      (release 16 pre c post) := by
  apply coalescePrev_repr (coalesceNext_freed h hpos hfit).2 hpos
  rw [span_append, span_forward, ← span_append]
  exact hfit

theorem offHeaders_forward {a x : ℕ} {c : Cell} {post : List Cell} (h : OffHeaders a (c :: post) x) :
    OffHeaders a ((forward 16 c post).1 :: (forward 16 c post).2) x := by
  obtain ⟨hblock, hpost⟩ := offHeaders_cons.mp h
  cases post with
  | nil => exact offHeaders_cons.mpr ⟨hblock, fun y d hy => absurd hy List.not_mem_nil⟩
  | cons d ds =>
    rw [forward_cons]
    split_ifs
    · refine offHeaders_cons.mpr ⟨hblock, ?_⟩
      have hrest := (offHeaders_cons.mp hpost).2
      rwa [show a + 16 + c.size + 16 + d.size = a + 16 + (c.size + (16 + d.size)) by omega] at hrest
    · exact offHeaders_cons.mpr ⟨hblock, hpost⟩

/-- `kfree` writes into headers only. -/
theorem kfree_off {pre : List Cell} {c : Cell} {post : List Cell} {x : ℕ}
    (h : Repr m a (pre ++ c :: post)) (hpos : 0 < a)
    (hfit : a + span 16 (pre ++ c :: post) < 2 ^ 32) (hx : OffHeaders a (pre ++ c :: post) x) :
    coalesceBlock (setFree m (a + span 16 pre) true) (a + span 16 pre) x = m x := by
  obtain ⟨hseg, hrepr⟩ := coalesceNext_freed h hpos hfit
  obtain ⟨hxpre, hxpost⟩ := offHeaders_append.mp hx
  obtain ⟨hblock, hxrest⟩ := offHeaders_cons.mp hxpost
  have hfwd : a + span 16 (pre ++ (forward 16 c post).1 :: (forward 16 c post).2) < 2 ^ 32 := by
    rw [span_append, span_forward, ← span_append]
    exact hfit
  have hfit' : a + span 16 pre + span 16 (⟨c.size, true⟩ :: post) < 2 ^ 32 := by
    rw [span_append] at hfit
    simp only [span] at hfit ⊢
    omega
  rw [coalesceBlock, coalescePrev_off hrepr hpos hfwd
    (offHeaders_append.mpr ⟨hxpre, offHeaders_forward hxpost⟩),
    coalesceNext_off hseg hfit' (offHeaders_cons.mpr ⟨hblock, hxrest⟩), setFree_off hblock]

/-- Which pointer the loop of `kmalloc` returns depends on the headers only. -/
theorem kmallocLoop_fst_congr {m' : Mem} (size fuel : ℕ) (h : Seg m p a cs 0) (h' : Seg m' p a cs 0) :
    (kmallocLoop m size fuel (if cs = [] then 0 else a)).map Prod.fst =
      (kmallocLoop m' size fuel (if cs = [] then 0 else a)).map Prod.fst := by
  induction cs generalizing p a fuel with
  | nil => cases fuel <;> simp [kmallocLoop]
  | cons c cs ih =>
    cases fuel with
    | zero => rfl
    | succ fuel =>
      rw [if_neg (List.cons_ne_nil c cs), kmallocLoop, kmallocLoop, h.1.free, h.1.size, h.1.next,
        h'.1.free, h'.1.size, h'.1.next]
      by_cases hnull : a = 0
      · rw [if_pos hnull, if_pos hnull]
        rfl
      · rw [if_neg hnull, if_neg hnull]
        by_cases hc : (if c.free = true then 1 else 0) ≠ 0 ∧ size ≤ c.size
        · rw [if_pos hc, if_pos hc]
          rfl
        · rw [if_neg hc, if_neg hc]
          exact ih fuel h.2 h'.2

end Functions

/-! ## Runs -/

/-- The heap and the live pointers. -/
structure HeapState where
  heap : Kheap
  live : List ℕ

/-- The heap after `kheap_init`; `m` is what memory held before. -/
def heapBoot (A : HeapArea) (m : Mem) : HeapState := { heap := kheapInit A m, live := [] }

/-- What a client can do. -/
inductive HeapOp where
  | kmalloc (size : ℕ)
  | kfree (ptr : ℕ)
  | store (addr : ℕ) (value : Byte)
  deriving DecidableEq

/-- One call, or one store of a client into a payload it owns. `none`: the call is
    not allowed, or the loop of `kmalloc` did not end. -/
def heapStep (s : HeapState) : HeapOp → Option HeapState
  | .kmalloc size =>
    if size < 2 ^ 32 then
      (kmalloc s.heap size).map fun r =>
        { heap := r.2, live := if r.1 = 0 then s.live else r.1 :: s.live }
    else none
  | .kfree ptr =>
    if ptr = 0 ∨ ptr ∈ s.live then some { heap := kfree s.heap ptr, live := s.live.erase ptr }
    else none
  | .store addr value =>
    if ∃ p ∈ s.live, p ≤ addr ∧ addr < p + blockSize s.heap.mem (sub32 p headerSize) then
      some { s with heap := { s.heap with mem := Function.update s.heap.mem addr value } }
    else none

/-- Memory represents the tiling `cs` of `heap_area`, and the live pointers are the
    payloads of its used cells. -/
structure HeapInv (A : HeapArea) (s : HeapState) (cs : List Cell) : Prop where
  initialized : s.heap.heapInitialized = true
  start : s.heap.heapStart = A.addr
  repr : Repr s.heap.mem A.addr cs
  span : span 16 cs = kheapSize
  sizes : ∀ c ∈ cs, 8 ∣ c.size
  canonical : Canonical cs
  nodup : s.live.Nodup
  live : ∀ p, p ∈ s.live ↔ ∃ x n, Used 16 A.addr cs x n ∧ p = x + 16

section Invariant

variable {A : HeapArea} {s : HeapState} {cs : List Cell}

theorem heapInv_boot (A : HeapArea) (m : Mem) :
    HeapInv A (heapBoot A m) [⟨kheapSize - 16, true⟩] where
  initialized := rfl
  start := rfl
  repr := ⟨header_writeHeader (c := ⟨kheapSize - 16, true⟩) (by norm_num [kheapSize])
    (by norm_num) (by norm_num), trivial⟩
  span := by norm_num [Tiling.span, kheapSize]
  sizes := by simp [kheapSize]
  canonical := List.isChain_singleton _
  nodup := List.nodup_nil
  live := by simp [heapBoot, used_cons]

theorem length_le_span (cs : List Cell) : 16 * cs.length ≤ Tiling.span 16 cs := by
  induction cs with
  | nil => simp
  | cons c cs ih => simp only [List.length_cons, Tiling.span]; omega

theorem HeapInv.length_lt (h : HeapInv A s cs) : cs.length < maxBlocks := by
  have := length_le_span cs
  rw [h.span] at this
  unfold kheapSize at this
  unfold maxBlocks kheapSize headerSize
  omega

theorem HeapInv.ne_nil (h : HeapInv A s cs) : cs ≠ [] := by
  rintro rfl
  have := h.span
  simp [Tiling.span, kheapSize] at this

theorem HeapInv.fits (h : HeapInv A s cs) : A.addr + Tiling.span 16 cs < 2 ^ 32 := by
  rw [h.span]; exact A.fits

/-- A live pointer splits the tiling at its block. -/
theorem HeapInv.split_of_live (h : HeapInv A s cs) {p : ℕ} (hp : p ∈ s.live) :
    ∃ pre n post, cs = pre ++ ⟨n, false⟩ :: post ∧ p = A.addr + Tiling.span 16 pre + 16 ∧
      sub32 p headerSize = A.addr + Tiling.span 16 pre ∧ blockSize s.heap.mem
        (sub32 p headerSize) = n := by
  obtain ⟨x, n, hx, rfl⟩ := (h.live p).mp hp
  obtain ⟨pre, post, rfl, rfl⟩ := exists_split_of_mem_placed hx
  have hb := hx.bounds
  have hfits := h.fits
  have hsub : sub32 (A.addr + Tiling.span 16 pre + 16) headerSize = A.addr + Tiling.span 16 pre := by
    unfold headerSize
    rw [sub32_of_le (by omega) (by omega)]
    omega
  refine ⟨pre, n, post, rfl, rfl, hsub, ?_⟩
  rw [hsub]
  exact (seg_append.mp h.repr).2.1.size

/-- The used cell at a live pointer. -/
theorem HeapInv.used_of_live (h : HeapInv A s cs) {p : ℕ} (hp : p ∈ s.live) :
    Used 16 A.addr cs (p - 16) (blockSize s.heap.mem (sub32 p headerSize)) := by
  obtain ⟨pre, n, post, rfl, rfl, -, hn⟩ := h.split_of_live hp
  rw [hn, Nat.add_sub_cancel]
  exact mem_placed_split pre post ⟨n, false⟩

/-- `kmalloc` on a represented heap: it fails and changes nothing, or carves a free
    cell and returns its payload. -/
theorem HeapInv.kmalloc_eq (h : HeapInv A s cs) (size : ℕ) :
    kmalloc s.heap size = some (0, s.heap) ∨
      ∃ pre c post m', cs = pre ++ c :: post ∧ c.free = true ∧ roundSize size ≤ c.size ∧
        kmalloc s.heap size = some (A.addr + Tiling.span 16 pre + 16, { s.heap with mem := m' }) ∧
        Repr m' A.addr (pre ++ (carve 16 16 (roundSize size) c ++ post)) ∧
        ∀ x, OffHeaders A.addr (pre ++ (carve 16 16 (roundSize size) c ++ post)) x →
          m' x = s.heap.mem x := by
  by_cases h0 : size = 0
  · exact Or.inl (by unfold kmalloc; rw [if_pos (Or.inr h0)])
  have hk : kmalloc s.heap size =
      (kmallocLoop s.heap.mem (roundSize size) maxBlocks A.addr).map fun r =>
        (r.1, { s.heap with mem := r.2 }) := by
    unfold kmalloc
    rw [if_neg (by simp [h.initialized, h0]), ← h.start]
  have hloop := kmallocLoop_eq (roundSize size) maxBlocks h.repr A.pos h.fits h.length_lt
  rw [if_neg h.ne_nil] at hloop
  rcases hloop with ⟨hl, -⟩ | ⟨pre, c, post, hcs, hc, hsize, hl⟩
  · exact Or.inl (by rw [hk, hl]; rfl)
  · refine Or.inr ⟨pre, c, post, _, hcs, hc, hsize, by rw [hk, hl]; rfl, ?_, ?_⟩
    all_goals
      have hspan := h.span
      have hfits := h.fits
      have hrepr := h.repr
      have hpos := A.pos
      subst hcs
      rw [span_append] at hspan hfits
      obtain ⟨hpre, hseg⟩ := seg_append.mp hrepr
    · obtain ⟨hseg', hag⟩ := splitBlock_seg hseg hsize (by omega) (by omega) (by omega)
      have hne : carve 16 16 (roundSize size) c ++ post ≠ [] := by
        unfold carve; split_ifs <;> simp
      obtain ⟨d, ds, hd⟩ := List.exists_cons_of_ne_nil hne
      rw [hd] at hseg' ⊢
      exact seg_append.mpr ⟨hpre.congr (hag.mono (by omega) le_rfl), hseg'⟩
    · intro x hx
      exact splitBlock_off hseg hsize (by omega) (by omega) (offHeaders_append.mp hx).2

/-- A `kmalloc` that returns `NULL` has changed nothing. -/
theorem HeapInv.kmalloc_fail (h : HeapInv A s cs) {size : ℕ} {r : ℕ × Kheap}
    (hk : kmalloc s.heap size = some r) (hr : r.1 = 0) : r = (0, s.heap) := by
  obtain hfail | ⟨pre, c, post, m', -, -, -, hk', -⟩ := h.kmalloc_eq size
  · exact Option.some_inj.mp (hk.symm.trans hfail)
  · rw [Option.some_inj.mp (hk.symm.trans hk')] at hr
    exact absurd hr (by simp)

/-- The loop of `kmalloc` always ends. -/
theorem HeapInv.kmalloc_returns (h : HeapInv A s cs) (size : ℕ) :
    ∃ r, kmalloc s.heap size = some r := by
  rcases h.kmalloc_eq size with hk | ⟨_, _, _, _, _, _, _, hk, -⟩
  · exact ⟨_, hk⟩
  · exact ⟨_, hk⟩

/-- Which pointer `kmalloc` returns depends on the tiling only. -/
theorem HeapInv.kmalloc_fst_congr {t : HeapState} (hs : HeapInv A s cs) (ht : HeapInv A t cs)
    (size : ℕ) : (kmalloc s.heap size).map Prod.fst = (kmalloc t.heap size).map Prod.fst := by
  have hloop := kmallocLoop_fst_congr (roundSize size) maxBlocks hs.repr ht.repr
  rw [if_neg hs.ne_nil] at hloop
  unfold kmalloc
  rw [hs.initialized, ht.initialized, hs.start, ht.start]
  by_cases h0 : true = false ∨ size = 0
  · rw [if_pos h0, if_pos h0]
    rfl
  · rw [if_neg h0, if_neg h0]
    simpa [Option.map_map, Function.comp_def] using hloop

/-- A carved cell is new among the live pointers. -/
theorem HeapInv.carved_fresh (h : HeapInv A s cs) {pre : List Cell} {c : Cell} {post : List Cell}
    (hcs : cs = pre ++ c :: post) (hc : c.free = true) :
    A.addr + Tiling.span 16 pre + 16 ∉ s.live := by
  intro hp
  obtain ⟨x, n, hx, hxp⟩ := (h.live _).mp hp
  have hplaced := mem_placed_split (H := 16) (a := A.addr) pre post c
  rw [← hcs] at hplaced
  rcases placed_disjoint hx hplaced with ⟨-, rfl⟩ | hd | hd
  · cases hc
  · omega
  · omega

theorem heapInv_kmalloc (h : HeapInv A s cs) {size : ℕ} {r : ℕ × Kheap}
    (hk : kmalloc s.heap size = some r) :
    ∃ cs', HeapInv A { heap := r.2, live := if r.1 = 0 then s.live else r.1 :: s.live } cs' ∧
      (∀ x n, Used 16 A.addr cs x n → Used 16 A.addr cs' x n) ∧
      (r.1 ≠ 0 → ∃ x n, Used 16 A.addr cs' x n ∧ r.1 = x + 16 ∧ roundSize size ≤ n) ∧
      ∀ x, OffHeaders A.addr cs' x → r.2.mem x = s.heap.mem x := by
  rcases h.kmalloc_eq size with hk' | ⟨pre, c, post, m', hcs, hc, hsize, hk', hrepr, hoff⟩
  · rw [hk] at hk'
    cases hk'
    exact ⟨cs, h, fun _ _ hx => hx, fun hne => absurd rfl hne, fun _ _ => rfl⟩
  · rw [hk] at hk'
    cases hk'
    have hfresh := h.carved_fresh hcs hc
    subst hcs
    have hused : ∀ x n, Used 16 A.addr (pre ++ (carve 16 16 (roundSize size) c ++ post)) x n ↔ _ :=
      fun x n => used_carve_iff (M := 16) (n := roundSize size) hc
    refine ⟨pre ++ (carve 16 16 (roundSize size) c ++ post), ?_, ?_, ?_, hoff⟩
    · rw [if_neg (by simp)]
      exact
        { initialized := h.initialized
          start := h.start
          repr := hrepr
          span := by
            rw [← h.span]
            simp only [span_append, span_carve, Tiling.span]
          sizes := by
            have hc8 := h.sizes c (by simp)
            have hr8 := roundSize_dvd size
            exact forall_size_carve h.sizes hr8 (by omega)
          canonical := canonical_carve hc h.canonical
          nodup := List.nodup_cons.mpr ⟨hfresh, h.nodup⟩
          live := by
            intro p
            rw [List.mem_cons, h.live p]
            constructor
            · rintro (rfl | ⟨x, n, hx, rfl⟩)
              · exact ⟨_, _, (hused _ _).mpr (Or.inr ⟨rfl, rfl⟩), rfl⟩
              · exact ⟨x, n, (hused _ _).mpr (Or.inl hx), rfl⟩
            · rintro ⟨x, n, hx, rfl⟩
              rcases (hused _ _).mp hx with hx | ⟨rfl, -⟩
              · exact Or.inr ⟨x, n, hx, rfl⟩
              · exact Or.inl rfl }
    · intro x n hx
      exact (hused x n).mpr (Or.inl hx)
    · intro _
      refine ⟨_, _, (hused _ _).mpr (Or.inr ⟨rfl, rfl⟩), rfl, ?_⟩
      unfold carvedSize
      split_ifs
      · exact le_rfl
      · exact hsize

theorem heapInv_kfree (h : HeapInv A s cs) {ptr : ℕ} (hptr : ptr ∈ s.live) :
    ∃ cs', HeapInv A { heap := kfree s.heap ptr, live := s.live.erase ptr } cs' ∧
      (∀ x n, Used 16 A.addr cs' x n ↔ Used 16 A.addr cs x n ∧ x + 16 ≠ ptr) ∧
      ∀ x, OffHeaders A.addr cs x → (kfree s.heap ptr).mem x = s.heap.mem x := by
  obtain ⟨pre, n, post, rfl, hp, hsub, -⟩ := h.split_of_live hptr
  have hused : ∀ x k, Used 16 A.addr (release 16 pre ⟨n, false⟩ post) x k ↔ _ :=
    fun x k => used_release_iff (by norm_num)
  have hfree : kfree s.heap ptr = { s.heap with
      mem := coalesceBlock (setFree s.heap.mem (A.addr + Tiling.span 16 pre) true)
        (A.addr + Tiling.span 16 pre) } := by
    unfold kfree
    rw [if_neg (by omega)]
    dsimp only
    rw [hsub]
  rw [hfree]
  refine ⟨release 16 pre ⟨n, false⟩ post, ?_, ?_, ?_⟩
  · exact
      { initialized := h.initialized
        start := h.start
        repr := by
          dsimp only
          exact kfree_repr h.repr A.pos h.fits
        span := by rw [span_release, h.span]
        sizes := forall_size_release (fun m n hm hn => by omega) h.sizes
        canonical := canonical_release h.canonical
        nodup := h.nodup.erase ptr
        live := by
          intro p
          rw [h.nodup.mem_erase_iff, h.live p]
          constructor
          · rintro ⟨hne, x, k, hx, rfl⟩
            exact ⟨x, k, (hused x k).mpr ⟨hx, by omega⟩, rfl⟩
          · rintro ⟨x, k, hx, rfl⟩
            obtain ⟨hx, hne⟩ := (hused x k).mp hx
            exact ⟨by omega, x, k, hx, rfl⟩ }
  · intro x k
    rw [hused x k, hp]
    simp only [ne_eq, Nat.add_right_cancel_iff]
  · intro x hx
    dsimp only
    exact kfree_off h.repr A.pos h.fits hx

/-- Changing bytes of one live payload changes no header. -/
theorem heapInv_overwrite (h : HeapInv A s cs) {p : ℕ} (m' : Mem) (hp : p ∈ s.live)
    (hm : ∀ x, x < p ∨ p + blockSize s.heap.mem (sub32 p headerSize) ≤ x → m' x = s.heap.mem x) :
    HeapInv A { s with heap := { s.heap with mem := m' } } cs := by
  obtain ⟨pre, n, post, hcs, hp, -, hn⟩ := h.split_of_live hp
  refine { h with repr := h.repr.congr_headers fun y d hy => ?_ }
  intro z hz1 hz2
  have hplaced := mem_placed_split (H := 16) (a := A.addr) pre post ⟨n, false⟩
  rw [← hcs] at hplaced
  apply hm
  rcases placed_disjoint hplaced hy with ⟨rfl, -⟩ | hd | hd
  · omega
  · simp only at hd; omega
  · omega

/-- A store into a live payload changes no header. -/
theorem heapInv_store (h : HeapInv A s cs) {p addr : ℕ} {value : Byte} (hp : p ∈ s.live)
    (h1 : p ≤ addr) (h2 : addr < p + blockSize s.heap.mem (sub32 p headerSize)) :
    HeapInv A { s with heap := { s.heap with mem := Function.update s.heap.mem addr value } } cs := by
  apply heapInv_overwrite h _ hp
  intro x hx
  exact Function.update_of_ne (by omega) _ _

/-- One step keeps the invariant, and keeps every used cell but one that it frees. -/
theorem heapInv_step (h : HeapInv A s cs) {op : HeapOp} {t : HeapState}
    (hstep : heapStep s op = some t) :
    ∃ cs', HeapInv A t cs' ∧
      ∀ x n, Used 16 A.addr cs x n → op ≠ .kfree (x + 16) → Used 16 A.addr cs' x n := by
  cases op with
  | kmalloc size =>
    simp only [heapStep] at hstep
    split_ifs at hstep
    obtain ⟨r, hr, rfl⟩ := Option.map_eq_some_iff.mp hstep
    obtain ⟨cs', hcs', hkeep, -⟩ := heapInv_kmalloc h hr
    exact ⟨cs', hcs', fun x n hx _ => hkeep x n hx⟩
  | kfree ptr =>
    simp only [heapStep] at hstep
    split_ifs at hstep with hptr
    cases hstep
    by_cases h0 : ptr ∈ s.live
    · obtain ⟨cs', hcs', hkeep, -⟩ := heapInv_kfree h h0
      exact ⟨cs', hcs', fun x n hx hne => (hkeep x n).mpr ⟨hx, fun he => hne (by rw [he])⟩⟩
    · -- `kfree(NULL)`
      have hz : ptr = 0 := hptr.resolve_right h0
      have hs : HeapState.mk (kfree s.heap ptr) (s.live.erase ptr) = s := by
        rw [List.erase_of_not_mem h0]
        unfold kfree
        rw [if_pos hz]
      rw [hs]
      exact ⟨cs, h, fun x n hx _ => hx⟩
  | store addr value =>
    simp only [heapStep] at hstep
    split_ifs at hstep with hst
    cases hstep
    obtain ⟨p, hp, h1, h2⟩ := hst
    exact ⟨cs, heapInv_store h hp h1 h2, fun x n hx _ => hx⟩

/-- Every state reached from `kheap_init` satisfies the invariant. -/
theorem heapInv_run {m : Mem} {ops : List HeapOp} (h : run heapStep (heapBoot A m) ops = some s) :
    ∃ cs, HeapInv A s cs := by
  refine run_invariant (fun s => ∃ cs, HeapInv A s cs) ?_ ⟨_, heapInv_boot A m⟩ h
  rintro s op t ⟨cs, hcs⟩ hstep
  obtain ⟨cs', hcs', -⟩ := heapInv_step hcs hstep
  exact ⟨cs', hcs'⟩

end Invariant

/-! ## The block list -/

/-- The block list of the cells `cs` placed from `a`. -/
def cellBlocks : (p a : ℕ) → List Cell → List HeapBlock
  | _, _, [] => []
  | p, a, c :: cs =>
    ⟨a, c.size, c.free, if cs = [] then 0 else a + 16 + c.size, p⟩ ::
      cellBlocks a (a + 16 + c.size) cs

/-- The cells can be read off from the blocks. -/
theorem map_cellBlocks (p a : ℕ) (cs : List Cell) :
    (cellBlocks p a cs).map (fun b => Cell.mk b.size b.free) = cs := by
  induction cs generalizing p a with
  | nil => rfl
  | cons c cs ih => rw [cellBlocks, List.map_cons, ih]

theorem blocksFrom_eq {m : Mem} {p a fuel : ℕ} {cs : List Cell} (h : Seg m p a cs 0) (hpos : 0 < a)
    (hfuel : cs.length < fuel) :
    blocksFrom m fuel (if cs = [] then 0 else a) = cellBlocks p a cs := by
  induction cs generalizing p a fuel with
  | nil =>
    obtain ⟨fuel, rfl⟩ : ∃ k, fuel = k + 1 := ⟨fuel - 1, by simp at hfuel; omega⟩
    rw [if_pos rfl, blocksFrom, if_pos rfl, cellBlocks]
  | cons c cs ih =>
    obtain ⟨fuel, rfl⟩ : ∃ k, fuel = k + 1 := ⟨fuel - 1, by simp at hfuel; omega⟩
    obtain ⟨hh, ht⟩ := h
    rw [List.length_cons] at hfuel
    rw [if_neg (List.cons_ne_nil c cs), blocksFrom, if_neg (by omega), hh.size, hh.free, hh.next,
      hh.prev, ih ht (by omega) (by omega), cellBlocks]
    cases c.free <;> rfl

theorem HeapInv.blockList_eq {A : HeapArea} {s : HeapState} {cs : List Cell} (h : HeapInv A s cs) :
    blockList s.heap = cellBlocks 0 A.addr cs := by
  have := blocksFrom_eq h.repr A.pos h.length_lt
  rw [if_neg h.ne_nil] at this
  unfold blockList
  rw [h.start, this]

/-- The blocks of the list are the placed cells. -/
theorem mem_cellBlocks {p a : ℕ} {cs : List Cell} {b : HeapBlock} (hb : b ∈ cellBlocks p a cs) :
    (b.addr, ⟨b.size, b.free⟩) ∈ placed 16 a cs := by
  induction cs generalizing p a with
  | nil => simp [cellBlocks] at hb
  | cons c cs ih =>
    rw [cellBlocks, List.mem_cons] at hb
    rcases hb with rfl | hb
    · exact List.mem_cons_self
    · exact List.mem_cons_of_mem _ (ih hb)

theorem exists_mem_cellBlocks {p a x : ℕ} {c : Cell} {cs : List Cell}
    (h : (x, c) ∈ placed 16 a cs) :
    ∃ b ∈ cellBlocks p a cs, b.addr = x ∧ b.size = c.size ∧ b.free = c.free := by
  induction cs generalizing p a with
  | nil => simp [placed] at h
  | cons d cs ih =>
    rw [placed, List.mem_cons, Prod.mk.injEq] at h
    rcases h with ⟨rfl, rfl⟩ | h
    · exact ⟨_, List.mem_cons_self, rfl, rfl, rfl⟩
    · obtain ⟨b, hb, h'⟩ := ih (p := a) h
      exact ⟨b, List.mem_cons_of_mem _ hb, h'⟩

/-- Blocks of the list at one address are one block. -/
theorem cellBlocks_addr_inj {p a : ℕ} {cs : List Cell} {b c : HeapBlock}
    (hb : b ∈ cellBlocks p a cs) (hc : c ∈ cellBlocks p a cs) (h : b.addr = c.addr) : b = c := by
  induction cs generalizing p a with
  | nil => simp [cellBlocks] at hb
  | cons d cs ih =>
    rw [cellBlocks, List.mem_cons] at hb hc
    rcases hb with rfl | hb <;> rcases hc with rfl | hc
    · rfl
    · have := (placed_bounds (mem_cellBlocks hc)).1
      simp only at h; omega
    · have := (placed_bounds (mem_cellBlocks hb)).1
      simp only at h; omega
    · exact ih hb hc

theorem cellBlocks_nodup (p a : ℕ) (cs : List Cell) :
    ((cellBlocks p a cs).map HeapBlock.addr).Nodup := by
  induction cs generalizing p a with
  | nil => exact List.nodup_nil
  | cons c cs ih =>
    rw [cellBlocks, List.map_cons, List.nodup_cons]
    refine ⟨?_, ih _ _⟩
    intro hmem
    obtain ⟨b, hb, he⟩ := List.mem_map.mp hmem
    have := (placed_bounds (mem_cellBlocks hb)).1
    simp only at he; omega

/-- Consecutive blocks are adjacent and linked both ways. -/
theorem cellBlocks_isChain (p a : ℕ) (cs : List Cell) :
    (cellBlocks p a cs).IsChain fun b c =>
      b.next = b.addr + 16 + b.size ∧ c.addr = b.next ∧ c.prev = b.addr := by
  induction cs generalizing p a with
  | nil => exact List.isChain_nil
  | cons c cs ih =>
    have := ih a (a + 16 + c.size)
    cases cs with
    | nil => exact List.isChain_singleton _
    | cons d ds =>
      rw [cellBlocks, if_neg (List.cons_ne_nil d ds)]
      exact List.isChain_cons_cons.mpr ⟨⟨rfl, rfl, rfl⟩, this⟩

theorem cellBlocks_getLast {p a : ℕ} {cs : List Cell} (h : cs ≠ []) :
    ∃ b, (cellBlocks p a cs).getLast? = some b ∧ b.next = 0 ∧
      b.addr + 16 + b.size = a + Tiling.span 16 cs := by
  induction cs generalizing p a with
  | nil => exact absurd rfl h
  | cons c cs ih =>
    cases cs with
    | nil => exact ⟨⟨a, c.size, c.free, 0, p⟩, rfl, rfl, by simp only [Tiling.span]; omega⟩
    | cons d ds =>
      obtain ⟨b, hb, h1, h2⟩ := ih (p := a) (a := a + 16 + c.size) (List.cons_ne_nil d ds)
      refine ⟨b, ?_, h1, by rw [h2]; simp only [Tiling.span]; omega⟩
      rw [cellBlocks, cellBlocks, List.getLast?_cons_cons, ← cellBlocks]
      exact hb

/-! ## The representation invariant -/

/-- The payload of a block, as a set of addresses. -/
def HeapBlock.payload (b : HeapBlock) : Set ℕ := Set.Ico (b.addr + 16) (b.addr + 16 + b.size)

/-- The header of a block, as a set of addresses. -/
def HeapBlock.header (b : HeapBlock) : Set ℕ := Set.Ico b.addr (b.addr + 16)

/-- The block list tiles `heap_area` and is doubly linked; the live pointers are,
    one to one, the payloads of its used blocks. -/
structure TilesHeapArea (A : HeapArea) (bs : List HeapBlock) (live : List ℕ) : Prop where
  first : ∃ b, bs.head? = some b ∧ b.addr = A.addr ∧ b.prev = 0
  linked : bs.IsChain fun b c =>
    b.next = b.addr + 16 + b.size ∧ c.addr = b.next ∧ c.prev = b.addr
  last : ∃ b, bs.getLast? = some b ∧ b.next = 0 ∧ b.addr + 16 + b.size = A.addr + kheapSize
  live_perm : live.Perm ((bs.filter fun b => b.free = false).map fun b => b.addr + 16)
  live_nodup : live.Nodup
  payloads_disjoint : ∀ b ∈ bs, ∀ c ∈ bs, b.free = false → c.free = false → b ≠ c →
    Disjoint b.payload c.payload
  payload_header_disjoint : ∀ b ∈ bs, ∀ c ∈ bs, b.free = false → Disjoint b.payload c.header
  live_aligned : ∀ p ∈ live, 8 ∣ p

theorem HeapInv.addr_aligned {A : HeapArea} {s : HeapState} {cs : List Cell} (h : HeapInv A s cs)
    {x : ℕ} {c : Cell} (hx : (x, c) ∈ placed 16 A.addr cs) : 8 ∣ x := by
  obtain ⟨pre, post, rfl, rfl⟩ := exists_split_of_mem_placed hx
  have hspan : ∀ ds : List Cell, (∀ d ∈ ds, 8 ∣ d.size) → 8 ∣ Tiling.span 16 ds := by
    intro ds hds
    induction ds with
    | nil => simp [Tiling.span]
    | cons d ds ih =>
      have h1 := hds d List.mem_cons_self
      have h2 := ih fun e he => hds e (List.mem_cons_of_mem _ he)
      simp only [Tiling.span]
      omega
  have h1 := hspan pre fun d hd => h.sizes d (List.mem_append_left _ hd)
  have h2 := A.aligned
  omega

/-- Different blocks do not overlap, headers included. -/
theorem cellBlocks_apart {p a : ℕ} {cs : List Cell} {b c : HeapBlock} (hb : b ∈ cellBlocks p a cs)
    (hc : c ∈ cellBlocks p a cs) (hne : b ≠ c) :
    b.addr + 16 + b.size ≤ c.addr ∨ c.addr + 16 + c.size ≤ b.addr := by
  obtain ⟨he, -⟩ | hd := placed_disjoint (mem_cellBlocks hb) (mem_cellBlocks hc)
  · exact absurd (cellBlocks_addr_inj hb hc he) hne
  · exact hd

/-- The live pointers are those to the payloads of the used blocks. -/
theorem HeapInv.live_perm {A : HeapArea} {s : HeapState} {cs : List Cell} (h : HeapInv A s cs) :
    s.live.Perm (((cellBlocks 0 A.addr cs).filter fun b => b.free = false).map
      fun b => b.addr + 16) := by
  have hpayloads : ((cellBlocks 0 A.addr cs).map fun b => b.addr + 16).Nodup := by
    have := (cellBlocks_nodup 0 A.addr cs).map (Nat.add_right_cancel (m := 16) (n := ·) (k := ·))
    simpa [List.map_map, Function.comp_def] using this
  refine (List.perm_ext_iff_of_nodup h.nodup
    (hpayloads.sublist ((List.filter_sublist).map _))).mpr ?_
  intro p
  rw [h.live p, List.mem_map]
  constructor
  · rintro ⟨x, n, hx, rfl⟩
    obtain ⟨b, hb, rfl, -, hfree⟩ := exists_mem_cellBlocks (p := 0) hx
    exact ⟨b, List.mem_filter.mpr ⟨hb, by simpa using hfree⟩, rfl⟩
  · rintro ⟨b, hb, rfl⟩
    obtain ⟨hb, hfree⟩ := List.mem_filter.mp hb
    have := mem_cellBlocks hb
    rw [of_decide_eq_true hfree] at this
    exact ⟨b.addr, b.size, this, rfl⟩

theorem HeapInv.tilesHeapArea {A : HeapArea} {s : HeapState} {cs : List Cell}
    (h : HeapInv A s cs) : TilesHeapArea A (blockList s.heap) s.live := by
  rw [h.blockList_eq]
  exact
    { first := by
        obtain ⟨c, cs', rfl⟩ := List.exists_cons_of_ne_nil h.ne_nil
        exact ⟨_, rfl, rfl, rfl⟩
      linked := cellBlocks_isChain 0 A.addr cs
      last := by
        obtain ⟨b, hb, h1, h2⟩ := cellBlocks_getLast (p := 0) (a := A.addr) h.ne_nil
        exact ⟨b, hb, h1, by rw [h2, h.span]⟩
      live_perm := h.live_perm
      live_nodup := h.nodup
      payloads_disjoint := by
        intro b hb c hc _ _ hne
        have := cellBlocks_apart hb hc hne
        rw [Set.disjoint_left]
        intro x hx hx'
        simp only [HeapBlock.payload, Set.mem_Ico] at hx hx'
        omega
      payload_header_disjoint := by
        intro b hb c hc _
        rw [Set.disjoint_left]
        intro x hx hx'
        simp only [HeapBlock.payload, HeapBlock.header, Set.mem_Ico] at hx hx'
        by_cases hne : b = c
        · subst hne; omega
        · have := cellBlocks_apart hb hc hne
          omega
      live_aligned := by
        intro p hp
        obtain ⟨x, n, hx, rfl⟩ := (h.live p).mp hp
        have := h.addr_aligned hx
        omega }

/-- In every state reached from `kheap_init` the block list tiles `heap_area`, is
    doubly linked, and its used blocks are the live pointers; every `kmalloc`
    returns, and a step other than `kfree p` leaves the block of a live `p` where it
    is, with its size, and used. -/
theorem kheap_tiles_heap_area (A : HeapArea) (m : Mem) (ops : List HeapOp) (s : HeapState)
    (hrun : run heapStep (heapBoot A m) ops = some s) :
    TilesHeapArea A (blockList s.heap) s.live ∧
      (∀ size, size < 2 ^ 32 → ∃ t, heapStep s (.kmalloc size) = some t) ∧
      ∀ op t, heapStep s op = some t → ∀ p ∈ s.live, op ≠ .kfree p →
        p ∈ t.live ∧ ∃ b ∈ blockList s.heap, ∃ b' ∈ blockList t.heap,
          p = b.addr + 16 ∧ b'.addr = b.addr ∧ b'.size = b.size ∧ b'.free = false := by
  obtain ⟨cs, hinv⟩ := heapInv_run hrun
  refine ⟨hinv.tilesHeapArea, ?_, ?_⟩
  · intro size hsize
    obtain ⟨r, hr⟩ := hinv.kmalloc_returns size
    exact ⟨_, by rw [heapStep, if_pos hsize, hr]; rfl⟩
  · intro op t hstep p hp hne
    obtain ⟨cs', hinv', hkeep⟩ := heapInv_step hinv hstep
    obtain ⟨x, n, hx, rfl⟩ := (hinv.live p).mp hp
    have hx' := hkeep x n hx hne
    rw [hinv.blockList_eq, hinv'.blockList_eq]
    obtain ⟨b, hb, rfl, hsz, -⟩ := exists_mem_cellBlocks (p := 0) hx
    obtain ⟨b', hb', h1, h2, h3⟩ := exists_mem_cellBlocks (p := 0) hx'
    exact ⟨(hinv'.live _).mpr ⟨_, n, hx', rfl⟩, b, hb, b', hb', rfl, h1, by rw [h2, hsz], h3⟩

/-- A place for `heap_area`: 2 MiB. -/
def heapAreaAt2M : HeapArea where
  addr := 0x200000
  pos := by norm_num
  aligned := by norm_num
  fits := by norm_num [kheapSize]

/-- A run with a request that wraps to size 0, a store and a release. -/
theorem kheap_tiles_heap_area_at2M :
    ∃ s, run heapStep (heapBoot heapAreaAt2M fun _ => 0)
        [.kmalloc 24, .kmalloc 0xFFFFFFFF, .store 0x200010 7, .kfree 0x200010, .kmalloc 8] = some s ∧
      TilesHeapArea heapAreaAt2M (blockList s.heap) s.live := by
  obtain ⟨s, hs⟩ := Option.isSome_iff_exists.mp (show (run heapStep (heapBoot heapAreaAt2M fun _ => 0)
    [.kmalloc 24, .kmalloc 0xFFFFFFFF, .store 0x200010 7, .kfree 0x200010,
      .kmalloc 8]).isSome = true by decide +kernel)
  exact ⟨s, hs, (kheap_tiles_heap_area heapAreaAt2M _ _ s hs).1⟩

end NexusKernel.Memory
