import NexusKernel.Common.Tiling
import NexusKernel.Memory.Kheap

/-!
# Heap headers in memory represent a tiling

`Seg m p a cs nx` says that the headers from address `a` on are those of the cells
`cs`: sizes and flags as in `cs`, every `next` the address right after the block
(`nx` for the last one), every `prev` the address right before (`p` for the first).
`Repr m a cs` is the whole list, with `NULL` at both ends.

Each function of `kheap.c` acts on the represented tiling:

* `splitBlock_seg`: `split_block` and clearing `free` is `Tiling.carve`;
* `coalesceNext_seg`, `coalescePrev_repr`: the two halves of `coalesce_block` are
  `Tiling.forward` and `Tiling.backward`;
* `splitBlock_off`, `coalesceNext_off`, `coalescePrev_off`: none of them writes a byte
  outside the headers.
-/

namespace NexusKernel.Memory

open Tiling

/-- The header at `a` is that of the cell `c`, with these links. -/
structure Header (m : Mem) (a : ℕ) (c : Cell) (next prev : ℕ) : Prop where
  size : blockSize m a = c.size
  free : blockFree m a = if c.free then 1 else 0
  next : blockNext m a = next
  prev : blockPrev m a = prev

/-- The headers of the cells `cs` from `a` on; see the module comment. -/
def Seg (m : Mem) : (p a : ℕ) → List Cell → (nx : ℕ) → Prop
  | _, _, [], _ => True
  | p, a, c :: cs, nx =>
    Header m a c (if cs = [] then nx else a + 16 + c.size) p ∧
      Seg m a (a + 16 + c.size) cs nx

/-- The address of the last cell of `cs` placed from `a`, or `p` if there is none. -/
def lastAddr : (p a : ℕ) → List Cell → ℕ
  | p, _, [] => p
  | _, a, c :: cs => lastAddr a (a + 16 + c.size) cs

/-- The whole list from `a`. -/
def Repr (m : Mem) (a : ℕ) (cs : List Cell) : Prop := Seg m 0 a cs 0

theorem lastAddr_concat (p a : ℕ) (cs : List Cell) (e : Cell) :
    lastAddr p a (cs ++ [e]) = a + span 16 cs := by
  induction cs generalizing p a with
  | nil => simp [lastAddr, span]
  | cons c cs ih => rw [List.cons_append, lastAddr, ih, span]; omega

theorem Header.congr {m m' : Mem} {a : ℕ} {c : Cell} {next prev : ℕ} (h : Header m a c next prev)
    (hm : AgreeOn m m' a (a + 16)) : Header m' a c next prev := by
  refine ⟨?_, ?_, ?_, ?_⟩
  · rw [← h.size]; exact hm.read32 le_rfl (by omega)
  · rw [← h.free]; exact hm.read32 (by omega) (by omega)
  · rw [← h.next]; exact hm.read32 (by omega) (by omega)
  · rw [← h.prev]; exact hm.read32 (by omega) (by omega)

/-- Only the headers matter. -/
theorem Seg.congr_headers {m m' : Mem} {p a nx : ℕ} {cs : List Cell} (h : Seg m p a cs nx)
    (hm : ∀ x c, (x, c) ∈ placed 16 a cs → AgreeOn m m' x (x + 16)) :
    Seg m' p a cs nx := by
  induction cs generalizing p a with
  | nil => trivial
  | cons c cs ih =>
    exact ⟨h.1.congr (hm a c List.mem_cons_self),
      ih h.2 fun x d hx => hm x d (List.mem_cons_of_mem _ hx)⟩

/-- Writes outside the range of the segment do not change it. -/
theorem Seg.congr {m m' : Mem} {p a nx : ℕ} {cs : List Cell} (h : Seg m p a cs nx)
    (hm : AgreeOn m m' a (a + span 16 cs)) : Seg m' p a cs nx :=
  h.congr_headers fun x c hx => by
    have := placed_bounds hx
    exact hm.mono this.1 (by omega)

theorem seg_append {m : Mem} {p a nx : ℕ} {cs ds : List Cell} {d : Cell} :
    Seg m p a (cs ++ d :: ds) nx ↔
      Seg m p a cs (a + span 16 cs) ∧
        Seg m (lastAddr p a cs) (a + span 16 cs) (d :: ds) nx := by
  induction cs generalizing p a with
  | nil => simp [Seg, lastAddr, span]
  | cons c cs ih =>
    rw [List.cons_append]
    simp only [Seg, lastAddr, span]
    have hnext : (if cs ++ d :: ds = [] then nx else a + 16 + c.size) =
        if cs = [] then a + (16 + c.size + span 16 cs)
        else a + 16 + c.size := by
      rw [if_neg (by simp)]
      split_ifs with hcs
      · subst hcs; simp only [span]; omega
      · rfl
    have hspan : a + 16 + c.size + span 16 cs = a + (16 + c.size + span 16 cs) := by omega
    have := ih (p := a) (a := a + 16 + c.size)
    simp only [Seg] at this
    rw [hnext, this, hspan, and_assoc]

/-! ## Bytes outside the headers -/

/-- The byte at `x` belongs to no header of the cells `cs` placed from `a`. -/
def OffHeaders (a : ℕ) (cs : List Cell) (x : ℕ) : Prop :=
  ∀ y c, (y, c) ∈ placed 16 a cs → x < y ∨ y + 16 ≤ x

theorem offHeaders_cons {a x : ℕ} {c : Cell} {cs : List Cell} :
    OffHeaders a (c :: cs) x ↔ (x < a ∨ a + 16 ≤ x) ∧ OffHeaders (a + 16 + c.size) cs x := by
  constructor
  · intro h
    exact ⟨h a c List.mem_cons_self, fun y d hy => h y d (List.mem_cons_of_mem _ hy)⟩
  · intro ⟨hhead, htail⟩ y d hy
    obtain he | hy := List.mem_cons.mp hy
    · obtain ⟨rfl, rfl⟩ := Prod.mk.inj he
      exact hhead
    · exact htail y d hy

theorem offHeaders_append {a x : ℕ} {cs ds : List Cell} :
    OffHeaders a (cs ++ ds) x ↔ OffHeaders a cs x ∧ OffHeaders (a + span 16 cs) ds x := by
  simp only [OffHeaders, placed_append, List.mem_append, or_imp, forall_and]

/-- A payload is off all headers. -/
theorem offHeaders_of_placed {a x y : ℕ} {cs : List Cell} {c : Cell}
    (hy : (y, c) ∈ placed 16 a cs) (h1 : y + 16 ≤ x) (h2 : x < y + 16 + c.size) :
    OffHeaders a cs x := by
  intro z d hz
  obtain ⟨rfl, -⟩ | h | h := placed_disjoint hy hz
  · exact Or.inr h1
  · exact Or.inl (by omega)
  · exact Or.inr (by omega)

/-! ## Stores into a header -/

section

variable {m : Mem} {a next prev v : ℕ} {c : Cell}

theorem Header.setSize (h : Header m a c next prev) (hv : v < 2 ^ 32) :
    Header (setSize m a v) a ⟨v, c.free⟩ next prev where
  size := read32_write32_of_lt hv
  free := (read32_write32_of_disjoint (by omega)).trans h.free
  next := (read32_write32_of_disjoint (by omega)).trans h.next
  prev := (read32_write32_of_disjoint (by omega)).trans h.prev

theorem Header.setFree (h : Header m a c next prev) (f : Bool) :
    Header (setFree m a f) a ⟨c.size, f⟩ next prev where
  size := (read32_write32_of_disjoint (by omega)).trans h.size
  free := read32_write32_of_lt (by split_ifs <;> norm_num)
  next := (read32_write32_of_disjoint (by omega)).trans h.next
  prev := (read32_write32_of_disjoint (by omega)).trans h.prev

theorem Header.setNext (h : Header m a c next prev) (hv : v < 2 ^ 32) :
    Header (setNext m a v) a c v prev where
  size := (read32_write32_of_disjoint (by omega)).trans h.size
  free := (read32_write32_of_disjoint (by omega)).trans h.free
  next := read32_write32_of_lt hv
  prev := (read32_write32_of_disjoint (by omega)).trans h.prev

theorem Header.setPrev (h : Header m a c next prev) (hv : v < 2 ^ 32) :
    Header (setPrev m a v) a c next v where
  size := (read32_write32_of_disjoint (by omega)).trans h.size
  free := (read32_write32_of_disjoint (by omega)).trans h.free
  next := (read32_write32_of_disjoint (by omega)).trans h.next
  prev := read32_write32_of_lt hv

variable {lo hi : ℕ} (h : hi ≤ a ∨ a + 16 ≤ lo)
include h

theorem agreeOn_setSize : AgreeOn m (setSize m a v) lo hi := agreeOn_write32 (by omega)

theorem agreeOn_setFree {f : Bool} : AgreeOn m (setFree m a f) lo hi := agreeOn_write32 (by omega)

theorem agreeOn_setNext : AgreeOn m (setNext m a v) lo hi := agreeOn_write32 (by omega)

theorem agreeOn_setPrev : AgreeOn m (setPrev m a v) lo hi := agreeOn_write32 (by omega)

end

section

variable {m : Mem} {a v x : ℕ} (h : x < a ∨ a + 16 ≤ x)
include h

theorem setSize_off : setSize m a v x = m x := write32_outside (by omega)

theorem setFree_off {f : Bool} : setFree m a f x = m x := write32_outside (by omega)

theorem setNext_off : setNext m a v x = m x := write32_outside (by omega)

theorem setPrev_off : setPrev m a v x = m x := write32_outside (by omega)

end

/-- The four stores that make a new header. -/
def writeHeader (m : Mem) (a : ℕ) (c : Cell) (next prev : ℕ) : Mem :=
  setPrev (setNext (setFree (setSize m a c.size) a c.free) a next) a prev

theorem header_writeHeader {m : Mem} {a next prev : ℕ} {c : Cell} (hc : c.size < 2 ^ 32)
    (hn : next < 2 ^ 32) (hp : prev < 2 ^ 32) :
    Header (writeHeader m a c next prev) a c next prev := by
  -- whatever the four words hold before is the header of some cell
  have h : Header (setFree (setSize m a c.size) a c.free) a c
      (blockNext (setFree (setSize m a c.size) a c.free) a)
      (blockPrev (setFree (setSize m a c.size) a c.free) a) :=
    ⟨(read32_write32_of_disjoint (by omega)).trans (read32_write32_of_lt hc),
      read32_write32_of_lt (by split_ifs <;> norm_num), rfl, rfl⟩
  exact (h.setNext hn).setPrev hp

theorem agreeOn_writeHeader {m : Mem} {a next prev lo hi : ℕ} {c : Cell}
    (h : hi ≤ a ∨ a + 16 ≤ lo) : AgreeOn m (writeHeader m a c next prev) lo hi :=
  (((agreeOn_setSize h).trans (agreeOn_setFree h)).trans (agreeOn_setNext h)).trans
    (agreeOn_setPrev h)

theorem writeHeader_off {m : Mem} {a next prev x : ℕ} {c : Cell} (h : x < a ∨ a + 16 ≤ x) :
    writeHeader m a c next prev x = m x := by
  rw [writeHeader, setPrev_off h, setNext_off h, setFree_off h, setSize_off h]

/-- `if (next) next->prev = v`, the guarded store that ends every relinking. -/
def linkBack (m : Mem) (next v : ℕ) : Mem := if next ≠ 0 then setPrev m next v else m

theorem agreeOn_linkBack {m : Mem} {next v lo hi : ℕ}
    (h : next ≠ 0 → hi ≤ next ∨ next + 16 ≤ lo) : AgreeOn m (linkBack m next v) lo hi := by
  unfold linkBack
  split_ifs with hn
  · exact agreeOn_setPrev (h hn)
  · exact AgreeOn.refl _ _ _

/-- The guarded store sets the `prev` of the rest of the list, if there is one. -/
theorem Seg.linkBack {m : Mem} {p a q : ℕ} {cs : List Cell} (h : Seg m p a cs 0) (ha : 0 < a)
    (hq : q < 2 ^ 32) : Seg (linkBack m (if cs = [] then 0 else a) q) q a cs 0 := by
  unfold Memory.linkBack
  cases cs with
  | nil => trivial
  | cons c cs =>
    rw [if_neg (List.cons_ne_nil c cs), if_pos (by omega)]
    exact ⟨h.1.setPrev hq, h.2.congr (agreeOn_setPrev (by omega))⟩

theorem linkBack_off {m : Mem} {b v x : ℕ} {cs : List Cell} (hx : OffHeaders b cs x) :
    linkBack m (if cs = [] then 0 else b) v x = m x := by
  cases cs with
  | nil => rfl
  | cons c cs =>
    rw [if_neg (List.cons_ne_nil c cs), linkBack]
    split_ifs
    · exact setPrev_off (offHeaders_cons.mp hx).1
    · rfl

/-! ## `split_block` -/

/-- The stores of `split_block` when it splits. -/
theorem splitBlock_eq {m : Mem} {a size next prev : ℕ} {c : Cell} (h : Header m a c next prev)
    (hsplit : size + 16 + 16 ≤ c.size) (ha : a + 16 + c.size < 2 ^ 32) :
    splitBlock m a size =
      setSize (setNext (linkBack (writeHeader m (a + 16 + size) ⟨c.size - size - 16, true⟩ next a)
        next (a + 16 + size)) a (a + 16 + size)) a size := by
  have hnext : ∀ m', AgreeOn m m' a (a + 16) → blockNext m' a = next := by
    intro m' hm
    exact (h.congr hm).next
  unfold splitBlock headerSize heapMinBlockSize
  rw [h.size, u32_of_lt (by omega), if_pos hsplit]
  dsimp only
  rw [u32_of_lt (by omega), sub32_of_le (x := c.size) (y := size) (by omega) (by omega),
    sub32_of_le (by omega) (by omega)]
  -- `block->next` is read three times; none of the stores before touches it
  rw [hnext (setFree (setSize m (a + 16 + size) (c.size - size - 16)) (a + 16 + size) true)
    ((agreeOn_setSize (by omega)).trans (agreeOn_setFree (by omega)))]
  rw [hnext (setPrev (setNext (setFree (setSize m (a + 16 + size) (c.size - size - 16))
      (a + 16 + size) true) (a + 16 + size) next) (a + 16 + size) a)
    (agreeOn_writeHeader (c := ⟨c.size - size - 16, true⟩) (by omega))]
  rfl

/-- `split_block` does nothing to a block that is too small. -/
theorem splitBlock_of_lt {m : Mem} {a size next prev : ℕ} {c : Cell} (h : Header m a c next prev)
    (hsmall : ¬ size + 16 + 16 ≤ c.size) (hlt : size + 32 < 2 ^ 32) : splitBlock m a size = m := by
  unfold splitBlock headerSize heapMinBlockSize
  rw [h.size, u32_of_lt (by omega), if_neg hsmall]

/-- `split_block` followed by `current->free = false` carves the block. -/
theorem splitBlock_seg {m : Mem} {p a size : ℕ} {c : Cell} {post : List Cell}
    (h : Seg m p a (c :: post) 0) (hsize : size ≤ c.size) (hpos : 0 < a)
    (hspan : span 16 (c :: post) ≤ kheapSize) (hfit : a + span 16 (c :: post) < 2 ^ 32) :
    Seg (setFree (splitBlock m a size) a false) p a (carve 16 16 size c ++ post) 0 ∧
      AgreeOn m (setFree (splitBlock m a size) a false) 0 a := by
  obtain ⟨hh, ht⟩ := h
  simp only [span, kheapSize] at hspan hfit
  unfold carve
  by_cases hsplit : size + 16 + 16 ≤ c.size
  · rw [if_pos hsplit, splitBlock_eq hh hsplit (by omega)]
    simp only [List.cons_append, List.nil_append]
    set nb := a + 16 + size with hnb
    set next := if post = [] then 0 else a + 16 + c.size with hnext
    have hnext0 : next ≠ 0 → next = a + 16 + c.size := by rw [hnext]; split_ifs <;> simp
    set m4 := writeHeader m nb ⟨c.size - size - 16, true⟩ next a with hm4
    set m5 := linkBack m4 next nb with hm5
    have h4 : ∀ lo hi, hi ≤ nb ∨ nb + 16 ≤ lo → AgreeOn m m4 lo hi := fun lo hi hlh =>
      agreeOn_writeHeader hlh
    have h5 : ∀ lo hi, hi ≤ a + 16 + c.size → AgreeOn m4 m5 lo hi := fun lo hi hlh =>
      agreeOn_linkBack fun hn => Or.inl (by rw [hnext0 hn]; exact hlh)
    have h8 : ∀ lo hi, hi ≤ a ∨ a + 16 ≤ lo →
        AgreeOn m5 (setFree (setSize (setNext m5 a nb) a size) a false) lo hi := fun lo hi hlh =>
      ((agreeOn_setNext hlh).trans (agreeOn_setSize hlh)).trans (agreeOn_setFree hlh)
    refine ⟨⟨?_, ?_, ?_⟩, ?_⟩
    · -- the block itself
      have h' := ((hh.congr (h4 _ _ (by omega))).congr (h5 _ _ (by omega)))
      exact ((h'.setNext (by omega)).setSize (by omega)).setFree false
    · -- the new block
      have hnew : Header m4 nb ⟨c.size - size - 16, true⟩ next a :=
        header_writeHeader (by dsimp only; omega) (by rw [hnext]; split_ifs <;> omega) (by omega)
      have hlink : (if post = [] then 0 else nb + 16 + (c.size - size - 16)) = next := by
        rw [hnext, show nb + 16 + (c.size - size - 16) = a + 16 + c.size by omega]
      rw [show a + 16 + size = nb from rfl, hlink]
      exact (hnew.congr (h5 _ _ (by omega))).congr (h8 _ _ (by omega))
    · -- the blocks after it
      rw [show a + 16 + size + 16 + (c.size - size - 16) = a + 16 + c.size by omega]
      have hpost : Seg m5 nb (a + 16 + c.size) post 0 := by
        rw [hm5, hnext]
        exact (ht.congr (h4 _ _ (by omega))).linkBack (by omega) (by omega)
      exact hpost.congr (h8 _ _ (by omega))
    · exact ((h4 0 a (by omega)).trans (h5 0 a (by omega))).trans (h8 0 a (by omega))
  · rw [if_neg hsplit, splitBlock_of_lt hh hsplit (by omega)]
    exact ⟨⟨hh.setFree false, ht.congr (agreeOn_setFree (by omega))⟩, agreeOn_setFree (by omega)⟩

/-- Carving writes into the headers of the blocks it leaves only. -/
theorem splitBlock_off {m : Mem} {p a size x : ℕ} {c : Cell} {post : List Cell}
    (h : Seg m p a (c :: post) 0) (hsize : size ≤ c.size)
    (hspan : span 16 (c :: post) ≤ kheapSize) (hfit : a + span 16 (c :: post) < 2 ^ 32)
    (hx : OffHeaders a (carve 16 16 size c ++ post) x) :
    setFree (splitBlock m a size) a false x = m x := by
  have hh := h.1
  simp only [span, kheapSize] at hspan hfit
  unfold carve at hx
  by_cases hsplit : size + 16 + 16 ≤ c.size
  · simp only [if_pos hsplit, List.cons_append, List.nil_append, offHeaders_cons] at hx
    obtain ⟨hblock, hnew, hpost⟩ := hx
    rw [show a + 16 + size + 16 + (c.size - size - 16) = a + 16 + c.size by omega] at hpost
    rw [splitBlock_eq hh hsplit (by omega), setFree_off hblock, setSize_off hblock,
      setNext_off hblock, linkBack_off hpost]
    exact writeHeader_off hnew
  · simp only [if_neg hsplit, List.cons_append, List.nil_append, offHeaders_cons] at hx
    obtain ⟨hblock, -⟩ := hx
    rw [splitBlock_of_lt hh hsplit (by omega)]
    exact setFree_off hblock

/-! ## `coalesce_block` -/

/-- The stores of the first half of `coalesce_block` when the next block is free. -/
theorem coalesceNext_of_free {m : Mem} {a b next prev : ℕ} {c d : Cell} (hh : Header m a c b prev)
    (hd : Header m b d next a) (hfree : d.free = true) (hab : a + 16 ≤ b)
    (hsize : c.size + (16 + d.size) < 2 ^ 32) (hnext : next < 2 ^ 32) :
    coalesceNext m a = linkBack (setNext (setSize m a (c.size + (16 + d.size))) a next) next a := by
  have hd1 : Header (setSize m a (c.size + (16 + d.size))) b d next a :=
    hd.congr (agreeOn_setSize (by omega))
  unfold coalesceNext headerSize
  rw [hh.next, hd.free, hd.size, hh.size, if_pos ⟨by omega, by simp [hfree]⟩]
  dsimp only
  rw [u32_of_lt hsize, (hh.setSize hsize).next, hd1.next, ((hh.setSize hsize).setNext hnext).next]
  rfl

/-- It does nothing if there is no next block or the next block is used. -/
theorem coalesceNext_of_used {m : Mem} {a b prev : ℕ} {c : Cell} (hh : Header m a c b prev)
    (h : b = 0 ∨ blockFree m b = 0) : coalesceNext m a = m := by
  unfold coalesceNext
  rw [hh.next]
  obtain rfl | h := h
  · exact if_neg fun h => h.1 rfl
  · exact if_neg fun hne => hne.2 h

/-- The first half of `coalesce_block` merges the block with a free successor. -/
theorem coalesceNext_seg {m : Mem} {p a : ℕ} {c : Cell} {post : List Cell}
    (h : Seg m p a (c :: post) 0) (hc : c.free = true) (hpos : 0 < a)
    (hfit : a + span 16 (c :: post) < 2 ^ 32) :
    Seg (coalesceNext m a) p a ((forward 16 c post).1 :: (forward 16 c post).2) 0 ∧
      AgreeOn m (coalesceNext m a) 0 a := by
  obtain ⟨hh, ht⟩ := h
  simp only [span] at hfit
  cases post with
  | nil =>
    rw [coalesceNext_of_used hh (Or.inl rfl)]
    refine ⟨⟨?_, trivial⟩, AgreeOn.refl _ _ _⟩
    cases c; cases hc; exact hh
  | cons d ds =>
    simp only [span] at hfit
    obtain ⟨hd, hds⟩ := ht
    rw [if_neg (List.cons_ne_nil d ds)] at hh
    rw [forward_cons]
    set b := a + 16 + c.size with hb
    set next := if ds = [] then 0 else b + 16 + d.size with hnext
    by_cases hfree : d.free = true
    · rw [if_pos hfree]
      set m2 := setNext (setSize m a (c.size + (16 + d.size))) a next with hm2
      have h2 : ∀ lo hi, hi ≤ a ∨ a + 16 ≤ lo → AgreeOn m m2 lo hi := fun lo hi hlh =>
        (agreeOn_setSize hlh).trans (agreeOn_setNext hlh)
      have hh2 : Header m2 a ⟨c.size + (16 + d.size), c.free⟩ next p :=
        (hh.setSize (by omega)).setNext (by rw [hnext]; split_ifs <;> omega)
      have hm : coalesceNext m a = linkBack m2 next a :=
        coalesceNext_of_free hh hd hfree (by omega) (by omega) (by rw [hnext]; split_ifs <;> omega)
      have hl : ∀ lo hi, hi ≤ b + 16 + d.size → AgreeOn m2 (linkBack m2 next a) lo hi :=
        fun lo hi hlh => agreeOn_linkBack fun hn => Or.inl (by
          rw [hnext] at hn ⊢
          split_ifs at hn ⊢
          · exact absurd rfl hn
          · exact hlh)
      rw [hm]
      refine ⟨⟨?_, ?_⟩, (h2 0 a (by omega)).trans (hl 0 a (by omega))⟩
      · rw [show a + 16 + (c.size + (16 + d.size)) = b + 16 + d.size by omega, ← hnext, ← hc]
        exact hh2.congr (hl _ _ (by omega))
      · rw [show a + 16 + (c.size + (16 + d.size)) = b + 16 + d.size by omega, hnext]
        exact (hds.congr (h2 _ _ (by omega))).linkBack (by omega) (by omega)
    · rw [if_neg hfree, coalesceNext_of_used hh (Or.inr (by rw [hd.free, if_neg hfree]))]
      refine ⟨⟨?_, hd, hds⟩, AgreeOn.refl _ _ _⟩
      rw [if_neg (List.cons_ne_nil d ds)]
      cases c; cases hc; exact hh

/-- The first half writes into headers only. -/
theorem coalesceNext_off {m : Mem} {p a x : ℕ} {c : Cell} {post : List Cell}
    (h : Seg m p a (c :: post) 0) (hfit : a + span 16 (c :: post) < 2 ^ 32)
    (hx : OffHeaders a (c :: post) x) : coalesceNext m a x = m x := by
  obtain ⟨hh, ht⟩ := h
  obtain ⟨hblock, hpost⟩ := offHeaders_cons.mp hx
  cases post with
  | nil => rw [coalesceNext_of_used hh (Or.inl rfl)]
  | cons d ds =>
    simp only [span] at hfit
    rw [if_neg (List.cons_ne_nil d ds)] at hh
    obtain ⟨hd, -⟩ := ht
    by_cases hfree : d.free = true
    · rw [coalesceNext_of_free hh hd hfree (by omega) (by omega) (by split_ifs <;> omega),
        linkBack_off (offHeaders_cons.mp hpost).2, setNext_off hblock]
      exact setSize_off hblock
    · rw [coalesceNext_of_used hh (Or.inr (by rw [hd.free, if_neg hfree]))]

/-- The stores of the second half of `coalesce_block` when the previous block is free. -/
theorem coalescePrev_of_free {m : Mem} {a b next prev : ℕ} {c e : Cell} (hh : Header m a c next b)
    (he : Header m b e a prev) (hfree : e.free = true) (hpos : 0 < b) (hab : b + 16 ≤ a)
    (hsize : e.size + (16 + c.size) < 2 ^ 32) :
    coalescePrev m a = linkBack (setNext (setSize m b (e.size + (16 + c.size))) b next) next b := by
  have h1 : Header (setSize m b (e.size + (16 + c.size))) a c next b :=
    hh.congr (agreeOn_setSize (by omega))
  have h2 : Header (setNext (setSize m b (e.size + (16 + c.size))) b next) a c next b :=
    h1.congr (agreeOn_setNext (by omega))
  unfold coalescePrev headerSize
  rw [hh.prev, he.free, he.size, hh.size, if_pos ⟨by omega, by simp [hfree]⟩]
  dsimp only
  rw [u32_of_lt hsize, h1.prev, h1.next, h2.next, h2.prev]
  rfl

/-- It does nothing if there is no previous block or the previous block is used. -/
theorem coalescePrev_of_used {m : Mem} {a b next : ℕ} {c : Cell} (hh : Header m a c next b)
    (h : b = 0 ∨ blockFree m b = 0) : coalescePrev m a = m := by
  unfold coalescePrev
  rw [hh.prev]
  obtain rfl | h := h
  · exact if_neg fun h => h.1 rfl
  · exact if_neg fun hne => hne.2 h

/-- The second half of `coalesce_block` merges the block into a free predecessor. -/
theorem coalescePrev_repr {m : Mem} {base : ℕ} {pre : List Cell} {c : Cell} {post : List Cell}
    (h : Repr m base (pre ++ c :: post)) (hpos : 0 < base)
    (hfit : base + span 16 (pre ++ c :: post) < 2 ^ 32) :
    Repr (coalescePrev m (base + span 16 pre)) base (backward 16 pre c post) := by
  obtain ⟨hpre, hh, ht⟩ := seg_append.mp h
  rw [span_append] at hfit
  simp only [span] at hfit
  rcases List.eq_nil_or_concat pre with rfl | ⟨pre, e, rfl⟩
  · rw [coalescePrev_of_used hh (Or.inl rfl)]
    exact h
  · rw [List.concat_eq_append] at *
    rw [backward_concat]
    rw [lastAddr_concat] at hh
    obtain ⟨hpre', he, -⟩ := seg_append.mp hpre
    rw [if_pos rfl] at he
    rw [span_append] at *
    simp only [span] at *
    -- `e` is the predecessor at `b`, `c` the block at `a`
    set b := base + span 16 pre with hb
    rw [show base + (span 16 pre + (16 + e.size + 0)) = b + 16 + e.size by omega] at *
    set a := b + 16 + e.size with ha
    set next := if post = [] then 0 else a + 16 + c.size with hnext
    by_cases hfree : e.free = true
    · rw [if_pos hfree]
      set m2 := setNext (setSize m b (e.size + (16 + c.size))) b next with hm2
      have h2 : ∀ lo hi, hi ≤ b ∨ b + 16 ≤ lo → AgreeOn m m2 lo hi := fun lo hi hlh =>
        (agreeOn_setSize hlh).trans (agreeOn_setNext hlh)
      have he2 : Header m2 b ⟨e.size + (16 + c.size), e.free⟩ next (lastAddr 0 base pre) :=
        (he.setSize (by omega)).setNext (by rw [hnext]; split_ifs <;> omega)
      have hm : coalescePrev m a = linkBack m2 next b :=
        coalescePrev_of_free hh he hfree (by omega) (by omega) (by omega)
      have hl : ∀ lo hi, hi ≤ a + 16 + c.size → AgreeOn m2 (linkBack m2 next b) lo hi :=
        fun lo hi hlh => agreeOn_linkBack fun hn => Or.inl (by
          rw [hnext] at hn ⊢
          split_ifs at hn ⊢
          · exact absurd rfl hn
          · exact hlh)
      rw [hm]
      refine seg_append.mpr ⟨?_, ?_, ?_⟩
      · exact (hpre'.congr (h2 _ _ (by omega))).congr (hl _ _ (by omega))
      · rw [← hb, show b + 16 + (e.size + (16 + c.size)) = a + 16 + c.size by omega, ← hnext,
          ← hfree]
        exact he2.congr (hl _ _ (by omega))
      · rw [← hb, show b + 16 + (e.size + (16 + c.size)) = a + 16 + c.size by omega, hnext]
        exact (ht.congr (h2 _ _ (by omega))).linkBack (by omega) (by omega)
    · rw [if_neg hfree, coalescePrev_of_used hh (Or.inr (by rw [he.free, if_neg hfree]))]
      exact h

/-- The second half writes into headers only. -/
theorem coalescePrev_off {m : Mem} {base x : ℕ} {pre : List Cell} {c : Cell} {post : List Cell}
    (h : Repr m base (pre ++ c :: post)) (hpos : 0 < base)
    (hfit : base + span 16 (pre ++ c :: post) < 2 ^ 32)
    (hx : OffHeaders base (pre ++ c :: post) x) : coalescePrev m (base + span 16 pre) x = m x := by
  obtain ⟨hpre, hh, -⟩ := seg_append.mp h
  obtain ⟨hxpre, hxpost⟩ := offHeaders_append.mp hx
  rw [span_append] at hfit
  simp only [span] at hfit
  rcases List.eq_nil_or_concat pre with rfl | ⟨pre, e, rfl⟩
  · rw [coalescePrev_of_used hh (Or.inl rfl)]
  · rw [List.concat_eq_append] at *
    rw [lastAddr_concat] at hh
    obtain ⟨-, he, -⟩ := seg_append.mp hpre
    rw [if_pos rfl] at he
    have hprev := (offHeaders_cons.mp (offHeaders_append.mp hxpre).2).1
    have hlast : span 16 (pre ++ [e]) = span 16 pre + (16 + e.size) := by
      rw [span_append]
      rfl
    by_cases hfree : e.free = true
    · rw [coalescePrev_of_free hh he hfree (by omega) (by omega) (by omega),
        linkBack_off (offHeaders_cons.mp hxpost).2, setNext_off hprev]
      exact setSize_off hprev
    · rw [coalescePrev_of_used hh (Or.inr (by rw [he.free, if_neg hfree]))]

end NexusKernel.Memory
