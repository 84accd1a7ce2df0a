import NexusKernel.Memory.Pmm

/-!
# Frame ownership and accounting

`used_frames` and the bitmap are updated separately by every operation of the
allocator. `Accounted` says that they agree; it holds after `pmm_init` on a
memory map of disjoint regions and is kept by every operation.

Results:
* `accounted_step`: one operation with any address keeps `Accounted`.
* `bit_pmmRun_of_not_frees`: a set bit stays set as long as its frame is not freed.
* `pmm_frame_accounting`: the counter, the free count and the ownership of frames
  in every state reached.
-/

namespace NexusKernel.Memory

open Bitmap

/-! ## The invariant -/

/-- The counter is the number of set bits below `total_frames`, and everything
    above is marked used. -/
structure Accounted (s : Pmm) : Prop where
  used_eq : s.usedFrames = count (bit s.frameBitmap) s.totalFrames
  total_le : s.totalFrames ≤ 131072
  above_set : ∀ f, s.totalFrames ≤ f → f < 131072 → bit s.frameBitmap f = true

theorem Accounted.used_le {s : Pmm} (hs : Accounted s) : s.usedFrames ≤ s.totalFrames := by
  rw [hs.used_eq]
  exact count_le _ _

/-- The free count is the number of clear bits. -/
theorem Accounted.free_eq {s : Pmm} (hs : Accounted s) :
    pmmGetFreeFrames s = count (fun f => !bit s.frameBitmap f) s.totalFrames := by
  have hsum := count_add_count_not (bit s.frameBitmap) s.totalFrames
  have hused := hs.used_eq
  have htotal := hs.total_le
  rw [pmmGetFreeFrames, sub32_of_le (by omega) hs.used_le]
  omega

theorem bit_takeFrame (s : Pmm) (f : ℕ) :
    bit (takeFrame s f).frameBitmap = Function.update (bit s.frameBitmap) f true :=
  bit_setBit s.frameBitmap f

theorem bit_releaseFrame (s : Pmm) (f : ℕ) :
    bit (releaseFrame s f).frameBitmap = Function.update (bit s.frameBitmap) f false :=
  bit_clearBit s.frameBitmap f

theorem accounted_takeFrame {s : Pmm} (hs : Accounted s) {f : ℕ} (hf : f < s.totalFrames)
    (hbit : bit s.frameBitmap f = false) : Accounted (takeFrame s f) := by
  have hcount := count_update_of_lt (bit s.frameBitmap) hf true
  have hused := hs.used_eq
  have htotal := hs.total_le
  have hle := count_le (Function.update (bit s.frameBitmap) f true) s.totalFrames
  simp only [hbit, Bool.false_eq_true, if_false, if_true] at hcount
  refine ⟨?_, htotal, ?_⟩
  · show u32 (s.usedFrames + 1) = count (bit (takeFrame s f).frameBitmap) s.totalFrames
    rw [bit_takeFrame, u32_of_lt (by omega)]
    omega
  · intro g hg hlt
    have hne : g ≠ f := by rintro rfl; exact absurd hf (Nat.not_lt.mpr hg)
    rw [bit_takeFrame, Function.update_of_ne hne]
    exact hs.above_set g hg hlt

theorem accounted_releaseFrame {s : Pmm} (hs : Accounted s) {f : ℕ} (hf : f < s.totalFrames)
    (hbit : bit s.frameBitmap f = true) : Accounted (releaseFrame s f) := by
  have hcount := count_update_of_lt (bit s.frameBitmap) hf false
  have hused := hs.used_eq
  have htotal := hs.total_le
  have hle := hs.used_le
  simp only [hbit, Bool.false_eq_true, if_false, if_true] at hcount
  refine ⟨?_, htotal, ?_⟩
  · show sub32 s.usedFrames 1 = count (bit (releaseFrame s f).frameBitmap) s.totalFrames
    rw [bit_releaseFrame, sub32_of_le (by omega) (by omega)]
    omega
  · intro g hg hlt
    have hne : g ≠ f := by rintro rfl; exact absurd hf (Nat.not_lt.mpr hg)
    rw [bit_releaseFrame, Function.update_of_ne hne]
    exact hs.above_set g hg hlt

/-! ## Operations -/

/-- The operations of the allocator. -/
inductive PmmOp where
  | allocFrame
  | freeFrame (a : ℕ)
  | markUsed (a : ℕ)
  | markFree (a : ℕ)

/-- The state after one operation. -/
def pmmStep (s : Pmm) : PmmOp → Pmm
  | .allocFrame => (pmmAllocFrame s).2
  | .freeFrame a => pmmFreeFrame s a
  | .markUsed a => pmmMarkUsed s a
  | .markFree a => pmmMarkFree s a

/-- The state after a sequence of operations. -/
def pmmRun (s : Pmm) (ops : List PmmOp) : Pmm := ops.foldl pmmStep s

/-- `pmm_alloc_frame` hands out frame `f`: its search does not fail and finds `f`. -/
def HandsOut (s : Pmm) (f : ℕ) : Prop := bitmapFindFree s ≠ 2 ^ 32 - 1 ∧ bitmapFindFree s = f

/-- The operation frees frame `f`. -/
def PmmOp.Frees (f : ℕ) : PmmOp → Prop
  | .freeFrame a => a / pageSize = f
  | .markFree a => a / pageSize = f
  | _ => False

theorem bitmapFindFree_eq_of_some {s : Pmm} {f : ℕ} (h : findFree s = some f) :
    bitmapFindFree s = f := by
  rw [bitmapFindFree, h]; rfl

theorem bitmapFindFree_eq_of_none {s : Pmm} (h : findFree s = none) :
    bitmapFindFree s = 2 ^ 32 - 1 := by
  rw [bitmapFindFree, h]; rfl

theorem handsOut_iff {s : Pmm} (htotal : s.totalFrames ≤ 131072) (f : ℕ) :
    HandsOut s f ↔ findFree s = some f := by
  unfold HandsOut
  cases h : findFree s with
  | none => simp [bitmapFindFree_eq_of_none h]
  | some g =>
    have hg := ((findFree_eq_some_iff s g).mp h).1
    rw [bitmapFindFree_eq_of_some h, Option.some_inj]
    exact and_iff_right (by omega)

theorem pmmAllocFrame_of_handsOut {s : Pmm} {f : ℕ} (h : HandsOut s f) :
    pmmAllocFrame s = (u32 (f * pageSize), takeFrame s f) := by
  obtain ⟨hne, rfl⟩ := h
  exact if_neg hne

theorem pmmAllocFrame_of_full {s : Pmm} (h : bitmapFindFree s = 2 ^ 32 - 1) :
    pmmAllocFrame s = (0, s) := if_pos h

/-- The scan of `pmm_alloc_frame` can find frame `f` in state `s`. -/
def Findable (s : Pmm) (f : ℕ) : Prop :=
  f < 8 * (s.totalFrames / 8) ∧ bit s.frameBitmap f = false

/-- `pmm_alloc_frame` fails when it can find nothing, and else takes the lowest
    frame it can find. -/
theorem pmmAllocFrame_cases {s : Pmm} (htotal : s.totalFrames ≤ 131072) :
    (pmmAllocFrame s = (0, s) ∧ ∀ f, ¬ Findable s f) ∨
      ∃ f, pmmAllocFrame s = (f * pageSize, takeFrame s f) ∧ Findable s f ∧
        ∀ g, Findable s g → f ≤ g := by
  cases h : findFree s with
  | none =>
    left
    refine ⟨pmmAllocFrame_of_full (bitmapFindFree_eq_of_none h), ?_⟩
    intro f hf
    exact Bool.noConfusion (((findFree_eq_none_iff s).mp h f hf.1).symm.trans hf.2)
  | some f =>
    right
    obtain ⟨hf, hbit, hlow⟩ := (findFree_eq_some_iff s f).mp h
    refine ⟨f, ?_, ⟨hf, hbit⟩, ?_⟩
    · rw [pmmAllocFrame_of_handsOut ((handsOut_iff htotal f).mpr h),
        u32_of_lt (by unfold pageSize; omega)]
    · intro g hg
      by_contra hlt
      exact Bool.noConfusion ((hlow g (Nat.not_le.mp hlt)).symm.trans hg.2)

theorem Findable.lt_total {s : Pmm} {f : ℕ} (h : Findable s f) : f < s.totalFrames := by
  have := h.1
  omega

theorem pmmAllocFrame_of_lowest {s : Pmm} (htotal : s.totalFrames ≤ 131072) {f : ℕ}
    (hf : Findable s f) (hlow : ∀ g, Findable s g → f ≤ g) :
    pmmAllocFrame s = (f * pageSize, takeFrame s f) := by
  obtain ⟨-, hnone⟩ | ⟨g, h, hg, hlow'⟩ := pmmAllocFrame_cases htotal
  · exact absurd hf (hnone f)
  · rw [h, le_antisymm (hlow' f hf) (hlow g hg)]

theorem findable_takeFrame (s : Pmm) (f g : ℕ) :
    Findable (takeFrame s f) g ↔ Findable s g ∧ g ≠ f := by
  unfold Findable
  rw [bit_takeFrame]
  by_cases hg : g = f
  · subst hg; simp
  · rw [Function.update_of_ne hg]
    exact (and_iff_left hg).symm

/-! ## One operation -/

theorem accounted_pmmAllocFrame {s : Pmm} (hs : Accounted s) : Accounted (pmmAllocFrame s).2 := by
  obtain ⟨h, -⟩ | ⟨f, h, hf, -⟩ := pmmAllocFrame_cases hs.total_le
  · rw [h]
    exact hs
  · rw [h]
    exact accounted_takeFrame hs hf.lt_total hf.2

theorem accounted_pmmFreeFrame {s : Pmm} (hs : Accounted s) (a : ℕ) :
    Accounted (pmmFreeFrame s a) := by
  rw [pmmFreeFrame_eq]
  split_ifs with h
  · exact accounted_releaseFrame hs h.1 h.2
  · exact hs

theorem accounted_pmmMarkUsed {s : Pmm} (hs : Accounted s) (a : ℕ) :
    Accounted (pmmMarkUsed s a) := by
  rw [pmmMarkUsed_eq]
  split_ifs with h
  · exact accounted_takeFrame hs h.1 h.2
  · exact hs

/-- Every operation, with any address, keeps the counter and the bitmap in step. -/
theorem accounted_step {s : Pmm} (hs : Accounted s) (op : PmmOp) : Accounted (pmmStep s op) := by
  cases op with
  | allocFrame => exact accounted_pmmAllocFrame hs
  | freeFrame a => exact accounted_pmmFreeFrame hs a
  | markUsed a => exact accounted_pmmMarkUsed hs a
  | markFree a => exact accounted_pmmFreeFrame hs a

theorem accounted_pmmRun {s : Pmm} (hs : Accounted s) (ops : List PmmOp) :
    Accounted (pmmRun s ops) := by
  induction ops generalizing s with
  | nil => exact hs
  | cons op ops ih => exact ih (accounted_step hs op)

/-! ## Ownership -/

theorem bit_pmmFreeFrame_of_ne {s : Pmm} {a f : ℕ} (hne : a / pageSize ≠ f) :
    bit (pmmFreeFrame s a).frameBitmap f = bit s.frameBitmap f := by
  rw [pmmFreeFrame_eq]
  split_ifs
  · rw [bit_releaseFrame, Function.update_of_ne hne.symm]
  · rfl

theorem bit_takeFrame_of_set {s : Pmm} {g f : ℕ} (hbit : bit s.frameBitmap f = true) :
    bit (takeFrame s g).frameBitmap f = true := by
  rw [bit_takeFrame, Function.update_apply]
  split_ifs
  · rfl
  · exact hbit

/-- Only freeing a frame clears its bit. -/
theorem bit_step_of_not_frees {s : Pmm} (op : PmmOp) {f : ℕ} (hbit : bit s.frameBitmap f = true)
    (hop : ¬ op.Frees f) : bit (pmmStep s op).frameBitmap f = true := by
  cases op with
  | allocFrame =>
    show bit (pmmAllocFrame s).2.frameBitmap f = true
    by_cases hfull : bitmapFindFree s = 2 ^ 32 - 1
    · rw [pmmAllocFrame_of_full hfull]
      exact hbit
    · rw [pmmAllocFrame_of_handsOut ⟨hfull, rfl⟩]
      exact bit_takeFrame_of_set hbit
  | freeFrame a => exact (bit_pmmFreeFrame_of_ne hop).trans hbit
  | markUsed a =>
    show bit (pmmMarkUsed s a).frameBitmap f = true
    rw [pmmMarkUsed_eq]
    split_ifs
    · exact bit_takeFrame_of_set hbit
    · exact hbit
  | markFree a => exact (bit_pmmFreeFrame_of_ne hop).trans hbit

theorem bit_pmmRun_of_not_frees {s : Pmm} {ops : List PmmOp} {f : ℕ}
    (hbit : bit s.frameBitmap f = true) (hops : ∀ op ∈ ops, ¬ op.Frees f) :
    bit (pmmRun s ops).frameBitmap f = true := by
  induction ops generalizing s with
  | nil => exact hbit
  | cons op ops ih =>
    rw [List.forall_mem_cons] at hops
    exact ih (bit_step_of_not_frees op hbit hops.1) hops.2

/-! ## Initialisation -/

theorem accounted_allUsed (s : Pmm) (total : ℕ) : Accounted (allUsed s total) := by
  have htotal : (allUsed s total).totalFrames ≤ 131072 := by
    rw [allUsed_totalFrames]; omega
  refine ⟨?_, htotal, fun f _ hf => allUsed_bit s total hf⟩
  rw [count_eq_self fun f hf => allUsed_bit s total (by omega)]
  rfl

theorem accounted_foldl_releaseFrame {l : List ℕ} {s : Pmm} (hs : Accounted s) (hnodup : l.Nodup)
    (hl : ∀ f ∈ l, f < s.totalFrames ∧ bit s.frameBitmap f = true) :
    Accounted (l.foldl releaseFrame s) := by
  induction l generalizing s with
  | nil => exact hs
  | cons f l ih =>
    rw [List.forall_mem_cons] at hl
    rw [List.nodup_cons] at hnodup
    apply ih (accounted_releaseFrame hs hl.1.1 hl.1.2) hnodup.2
    intro g hg
    have hne : g ≠ f := by rintro rfl; exact hnodup.1 hg
    rw [bit_releaseFrame, Function.update_of_ne hne]
    exact hl.2 g hg

theorem accounted_releaseBody {s : Pmm} {e : MmapEntry} (hs : Accounted s)
    (hset : ∀ f, Releases s.totalFrames e f → bit s.frameBitmap f = true) :
    Accounted (releaseBody s e) := by
  unfold releaseBody
  split_ifs with htype
  · apply accounted_foldl_releaseFrame hs List.nodup_range'
    intro f hf
    have hf := List.mem_range'_1.mp hf
    have hrel : Releases s.totalFrames e f := ⟨htype, by omega, by omega, by omega⟩
    exact ⟨hrel.2.2.2, hset f hrel⟩
  · exact hs

/-- Walking over entries that release different frames keeps the counter exact. -/
theorem accounted_foldl_releaseBody {es : List MmapEntry} {s : Pmm} (hs : Accounted s)
    (hdisj : es.Pairwise fun d e => ∀ f, Releases s.totalFrames d f → ¬ Releases s.totalFrames e f)
    (hset : ∀ e ∈ es, ∀ f, Releases s.totalFrames e f → bit s.frameBitmap f = true) :
    Accounted (es.foldl releaseBody s) := by
  induction es generalizing s with
  | nil => exact hs
  | cons e es ih =>
    rw [List.forall_mem_cons] at hset
    rw [List.pairwise_cons] at hdisj
    apply ih (accounted_releaseBody hs hset.1)
    · rw [releaseBody_totalFrames]
      exact hdisj.2
    · intro d hd f hf
      rw [releaseBody_totalFrames] at hf
      rw [releaseBody_bit]
      exact ⟨hset.2 d hd f hf, fun he => hdisj.1 d hd f he hf⟩

theorem accounted_reserveBody {s : Pmm} (hs : Accounted s) {i : ℕ} (hi : i < 131072) :
    Accounted (reserveBody s i) := by
  unfold reserveBody bitmapTest
  rw [testBit_eq]
  split_ifs with h
  · refine accounted_takeFrame hs ?_ h
    -- a clear bit is below `total_frames`
    by_contra hge
    rw [hs.above_set i (Nat.not_lt.mp hge) hi] at h
    exact Bool.noConfusion h
  · exact hs

theorem accounted_foldl_reserveBody {l : List ℕ} {s : Pmm} (hs : Accounted s)
    (hl : ∀ i ∈ l, i < 131072) : Accounted (l.foldl reserveBody s) := by
  induction l generalizing s with
  | nil => exact hs
  | cons i l ih =>
    rw [List.forall_mem_cons] at hl
    exact ih (accounted_reserveBody hs hl.1) hl.2

/-- The addresses of a region. -/
def MmapEntry.region (e : MmapEntry) : Set ℕ := Set.Ico e.addr (e.addr + e.len)

/-- A frame that a region below `0xFFFFF000` releases lies in the region. -/
theorem mem_region_of_releases {total : ℕ} {e : MmapEntry} {f : ℕ}
    (hend : e.addr + e.len ≤ 0xFFFFF000) (h : Releases total e f) : f * pageSize ∈ e.region := by
  obtain ⟨-, hstart, hlt, -⟩ := h
  unfold frameStart at hstart
  unfold frameEnd at hlt
  rw [u32_of_lt (x := e.addr) (by omega)] at hstart hlt
  rw [u32_of_lt (x := e.len) (by omega), u32_of_lt (by omega)] at hlt
  unfold pageSize at *
  rw [u32_of_lt (by omega)] at hstart
  show e.addr ≤ f * 4096 ∧ f * 4096 < e.addr + e.len
  omega

/-- The memory map `pmm_init` is given: well-formed, with disjoint regions that
    end at or below `0xFFFFF000`; or no map and a `mem_upper` that does not wrap. -/
inductive AccountableBoot (mem : Mem) (mbi : MultibootInfo) : Prop where
  | map (es : List MmapEntry) (hmap : MemoryMap mem mbi es)
      (hdisj : es.Pairwise fun d e => Disjoint d.region e.region)
      (hend : ∀ e ∈ es, e.addr + e.len ≤ 0xFFFFF000)
  | noMap (hflag : mbi.flags &&& 0x20 = 0) (hmem : mbi.memUpper < 2 ^ 32 - 1024)

theorem accounted_bootPmm (s : Pmm) {es : List MmapEntry}
    (hdisj : es.Pairwise fun d e => Disjoint d.region e.region)
    (hend : ∀ e ∈ es, e.addr + e.len ≤ 0xFFFFF000) : Accounted (bootPmm s es) := by
  have hall := accounted_allUsed s (es.foldl memEndBody 0 / pageSize)
  apply accounted_foldl_reserveBody
  · apply accounted_foldl_releaseBody hall
    · refine hdisj.imp_of_mem ?_
      intro d e hd he hde f hf hf'
      exact Set.disjoint_left.mp hde (mem_region_of_releases (hend d hd) hf)
        (mem_region_of_releases (hend e he) hf')
    · intro e _ f hf
      exact allUsed_bit s _ (hf.2.2.2.trans_le hall.total_le)
  · intro i hi
    have := List.mem_range.mp hi
    omega

/-- `pmm_init` returns, and leaves the counter and the bitmap in step. -/
theorem accounted_pmmInit {mem : Mem} {mbi : MultibootInfo} (hboot : AccountableBoot mem mbi)
    (s₀ : Pmm) : ∃ s, (∃ n, ∀ fuel > n, pmmInit fuel mem mbi s₀ = some s) ∧ Accounted s := by
  cases hboot with
  | map es hmap hdisj hend =>
    exact ⟨bootPmm s₀ es, ⟨es.length, fun fuel hfuel => pmmInit_eq hmap s₀ hfuel⟩,
      accounted_bootPmm s₀ hdisj hend⟩
  | noMap hflag hmem =>
    refine ⟨allUsed s₀ (u32 (mbi.memUpper + 1024) / 4), ⟨0, ?_⟩, accounted_allUsed s₀ _⟩
    intro fuel _
    rw [pmmInit, if_pos hflag]

/-! ## Every run -/

/-- In every state reached after `pmm_init`: `used_frames` is the number of set
    bits below `total_frames`, so that the free count is exact; every bit above
    is set; a frame handed out is below `total_frames` and is not handed out again
    before it has been freed. -/
theorem pmm_frame_accounting (mem : Mem) (mbi : MultibootInfo) (s₀ : Pmm)
    (hboot : AccountableBoot mem mbi) :
    ∃ s, (∃ n, ∀ fuel > n, pmmInit fuel mem mbi s₀ = some s) ∧
      ∀ ops t, pmmRun s ops = t →
        t.usedFrames = count (bit t.frameBitmap) t.totalFrames ∧
        pmmGetFreeFrames t = count (fun f => !bit t.frameBitmap f) t.totalFrames ∧
        (∀ f, t.totalFrames ≤ f → f < bitmapSize * 8 → bit t.frameBitmap f = true) ∧
        ∀ f, HandsOut t f →
          f < t.totalFrames ∧ (pmmAllocFrame t).1 = f * pageSize ∧
          ∀ ops', (∀ op ∈ ops', ¬ op.Frees f) →
            ¬ HandsOut (pmmRun (pmmStep t .allocFrame) ops') f := by
  obtain ⟨s, hinit, hs⟩ := accounted_pmmInit hboot s₀
  refine ⟨s, hinit, ?_⟩
  rintro ops t rfl
  have ht := accounted_pmmRun hs ops
  refine ⟨ht.used_eq, ht.free_eq, ht.above_set, ?_⟩
  intro f hf
  have hfree := (handsOut_iff ht.total_le f).mp hf
  obtain ⟨hlt, -, -⟩ := (findFree_eq_some_iff _ f).mp hfree
  have htotal := ht.total_le
  refine ⟨by omega, ?_, ?_⟩
  · rw [pmmAllocFrame_of_handsOut hf]
    exact u32_of_lt (by unfold pageSize; omega)
  · intro ops' hops hagain
    have ht' := accounted_pmmRun (accounted_step ht .allocFrame) ops'
    have hagain := (findFree_eq_some_iff _ f).mp ((handsOut_iff ht'.total_le f).mp hagain)
    have hset : bit (pmmStep (pmmRun s ops) .allocFrame).frameBitmap f = true := by
      show bit (pmmAllocFrame (pmmRun s ops)).2.frameBitmap f = true
      rw [pmmAllocFrame_of_handsOut hf, bit_takeFrame, Function.update_self]
    exact Bool.noConfusion ((bit_pmmRun_of_not_frees hset hops).symm.trans hagain.2.1)

/-- A memory that holds the words `ws` from `a` on, and zero elsewhere. -/
def wordsAt (a : ℕ) (ws : List ℕ) : Mem :=
  (ws.zipIdx.foldl (fun m w => write32 m (a + 4 * w.2) w.1)) fun _ => 0

/-- A map at `0x9000` with the usual low memory and 64 KiB above one megabyte. -/
def smallMem : Mem :=
  wordsAt 0x9000 [20, 0, 0, 0x9FC00, 0, 1, 20, 0x100000, 0, 0x10000, 0, 1]

def smallMap : List MmapEntry := [⟨20, 0, 0x9FC00, 1⟩, ⟨20, 0x100000, 0x10000, 1⟩]

def smallInfo : MultibootInfo := ⟨0x20, 0, 48, 0x9000⟩

theorem memoryMap_small : MemoryMap smallMem smallInfo smallMap where
  present := by decide
  entries := ⟨by decide +kernel, by decide +kernel, trivial⟩
  length_eq := by decide
  fits := by decide

theorem disjoint_smallMap : smallMap.Pairwise fun d e => Disjoint d.region e.region := by
  refine List.pairwise_pair.mpr (Set.disjoint_left.mpr ?_)
  intro x hx hx'
  exact absurd (hx.2.trans_le (show 0 + 0x9FC00 ≤ 0x100000 by decide)) (Nat.not_lt.mpr hx'.1)

theorem pmm_frame_accounting_small :
    AccountableBoot smallMem smallInfo ∧
      ∃ s, (∃ n, ∀ fuel > n, pmmInit fuel smallMem smallInfo ⟨fun _ => 0, 0, 0⟩ = some s) ∧
        HandsOut s 256 ∧
        ¬ HandsOut (pmmRun (pmmStep s .allocFrame) [.markUsed 0x101000, .allocFrame]) 256 := by
  have hboot : AccountableBoot smallMem smallInfo :=
    .map smallMap memoryMap_small disjoint_smallMap (by decide)
  obtain ⟨s, ⟨n, hinit⟩, hruns⟩ :=
    pmm_frame_accounting smallMem smallInfo ⟨fun _ => 0, 0, 0⟩ hboot
  have hs : s = bootPmm ⟨fun _ => 0, 0, 0⟩ smallMap := by
    have h := pmmInit_eq memoryMap_small ⟨fun _ => 0, 0, 0⟩ (show 2 < n + 3 by omega)
    rw [hinit _ (by omega)] at h
    exact Option.some_inj.mp h
  have hfirst : HandsOut s 256 := by
    have hfind : bitmapFindFree (bootPmm ⟨fun _ => 0, 0, 0⟩ smallMap) = 256 := by decide +kernel
    rw [hs, HandsOut, hfind]
    decide
  refine ⟨hboot, s, ⟨n, hinit⟩, hfirst, ?_⟩
  refine ((hruns [] s rfl).2.2.2 256 hfirst).2.2 _ ?_
  simp [PmmOp.Frees]

end NexusKernel.Memory
