import NexusKernel.Memory.MemoryMaps

/-!
# When `pmm_alloc_frame` fails

The scan of `bitmap_find_free` looks at `total_frames / 8` whole bytes, so that the
frames of a last, partial byte are never found; and the address 0 that reports a
failure is also the address of frame 0.

Results:
* `allocExact_iff`: in any state, exactly when an allocation fails for lack of free
  frames only and otherwise returns the lowest one.
* `pmmAllocFrame_exact_iff`: the same in every state reached after `pmm_init`.
* `allocExact_run`: it does so along every run that frees no frame 0, if the counter
  starts right and `total_frames` is a multiple of eight.
* `last_frames_not_found`: four free frames that no allocation finds.
-/

namespace NexusKernel.Memory

open Bitmap

/-! ## One allocation -/

/-- An allocation returns 0 iff `pmm_get_free_frames` is 0, and then changes nothing;
    otherwise it returns the address of the lowest free frame. -/
structure AllocExact (s : Pmm) : Prop where
  fails_iff : (pmmAllocFrame s).1 = 0 ↔ pmmGetFreeFrames s = 0
  unchanged : pmmGetFreeFrames s = 0 → (pmmAllocFrame s).2 = s
  lowest : pmmGetFreeFrames s ≠ 0 → ∃ f < s.totalFrames, bit s.frameBitmap f = false ∧
    (∀ g < f, bit s.frameBitmap g = true) ∧ (pmmAllocFrame s).1 = f * pageSize

/-- What an allocation needs: the free count is 0 iff there is no free frame in the
    bytes the scan looks at, and frame 0 is not free. -/
def ScanDecides (s : Pmm) : Prop :=
  (pmmGetFreeFrames s = 0 ↔ ∀ f, ¬ Findable s f) ∧ ¬ Findable s 0

theorem takeFrame_ne {s : Pmm} {f : ℕ} (hbit : bit s.frameBitmap f = false) : takeFrame s f ≠ s := by
  intro h
  have hset : bit (takeFrame s f).frameBitmap f = true := by
    rw [bit_takeFrame, Function.update_self]
  rw [h, hbit] at hset
  exact Bool.noConfusion hset

/-- A frame that the scan finds first is the lowest free frame of all. -/
theorem set_below_of_lowest {s : Pmm} {f : ℕ} (hf : Findable s f)
    (hlow : ∀ g, Findable s g → f ≤ g) {g : ℕ} (hg : g < f) : bit s.frameBitmap g = true := by
  by_contra hclear
  exact absurd (hlow g ⟨hg.trans hf.1, Bool.of_not_eq_true hclear⟩) (Nat.not_le.mpr hg)

/-- In any state an allocation is exact iff the scan decides it. -/
theorem allocExact_iff {s : Pmm} (htotal : s.totalFrames ≤ 131072) :
    AllocExact s ↔ ScanDecides s := by
  obtain ⟨halloc, hnone⟩ | ⟨f, halloc, hf, hlow⟩ := pmmAllocFrame_cases htotal
  · constructor
    · intro hexact
      have hzero := hexact.fails_iff.mp (congrArg Prod.fst halloc)
      exact ⟨iff_of_true hzero hnone, hnone 0⟩
    · intro hscan
      have hzero := hscan.1.mpr hnone
      exact ⟨iff_of_true (congrArg Prod.fst halloc) hzero, fun _ => congrArg Prod.snd halloc,
        fun h => absurd hzero h⟩
  · have hfst : (pmmAllocFrame s).1 = f * pageSize := congrArg Prod.fst halloc
    have hzero_iff : f * pageSize = 0 ↔ f = 0 := by
      unfold pageSize
      omega
    constructor
    · intro hexact
      -- a frame is taken, so the free count is not 0
      have hfree : pmmGetFreeFrames s ≠ 0 := by
        intro h
        have hsame := hexact.unchanged h
        rw [halloc] at hsame
        exact takeFrame_ne hf.2 hsame
      refine ⟨iff_of_false hfree fun h => h f hf, ?_⟩
      intro h0
      have hf0 : f = 0 := Nat.le_zero.mp (hlow 0 h0)
      exact hfree (hexact.fails_iff.mp (hfst.trans (hzero_iff.mpr hf0)))
    · intro hscan
      have hfree : pmmGetFreeFrames s ≠ 0 := fun h => hscan.1.mp h f hf
      have hne : f ≠ 0 := by
        intro h
        rw [h] at hf
        exact hscan.2 hf
      refine ⟨iff_of_false ?_ hfree, fun h => absurd h hfree, fun _ => ?_⟩
      · rw [hfst, hzero_iff]
        exact hne
      · exact ⟨f, hf.lt_total, hf.2, fun g hg => set_below_of_lowest hf hlow hg, hfst⟩

/-! ## Every run -/

theorem pmmStep_totalFrames (s : Pmm) (op : PmmOp) : (pmmStep s op).totalFrames = s.totalFrames := by
  cases op with
  | allocFrame =>
    show (pmmAllocFrame s).2.totalFrames = s.totalFrames
    by_cases hfull : bitmapFindFree s = 2 ^ 32 - 1
    · rw [pmmAllocFrame_of_full hfull]
    · rw [pmmAllocFrame_of_handsOut ⟨hfull, rfl⟩]
      rfl
  | freeFrame a =>
    show (pmmFreeFrame s a).totalFrames = s.totalFrames
    rw [pmmFreeFrame_eq]
    split_ifs <;> rfl
  | markUsed a =>
    show (pmmMarkUsed s a).totalFrames = s.totalFrames
    rw [pmmMarkUsed_eq]
    split_ifs <;> rfl
  | markFree a =>
    show (pmmFreeFrame s a).totalFrames = s.totalFrames
    rw [pmmFreeFrame_eq]
    split_ifs <;> rfl

theorem pmmRun_totalFrames (s : Pmm) (ops : List PmmOp) :
    (pmmRun s ops).totalFrames = s.totalFrames := by
  induction ops generalizing s with
  | nil => rfl
  | cons op ops ih => exact (ih (pmmStep s op)).trans (pmmStep_totalFrames s op)

/-- `pmm_init` returns on every memory map and without one, with `total_frames` within
    the bitmap. -/
theorem pmmInit_total_le {mem : Mem} {mbi : MultibootInfo}
    (hboot : mbi.flags &&& 0x20 = 0 ∨ ∃ es, MemoryMap mem mbi es) (s₀ : Pmm) :
    ∃ s, (∃ n, ∀ fuel > n, pmmInit fuel mem mbi s₀ = some s) ∧ s.totalFrames ≤ 131072 := by
  obtain hflag | ⟨es, hmap⟩ := hboot
  · refine ⟨allUsed s₀ (u32 (mbi.memUpper + 1024) / 4), ⟨0, ?_⟩, ?_⟩
    · intro fuel _
      rw [pmmInit, if_pos hflag]
    · rw [allUsed_totalFrames]
      omega
  · refine ⟨bootPmm s₀ es, ⟨es.length, fun _ hfuel => pmmInit_eq hmap s₀ hfuel⟩, ?_⟩
    rw [bootPmm_totalFrames]
    omega

/-- In every state reached after `pmm_init`, on any memory map or none, an allocation
    fails exactly when the free count is 0, and else returns the lowest free frame,
    iff the scan decides it. -/
theorem pmmAllocFrame_exact_iff (mem : Mem) (mbi : MultibootInfo)
    (hboot : mbi.flags &&& 0x20 = 0 ∨ ∃ es, MemoryMap mem mbi es) (s₀ : Pmm) :
    ∃ s, (∃ n, ∀ fuel > n, pmmInit fuel mem mbi s₀ = some s) ∧
      ∀ ops t, pmmRun s ops = t → (AllocExact t ↔ ScanDecides t) := by
  obtain ⟨s, hinit, htotal⟩ := pmmInit_total_le hboot s₀
  refine ⟨s, hinit, ?_⟩
  intro ops t hrun
  apply allocExact_iff
  rw [← hrun, pmmRun_totalFrames]
  exact htotal

/-! ## The counters of every state -/

/-- `total_frames` is within the bitmap, and `used_frames` is a 32-bit word. -/
structure InRange (s : Pmm) : Prop where
  total_le : s.totalFrames ≤ 131072
  used_lt : s.usedFrames < 2 ^ 32

/-- The operations lead to `s` after `pmm_init`, whatever was in memory. -/
def PmmReachable (s : Pmm) : Prop :=
  ∃ fuel mem mbi s₀ s₁ ops, pmmInit fuel mem mbi s₀ = some s₁ ∧ pmmRun s₁ ops = s

theorem InRange.takeFrame {s : Pmm} (h : InRange s) (f : ℕ) : InRange (takeFrame s f) :=
  ⟨h.total_le, u32_lt _⟩

theorem InRange.releaseFrame {s : Pmm} (h : InRange s) (f : ℕ) : InRange (releaseFrame s f) :=
  ⟨h.total_le, u32_lt _⟩

theorem InRange.pmmStep {s : Pmm} (h : InRange s) (op : PmmOp) : InRange (pmmStep s op) := by
  have hfree : ∀ a, InRange (pmmFreeFrame s a) := by
    intro a
    rw [pmmFreeFrame_eq]
    split_ifs
    · exact h.releaseFrame _
    · exact h
  cases op with
  | allocFrame =>
    show InRange (pmmAllocFrame s).2
    obtain ⟨heq, -⟩ | ⟨f, heq, -⟩ := pmmAllocFrame_cases h.total_le
    · rw [heq]
      exact h
    · rw [heq]
      exact h.takeFrame f
  | freeFrame a => exact hfree a
  | markUsed a =>
    show InRange (pmmMarkUsed s a)
    rw [pmmMarkUsed_eq]
    split_ifs
    · exact h.takeFrame _
    · exact h
  | markFree a => exact hfree a

theorem inRange_allUsed (s : Pmm) (total : ℕ) : InRange (allUsed s total) := by
  have htotal := allUsed_totalFrames s total
  refine ⟨by omega, ?_⟩
  show (allUsed s total).totalFrames < 2 ^ 32
  omega

/-- What the body of a walk preserves, the walk preserves. -/
theorem mmapWalk_invariant {σ : Type} {P : σ → Prop} {mem : Mem} {mmapEnd : ℕ}
    {body : σ → MmapEntry → σ} (hbody : ∀ s e, P s → P (body s e)) {fuel mmap : ℕ} {s t : σ}
    (h : mmapWalk mem mmapEnd body fuel mmap s = some t) (hs : P s) : P t := by
  induction fuel generalizing mmap s with
  | zero => exact absurd h (Option.some_ne_none t).symm
  | succ fuel ih =>
    rw [mmapWalk] at h
    split_ifs at h with hlt
    · exact ih h (hbody s _ hs)
    · exact Option.some_inj.mp h ▸ hs

theorem InRange.releaseBody {s : Pmm} (h : InRange s) (e : MmapEntry) :
    InRange (releaseBody s e) := by
  unfold NexusKernel.Memory.releaseBody
  split_ifs
  · exact List.foldlRecOn _ _ h fun s hs f _ => hs.releaseFrame f
  · exact h

theorem InRange.reserveBody {s : Pmm} (h : InRange s) (i : ℕ) : InRange (reserveBody s i) := by
  unfold NexusKernel.Memory.reserveBody
  split_ifs
  · exact h.takeFrame i
  · exact h

theorem inRange_pmmInit {fuel : ℕ} {mem : Mem} {mbi : MultibootInfo} {s₀ s : Pmm}
    (h : pmmInit fuel mem mbi s₀ = some s) : InRange s := by
  unfold pmmInit at h
  split_ifs at h
  · exact Option.some_inj.mp h ▸ inRange_allUsed _ _
  · obtain ⟨memEnd, -, h⟩ := Option.bind_eq_some_iff.mp h
    obtain ⟨s₁, hwalk, h⟩ := Option.bind_eq_some_iff.mp h
    have hs₁ : InRange s₁ := mmapWalk_invariant (P := InRange) (fun _ e hs => hs.releaseBody e) hwalk
      (inRange_allUsed _ _)
    obtain rfl := Option.some_inj.mp h
    exact List.foldlRecOn _ _ hs₁ fun s hs i _ => hs.reserveBody i

theorem PmmReachable.inRange {s : Pmm} (h : PmmReachable s) : InRange s := by
  obtain ⟨fuel, mem, mbi, s₀, s₁, ops, hinit, rfl⟩ := h
  exact List.foldlRecOn _ _ (inRange_pmmInit hinit) fun s hs op _ => hs.pmmStep op

/-! ## Whole bytes -/

theorem Accounted.free_eq_zero_iff {s : Pmm} (hs : Accounted s) :
    pmmGetFreeFrames s = 0 ↔ ∀ f < s.totalFrames, bit s.frameBitmap f = true := by
  rw [hs.free_eq, count, Finset.card_eq_zero, Finset.filter_eq_empty_iff]
  simp

/-- With an exact counter and no partial byte, only frame 0 can mislead the scan. -/
theorem scanDecides_of_accounted {s : Pmm} (hs : Accounted s) (hbytes : 8 ∣ s.totalFrames)
    (hzero : bit s.frameBitmap 0 = true) : ScanDecides s := by
  have hscan : 8 * (s.totalFrames / 8) = s.totalFrames := Nat.mul_div_cancel' hbytes
  constructor
  · rw [hs.free_eq_zero_iff]
    constructor
    · intro hset f hf
      exact Bool.noConfusion ((hset f hf.lt_total).symm.trans hf.2)
    · intro hnone f hf
      by_contra hclear
      exact hnone f ⟨hscan.symm ▸ hf, Bool.of_not_eq_true hclear⟩
  · intro h0
    exact Bool.noConfusion (hzero.symm.trans h0.2)

/-- If the counter is exact, `total_frames` is a multiple of eight and frame 0 is in
    use, then allocations are exact along every run that does not free frame 0. -/
theorem allocExact_run {s : Pmm} (hs : Accounted s) (hbytes : 8 ∣ s.totalFrames)
    (hzero : bit s.frameBitmap 0 = true) {ops : List PmmOp} (hops : ∀ op ∈ ops, ¬ op.Frees 0) :
    AllocExact (pmmRun s ops) := by
  have hrun := accounted_pmmRun hs ops
  apply (allocExact_iff hrun.total_le).mpr
  apply scanDecides_of_accounted hrun
  · rw [pmmRun_totalFrames]
    exact hbytes
  · exact bit_pmmRun_of_not_frees hzero hops

theorem accounted_small : Accounted (bootPmm ⟨fun _ => 0, 0, 0⟩ smallMap) :=
  accounted_bootPmm _ disjoint_smallMap (by decide)

/-- On the small map, after an allocation and a release. -/
theorem pmmAllocFrame_exact_iff_small :
    ∃ s, (∃ n, ∀ fuel > n, pmmInit fuel smallMem smallInfo ⟨fun _ => 0, 0, 0⟩ = some s) ∧
      AllocExact (pmmRun s [.allocFrame, .freeFrame 0x100000]) := by
  obtain ⟨s, ⟨n, hinit⟩, hiff⟩ := pmmAllocFrame_exact_iff smallMem smallInfo
    (Or.inr ⟨smallMap, memoryMap_small⟩) ⟨fun _ => 0, 0, 0⟩
  have hs : s = bootPmm ⟨fun _ => 0, 0, 0⟩ smallMap := by
    have h := pmmInit_eq memoryMap_small ⟨fun _ => 0, 0, 0⟩ (show 2 < n + 3 by omega)
    rw [hinit _ (by omega)] at h
    exact Option.some_inj.mp h
  refine ⟨s, ⟨n, hinit⟩, (hiff _ _ rfl).mpr ?_⟩
  rw [hs]
  apply scanDecides_of_accounted (accounted_pmmRun accounted_small _)
  · rw [pmmRun_totalFrames, bootPmm_totalFrames]
    decide
  · apply bit_pmmRun_of_not_frees
    · decide +kernel
    · simp [PmmOp.Frees, pageSize]

/-! ## A partial byte -/

/-- Four frames above one megabyte: 260 frames in all, 256 in whole bytes. -/
def tailMap : List MmapEntry := [⟨20, 0x100000, 0x4000, 1⟩]

def tailMem : Mem := wordsAt 0x9000 [20, 0x100000, 0, 0x4000, 0, 1]

theorem memoryMap_tail : MemoryMap tailMem wideInfo tailMap where
  present := by decide
  entries := ⟨by decide +kernel, trivial⟩
  length_eq := by decide
  fits := by decide

/-- Right after `pmm_init` four frames are free, and an allocation fails. -/
theorem last_frames_not_found :
    ∃ s, (∃ n, ∀ fuel > n, pmmInit fuel tailMem wideInfo ⟨fun _ => 0, 0, 0⟩ = some s) ∧
      s.totalFrames = 260 ∧ pmmGetFreeFrames s = 4 ∧ (pmmAllocFrame s).1 = 0 ∧ ¬ AllocExact s := by
  have hfree : pmmGetFreeFrames (bootPmm ⟨fun _ => 0, 0, 0⟩ tailMap) = 4 := by decide +kernel
  have htotal : (bootPmm ⟨fun _ => 0, 0, 0⟩ tailMap).totalFrames = 260 := by
    rw [bootPmm_totalFrames]
    decide
  have halloc : (pmmAllocFrame (bootPmm ⟨fun _ => 0, 0, 0⟩ tailMap)).1 = 0 := by decide +kernel
  refine ⟨bootPmm ⟨fun _ => 0, 0, 0⟩ tailMap,
    ⟨1, fun _ hfuel => pmmInit_eq memoryMap_tail _ hfuel⟩, htotal, hfree, halloc, ?_⟩
  intro hexact
  have hzero := hexact.fails_iff.mp halloc
  rw [hfree] at hzero
  exact absurd hzero (by decide)

end NexusKernel.Memory
