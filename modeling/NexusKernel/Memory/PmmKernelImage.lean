import NexusKernel.Common.Run
import NexusKernel.Memory.Kheap
import NexusKernel.Memory.PmmAccounting

/-!
# The kernel image and the frame allocator

The kernel is linked at one megabyte (`linker.ld`) and ends at `_kernel_end`. Of
that image `pmm_init` reserves nothing: its reservation loop stops at frame 255,
and `_kernel_end` is read by `vmm.c` only.

Results:
* `clientInv_run`: allocating and giving back only ever deals in frames that were
  free after `pmm_init`.
* `sparesImage_iff`: the allocator spares the image iff the map offers it no frame
  of the image.
* `not_sparesImage_of_cover`: it never does when the available region around the
  image ends below 4 GiB, the usual case.
-/

namespace NexusKernel.Memory

open Bitmap

/-! ## A client that allocates and gives back -/

/-- The allocator and the addresses it has returned so far. -/
structure FrameClient where
  pmm : Pmm
  returned : List ℕ

inductive FrameOp where
  | alloc
  | free (a : ℕ)

/-- `pmm_alloc_frame`, or `pmm_free_frame` of an address returned earlier;
    `0` is the failure value. -/
def frameStep (s : FrameClient) : FrameOp → Option FrameClient
  | .alloc =>
    let (a, pmm) := pmmAllocFrame s.pmm
    some ⟨pmm, if a = 0 then s.returned else a :: s.returned⟩
  | .free a => if a ∈ s.returned then some { s with pmm := pmmFreeFrame s.pmm a } else none

/-- From `s` on, no frame that `pmm_alloc_frame` returns overlaps `[0, kernelEnd)`. -/
def SparesImage (s : Pmm) (kernelEnd : ℕ) : Prop :=
  ∀ ops t, run frameStep ⟨s, []⟩ ops = some t →
    ∀ a ∈ t.returned, Disjoint (Set.Ico a (a + pageSize)) (Set.Ico 0 kernelEnd)

theorem disjoint_image_iff {a kernelEnd : ℕ} :
    Disjoint (Set.Ico a (a + pageSize)) (Set.Ico 0 kernelEnd) ↔ kernelEnd ≤ a := by
  rw [Set.Ico_disjoint_Ico]
  unfold pageSize
  omega

/-- What a client's run keeps: `total_frames`, and that only frames which could be
    found at first are returned or free. -/
structure ClientInv (s : Pmm) (t : FrameClient) : Prop where
  total_eq : t.pmm.totalFrames = s.totalFrames
  clear_before : ∀ f, bit t.pmm.frameBitmap f = false → bit s.frameBitmap f = false
  returned_before : ∀ a ∈ t.returned, ∃ f, a = f * pageSize ∧ Findable s f

theorem clientInv_alloc {s : Pmm} {t : FrameClient} (htotal : s.totalFrames ≤ 131072)
    (ht : ClientInv s t) :
    ClientInv s ⟨(pmmAllocFrame t.pmm).2, if (pmmAllocFrame t.pmm).1 = 0 then t.returned else
      (pmmAllocFrame t.pmm).1 :: t.returned⟩ := by
  have htotal' := ht.total_eq
  obtain ⟨h, -⟩ | ⟨f, h, hf, -⟩ := pmmAllocFrame_cases (s := t.pmm) (by omega)
  · rw [h]
    exact ht
  · rw [h]
    refine ⟨ht.total_eq, ?_, ?_⟩
    · intro g hg
      apply ht.clear_before
      by_contra hset
      exact Bool.noConfusion
        (hg.symm.trans (bit_takeFrame_of_set (Bool.of_not_eq_false hset)))
    · intro a ha
      split_ifs at ha
      · exact ht.returned_before a ha
      · obtain rfl | ha := List.mem_cons.mp ha
        · exact ⟨f, rfl, htotal' ▸ hf.1, ht.clear_before f hf.2⟩
        · exact ht.returned_before a ha

theorem clientInv_free {s : Pmm} {t : FrameClient} (ht : ClientInv s t) {a : ℕ}
    (ha : a ∈ t.returned) : ClientInv s { t with pmm := pmmFreeFrame t.pmm a } := by
  rw [pmmFreeFrame_eq]
  split_ifs
  · refine ⟨ht.total_eq, ?_, ht.returned_before⟩
    intro g hg
    obtain ⟨f, rfl, hf⟩ := ht.returned_before a ha
    rw [Nat.mul_div_cancel _ (show 0 < pageSize by decide), bit_releaseFrame] at hg
    -- either the freed frame itself, free at first, or a bit that was clear already
    by_cases hgf : g = f
    · rw [hgf]; exact hf.2
    · rw [Function.update_of_ne hgf] at hg
      exact ht.clear_before g hg
  · exact ht

/-- Allocating and giving back only ever deals in frames that were free at first. -/
theorem clientInv_run {s : Pmm} (htotal : s.totalFrames ≤ 131072) {ops : List FrameOp}
    {t : FrameClient} (hrun : run frameStep ⟨s, []⟩ ops = some t) : ClientInv s t := by
  refine run_invariant (ClientInv s) ?_ ⟨rfl, fun _ h => h, fun _ h => by cases h⟩ hrun
  intro t op u ht hu
  cases op with
  | alloc =>
    obtain rfl := Option.some_inj.mp hu
    exact clientInv_alloc htotal ht
  | free a =>
    simp only [frameStep] at hu
    split_ifs at hu with ha
    obtain rfl := Option.some_inj.mp hu
    exact clientInv_free ht ha

/-- The allocator spares the image iff every frame it can find lies above it: the
    first allocation already returns the lowest of them. -/
theorem sparesImage_iff_findable {s : Pmm} (htotal : s.totalFrames ≤ 131072)
    (hzero : ¬ Findable s 0) (kernelEnd : ℕ) :
    SparesImage s kernelEnd ↔ ∀ f, Findable s f → kernelEnd ≤ f * pageSize := by
  constructor
  · intro hspares f hf
    obtain ⟨-, hnone⟩ | ⟨g, halloc, hg, hlow⟩ := pmmAllocFrame_cases htotal
    · exact absurd hf (hnone f)
    · have hg0 : g ≠ 0 := by rintro rfl; exact hzero hg
      have hrun : run frameStep ⟨s, []⟩ [.alloc] = some ⟨takeFrame s g, [g * pageSize]⟩ := by
        have hne : g * pageSize ≠ 0 := Nat.mul_ne_zero hg0 (by decide)
        simp [run, frameStep, halloc, hne]
      have hdisj := hspares _ _ hrun (g * pageSize) List.mem_cons_self
      exact (disjoint_image_iff.mp hdisj).trans (Nat.mul_le_mul_right _ (hlow f hf))
  · intro habove ops t hrun a ha
    obtain ⟨f, rfl, hf⟩ := (clientInv_run htotal hrun).returned_before a ha
    exact disjoint_image_iff.mpr (habove f hf)

/-! ## What a memory map offers -/

/-- Frame `f` is above the first megabyte, below the end of the bitmap, in a whole
    group of eight frames below the largest 32-bit region end, and inside an
    available region as its 32-bit truncation bounds it. -/
def MapOffers (es : List MmapEntry) (f : ℕ) : Prop :=
  256 ≤ f ∧ f < 131072 ∧
    (∃ e ∈ es, 8 * (f / 8) + 8 ≤ (e.addr + e.len) % 2 ^ 32 / 4096) ∧
    ∃ e ∈ es, e.type = 1 ∧ (e.addr + 4095) % 2 ^ 32 / 4096 ≤ f ∧
      f < (e.addr + e.len) % 2 ^ 32 / 4096

theorem le_foldl_memEndBody (es : List MmapEntry) (m k : ℕ) :
    k ≤ es.foldl memEndBody m ↔ k ≤ m ∨ ∃ e ∈ es, k ≤ (e.addr + e.len) % 2 ^ 32 := by
  induction es generalizing m with
  | nil => simp
  | cons e es ih =>
    have hbody : memEndBody m e = max m ((e.addr + e.len) % 2 ^ 32) := by
      show (if u32 (e.addr + e.len) > m then u32 (e.addr + e.len) else m) = _
      unfold u32
      split_ifs <;> omega
    rw [List.foldl_cons, ih, hbody, le_max_iff, List.exists_mem_cons_iff, or_assoc]

theorem lt_scanned_iff (s : Pmm) (es : List MmapEntry) (f : ℕ) :
    f < 8 * ((bootPmm s es).totalFrames / 8) ↔
      f < 131072 ∧ ∃ e ∈ es, 8 * (f / 8) + 8 ≤ (e.addr + e.len) % 2 ^ 32 / 4096 := by
  have hend := le_foldl_memEndBody es 0 ((8 * (f / 8) + 8) * 4096)
  simp only [Nat.le_div_iff_mul_le (show 0 < 4096 by norm_num)]
  rw [bootPmm_totalFrames]
  unfold pageSize
  constructor
  · intro hf
    refine ⟨by omega, ?_⟩
    obtain h | h := hend.mp (by omega)
    · omega
    · exact h
  · rintro ⟨hf, he⟩
    have := hend.mpr (Or.inr he)
    omega

/-- The frames the allocator can find after `pmm_init` are those the map offers. -/
theorem findable_bootPmm_iff (s : Pmm) (es : List MmapEntry) (f : ℕ) :
    Findable (bootPmm s es) f ↔ MapOffers es f := by
  have htotal := bootPmm_totalFrames s es
  unfold Findable
  constructor
  · rintro ⟨hlt, hbit⟩
    obtain ⟨hf, hend⟩ := (lt_scanned_iff s es f).mp hlt
    obtain ⟨hlow, e, he, htype, hstart, hstop, -⟩ := (bootPmm_bit s es hf).mp hbit
    refine ⟨hlow, hf, hend, e, he, htype, ?_, ?_⟩
    · unfold frameStart u32 pageSize at hstart; omega
    · unfold frameEnd u32 pageSize at hstop; omega
  · rintro ⟨hlow, hf, hend, e, he, htype, hstart, hstop⟩
    have hlt := (lt_scanned_iff s es f).mpr ⟨hf, hend⟩
    refine ⟨hlt, (bootPmm_bit s es hf).mpr ⟨hlow, e, he, htype, ?_, ?_, by omega⟩⟩
    · unfold frameStart u32 pageSize; omega
    · unfold frameEnd u32 pageSize; omega

theorem sparesImage_bootPmm_iff (s₀ : Pmm) (es : List MmapEntry) (kernelEnd : ℕ) :
    SparesImage (bootPmm s₀ es) kernelEnd ↔ ∀ f, MapOffers es f → kernelEnd ≤ f * 4096 := by
  have htotal : (bootPmm s₀ es).totalFrames ≤ 131072 := by
    rw [bootPmm_totalFrames]; omega
  have hzero : ¬ Findable (bootPmm s₀ es) 0 := by
    rw [findable_bootPmm_iff]
    intro h
    exact absurd h.1 (by norm_num)
  rw [sparesImage_iff_findable htotal hzero]
  simp only [findable_bootPmm_iff, pageSize]

/-- After `pmm_init` on any memory map, the allocator keeps clear of the image
    ending at `kernelEnd` in every run iff the map offers no frame below it. -/
theorem sparesImage_iff (mem : Mem) (mbi : MultibootInfo) (es : List MmapEntry)
    (hmap : MemoryMap mem mbi es) (s₀ : Pmm) (kernelEnd : ℕ) :
    ∃ s, (∃ n, ∀ fuel > n, pmmInit fuel mem mbi s₀ = some s) ∧
      (SparesImage s kernelEnd ↔ ∀ f, MapOffers es f → kernelEnd ≤ f * 4096) :=
  ⟨bootPmm s₀ es, ⟨es.length, fun _ hfuel => pmmInit_eq hmap s₀ hfuel⟩,
    sparesImage_bootPmm_iff s₀ es kernelEnd⟩

/-- A region from one megabyte to 4 GiB: its 32-bit end is zero. -/
def wideMem : Mem := wordsAt 0x9000 [20, 0x100000, 0, 0xFFF00000, 0, 1]

def wideInfo : MultibootInfo := ⟨0x20, 0, 24, 0x9000⟩

theorem memoryMap_wide : MemoryMap wideMem wideInfo [⟨20, 0x100000, 0xFFF00000, 1⟩] where
  present := by decide
  entries := ⟨by decide +kernel, trivial⟩
  length_eq := by decide
  fits := by decide

/-- The condition can hold around the image: here nothing at all is offered. -/
theorem sparesImage_iff_wide :
    ∃ s, (∃ n, ∀ fuel > n, pmmInit fuel wideMem wideInfo ⟨fun _ => 0, 0, 0⟩ = some s) ∧
      SparesImage s 0x600000 := by
  obtain ⟨s, hinit, hiff⟩ :=
    sparesImage_iff wideMem wideInfo _ memoryMap_wide ⟨fun _ => 0, 0, 0⟩ 0x600000
  refine ⟨s, hinit, hiff.mpr ?_⟩
  rintro f ⟨-, -, ⟨e, he, hend⟩, -⟩
  rw [List.mem_singleton] at he
  subst he
  exact absurd hend (by norm_num)

/-! ## Regions that end below 4 GiB -/

/-- An available region around an image that holds the kernel heap and the
    bitmap, ending below 4 GiB, offers the image's first frame. -/
theorem mapOffers_of_cover {es : List MmapEntry} {kernelEnd : ℕ}
    (hkernel : 0x100000 + kheapSize + bitmapSize ≤ kernelEnd)
    (hcover : ∃ e ∈ es, e.type = 1 ∧ e.addr ≤ 0x100000 ∧ kernelEnd ≤ e.addr + e.len ∧
      e.addr + e.len < 2 ^ 32) : MapOffers es 256 := by
  obtain ⟨e, he, htype, haddr, hend, hlt⟩ := hcover
  unfold kheapSize bitmapSize at hkernel
  exact ⟨le_rfl, by norm_num, ⟨e, he, by omega⟩, e, he, htype, by omega, by omega⟩

theorem pmmAllocFrame_bootPmm {es : List MmapEntry} (h : MapOffers es 256) (s₀ : Pmm) :
    (pmmAllocFrame (bootPmm s₀ es)).1 = 0x100000 := by
  have htotal : (bootPmm s₀ es).totalFrames ≤ 131072 := by
    rw [bootPmm_totalFrames]; omega
  have hfind := (findable_bootPmm_iff s₀ es 256).mpr h
  obtain ⟨-, hnone⟩ | ⟨g, halloc, hg, hlow⟩ := pmmAllocFrame_cases htotal
  · exact absurd hfind (hnone 256)
  · -- the first megabyte is reserved, so the lowest frame is 256
    have hge := ((findable_bootPmm_iff s₀ es g).mp hg).1
    rw [halloc, show g = 256 by have := hlow 256 hfind; omega]
    rfl

/-- Whenever the available region around the image ends below 4 GiB, the very
    first allocation returns the start of the image. -/
theorem not_sparesImage_of_cover {mem : Mem} {mbi : MultibootInfo} {es : List MmapEntry}
    (hmap : MemoryMap mem mbi es) (s₀ : Pmm) {kernelEnd : ℕ}
    (hkernel : 0x100000 + kheapSize + bitmapSize ≤ kernelEnd)
    (hcover : ∃ e ∈ es, e.type = 1 ∧ e.addr ≤ 0x100000 ∧ kernelEnd ≤ e.addr + e.len ∧
      e.addr + e.len < 2 ^ 32) :
    ∃ s, (∃ n, ∀ fuel > n, pmmInit fuel mem mbi s₀ = some s) ∧
      (pmmAllocFrame s).1 = 0x100000 ∧ ¬ SparesImage s kernelEnd := by
  have hoffers := mapOffers_of_cover hkernel hcover
  refine ⟨bootPmm s₀ es, ⟨es.length, fun _ hfuel => pmmInit_eq hmap s₀ hfuel⟩,
    pmmAllocFrame_bootPmm hoffers s₀, ?_⟩
  rw [sparesImage_bootPmm_iff]
  intro habove
  have h := habove 256 hoffers
  unfold kheapSize bitmapSize at hkernel
  omega

/-- The map of a machine with 128 MiB. -/
def pcMem : Mem := wordsAt 0x9000 [20, 0, 0, 0x9FC00, 0, 1, 20, 0x100000, 0, 0x7EE0000, 0, 1]

def pcMap : List MmapEntry := [⟨20, 0, 0x9FC00, 1⟩, ⟨20, 0x100000, 0x7EE0000, 1⟩]

def pcInfo : MultibootInfo := ⟨0x20, 0, 48, 0x9000⟩

theorem memoryMap_pc : MemoryMap pcMem pcInfo pcMap where
  present := by decide
  entries := ⟨by decide +kernel, by decide +kernel, trivial⟩
  length_eq := by decide
  fits := by decide

/-- On a 128 MiB machine the first frame returned is that of the kernel's code. -/
theorem pmm_returns_kernel_image :
    (∃ e ∈ pcMap, e.type = 1 ∧ e.addr ≤ 0x100000 ∧ 0x600000 ≤ e.addr + e.len) ∧
      ∃ s, (∃ n, ∀ fuel > n, pmmInit fuel pcMem pcInfo ⟨fun _ => 0, 0, 0⟩ = some s) ∧
        (pmmAllocFrame s).1 = 0x100000 ∧ ¬ SparesImage s 0x600000 :=
  ⟨by decide, not_sparesImage_of_cover memoryMap_pc _ (by decide) (by decide)⟩

end NexusKernel.Memory
