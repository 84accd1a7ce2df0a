import NexusKernel.Memory.AddressSpaces

/-!
# What `vmm_init` maps

The kernel reaches page directories, page tables and its own image through their
physical addresses, so each of them has to be identity mapped once paging is on.
`vmm_init` maps the pages of the first four megabytes and no others, whatever the size
of the image and wherever the frame allocator finds its frames.

Results:
* `lowMapped_boot`: the kernel directory after `vmm_init`.
* `pageFrame_boot`: its pages, those below 4 MiB at themselves, no others.
* `takesFindable_run`: later calls obtain frames that were free after `vmm_init`.
* `exists_run_taking`: and they can obtain each of those.
* `identity_map_covers_iff`: so the map covers the image and all later frames iff these
  lie below 4 MiB.
-/

namespace NexusKernel.Memory

open Bitmap

/-- The page of `x` is present in the directory, and mapped to itself. -/
def IdentityMapped (mem : Mem) (dir x : ℕ) : Prop :=
  pageFrame mem dir (x / 4096) = some (x / 4096 * 4096)

/-- Every frame that a run of `vmm_create_address_space`, `vmm_map_page` and
    `vmm_unmap_page` from `s` on obtains from the allocator is identity mapped in the
    kernel directory of `s`. -/
def LaterFramesMapped (s : Spaces) : Prop :=
  ∀ ops u, run spaceStep s ops = some u →
    ∀ x, x / 4096 ∈ newlyTaken s.vm.pmm u.vm.pmm → IdentityMapped s.vm.mem s.kernelDirectory x

/-! ## The kernel directory -/

/-- The directory at `k` has one table, at `t`, in which the pages of `S` are mapped to
    themselves. The object may reach into the table's frame: only its entries may not. -/
structure LowMapped (k t : ℕ) (p : Pmm) (S : Set ℕ) (s : Vm Pmm) : Prop where
  dir_aligned : k % 4096 = 0
  table_aligned : t % 4096 = 0
  table_ne_zero : t ≠ 0
  apart : t / 4096 ≠ k / 4096
  pmm_eq : s.pmm = p
  present : Present s.mem k 0
  table_eq : tableOf s.mem k 0 = t
  absent : ∀ i < 1024, i ≠ 0 → ¬ Present s.mem k i
  mapped : ∀ j ∈ S, read32 s.mem (t + 4 * j) =
    newPageEntry (j * pageSize) (pagePresent ||| pageWritable)

section

variable {k t : ℕ} {p : Pmm} {S : Set ℕ} {s : Vm Pmm}

theorem lowMapped_first (mem : Mem) {pmm q : Pmm} (hk : k % 4096 = 0) (ht : t % 4096 = 0)
    (hlt : t < 2 ^ 32) (hne : t / 4096 ≠ k / 4096) (ht0 : t ≠ 0)
    (hfirst : pmmAllocFrame pmm = (k, p)) (hsecond : pmmAllocFrame p = (t, q)) :
    LowMapped k t q {0} (vmmMapPage pmmAllocFrame (kernelDirectoryCleared ⟨mem, pmm, []⟩) k 0 0
      (pagePresent ||| pageWritable)) := by
  have hentry : ∀ i < 1024, _ := fun i hi =>
    dirEntry_first mem hk ht hlt hne ht0 hfirst hsecond hi
  have hentry0 := (hentry 0 (by norm_num)).trans (if_pos rfl)
  have hmap := vmmMapPage_first mem hfirst hsecond ht0
  refine ⟨hk, ht, ht0, hne, by rw [hmap]; rfl, ?_, ?_, ?_, ?_⟩
  · rw [Present, hentry0]
    exact present_newEntry
  · rw [tableOf, hentry0]
    exact newEntry_and_pageMask ht hlt (by decide)
  · intro i hi hi0
    rw [Present, hentry i hi, if_neg hi0]
    decide
  · intro j hj
    rw [Set.mem_singleton_iff.mp hj, hmap]
    exact read32_write32_of_lt (newPageEntry_lt _ _)

/-- Mapping page `j` of the first 1024 stores its entry. -/
theorem LowMapped.map (hs : LowMapped k t p S s) {j virt : ℕ} (hj : j < 1024)
    (hvirt : virt = j * pageSize) :
    LowMapped k t p (insert j S)
      (vmmMapPage pmmAllocFrame s k virt virt (pagePresent ||| pageWritable)) := by
  subst hvirt
  have hidx : tableIdx (j * pageSize) = 0 := by
    rw [tableIdx_eq]
    unfold pageSize
    omega
  have hpage : pageIdx (j * pageSize) = j := by
    rw [pageIdx_eq]
    unfold pageSize
    omega
  have hmap : vmmMapPage pmmAllocFrame s k (j * pageSize) (j * pageSize)
      (pagePresent ||| pageWritable) = s.store32 (t + 4 * j)
        (newPageEntry (j * pageSize) (pagePresent ||| pageWritable)) := by
    rw [vmmMapPage_present (hidx ▸ hs.present) (by rw [hidx, hs.table_eq]; exact hs.table_ne_zero),
      hidx, hpage, hs.table_eq]
  have hentry : ∀ i < 1024, dirEntry (s.store32 (t + 4 * j)
      (newPageEntry (j * pageSize) (pagePresent ||| pageWritable))).mem k i = dirEntry s.mem k i := by
    intro i hi
    have hk := hs.dir_aligned
    have ht := hs.table_aligned
    have hne := hs.apart
    exact read32_write32_of_disjoint (by unfold entryAddr; omega)
  rw [hmap]
  refine ⟨hs.dir_aligned, hs.table_aligned, hs.table_ne_zero, hs.apart, hs.pmm_eq, ?_, ?_, ?_, ?_⟩
  · rw [Present, hentry 0 (by norm_num)]
    exact hs.present
  · rw [tableOf, hentry 0 (by norm_num)]
    exact hs.table_eq
  · intro i hi
    rw [Present, hentry i hi]
    exact hs.absent i hi
  · intro i hi
    show read32 (write32 s.mem (t + 4 * j) _) (t + 4 * i) = _
    by_cases hij : i = j
    · rw [hij]
      exact read32_write32_of_lt (newPageEntry_lt _ _)
    · rw [read32_write32_of_disjoint (by omega)]
      exact hs.mapped i (hi.resolve_left hij)

theorem LowMapped.identityMap (hs : LowMapped k t p S s) {l : List ℕ} (hl : ∀ j ∈ l, j < 1024) :
    LowMapped k t p (S ∪ { j | j ∈ l }) (identityMap pmmAllocFrame k l s) := by
  induction l generalizing s S with
  | nil =>
    have hempty : S ∪ { j | j ∈ ([] : List ℕ) } = S := by simp
    rw [hempty]
    exact hs
  | cons j l ih =>
    rw [List.forall_mem_cons] at hl
    have hset : insert j S ∪ { i | i ∈ l } = S ∪ { i | i ∈ j :: l } := by
      ext i
      simp only [Set.mem_union, Set.mem_insert_iff, Set.mem_ofPred_eq, List.mem_cons]
      tauto
    have hrest := ih (hs.map hl.1 rfl) hl.2
    rw [hset] at hrest
    exact hrest

/-- What the pages of such a directory are mapped to. -/
theorem LowMapped.pageFrame_eq (hs : LowMapped k t p S s) (hS : ∀ j < 1024, j ∈ S) {n : ℕ}
    (hn : n < 2 ^ 20) :
    pageFrame s.mem k n = if n < 1024 then some (n * 4096) else none := by
  unfold pageFrame
  by_cases hlow : n < 1024
  · have hidx : n / 1024 = 0 := by omega
    have hphys : n * pageSize < 2 ^ 32 := by unfold pageSize; omega
    rw [if_pos hlow, hidx, if_pos hs.present, hs.table_eq, Nat.mod_eq_of_lt hlow,
      hs.mapped n (hS n hlow), decodeEntry_newPageEntry hphys, and_pageMask hphys]
    unfold pageSize
    rw [Nat.mul_div_cancel _ (by norm_num)]
  · rw [if_neg hlow, if_neg (hs.absent _ (by omega) (by omega))]

end

section

variable {pmm : Pmm} (htotal : pmm.totalFrames ≤ 131072) (hdir : (pmmAllocFrame pmm).1 ≠ 0)
  (htable : (pmmAllocFrame (pmmAllocFrame pmm).2).1 ≠ 0)

include htotal hdir htable

/-- With two frames to be had, all of the first 1024 pages get mapped. -/
theorem lowMapped_boot (mem : Mem) :
    ∃ t p S, (∀ j < 1024, j ∈ S) ∧
      LowMapped (spacesBoot mem pmm).kernelDirectory t p S (spacesBoot mem pmm).vm := by
  obtain ⟨h, -⟩ | ⟨f, hfirst, hf, -⟩ := pmmAllocFrame_cases htotal
  · rw [h] at hdir
    exact absurd rfl hdir
  rw [hfirst] at htable
  obtain ⟨h, -⟩ | ⟨g, hsecond, hg, -⟩ := pmmAllocFrame_cases (s := takeFrame pmm f) htotal
  · rw [h] at htable
    exact absurd rfl htable
  have hg0 : g * pageSize ≠ 0 := by
    rw [hsecond] at htable
    exact htable
  have hlt : g < 8 * (pmm.totalFrames / 8) := hg.1
  have hne : g ≠ f := ((findable_takeFrame pmm f g).mp hg).2
  have hkernel : (spacesBoot mem pmm).kernelDirectory = f * pageSize := congrArg Prod.fst hfirst
  have hone := lowMapped_first mem (k := f * pageSize) (t := g * pageSize)
    (Nat.mul_mod_left f 4096) (Nat.mul_mod_left g 4096) (by unfold pageSize; omega)
    (by unfold pageSize; omega) hg0 hfirst hsecond
  have hall := hone.identityMap (l := List.range' 1 1023) (by simp)
  have hvga := hall.map (show 0xB8 < 1024 by norm_num) (show 0xB8000 = 0xB8 * pageSize from rfl)
  rw [hkernel, spacesBoot_vm mem hfirst]
  refine ⟨_, _, _, ?_, hvga⟩
  intro j hj
  simp only [Set.mem_insert_iff, Set.mem_union, Set.mem_singleton_iff, Set.mem_ofPred_eq,
    List.mem_range'_1]
  omega

theorem pageFrame_boot (mem : Mem) {n : ℕ} (hn : n < 2 ^ 20) :
    pageFrame (spacesBoot mem pmm).vm.mem (spacesBoot mem pmm).kernelDirectory n =
      if n < 1024 then some (n * 4096) else none := by
  obtain ⟨t, p, S, hS, hs⟩ := lowMapped_boot htotal hdir htable mem
  exact hs.pageFrame_eq hS hn

theorem identityMapped_boot_iff (mem : Mem) {x : ℕ} (hx : x < 2 ^ 32) :
    IdentityMapped (spacesBoot mem pmm).vm.mem (spacesBoot mem pmm).kernelDirectory x ↔
      x < 0x400000 := by
  rw [IdentityMapped, pageFrame_boot htotal hdir htable mem (by omega)]
  split_ifs with hlow
  · exact iff_of_true rfl (by omega)
  · exact iff_of_false (by simp) (by omega)

end

/-! ## The frames of later calls -/

/-- `q` comes from `p` by allocations only: what is taken was to be found. -/
structure TakesFindable (p q : Pmm) : Prop where
  total_eq : q.totalFrames = p.totalFrames
  mono : ∀ f, bit p.frameBitmap f = true → bit q.frameBitmap f = true
  findable : ∀ f ∈ newlyTaken p q, Findable p f

theorem TakesFindable.refl (p : Pmm) : TakesFindable p p :=
  ⟨rfl, fun _ h => h, fun _ hf => absurd (hf.1.symm.trans hf.2) Bool.false_ne_true⟩

theorem TakesFindable.alloc {p q : Pmm} (h : TakesFindable p q) (htotal : p.totalFrames ≤ 131072) :
    TakesFindable p (pmmAllocFrame q).2 := by
  have htotal' := h.total_eq
  obtain ⟨halloc, -⟩ | ⟨f, halloc, hf, -⟩ := pmmAllocFrame_cases (s := q) (by omega)
  · rw [halloc]
    exact h
  · rw [halloc]
    refine ⟨h.total_eq, fun g hg => bit_takeFrame_of_set (h.mono g hg), ?_⟩
    intro g hg
    by_cases hgf : g = f
    · exact ⟨htotal' ▸ hgf ▸ hf.1, hg.1⟩
    · have hset := hg.2
      rw [bit_takeFrame, Function.update_of_ne hgf] at hset
      exact h.findable g ⟨hg.1, hset⟩

theorem spaceStep_create_pmm (s : Spaces) :
    ∃ t, spaceStep s .create = some t ∧ t.vm.pmm = (pmmAllocFrame s.vm.pmm).2 := by
  by_cases halloc : (pmmAllocFrame s.vm.pmm).1 = 0
  · exact ⟨_, spaceStep_create_full halloc, rfl⟩
  · exact ⟨_, spaceStep_create_fresh halloc, s.created_pmm⟩

/-- A call asks the allocator at most once. -/
theorem spaceStep_pmm {s t : Spaces} {op : SpaceOp} (hstep : spaceStep s op = some t) :
    t.vm.pmm = s.vm.pmm ∨ t.vm.pmm = (pmmAllocFrame s.vm.pmm).2 := by
  cases op with
  | create =>
    obtain ⟨t', ht', hpmm⟩ := spaceStep_create_pmm s
    obtain rfl := Option.some_inj.mp (ht'.symm.trans hstep)
    exact Or.inr hpmm
  | map dir virt phys flags =>
    obtain ⟨-, rfl⟩ := spaceStep_map_eq_some.mp hstep
    exact vmmMapPage_pmm s.vm.startLog dir virt phys flags
  | unmap dir virt =>
    obtain ⟨-, rfl⟩ := spaceStep_unmap_eq_some.mp hstep
    left
    show (vmmUnmapPage s.vm.startLog dir virt).pmm = s.vm.startLog.pmm
    unfold vmmUnmapPage
    split_ifs <;> rfl

theorem takesFindable_run {s u : Spaces} (htotal : s.vm.pmm.totalFrames ≤ 131072)
    {ops : List SpaceOp} (hrun : run spaceStep s ops = some u) :
    TakesFindable s.vm.pmm u.vm.pmm := by
  refine run_invariant (fun t => TakesFindable s.vm.pmm t.vm.pmm) ?_ (.refl _) hrun
  intro t op t' ht hstep
  obtain h | h := spaceStep_pmm hstep
  · rw [h]
    exact ht
  · rw [h]
    exact ht.alloc htotal

/-- Enough new address spaces take any frame that can be found. -/
theorem exists_run_taking {s : Spaces} (htotal : s.vm.pmm.totalFrames ≤ 131072) {f : ℕ}
    (hf : Findable s.vm.pmm f) :
    ∃ ops u, run spaceStep s ops = some u ∧ bit u.vm.pmm.frameBitmap f = true := by
  -- each creation takes the lowest frame `g ≤ f`, and leaves only frames above it
  suffices hbound : ∀ n b, f - b = n → ∀ s : Spaces, s.vm.pmm.totalFrames ≤ 131072 →
      (∀ g, Findable s.vm.pmm g → b ≤ g) → Findable s.vm.pmm f →
      ∃ ops u, run spaceStep s ops = some u ∧ bit u.vm.pmm.frameBitmap f = true from
    hbound _ 0 rfl s htotal (fun _ _ => Nat.zero_le _) hf
  intro n
  induction n using Nat.strong_induction_on with
  | h n ih =>
    intro b hn s htotal hlow hf
    obtain ⟨t, hstep, ht⟩ := spaceStep_create_pmm s
    obtain ⟨-, hnone⟩ | ⟨g, halloc, hg, hleast⟩ := pmmAllocFrame_cases htotal
    · exact absurd hf (hnone f)
    rw [halloc] at ht
    have htg : t.vm.pmm = takeFrame s.vm.pmm g := ht
    by_cases hgf : g = f
    · refine ⟨[.create], t, run_cons_eq_some.mpr ⟨t, hstep, rfl⟩, ?_⟩
      rw [htg, hgf, bit_takeFrame, Function.update_self]
    · have hb := hlow g hg
      have hgf' := hleast f hf
      obtain ⟨ops, u, hrun, hu⟩ := ih (f - (g + 1)) (by omega) (g + 1) rfl t (by rw [htg]; exact htotal)
        (by
          intro g' hg'
          rw [htg, findable_takeFrame] at hg'
          have := hleast g' hg'.1
          omega)
        (by
          rw [htg, findable_takeFrame]
          exact ⟨hf, fun h => hgf h.symm⟩)
      exact ⟨.create :: ops, u, run_cons_eq_some.mpr ⟨t, hstep, hrun⟩, hu⟩

section

variable {pmm : Pmm} (htotal : pmm.totalFrames ≤ 131072) (hdir : (pmmAllocFrame pmm).1 ≠ 0)
  (htable : (pmmAllocFrame (pmmAllocFrame pmm).2).1 ≠ 0)

include htotal hdir htable

theorem image_mapped_iff (mem : Mem) (kernelEnd : ℕ) :
    (∀ x < kernelEnd,
      IdentityMapped (spacesBoot mem pmm).vm.mem (spacesBoot mem pmm).kernelDirectory x) ↔
      kernelEnd ≤ 0x400000 := by
  constructor
  · intro himage
    by_contra hlt
    have hx := himage 0x400000 (by omega)
    rw [identityMapped_boot_iff htotal hdir htable mem (by norm_num)] at hx
    omega
  · intro hend x hx
    exact (identityMapped_boot_iff htotal hdir htable mem (by omega)).mpr (by omega)

theorem laterFramesMapped_iff (mem : Mem) :
    LaterFramesMapped (spacesBoot mem pmm) ↔
      ∀ f, Findable (spacesBoot mem pmm).vm.pmm f → f < 1024 := by
  have hboot := (spaceInv_boot mem htotal).total_le
  constructor
  · intro hlater f hf
    obtain ⟨ops, u, hrun, hu⟩ := exists_run_taking hboot hf
    have hframe : f * 4096 / 4096 = f := Nat.mul_div_cancel f (by norm_num)
    have hx := hlater ops u hrun (f * 4096) (by rw [hframe]; exact ⟨hf.2, hu⟩)
    have hlt := hf.1
    rw [identityMapped_boot_iff htotal hdir htable mem (by omega)] at hx
    omega
  · intro hlow ops u hrun x hx
    have := hlow _ ((takesFindable_run hboot hrun).findable _ hx)
    exact (identityMapped_boot_iff htotal hdir htable mem (by omega)).mpr (by omega)

end

/-- For every kernel image end, memory and frame allocator that gives `vmm_init` its two
    frames: the map it sets up covers the image and every frame that later calls obtain
    iff the image ends at or below 4 MiB and every frame left lies below 4 MiB. -/
theorem identity_map_covers_iff (mem : Mem) (pmm : Pmm) (htotal : pmm.totalFrames ≤ 131072)
    (hdir : (pmmAllocFrame pmm).1 ≠ 0) (htable : (pmmAllocFrame (pmmAllocFrame pmm).2).1 ≠ 0)
    (kernelEnd : ℕ) :
    ((∀ x < kernelEnd,
        IdentityMapped (spacesBoot mem pmm).vm.mem (spacesBoot mem pmm).kernelDirectory x) ∧
      LaterFramesMapped (spacesBoot mem pmm)) ↔
    kernelEnd ≤ 0x400000 ∧ ∀ f, Findable (spacesBoot mem pmm).vm.pmm f → f < 1024 :=
  and_congr (image_mapped_iff htotal hdir htable mem kernelEnd)
    (laterFramesMapped_iff htotal hdir htable mem)

/-- With the sixteen frames above one megabyte and an image of 4 MiB everything is
    mapped. -/
theorem identity_map_covers_iff_small :
    ∃ pmm, pmmInit 3 smallMem smallInfo ⟨fun _ => 0, 0, 0⟩ = some pmm ∧
      (∀ x < 0x400000, IdentityMapped (spacesBoot (fun _ => 0) pmm).vm.mem
        (spacesBoot (fun _ => 0) pmm).kernelDirectory x) ∧
      LaterFramesMapped (spacesBoot (fun _ => 0) pmm) := by
  obtain ⟨pmm, hpmm, htotal, hfree⟩ := pmmInit_small
  obtain ⟨hfirst, hsecond, -⟩ := three_allocs htotal (by norm_num) hfree
  refine ⟨pmm, hpmm, (identity_map_covers_iff _ pmm htotal (by rw [hfirst]; norm_num)
    (by rw [hfirst, hsecond]; norm_num) 0x400000).mpr ⟨le_rfl, ?_⟩⟩
  intro f hf
  obtain ⟨-, hmapped⟩ := kernelMapped_boot (fun _ => 0) (by norm_num) (by norm_num) hfirst hsecond
  rw [hmapped.pmm_eq, findable_takeFrame, findable_takeFrame, hfree] at hf
  omega

/-- On the 128 MiB machine address `0x400000`, inside the kernel's `heap_area`, has no
    translation, nor have all the frames that later calls obtain. -/
theorem heap_area_unmapped :
    ∃ pmm, pmmInit 3 pcMem pcInfo ⟨fun _ => 0, 0, 0⟩ = some pmm ∧
      (spacesBoot (fun _ => 0) pmm).kernelDirectory = 0x100000 ∧
      vmmGetPhysical (spacesBoot (fun _ => 0) pmm).vm.mem 0x100000 0x400000 = 0 ∧
      ¬ (∀ x < 0x500000, IdentityMapped (spacesBoot (fun _ => 0) pmm).vm.mem
        (spacesBoot (fun _ => 0) pmm).kernelDirectory x) ∧
      ¬ LaterFramesMapped (spacesBoot (fun _ => 0) pmm) := by
  have htotal : (bootPmm ⟨fun _ => 0, 0, 0⟩ pcMap).totalFrames ≤ 131072 := by
    rw [bootPmm_totalFrames]
    omega
  have hfree : ∀ f, Findable (bootPmm ⟨fun _ => 0, 0, 0⟩ pcMap) f ↔ 256 ≤ f ∧ f < 32736 := by
    intro f
    rw [findable_bootPmm_iff]
    simp only [MapOffers, pcMap, List.mem_cons, List.not_mem_nil, or_false, exists_eq_or_imp,
      exists_eq_left, true_and]
    omega
  obtain ⟨hfirst, hsecond, -⟩ := three_allocs htotal (by norm_num) hfree
  obtain ⟨hkernel, hmapped⟩ :=
    kernelMapped_boot (fun _ => 0) (by norm_num) (by norm_num) hfirst hsecond
  have hdir : (pmmAllocFrame (bootPmm ⟨fun _ => 0, 0, 0⟩ pcMap)).1 ≠ 0 := by
    rw [hfirst]
    norm_num
  have htable : (pmmAllocFrame (pmmAllocFrame (bootPmm ⟨fun _ => 0, 0, 0⟩ pcMap)).2).1 ≠ 0 := by
    rw [hfirst, hsecond]
    norm_num
  refine ⟨_, pmmInit_eq memoryMap_pc _ (by decide), hkernel, ?_, ?_, ?_⟩
  · have hpage := pageFrame_boot htotal hdir htable (fun _ => 0) (n := 1024) (by norm_num)
    rw [hkernel, if_neg (by norm_num)] at hpage
    rw [vmmGetPhysical_eq, show 0x400000 / 4096 = 1024 by norm_num, hpage]
    rfl
  · rw [image_mapped_iff htotal hdir htable]
    norm_num
  · rw [laterFramesMapped_iff htotal hdir htable, hmapped.pmm_eq]
    intro hlow
    have hfound : Findable (takeFrame (takeFrame (bootPmm ⟨fun _ => 0, 0, 0⟩ pcMap) 256) 257) 1024 := by
      rw [findable_takeFrame, findable_takeFrame, hfree]
      omega
    exact absurd (hlow 1024 hfound) (by norm_num)

end NexusKernel.Memory
