import NexusKernel.Common.Run
import NexusKernel.Memory.PageTables

/-!
# Kernel mappings in every address space

`vmm_create_address_space` copies the present entries of the kernel directory once.
The tables behind them are shared from then on, the entries are not: a table that
`vmm_map_page` enters in the kernel directory later is in no directory made before.

Here a directory object has three frames of its own, apart from every table, so
that only the sharing is at issue.

Results:
* `newDirectory_reads`: the entries of a new directory, and what its creation
  leaves alone.
* `shared_step`: the entries stay shared as long as no table is entered behind the
  back of a live directory.
* `kernel_mappings_seen_iff`: exactly which runs show every kernel mapping in every
  address space.
* `later_mapping_unseen`: a run of two calls that does not.
-/

namespace NexusKernel.Memory

variable {σ : Type}

/-! ## Directories with storage of their own -/

/-- A source of frames that also serves directory objects: 0, or the first of three
    frames that were not in use. -/
structure DirectorySource (σ : Type) extends FrameSource σ where
  allocDirectory : σ → ℕ × σ
  directory_mono : ∀ s, inUse s ⊆ inUse (allocDirectory s).2
  directory_aligned : ∀ s, (allocDirectory s).1 % 4096 = 0
  directory_fresh : ∀ s, (allocDirectory s).1 ≠ 0 →
    ∀ j < 3, (allocDirectory s).1 / 4096 + j ∉ inUse s
  directory_taken : ∀ s, (allocDirectory s).1 ≠ 0 →
    ∀ j < 3, (allocDirectory s).1 / 4096 + j ∈ inUse (allocDirectory s).2

/-- The machine, the kernel directory and the directories made from it. -/
structure KernelSpaces (σ : Type) where
  vm : Vm σ
  kernelDirectory : ℕ
  live : List ℕ

/-- A new address space, or a call on the kernel directory. -/
inductive KernelOp where
  | create
  | kernel (op : PageOp)

instance : (op : PageOp) → Decidable op.Valid
  | .map virt phys flags =>
    inferInstanceAs (Decidable (virt < 2 ^ 32 ∧ phys < 2 ^ 32 ∧ flags < 0x1000))
  | .unmap virt => inferInstanceAs (Decidable (virt < 2 ^ 32))

def kernelStep (A : DirectorySource σ) (s : KernelSpaces σ) : KernelOp → Option (KernelSpaces σ)
  | .create =>
    let (dir, vm) := vmmCreateAddressSpace A.allocDirectory s.kernelDirectory s.vm
    if dir = 0 then some { s with vm := vm } else some { s with vm := vm, live := dir :: s.live }
  | .kernel op =>
    if op.Valid then some { s with vm := pageStep A.toFrameSource s.kernelDirectory s.vm op }
    else none

/-- Every address space translates every address as the kernel directory does. -/
def SeesKernel (s : KernelSpaces σ) : Prop :=
  ∀ d ∈ s.live, ∀ virt < 2 ^ 32,
    vmmGetPhysical s.vm.mem d virt = vmmGetPhysical s.vm.mem s.kernelDirectory virt

/-- A map enters no table in the kernel directory once an address space is live. -/
def EntersNoTable (A : DirectorySource σ) (s : KernelSpaces σ) : KernelOp → Prop
  | .kernel (.map virt _ _) =>
    s.live = [] ∨ Present s.vm.mem s.kernelDirectory (tableIdx virt) ∨ (A.alloc s.vm.pmm).1 = 0
  | _ => True

/-! ## The entries of a new directory -/

section

variable {k d : ℕ}

/-- The loop of `vmm_create_address_space` writes into the first frame of the new
    directory only, and copies what is present. -/
theorem foldl_copyEntry {s : Vm σ} (hd : d % 4096 = 0) (hk : k % 4096 = 0)
    (hne : k / 4096 ≠ d / 4096) {n : ℕ} (hn : n ≤ 1024) :
    (∀ y, y % 4 = 0 → y / 4096 ≠ d / 4096 →
      read32 ((List.range n).foldl (copyEntry k d) s).mem y = read32 s.mem y) ∧
    ∀ i < 1024, dirEntry ((List.range n).foldl (copyEntry k d) s).mem d i =
      if i < n ∧ Present s.mem k i then dirEntry s.mem k i else dirEntry s.mem d i := by
  induction n with
  | zero => exact ⟨fun _ _ _ => rfl, fun i _ => by simp⟩
  | succ n ih =>
    obtain ⟨hout, hentry⟩ := ih (by omega)
    rw [List.range_succ, List.foldl_append, List.foldl_cons, List.foldl_nil]
    set t := (List.range n).foldl (copyEntry k d) s
    have hkernel : dirEntry t.mem k n = dirEntry s.mem k n :=
      hout _ (by unfold entryAddr; omega) (by unfold entryAddr; omega)
    have hlt : ∀ i ≠ n, i < n + 1 ∧ Present s.mem k i ↔ i < n ∧ Present s.mem k i := by
      intro i hin
      rw [Nat.lt_succ_iff_lt_or_eq, or_iff_left hin]
    by_cases hp : Present s.mem k n
    · have hbody : copyEntry k d t n = t.store32 (entryAddr d n) (dirEntry s.mem k n) := by
        rw [← hkernel]
        exact if_pos (by rwa [hkernel])
      rw [hbody]
      constructor
      · intro y hy hyd
        rw [← hout y hy hyd]
        exact read32_write32_of_disjoint (by unfold entryAddr; omega)
      · intro i hi
        by_cases hin : i = n
        · subst hin
          rw [if_pos ⟨Nat.lt_succ_self _, hp⟩]
          exact read32_write32_of_lt (read32_lt _ _)
        · simp only [hlt i hin, ← hentry i hi]
          exact read32_write32_of_disjoint (by unfold entryAddr; omega)
    · have hbody : copyEntry k d t n = t := if_neg (by rwa [hkernel])
      rw [hbody]
      refine ⟨hout, ?_⟩
      intro i hi
      rw [hentry i hi]
      by_cases hin : i = n
      · subst hin
        simp [hp]
      · simp only [hlt i hin]

/-- A new directory has the kernel directory's present entries and no others; its
    creation writes into its own three frames. -/
theorem newDirectory_reads {s : Vm σ} (hd : d % 4096 = 0) (hk : k % 4096 = 0)
    (hne : ∀ j < 3, k / 4096 ≠ d / 4096 + j) :
    (∀ y, y % 4 = 0 → (∀ j < 3, y / 4096 ≠ d / 4096 + j) →
      read32 (newDirectory k s d).mem y = read32 s.mem y) ∧
    ∀ i < 1024, dirEntry (newDirectory k s d).mem d i =
      if Present s.mem k i then dirEntry s.mem k i else 0 := by
  set c := (s.clear d directorySize).store32 (physicalAddr d) d with hc
  obtain ⟨hout, hentry⟩ := foldl_copyEntry (s := c) hd hk (hne 0 (by norm_num)) le_rfl
  have hcleared : ∀ y, y % 4 = 0 → (∀ j < 3, y / 4096 ≠ d / 4096 + j) →
      read32 c.mem y = read32 s.mem y := by
    intro y hy hyd
    have h0 := hyd 0 (by norm_num)
    have h1 := hyd 1 (by norm_num)
    have h2 := hyd 2 (by norm_num)
    rw [hc]
    simp only [Vm.clear, Vm.store32, physicalAddr, directorySize]
    rw [read32_write32_of_disjoint (by omega), read32_fill_of_disjoint (by omega)]
  have hkernel : ∀ i < 1024, dirEntry c.mem k i = dirEntry s.mem k i := by
    intro i hi
    refine hcleared _ (by unfold entryAddr; omega) ?_
    intro j hj
    have := hne j hj
    unfold entryAddr
    omega
  refine ⟨fun y hy hyd => (hout y hy (hyd 0 (by norm_num))).trans (hcleared y hy hyd), ?_⟩
  intro i hi
  have hzero : dirEntry c.mem d i = 0 := by
    rw [hc]
    simp only [Vm.clear, Vm.store32, physicalAddr, directorySize, dirEntry, entryAddr]
    rw [read32_write32_of_disjoint (by omega), read32_fill_zero (by omega) (by omega)]
  have hpresent : Present c.mem k i ↔ Present s.mem k i := by
    unfold Present
    rw [hkernel i hi]
  show dirEntry ((List.range 1024).foldl (copyEntry k d) c).mem d i = _
  rw [hentry i hi, hkernel i hi, hzero]
  simp only [hi, hpresent, true_and]

end

/-! ## Shared entries -/

/-- The directory at `d` has the kernel directory's present entries and no others,
    and lies apart from the kernel directory and its tables. -/
structure SharesEntries (A : DirectorySource σ) (s : Vm σ) (k d : ℕ) : Prop where
  aligned : d % 4096 = 0
  used : d / 4096 ∈ A.inUse s.pmm
  object_apart : ∀ j < 3, d / 4096 ≠ k / 4096 + j
  table_apart : ∀ i < 1024, Present s.mem k i → tableOf s.mem k i / 4096 ≠ d / 4096
  present_iff : ∀ i < 1024, Present s.mem d i ↔ Present s.mem k i
  entry_eq : ∀ i < 1024, Present s.mem k i → dirEntry s.mem d i = dirEntry s.mem k i

structure Shared (A : DirectorySource σ) (s : KernelSpaces σ) : Prop where
  kernel : DirectoryTables A.toFrameSource s.vm s.kernelDirectory
  shares : ∀ d ∈ s.live, SharesEntries A s.vm s.kernelDirectory d

variable {A : DirectorySource σ}

theorem SharesEntries.pageFrame_eq {s : Vm σ} {k d : ℕ} (h : SharesEntries A s k d) {n : ℕ}
    (hn : n < 2 ^ 20) : pageFrame s.mem d n = pageFrame s.mem k n := by
  have hi : n / 1024 < 1024 := by omega
  unfold pageFrame
  by_cases hp : Present s.mem k (n / 1024)
  · rw [if_pos hp, if_pos ((h.present_iff _ hi).mpr hp), tableOf, tableOf, h.entry_eq _ hi hp]
  · rw [if_neg hp, if_neg (mt (h.present_iff _ hi).mp hp)]

theorem Shared.seesKernel {s : KernelSpaces σ} (hs : Shared A s) : SeesKernel s := by
  intro d hd virt hvirt
  rw [vmmGetPhysical_eq, vmmGetPhysical_eq, (hs.shares d hd).pageFrame_eq (by omega)]

/-- Sharing is about the words of the two first frames only. -/
theorem SharesEntries.congr {s t : Vm σ} {k d : ℕ} (h : SharesEntries A s k d)
    (hused : A.inUse s.pmm ⊆ A.inUse t.pmm)
    (hd : ∀ i < 1024, dirEntry t.mem d i = dirEntry s.mem d i)
    (hk : ∀ i < 1024, dirEntry t.mem k i = dirEntry s.mem k i) : SharesEntries A t k d := by
  have hpresent : ∀ i < 1024, Present t.mem k i ↔ Present s.mem k i := by
    intro i hi
    unfold Present
    rw [hk i hi]
  refine ⟨h.aligned, hused h.used, h.object_apart, ?_, ?_, ?_⟩
  · intro i hi hp
    rw [tableOf, hk i hi]
    exact h.table_apart i hi ((hpresent i hi).mp hp)
  · intro i hi
    rw [hpresent i hi, ← h.present_iff i hi]
    unfold Present
    rw [hd i hi]
  · intro i hi hp
    rw [hd i hi, hk i hi]
    exact h.entry_eq i hi ((hpresent i hi).mp hp)

/-- A directory whose frames in use are not written keeps its tables. -/
theorem DirectoryTables.congr {B : FrameSource σ} {s t : Vm σ} {k : ℕ} (h : DirectoryTables B s k)
    (hused : B.inUse s.pmm ⊆ B.inUse t.pmm)
    (hk : ∀ i < 1024, dirEntry t.mem k i = dirEntry s.mem k i) : DirectoryTables B t k := by
  have hpresent : ∀ i < 1024, Present t.mem k i → Present s.mem k i := by
    intro i hi hp
    unfold Present at hp
    rwa [hk i hi] at hp
  have htable : ∀ i < 1024, tableOf t.mem k i = tableOf s.mem k i := by
    intro i hi
    rw [tableOf, hk i hi, tableOf]
  refine ⟨h.aligned, fun j hj => hused (h.object_used j hj), ?_, ?_, ?_, ?_⟩
  · intro i hi hp
    rw [htable i hi]
    exact hused (h.table_used i hi (hpresent i hi hp))
  · intro i hi hp
    rw [htable i hi]
    exact h.table_apart i hi (hpresent i hi hp)
  · intro i hi l hl hpi hpl
    rw [htable i hi, htable l hl]
    exact h.table_inj i hi l hl (hpresent i hi hpi) (hpresent l hl hpl)
  · intro i hi hp
    rw [htable i hi]
    exact h.table_ne_zero i hi (hpresent i hi hp)

theorem Shared.congr {s : KernelSpaces σ} (hs : Shared A s) {t : Vm σ}
    (hused : A.inUse s.vm.pmm ⊆ A.inUse t.pmm)
    (hd : ∀ d ∈ s.live, ∀ i < 1024, dirEntry t.mem d i = dirEntry s.vm.mem d i)
    (hk : ∀ i < 1024, dirEntry t.mem s.kernelDirectory i = dirEntry s.vm.mem s.kernelDirectory i) :
    Shared A { s with vm := t } :=
  ⟨hs.kernel.congr hused hk, fun d hdl => (hs.shares d hdl).congr hused (hd d hdl) hk⟩

/-! ## The steps -/

/-- A directory at `d`, in frames that were not in use, joins the others when it gets
    the kernel directory's present entries and nothing outside is written. -/
theorem Shared.cons {s : KernelSpaces σ} (hs : Shared A s) {d : ℕ} {t : Vm σ} (hd : d % 4096 = 0)
    (hfresh : ∀ j < 3, d / 4096 + j ∉ A.inUse s.vm.pmm)
    (hmono : A.inUse s.vm.pmm ⊆ A.inUse t.pmm) (hused : d / 4096 ∈ A.inUse t.pmm)
    (hout : ∀ y, y % 4 = 0 → (∀ j < 3, y / 4096 ≠ d / 4096 + j) →
      read32 t.mem y = read32 s.vm.mem y)
    (hnew : ∀ i < 1024, dirEntry t.mem d i =
      if Present s.vm.mem s.kernelDirectory i then dirEntry s.vm.mem s.kernelDirectory i else 0) :
    Shared A { s with vm := t, live := d :: s.live } := by
  have hentry : ∀ e, e % 4096 = 0 → e / 4096 ∈ A.inUse s.vm.pmm → ∀ i < 1024,
      dirEntry t.mem e i = dirEntry s.vm.mem e i := by
    intro e he heused i hi
    refine hout _ (by unfold entryAddr; omega) ?_
    intro j hj h
    refine hfresh j hj ?_
    rwa [← h, show entryAddr e i / 4096 = e / 4096 by unfold entryAddr; omega]
  have hkernel : ∀ i < 1024,
      dirEntry t.mem s.kernelDirectory i = dirEntry s.vm.mem s.kernelDirectory i :=
    hentry _ hs.kernel.aligned (hs.kernel.object_used 0 (by norm_num))
  have hold := hs.congr hmono (fun e he => hentry e (hs.shares e he).aligned (hs.shares e he).used)
    hkernel
  have hpresent : ∀ i < 1024,
      Present t.mem s.kernelDirectory i ↔ Present s.vm.mem s.kernelDirectory i := by
    intro i hi
    unfold Present
    rw [hkernel i hi]
  refine ⟨hold.kernel, List.forall_mem_cons.mpr ⟨⟨hd, hused, ?_, ?_, ?_, ?_⟩, hold.shares⟩⟩
  · intro j hj h
    exact hfresh 0 (by norm_num) (h ▸ hs.kernel.object_used j hj)
  · intro i hi hp h
    rw [tableOf, hkernel i hi] at h
    exact hfresh 0 (by norm_num) (h ▸ hs.kernel.table_used i hi ((hpresent i hi).mp hp))
  · intro i hi
    rw [hpresent i hi, Present, hnew i hi]
    split_ifs with hp
    · exact Iff.rfl
    · exact iff_of_false (by decide) hp
  · intro i hi hp
    rw [hnew i hi, if_pos ((hpresent i hi).mp hp), hkernel i hi]

/-- A new directory shares all present entries, and the others are not touched. -/
theorem shared_create {s : KernelSpaces σ} (hs : Shared A s)
    (halloc : (A.allocDirectory s.vm.pmm).1 ≠ 0) :
    Shared A { s with
      vm := newDirectory s.kernelDirectory { s.vm with pmm := (A.allocDirectory s.vm.pmm).2 }
        (A.allocDirectory s.vm.pmm).1,
      live := (A.allocDirectory s.vm.pmm).1 :: s.live } := by
  have hd := A.directory_aligned s.vm.pmm
  have hfresh := A.directory_fresh s.vm.pmm halloc
  have hk : ∀ j < 3, s.kernelDirectory / 4096 ≠ (A.allocDirectory s.vm.pmm).1 / 4096 + j := by
    intro j hj h
    exact hfresh j hj (h ▸ hs.kernel.object_used 0 (by norm_num))
  obtain ⟨hout, hnew⟩ := newDirectory_reads
    (s := { s.vm with pmm := (A.allocDirectory s.vm.pmm).2 }) hd hs.kernel.aligned hk
  refine hs.cons hd hfresh ?_ ?_ hout hnew
  · rw [pmm_newDirectory]
    exact A.directory_mono _
  · rw [pmm_newDirectory]
    exact A.directory_taken _ halloc 0 (by norm_num)

/-- A store into a table of the kernel directory changes no entry. -/
theorem shared_storeEntry {s : KernelSpaces σ} (hs : Shared A s) {i j w : ℕ} (hi : i < 1024)
    (hp : Present s.vm.mem s.kernelDirectory i) (hj : j < 1024) :
    Shared A { s with
      vm := s.vm.store32 (tableOf s.vm.mem s.kernelDirectory i + 4 * j) w } := by
  refine hs.congr le_rfl ?_ (fun l hl => dirEntry_storeEntry hs.kernel hi hp hj hl)
  intro d hd l hl
  have hdir := (hs.shares d hd).aligned
  have hapart := (hs.shares d hd).table_apart i hi hp
  have hmod := tableOf_aligned s.vm.mem s.kernelDirectory i
  unfold dirEntry entryAddr
  exact read32_write32_of_disjoint (by omega)

theorem shared_map {s : KernelSpaces σ} (hs : Shared A s) {virt phys flags : ℕ}
    (hvalid : (PageOp.map virt phys flags).Valid)
    (hkeep : EntersNoTable A s (.kernel (.map virt phys flags))) :
    Shared A { s with vm := vmmMapPage A.alloc s.vm s.kernelDirectory virt phys flags } := by
  have hi := tableIdx_lt hvalid.1
  by_cases hp : Present s.vm.mem s.kernelDirectory (tableIdx virt)
  · rw [vmmMapPage_present hp (hs.kernel.table_ne_zero _ hi hp)]
    exact shared_storeEntry hs hi hp (pageIdx_lt virt)
  · obtain hlive | hpresent | hfull := hkeep
    · refine ⟨(pageStep_refines hs.kernel hvalid).1, ?_⟩
      intro d hd
      rw [hlive] at hd
      exact absurd hd List.not_mem_nil
    · exact absurd hpresent hp
    · rw [vmmMapPage_full hp hfull]
      exact hs.congr (A.mono _) (fun _ _ _ _ => rfl) (fun _ _ => rfl)

theorem shared_unmap {s : KernelSpaces σ} (hs : Shared A s) {virt : ℕ} (hvirt : virt < 2 ^ 32) :
    Shared A { s with vm := vmmUnmapPage s.vm s.kernelDirectory virt } := by
  by_cases hp : Present s.vm.mem s.kernelDirectory (tableIdx virt)
  · rw [show vmmUnmapPage s.vm s.kernelDirectory virt = s.vm.store32
      (tableOf s.vm.mem s.kernelDirectory (tableIdx virt) + 4 * pageIdx virt) 0 from if_neg hp]
    exact shared_storeEntry hs (tableIdx_lt hvirt) hp (pageIdx_lt virt)
  · rw [show vmmUnmapPage s.vm s.kernelDirectory virt = s.vm from if_pos (not_not.mp hp)]
    exact hs

theorem kernelStep_kernel_eq_some {s t : KernelSpaces σ} {op : PageOp} :
    kernelStep A s (.kernel op) = some t ↔
      op.Valid ∧ t = { s with vm := pageStep A.toFrameSource s.kernelDirectory s.vm op } := by
  rw [kernelStep]
  split_ifs with hvalid
  · rw [Option.some_inj, eq_comm]
    exact (and_iff_right hvalid).symm
  · exact iff_of_false id fun h => hvalid h.1

theorem kernelStep_create_full {s : KernelSpaces σ} (halloc : (A.allocDirectory s.vm.pmm).1 = 0) :
    kernelStep A s .create =
      some { s with vm := { s.vm with pmm := (A.allocDirectory s.vm.pmm).2 } } := by
  rw [kernelStep, vmmCreateAddressSpace_full halloc]
  rfl

theorem kernelStep_create_fresh {s : KernelSpaces σ} (halloc : (A.allocDirectory s.vm.pmm).1 ≠ 0) :
    kernelStep A s .create = some { s with
      vm := newDirectory s.kernelDirectory { s.vm with pmm := (A.allocDirectory s.vm.pmm).2 }
        (A.allocDirectory s.vm.pmm).1,
      live := (A.allocDirectory s.vm.pmm).1 :: s.live } := by
  rw [kernelStep, vmmCreateAddressSpace_fresh halloc]
  exact if_neg halloc

/-- The entries stay shared while no table is entered behind a live directory. -/
theorem shared_step {s t : KernelSpaces σ} {op : KernelOp} (hs : Shared A s)
    (hkeep : EntersNoTable A s op) (hstep : kernelStep A s op = some t) : Shared A t := by
  cases op with
  | create =>
    by_cases halloc : (A.allocDirectory s.vm.pmm).1 = 0
    · rw [kernelStep_create_full halloc] at hstep
      obtain rfl := Option.some_inj.mp hstep
      exact hs.congr (A.directory_mono _) (fun _ _ _ _ => rfl) (fun _ _ => rfl)
    · rw [kernelStep_create_fresh halloc] at hstep
      obtain rfl := Option.some_inj.mp hstep
      exact shared_create hs halloc
  | kernel op =>
    obtain ⟨hvalid, rfl⟩ := kernelStep_kernel_eq_some.mp hstep
    cases op with
    | map virt phys flags => exact shared_map hs hvalid hkeep
    | unmap virt => exact shared_unmap hs hvalid

/-! ## A table entered later -/

section

variable {s : KernelSpaces σ} {virt phys flags : ℕ}

/-- A table entered in the kernel directory is missing in every live directory. -/
theorem pageFrame_unseen (hs : Shared A s) {d : ℕ} (hd : d ∈ s.live) (hvirt : virt < 2 ^ 32)
    (hp : ¬ Present s.vm.mem s.kernelDirectory (tableIdx virt))
    (halloc : (A.alloc s.vm.pmm).1 ≠ 0) :
    pageFrame (vmmMapPage A.alloc s.vm s.kernelDirectory virt phys flags).mem d (virt / 4096) =
      none := by
  have hi := tableIdx_lt hvirt
  have hshares := hs.shares d hd
  have hdir := hshares.aligned
  have hk := hs.kernel.aligned
  have ht := A.aligned s.vm.pmm
  have hpage := pageIdx_lt virt
  have htd : (A.alloc s.vm.pmm).1 / 4096 ≠ d / 4096 := by
    intro h
    exact A.fresh _ halloc (h ▸ hshares.used)
  have hd0 := hshares.object_apart 0 (by norm_num)
  have hd1 := hshares.object_apart 1 (by norm_num)
  have hentry : dirEntry (vmmMapPage A.alloc s.vm s.kernelDirectory virt phys flags).mem d
      (tableIdx virt) = dirEntry s.vm.mem d (tableIdx virt) := by
    rw [vmmMapPage_fresh hp halloc]
    show read32 (write32 _ _ _) (d + 4 * tableIdx virt) = _
    rw [read32_write32_of_disjoint (by omega), read32_enterTable_of_frame hk hi ht (by omega)
      (by omega) (by omega) (by omega)]
    rfl
  refine if_neg ?_
  rw [← tableIdx_eq, Present, hentry]
  exact mt (hshares.present_iff _ hi).mp hp

theorem pageFrame_mapped (hs : Shared A s) (hvalid : (PageOp.map virt phys flags).Valid)
    (hp : ¬ Present s.vm.mem s.kernelDirectory (tableIdx virt))
    (halloc : (A.alloc s.vm.pmm).1 ≠ 0) :
    pageFrame (vmmMapPage A.alloc s.vm s.kernelDirectory virt phys flags).mem s.kernelDirectory
      (virt / 4096) = some (phys &&& 0xFFFFF000) := by
  have hvirt : virt < 2 ^ 32 := hvalid.1
  have hok : (getOrCreateTable A.alloc s.vm s.kernelDirectory (tableIdx virt) flags).1 ≠ 0 := by
    rw [getOrCreateTable_fresh hp halloc]
    exact halloc
  refine ((pageStep_refines hs.kernel hvalid).2 (virt / 4096) (by omega)).trans (if_pos ⟨?_, rfl⟩)
  simpa [succeeds] using hok

/-- Some address of the page tells the two directories apart: its second byte, which
    is never translated to 0. -/
theorem not_seesKernel_of_enters {t : KernelSpaces σ} {op : KernelOp} (hs : Shared A s)
    (henter : ¬ EntersNoTable A s op) (hstep : kernelStep A s op = some t) : ¬ SeesKernel t := by
  obtain _ | ⟨virt, phys, flags⟩ | virt := op
  · exact absurd trivial henter
  · obtain ⟨hvalid, rfl⟩ := kernelStep_kernel_eq_some.mp hstep
    simp only [EntersNoTable, not_or] at henter
    obtain ⟨hlive, hp, halloc⟩ := henter
    obtain ⟨d, hd⟩ := List.exists_mem_of_ne_nil _ hlive
    have hvirt : virt < 2 ^ 32 := hvalid.1
    have hpage : (virt / 4096 * 4096 + 1) / 4096 = virt / 4096 := by omega
    have hoffset : (virt / 4096 * 4096 + 1) &&& 0xFFF = 1 := by
      rw [show 0xFFF = 2 ^ 12 - 1 by norm_num, Nat.and_two_pow_sub_one_eq_mod]
      omega
    intro hsees
    have h : vmmGetPhysical (vmmMapPage A.alloc s.vm s.kernelDirectory virt phys flags).mem d _ =
        vmmGetPhysical (vmmMapPage A.alloc s.vm s.kernelDirectory virt phys flags).mem
          s.kernelDirectory _ := hsees d hd (virt / 4096 * 4096 + 1) (by omega)
    rw [vmmGetPhysical_eq, vmmGetPhysical_eq, hpage, hoffset,
      pageFrame_unseen hs hd hvirt hp halloc, pageFrame_mapped hs hvalid hp halloc] at h
    exact absurd (Nat.or_eq_zero_iff.mp h.symm).2 one_ne_zero
  · exact absurd trivial henter

end

/-! ## Every run -/

/-- For every source of frames and directories, every kernel directory and every
    interleaving of creations with maps and unmaps on it: all address spaces
    translate as the kernel directory does at every point of the run iff no map
    enters a table in the kernel directory while an address space is live. -/
theorem kernel_mappings_seen_iff (A : DirectorySource σ) (vm : Vm σ) (k : ℕ)
    (hk : DirectoryTables A.toFrameSource vm k) (ops : List KernelOp) (u : KernelSpaces σ)
    (hrun : run (kernelStep A) ⟨vm, k, []⟩ ops = some u) :
    Along (kernelStep A) SeesKernel ⟨vm, k, []⟩ ops ↔
      Meets (kernelStep A) (EntersNoTable A) ⟨vm, k, []⟩ ops :=
  along_iff_meets (Shared A) (fun _ hs => hs.seesKernel)
    (fun _ _ _ hs hkeep hstep => shared_step hs hkeep hstep)
    (fun _ _ _ hs henter hstep => not_seesKernel_of_enters hs henter hstep)
    ⟨hk, fun _ hd => absurd hd List.not_mem_nil⟩ hrun

/-! ## One run of each kind -/

/-- Frames in increasing order, three at a time for a directory. -/
def bumpSource : DirectorySource ℕ where
  alloc n := if n < 2 ^ 20 then (n * 4096, n + 1) else (0, n)
  inUse n := { f | f < n }
  mono n f hf := by
    show f < (ite _ _ _ : ℕ × ℕ).2
    split_ifs
    · exact Nat.lt_succ_of_lt hf
    · exact hf
  aligned n := by split_ifs <;> simp
  lt n := by
    split_ifs with hn
    · show n * 4096 < 2 ^ 32
      omega
    · norm_num
  fresh n h := by
    split_ifs at h ⊢ with hn
    · simp
    · exact absurd rfl h
  taken n h := by
    split_ifs at h ⊢ with hn
    · simp
    · exact absurd rfl h
  allocDirectory n := if n < 2 ^ 20 then (n * 4096, n + 3) else (0, n)
  directory_mono n f hf := by
    show f < (ite _ _ _ : ℕ × ℕ).2
    split_ifs
    · exact Nat.lt_add_right 3 hf
    · exact hf
  directory_aligned n := by split_ifs <;> simp
  directory_fresh n h j hj := by
    split_ifs at h ⊢ with hn
    · simp
    · exact absurd rfl h
  directory_taken n h j hj := by
    split_ifs at h ⊢ with hn
    · simp [hj]
    · exact absurd rfl h

/-- Zeroed memory with an empty directory in the frames 1 to 3. -/
def bumpVm : Vm ℕ := ⟨fun _ => 0, 4, []⟩

theorem directoryTables_bumpVm : DirectoryTables bumpSource.toFrameSource bumpVm 0x1000 := by
  refine EmptyDirectory.directoryTables ⟨by decide, by decide, ?_, ?_⟩
  · intro j hj
    show 0x1000 / 4096 + j < 4
    omega
  · intro i _ h
    have hzero : dirEntry bumpVm.mem 0x1000 i = 0 := rfl
    exact h (by rw [hzero]; decide)

/-- A mapping made before the address space is seen in it. -/
theorem kernel_mappings_seen_iff_bump :
    Along (kernelStep bumpSource) SeesKernel ⟨bumpVm, 0x1000, []⟩
      [.kernel (.map 0 0xB8000 3), .create] := by
  have hrun : run (kernelStep bumpSource) ⟨bumpVm, 0x1000, []⟩
      [.kernel (.map 0 0xB8000 3), .create] = some _ := rfl
  exact (kernel_mappings_seen_iff bumpSource bumpVm 0x1000 directoryTables_bumpVm _ _ hrun).mpr
    ⟨Or.inl rfl, fun _ _ => ⟨trivial, fun _ _ => trivial⟩⟩

/-- The state after the first address space has been made. -/
def bumpSpaces : KernelSpaces ℕ :=
  ⟨newDirectory 0x1000 { bumpVm with pmm := 7 } 0x4000, 0x1000, [0x4000]⟩

theorem kernelStep_bumpSpaces :
    kernelStep bumpSource ⟨bumpVm, 0x1000, []⟩ .create = some bumpSpaces :=
  kernelStep_create_fresh (by decide)

theorem shared_bumpSpaces : Shared bumpSource bumpSpaces :=
  shared_create (s := ⟨bumpVm, 0x1000, []⟩)
    ⟨directoryTables_bumpVm, fun _ hd => absurd hd List.not_mem_nil⟩ (by decide)

theorem not_present_bumpSpaces {i : ℕ} (hi : i < 1024) : ¬ Present bumpSpaces.vm.mem 0x1000 i := by
  have hreads := (newDirectory_reads (k := 0x1000) (d := 0x4000) (s := { bumpVm with pmm := 7 })
    (by decide) (by decide) (by decide)).1
  have hentry : dirEntry bumpSpaces.vm.mem 0x1000 i = 0 := by
    refine hreads _ (by unfold entryAddr; omega) ?_
    intro j hj
    unfold entryAddr
    omega
  rw [Present, hentry]
  decide

/-- A mapping made after it, in four megabytes that had no table, is not. -/
theorem later_mapping_unseen :
    ∃ u, run (kernelStep bumpSource) ⟨bumpVm, 0x1000, []⟩
      [.create, .kernel (.map 0x400000 0xB8000 3)] = some u ∧ u.live = [0x4000] ∧
      vmmGetPhysical u.vm.mem 0x1000 0x400123 = 0xB8123 ∧
      vmmGetPhysical u.vm.mem 0x4000 0x400123 = 0 := by
  have hp := not_present_bumpSpaces (i := tableIdx 0x400000) (by decide)
  have hvalid : (PageOp.map 0x400000 0xB8000 3).Valid := by decide
  have hpmm : bumpSpaces.vm.pmm = 7 := pmm_newDirectory 0x1000 0x4000 { bumpVm with pmm := 7 }
  have halloc : (bumpSource.alloc bumpSpaces.vm.pmm).1 ≠ 0 := by
    rw [hpmm]
    decide
  refine ⟨_, run_cons_eq_some.mpr ⟨_, kernelStep_bumpSpaces,
    run_cons_eq_some.mpr ⟨_, kernelStep_kernel_eq_some.mpr ⟨hvalid, rfl⟩, rfl⟩⟩, rfl, ?_, ?_⟩
  · rw [vmmGetPhysical_eq]
    exact congrArg (Option.elim · 0 _) (pageFrame_mapped shared_bumpSpaces hvalid hp halloc)
  · have hframe : pageFrame (vmmMapPage bumpSource.alloc bumpSpaces.vm 0x1000 0x400000 0xB8000 3).mem
        0x4000 (0x400000 / 4096) = none :=
      pageFrame_unseen shared_bumpSpaces List.mem_cons_self hvalid.1 hp halloc
    rw [vmmGetPhysical_eq]
    exact congrArg (Option.elim · 0 _) hframe

end NexusKernel.Memory
