import NexusKernel.Common.Run
import NexusKernel.Memory.PageTables
import NexusKernel.Memory.PmmKernelImage

/-!
# Address spaces in physical memory

The kernel directory and the directories made by `vmm_create_address_space`, over
the one frame allocator. A `page_directory_t` is 12 KiB, but a directory gets a
single frame: `memset` in `vmm_create_address_space` and the store to
`tables_physical` in `get_or_create_table` reach into the frames behind it.

Results:
* `lowestFirst_alloc`: without frees, frames are handed out in increasing order.
* `not_isolated_create`: a successful `vmm_create_address_space` writes to frames
  that were not handed out for the new directory.
* `address_space_isolation_iff`: exactly which runs keep to their frames.
* `kernelMapped_boot`: `vmm_init` takes two frames, the second for the first table.
* `create_overwrites_kernel_directory`: the first directory created lands on the
  kernel directory's `physical_addr`.
-/

namespace NexusKernel.Memory

open Bitmap

/-! ## Frames handed out in increasing order -/

/-- The frames taken between two states of the allocator. -/
def newlyTaken (p q : Pmm) : Set ℕ :=
  { f | bit p.frameBitmap f = false ∧ bit q.frameBitmap f = true }

/-- `q` comes from `p` by allocations only, each of the lowest frame. -/
structure LowestFirst (p q : Pmm) : Prop where
  total_eq : q.totalFrames = p.totalFrames
  mono : ∀ f, bit p.frameBitmap f = true → bit q.frameBitmap f = true
  low : ∀ f ∈ newlyTaken p q, ∀ g, Findable q g → f < g

theorem LowestFirst.refl (p : Pmm) : LowestFirst p p :=
  ⟨rfl, fun _ h => h, fun _ hf => absurd (hf.1.symm.trans hf.2) Bool.false_ne_true⟩

theorem LowestFirst.findable {p q : Pmm} (h : LowestFirst p q) {g : ℕ} (hg : Findable q g) :
    Findable p g := by
  refine ⟨h.total_eq ▸ hg.1, ?_⟩
  by_contra hset
  exact Bool.noConfusion ((h.mono g (Bool.of_not_eq_false hset)).symm.trans hg.2)

theorem LowestFirst.trans {p q r : Pmm} (h : LowestFirst p q) (h' : LowestFirst q r) :
    LowestFirst p r := by
  refine ⟨h'.total_eq.trans h.total_eq, fun f hf => h'.mono f (h.mono f hf), ?_⟩
  intro f hf g hg
  by_cases hq : bit q.frameBitmap f = true
  · exact h.low f ⟨hf.1, hq⟩ g (h'.findable hg)
  · exact h'.low f ⟨Bool.of_not_eq_true hq, hf.2⟩ g hg

theorem newlyTaken_takeFrame {p : Pmm} {f : ℕ} (hf : bit p.frameBitmap f = false) :
    newlyTaken p (takeFrame p f) = {f} := by
  ext g
  simp only [newlyTaken, Set.mem_ofPred_eq, Set.mem_singleton_iff, bit_takeFrame]
  by_cases hg : g = f
  · subst hg; simp [hf]
  · simp [hg]

/-- An allocation takes the lowest frame that can be found. -/
theorem lowestFirst_alloc {p : Pmm} (htotal : p.totalFrames ≤ 131072) :
    LowestFirst p (pmmAllocFrame p).2 := by
  obtain ⟨h, -⟩ | ⟨f, h, hf, hlow⟩ := pmmAllocFrame_cases htotal
  · rw [h]
    exact LowestFirst.refl p
  · rw [h]
    refine ⟨rfl, fun g hg => bit_takeFrame_of_set hg, ?_⟩
    intro f' hf' g hg
    rw [newlyTaken_takeFrame hf.2] at hf'
    obtain rfl := Set.mem_singleton_iff.mp hf'
    have hne : g ≠ f' := by
      rintro rfl
      exact Bool.noConfusion (hg.2.symm.trans (by rw [bit_takeFrame, Function.update_self]))
    rw [Findable, bit_takeFrame, Function.update_of_ne hne] at hg
    exact lt_of_le_of_ne (hlow g hg) hne.symm

/-! ## States and calls -/

/-- The machine, the kernel directory, the live directories and, for each of them,
    the frames the allocator has handed out for it. -/
structure Spaces where
  vm : Vm Pmm
  kernelDirectory : ℕ
  live : List ℕ
  frames : ℕ → Set ℕ

inductive SpaceOp where
  | create
  | map (dir virt phys flags : ℕ)
  | unmap (dir virt : ℕ)

/-- The machine with the log of writes emptied, at the start of a call. -/
def Vm.startLog {σ : Type} (s : Vm σ) : Vm σ := { s with writes := [] }

/-- One call, on a live directory and a 32-bit address. The log of writes is
    that of the call. -/
def spaceStep (s : Spaces) : SpaceOp → Option Spaces
  | .create =>
    let (dir, vm) :=
      vmmCreateAddressSpace pmmAllocFrame s.kernelDirectory s.vm.startLog
    if dir = 0 then some { s with vm := vm }
    else some { s with
      vm := vm, live := dir :: s.live,
      frames := Function.update s.frames dir (newlyTaken s.vm.pmm vm.pmm) }
  | .map dir virt phys flags =>
    if dir ∈ s.live ∧ virt < 2 ^ 32 then
      let vm := vmmMapPage pmmAllocFrame s.vm.startLog dir virt phys flags
      some { s with
        vm := vm,
        frames := Function.update s.frames dir (s.frames dir ∪ newlyTaken s.vm.pmm vm.pmm) }
    else none
  | .unmap dir virt =>
    if dir ∈ s.live ∧ virt < 2 ^ 32 then
      some { s with vm := vmmUnmapPage s.vm.startLog dir virt }
    else none

/-- The state after `vmm_init` on any memory and allocator. -/
def spacesBoot (mem : Mem) (pmm : Pmm) : Spaces :=
  let (dir, vm) := vmmInit pmmAllocFrame ⟨mem, pmm, []⟩
  { vm := vm, kernelDirectory := dir, live := [dir],
    frames := fun d => if d = dir then newlyTaken pmm vm.pmm else ∅ }

/-! ## Isolation -/

/-- The directory a call is about: the one it creates, if any, or its argument. -/
def SpaceOp.subject (s : Spaces) : SpaceOp → Option ℕ
  | .create => if (pmmAllocFrame s.vm.pmm).1 = 0 then none else some (pmmAllocFrame s.vm.pmm).1
  | .map dir _ _ _ => some dir
  | .unmap dir _ => some dir

/-- The frames a call about `dir` may write to: those handed out for `dir`, and
    the kernel directory's page tables. -/
def Spaces.own (s : Spaces) (dir : ℕ) : Set ℕ :=
  s.frames dir ∪ (s.frames s.kernelDirectory \ {s.kernelDirectory / 4096})

/-- Every address of a logged write lies in a frame of `F`. -/
def WritesIn (writes : List (ℕ × ℕ)) (F : Set ℕ) : Prop :=
  ∀ w ∈ writes, ∀ x, w.1 ≤ x → x < w.1 + w.2 → x / 4096 ∈ F

/-- The directory `d` is the same in both states: `physical_addr`, every entry, and
    every translation that does not go through a table of the kernel directory. -/
structure Unaffected (s t : Spaces) (d : ℕ) : Prop where
  physical_addr : read32 t.vm.mem (physicalAddr d) = read32 s.vm.mem (physicalAddr d)
  entries : ∀ i < 1024, dirEntry t.vm.mem d i = dirEntry s.vm.mem d i
  translation : ∀ virt < 2 ^ 32,
    (Present s.vm.mem d (tableIdx virt) →
      tableOf s.vm.mem d (tableIdx virt) / 4096 ∉ s.frames s.kernelDirectory) →
    vmmGetPhysical t.vm.mem d virt = vmmGetPhysical s.vm.mem d virt

/-- A call writes only to frames of the directory it is about, and leaves every
    other live directory as it was. -/
def Isolated (s : Spaces) (op : SpaceOp) : Prop :=
  ∀ t, spaceStep s op = some t →
    WritesIn t.vm.writes ((op.subject s).elim ∅ t.own) ∧
    ∀ d ∈ s.live, op.subject s ≠ some d → Unaffected s t d

/-- What a call has to meet: no directory is created; the table an entry names is
    one of the directory's frames; and a new table is entered only if the frame
    behind the directory's own is one of its frames or becomes the table. -/
def KeepsToFrames (s : Spaces) : SpaceOp → Prop
  | .create => (pmmAllocFrame s.vm.pmm).1 = 0
  | .map dir virt _ _ =>
    if Present s.vm.mem dir (tableIdx virt) then
      tableOf s.vm.mem dir (tableIdx virt) = 0 ∨
        tableOf s.vm.mem dir (tableIdx virt) / 4096 ∈ s.own dir
    else (pmmAllocFrame s.vm.pmm).1 = 0 ∨
      dir / 4096 + 1 = (pmmAllocFrame s.vm.pmm).1 / 4096 ∨ dir / 4096 + 1 ∈ s.own dir
  | .unmap dir virt =>
    Present s.vm.mem dir (tableIdx virt) →
      tableOf s.vm.mem dir (tableIdx virt) / 4096 ∈ s.own dir

/-! ## Logged writes -/

theorem writesIn_nil (F : Set ℕ) : WritesIn [] F := fun _ h => absurd h List.not_mem_nil

/-- A write inside one frame. -/
theorem writesIn_cons_iff {a n : ℕ} {l : List (ℕ × ℕ)} {F : Set ℕ} (hn : 0 < n)
    (ha : a % 4096 + n ≤ 4096) : WritesIn ((a, n) :: l) F ↔ a / 4096 ∈ F ∧ WritesIn l F := by
  constructor
  · intro h
    refine ⟨h (a, n) List.mem_cons_self a le_rfl (Nat.lt_add_of_pos_right hn), ?_⟩
    intro w hw
    exact h w (List.mem_cons_of_mem _ hw)
  · rintro ⟨ha', hl⟩ w hw x h1 h2
    obtain rfl | hw := List.mem_cons.mp hw
    · simp only at h1 h2
      rw [show x / 4096 = a / 4096 by omega]
      exact ha'
    · exact hl w hw x h1 h2

/-- A word of an aligned frame. -/
theorem writesIn_word_iff {a j : ℕ} {l : List (ℕ × ℕ)} {F : Set ℕ} (ha : a % 4096 = 0)
    (hj : j < 1024) : WritesIn ((a + 4 * j, 4) :: l) F ↔ a / 4096 ∈ F ∧ WritesIn l F := by
  rw [writesIn_cons_iff (by norm_num) (by omega), show (a + 4 * j) / 4096 = a / 4096 by omega]

/-- The whole object is written. -/
theorem newDirectory_writes (k d : ℕ) (s : Vm Pmm) :
    (d, directorySize) ∈ (newDirectory k s d).writes := by
  refine List.foldlRecOn (motive := fun t : Vm Pmm => (d, directorySize) ∈ t.writes) _ _
    (List.mem_cons_of_mem _ List.mem_cons_self) ?_
  intro t ht i _
  unfold copyEntry
  split_ifs
  · exact List.mem_cons_of_mem _ ht
  · exact ht

/-- A map asks the allocator at most once. -/
theorem vmmMapPage_pmm (s : Vm Pmm) (dir virt phys flags : ℕ) :
    (vmmMapPage pmmAllocFrame s dir virt phys flags).pmm = s.pmm ∨
      (vmmMapPage pmmAllocFrame s dir virt phys flags).pmm = (pmmAllocFrame s.pmm).2 := by
  by_cases hp : Present s.mem dir (tableIdx virt)
  · left
    by_cases h0 : tableOf s.mem dir (tableIdx virt) = 0
    · rw [vmmMapPage_null hp h0]
    · rw [vmmMapPage_present hp h0]
      rfl
  · right
    by_cases ht : (pmmAllocFrame s.pmm).1 = 0
    · rw [vmmMapPage_full hp ht]
    · rw [vmmMapPage_fresh hp ht]
      rfl

theorem lowestFirst_vmmMapPage {s : Vm Pmm} (htotal : s.pmm.totalFrames ≤ 131072)
    (dir virt phys flags : ℕ) :
    LowestFirst s.pmm (vmmMapPage pmmAllocFrame s dir virt phys flags).pmm := by
  obtain h | h := vmmMapPage_pmm s dir virt phys flags
  · rw [h]
    exact LowestFirst.refl _
  · rw [h]
    exact lowestFirst_alloc htotal

/-! ## The states of runs that keep to their frames -/

/-- While every call keeps to its frames the kernel directory is the only one; its
    frames lie below all that can still be handed out. -/
structure SpaceInv (s : Spaces) : Prop where
  live_eq : s.live = [s.kernelDirectory]
  aligned : s.kernelDirectory % 4096 = 0
  total_le : s.vm.pmm.totalFrames ≤ 131072
  low : ∀ f ∈ s.frames s.kernelDirectory, ∀ g, Findable s.vm.pmm g → f < g
  dir_own : s.kernelDirectory / 4096 ∈ s.frames s.kernelDirectory ∨ ∀ g, ¬ Findable s.vm.pmm g

theorem Spaces.own_kernelDirectory (s : Spaces) :
    s.own s.kernelDirectory = s.frames s.kernelDirectory :=
  Set.union_eq_left.mpr Set.sdiff_subset

theorem spaceStep_create_full {s : Spaces} (halloc : (pmmAllocFrame s.vm.pmm).1 = 0) :
    spaceStep s .create =
      some { s with vm := { s.vm.startLog with pmm := (pmmAllocFrame s.vm.pmm).2 } } := by
  rw [spaceStep, vmmCreateAddressSpace_full (s := s.vm.startLog) halloc]
  rfl

/-- The machine after a successful `vmm_create_address_space`. -/
def Spaces.created (s : Spaces) : Vm Pmm :=
  newDirectory s.kernelDirectory { s.vm.startLog with pmm := (pmmAllocFrame s.vm.pmm).2 }
    (pmmAllocFrame s.vm.pmm).1

theorem Spaces.created_pmm (s : Spaces) : s.created.pmm = (pmmAllocFrame s.vm.pmm).2 :=
  pmm_newDirectory _ _ _

theorem spaceStep_create_fresh {s : Spaces} (halloc : (pmmAllocFrame s.vm.pmm).1 ≠ 0) :
    spaceStep s .create = some { s with
      vm := s.created, live := (pmmAllocFrame s.vm.pmm).1 :: s.live,
      frames := Function.update s.frames (pmmAllocFrame s.vm.pmm).1
        (newlyTaken s.vm.pmm (pmmAllocFrame s.vm.pmm).2) } := by
  rw [spaceStep, vmmCreateAddressSpace_fresh (s := s.vm.startLog) halloc, ← s.created_pmm]
  exact if_neg halloc

/-- The directory object does not fit the frame it is given. -/
theorem not_isolated_create {s : Spaces} (hs : SpaceInv s)
    (halloc : (pmmAllocFrame s.vm.pmm).1 ≠ 0) : ¬ Isolated s .create := by
  intro hiso
  obtain ⟨h, -⟩ | ⟨f, h, hf, -⟩ := pmmAllocFrame_cases hs.total_le
  · rw [h] at halloc
    exact halloc rfl
  · have hsubject : SpaceOp.create.subject s = some (pmmAllocFrame s.vm.pmm).1 := if_neg halloc
    have hwrite : ((pmmAllocFrame s.vm.pmm).1, directorySize) ∈ s.created.writes :=
      newDirectory_writes _ _ _
    have hin := (hiso _ (spaceStep_create_fresh halloc)).1 _ hwrite
    rw [hsubject] at hin
    simp only [Option.elim_some, Spaces.own, h, newlyTaken_takeFrame hf.2, directorySize, pageSize,
      Function.update_self] at hin
    -- the frame after the directory's is written; it would have to be a kernel table
    have hnext := hin (f * 4096 + 4096) (by omega) (by omega)
    rw [show (f * 4096 + 4096) / 4096 = f + 1 by omega] at hnext
    have hlow : s.kernelDirectory / 4096 < f := by
      obtain hown | hnone := hs.dir_own
      · exact hs.low _ hown f hf
      · exact absurd hf (hnone f)
    rw [Function.update_of_ne (by omega)] at hnext
    obtain hnext | hnext := hnext
    · exact absurd (Set.mem_singleton_iff.mp hnext) (by omega)
    · exact absurd (hs.low _ hnext.1 f hf) (by omega)

theorem isolated_create_iff {s : Spaces} (hs : SpaceInv s) :
    Isolated s .create ↔ KeepsToFrames s .create := by
  constructor
  · intro hiso
    by_contra halloc
    exact not_isolated_create hs halloc hiso
  · intro halloc t ht
    rw [spaceStep_create_full halloc] at ht
    obtain rfl := Option.some_inj.mp ht
    exact ⟨writesIn_nil _, fun d _ _ => ⟨rfl, fun _ _ => rfl, fun _ _ _ => rfl⟩⟩

/-- With one live directory, a call on it is isolated iff it writes to its frames. -/
theorem isolated_iff_writesIn {s t : Spaces} (hs : SpaceInv s) {op : SpaceOp}
    (hsubject : op.subject s = some s.kernelDirectory) (hstep : spaceStep s op = some t)
    (hkernel : t.kernelDirectory = s.kernelDirectory) :
    Isolated s op ↔ WritesIn t.vm.writes (t.frames s.kernelDirectory) := by
  have hown : t.own s.kernelDirectory = t.frames s.kernelDirectory :=
    hkernel ▸ t.own_kernelDirectory
  constructor
  · intro hiso
    have := (hiso t hstep).1
    rwa [hsubject, Option.elim_some, hown] at this
  · intro hwrites t' ht'
    obtain rfl := Option.some_inj.mp (hstep.symm.trans ht')
    refine ⟨by rwa [hsubject, Option.elim_some, hown], ?_⟩
    intro d hd hne
    rw [hs.live_eq, List.mem_singleton] at hd
    exact absurd (hd ▸ hsubject) hne

theorem newlyTaken_self (p : Pmm) : newlyTaken p p = ∅ := by
  ext f
  simp [newlyTaken]

theorem spaceStep_map_eq_some {s t : Spaces} {dir virt phys flags : ℕ} :
    spaceStep s (.map dir virt phys flags) = some t ↔
      (dir ∈ s.live ∧ virt < 2 ^ 32) ∧ t = { s with
        vm := vmmMapPage pmmAllocFrame s.vm.startLog dir virt phys flags,
        frames := Function.update s.frames dir (s.frames dir ∪ newlyTaken s.vm.pmm
          (vmmMapPage pmmAllocFrame s.vm.startLog dir virt phys flags).pmm) } := by
  rw [spaceStep]
  split_ifs with hguard
  · rw [Option.some_inj, eq_comm]
    exact (and_iff_right hguard).symm
  · exact iff_of_false id fun h => hguard h.1

theorem spaceStep_unmap_eq_some {s t : Spaces} {dir virt : ℕ} :
    spaceStep s (.unmap dir virt) = some t ↔
      (dir ∈ s.live ∧ virt < 2 ^ 32) ∧
        t = { s with vm := vmmUnmapPage s.vm.startLog dir virt } := by
  rw [spaceStep]
  split_ifs with hguard
  · rw [Option.some_inj, eq_comm]
    exact (and_iff_right hguard).symm
  · exact iff_of_false id fun h => hguard h.1

/-- The writes of a map that enters a new table: two words of the object, the table
    and a word of it. Only the word of `tables_physical` can be out of place. -/
theorem writesIn_fresh_iff {s : Spaces} (hs : SpaceInv s) {i j flags v : ℕ}
    (hfull : (pmmAllocFrame s.vm.pmm).1 ≠ 0) (hi : i < 1024) (hj : j < 1024) :
    WritesIn (((enterTable { s.vm.startLog with pmm := (pmmAllocFrame s.vm.pmm).2 }
        s.kernelDirectory i flags (pmmAllocFrame s.vm.pmm).1).store32
        ((pmmAllocFrame s.vm.pmm).1 + 4 * j) v).writes)
      (s.frames s.kernelDirectory ∪ newlyTaken s.vm.pmm (pmmAllocFrame s.vm.pmm).2) ↔
    s.kernelDirectory / 4096 + 1 = (pmmAllocFrame s.vm.pmm).1 / 4096 ∨
      s.kernelDirectory / 4096 + 1 ∈ s.frames s.kernelDirectory := by
  obtain ⟨h, -⟩ | ⟨f, h, hf, -⟩ := pmmAllocFrame_cases hs.total_le
  · rw [h] at hfull
    exact absurd rfl hfull
  · have halign := hs.aligned
    have hown : s.kernelDirectory / 4096 ∈ s.frames s.kernelDirectory :=
      hs.dir_own.resolve_right fun hnone => hnone f hf
    have hframe : f * 4096 / 4096 = f := Nat.mul_div_cancel f (by norm_num)
    rw [h, newlyTaken_takeFrame hf.2]
    show WritesIn [(f * 4096 + 4 * j, 4), (f * 4096, 4096),
      (s.kernelDirectory + 4096 + 4 * i, 4), (s.kernelDirectory + 4 * i, 4)] _ ↔
        s.kernelDirectory / 4096 + 1 = f * 4096 / 4096 ∨ _
    rw [writesIn_word_iff (Nat.mul_mod_left f 4096) hj,
      writesIn_cons_iff (by norm_num) (by rw [Nat.mul_mod_left]),
      writesIn_word_iff (by omega) hi, writesIn_word_iff halign hi, hframe,
      show (s.kernelDirectory + 4096) / 4096 = s.kernelDirectory / 4096 + 1 by omega]
    simp [hown, writesIn_nil, or_comm]

/-- Mapping a page writes inside the directory's frames iff the call keeps to them. -/
theorem isolated_map_iff {s t : Spaces} (hs : SpaceInv s) {dir virt phys flags : ℕ}
    (hstep : spaceStep s (.map dir virt phys flags) = some t) :
    Isolated s (.map dir virt phys flags) ↔ KeepsToFrames s (.map dir virt phys flags) := by
  obtain ⟨⟨hdir, hvirt⟩, ht⟩ := spaceStep_map_eq_some.mp hstep
  rw [hs.live_eq, List.mem_singleton] at hdir
  subst hdir
  have hpage := pageIdx_lt virt
  have hidx := tableIdx_lt hvirt
  have halign := hs.aligned
  rw [isolated_iff_writesIn hs rfl hstep (by rw [ht]), ht]
  simp only [KeepsToFrames, Function.update_self, s.own_kernelDirectory]
  by_cases hp : Present s.vm.mem s.kernelDirectory (tableIdx virt)
  · rw [if_pos hp]
    by_cases h0 : tableOf s.vm.mem s.kernelDirectory (tableIdx virt) = 0
    · rw [vmmMapPage_null (s := s.vm.startLog) hp h0]
      exact iff_of_true (writesIn_nil _) (Or.inl h0)
    · rw [vmmMapPage_present (s := s.vm.startLog) hp h0]
      show WritesIn [(tableOf s.vm.mem s.kernelDirectory (tableIdx virt) + 4 * pageIdx virt, 4)]
        (_ ∪ newlyTaken s.vm.pmm s.vm.pmm) ↔ _
      rw [newlyTaken_self, Set.union_empty, writesIn_word_iff (tableOf_aligned _ _ _) hpage,
        and_iff_left (writesIn_nil _), or_iff_right h0]
  · rw [if_neg hp]
    by_cases hfull : (pmmAllocFrame s.vm.pmm).1 = 0
    · rw [vmmMapPage_full (s := s.vm.startLog) hp hfull]
      exact iff_of_true (writesIn_nil _) (Or.inl hfull)
    · rw [vmmMapPage_fresh (s := s.vm.startLog) hp hfull, or_iff_right hfull]
      exact writesIn_fresh_iff hs hfull hidx hpage

theorem isolated_unmap_iff {s t : Spaces} (hs : SpaceInv s) {dir virt : ℕ}
    (hstep : spaceStep s (.unmap dir virt) = some t) :
    Isolated s (.unmap dir virt) ↔ KeepsToFrames s (.unmap dir virt) := by
  obtain ⟨⟨hdir, -⟩, ht⟩ := spaceStep_unmap_eq_some.mp hstep
  rw [hs.live_eq, List.mem_singleton] at hdir
  subst hdir
  rw [isolated_iff_writesIn hs rfl hstep (by rw [ht]), ht]
  simp only [KeepsToFrames, s.own_kernelDirectory]
  by_cases hp : Present s.vm.mem s.kernelDirectory (tableIdx virt)
  · rw [show vmmUnmapPage s.vm.startLog s.kernelDirectory virt = s.vm.startLog.store32
      (tableOf s.vm.mem s.kernelDirectory (tableIdx virt) + 4 * pageIdx virt) 0 from if_neg hp]
    show WritesIn [(tableOf s.vm.mem s.kernelDirectory (tableIdx virt) + 4 * pageIdx virt, 4)] _ ↔ _
    rw [writesIn_word_iff (tableOf_aligned _ _ _) (pageIdx_lt virt), and_iff_left (writesIn_nil _)]
    exact ⟨fun h _ => h, fun h => h hp⟩
  · rw [show vmmUnmapPage s.vm.startLog s.kernelDirectory virt = s.vm.startLog from
      if_pos (not_not.mp hp)]
    exact iff_of_true (writesIn_nil _) fun h => absurd h hp

theorem isolated_iff {s t : Spaces} {op : SpaceOp} (hs : SpaceInv s)
    (hstep : spaceStep s op = some t) : Isolated s op ↔ KeepsToFrames s op := by
  cases op with
  | create => exact isolated_create_iff hs
  | map dir virt phys flags => exact isolated_map_iff hs hstep
  | unmap dir virt => exact isolated_unmap_iff hs hstep

/-- The invariant over a step of the allocator, for frames that grow by what it
    hands out. -/
theorem SpaceInv.grow {s t : Spaces} (hs : SpaceInv s) (hlive : t.live = s.live)
    (hkernel : t.kernelDirectory = s.kernelDirectory)
    (hpmm : LowestFirst s.vm.pmm t.vm.pmm)
    (hframes : s.frames s.kernelDirectory ⊆ t.frames s.kernelDirectory)
    (hframes' : t.frames s.kernelDirectory ⊆
      s.frames s.kernelDirectory ∪ newlyTaken s.vm.pmm t.vm.pmm) : SpaceInv t where
  live_eq := by rw [hlive, hkernel, hs.live_eq]
  aligned := hkernel ▸ hs.aligned
  total_le := hpmm.total_eq ▸ hs.total_le
  low := by
    intro f hf g hg
    rw [hkernel] at hf
    obtain hf | hf := hframes' hf
    · exact hs.low f hf g (hpmm.findable hg)
    · exact hpmm.low f hf g hg
  dir_own := by
    rw [hkernel]
    obtain hown | hnone := hs.dir_own
    · exact Or.inl (hframes hown)
    · exact Or.inr fun g hg => hnone g (hpmm.findable hg)

theorem spaceInv_step {s t : Spaces} {op : SpaceOp} (hs : SpaceInv s) (hkeep : KeepsToFrames s op)
    (hstep : spaceStep s op = some t) : SpaceInv t := by
  cases op with
  | create =>
    rw [spaceStep_create_full hkeep] at hstep
    obtain rfl := Option.some_inj.mp hstep
    exact hs.grow rfl rfl (lowestFirst_alloc hs.total_le) le_rfl Set.subset_union_left
  | map dir virt phys flags =>
    obtain ⟨⟨hdir, -⟩, rfl⟩ := spaceStep_map_eq_some.mp hstep
    rw [hs.live_eq, List.mem_singleton] at hdir
    subst hdir
    refine hs.grow rfl rfl (lowestFirst_vmmMapPage (s := s.vm.startLog) hs.total_le _ _ _ _) ?_ ?_
    · simp only [Function.update_self]
      exact Set.subset_union_left
    · simp only [Function.update_self]
      exact le_rfl
  | unmap dir virt =>
    obtain ⟨-, rfl⟩ := spaceStep_unmap_eq_some.mp hstep
    have hpmm : (vmmUnmapPage s.vm.startLog dir virt).pmm = s.vm.pmm := by
      unfold vmmUnmapPage
      split_ifs <;> rfl
    refine hs.grow rfl rfl ?_ le_rfl Set.subset_union_left
    rw [hpmm]
    exact LowestFirst.refl _

/-! ## After `vmm_init` -/

/-- The loop of `vmm_init` (lines 44–46) over the pages `l`. -/
def identityMap (alloc : Pmm → ℕ × Pmm) (dir : ℕ) (l : List ℕ) (s : Vm Pmm) : Vm Pmm :=
  l.foldl (fun s i =>
    vmmMapPage alloc s dir (i * pageSize) (i * pageSize) (pagePresent ||| pageWritable)) s

/-- The machine when `vmm_init` starts to map pages. -/
def kernelDirectoryCleared (s : Vm Pmm) : Vm Pmm :=
  ({ s with pmm := (pmmAllocFrame s.pmm).2 }.clear (pmmAllocFrame s.pmm).1 directorySize).store32
    (physicalAddr (pmmAllocFrame s.pmm).1) (pmmAllocFrame s.pmm).1

theorem vmmInit_eq (s : Vm Pmm) : vmmInit pmmAllocFrame s =
    ((pmmAllocFrame s.pmm).1,
      vmmMapPage pmmAllocFrame (identityMap pmmAllocFrame (pmmAllocFrame s.pmm).1 (List.range 1024)
        (kernelDirectoryCleared s)) (pmmAllocFrame s.pmm).1 0xB8000 0xB8000
        (pagePresent ||| pageWritable)) := rfl

theorem identityMap_cons (alloc : Pmm → ℕ × Pmm) (dir i : ℕ) (l : List ℕ) (s : Vm Pmm) :
    identityMap alloc dir (i :: l) s = identityMap alloc dir l
      (vmmMapPage alloc s dir (i * pageSize) (i * pageSize) (pagePresent ||| pageWritable)) := rfl

theorem lowestFirst_identityMap (dir : ℕ) (l : List ℕ) {s : Vm Pmm}
    (htotal : s.pmm.totalFrames ≤ 131072) :
    LowestFirst s.pmm (identityMap pmmAllocFrame dir l s).pmm := by
  induction l generalizing s with
  | nil => exact LowestFirst.refl _
  | cons i l ih =>
    have hfirst := lowestFirst_vmmMapPage htotal dir (i * pageSize) (i * pageSize)
      (pagePresent ||| pageWritable)
    exact hfirst.trans (ih (hfirst.total_eq ▸ htotal))

theorem lowestFirst_vmmInit {s : Vm Pmm} (htotal : s.pmm.totalFrames ≤ 131072) :
    LowestFirst (pmmAllocFrame s.pmm).2 (vmmInit pmmAllocFrame s).2.pmm := by
  have halloc := lowestFirst_alloc htotal
  have hloop := lowestFirst_identityMap (pmmAllocFrame s.pmm).1 (List.range 1024)
    (s := kernelDirectoryCleared s) (halloc.total_eq ▸ htotal)
  rw [vmmInit_eq]
  refine hloop.trans (lowestFirst_vmmMapPage ?_ _ _ _ _)
  rw [hloop.total_eq]
  exact halloc.total_eq ▸ htotal

theorem frames_spacesBoot {mem : Mem} {pmm : Pmm} {k : ℕ}
    (hkernel : (spacesBoot mem pmm).kernelDirectory = k) :
    (spacesBoot mem pmm).frames k = newlyTaken pmm (spacesBoot mem pmm).vm.pmm :=
  if_pos hkernel.symm

theorem spaceInv_boot (mem : Mem) {pmm : Pmm} (htotal : pmm.totalFrames ≤ 131072) :
    SpaceInv (spacesBoot mem pmm) := by
  have halloc := lowestFirst_alloc htotal
  have hinit := lowestFirst_vmmInit (s := ⟨mem, pmm, []⟩) htotal
  have hframes := frames_spacesBoot (rfl : (spacesBoot mem pmm).kernelDirectory = _)
  refine ⟨rfl, ?_, ?_, ?_, ?_⟩
  · show (pmmAllocFrame pmm).1 % 4096 = 0
    obtain ⟨h, -⟩ | ⟨f, h, -⟩ := pmmAllocFrame_cases htotal
    · rw [h, Nat.zero_mod]
    · rw [h]
      exact Nat.mul_mod_left f 4096
  · show (vmmInit pmmAllocFrame ⟨mem, pmm, []⟩).2.pmm.totalFrames ≤ 131072
    rw [hinit.total_eq, halloc.total_eq]
    exact htotal
  · rw [hframes]
    exact (halloc.trans hinit).low
  · rw [hframes]
    show (pmmAllocFrame pmm).1 / 4096 ∈ newlyTaken pmm (spacesBoot mem pmm).vm.pmm ∨
      ∀ g, ¬ Findable (spacesBoot mem pmm).vm.pmm g
    obtain ⟨-, hnone⟩ | ⟨f, h, hf, -⟩ := pmmAllocFrame_cases htotal
    · exact Or.inr fun g hg => hnone g ((halloc.trans hinit).findable hg)
    · left
      have hframe : f * pageSize / 4096 = f := Nat.mul_div_cancel f (by decide)
      rw [h] at hinit
      rw [h, hframe]
      refine ⟨hf.2, hinit.mono f ?_⟩
      rw [bit_takeFrame, Function.update_self]

/-- After `vmm_init`, on any memory and allocator, a run of creations, maps and
    unmaps keeps every call to the frames of its directory, and every other live
    directory as it was, iff no call creates a directory and each call on the
    kernel directory meets `KeepsToFrames`. -/
theorem address_space_isolation_iff (mem : Mem) (pmm : Pmm) (htotal : pmm.totalFrames ≤ 131072)
    (ops : List SpaceOp) (u : Spaces) (hrun : run spaceStep (spacesBoot mem pmm) ops = some u) :
    Meets spaceStep Isolated (spacesBoot mem pmm) ops ↔
      Meets spaceStep KeepsToFrames (spacesBoot mem pmm) ops :=
  meets_congr SpaceInv (fun _ _ _ hs hstep => isolated_iff hs hstep)
    (fun _ _ _ hs hkeep hstep => spaceInv_step hs hkeep hstep) (spaceInv_boot mem htotal) hrun

/-! ## The first directory created -/

/-- The kernel directory at `k` with its first table in the next frame, while
    `vmm_init` maps the first four megabytes. -/
structure KernelMapped (k : ℕ) (p : Pmm) (s : Vm Pmm) : Prop where
  pmm_eq : s.pmm = p
  present : Present s.mem k 0
  table_eq : tableOf s.mem k 0 = k + 4096
  physical_addr : read32 s.mem (physicalAddr k) = k

theorem kernelDirectoryCleared_eq (mem : Mem) {pmm p : Pmm} {k : ℕ}
    (hfirst : pmmAllocFrame pmm = (k, p)) : kernelDirectoryCleared ⟨mem, pmm, []⟩ =
      ((⟨mem, p, []⟩ : Vm Pmm).clear k directorySize).store32 (physicalAddr k) k := by
  simp only [kernelDirectoryCleared, hfirst]

theorem dirEntry_kernelDirectoryCleared (mem : Mem) {pmm p : Pmm} {k i : ℕ}
    (hfirst : pmmAllocFrame pmm = (k, p)) (hi : i < 1024) :
    dirEntry (kernelDirectoryCleared ⟨mem, pmm, []⟩).mem k i = 0 := by
  rw [kernelDirectoryCleared_eq mem hfirst]
  show read32 (write32 (fill mem k directorySize 0) (k + 8192) k) (k + 4 * i) = 0
  rw [read32_write32_of_disjoint (by omega)]
  exact read32_fill_zero (by omega) (by unfold directorySize; omega)

/-- The first map of `vmm_init` enters the table. -/
theorem vmmMapPage_first (mem : Mem) {pmm p q : Pmm} {k t : ℕ} (hfirst : pmmAllocFrame pmm = (k, p))
    (hsecond : pmmAllocFrame p = (t, q)) (ht : t ≠ 0) :
    vmmMapPage pmmAllocFrame (kernelDirectoryCleared ⟨mem, pmm, []⟩) k 0 0
      (pagePresent ||| pageWritable) =
      (enterTable { kernelDirectoryCleared ⟨mem, pmm, []⟩ with pmm := q } k 0
        (pagePresent ||| pageWritable) t).store32 t
        (newPageEntry 0 (pagePresent ||| pageWritable)) := by
  have hnew : ¬ Present (kernelDirectoryCleared ⟨mem, pmm, []⟩).mem k (tableIdx 0) := by
    rw [Present, show tableIdx 0 = 0 from rfl, dirEntry_kernelDirectoryCleared mem hfirst (by norm_num)]
    decide
  have hpmm : (kernelDirectoryCleared ⟨mem, pmm, []⟩).pmm = p := by
    rw [kernelDirectoryCleared_eq mem hfirst]
    rfl
  rw [vmmMapPage_fresh hnew (by rw [hpmm, hsecond]; exact ht), hpmm, hsecond]
  rfl

/-- The entries of the kernel directory after that. -/
theorem dirEntry_first (mem : Mem) {pmm p q : Pmm} {k t i : ℕ} (hk : k % 4096 = 0)
    (ht : t % 4096 = 0) (hlt : t < 2 ^ 32) (hne : t / 4096 ≠ k / 4096) (ht0 : t ≠ 0)
    (hfirst : pmmAllocFrame pmm = (k, p)) (hsecond : pmmAllocFrame p = (t, q)) (hi : i < 1024) :
    dirEntry (vmmMapPage pmmAllocFrame (kernelDirectoryCleared ⟨mem, pmm, []⟩) k 0 0
      (pagePresent ||| pageWritable)).mem k i =
      if i = 0 then t ||| (pagePresent ||| pageWritable) ||| pagePresent ||| pageWritable else 0 := by
  rw [vmmMapPage_first mem hfirst hsecond ht0]
  show read32 (write32 _ t _) (k + 4 * i) = _
  rw [read32_write32_of_disjoint (by omega), ← dirEntry_kernelDirectoryCleared mem hfirst hi]
  exact dirEntry_enterTable hk ht hlt (by decide) hne hi

theorem kernelMapped_first (mem : Mem) {pmm p q : Pmm} {k : ℕ} (hk : k % 4096 = 0)
    (hlt : k + 8192 < 2 ^ 32) (hfirst : pmmAllocFrame pmm = (k, p))
    (hsecond : pmmAllocFrame p = (k + 4096, q)) :
    KernelMapped k q (vmmMapPage pmmAllocFrame (kernelDirectoryCleared ⟨mem, pmm, []⟩) k 0 0
      (pagePresent ||| pageWritable)) := by
  have ht : k + 4096 ≠ 0 := Nat.succ_ne_zero _
  have hentry := (dirEntry_first mem hk (by omega) (by omega) (by omega) ht hfirst hsecond
    (show 0 < 1024 by norm_num)).trans (if_pos rfl)
  have hmap := vmmMapPage_first mem hfirst hsecond ht
  refine ⟨?_, ?_, ?_, ?_⟩
  · rw [hmap]
    rfl
  · rw [Present, hentry]
    exact present_newEntry
  · rw [tableOf, hentry]
    exact newEntry_and_pageMask (by omega) (by omega) (by decide)
  · rw [hmap]
    show read32 (write32 _ (k + 4096) _) (k + 8192) = k
    rw [read32_write32_of_disjoint (by omega), read32_enterTable_of_frame hk (by norm_num) (by omega)
      (by omega) (by omega) (by omega) (by omega), kernelDirectoryCleared_eq mem hfirst]
    exact read32_write32_of_lt (by omega)

/-- Mapping another of those pages only stores into the table. -/
theorem kernelMapped_map {k : ℕ} {p : Pmm} {s : Vm Pmm} (hs : KernelMapped k p s)
    (hk : k % 4096 = 0) {virt : ℕ} (hvirt : virt < 0x400000) (phys flags : ℕ) :
    KernelMapped k p (vmmMapPage pmmAllocFrame s k virt phys flags) := by
  have hidx : tableIdx virt = 0 := by rw [tableIdx_eq]; omega
  have hpage := pageIdx_lt virt
  have htable := hs.table_eq
  have hmap : vmmMapPage pmmAllocFrame s k virt phys flags =
      s.store32 (k + 4096 + 4 * pageIdx virt) (newPageEntry phys flags) := by
    rw [vmmMapPage_present (hidx ▸ hs.present) (by rw [hidx, htable]; exact Nat.succ_ne_zero _),
      hidx, htable]
  have hword : ∀ a, a % 4096 = 0 → a ≠ k + 4096 →
      read32 (vmmMapPage pmmAllocFrame s k virt phys flags).mem a = read32 s.mem a := by
    intro a ha hne
    rw [hmap]
    exact read32_write32_of_disjoint (by omega)
  have hentry : dirEntry (vmmMapPage pmmAllocFrame s k virt phys flags).mem k 0 =
      dirEntry s.mem k 0 := hword k hk (by omega)
  refine ⟨by rw [hmap]; exact hs.pmm_eq, ?_, ?_, ?_⟩
  · rw [Present, hentry]
    exact hs.present
  · rw [tableOf, hentry]
    exact htable
  · exact (hword (k + 8192) (by omega) (by omega)).trans hs.physical_addr

theorem kernelMapped_identityMap {k : ℕ} {p : Pmm} {s : Vm Pmm} (hs : KernelMapped k p s)
    (hk : k % 4096 = 0) {l : List ℕ} (hl : ∀ i ∈ l, i < 1024) :
    KernelMapped k p (identityMap pmmAllocFrame k l s) := by
  induction l generalizing s with
  | nil => exact hs
  | cons i l ih =>
    rw [List.forall_mem_cons] at hl
    refine ih (kernelMapped_map hs hk ?_ _ _) hl.2
    have := hl.1
    unfold pageSize
    omega

/-- The machine after `vmm_init`, with the first map apart from the others. -/
theorem spacesBoot_vm (mem : Mem) {pmm p : Pmm} {k : ℕ} (hfirst : pmmAllocFrame pmm = (k, p)) :
    (spacesBoot mem pmm).vm =
      vmmMapPage pmmAllocFrame (identityMap pmmAllocFrame k (List.range' 1 1023)
        (vmmMapPage pmmAllocFrame (kernelDirectoryCleared ⟨mem, pmm, []⟩) k 0 0
          (pagePresent ||| pageWritable))) k 0xB8000 0xB8000 (pagePresent ||| pageWritable) := by
  have hrange : List.range 1024 = 0 :: List.range' 1 1023 := by
    rw [List.range_eq_range', List.range'_succ]
  have hinit := vmmInit_eq ⟨mem, pmm, []⟩
  simp only [hfirst, hrange, identityMap_cons, Nat.zero_mul] at hinit
  have hboot : (spacesBoot mem pmm).vm = (vmmInit pmmAllocFrame ⟨mem, pmm, []⟩).2 := rfl
  rw [hboot, hinit]

/-- With two adjacent frames, `vmm_init` takes just these. -/
theorem kernelMapped_boot (mem : Mem) {pmm p q : Pmm} {k : ℕ} (hk : k % 4096 = 0)
    (hlt : k + 8192 < 2 ^ 32) (hfirst : pmmAllocFrame pmm = (k, p))
    (hsecond : pmmAllocFrame p = (k + 4096, q)) :
    (spacesBoot mem pmm).kernelDirectory = k ∧ KernelMapped k q (spacesBoot mem pmm).vm := by
  have hone := kernelMapped_first mem hk hlt hfirst hsecond
  have hall := kernelMapped_identityMap hone hk (l := List.range' 1 1023) (by simp)
  refine ⟨congrArg Prod.fst hfirst, ?_⟩
  rw [spacesBoot_vm mem hfirst]
  exact kernelMapped_map hall hk (show 0xB8000 < 0x400000 by norm_num) 0xB8000
    (pagePresent ||| pageWritable)

/-- The first word of a new directory is the kernel directory's first entry. -/
theorem read32_newDirectory {s : Vm Pmm} {k d : ℕ} (hp : Present s.mem k 0)
    (hd : k + 4 ≤ d) : read32 (newDirectory k s d).mem d = dirEntry s.mem k 0 := by
  have hrest : ∀ (l : List ℕ) (t : Vm Pmm), (∀ i ∈ l, i ≠ 0) →
      read32 (l.foldl (copyEntry k d) t).mem d = read32 t.mem d := by
    intro l
    induction l with
    | nil => intro t _; rfl
    | cons i l ih =>
      intro t hl
      rw [List.forall_mem_cons] at hl
      rw [List.foldl_cons, ih _ hl.2]
      unfold copyEntry
      split_ifs
      · exact read32_write32_of_disjoint (by unfold entryAddr; omega)
      · rfl
  have hentry : dirEntry ((s.clear d directorySize).store32 (physicalAddr d) d).mem k 0 =
      dirEntry s.mem k 0 := by
    show read32 (write32 (fill s.mem d directorySize 0) (d + 8192) d) (k + 4 * 0) = _
    rw [read32_write32_of_disjoint (by omega), read32_fill_of_disjoint (by omega)]
    rfl
  have hrange : List.range 1024 = 0 :: List.range' 1 1023 := by
    rw [List.range_eq_range', List.range'_succ]
  rw [newDirectory, hrange, List.foldl_cons, hrest _ _ (by simp; omega), copyEntry,
    if_pos (by rw [hentry]; exact hp), hentry]
  exact read32_write32_of_lt (read32_lt _ _)

/-- If the kernel directory's `physical_addr` lies in the frame the next directory
    gets, creating that directory overwrites it. -/
theorem KernelMapped.create_step {s : Spaces} {k : ℕ} {q r : Pmm} (hk : k % 4096 = 0)
    (hkernel : s.kernelDirectory = k) (hs : KernelMapped k q s.vm)
    (hthird : pmmAllocFrame q = (k + 8192, r)) :
    ∃ t, spaceStep s .create = some t ∧ read32 t.vm.mem (physicalAddr k) ≠ k := by
  have halloc : (pmmAllocFrame s.vm.pmm).1 ≠ 0 := by
    rw [hs.pmm_eq, hthird]
    exact Nat.succ_ne_zero _
  have hword : read32 s.created.mem (k + 8192) = dirEntry s.vm.mem k 0 := by
    rw [Spaces.created, hkernel, hs.pmm_eq, hthird]
    exact read32_newDirectory hs.present (by omega)
  refine ⟨_, spaceStep_create_fresh halloc, ?_⟩
  show read32 s.created.mem (k + 8192) ≠ k
  rw [hword]
  -- a present entry is odd
  intro h
  have hp := hs.present
  rw [Present, h, pagePresent, show 1 = 2 ^ 1 - 1 by norm_num, Nat.and_two_pow_sub_one_eq_mod] at hp
  omega

/-- Unmapping one of the first pages stores into the kernel directory's table. -/
theorem KernelMapped.run_unmap {s : Spaces} {k : ℕ} {q : Pmm} (hlive : s.live = [k])
    (hs : KernelMapped k q s.vm) (htable : k / 4096 + 1 ∈ s.frames k) {virt : ℕ}
    (hvirt : virt < 0x400000) :
    ∃ u, run spaceStep s [.unmap k virt] = some u ∧
      Meets spaceStep KeepsToFrames s [.unmap k virt] := by
  have hidx : tableIdx virt = 0 := by rw [tableIdx_eq]; omega
  have hguard : k ∈ s.live ∧ virt < 2 ^ 32 := ⟨by rw [hlive]; exact List.mem_singleton.mpr rfl, by omega⟩
  refine ⟨_, run_cons_eq_some.mpr ⟨_, spaceStep_unmap_eq_some.mpr ⟨hguard, rfl⟩, rfl⟩, ?_, ?_⟩
  · intro _
    rw [hidx, hs.table_eq, show (k + 4096) / 4096 = k / 4096 + 1 by omega]
    exact Or.inl htable
  · intro _ _
    trivial

/-! ## A machine with three adjacent frames -/

/-- `pmm_init` on the small map leaves the sixteen frames from one megabyte on. -/
theorem pmmInit_small : ∃ pmm, pmmInit 3 smallMem smallInfo ⟨fun _ => 0, 0, 0⟩ = some pmm ∧
    pmm.totalFrames ≤ 131072 ∧ ∀ f, Findable pmm f ↔ 256 ≤ f ∧ f < 272 := by
  refine ⟨bootPmm ⟨fun _ => 0, 0, 0⟩ smallMap, pmmInit_eq memoryMap_small _ (by decide), ?_, ?_⟩
  · rw [bootPmm_totalFrames]; omega
  · intro f
    rw [findable_bootPmm_iff]
    simp only [MapOffers, smallMap, List.mem_cons, List.not_mem_nil, or_false, exists_eq_or_imp,
      exists_eq_left, true_and]
    omega

section

variable {pmm : Pmm} {last : ℕ} (htotal : pmm.totalFrames ≤ 131072) (hlast : 258 < last)
  (hfree : ∀ f, Findable pmm f ↔ 256 ≤ f ∧ f < last)

include hlast hfree

theorem table_mem_newlyTaken : 257 ∈ newlyTaken pmm (takeFrame (takeFrame pmm 256) 257) := by
  refine ⟨((hfree 257).mpr (by omega)).2, ?_⟩
  rw [bit_takeFrame, Function.update_self]

include htotal

/-- Three allocations give three adjacent frames. -/
theorem three_allocs : pmmAllocFrame pmm = (0x100000, takeFrame pmm 256) ∧
    pmmAllocFrame (takeFrame pmm 256) = (0x101000, takeFrame (takeFrame pmm 256) 257) ∧
    pmmAllocFrame (takeFrame (takeFrame pmm 256) 257) =
      (0x102000, takeFrame (takeFrame (takeFrame pmm 256) 257) 258) := by
  refine ⟨pmmAllocFrame_of_lowest htotal (f := 256) ?_ ?_,
    pmmAllocFrame_of_lowest (s := takeFrame pmm 256) htotal (f := 257) ?_ ?_,
    pmmAllocFrame_of_lowest (s := takeFrame (takeFrame pmm 256) 257) htotal (f := 258) ?_ ?_⟩
  all_goals
    simp only [findable_takeFrame, hfree]
    omega

end

/-- Unmapping a page of the kernel directory keeps to its frames. -/
theorem address_space_isolation_iff_small :
    ∃ pmm u, pmmInit 3 smallMem smallInfo ⟨fun _ => 0, 0, 0⟩ = some pmm ∧
      run spaceStep (spacesBoot (fun _ => 0) pmm) [.unmap 0x100000 0x5000] = some u ∧
      Meets spaceStep Isolated (spacesBoot (fun _ => 0) pmm) [.unmap 0x100000 0x5000] := by
  obtain ⟨pmm, hpmm, htotal, hfree⟩ := pmmInit_small
  obtain ⟨hfirst, hsecond, -⟩ := three_allocs htotal (by norm_num) hfree
  obtain ⟨hkernel, hmapped⟩ :=
    kernelMapped_boot (fun _ => 0) (by norm_num) (by norm_num) hfirst hsecond
  have hlive := (spaceInv_boot (fun _ => 0) htotal).live_eq
  rw [hkernel] at hlive
  have htable : 0x100000 / 4096 + 1 ∈ (spacesBoot (fun _ => 0) pmm).frames 0x100000 := by
    rw [frames_spacesBoot hkernel, hmapped.pmm_eq]
    exact table_mem_newlyTaken (by norm_num) hfree
  obtain ⟨u, hrun, hkeeps⟩ := hmapped.run_unmap hlive htable (show 0x5000 < 0x400000 by norm_num)
  exact ⟨pmm, u, hpmm, hrun,
    (address_space_isolation_iff (fun _ => 0) pmm htotal _ u hrun).mpr hkeeps⟩

/-- After `vmm_init` the kernel directory's `physical_addr` holds its address; the
    first `vmm_create_address_space` overwrites it. -/
theorem create_overwrites_kernel_directory :
    ∃ pmm, pmmInit 3 smallMem smallInfo ⟨fun _ => 0, 0, 0⟩ = some pmm ∧
      (spacesBoot (fun _ => 0) pmm).live = [0x100000] ∧
      read32 (spacesBoot (fun _ => 0) pmm).vm.mem (physicalAddr 0x100000) = 0x100000 ∧
      (∃ t, spaceStep (spacesBoot (fun _ => 0) pmm) .create = some t ∧
        read32 t.vm.mem (physicalAddr 0x100000) ≠ 0x100000) ∧
      ¬ Isolated (spacesBoot (fun _ => 0) pmm) .create := by
  obtain ⟨pmm, hpmm, htotal, hfree⟩ := pmmInit_small
  obtain ⟨hfirst, hsecond, hthird⟩ := three_allocs htotal (by norm_num) hfree
  have hinv := spaceInv_boot (fun _ => 0) htotal
  obtain ⟨hkernel, hmapped⟩ :=
    kernelMapped_boot (fun _ => 0) (by norm_num) (by norm_num) hfirst hsecond
  have halloc : (pmmAllocFrame (spacesBoot (fun _ => 0) pmm).vm.pmm).1 ≠ 0 := by
    rw [hmapped.pmm_eq, hthird]
    exact Nat.succ_ne_zero _
  exact ⟨pmm, hpmm, hkernel ▸ hinv.live_eq, hmapped.physical_addr,
    hmapped.create_step (by norm_num) hkernel hthird, not_isolated_create hinv halloc⟩

end NexusKernel.Memory
