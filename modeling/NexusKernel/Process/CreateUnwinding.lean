import NexusKernel.Memory.KheapClient
import NexusKernel.Memory.OwnedFrames
import NexusKernel.Memory.PmmExhaustion
import NexusKernel.Process.ProcessTable

/-!
# What a failed `process_create` leaves behind

`process_create` acquires a PID, a block for the record, an address space and a kernel
stack, and gives back what it has when one of them is refused. Here it runs on the kernel
heap, the directories and the frame allocator themselves, as three separate stores.

`pmm_alloc_frame` returns the address of the frame it took, and 0 if there is none: when
it takes frame 0, `vmm_create_address_space` reports a failure and the frame stays taken.

Results:
* `ending_processCreate`: the ways a creation with a PID can end.
* `process_create_all_or_nothing_iff`: a creation is all or nothing exactly if it does not
  come to take frame 0.
* `frame_zero_lost`: a state in which it does.
-/

namespace NexusKernel.Process

open Memory

/-! ## The stores -/

/-- The heap, and the directories with the frame allocator. -/
structure KernelStores (A : HeapArea) where
  heap : ClientHeap A
  vm : Vm Pmm

variable {A : HeapArea}

/-- The kernel's own services. -/
def kernelServices (A : HeapArea) : Services (KernelStores A) where
  kmalloc e n :=
    let (p, heap) := (kheapClient A).kmalloc e.heap n
    (p, { e with heap := heap })
  kfree e p := { e with heap := (kheapClient A).kfree e.heap p }
  createAddressSpace e :=
    let (dir, vm) := vmmCreateAddressSpace (allocOwn pmmAllocFrame) kernelStorage e.vm
    (dir, { e with vm := vm })
  destroyAddressSpace e dir :=
    { e with vm := vmmDestroyAddressSpace pmmFreeFrame kernelStorage e.vm dir }
  physicalAddr e dir := read32 e.vm.mem (Memory.physicalAddr dir)
  kernelDirectory _ := kernelStorage

theorem kernelServices_kmalloc (e : KernelStores A) (n : ℕ) : (kernelServices A).kmalloc e n =
    (((kheapClient A).kmalloc e.heap n).1,
      { e with heap := ((kheapClient A).kmalloc e.heap n).2 }) := rfl

theorem kernelServices_create (e : KernelStores A) : (kernelServices A).createAddressSpace e =
    ((vmmCreateAddressSpace (allocOwn pmmAllocFrame) kernelStorage e.vm).1,
      { e with vm := (vmmCreateAddressSpace (allocOwn pmmAllocFrame) kernelStorage e.vm).2 }) := rfl

theorem lawful_kernelServices (A : HeapArea) :
    (kernelServices A).Lawful fun e => {a | (clientBlocks e.heap a).isSome} := by
  have hH := lawful_kheapClient A
  refine ⟨?_, ?_, ?_, ?_, fun _ _ ha => ha, fun _ _ _ ha => ha⟩
  · intro e n h0 hin
    have hfresh := hH.kmalloc_fresh e.heap n h0
    rw [Set.mem_ofPred_eq, kernelServices_kmalloc, hfresh] at hin
    exact Bool.noConfusion hin
  · intro e n h0
    obtain ⟨m, -, hblocks⟩ := hH.kmalloc_blocks e.heap n h0
    rw [Set.mem_ofPred_eq, kernelServices_kmalloc, hblocks]
    simp
  · intro e n a ha
    obtain ⟨m, hm⟩ := Option.isSome_iff_exists.mp ha
    exact Option.isSome_iff_exists.mpr ⟨m, hH.kmalloc_live e.heap n hm⟩
  · intro e p a ⟨ha, hne⟩
    show (clientBlocks (clientKfree e.heap p) a).isSome
    by_cases hp : (clientBlocks e.heap p).isSome
    · rw [show clientBlocks (clientKfree e.heap p) = _ from hH.kfree_blocks e.heap p hp,
        Function.update_of_ne hne]
      exact ha
    · have hlive : p ∉ e.heap.state.live := by simpa [clientBlocks] using hp
      rw [clientKfree, dif_neg hlive]
      exact ha

/-! ## Undoing one acquisition -/

section

variable {e e₁ e₂ : KernelStores A} {n p dir : ℕ}

/-- A refused block leaves the heap as it was. -/
theorem kmalloc_refused (h : (kernelServices A).kmalloc e n = (0, e₁)) : e₁ = e := by
  rw [kernelServices_kmalloc, Prod.mk.injEq] at h
  obtain ⟨hp, rfl⟩ := h
  obtain hfail | ⟨q, heap, -, -, hq, hfst, -⟩ := clientKmalloc_cases e.heap n
  · show { e with heap := (clientKmalloc e.heap n).2 } = e
    rw [hfail]
  · exact absurd (hfst.symm.trans hp) hq

theorem kmalloc_vm (h : (kernelServices A).kmalloc e n = (p, e₁)) : e₁.vm = e.vm := by
  rw [kernelServices_kmalloc, Prod.mk.injEq] at h
  rw [← h.2]

/-- A new block leaves the live ones as they were. -/
theorem kmalloc_keeps (h : (kernelServices A).kmalloc e n = (p, e₁)) {a m : ℕ}
    (ha : (a, m) ∈ liveBlocks e.heap.state) :
    (a, m) ∈ liveBlocks e₁.heap.state ∧
      ∀ i < m, e₁.heap.state.heap.mem (a + i) = e.heap.state.heap.mem (a + i) := by
  rw [kernelServices_kmalloc, Prod.mk.injEq] at h
  obtain ⟨-, rfl⟩ := h
  refine ⟨?_, fun i hi => clientKmalloc_bytes e.heap n ha hi⟩
  rw [← clientBlocks_eq_some_iff] at ha ⊢
  exact (lawful_kheapClient A).kmalloc_live e.heap n ha

/-- `kfree` undoes `kmalloc`, as for the block list. -/
theorem kfree_granted (h : (kernelServices A).kmalloc e n = (p, e₁)) (hp : p ≠ 0)
    (heap : e₂.heap = e₁.heap) :
    blockList ((kernelServices A).kfree e₂ p).heap.state.heap = blockList e.heap.state.heap := by
  rw [kernelServices_kmalloc, Prod.mk.injEq] at h
  obtain ⟨rfl, rfl⟩ := h
  have hH := lawful_kheapClient A
  have hfresh := hH.kmalloc_fresh e.heap n hp
  obtain ⟨m, -, hblocks⟩ := hH.kmalloc_blocks e.heap n hp
  apply blockList_eq_of_clientBlocks
  show clientBlocks ((kheapClient A).kfree e₂.heap _) = _
  rw [heap, hH.kfree_blocks, hblocks]
  · simp [hfresh]
  · simp [hblocks]

theorem create_heap (h : (kernelServices A).createAddressSpace e = (dir, e₁)) : e₁.heap = e.heap := by
  rw [kernelServices_create, Prod.mk.injEq] at h
  rw [← h.2]

/-- Without an address space, the allocator is as `pmm_alloc_frame` left it. -/
theorem create_refused (h : (kernelServices A).createAddressSpace e = (0, e₁)) :
    (pmmAllocFrame e.vm.pmm).1 = 0 ∧ e₁.vm.pmm = (pmmAllocFrame e.vm.pmm).2 := by
  rw [kernelServices_create, Prod.mk.injEq] at h
  obtain ⟨hdir, rfl⟩ := h
  by_cases h0 : (pmmAllocFrame e.vm.pmm).1 = 0
  · refine ⟨h0, ?_⟩
    show (vmmCreateAddressSpace (allocOwn pmmAllocFrame) kernelStorage e.vm).2.pmm = _
    rw [vmmCreateAddressSpace_own_full h0]
  · rw [vmmCreateAddressSpace_own_fresh h0] at hdir
    exact absurd hdir (ownStorage_ne_zero _)

theorem releaseFrame_takeFrame {q : Pmm} (hq : InRange q) {f : ℕ}
    (hf : Bitmap.bit q.frameBitmap f = false) : releaseFrame (takeFrame q f) f = q := by
  have hbits : Bitmap.bit (releaseFrame (takeFrame q f) f).frameBitmap = Bitmap.bit q.frameBitmap := by
    rw [bit_releaseFrame, bit_takeFrame]
    simp [hf]
  have hused : (releaseFrame (takeFrame q f) f).usedFrames = q.usedFrames := by
    have hlt := hq.used_lt
    show sub32 (u32 (q.usedFrames + 1)) 1 = q.usedFrames
    unfold sub32 u32
    omega
  have hbitmap := Bitmap.bit_injective hbits
  cases q
  simp only [releaseFrame, takeFrame, bitmapSet, bitmapClear] at hbitmap hused ⊢
  rw [hbitmap, hused]

/-- `pmm_free_frame` undoes `pmm_alloc_frame`. -/
theorem pmmFreeFrame_pmmAllocFrame {q : Pmm} (hq : InRange q) (h0 : (pmmAllocFrame q).1 ≠ 0) :
    (pmmAllocFrame q).1 % 4096 = 0 ∧ (pmmAllocFrame q).1 < 2 ^ 32 ∧
      pmmFreeFrame (pmmAllocFrame q).2 (pmmAllocFrame q).1 = q := by
  have htotal := hq.total_le
  obtain ⟨heq, -⟩ | ⟨f, heq, hf, -⟩ := pmmAllocFrame_cases htotal
  · rw [heq] at h0
    exact absurd rfl h0
  · have hlt := hf.lt_total
    have hframe : f * pageSize / pageSize = f := Nat.mul_div_cancel f (by decide)
    have hset : Bitmap.bit (takeFrame q f).frameBitmap f = true := by simp [bit_takeFrame]
    rw [heq]
    refine ⟨Nat.mul_mod_left f 4096, ?_, ?_⟩
    · show f * 4096 < 2 ^ 32
      omega
    · rw [pmmFreeFrame_eq, hframe, if_pos ⟨hlt, hset⟩]
      exact releaseFrame_takeFrame hq hf.2

/-- `vmm_destroy_address_space` undoes `vmm_create_address_space`, as for the frames. -/
theorem destroy_granted (h : (kernelServices A).createAddressSpace e = (dir, e₁)) (hdir : dir ≠ 0)
    (hpmm : InRange e.vm.pmm) (hvm : e₂.vm = e₁.vm) :
    ((kernelServices A).destroyAddressSpace e₂ dir).vm.pmm = e.vm.pmm := by
  rw [kernelServices_create, Prod.mk.injEq] at h
  obtain ⟨rfl, rfl⟩ := h
  by_cases h0 : (pmmAllocFrame e.vm.pmm).1 = 0
  · rw [vmmCreateAddressSpace_own_full h0] at hdir
    exact absurd rfl hdir
  · obtain ⟨hmod, hlt, hfree⟩ := pmmFreeFrame_pmmAllocFrame hpmm h0
    show (vmmDestroyAddressSpace pmmFreeFrame kernelStorage e₂.vm _).pmm = _
    rw [hvm]
    simp only [vmmCreateAddressSpace_own_fresh h0]
    rw [vmmDestroyAddressSpace_newDirectory pmmFreeFrame _ hmod hlt]
    exact hfree

end

/-! ## The ways a creation can end -/

/-- The pointer that a creation with a PID returns, and what it has made of the state `e` of
    the services. -/
inductive Ending {τ : Type} (S : Services τ) (e : τ) : ℕ → τ → Prop
  | noBlock {e₁ : τ} (hblock : S.kmalloc e sizeofProcess = (0, e₁)) : Ending S e 0 e₁
  | noSpace {p : ℕ} {e₁ e₂ : τ} (hblock : S.kmalloc e sizeofProcess = (p, e₁)) (hp : p ≠ 0)
      (hspace : S.createAddressSpace e₁ = (0, e₂)) : Ending S e 0 (S.kfree e₂ p)
  | noStack {p dir : ℕ} {e₁ e₂ e₃ : τ} (hblock : S.kmalloc e sizeofProcess = (p, e₁)) (hp : p ≠ 0)
      (hspace : S.createAddressSpace e₁ = (dir, e₂)) (hdir : dir ≠ 0)
      (hstack : S.kmalloc e₂ kernelStackSize = (0, e₃)) :
      Ending S e 0 (S.kfree (S.destroyAddressSpace e₃ dir) p)
  | made {p dir kstack : ℕ} {e₁ e₂ e₃ : τ} (hblock : S.kmalloc e sizeofProcess = (p, e₁))
      (hp : p ≠ 0) (hspace : S.createAddressSpace e₁ = (dir, e₂)) (hdir : dir ≠ 0)
      (hstack : S.kmalloc e₂ kernelStackSize = (kstack, e₃)) (hkstack : kstack ≠ 0) :
      Ending S e p e₃

theorem processCreate_none {τ : Type} (S : Services τ) {s : Sys τ}
    (hpid : (processGetNextPid s).1 = none) (name : ℕ → Byte) (entry : ℕ) (priority : ℤ) :
    processCreate S s name entry priority = (0, s) := by
  rcases h : processGetNextPid s with ⟨_ | pid, s'⟩
  · obtain rfl := processGetNextPid_none h
    simp only [processCreate, h]
  · rw [h] at hpid
    exact absurd hpid (Option.some_ne_none pid)

theorem ending_processCreate {τ : Type} (S : Services τ) {s : Sys τ}
    (hpid : (processGetNextPid s).1 ≠ none) (name : ℕ → Byte) (entry : ℕ) (priority : ℤ) :
    Ending S s.env (processCreate S s name entry priority).1
      (processCreate S s name entry priority).2.env := by
  obtain ⟨pid?, n, h⟩ := exists_processGetNextPid_eq s
  cases pid? with
  | none =>
    rw [h] at hpid
    exact absurd rfl hpid
  | some pid =>
    rcases hk : S.kmalloc s.env sizeofProcess with ⟨p, e₁⟩
    rcases hc : S.createAddressSpace e₁ with ⟨dir, e₂⟩
    rcases hs : S.kmalloc e₂ kernelStackSize with ⟨kstack, e₃⟩
    simp only [processCreate, h, hk, setProc_env, hc, hs]
    split_ifs with h0 hd hks hentry
    · subst h0
      exact .noBlock hk
    · subst hd
      exact .noSpace hk h0 hc
    · subst hks
      exact .noStack hk h0 hc hd hs
    · exact .made hk h0 hc hd hs hks
    · exact .made hk h0 hc hd hs hks

/-! ## All or nothing -/

/-- Block list, frames, process table, current process and ready queue of `t` are those of
    `s`, with the records in live blocks. -/
structure Untouched (s t : Sys (KernelStores A)) : Prop where
  blockList_eq : blockList t.env.heap.state.heap = blockList s.env.heap.state.heap
  pmm_eq : t.env.vm.pmm = s.env.vm.pmm
  processTable_eq : t.processTable = s.processTable
  currentProcess_eq : t.currentProcess = s.currentProcess
  readyQueueHead_eq : t.readyQueueHead = s.readyQueueHead
  readyQueueTail_eq : t.readyQueueTail = s.readyQueueTail
  procs_eq : ∀ a n, (a, n) ∈ liveBlocks s.env.heap.state → t.procs a = s.procs a

/-- The process `p` is in one slot that was empty, the slot of its PID; all other slots and
    all live blocks are those of `s`, with their bytes and records. -/
structure OneEntered (s : Sys (KernelStores A)) (p : ℕ) (t : Sys (KernelStores A)) : Prop where
  slot : ∃ pid, 1 ≤ pid ∧ pid < maxProcesses ∧ (t.procs p).pid = pid ∧ s.processTable pid = 0 ∧
    t.processTable = Function.update s.processTable pid p
  blocks : ∀ a n, (a, n) ∈ liveBlocks s.env.heap.state →
    (a, n) ∈ liveBlocks t.env.heap.state ∧ t.procs a = s.procs a ∧
    ∀ i < n, t.env.heap.state.heap.mem (a + i) = s.env.heap.state.heap.mem (a + i)

def CreateAllOrNothing (s : Sys (KernelStores A)) (name : ℕ → Byte) (entry : ℕ) (priority : ℤ) :
    Prop :=
  let (p, t) := processCreate (kernelServices A) s name entry priority
  (p = 0 → Untouched s t) ∧ (p ≠ 0 → OneEntered s p t)

/-- The creation gets as far as its address space, and frame 0 is free. -/
def TakesFrameZero (s : Sys (KernelStores A)) : Prop :=
  (processGetNextPid s).1 ≠ none ∧ ((kernelServices A).kmalloc s.env sizeofProcess).1 ≠ 0 ∧
    Findable s.env.vm.pmm 0

section

variable {e : KernelStores A} {p : ℕ} {e' : KernelStores A}

/-- A creation that ends without a process has undone what it did, unless it took frame 0. -/
theorem Ending.undone (h : Ending (kernelServices A) e 0 e') (hpmm : InRange e.vm.pmm)
    (hzero : ((kernelServices A).kmalloc e sizeofProcess).1 ≠ 0 → ¬ Findable e.vm.pmm 0) :
    blockList e'.heap.state.heap = blockList e.heap.state.heap ∧ e'.vm.pmm = e.vm.pmm := by
  generalize hr : (0 : ℕ) = r at h
  cases h with
  | noBlock hblock =>
    rw [kmalloc_refused hblock]
    exact ⟨rfl, rfl⟩
  | noSpace hblock hp hspace =>
    obtain ⟨hfail, hframes⟩ := create_refused hspace
    have hvm := kmalloc_vm hblock
    refine ⟨kfree_granted hblock hp (create_heap hspace), ?_⟩
    rw [hvm] at hfail hframes
    rw [hblock] at hzero
    obtain ⟨heq, -⟩ | ⟨f, heq, hf, -⟩ := pmmAllocFrame_cases hpmm.total_le
    · exact hframes.trans (congrArg Prod.snd heq)
    · have hf0 : f = 0 := by simpa [heq, pageSize] using hfail
      exact absurd (hf0 ▸ hf) (hzero hp)
  | @noStack p dir e₁ e₂ e₃ hblock hp hspace hdir hstack =>
    have hvm := kmalloc_vm hblock
    have hstop := kmalloc_refused hstack
    subst hstop
    have hfree := destroy_granted hspace hdir (hvm.symm ▸ hpmm) rfl
    have hheap : ((kernelServices A).destroyAddressSpace e₃ dir).heap = e₁.heap :=
      show e₃.heap = e₁.heap from create_heap hspace
    rw [hvm] at hfree
    exact ⟨kfree_granted hblock hp hheap, hfree⟩
  | made hblock hp => exact absurd hr.symm hp

/-- A creation that takes frame 0 returns `NULL` and keeps the frame. -/
theorem Ending.frame_lost (h : Ending (kernelServices A) e p e') (htotal : e.vm.pmm.totalFrames ≤ 131072)
    (hblock : ((kernelServices A).kmalloc e sizeofProcess).1 ≠ 0) (hzero : Findable e.vm.pmm 0) :
    p = 0 ∧ e'.vm.pmm ≠ e.vm.pmm := by
  have halloc := pmmAllocFrame_of_lowest htotal hzero fun g _ => Nat.zero_le g
  have hnull : ∀ {q dir : ℕ} {e₁ e₂ : KernelStores A},
      (kernelServices A).kmalloc e sizeofProcess = (q, e₁) →
      (kernelServices A).createAddressSpace e₁ = (dir, e₂) → dir = 0 := by
    intro q dir e₁ e₂ hk hc
    rw [kernelServices_create, kmalloc_vm hk, vmmCreateAddressSpace_own_full (by rw [halloc]; rfl),
      Prod.mk.injEq] at hc
    exact hc.1.symm
  cases h with
  | noBlock hrefused =>
    rw [hrefused] at hblock
    exact absurd rfl hblock
  | noSpace hgranted hp hspace =>
    refine ⟨rfl, ?_⟩
    have hframes := (create_refused hspace).2
    rw [kmalloc_vm hgranted, halloc] at hframes
    intro hsame
    exact takeFrame_ne hzero.2 (hframes.symm.trans hsame)
  | noStack hgranted _ hspace hdir => exact absurd (hnull hgranted hspace) hdir
  | made hgranted _ hspace hdir => exact absurd (hnull hgranted hspace) hdir

/-- A creation that returns a process leaves every live block as it was. -/
theorem Ending.blocks_kept (h : Ending (kernelServices A) e p e') (hp : p ≠ 0) {a n : ℕ}
    (ha : (a, n) ∈ liveBlocks e.heap.state) :
    (a, n) ∈ liveBlocks e'.heap.state ∧
      ∀ i < n, e'.heap.state.heap.mem (a + i) = e.heap.state.heap.mem (a + i) := by
  cases h with
  | noBlock => exact absurd rfl hp
  | noSpace => exact absurd rfl hp
  | noStack => exact absurd rfl hp
  | made hblock _ hspace _ hstack _ =>
    have hfirst := kmalloc_keeps hblock ha
    have hheap := create_heap hspace
    have hsecond := kmalloc_keeps hstack (hheap.symm ▸ hfirst.1)
    refine ⟨hsecond.1, ?_⟩
    intro i hi
    rw [hsecond.2 i hi, hheap]
    exact hfirst.2 i hi

end

theorem not_createAllOrNothing {s : Sys (KernelStores A)} {name : ℕ → Byte} {entry : ℕ}
    {priority : ℤ} (hnull : (processCreate (kernelServices A) s name entry priority).1 = 0)
    (hpmm : (processCreate (kernelServices A) s name entry priority).2.env.vm.pmm ≠
      s.env.vm.pmm) : ¬ CreateAllOrNothing s name entry priority := by
  unfold CreateAllOrNothing
  intro hall
  exact hpmm (hall.1 hnull).pmm_eq

/-- `process_create` on the kernel heap, the directories and the frame allocator, for every
    heap that tiles its area, every state of the allocator that is reached after
    `pmm_init`, and every process table with `next_pid` in its range: it is all or nothing
    iff it does not come to take frame 0. -/
theorem process_create_all_or_nothing_iff (A : HeapArea) (s : Sys (KernelStores A))
    (hpmm : PmmReachable s.env.vm.pmm) (h1 : 1 ≤ s.nextPid) (h2 : s.nextPid ≤ maxProcesses)
    (name : ℕ → Byte) (entry : ℕ) (priority : ℤ) :
    CreateAllOrNothing s name entry priority ↔ ¬ TakesFrameZero s := by
  have hrange := hpmm.inRange
  have hcreated := created_processCreate (lawful_kernelServices A) s name entry priority
  have hending := fun hpid => ending_processCreate (kernelServices A) (s := s) hpid name entry priority
  have hnone := fun hpid => processCreate_none (kernelServices A) (s := s) hpid name entry priority
  unfold CreateAllOrNothing
  rcases hcreate : processCreate (kernelServices A) s name entry priority with ⟨p, t⟩
  simp only [hcreate] at hcreated hending hnone
  obtain ⟨-, -, htable, hslot⟩ := processCreate_table (kernelServices A) h1 h2 hcreate
  have hrest := hcreated.rest_eq
  have hprocs : ∀ a n, (a, n) ∈ liveBlocks s.env.heap.state → t.procs a = s.procs a := by
    intro a n ha
    apply hcreated.eq_of_inUse
    simp [clientBlocks_eq_some_iff.mpr ha]
  constructor
  · intro ⟨hnothing, _⟩ ⟨hpid, hblock, hzero⟩
    obtain ⟨hp, hlost⟩ := (hending hpid).frame_lost hrange.total_le hblock hzero
    exact hlost (hnothing hp).pmm_eq
  · intro hkeep
    refine ⟨?_, ?_⟩
    · rintro rfl
      have hstores : blockList t.env.heap.state.heap = blockList s.env.heap.state.heap ∧
          t.env.vm.pmm = s.env.vm.pmm := by
        by_cases hpid : (processGetNextPid s).1 = none
        · rw [(Prod.mk.inj (hnone hpid)).2]
          exact ⟨rfl, rfl⟩
        · apply (hending hpid).undone hrange
          intro hblock hzero
          exact hkeep ⟨hpid, hblock, hzero⟩
      exact ⟨hstores.1, hstores.2, htable rfl, by rw [hrest], by rw [hrest], by rw [hrest], hprocs⟩
    · intro hp
      obtain ⟨pid, hpid, hfree, hpos, hlt, hentered, hown⟩ := hslot hp
      refine ⟨⟨pid, hpos, hlt, hown, hfree, hentered⟩, ?_⟩
      intro a n ha
      have hfound : (processGetNextPid s).1 ≠ none := by
        rw [hpid]
        exact Option.some_ne_none pid
      obtain ⟨hlive, hbytes⟩ := (hending hfound).blocks_kept hp ha
      exact ⟨hlive, hprocs a n ha, hbytes⟩

/-! ## Two allocators -/

/-- The state in which `process_init` creates idle, with the kernel heap at 2 MiB. -/
def coldKernel (pmm : Pmm) : Sys (KernelStores heapAreaAt2M) where
  procs _ := {}
  processTable _ := 0
  currentProcess := 0
  nextPid := 1
  readyQueueHead := 0
  readyQueueTail := 0
  ticksRemaining := 0
  schedulerEnabled := false
  cpu := ⟨0, 0, 0, 0, 0, 0⟩
  switches := []
  env := ⟨clientBoot heapAreaAt2M fun _ => 0, ⟨fun _ => 0, pmm, []⟩⟩

theorem pmmReachable_small (ops : List PmmOp) :
    PmmReachable (pmmRun (bootPmm ⟨fun _ => 0, 0, 0⟩ smallMap) ops) :=
  ⟨3, smallMem, smallInfo, ⟨fun _ => 0, 0, 0⟩, _, ops, pmmInit_eq memoryMap_small _ (by decide), rfl⟩

/-- Right after `pmm_init` frame 0 is in use. -/
theorem process_create_all_or_nothing_iff_small :
    CreateAllOrNothing (coldKernel (pmmRun (bootPmm ⟨fun _ => 0, 0, 0⟩ smallMap) [])) (cstr "idle")
      0 0 := by
  have hreach := pmmReachable_small []
  have hused : Bitmap.bit (pmmRun (bootPmm ⟨fun _ => 0, 0, 0⟩ smallMap) []).frameBitmap 0 = true := by
    decide +kernel
  generalize pmmRun (bootPmm ⟨fun _ => 0, 0, 0⟩ smallMap) [] = pmm at *
  refine (process_create_all_or_nothing_iff heapAreaAt2M (coldKernel pmm) hreach le_rfl
    (show 1 ≤ 256 by norm_num) (cstr "idle") 0 0).mpr ?_
  intro htakes
  have hzero : Findable pmm 0 := htakes.2.2
  exact Bool.noConfusion (hzero.2.symm.trans hused)

/-- After `pmm_mark_free(0)` the creation of idle returns `NULL`, and frame 0 is in use
    again. -/
theorem frame_zero_lost :
    ∃ pmm, PmmReachable pmm ∧ Bitmap.bit pmm.frameBitmap 0 = false ∧
      (processCreate (kernelServices heapAreaAt2M) (coldKernel pmm) (cstr "idle") 0 0).1 = 0 ∧
      Bitmap.bit (processCreate (kernelServices heapAreaAt2M) (coldKernel pmm) (cstr "idle") 0
        0).2.env.vm.pmm.frameBitmap 0 = true ∧
      ¬ CreateAllOrNothing (coldKernel pmm) (cstr "idle") 0 0 := by
  have hclear : Bitmap.bit (pmmRun (bootPmm ⟨fun _ => 0, 0, 0⟩ smallMap)
      [.markFree 0]).frameBitmap 0 = false := by
    decide +kernel
  have hset : Bitmap.bit (processCreate (kernelServices heapAreaAt2M)
      (coldKernel (pmmRun (bootPmm ⟨fun _ => 0, 0, 0⟩ smallMap) [.markFree 0])) (cstr "idle") 0
        0).2.env.vm.pmm.frameBitmap 0 = true := by
    decide +kernel
  have hnull : (processCreate (kernelServices heapAreaAt2M)
      (coldKernel (pmmRun (bootPmm ⟨fun _ => 0, 0, 0⟩ smallMap) [.markFree 0])) (cstr "idle") 0
        0).1 = 0 := by
    decide +kernel
  refine ⟨_, pmmReachable_small [.markFree 0], hclear, hnull, hset, ?_⟩
  generalize pmmRun (bootPmm ⟨fun _ => 0, 0, 0⟩ smallMap) [.markFree 0] = pmm at *
  refine not_createAllOrNothing hnull ?_
  intro hsame
  rw [hsame] at hset
  exact Bool.noConfusion (hclear.symm.trans hset)

end NexusKernel.Process
