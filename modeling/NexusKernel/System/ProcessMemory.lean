import NexusKernel.Common.Capacity
import NexusKernel.System.HeapClients

/-!
# The memory of processes

`process_terminate` clears a slot of the process table and gives nothing back: the record and
the kernel stack of a process stay live when it has ended. The heap has 4 MiB, so there is a
number of processes after which none is created any more, whatever ends in between.

Results:
* `stack_of_ending`: the stack that a creation takes.
* `stackInv_step`: every process that was ever created keeps its stack.
* `processes_ever_created_le`: how many there can be.
-/

namespace NexusKernel.System

open Memory Process Fs

variable {A : HeapArea}

/-! ## The heap -/

/-- Live blocks, with sizes they have at least, fit into the heap with their headers. -/
theorem sum_blocks_le (x : ClientHeap A) {L : List (ℕ × ℕ)} (hnodup : (L.map Prod.fst).Nodup)
    (hL : ∀ q ∈ L, ∃ n, q.2 ≤ n ∧ clientBlocks x q.1 = some n) :
    (L.map fun q => 16 + q.2).sum ≤ kheapSize := by
  obtain ⟨cs, h⟩ := x.represented
  rw [← h.span]
  refine Tiling.sum_le_span (a := A.addr) (by decide) hnodup fun q hq => ?_
  obtain ⟨n, hn, hlive⟩ := hL q hq
  rw [clientBlocks_eq_some_iff] at hlive
  obtain ⟨y, m, -, hy⟩ := (h.live q.1).mp hlive.1
  rw [hy] at hlive
  exact ⟨y, _, hy, h.used_iff.mpr hlive, hn⟩

/-- The kernel stack of a new process is a block of its own. -/
theorem stack_of_ending {e e' : KernelStores A} {p : ℕ} (h : Ending (kernelServices A) e p e')
    (hp : p ≠ 0) : ∃ q n, q ≠ p ∧ kernelStackSize ≤ n ∧ clientBlocks e.heap q = none ∧
      clientBlocks e'.heap q = some n := by
  cases h with
  | noBlock => exact absurd rfl hp
  | noSpace => exact absurd rfl hp
  | noStack => exact absurd rfl hp
  | @made p dir kstack e₁ e₂ e₃ hblock _ hspace hdir hstack hkstack =>
    have hkeep := keepsBlocks_kmalloc hblock
    rw [kernelServices_kmalloc] at hblock hstack
    obtain ⟨rfl, rfl⟩ := Prod.mk.inj hstack
    have hheap : e₂.heap = e₁.heap := create_heap hspace
    have hfresh := (lawful_kheapClient A).kmalloc_fresh e₂.heap kernelStackSize hkstack
    obtain ⟨n, hn, hnew⟩ := (lawful_kheapClient A).kmalloc_new hkstack
    refine ⟨_, n, ?_, hn, ?_, hnew⟩
    · -- the record is live when the stack is taken
      obtain ⟨rfl, rfl⟩ := Prod.mk.inj hblock
      obtain ⟨m, -, hrecord⟩ := (lawful_kheapClient A).kmalloc_new hp
      intro heq
      rw [heq, hheap] at hfresh
      exact Option.some_ne_none m (hrecord.symm.trans hfresh)
    · by_contra hlive
      obtain ⟨m, hm⟩ := Option.ne_none_iff_exists'.mp hlive
      have := hkeep _ m hm
      rw [← hheap, hfresh] at this
      exact Option.some_ne_none m this.symm

/-! ## Stacks along a run -/

/-- There is a stack for idle and for every process created, all different from each other and
    from the records, live, and not the file system's. -/
structure HasStacks (idle : ℕ) (k : Kernel A) (kstacks : List ℕ) : Prop where
  length_eq : kstacks.length = k.turn.created.length + 1
  nodup : (idle :: k.turn.created ++ kstacks).Nodup
  kept : ∀ q ∈ kstacks,
    ∃ n, kernelStackSize ≤ n ∧ clientBlocks k.heap q = some n ∧ q ∉ held k.log

section

variable {idle : ℕ} {k t : Kernel A} {kstacks : List ℕ}

/-- A block that was not live is neither a record nor a stack. -/
theorem HasStacks.notMem (h : KernelInv idle k) (hs : HasStacks idle k kstacks) {q : ℕ}
    (hq : clientBlocks k.heap q = none) : q ∉ idle :: k.turn.created ++ kstacks := by
  intro hmem
  obtain ⟨n, hn⟩ : ∃ n, clientBlocks k.heap q = some n := by
    obtain hmem | hmem := List.mem_append.mp hmem
    · obtain ⟨n, -, hn, -⟩ := h.records q hmem
      exact ⟨n, hn⟩
    · obtain ⟨n, -, hn, -⟩ := hs.kept q hmem
      exact ⟨n, hn⟩
  exact Option.some_ne_none n (hn.symm.trans hq)

theorem hasStacks_file (h : KernelInv idle k) (hs : HasStacks idle k kstacks) {c : PathCall}
    (hc : c.Valid) (ht : kernelStep k (.file c) = some t) : HasStacks idle t kstacks := by
  have hspares := sparesOthers_file h hc ht
  obtain rfl := Option.some_inj.mp ht
  refine ⟨hs.length_eq, hs.nodup, ?_⟩
  intro q hq
  obtain ⟨n, hn, hlive, hout⟩ := hs.kept q hq
  obtain ⟨hlive, hout, -⟩ := hspares q n hlive hout
  exact ⟨n, hn, hlive, hout⟩

theorem hasStacks_process (h : KernelInv idle k) (hs : HasStacks idle k kstacks) {e : TurnOp}
    (ht : kernelStep k (.process e) = some t) : ∃ kstacks', HasStacks idle t kstacks' := by
  obtain ⟨m, hm, rfl⟩ := Option.map_eq_some_iff.mp ht
  obtain ⟨v, hv⟩ := h.turns
  have hold : ∀ q ∈ kstacks, ∃ n, kernelStackSize ≤ n ∧ clientBlocks m.sys.env.heap q = some n ∧
      q ∉ held k.log := by
    intro q hq
    obtain ⟨n, hn, hlive, hout⟩ := hs.kept q hq
    exact ⟨n, hn, keepsBlocks_turnStep hv hm q n hlive, hout⟩
  have hsame : m.created = k.turn.created →
      HasStacks idle ⟨m, vfsOn k.vfs m.sys.env.heap⟩ kstacks := fun hcreated =>
    ⟨hcreated ▸ hs.length_eq, hcreated ▸ hs.nodup, hold⟩
  obtain ⟨-, hcreated⟩ | ⟨name, entry, priority, henv, hcreated⟩ := turnStep_cases hv hm
  · exact ⟨kstacks, hsame hcreated⟩
  split_ifs at hcreated with h0
  · exact ⟨kstacks, hsame hcreated⟩
  -- a creation that succeeds: its record and its stack are two new blocks
  obtain ⟨q, n, hqp, hn, hfresh, hlive⟩ := stack_of_ending (ending_of_ne_zero h0) h0
  have hrecord := (created_processCreate (lawful_kernelServices A) k.turn.sys name entry
    priority).fresh h0
  set p := (processCreate (kernelServices A) k.turn.sys name entry priority).1
  have hp : p ∉ idle :: k.turn.created ++ kstacks :=
    hs.notMem h (Option.not_isSome_iff_eq_none.mp hrecord.1)
  have hq : q ∉ idle :: k.turn.created ++ kstacks := hs.notMem h hfresh
  refine ⟨kstacks ++ [q], ?_, ?_, ?_⟩
  · show (kstacks ++ [q]).length = m.created.length + 1
    rw [hcreated, List.length_append, List.length_append, hs.length_eq]
    rfl
  · show (idle :: m.created ++ (kstacks ++ [q])).Nodup
    have hnodup : (p :: q :: (idle :: k.turn.created ++ kstacks)).Nodup := by
      refine List.nodup_cons.mpr ⟨?_, List.nodup_cons.mpr ⟨hq, hs.nodup⟩⟩
      exact List.not_mem_cons_of_ne_of_not_mem hqp.symm hp
    refine (List.Perm.nodup_iff ?_).mp hnodup
    rw [hcreated, List.perm_iff_count]
    intro a
    simp only [List.count_cons, List.count_append, List.count_nil, List.cons_append]
    omega
  · show ∀ q' ∈ kstacks ++ [q], ∃ n, kernelStackSize ≤ n ∧
      clientBlocks m.sys.env.heap q' = some n ∧ q' ∉ held k.log
    intro q' hq'
    obtain hq' | hq' := List.mem_append.mp hq'
    · exact hold q' hq'
    · rw [List.mem_singleton.mp hq', henv]
      exact ⟨n, hn, hlive, not_held h.log (Option.not_isSome_iff_eq_none.mpr hfresh)⟩

/-- The invariant of the clients, with a stack for every process. -/
def StackInv (idle : ℕ) (k : Kernel A) : Prop :=
  KernelInv idle k ∧ ∃ kstacks, HasStacks idle k kstacks

theorem stackInv_step (h : StackInv idle k) {op : KernelOp} (hop : op.Valid)
    (ht : kernelStep k op = some t) : StackInv idle t := by
  obtain ⟨hinv, kstacks, hs⟩ := h
  refine ⟨kernelInv_step hinv hop ht, ?_⟩
  cases op with
  | process e => exact hasStacks_process hinv hs ht
  | file c => exact ⟨kstacks, hasStacks_file hinv hs hop ht⟩

/-- Records and stacks fit into the heap. -/
theorem StackInv.created_le (h : StackInv idle k) : k.turn.created.length ≤ 498 := by
  obtain ⟨h, kstacks, hs⟩ := h
  have hsum := sum_blocks_le k.heap
    (L := (idle :: k.turn.created).map (·, sizeofProcess) ++ kstacks.map (·, kernelStackSize)) ?_ ?_
  · simp only [List.map_append, List.map_map, Function.comp_def, List.map_const', List.sum_append,
      List.sum_replicate, smul_eq_mul, List.length_cons, hs.length_eq, sizeofProcess,
      kernelStackSize, kheapSize] at hsum
    omega
  · simpa [List.map_map, Function.comp_def] using hs.nodup
  · intro q hq
    obtain hq | hq := List.mem_append.mp hq
    · obtain ⟨p, hp, rfl⟩ := List.mem_map.mp hq
      obtain ⟨n, hn, hlive, -⟩ := h.records p hp
      exact ⟨n, hn, hlive⟩
    · obtain ⟨p, hp, rfl⟩ := List.mem_map.mp hq
      obtain ⟨n, hn, hlive, -⟩ := hs.kept p hp
      exact ⟨n, hn, hlive⟩

end

section

variable {mem : Mem} {v : Vfs (ClientHeap A × List HeapEvent)} {s : Sys (KernelStores A)}

theorem hasStacks_boot (hboot : (bootFiles A mem v).1 = 0)
    (hidle : processGetCurrent (processInit (kernelServices A) (bootTurn A mem v s)) ≠ 0) :
    ∃ kstacks, HasStacks (processGetCurrent (processInit (kernelServices A) (bootTurn A mem v s)))
      (kernelBoot A mem v s) kstacks := by
  obtain ⟨t, henv, hcur, hinit⟩ := env_processInit (bootTurn A mem v s) hidle
  have hcreated : (processCreate (kernelServices A) t (cstr "idle") 0 0).1 ≠ 0 := hcur ▸ hidle
  obtain ⟨q, n, hqp, hn, hfresh, hlive⟩ :=
    stack_of_ending (ending_of_ne_zero hcreated) hcreated
  refine ⟨[q], rfl, ?_, ?_⟩
  · rw [hcur]
    exact List.nodup_cons.mpr ⟨fun hmem => hqp (List.mem_singleton.mp hmem).symm,
      List.nodup_singleton q⟩
  · intro q' hq'
    rw [List.mem_singleton.mp hq']
    refine ⟨n, hn, ?_, not_held (logOk_bootFiles hboot) ?_⟩
    · show clientBlocks (processInit (kernelServices A) (bootTurn A mem v s)).env.heap q = some n
      rw [hinit]
      exact hlive
    · rw [henv] at hfresh
      exact Option.not_isSome_iff_eq_none.mpr hfresh

end

/-- **At most 498 processes are ever created** beside idle, however many of them have been
    terminated in between and whatever files are made and unlinked. -/
theorem processes_ever_created_le (A : HeapArea) (mem : Mem)
    (v : Vfs (ClientHeap A × List HeapEvent)) (s : Sys (KernelStores A))
    (hboot : (bootFiles A mem v).1 = 0)
    (hidle : processGetCurrent (processInit (kernelServices A) (bootTurn A mem v s)) ≠ 0)
    (ops : List KernelOp) (hops : ∀ op ∈ ops, op.Valid) :
    Along kernelStep (fun k => k.turn.created.length ≤ 498) (kernelBoot A mem v s) ops := by
  have hfirst := And.intro (kernelInv_boot hboot hidle) (hasStacks_boot hboot hidle)
  exact Meets.along (fun k op t hk hop ht => stackInv_step hk hop ht) (fun k hk => hk.created_le)
    hfirst (meets_of_forall_mem (fun op hop _ => hops op hop) _)

/-- A process is created, runs, and is terminated, and another one is created. -/
def oneEnds : List KernelOp :=
  [.process (.create (cstr "worker_a") 0x101000 1), .process (.yield 0x9000),
    .process (.terminate 0x2025D8 0), .process (.create (cstr "worker_b") 0x101040 1)]

set_option maxRecDepth 100000 in
theorem processes_ever_created_le_oneEnds :
    (∃ k, run kernelStep (kernelBoot heapAreaAt2M (fun _ => 0) unmountedVfs unbootedSys) oneEnds =
        some k) ∧
      Along kernelStep (fun k => k.turn.created.length ≤ 498)
        (kernelBoot heapAreaAt2M (fun _ => 0) unmountedVfs unbootedSys) oneEnds := by
  refine ⟨Option.isSome_iff_exists.mp (by decide +kernel), ?_⟩
  refine processes_ever_created_le heapAreaAt2M (fun _ => 0) unmountedVfs unbootedSys
    bootFiles_unmountedVfs idle_unbootedSys oneEnds ?_
  simp [oneEnds, KernelOp.Valid]

end NexusKernel.System
