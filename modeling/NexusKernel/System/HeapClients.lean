import NexusKernel.Common.SharedHeap
import NexusKernel.Fs.Footprint
import NexusKernel.Process.CreateUnwinding
import NexusKernel.Process.Footprint

/-!
# Processes and files on one heap

The process manager and the file system are the clients of the kernel heap. The results on
each of them are about a heap that nobody else calls; here both run on the allocator of
`kheap.c`, in any order, each as it is. A log of the calls of the file system says which of
the live blocks are its own.

Nodes, file records, file data and process records are kept apart in the models. What
justifies this is proved here: no call of one client writes into a block of the other.

Results:
* `kernelInv_step`: every step keeps the invariants of both clients.
* `sparesFiles_process`, `sparesOthers_file`: what a step leaves alone.
* `heap_clients_keep_apart`: both hold along every run from boot on.
-/

namespace NexusKernel.System

open Memory Process Fs

variable {A : HeapArea}

/-! ## Runs -/

/-- The processes, and the file system with its log beside the same heap. -/
structure Kernel (A : HeapArea) where
  turn : TurnMachine (KernelStores A)
  vfs : Vfs (ClientHeap A × List HeapEvent)

def Kernel.heap (k : Kernel A) : ClientHeap A := k.turn.sys.env.heap

/-- The calls of the file system. -/
def Kernel.log (k : Kernel A) : List HeapEvent := k.vfs.fs.heap.2

/-- The processes once the file system has left the heap as `heap`. -/
def turnOn (m : TurnMachine (KernelStores A)) (heap : ClientHeap A) : TurnMachine (KernelStores A) :=
  { m with sys := { m.sys with env := { m.sys.env with heap := heap } } }

/-- The file system once the processes have left the heap as `heap`. -/
def vfsOn (v : Vfs (ClientHeap A × List HeapEvent)) (heap : ClientHeap A) :
    Vfs (ClientHeap A × List HeapEvent) :=
  { v with fs := { v.fs with heap := (heap, v.fs.heap.2) } }

inductive KernelOp where
  | process (e : TurnOp)
  | file (c : PathCall)

def kernelStep (k : Kernel A) : KernelOp → Option (Kernel A)
  | .process e => (turnStep (kernelServices A) k.turn e).map fun m => ⟨m, vfsOn k.vfs m.sys.env.heap⟩
  | .file c =>
    let v := (pathCall (kheapClient A).logged k.vfs c).2
    some ⟨turnOn k.turn v.fs.heap.1, v⟩

/-- The file system of `kernel_main` (lines 111–115) on the heap that `kheap_init` leaves. -/
def bootFiles (A : HeapArea) (mem : Mem) (v : Vfs (ClientHeap A × List HeapEvent)) :
    ℤ × Vfs (ClientHeap A × List HeapEvent) :=
  vfsBoot (kheapClient A).logged v { v.fs with heap := (clientBoot A mem, []) }

/-- The process manager's state before `process_init` (line 119): the file system has its
    blocks. -/
def bootTurn (A : HeapArea) (mem : Mem) (v : Vfs (ClientHeap A × List HeapEvent))
    (s : Sys (KernelStores A)) : Sys (KernelStores A) :=
  { s with env := { s.env with heap := (bootFiles A mem v).2.fs.heap.1 } }

/-- Both clients after `scheduler_init` (line 122). -/
def kernelBoot (A : HeapArea) (mem : Mem) (v : Vfs (ClientHeap A × List HeapEvent))
    (s : Sys (KernelStores A)) : Kernel A :=
  let m := turnBoot (kernelServices A) (bootTurn A mem v s)
  ⟨m, vfsOn (bootFiles A mem v).2 m.sys.env.heap⟩

/-! ## What processes do to the heap -/

/-- All blocks that are live at `x` are so at `y`, with the same size. -/
def KeepsBlocks (x y : ClientHeap A) : Prop :=
  ∀ p n, clientBlocks x p = some n → clientBlocks y p = some n

/-- The blocks that are live. -/
abbrev liveSet (e : KernelStores A) : Set ℕ := {a | (clientBlocks e.heap a).isSome}

section

variable {e e₁ e₂ e' : KernelStores A} {p n : ℕ}

theorem keepsBlocks_kmalloc (h : (kernelServices A).kmalloc e n = (p, e₁)) :
    KeepsBlocks e.heap e₁.heap := by
  rw [kernelServices_kmalloc] at h
  obtain ⟨-, rfl⟩ := Prod.mk.inj h
  exact fun q k hq => (lawful_kheapClient A).kmalloc_live e.heap n hq

/-- A block that is taken and given back. -/
theorem keepsBlocks_kfree (h : (kernelServices A).kmalloc e n = (p, e₁)) (hp : p ≠ 0)
    (heap : e₂.heap = e₁.heap) : KeepsBlocks e.heap ((kernelServices A).kfree e₂ p).heap := by
  have hkeep := keepsBlocks_kmalloc h
  rw [kernelServices_kmalloc] at h
  obtain ⟨rfl, rfl⟩ := Prod.mk.inj h
  obtain ⟨m, -, hnew⟩ := (lawful_kheapClient A).kmalloc_new hp
  intro q k hq
  have hqp := (lawful_kheapClient A).kmalloc_ne hp hq
  show clientBlocks ((kheapClient A).kfree e₂.heap _) q = some k
  rw [heap, (lawful_kheapClient A).kfree_blocks _ _ (Option.isSome_iff_exists.mpr ⟨m, hnew⟩),
    Function.update_of_ne hqp.symm]
  exact hkeep q k hq

theorem keepsBlocks_ending (h : Ending (kernelServices A) e p e') :
    KeepsBlocks e.heap e'.heap := by
  cases h with
  | noBlock hblock =>
    rw [kmalloc_refused hblock]
    exact fun _ _ hq => hq
  | noSpace hblock hp hspace => exact keepsBlocks_kfree hblock hp (create_heap hspace)
  | @noStack p dir e₁ e₂ e₃ hblock hp hspace hdir hstack =>
    refine keepsBlocks_kfree hblock hp ?_
    rw [kmalloc_refused hstack]
    show e₂.heap = e₁.heap
    exact create_heap hspace
  | made hblock hp hspace hdir hstack hkstack =>
    intro q k hq
    refine keepsBlocks_kmalloc hstack q k ?_
    rw [create_heap hspace]
    exact keepsBlocks_kmalloc hblock q k hq

/-- The block of a new process has room for its record. -/
theorem record_of_ending (h : Ending (kernelServices A) e p e') (hp : p ≠ 0) :
    ∃ m, sizeofProcess ≤ m ∧ clientBlocks e'.heap p = some m := by
  cases h with
  | noBlock => exact absurd rfl hp
  | noSpace => exact absurd rfl hp
  | noStack => exact absurd rfl hp
  | @made p dir kstack e₁ e₂ e₃ hblock _ hspace hdir hstack hkstack =>
    have hkeep := keepsBlocks_kmalloc hstack
    rw [create_heap hspace] at hkeep
    rw [kernelServices_kmalloc] at hblock
    obtain ⟨rfl, rfl⟩ := Prod.mk.inj hblock
    obtain ⟨m, hm, hnew⟩ := (lawful_kheapClient A).kmalloc_new hp
    exact ⟨m, hm, hkeep _ m hnew⟩

end

section

variable {s : Sys (KernelStores A)} {name : ℕ → Byte} {entry : ℕ} {priority : ℤ}

theorem keepsBlocks_processCreate : KeepsBlocks s.env.heap
    (processCreate (kernelServices A) s name entry priority).2.env.heap := by
  by_cases hpid : (processGetNextPid s).1 = none
  · rw [processCreate_none _ hpid]
    exact fun _ _ hq => hq
  · exact keepsBlocks_ending (ending_processCreate _ hpid name entry priority)

/-- A creation that returns a process had a PID for it. -/
theorem ending_of_ne_zero (hp : (processCreate (kernelServices A) s name entry priority).1 ≠ 0) :
    Ending (kernelServices A) s.env (processCreate (kernelServices A) s name entry priority).1
      (processCreate (kernelServices A) s name entry priority).2.env := by
  refine ending_processCreate _ ?_ name entry priority
  intro hpid
  rw [processCreate_none _ hpid] at hp
  exact hp rfl

end

theorem keepsBlocks_turnStep {idle : ℕ} {m t : TurnMachine (KernelStores A)}
    {v : View (KernelStores A)} (h : TakesTurns liveSet idle m v) {e : TurnOp}
    (ht : turnStep (kernelServices A) m e = some t) :
    KeepsBlocks m.sys.env.heap t.sys.env.heap := by
  obtain ⟨henv, -⟩ | ⟨name, entry, priority, henv, -⟩ := turnStep_cases h ht
  · rw [henv]
    exact fun _ _ hq => hq
  · rw [henv]
    exact keepsBlocks_processCreate

theorem ne_zero_of_clientBlocks {x : ClientHeap A} {q n : ℕ} (hq : clientBlocks x q = some n) :
    q ≠ 0 := by
  obtain ⟨cs, hinv⟩ := x.represented
  rintro rfl
  rw [clientBlocks, if_neg hinv.zero_not_mem] at hq
  exact Option.some_ne_none n hq.symm

/-- A new block starts outside of every block that was live. -/
theorem kmalloc_outside {e : KernelStores A} {q n a : ℕ} (hq : clientBlocks e.heap q = some n)
    (hqa : q ≤ a) (han : a < q + n) (size : ℕ) : a ≠ ((kernelServices A).kmalloc e size).1 := by
  rw [kernelServices_kmalloc]
  show a ≠ ((kheapClient A).kmalloc e.heap size).1
  by_cases h0 : ((kheapClient A).kmalloc e.heap size).1 = 0
  · have := ne_zero_of_clientBlocks hq
    omega
  · obtain ⟨m, -, hnew⟩ := (lawful_kheapClient A).kmalloc_new h0
    have hold := (lawful_kheapClient A).kmalloc_live e.heap size hq
    have hne := (lawful_kheapClient A).kmalloc_ne h0 hq
    have := (lawful_kheapClient A).disjoint _ _ q m n hnew hold hne
    omega

/-! ## The invariant -/

/-- The invariants of the two clients, with the blocks of the processes among those that the
    file system does not hold. -/
structure KernelInv (idle : ℕ) (k : Kernel A) : Prop where
  heap_eq : k.vfs.fs.heap = (k.heap, k.log)
  log : LogOk clientBlocks (k.heap, k.log)
  files : DirInv (heldBlocks clientBlocks) k.vfs.vfsRoot k.vfs.fs
  turns : ∃ v, TakesTurns liveSet idle k.turn v
  records : ∀ p ∈ idle :: k.turn.created,
    ∃ m, sizeofProcess ≤ m ∧ clientBlocks k.heap p = some m ∧ p ∉ held k.log

/-- What the file system holds is live, so a block that was not live is not held. -/
theorem not_held {x : ClientHeap A} {log : List HeapEvent} (h : LogOk clientBlocks (x, log)) {p : ℕ}
    (hp : p ∉ {a | (clientBlocks x a).isSome}) : p ∉ held log := fun hmem => hp (h.live p hmem)

/-- The file system on a heap that has kept its blocks. -/
theorem dirInv_vfsOn {v : Vfs (ClientHeap A × List HeapEvent)} {x y : ClientHeap A}
    (h : DirInv (heldBlocks clientBlocks) v.vfsRoot v.fs) (hx : v.fs.heap.1 = x)
    (hlog : LogOk clientBlocks (x, v.fs.heap.2)) (hkeep : KeepsBlocks x y) :
    DirInv (heldBlocks clientBlocks) (vfsOn v y).vfsRoot (vfsOn v y).fs := by
  subst hx
  obtain ⟨kids, hinv, hnames⟩ := h
  exact ⟨kids, hinv.congr_heap (heldBlocks_mono (fun p n _ => hkeep p n) hlog), hnames⟩

section

variable {idle : ℕ} {k t : Kernel A}

theorem kernelInv_process (h : KernelInv idle k) {e : TurnOp}
    (ht : kernelStep k (.process e) = some t) : KernelInv idle t := by
  obtain ⟨m, hm, rfl⟩ := Option.map_eq_some_iff.mp ht
  obtain ⟨v, hv⟩ := h.turns
  have hturns := inTurn_step (lawful_kernelServices A) ⟨v, hv⟩ hm
  have hkeep : KeepsBlocks k.heap m.sys.env.heap := keepsBlocks_turnStep hv hm
  refine ⟨rfl, h.log.mono fun p n _ => hkeep p n,
    dirInv_vfsOn h.files (congrArg Prod.fst h.heap_eq) h.log hkeep, hturns, ?_⟩
  have hold : ∀ p ∈ idle :: k.turn.created,
      ∃ n, sizeofProcess ≤ n ∧ clientBlocks m.sys.env.heap p = some n ∧ p ∉ held k.log := by
    intro p hp
    obtain ⟨n, hn, hlive, hout⟩ := h.records p hp
    exact ⟨n, hn, hkeep p n hlive, hout⟩
  show ∀ p ∈ idle :: m.created, _
  obtain ⟨-, hcreated⟩ | ⟨name, entry, priority, henv, hcreated⟩ := turnStep_cases hv hm
  · rw [hcreated]
    exact hold
  · rw [hcreated]
    split_ifs with h0
    · exact hold
    · have hfresh := (created_processCreate (lawful_kernelServices A) k.turn.sys name entry
        priority).fresh h0
      obtain ⟨n, hn, hlive⟩ := record_of_ending (ending_of_ne_zero h0) h0
      rw [← henv] at hlive
      rw [← List.cons_append]
      intro p hp
      obtain hp | hp := List.mem_append.mp hp
      · exact hold p hp
      · rw [List.mem_singleton.mp hp]
        exact ⟨n, hn, hlive, not_held h.log hfresh.1⟩

/-- The scheduler does not look at the heap. -/
theorem takesTurns_turnOn {m : TurnMachine (KernelStores A)} {v : View (KernelStores A)}
    (h : TakesTurns liveSet idle m v) {y : ClientHeap A}
    (hlive : ∀ p ∈ idle :: m.created, (clientBlocks y p).isSome) :
    TakesTurns liveSet idle (turnOn m y) { v with env := { m.sys.env with heap := y } } := by
  refine ⟨⟨⟨h.shows.queue.links, h.shows.queue.tail_eq, h.shows.queue.nodup⟩, ?_⟩, ?_, ?_⟩
  · exact congrArg (fun c : Core (KernelStores A) => { c with env := { m.sys.env with heap := y } })
      h.shows.core
  · exact ⟨h.inTurn.current_eq, h.inTurn.notMem, h.inTurn.created_eq, h.inTurn.executing_eq,
      h.inTurn.nodup⟩
  · intro p hp
    exact ⟨(h.inUse_all p hp).1, hlive p hp⟩

/-- The calls that a call by path makes. -/
theorem KernelInv.calls (h : KernelInv idle k) {c : PathCall} (hc : c.Valid) :
    (kheapClient A).logged.Calls (heldBlocks clientBlocks) (k.heap, k.log)
      (pathCall (kheapClient A).logged k.vfs c).2.fs.heap := by
  rw [← h.heap_eq]
  exact pathCall_calls (lawful_kheapClient A).held h.files hc

theorem kernelInv_file (h : KernelInv idle k) {c : PathCall} (hc : c.Valid)
    (ht : kernelStep k (.file c) = some t) : KernelInv idle t := by
  obtain rfl := Option.some_inj.mp ht
  have hcalls := h.calls hc
  have hrecords : ∀ p ∈ idle :: k.turn.created, ∃ n, sizeofProcess ≤ n ∧
      clientBlocks (pathCall (kheapClient A).logged k.vfs c).2.fs.heap.1 p = some n ∧
      p ∉ held (pathCall (kheapClient A).logged k.vfs c).2.fs.heap.2 := by
    intro p hp
    obtain ⟨n, hn, hlive, hout⟩ := h.records p hp
    exact ⟨n, hn, calls_keep_other (t := (k.heap, k.log)) (lawful_kheapClient A) hlive hout hcalls⟩
  obtain ⟨v, hv⟩ := h.turns
  refine ⟨rfl, logOk_calls (lawful_kheapClient A) h.log hcalls,
    dirInv_pathCall (lawful_kheapClient A).held h.files hc, ⟨_, takesTurns_turnOn hv ?_⟩, hrecords⟩
  intro p hp
  obtain ⟨n, -, hlive, -⟩ := hrecords p hp
  rw [hlive]
  rfl

/-- A file call is by a path and with a name that fit, and below the end of memory. -/
def KernelOp.Valid : KernelOp → Prop
  | .process _ => True
  | .file c => c.Valid

theorem kernelInv_step (h : KernelInv idle k) {op : KernelOp} (hop : op.Valid)
    (ht : kernelStep k op = some t) : KernelInv idle t := by
  cases op with
  | process e => exact kernelInv_process h ht
  | file c => exact kernelInv_file h hop ht

/-! ## What a step leaves alone -/

/-- The blocks of the file system stay live and its own, and no process record is written in
    one of them. -/
def SparesFiles (k t : Kernel A) : Prop :=
  ∀ q n, clientBlocks k.heap q = some n → q ∈ held k.log →
    clientBlocks t.heap q = some n ∧ q ∈ held t.log ∧
      ∀ a, q ≤ a → a < q + n → t.turn.sys.procs a = k.turn.sys.procs a

/-- All other live blocks stay live and are not taken, and the file system writes into none of
    them. -/
def SparesOthers (k t : Kernel A) : Prop :=
  ∀ q n, clientBlocks k.heap q = some n → q ∉ held k.log →
    clientBlocks t.heap q = some n ∧ q ∉ held t.log ∧
      ∀ a, q ≤ a → a < q + n → SameAt k.vfs.fs t.vfs.fs a

theorem sparesFiles_process (h : KernelInv idle k) {e : TurnOp}
    (ht : kernelStep k (.process e) = some t) : SparesFiles k t := by
  obtain ⟨m, hm, rfl⟩ := Option.map_eq_some_iff.mp ht
  obtain ⟨v, hv⟩ := h.turns
  intro q n hq hheld
  refine ⟨keepsBlocks_turnStep hv hm q n hq, hheld, ?_⟩
  intro a hqa han
  refine procs_turnStep (lawful_kernelServices A) hv ?_ (kmalloc_outside hq hqa han _) hm
  -- a record is at least one byte long, and in no block of the file system
  intro ha
  obtain ⟨size, hsize, hlive, hout⟩ := h.records a ha
  have hbyte : a ≤ a ∧ a < a + size := by
    unfold sizeofProcess at hsize
    omega
  have hown : heldBlocks clientBlocks (k.heap, k.log) q = some n :=
    heldBlocks_eq_some_iff.mpr ⟨hheld, hq⟩
  have := (other_apart (t := (k.heap, k.log)) (lawful_kheapClient A) hlive hout hbyte hown).2
  omega

theorem sparesOthers_file (h : KernelInv idle k) {c : PathCall} (hc : c.Valid)
    (ht : kernelStep k (.file c) = some t) : SparesOthers k t := by
  obtain rfl := Option.some_inj.mp ht
  intro q n hq hout
  obtain ⟨hlive, hfree⟩ :=
    calls_keep_other (t := (k.heap, k.log)) (lawful_kheapClient A) hq hout (h.calls hc)
  refine ⟨hlive, hfree, ?_⟩
  intro a hqa han
  refine pathCall_outside (lawful_kheapClient A).held h.files hc ?_
  rintro p m (hp | hp)
  · rw [h.heap_eq] at hp
    exact other_apart (t := (k.heap, k.log)) (lawful_kheapClient A) hq hout ⟨hqa, han⟩ hp
  · exact other_apart (lawful_kheapClient A) hlive hfree ⟨hqa, han⟩ hp

def KeepsApart (k : Kernel A) : KernelOp → Prop
  | .process e => ∀ t, kernelStep k (.process e) = some t → SparesFiles k t
  | .file c => ∀ t, kernelStep k (.file c) = some t → SparesOthers k t

theorem KernelInv.keepsApart (h : KernelInv idle k) {op : KernelOp} (hop : op.Valid) :
    KeepsApart k op := by
  cases op with
  | process e => exact fun t ht => sparesFiles_process h ht
  | file c => exact fun t ht => sparesOthers_file h hop ht

/-- The file system is a map of paths, the processes run once and in order, and every block of
    a node is apart from the record of every process. -/
structure KernelOk (idle : ℕ) (k : Kernel A) : Prop where
  files : RefinesPathMap (kheapClient A).logged k.vfs
  turns : RunsOnce idle k.turn
  apart : ∀ p ∈ idle :: k.turn.created, ∀ a, InTree k.vfs.fs k.vfs.vfsRoot a →
    ∀ b ∈ blocksOf k.vfs.fs a, ∃ m n, clientBlocks k.heap p = some m ∧
      clientBlocks k.heap b = some n ∧ sizeofProcess ≤ m ∧ (p + m ≤ b ∨ b + n ≤ p)

theorem KernelInv.ok (h : KernelInv idle k) : KernelOk idle k := by
  refine ⟨refinesPathMap (lawful_kheapClient A).held h.files, ?_, ?_⟩
  · obtain ⟨v, hv⟩ := h.turns
    exact hv.runsOnce
  · intro p hp a ha b hb
    obtain ⟨m, hm, hlive, hout⟩ := h.records p hp
    obtain ⟨kids, hinv, -⟩ := h.files
    have hheld := hinv.owns.live a ((inTree_iff_reach hinv.tree).mp ha) b hb
    rw [h.heap_eq] at hheld
    obtain ⟨n, hn⟩ := Option.isSome_iff_exists.mp hheld
    obtain ⟨hheld, hn⟩ := heldBlocks_eq_some_iff.mp hn
    have hpb : p ≠ b := by
      rintro rfl
      exact hout hheld
    exact ⟨m, n, hlive, hn, hm, (lawful_kheapClient A).disjoint k.heap p b m n hlive hn hpb⟩

end

/-! ## From boot on -/

/-- `process_init` leaves the services as the creation of idle does, and idle is what it
    returned. -/
theorem env_processInit (s : Sys (KernelStores A))
    (hidle : processGetCurrent (processInit (kernelServices A) s) ≠ 0) :
    ∃ t : Sys (KernelStores A), t.env = s.env ∧
      processGetCurrent (processInit (kernelServices A) s) =
        (processCreate (kernelServices A) t (cstr "idle") 0 0).1 ∧
      (processInit (kernelServices A) s).env =
        (processCreate (kernelServices A) t (cstr "idle") 0 0).2.env := by
  obtain ⟨p, t, -, -, hpc, hinit⟩ := processInit_of_idle (lawful_kernelServices A) hidle
  refine ⟨{ s with processTable := fun _ => 0, currentProcess := 0 }, rfl, ?_⟩
  rw [hinit, hpc]
  exact ⟨rfl, rfl⟩

section

variable {mem : Mem} {v : Vfs (ClientHeap A × List HeapEvent)} {s : Sys (KernelStores A)}

/-- The file system has called the heap, and nobody else. -/
theorem logOk_bootFiles (hboot : (bootFiles A mem v).1 = 0) :
    LogOk clientBlocks (bootFiles A mem v).2.fs.heap := by
  have hempty : LogOk clientBlocks (clientBoot A mem, []) :=
    ⟨List.nodup_nil, trivial, fun p hp => absurd hp List.not_mem_nil⟩
  exact logOk_calls (lawful_kheapClient A) hempty (vfsBoot_calls hboot)

theorem kernelInv_boot (hboot : (bootFiles A mem v).1 = 0)
    (hidle : processGetCurrent (processInit (kernelServices A) (bootTurn A mem v s)) ≠ 0) :
    KernelInv (processGetCurrent (processInit (kernelServices A) (bootTurn A mem v s)))
      (kernelBoot A mem v s) := by
  have hlog := logOk_bootFiles hboot
  have hfiles : DirInv (heldBlocks clientBlocks) (bootFiles A mem v).2.vfsRoot
      (bootFiles A mem v).2.fs :=
    ⟨_, ramfsInv_vfsBoot (lawful_kheapClient A).held hboot, fun _ _ => List.nodup_nil⟩
  obtain ⟨t, henv, hcur, hinit⟩ := env_processInit (bootTurn A mem v s) hidle
  have hheap : (bootFiles A mem v).2.fs.heap.1 = t.env.heap := by
    rw [henv]
    rfl
  have hkeep : KeepsBlocks (bootFiles A mem v).2.fs.heap.1
      (processInit (kernelServices A) (bootTurn A mem v s)).env.heap := by
    rw [hinit, hheap]
    exact keepsBlocks_processCreate
  refine ⟨rfl, hlog.mono fun p n _ => hkeep p n, dirInv_vfsOn hfiles rfl hlog hkeep,
    ⟨_, takesTurns_boot (lawful_kernelServices A) hidle⟩, ?_⟩
  intro p hp
  obtain rfl := List.mem_singleton.mp hp
  have hcreated : (processCreate (kernelServices A) t (cstr "idle") 0 0).1 ≠ 0 := hcur ▸ hidle
  obtain ⟨m, hm, hlive⟩ := record_of_ending (ending_of_ne_zero hcreated) hcreated
  have hfresh := (created_processCreate (lawful_kernelServices A) t (cstr "idle") 0 0).fresh hcreated
  refine ⟨m, hm, ?_, ?_⟩
  · show clientBlocks (processInit (kernelServices A) (bootTurn A mem v s)).env.heap _ = some m
    rw [hcur, hinit]
    exact hlive
  · refine not_held hlog ?_
    rw [hcur, hheap]
    exact hfresh.1

end

/-- **The clients of the heap keep apart.** From boot on, in whatever order files are made,
    written and unlinked and processes are created, scheduled and ended, the file system is a
    map of paths and the processes run as if each had the heap for itself; their blocks do not
    overlap, and no step of one client takes, frees or writes into a block of the other. -/
theorem heap_clients_keep_apart (A : HeapArea) (mem : Mem)
    (v : Vfs (ClientHeap A × List HeapEvent)) (s : Sys (KernelStores A))
    (hboot : (bootFiles A mem v).1 = 0)
    (hidle : processGetCurrent (processInit (kernelServices A) (bootTurn A mem v s)) ≠ 0)
    (ops : List KernelOp) (hops : ∀ op ∈ ops, op.Valid) :
    Along kernelStep
      (KernelOk (processGetCurrent (processInit (kernelServices A) (bootTurn A mem v s))))
      (kernelBoot A mem v s) ops ∧
    Meets kernelStep KeepsApart (kernelBoot A mem v s) ops := by
  have hfirst := kernelInv_boot hboot hidle
  have hvalid : Meets kernelStep (fun (_ : Kernel A) op => op.Valid) (kernelBoot A mem v s) ops :=
    meets_of_forall_mem (fun op hop _ => hops op hop) _
  exact ⟨Meets.along (fun k op t hk hop ht => kernelInv_step hk hop ht) (fun k hk => hk.ok) hfirst
    hvalid,
    hvalid.imp (fun k op t hk hop ht => kernelInv_step hk hop ht)
      (fun k op hk hop => hk.keepsApart hop) hfirst⟩

/-- Nothing is mounted yet. -/
def unmountedVfs : Vfs (ClientHeap heapAreaAt2M × List HeapEvent) where
  fs := ⟨fun _ => {}, fun _ => ⟨0, 0, 0⟩, fun _ => 0, 0, clientBoot heapAreaAt2M fun _ => 0, []⟩
  vfsRoot := 0
  mountList := 0
  mountCount := 0
  mounts := fun _ => ⟨fun _ => 0, fun _ => 0, 0, 0⟩

/-- A directory, a process, a file in the directory, and the process runs. -/
def mixedOps : List KernelOp :=
  [.file ⟨.lit "/", fun _ => 0, .make (.lit "tmp") (.mkdir 0o755)⟩,
    .process (.create (cstr "worker_a") 0x101000 1),
    .file ⟨.lit "/tmp", fun _ => 0, .make (.lit "a") (.create vfsFile)⟩,
    .process (.yield 0x9000)]

/-- Right after `pmm_init`. -/
def unbootedSys : Sys (KernelStores heapAreaAt2M) :=
  coldKernel (pmmRun (bootPmm ⟨fun _ => 0, 0, 0⟩ smallMap) [])

theorem bootFiles_unmountedVfs :
    (bootFiles heapAreaAt2M (fun _ => 0) unmountedVfs).1 = 0 := by decide +kernel

theorem idle_unbootedSys : processGetCurrent (processInit (kernelServices heapAreaAt2M)
    (bootTurn heapAreaAt2M (fun _ => 0) unmountedVfs unbootedSys)) ≠ 0 := by decide +kernel

theorem heap_clients_keep_apart_mixed :
    Along kernelStep (KernelOk (processGetCurrent (processInit (kernelServices heapAreaAt2M)
        (bootTurn heapAreaAt2M (fun _ => 0) unmountedVfs unbootedSys))))
      (kernelBoot heapAreaAt2M (fun _ => 0) unmountedVfs unbootedSys) mixedOps ∧
    Meets kernelStep KeepsApart
      (kernelBoot heapAreaAt2M (fun _ => 0) unmountedVfs unbootedSys) mixedOps := by
  refine heap_clients_keep_apart heapAreaAt2M (fun _ => 0) unmountedVfs unbootedSys
    bootFiles_unmountedVfs idle_unbootedSys mixedOps ?_
  simp only [mixedOps, List.forall_mem_cons, List.not_mem_nil, false_imp_iff, implies_true,
    KernelOp.Valid, PathCall.Valid, PathOp.Valid]
  decide +kernel

end NexusKernel.System
