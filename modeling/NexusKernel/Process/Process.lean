import NexusKernel.Lib.String

/-!
# Processes (`kernel/process/process.c`)

Process records live at addresses; 0 is the null pointer. What `process_create`
asks of the rest of the kernel (blocks of the heap, address spaces) goes through
`Services`, so that the process table can be studied with any of its answers.

The registers of `cpu_context_t` that no function here writes but `memset`,
`user_stack` and the console output are left out.

Results:
* `created_processCreate`: a creation changes no record in use and nothing of the
  scheduler's; the new record, if there is one, was not in use and is ready.
-/

namespace NexusKernel.Process

/-! ## Records -/

/-- `process_state_t` (`process.h`, lines 11–17). -/
inductive ProcessState where
  | created
  | ready
  | running
  | blocked
  | terminated
deriving DecidableEq

/-- `cpu_context_t` (`process.h`, lines 19–25). -/
structure CpuContext where
  ebp : ℕ := 0
  esp : ℕ := 0
  eip : ℕ := 0
  eflags : ℕ := 0
  cs : ℕ := 0
  ds : ℕ := 0
  es : ℕ := 0
  fs : ℕ := 0
  gs : ℕ := 0
  ss : ℕ := 0
  cr3 : ℕ := 0

/-- `process_t` (`process.h`, lines 27–39); the default is what `memset` leaves. -/
structure Proc where
  pid : ℕ := 0
  parentPid : ℕ := 0
  name : ℕ → Byte := fun _ => 0
  state : ProcessState := .created
  priority : ℤ := 0
  exitCode : ℤ := 0
  context : CpuContext := {}
  pageDirectory : ℕ := 0
  kernelStack : ℕ := 0
  next : ℕ := 0

/-- `PROCESS_NAME_MAX`, `MAX_PROCESSES` and `KERNEL_STACK_SIZE` (`process.h`). -/
def processNameMax : ℕ := 64

@[inherit_doc processNameMax]
def maxProcesses : ℕ := 256

@[inherit_doc processNameMax]
def kernelStackSize : ℕ := 8192

/-- `sizeof(process_t)`. -/
def sizeofProcess : ℕ := 168

/-! ## The rest of the kernel -/

/-- What `process_create` and `process_init` call: `kmalloc`, `kfree`,
    `vmm_create_address_space`, `vmm_destroy_address_space`, `dir->physical_addr`
    and `vmm_get_kernel_directory`, on a state `τ` of their own. -/
structure Services (τ : Type) where
  kmalloc : τ → ℕ → ℕ × τ
  kfree : τ → ℕ → τ
  createAddressSpace : τ → ℕ × τ
  destroyAddressSpace : τ → ℕ → τ
  physicalAddr : τ → ℕ → ℕ
  kernelDirectory : τ → ℕ

/-- Where execution is: the process whose code runs and the registers that
    `context_switch` loads, with the address of its return label. -/
structure Cpu where
  executing : ℕ
  esp : ℕ
  eip : ℕ
  tssEsp0 : ℕ
  currentDirectory : ℕ
  switchReturn : ℕ

/-- The static variables of `process.c` and `scheduler.c`, the process records and
    the state of the services. `switches` logs every call of `context_switch` as
    `prev` and the process that was executing, latest first. -/
structure Sys (τ : Type) where
  procs : ℕ → Proc
  processTable : ℕ → ℕ
  currentProcess : ℕ
  nextPid : ℕ
  readyQueueHead : ℕ
  readyQueueTail : ℕ
  ticksRemaining : ℕ
  schedulerEnabled : Bool
  cpu : Cpu
  switches : List (ℕ × ℕ)
  env : τ

variable {τ : Type}

/-- Change the record at `p`. -/
def Sys.setProc (s : Sys τ) (p : ℕ) (f : Proc → Proc) : Sys τ :=
  { s with procs := Function.update s.procs p (f (s.procs p)) }

/-- `p->state = v`. -/
def Sys.setState (s : Sys τ) (p : ℕ) (v : ProcessState) : Sys τ :=
  s.setProc p fun r => { r with state := v }

/-- `p->next = v`. -/
def Sys.setNext (s : Sys τ) (p v : ℕ) : Sys τ := s.setProc p fun r => { r with next := v }

/-! ## Functions -/

/-- `process_get_next_pid` (lines 110–125); `none` is -1. -/
def processGetNextPid (s : Sys τ) : Option ℕ × Sys τ :=
  match (List.range' s.nextPid (maxProcesses - s.nextPid)).find? fun i => s.processTable i = 0 with
  | some i => (some i, { s with nextPid := i + 1 })
  | none =>
    match (List.range' 1 (s.nextPid - 1)).find? fun i => s.processTable i = 0 with
    | some i => (some i, { s with nextPid := i + 1 })
    | none => (none, s)

/-- The context of a process that starts at `entry` (lines 62–73). -/
def startContext (entry kernelStack cr3 : ℕ) : CpuContext where
  eip := entry
  cs := 0x08
  ds := 0x10
  es := 0x10
  fs := 0x10
  gs := 0x10
  ss := 0x10
  esp := kernelStack
  ebp := kernelStack
  eflags := 0x202
  cr3 := cr3

/-- The record of a new process up to line 44. -/
def newProc (s : Sys τ) (pid : ℕ) (name : ℕ → Byte) (priority : ℤ) : Proc where
  pid := pid
  parentPid := if s.currentProcess ≠ 0 then (s.procs s.currentProcess).pid else 0
  name := strncpy (fun _ => 0) name (processNameMax - 1)
  state := .created
  priority := priority

/-- `process_create` (lines 28–81); `0` is `NULL`. -/
def processCreate (S : Services τ) (s : Sys τ) (name : ℕ → Byte) (entry : ℕ) (priority : ℤ) :
    ℕ × Sys τ :=
  match processGetNextPid s with
  | (none, s) => (0, s)
  | (some pid, s) =>
    let (proc, env) := S.kmalloc s.env sizeofProcess
    let s := { s with env := env }
    if proc = 0 then (0, s)
    else
      let s := s.setProc proc fun _ => newProc s pid name priority
      let (dir, env) := S.createAddressSpace s.env
      let s := { s with env := env }
      let s := s.setProc proc fun p => { p with pageDirectory := dir }
      if dir = 0 then (0, { s with env := S.kfree s.env proc })
      else
        let (kstack, env) := S.kmalloc s.env kernelStackSize
        let s := { s with env := env }
        if kstack = 0 then
          (0, { s with env := S.kfree (S.destroyAddressSpace s.env dir) proc })
        else
          let stack := u32 (kstack + kernelStackSize)
          let s := s.setProc proc fun p => { p with kernelStack := stack }
          let s := if entry ≠ 0 then
              s.setProc proc fun p =>
                { p with context := startContext entry stack (S.physicalAddr s.env dir) }
            else s
          let s := { s with processTable := Function.update s.processTable pid proc }
          (proc, s.setState proc .ready)

/-- `process_init` (lines 12–26). -/
def processInit (S : Services τ) (s : Sys τ) : Sys τ :=
  let s := { s with processTable := fun _ => 0, currentProcess := 0 }
  let (idle, s) := processCreate S s (cstr "idle") 0 0
  if idle ≠ 0 then
    let s := s.setProc idle fun p =>
      { p with pid := 0, state := .running, pageDirectory := S.kernelDirectory s.env }
    { s with currentProcess := idle }
  else s

/-- `process_terminate` (lines 83–96). -/
def processTerminate (s : Sys τ) (proc : ℕ) (exitCode : ℤ) : Sys τ :=
  if proc = 0 then s
  else
    let s := s.setProc proc fun p => { p with state := .terminated, exitCode := exitCode }
    let pid := (s.procs proc).pid
    if 0 < pid ∧ pid < maxProcesses then
      { s with processTable := Function.update s.processTable pid 0 }
    else s

/-- `process_get_current` (lines 98–101). -/
def processGetCurrent (s : Sys τ) : ℕ := s.currentProcess

/-- `process_get_by_pid` (lines 103–108). -/
def processGetByPid (s : Sys τ) (pid : ℤ) : ℕ :=
  if pid < 0 ∨ pid ≥ maxProcesses then 0 else s.processTable pid.toNat

theorem processTerminate_of_ne (s : Sys τ) {proc : ℕ} (h0 : proc ≠ 0) (exitCode : ℤ) :
    processTerminate s proc exitCode =
      { s.setProc proc fun p => { p with state := .terminated, exitCode := exitCode } with
        processTable :=
          if 0 < (s.procs proc).pid ∧ (s.procs proc).pid < maxProcesses then
            Function.update s.processTable (s.procs proc).pid 0
          else s.processTable } := by
  have hpid : ((s.setProc proc fun p =>
      { p with state := .terminated, exitCode := exitCode }).procs proc).pid =
      (s.procs proc).pid := by
    simp [Sys.setProc]
  simp only [processTerminate, if_neg h0, hpid]
  split_ifs <;> rfl

theorem processTerminate_record (s : Sys τ) (code : ℤ) {p q : ℕ} (hq : q ≠ p) :
    (processTerminate s p code).procs q = s.procs q := by
  by_cases h0 : p = 0
  · rw [processTerminate, if_pos h0]
  · rw [processTerminate_of_ne s h0]
    exact Function.update_of_ne hq _ _

theorem pid_processTerminate (s : Sys τ) (p : ℕ) (code : ℤ) (a : ℕ) :
    ((processTerminate s p code).procs a).pid = (s.procs a).pid := by
  by_cases hap : a = p
  · by_cases h0 : p = 0
    · rw [processTerminate, if_pos h0]
    · rw [hap, processTerminate_of_ne s h0]
      simp [Sys.setProc]
  · rw [processTerminate_record s code hap]

/-! ## What a creation can change -/

/-- The services keep track of the blocks in use: a new block was not in use, and
    nothing but `kfree` takes one out of use. -/
structure Services.Lawful (S : Services τ) (inUse : τ → Set ℕ) : Prop where
  kmalloc_fresh : ∀ e n, (S.kmalloc e n).1 ≠ 0 → (S.kmalloc e n).1 ∉ inUse e
  kmalloc_inUse : ∀ e n, (S.kmalloc e n).1 ≠ 0 → (S.kmalloc e n).1 ∈ inUse (S.kmalloc e n).2
  kmalloc_mono : ∀ e n, inUse e ⊆ inUse (S.kmalloc e n).2
  kfree_mono : ∀ e a, inUse e \ {a} ⊆ inUse (S.kfree e a)
  create_mono : ∀ e, inUse e ⊆ inUse (S.createAddressSpace e).2
  destroy_mono : ∀ e d, inUse e ⊆ inUse (S.destroyAddressSpace e d)

/-- `t` comes from `s` by a creation that returned `p`. -/
structure Created (inUse : τ → Set ℕ) (s : Sys τ) (p : ℕ) (t : Sys τ) : Prop where
  eq_of_inUse : ∀ a ∈ inUse s.env, t.procs a = s.procs a
  rest_eq : t =
    { s with procs := t.procs, processTable := t.processTable, nextPid := t.nextPid, env := t.env }
  inUse_mono : inUse s.env ⊆ inUse t.env
  fresh : p ≠ 0 → p ∉ inUse s.env ∧ p ∈ inUse t.env ∧ (t.procs p).state = .ready

/-- What a creation means for the records `l` that were handed out before it: it leaves them
    alone, and the new one is none of them. -/
structure KeepsKnown (inUse : τ → Set ℕ) (s : Sys τ) (p : ℕ) (t : Sys τ) (l : List ℕ) : Prop where
  procs_eq : ∀ a ∈ l, t.procs a = s.procs a
  kept : ∀ a ∈ l, a ≠ 0 ∧ a ∈ inUse t.env
  notMem : p ≠ 0 → p ∉ l
  subset : l ⊆ if p = 0 then l else p :: l
  joined : ∀ a ∈ (if p = 0 then l else p :: l), a ≠ 0 ∧ a ∈ inUse t.env

theorem Created.keepsKnown {inUse : τ → Set ℕ} {s t : Sys τ} {p : ℕ} (hc : Created inUse s p t)
    {l : List ℕ} (hl : ∀ a ∈ l, a ≠ 0 ∧ a ∈ inUse s.env) : KeepsKnown inUse s p t l := by
  have hkept : ∀ a ∈ l, a ≠ 0 ∧ a ∈ inUse t.env :=
    fun a ha => ⟨(hl a ha).1, hc.inUse_mono (hl a ha).2⟩
  refine ⟨fun a ha => hc.eq_of_inUse a (hl a ha).2, hkept, ?_, ?_, ?_⟩
  · exact fun h0 hmem => (hc.fresh h0).1 (hl p hmem).2
  · split_ifs
    · exact List.Subset.refl l
    · exact List.subset_cons_self p l
  · split_ifs with h0
    · exact hkept
    · exact List.forall_mem_cons.mpr ⟨⟨h0, (hc.fresh h0).2.1⟩, hkept⟩

theorem setProc_env (s : Sys τ) (p : ℕ) (f : Proc → Proc) : (s.setProc p f).env = s.env := rfl

theorem exists_processGetNextPid_eq (s : Sys τ) :
    ∃ pid n, processGetNextPid s = (pid, { s with nextPid := n }) := by
  unfold processGetNextPid
  split
  · exact ⟨_, _, rfl⟩
  · split
    · exact ⟨_, _, rfl⟩
    · exact ⟨none, s.nextPid, rfl⟩

theorem created_processCreate {S : Services τ} {inUse : τ → Set ℕ} (hS : S.Lawful inUse)
    (s : Sys τ) (name : ℕ → Byte) (entry : ℕ) (priority : ℤ) :
    Created inUse s (processCreate S s name entry priority).1
      (processCreate S s name entry priority).2 := by
  obtain ⟨pid?, n, hpid⟩ := exists_processGetNextPid_eq s
  cases pid? with
  | none =>
    simp only [processCreate, hpid]
    exact ⟨fun _ _ => rfl, rfl, subset_rfl, fun h => absurd rfl h⟩
  | some pid =>
    have hfresh := hS.kmalloc_fresh s.env sizeofProcess
    have hin := hS.kmalloc_inUse s.env sizeofProcess
    have hmono := hS.kmalloc_mono s.env sizeofProcess
    rcases hk : S.kmalloc s.env sizeofProcess with ⟨proc, e1⟩
    have hmono1 := hS.create_mono e1
    rcases hc : S.createAddressSpace e1 with ⟨dir, e2⟩
    have hmono2 := hS.kmalloc_mono e2 kernelStackSize
    rcases hs : S.kmalloc e2 kernelStackSize with ⟨kstack, e3⟩
    simp only [hk, hc, hs] at hfresh hin hmono hmono1 hmono2
    simp only [processCreate, hpid, hk, setProc_env, hc, hs]
    split_ifs with h0 hd hks hentry
    · exact ⟨fun _ _ => rfl, rfl, hmono, fun h => absurd rfl h⟩
    all_goals
      have hne : ∀ a ∈ inUse s.env, a ≠ proc := by
        rintro a ha rfl
        exact hfresh h0 ha
    · refine ⟨fun a ha => ?_, rfl, fun a ha => ?_, fun h => absurd rfl h⟩
      · simp [Sys.setProc, hne a ha]
      · exact hS.kfree_mono _ _ ⟨hmono1 (hmono ha), hne a ha⟩
    · refine ⟨fun a ha => ?_, rfl, fun a ha => ?_, fun h => absurd rfl h⟩
      · simp [Sys.setProc, hne a ha]
      · exact hS.kfree_mono _ _ ⟨hS.destroy_mono _ _ (hmono2 (hmono1 (hmono ha))), hne a ha⟩
    · refine ⟨fun a ha => ?_, rfl, fun a ha => hmono2 (hmono1 (hmono ha)), fun h => ?_⟩
      · simp [Sys.setProc, Sys.setState, hne a ha]
      · exact ⟨hfresh h0, hmono2 (hmono1 (hin h0)), by simp [Sys.setProc, Sys.setState]⟩
    · refine ⟨fun a ha => ?_, rfl, fun a ha => hmono2 (hmono1 (hmono ha)), fun h => ?_⟩
      · simp [Sys.setProc, Sys.setState, hne a ha]
      · exact ⟨hfresh h0, hmono2 (hmono1 (hin h0)), by simp [Sys.setProc, Sys.setState]⟩

/-- What `process_init` does with the process it made (lines 20–23). -/
def makeIdle (S : Services τ) (t : Sys τ) (p : ℕ) : Sys τ :=
  { t.setProc p fun r =>
      { r with pid := 0, state := .running, pageDirectory := S.kernelDirectory t.env }
    with currentProcess := p }

theorem makeIdle_procs (S : Services τ) (t : Sys τ) (p : ℕ) : (makeIdle S t p).procs p =
    { t.procs p with pid := 0, state := .running, pageDirectory := S.kernelDirectory t.env } :=
  Function.update_self ..

/-- If `process_init` makes idle, it does so from the process that a creation returned. -/
theorem processInit_of_idle {S : Services τ} {inUse : τ → Set ℕ} (hS : S.Lawful inUse) {s : Sys τ}
    (hidle : processGetCurrent (processInit S s) ≠ 0) :
    ∃ p t, Created inUse { s with processTable := fun _ => 0, currentProcess := 0 } p t ∧ p ≠ 0 ∧
      processCreate S { s with processTable := fun _ => 0, currentProcess := 0 } (cstr "idle") 0 0 =
        (p, t) ∧ processInit S s = makeIdle S t p := by
  have hc := created_processCreate hS { s with processTable := fun _ => 0, currentProcess := 0 }
    (cstr "idle") 0 0
  rcases hpc : processCreate S { s with processTable := fun _ => 0, currentProcess := 0 }
    (cstr "idle") 0 0 with ⟨p, t⟩
  simp only [hpc] at hc
  by_cases h0 : p = 0
  · have hcur : t.currentProcess = 0 := by rw [hc.rest_eq]
    simp only [processInit, hpc, h0, ne_eq, not_true_eq_false, if_false, processGetCurrent] at hidle
    exact absurd hcur hidle
  · refine ⟨p, t, hc, h0, rfl, ?_⟩
    simp only [processInit, hpc, ne_eq, h0, not_false_eq_true, if_true]
    rfl

/-- If `process_init` makes idle, idle is running and in use. -/
theorem processInit_running {S : Services τ} {inUse : τ → Set ℕ} (hS : S.Lawful inUse) {s : Sys τ}
    (hidle : processGetCurrent (processInit S s) ≠ 0) :
    ((processInit S s).procs (processInit S s).currentProcess).state = .running ∧
      (processInit S s).currentProcess ∈ inUse (processInit S s).env := by
  obtain ⟨p, t, hc, h0, -, hinit⟩ := processInit_of_idle hS hidle
  rw [hinit]
  refine ⟨?_, (hc.fresh h0).2.1⟩
  show ((makeIdle S t p).procs p).state = .running
  rw [makeIdle_procs]

/-! ## A cold start -/

/-- Services that always have a new block. -/
def bumpServices : Services ℕ where
  kmalloc e n := (e + 1, e + 1 + n)
  kfree e _ := e
  createAddressSpace e := (e + 1, e + 1)
  destroyAddressSpace e _ := e
  physicalAddr _ d := d
  kernelDirectory _ := 1

theorem lawful_bumpServices : bumpServices.Lawful fun e => {a | a ≤ e} := by
  refine ⟨?_, ?_, ?_, ?_, ?_, ?_⟩
  · intro e n _ hmem
    exact absurd hmem (by simp [bumpServices])
  · intro e n _
    simp [bumpServices]
  · intro e n a ha
    simp only [Set.mem_ofPred_eq, bumpServices] at ha ⊢
    omega
  · intro e a b hb
    exact hb.1
  · intro e a ha
    exact Nat.le_succ_of_le ha
  · intro e d a ha
    exact ha

/-- The static variables before boot. -/
def coldSys : Sys ℕ where
  procs _ := {}
  processTable _ := 0
  currentProcess := 0
  nextPid := 1
  readyQueueHead := 0
  readyQueueTail := 0
  ticksRemaining := 0
  schedulerEnabled := false
  cpu := ⟨0, 0, 0, 0, 0, 0⟩
  switches := []
  env := 0

end NexusKernel.Process
