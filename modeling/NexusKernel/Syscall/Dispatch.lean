import NexusKernel.Cpu.Interrupts
import NexusKernel.Fs.PathBuffer
import NexusKernel.Process.CurrentProcess
import NexusKernel.Syscall.Paths
import NexusKernel.Syscall.Write

/-!
# System calls (`kernel/syscall/syscall.c`)

`syscall_handler` takes the number of a call from the frame of the interrupt, calls the
function of the table and puts its result back into the frame. The calls work on three
parts of the kernel: the processes, the file system and the screen.

What the pointers of the caller point to is given by a `Caller`; nothing in the kernel
checks them. A call that switches to another process does not return here: whether its
caller runs again is up to the scheduler. A path without an end in the buffer of
`vfs_resolve_path` leaves a call without an outcome.

Results:
* `effect_syscallHandler`: what a call can do, for every number.
* `int80_returns`: the way of `int 0x80` to its call, and what the caller sees.
* `getpid_returns_zero`: every process gets 0 from `sys_getpid`, at any time.
* `failed_syscalls_change_nothing`: after any sequence of calls, a call that returns -1 has
  changed nothing, but for `sys_write` with a size of 2 ^ 32 - 1.
-/

namespace NexusKernel.Syscall

open NexusKernel.Fs
open X86 (Word)
open Cpu (Registers)

/-! ## The calls -/

/-- What the calls work on. -/
structure Kernel (τ υ : Type) where
  procs : Process.Sys τ
  vfs : Vfs υ
  screen : Lib.Vga

/-- The strings and the bytes at the caller's pointers, what is left in the path buffer of
    `vfs_resolve_path`, and the stack pointer that a context switch saves. -/
structure Caller where
  string : Word → CString
  bytes : Word → ℕ → Byte
  pathbuf : ℕ → Byte
  esp : ℕ

/-- How a function of the kernel ends: it returns, or it has loaded the context of another
    process before it could. -/
inductive Outcome (α τ υ : Type) where
  | returns (a : α) (k : Kernel τ υ)
  | switches (k : Kernel τ υ)

variable {α β τ υ : Type} {H : Heap υ} {blocks : υ → ℕ → Option ℕ}

def Outcome.map (f : α → β) : Outcome α τ υ → Outcome β τ υ
  | .returns a k => .returns (f a) k
  | .switches k => .switches k

def Outcome.kernel : Outcome α τ υ → Kernel τ υ
  | .returns _ k => k
  | .switches k => k

/-- `syscall_fn_t`. -/
abbrev SyscallFn (τ υ : Type) := Kernel τ υ → Caller → Registers → Option (Outcome Word τ υ)

/-- `scheduler_yield(); return 0;`, which returns unless the yield switches. -/
def yieldReturn (k : Kernel τ υ) (c : Caller) : Outcome Word τ υ :=
  let k' := { k with procs := Process.schedulerYield k.procs c.esp }
  if Process.YieldSwitches k.procs then .switches k' else .returns 0 k'

/-- The path at a pointer. -/
def Caller.path (c : Caller) (p : Word) : Option CString := if p = 0 then none else some (c.string p)

/-- What `sys_getpid` returns (lines 73–76). -/
def getpidResult (k : Kernel τ υ) : Word :=
  let current := Process.processGetCurrent k.procs
  if current ≠ 0 then BitVec.ofNat 32 (k.procs.procs current).pid else -1

/-- `sys_getpid` (lines 70–77). -/
def sysGetpid : SyscallFn τ υ := fun k _ _ => some (.returns (getpidResult k) k)

/-- The outcomes of a call with the frame `r`, by its number in `eax`. -/
inductive SyscallEffect (H : Heap υ) (k : Kernel τ υ) (c : Caller) (r : Registers) :
    Outcome Word τ υ → Prop where
  | exit (number : r.eax = 0) : SyscallEffect H k c r
      (yieldReturn { k with procs := Process.terminateCurrent k.procs r.ebx.toInt } c)
  | write (number : r.eax = 2) (fd : r.ebx = 1 ∨ r.ebx = 2) : SyscallEffect H k c r
      (.returns r.edx { k with
        screen := ((List.range r.edx.toNat).map (c.bytes r.ecx)).foldl Lib.vgaPutchar k.screen })
  | noFile (number : r.eax = 2) (fd : ¬ (r.ebx = 1 ∨ r.ebx = 2)) :
      SyscallEffect H k c r (.returns (-1) k)
  | resolve (number : r.eax = 3) {node : ℕ}
      (found : vfsResolvePathBytes k.vfs c.pathbuf (c.path r.ebx) = some node) :
      SyscallEffect H k c r (.returns (BitVec.ofInt 32 (openNode k.vfs node r.ecx.toNat)) k)
  | close (number : r.eax = 4) : SyscallEffect H k c r (.returns 0 k)
  | getpid (number : r.eax = 6) : SyscallEffect H k c r (.returns (getpidResult k) k)
  | yield (number : r.eax = 7) : SyscallEffect H k c r (yieldReturn k c)
  | mkdir (number : r.eax = 9) : SyscallEffect H k c r
      (.returns (BitVec.ofInt 32 (sysMkdir H k.vfs (c.string r.ebx) r.ecx.toNat).1)
        { k with vfs := (sysMkdir H k.vfs (c.string r.ebx) r.ecx.toNat).2 })
  | unlink (number : r.eax = 10) : SyscallEffect H k c r
      (.returns (BitVec.ofInt 32 (sysUnlink H k.vfs (c.string r.ebx)).1)
        { k with vfs := (sysUnlink H k.vfs (c.string r.ebx)).2 })
  | unsupported (number : r.eax = 1 ∨ r.eax = 5 ∨ r.eax = 8 ∨ r.eax = 11) :
      SyscallEffect H k c r (.returns (-1) k)
  | unknown (number : 12 ≤ r.eax.toNat) : SyscallEffect H k c r (.returns (-1) k)

section

variable {k : Kernel τ υ} {c : Caller} {r : Registers}

end

/-! ## The caller of `int 0x80` -/

/-- No root is mounted, or the nodes below it are a tree that owns its blocks. -/
def FsInv (blocks : υ → ℕ → Option ℕ) (v : Vfs υ) : Prop :=
  v.vfsRoot = 0 ∨ ∃ kids, RamfsInv blocks v.fs v.vfsRoot kids

/-- The same files and the same blocks in use; the heap may have arranged its free memory
    in another way. -/
def SameFiles (blocks : υ → ℕ → Option ℕ) (v w : Vfs υ) : Prop :=
  ∃ heap, w = { v with fs := { v.fs with heap := heap } } ∧ blocks heap = blocks v.fs.heap

theorem SameFiles.refl (v : Vfs υ) : SameFiles blocks v v := ⟨v.fs.heap, rfl, rfl⟩

/-- A call of the file system on its root. -/
theorem rootCall (hH : H.Lawful blocks) {v : Vfs υ} (hroot : v.vfsRoot ≠ 0) (hinv : FsInv blocks v)
    {op : FsOp} (hop : OnTree v.vfsRoot v.fs op) :
    FsInv blocks { v with fs := (fsCall H v.fs op).2 } ∧
      (BitVec.ofInt 32 (fsCall H v.fs op).1 = (-1 : Word) → (∀ a b n m, op ≠ .write a b n m) →
        SameFiles blocks v { v with fs := (fsCall H v.fs op).2 }) := by
  obtain hnull | ⟨kids, h⟩ := hinv
  · exact absurd hnull hroot
  obtain ⟨kids', he⟩ := effect_fsCall hH h hop
  refine ⟨Or.inr ⟨kids', ramfsInv_of_effect h he⟩, ?_⟩
  intro hfail hop
  have hzero : BitVec.ofInt 32 0 ≠ (-1 : Word) := by decide
  generalize fsCall H v.fs op = a at he hfail
  cases he with
  | fail _ hblocks => exact ⟨_, rfl, hblocks⟩
  | made => exact absurd hfail hzero
  | unlinked => exact absurd hfail hzero
  | wrote => exact absurd rfl (hop _ _ _ _)

theorem fsInv_sysMkdir (hH : H.Lawful blocks) {v : Vfs υ} (hinv : FsInv blocks v) (path : CString)
    (mode : ℕ) :
    FsInv blocks (sysMkdir H v path mode).2 ∧
      (BitVec.ofInt 32 (sysMkdir H v path mode).1 = (-1 : Word) →
        SameFiles blocks v (sysMkdir H v path mode).2) := by
  by_cases hroot : v.vfsRoot = 0
  · rw [sysMkdir, vfsGetRoot, if_pos hroot]
    exact ⟨hinv, fun _ => .refl v⟩
  · obtain ⟨hinv', hfail⟩ := rootCall hH hroot hinv
      (show OnTree v.vfsRoot v.fs (.make v.vfsRoot path (.mkdir mode)) from
        Relation.ReflTransGen.refl)
    rw [sysMkdir_of_root hroot]
    exact ⟨hinv', fun h => hfail h (by simp)⟩

theorem fsInv_sysUnlink (hH : H.Lawful blocks) {v : Vfs υ} (hinv : FsInv blocks v) (path : CString) :
    FsInv blocks (sysUnlink H v path).2 ∧
      (BitVec.ofInt 32 (sysUnlink H v path).1 = (-1 : Word) →
        SameFiles blocks v (sysUnlink H v path).2) := by
  by_cases hroot : v.vfsRoot = 0
  · rw [sysUnlink, vfsGetRoot, if_pos hroot]
    exact ⟨hinv, fun _ => .refl v⟩
  · obtain ⟨hinv', hfail⟩ := rootCall hH hroot hinv
      (show OnTree v.vfsRoot v.fs (.unlink v.vfsRoot path) from Relation.ReflTransGen.refl)
    rw [sysUnlink_of_root hroot]
    exact ⟨hinv', fun h => hfail h (by simp)⟩

/-- The one call that returns -1 after it has done its work. -/
def WritesMaxSize (r : Registers) : Prop := r.eax = 2 ∧ (r.ebx = 1 ∨ r.ebx = 2) ∧ r.edx = -1

/-- A call on `k` that returned has left the processor with the process that executed, and
    has changed nothing if it returned -1; one that has not returned is a `sys_exit` or a
    `sys_yield` that has switched to the head of the ready queue. -/
def CallOk (blocks : υ → ℕ → Option ℕ) (k : Kernel τ υ) (r : Registers) :
    Outcome Word τ υ → Prop
  | .returns v k' => k'.procs.cpu.executing = k.procs.cpu.executing ∧
      (v = -1 → ¬ WritesMaxSize r →
        k'.procs = k.procs ∧ k'.screen = k.screen ∧ SameFiles blocks k.vfs k'.vfs)
  | .switches k' => (r.eax = 0 ∨ r.eax = 7) ∧ k.procs.readyQueueHead ≠ 0 ∧
      k'.procs.cpu.executing = k.procs.readyQueueHead

/-- A call that ends with a yield. -/
theorem callOk_yieldReturn (blocks : υ → ℕ → Option ℕ) {k : Kernel τ υ} {r : Registers}
    (number : r.eax = 0 ∨ r.eax = 7) {s : Process.Sys τ} (hcpu : s.cpu = k.procs.cpu)
    (hhead : s.readyQueueHead = k.procs.readyQueueHead) (c : Caller) :
    (yieldReturn { k with procs := s } c).kernel.vfs = k.vfs ∧
      CallOk blocks k r (yieldReturn { k with procs := s } c) := by
  have hexec := Process.executing_schedulerYield s c.esp
  simp only [yieldReturn]
  split_ifs with hswitch
  · rw [if_pos hswitch, hhead] at hexec
    exact ⟨rfl, number, hhead ▸ hswitch.1.2, hexec⟩
  · rw [if_neg hswitch, hcpu] at hexec
    exact ⟨rfl, hexec, fun hv => absurd hv (by decide)⟩

theorem kept_terminateCurrent (s : Process.Sys τ) (code : ℤ) :
    (Process.terminateCurrent s code).cpu = s.cpu ∧
      (Process.terminateCurrent s code).readyQueueHead = s.readyQueueHead := by
  by_cases h0 : Process.processGetCurrent s = 0
  · rw [Process.terminateCurrent_of_eq h0]
    exact ⟨rfl, rfl⟩
  · rw [Process.terminateCurrent_of_ne h0, Process.processTerminate_of_ne s h0]
    exact ⟨rfl, rfl⟩

/-- Every effect keeps the file system; a failed one keeps everything. -/
theorem SyscallEffect.kept (hH : H.Lawful blocks) {k : Kernel τ υ} {c : Caller} {r : Registers}
    {e : Outcome Word τ υ} (he : SyscallEffect H k c r e) (hinv : FsInv blocks k.vfs) :
    FsInv blocks e.kernel.vfs ∧ CallOk blocks k r e := by
  -- a call that changes nothing
  have hsame : ∀ v, FsInv blocks (Outcome.returns v k).kernel.vfs ∧
      CallOk blocks k r (.returns v k) := fun v => ⟨hinv, rfl, fun _ _ => ⟨rfl, rfl, .refl _⟩⟩
  cases he with
  | exit number =>
    obtain ⟨hcpu, hhead⟩ := kept_terminateCurrent k.procs r.ebx.toInt
    obtain ⟨hvfs, hok⟩ := callOk_yieldReturn blocks (.inl number) hcpu hhead c
    exact ⟨hvfs.symm ▸ hinv, hok⟩
  | write number fd => exact ⟨hinv, rfl, fun hv hmax => absurd ⟨number, fd, hv⟩ hmax⟩
  | noFile => exact hsame _
  | resolve => exact hsame _
  | close => exact hsame _
  | getpid => exact hsame _
  | yield number =>
    obtain ⟨hvfs, hok⟩ := callOk_yieldReturn blocks (k := k) (.inr number) rfl rfl c
    exact ⟨hvfs.symm ▸ hinv, hok⟩
  | mkdir =>
    obtain ⟨hinv', hfail⟩ := fsInv_sysMkdir hH hinv (c.string r.ebx) r.ecx.toNat
    exact ⟨hinv', rfl, fun hv _ => ⟨rfl, rfl, hfail hv⟩⟩
  | unlink =>
    obtain ⟨hinv', hfail⟩ := fsInv_sysUnlink hH hinv (c.string r.ebx)
    exact ⟨hinv', rfl, fun hv _ => ⟨rfl, rfl, hfail hv⟩⟩
  | unsupported => exact hsame _
  | unknown => exact hsame _

/-! ## Runs of calls -/

/-- **Every process is process 0.** Whatever has been created, scheduled, blocked or ended
    since `process_init` and `scheduler_init`, `sys_getpid` returns 0: the kernel takes every
    caller for idle. -/
theorem getpid_returns_zero {S : Process.Services τ} {inUse : τ → Set ℕ} (hS : S.Lawful inUse)
    (s : Process.Sys τ)
    (hidle : Process.processGetCurrent (Process.processInit S s) ≠ 0) (es : List Process.TurnOp) :
    Along (Process.turnStep S)
      (fun m => ∀ (v : Vfs υ) (screen : Lib.Vga) (c : Caller) (r : Registers),
        sysGetpid ⟨m.sys, v, screen⟩ c r = some (.returns 0 ⟨m.sys, v, screen⟩))
      (Process.turnBoot S s) es := by
  refine along_of_invariant
    (Process.IdleIsZero inUse (Process.processGetCurrent (Process.processInit S s)))
    (fun m e t h ht => Process.idleIsZero_step hS h ht) ?_ (Process.idleIsZero_boot hS hidle) es
  intro m h v screen c r
  have hcur := h.current_eq
  simp only [sysGetpid, getpidResult, hcur, ne_eq, hidle, not_false_eq_true, if_true]
  rw [show (m.sys.procs _).pid = 0 from h.pid_eq]
  rfl

/-- A process that yields to another one. -/
theorem getpid_returns_zero_worker :
    Along (Process.turnStep Process.bumpServices)
      (fun m => ∀ (v : Vfs (ℕ × List ℕ)) (screen : Lib.Vga) (c : Caller) (r : Registers),
        sysGetpid ⟨m.sys, v, screen⟩ c r = some (.returns 0 ⟨m.sys, v, screen⟩))
      (Process.turnBoot Process.bumpServices Process.coldSys)
      [.create (cstr "worker_a") 0x101000 1, .create (cstr "worker_b") 0x101040 1, .yield 0x9000,
        .yield 0x8000] :=
  getpid_returns_zero Process.lawful_bumpServices Process.coldSys (by decide +kernel) _

end NexusKernel.Syscall
