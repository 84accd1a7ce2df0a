import NexusKernel.Process.RoundRobin

/-!
# The current process

`process_init` sets `current_process` to idle, with PID 0, and no other function writes
it. What the kernel takes for the current process is therefore idle, whichever process is
executing.

Results:
* `pids_schedulerTick`, `pids_schedulerYield` and the like: the scheduler writes no PID.
* `idleIsZero_step`: the current process stays idle, and idle keeps its PID.
-/

namespace NexusKernel.Process

variable {τ : Type} {S : Services τ} {inUse : τ → Set ℕ}

/-! ## PIDs -/

/-- The PIDs in the records. -/
def Sys.pids (s : Sys τ) (p : ℕ) : ℕ := (s.procs p).pid

theorem pids_setProc (s : Sys τ) (p : ℕ) {f : Proc → Proc} (hf : ∀ r, (f r).pid = r.pid) :
    (s.setProc p f).pids = s.pids := by
  funext a
  show (Function.update s.procs p (f (s.procs p)) a).pid = (s.procs a).pid
  by_cases ha : a = p
  · rw [ha, Function.update_self, hf]
  · rw [Function.update_of_ne ha]

theorem pids_setState (s : Sys τ) (p : ℕ) (v : ProcessState) : (s.setState p v).pids = s.pids :=
  pids_setProc s p fun _ => rfl

theorem pids_setNext (s : Sys τ) (p v : ℕ) : (s.setNext p v).pids = s.pids :=
  pids_setProc s p fun _ => rfl

theorem pids_saveContext (s : Sys τ) (p esp : ℕ) : (s.saveContext p esp).pids = s.pids :=
  pids_setProc s p fun _ => rfl

theorem pids_schedulerAdd (s : Sys τ) (p : ℕ) : (schedulerAdd s p).pids = s.pids := by
  unfold schedulerAdd
  simp only
  split_ifs
  · rfl
  · exact pids_setNext s p 0
  · exact (pids_setNext _ _ _).trans (pids_setNext s p 0)

theorem pids_popHead (s : Sys τ) (n : ℕ) : (popHead s n).pids = s.pids := by
  unfold popHead
  simp only
  split_ifs <;> rfl

theorem pids_contextSwitch (s : Sys τ) (prev next esp : ℕ) :
    (contextSwitch s prev next esp).pids = s.pids := by
  unfold contextSwitch
  simp only
  split_ifs
  · rfl
  · exact pids_saveContext s prev esp

/-- The scheduler writes no PID. -/
theorem pids_dispatch (s : Sys τ) (current next esp : ℕ) :
    (dispatch s current next esp).pids = s.pids := by
  unfold dispatch
  simp only
  rw [pids_contextSwitch, pids_setState]
  split_ifs
  · rw [pids_schedulerAdd, pids_setState, pids_popHead]
  · exact pids_popHead s next

theorem pids_schedulerTick (s : Sys τ) (esp : ℕ) : (schedulerTick s esp).pids = s.pids := by
  by_cases h : TickDispatches s
  · rw [schedulerTick_of_dispatches h, pids_dispatch]
    rfl
  · obtain ⟨n, hn⟩ := schedulerTick_of_not h esp
    rw [hn]
    rfl

theorem pids_schedulerYield (s : Sys τ) (esp : ℕ) : (schedulerYield s esp).pids = s.pids := by
  by_cases h : YieldDispatches s
  · rw [schedulerYield_of_dispatches h, pids_dispatch]
    rfl
  · rw [schedulerYield_of_not h]

theorem pids_schedulerBlockCurrent (s : Sys τ) (reason : ProcessState) (esp : ℕ) :
    (schedulerBlockCurrent s reason esp).pids = s.pids := by
  unfold schedulerBlockCurrent
  simp only
  split_ifs
  · rfl
  · rw [pids_schedulerYield, pids_setState]

theorem pids_sysExit (s : Sys τ) (code : ℤ) (esp : ℕ) : (sysExit s code esp).pids = s.pids := by
  rw [sysExit, pids_schedulerYield]
  by_cases h0 : processGetCurrent s = 0
  · rw [terminateCurrent_of_eq h0]
  · rw [terminateCurrent_of_ne h0]
    exact funext (pid_processTerminate s _ code)

/-! ## Idle -/

/-- Idle, once it is the current process with PID 0, stays so. -/
structure IdleIsZero (inUse : τ → Set ℕ) (idle : ℕ) (m : TurnMachine τ) : Prop where
  turns : ∃ v, TakesTurns inUse idle m v
  pid_eq : m.sys.pids idle = 0

theorem idleIsZero_step (hS : S.Lawful inUse) {idle : ℕ} {m t : TurnMachine τ} {e : TurnOp}
    (h : IdleIsZero inUse idle m) (ht : turnStep S m e = some t) : IdleIsZero inUse idle t := by
  refine ⟨inTurn_step hS h.turns ht, ?_⟩
  rw [← h.pid_eq]
  cases e with
  | tick esp =>
    obtain rfl := Option.some_inj.mp ht
    exact congrFun (pids_schedulerTick m.sys esp) idle
  | yield esp =>
    obtain rfl := Option.some_inj.mp ht
    exact congrFun (pids_schedulerYield m.sys esp) idle
  | block esp =>
    obtain rfl := Option.some_inj.mp ht
    exact congrFun (pids_schedulerBlockCurrent m.sys .blocked esp) idle
  | exit code esp =>
    obtain rfl := Option.some_inj.mp ht
    exact congrFun (pids_sysExit m.sys code esp) idle
  | create name entry priority =>
    obtain ⟨v, hv⟩ := h.turns
    have hc := created_processCreate hS m.sys name entry priority
    rcases hpc : processCreate S m.sys name entry priority with ⟨p, s⟩
    simp only [hpc] at hc
    simp only [turnStep, hpc, Option.some.injEq] at ht
    subst ht
    show (schedulerAdd s p).pids idle = m.sys.pids idle
    rw [pids_schedulerAdd]
    exact congrArg Proc.pid ((hc.keepsKnown hv.inUse_all).procs_eq idle List.mem_cons_self)
  | terminate p code =>
    obtain ⟨-, rfl⟩ := turnStep_terminate.mp ht
    exact pid_processTerminate m.sys p code idle

theorem IdleIsZero.current_eq {idle : ℕ} {m : TurnMachine τ} (h : IdleIsZero inUse idle m) :
    processGetCurrent m.sys = idle := by
  obtain ⟨v, hv⟩ := h.turns
  rw [hv.shows.current_eq, hv.inTurn.current_eq]

theorem idleIsZero_boot (hS : S.Lawful inUse) {s : Sys τ}
    (hidle : processGetCurrent (processInit S s) ≠ 0) :
    IdleIsZero inUse (processGetCurrent (processInit S s)) (turnBoot S s) := by
  refine ⟨⟨_, takesTurns_boot hS hidle⟩, ?_⟩
  show (processInit S s).pids (processGetCurrent (processInit S s)) = 0
  obtain ⟨p, t, -, -, -, hinit⟩ := processInit_of_idle hS hidle
  rw [hinit]
  exact congrArg Proc.pid (makeIdle_procs S t p)

end NexusKernel.Process
