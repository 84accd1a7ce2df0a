import NexusKernel.Common.Run
import NexusKernel.Process.Scheduler

/-!
# Terminated processes

`process_terminate` marks a process and clears its table slot, but leaves it in the
ready queue, and neither `scheduler_tick` nor `scheduler_yield` looks at the state of
the process they take from the queue. `sys_exit` terminates what
`process_get_current` returns and then yields, which does nothing while the queue is
empty.

Results:
* `linked_schedulerAdd`, `linked_dispatch`: which processes the scheduler links in the
  queue, in whatever shape the queue is.
* `buried_exitStep`: a process that was terminated while it was not linked stays out of
  the queue.
* `terminated_stays_dead`: under which conditions on its steps a run never revives a
  terminated process and never returns from `sys_exit`.
* `terminated_runs_again`: a run that revives one.
-/

namespace NexusKernel.Process

variable {τ : Type} {S : Services τ} {inUse : τ → Set ℕ}

/-- `sys_exit` up to its yield (`syscall.c`, lines 11–14). -/
def terminateCurrent (s : Sys τ) (exitCode : ℤ) : Sys τ :=
  let current := processGetCurrent s
  if current ≠ 0 then processTerminate s current exitCode else s

/-- `sys_exit` (`syscall.c`, lines 9–17). -/
def sysExit (s : Sys τ) (exitCode : ℤ) (esp : ℕ) : Sys τ :=
  schedulerYield (terminateCurrent s exitCode) esp

theorem terminateCurrent_of_ne {s : Sys τ} (h0 : processGetCurrent s ≠ 0) (code : ℤ) :
    terminateCurrent s code = processTerminate s (processGetCurrent s) code := if_pos h0

theorem terminateCurrent_of_eq {s : Sys τ} (h0 : processGetCurrent s = 0) (code : ℤ) :
    terminateCurrent s code = s := if_neg (not_not.mpr h0)

/-! ## Runs -/

/-- The system with idle and every process added, the processes for which
    `process_terminate` was called, and those that called `sys_exit`. -/
structure ExitMachine (τ : Type) where
  sys : Sys τ
  added : List ℕ
  dead : List ℕ
  exited : List ℕ

/-- What happens to the scheduler and to its processes. -/
inductive ExitOp where
  | create (name : ℕ → Byte) (entry : ℕ) (priority : ℤ)
  | tick (esp : ℕ)
  | yield (esp : ℕ)
  | block (reason : ProcessState) (esp : ℕ)
  | unblock (p : ℕ)
  | exit (code : ℤ) (esp : ℕ)
  | terminate (p : ℕ) (code : ℤ)

/-- One step. Only a blocked process is woken up, only a live one is terminated, and
    `sys_exit` is called by the process that is executing. -/
def exitStep (S : Services τ) (m : ExitMachine τ) : ExitOp → Option (ExitMachine τ)
  | .create name entry priority =>
    let (p, s) := processCreate S m.sys name entry priority
    some { m with sys := schedulerAdd s p, added := if p = 0 then m.added else p :: m.added }
  | .tick esp => some { m with sys := schedulerTick m.sys esp }
  | .yield esp => some { m with sys := schedulerYield m.sys esp }
  | .block reason esp => some { m with sys := schedulerBlockCurrent m.sys reason esp }
  | .unblock p =>
    if p ∈ m.added ∧ (m.sys.procs p).state = .blocked then
      some { m with sys := schedulerUnblock m.sys p }
    else none
  | .exit code esp =>
    some { m with
      sys := sysExit m.sys code esp
      dead := if processGetCurrent m.sys = 0 then m.dead else processGetCurrent m.sys :: m.dead
      exited := m.sys.cpu.executing :: m.exited }
  | .terminate p code =>
    if p ∈ m.added ∧ (m.sys.procs p).state ≠ .terminated then
      some { m with sys := processTerminate m.sys p code, dead := p :: m.dead }
    else none

/-- The machine after `process_init` and `scheduler_init`, with idle executing. -/
def exitBoot (S : Services τ) (s : Sys τ) : ExitMachine τ :=
  let s := schedulerInit (processInit S s)
  { sys := { s with cpu := { s.cpu with executing := s.currentProcess } }
    added := [s.currentProcess]
    dead := []
    exited := [] }

/-- Every terminated process is still marked so, and no process that called `sys_exit`
    is executing. -/
structure StaysDead (m : ExitMachine τ) : Prop where
  state : ∀ p ∈ m.dead, (m.sys.procs p).state = .terminated
  executing : m.sys.cpu.executing ∉ m.exited

/-- The step chooses no terminated process as `next`. -/
def ChoosesLiving (m : ExitMachine τ) : ExitOp → Prop
  | .tick _ => TickDispatches m.sys → m.sys.readyQueueHead ∉ m.dead
  | .yield _ => YieldDispatches m.sys → m.sys.readyQueueHead ∉ m.dead
  | .block _ _ => YieldDispatches m.sys → m.sys.readyQueueHead ∉ m.dead
  | .exit _ _ => YieldDispatches m.sys →
    m.sys.readyQueueHead ∉ processGetCurrent m.sys :: m.dead
  | _ => True

/-- The process `p` is linked in the ready queue: `next` pointers lead to it from
    `ready_queue_head`. -/
def Sys.Linked (s : Sys τ) (p : ℕ) : Prop := OnChain s.nextOf s.readyQueueHead p

/-- The condition on a step: a process is terminated while it is not linked in the ready
    queue; `sys_exit` is called by the current process while another one waits; and a
    terminated process does not block. -/
def BuriesTheDead (m : ExitMachine τ) : ExitOp → Prop
  | .create _ _ _ => True
  | .tick _ => True
  | .yield _ => True
  | .block _ _ => (m.sys.procs (processGetCurrent m.sys)).state ≠ .terminated
  | .unblock _ => True
  | .exit _ _ => m.sys.cpu.executing = processGetCurrent m.sys ∧ m.sys.readyQueueHead ≠ 0 ∧
    ¬ m.sys.Linked (processGetCurrent m.sys)
  | .terminate p _ => ¬ m.sys.Linked p

/-! ## Linked processes -/

section

variable {s t : Sys τ} {p : ℕ}

/-- Which processes are linked is read off the `next` pointers and the head. -/
theorem linked_congr (hnext : t.nextOf = s.nextOf) (hhead : t.readyQueueHead = s.readyQueueHead) :
    t.Linked p ↔ s.Linked p := by
  rw [Sys.Linked, Sys.Linked, hnext, hhead]

theorem linked_setState_iff (s : Sys τ) (a : ℕ) (st : ProcessState) :
    (s.setState a st).Linked p ↔ s.Linked p := linked_congr (nextOf_setState s a st) rfl

theorem linked_head (h0 : s.readyQueueHead ≠ 0) : s.Linked s.readyQueueHead := .start h0

/-- `scheduler_add` links no other process. -/
theorem linked_schedulerAdd {a : ℕ} (h : (schedulerAdd s a).Linked p) : s.Linked p ∨ p = a := by
  by_cases h0 : a = 0
  · rw [schedulerAdd, if_pos h0] at h
    exact Or.inl h
  by_cases hhead : s.readyQueueHead = 0
  · rw [schedulerAdd_of_empty h0 hhead] at h
    have hlinks : Links (s.setNext a 0).nextOf a [a] 0 := by
      refine ⟨rfl, h0, ?_⟩
      show (s.setNext a 0).nextOf a = 0
      rw [nextOf_setNext, Function.update_self]
    exact Or.inr (List.mem_singleton.mp (hlinks.onChain h))
  · rw [schedulerAdd_of_ne h0 hhead] at h
    have h' : OnChain ((s.setNext a 0).setNext s.readyQueueTail a).nextOf s.readyQueueHead p := h
    rw [nextOf_setNext, nextOf_setNext] at h'
    exact h'.of_append

theorem linked_popHead (h0 : s.readyQueueHead ≠ 0)
    (h : (popHead s s.readyQueueHead).Linked p) : s.Linked p := by
  refine OnChain.of_next h0 ?_
  by_cases hnil : (s.procs s.readyQueueHead).next = 0
  · rwa [popHead_of_empty hnil] at h
  · rwa [popHead_of_ne hnil] at h

theorem linked_contextSwitch_iff (s : Sys τ) (prev next esp : ℕ) :
    (contextSwitch s prev next esp).Linked p ↔ s.Linked p := by
  by_cases heq : prev = next
  · subst heq
    rw [contextSwitch_self]
    exact Iff.rfl
  · rw [contextSwitch_of_ne s heq]
    refine linked_congr ?_ rfl
    exact nextOf_saveContext { s with switches := (prev, s.cpu.executing) :: s.switches } prev esp

/-- A dispatch links the current process if it was running, and no other. -/
theorem linked_dispatch {current esp : ℕ} (h0 : s.readyQueueHead ≠ 0)
    (h : (dispatch s current s.readyQueueHead esp).Linked p) :
    s.Linked p ∨ p = current ∧ (s.procs current).state = .running := by
  have hdispatch : dispatch s current s.readyQueueHead esp =
      contextSwitch ((requeue (popHead s s.readyQueueHead) current).setState s.readyQueueHead
        .running) current s.readyQueueHead esp := rfl
  rw [hdispatch, linked_contextSwitch_iff, linked_setState_iff] at h
  by_cases hrun : (s.procs current).state = .running
  · rw [requeue_popHead_of_running _ hrun] at h
    obtain h | h := linked_schedulerAdd h
    · exact Or.inl (linked_popHead h0 ((linked_setState_iff _ _ _).mp h))
    · exact Or.inr ⟨h, hrun⟩
  · rw [requeue_popHead_of_not _ hrun] at h
    exact Or.inl (linked_popHead h0 h)

end

/-! ## The invariant -/

/-- What a run that meets the condition keeps: a terminated process is marked so and is not
    linked in the ready queue, and no process that called `sys_exit` executes. -/
structure Buried (inUse : τ → Set ℕ) (m : ExitMachine τ) : Prop where
  state : ∀ p ∈ m.dead, m.sys.core.state p = .terminated
  not_linked : ∀ p ∈ m.dead, ¬ m.sys.Linked p
  executing : m.sys.core.executing ∉ m.exited
  exited_dead : ∀ p ∈ m.exited, p ∈ m.dead
  dead_added : ∀ p ∈ m.dead, p ∈ m.added
  linked_added : ∀ p, m.sys.Linked p → p ∈ m.added
  inUse_added : ∀ p ∈ m.added, p ≠ 0 ∧ p ∈ inUse m.sys.core.env
  current_added : m.sys.core.current ∈ m.added

theorem Buried.notMem_of_alive {m : ExitMachine τ} (h : Buried inUse m) {p : ℕ}
    (hp : (m.sys.procs p).state ≠ .terminated) : p ∉ m.dead := fun hmem => hp (h.state p hmem)

theorem Buried.current_ne_zero {m : ExitMachine τ} (h : Buried inUse m) :
    processGetCurrent m.sys ≠ 0 := (h.inUse_added _ h.current_added).1

/-- The head of the queue is linked, so it is not terminated. -/
theorem Buried.head_notMem {m : ExitMachine τ} (h : Buried inUse m)
    (h0 : m.sys.readyQueueHead ≠ 0) : m.sys.readyQueueHead ∉ m.dead :=
  fun hmem => h.not_linked _ hmem (linked_head h0)

/-- A change of the system that keeps the services, the current process and the marks of the
    dead, links processes that are not terminated only, and lets none execute that exited. -/
theorem Buried.of_core {m : ExitMachine τ} (h : Buried inUse m) {s : Sys τ}
    (hstate : ∀ p ∈ m.dead, s.core.state p = .terminated)
    (hlinked : ∀ p, s.Linked p → m.sys.Linked p ∨ p ∈ m.added ∧ p ∉ m.dead)
    (hexec : s.core.executing ∉ m.exited) (henv : s.core.env = m.sys.core.env)
    (hcur : s.core.current = m.sys.core.current) : Buried inUse { m with sys := s } := by
  refine ⟨hstate, ?_, hexec, h.exited_dead, h.dead_added, ?_, henv ▸ h.inUse_added,
    hcur ▸ h.current_added⟩
  · intro p hp hl
    obtain hl | ⟨-, hnot⟩ := hlinked p hl
    · exact h.not_linked p hp hl
    · exact hnot hp
  · intro p hl
    obtain hl | ⟨hadded, -⟩ := hlinked p hl
    · exact h.linked_added p hl
    · exact hadded

theorem Buried.setTicks {m : ExitMachine τ} (h : Buried inUse m) (n : ℕ) :
    Buried inUse { m with sys := m.sys.setTicks n } :=
  h.of_core h.state (fun _ hl => Or.inl hl) h.executing rfl rfl

/-- A process that is not terminated can change its state. -/
theorem Buried.setState {m : ExitMachine τ} (h : Buried inUse m) {p : ℕ} (hp : p ∉ m.dead)
    (st : ProcessState) : Buried inUse { m with sys := m.sys.setState p st } := by
  have hcore := core_setState m.sys p st
  refine h.of_core ?_ ?_ ?_ ?_ ?_
  · intro a ha
    rw [hcore]
    show Function.update m.sys.core.state p st a = .terminated
    rw [Function.update_of_ne (by rintro rfl; exact hp ha)]
    exact h.state a ha
  · exact fun a hl => Or.inl ((linked_setState_iff _ _ _).mp hl)
  · rw [hcore]
    exact h.executing
  · rw [hcore]
  · rw [hcore]

theorem Buried.schedulerAdd {m : ExitMachine τ} (h : Buried inUse m) {p : ℕ}
    (hp : p ≠ 0 → p ∈ m.added ∧ p ∉ m.dead) :
    Buried inUse { m with sys := schedulerAdd m.sys p } := by
  have hcore := core_schedulerAdd m.sys p
  refine h.of_core (hcore ▸ h.state) ?_ (hcore ▸ h.executing) (hcore ▸ rfl) (hcore ▸ rfl)
  intro a hl
  by_cases h0 : p = 0
  · rw [h0, Process.schedulerAdd, if_pos rfl] at hl
    exact Or.inl hl
  obtain hl | rfl := linked_schedulerAdd hl
  · exact Or.inl hl
  · exact Or.inr (hp h0)

/-- A dispatch revives nobody: the head is not terminated, and a current process that goes
    back to the queue was running. -/
theorem Buried.dispatch {m : ExitMachine τ} (h : Buried inUse m)
    (h0 : m.sys.readyQueueHead ≠ 0) (esp : ℕ) : Buried inUse { m with
      sys := dispatch m.sys (processGetCurrent m.sys) m.sys.readyQueueHead esp } := by
  have hnot := h.head_notMem h0
  have hrunning : m.sys.core.state (processGetCurrent m.sys) = .running →
      processGetCurrent m.sys ∉ m.dead := by
    intro hrun hmem
    rw [h.state _ hmem] at hrun
    exact absurd hrun (by decide)
  have hlinked : ∀ p, (Process.dispatch m.sys (processGetCurrent m.sys) m.sys.readyQueueHead
      esp).Linked p → m.sys.Linked p ∨ p ∈ m.added ∧ p ∉ m.dead := by
    intro p hl
    obtain hl | ⟨rfl, hrun⟩ := linked_dispatch h0 hl
    · exact Or.inl hl
    · exact Or.inr ⟨h.current_added, hrunning hrun⟩
  have hcore := core_dispatch m.sys (processGetCurrent m.sys) m.sys.readyQueueHead esp
  refine h.of_core ?_ hlinked ?_ (by rw [hcore]) (by rw [hcore])
  · intro p hp
    rw [hcore]
    show Function.update (if m.sys.core.state (processGetCurrent m.sys) = .running then
      Function.update m.sys.core.state (processGetCurrent m.sys) .ready
      else m.sys.core.state) m.sys.readyQueueHead .running p = .terminated
    rw [Function.update_of_ne (by rintro rfl; exact hnot hp)]
    split_ifs with hrun
    · rw [Function.update_of_ne (by rintro rfl; exact hrunning hrun hp)]
      exact h.state p hp
    · exact h.state p hp
  · rw [hcore]
    show (if processGetCurrent m.sys = m.sys.readyQueueHead then m.sys.core.executing
      else m.sys.readyQueueHead) ∉ m.exited
    split_ifs
    · exact h.executing
    · exact fun hmem => hnot (h.exited_dead _ hmem)

theorem Buried.yield {m : ExitMachine τ} (h : Buried inUse m) (esp : ℕ) :
    Buried inUse { m with sys := schedulerYield m.sys esp } := by
  by_cases hd : YieldDispatches m.sys
  · rw [schedulerYield_of_dispatches hd]
    exact (h.setTicks schedulerQuantum).dispatch hd.2 esp
  · rw [schedulerYield_of_not hd]
    exact h

theorem Buried.tick {m : ExitMachine τ} (h : Buried inUse m) (esp : ℕ) :
    Buried inUse { m with sys := schedulerTick m.sys esp } := by
  by_cases hd : TickDispatches m.sys
  · rw [schedulerTick_of_dispatches hd]
    exact (h.setTicks schedulerQuantum).dispatch hd.2.2.2.1 esp
  · obtain ⟨n, hn⟩ := schedulerTick_of_not hd esp
    rw [hn]
    exact h.setTicks n

theorem core_processTerminate (s : Sys τ) {p : ℕ} (h0 : p ≠ 0) (code : ℤ) :
    (processTerminate s p code).core =
      { s.core with state := Function.update s.core.state p .terminated } := by
  rw [processTerminate_of_ne s h0]
  exact core_setProc s p fun r => { r with state := .terminated, exitCode := code }

theorem linked_processTerminate_iff (s : Sys τ) {p : ℕ} (h0 : p ≠ 0) (code : ℤ) {a : ℕ} :
    (processTerminate s p code).Linked a ↔ s.Linked a := by
  rw [processTerminate_of_ne s h0]
  refine linked_congr ?_ rfl
  have hnext := nextOf_setProc s p fun r => { r with state := .terminated, exitCode := code }
  exact hnext.trans (Function.update_eq_self p s.nextOf)

/-- Terminating a process that is not linked. -/
theorem Buried.terminate {m : ExitMachine τ} (h : Buried inUse m) {p : ℕ} (hp : p ∈ m.added)
    (hnot : ¬ m.sys.Linked p) (code : ℤ) :
    Buried inUse { m with sys := processTerminate m.sys p code, dead := p :: m.dead } := by
  have h0 := (h.inUse_added p hp).1
  have hcore := core_processTerminate m.sys h0 code
  have hlinked := fun a => linked_processTerminate_iff m.sys h0 code (a := a)
  refine ⟨?_, ?_, ?_, fun a ha => List.mem_cons_of_mem p (h.exited_dead a ha),
    List.forall_mem_cons.mpr ⟨hp, h.dead_added⟩, ?_, ?_, ?_⟩
  · intro a ha
    rw [hcore]
    show Function.update m.sys.core.state p .terminated a = .terminated
    by_cases hap : a = p
    · rw [hap, Function.update_self]
    · rw [Function.update_of_ne hap]
      exact h.state a ((List.mem_cons.mp ha).resolve_left hap)
  · refine List.forall_mem_cons.mpr ⟨fun hl => hnot ((hlinked p).mp hl), ?_⟩
    exact fun a ha hl => h.not_linked a ha ((hlinked a).mp hl)
  · rw [hcore]
    exact h.executing
  · exact fun a hl => h.linked_added a ((hlinked a).mp hl)
  · rw [hcore]
    exact h.inUse_added
  · rw [hcore]
    exact h.current_added

theorem Buried.create (hS : S.Lawful inUse) {m t : ExitMachine τ} (h : Buried inUse m)
    {name : ℕ → Byte} {entry : ℕ} {priority : ℤ}
    (ht : exitStep S m (.create name entry priority) = some t) : Buried inUse t := by
  have hc := created_processCreate hS m.sys name entry priority
  rcases hpc : processCreate S m.sys name entry priority with ⟨p, s⟩
  simp only [hpc] at hc
  simp only [exitStep, hpc, Option.some.injEq] at ht
  subst ht
  have hcore : s.core = { m.sys.core with state := s.core.state, env := s.env } :=
    congrArg Sys.core hc.rest_eq
  have hexec : s.core.executing = m.sys.core.executing := by rw [hcore]
  have hcur : s.core.current = m.sys.core.current := by rw [hcore]
  have hknown := hc.keepsKnown h.inUse_added
  have hstate : ∀ a ∈ m.dead, s.core.state a = .terminated := by
    intro a ha
    rw [← h.state a ha]
    exact congrArg Proc.state (hknown.procs_eq a (h.dead_added a ha))
  -- the records linked are in use, so a creation does not change their pointers
  have hlinked : ∀ a, s.Linked a → m.sys.Linked a := by
    intro a hl
    have hhead : s.readyQueueHead = m.sys.readyQueueHead := by rw [hc.rest_eq]
    rw [Sys.Linked, hhead] at hl
    refine OnChain.congr ?_ hl
    intro b hb
    exact congrArg Proc.next (hknown.procs_eq b (h.linked_added b hb))
  have hnot : ∀ a ∈ m.dead, ¬ s.Linked a := fun a ha hl => h.not_linked a ha (hlinked a hl)
  have hs : Buried inUse { m with
      sys := s, added := if p = 0 then m.added else p :: m.added } :=
    ⟨hstate, hnot, hexec ▸ h.executing, h.exited_dead,
      fun a ha => hknown.subset (h.dead_added a ha),
      fun a hl => hknown.subset (h.linked_added a (hlinked a hl)), hknown.joined,
      hknown.subset (hcur ▸ h.current_added)⟩
  refine hs.schedulerAdd fun h0 => ⟨?_, ?_⟩
  · simp only [if_neg h0]
    exact List.mem_cons_self
  · exact fun hdead => hknown.notMem h0 (h.dead_added p hdead)

/-- `sys_exit` by the current process, with another process waiting. -/
theorem Buried.exit {m : ExitMachine τ} (h : Buried inUse m) {code : ℤ} {esp : ℕ}
    (hC : BuriesTheDead m (.exit code esp)) :
    Buried inUse { m with
      sys := sysExit m.sys code esp
      dead := processGetCurrent m.sys :: m.dead
      exited := m.sys.cpu.executing :: m.exited } := by
  obtain ⟨hexec, hhead, hnot⟩ := hC
  have h0 := h.current_ne_zero
  have hne : m.sys.readyQueueHead ≠ processGetCurrent m.sys :=
    fun heq => hnot (heq ▸ linked_head hhead)
  -- terminating the current process changes neither the current process nor the queue
  have hterm := h.terminate h.current_added hnot code
  have hcore := core_processTerminate m.sys h0 code
  have hkept : (processTerminate m.sys (processGetCurrent m.sys) code).readyQueueHead =
      m.sys.readyQueueHead := by rw [processTerminate_of_ne m.sys h0]; rfl
  have hcur : processGetCurrent (processTerminate m.sys (processGetCurrent m.sys) code) =
      processGetCurrent m.sys := congrArg Core.current hcore
  have hd : YieldDispatches (processTerminate m.sys (processGetCurrent m.sys) code) :=
    ⟨hcur.symm ▸ h0, hkept.symm ▸ hhead⟩
  have hsys : sysExit m.sys code esp =
      schedulerYield (processTerminate m.sys (processGetCurrent m.sys) code) esp := by
    rw [sysExit, terminateCurrent_of_ne h0]
  have hnext : (sysExit m.sys code esp).core.executing = m.sys.readyQueueHead := by
    rw [hsys, schedulerYield_of_dispatches hd, core_dispatch]
    show (if processGetCurrent _ = Sys.readyQueueHead _ then _ else Sys.readyQueueHead _) = _
    rw [hcur, hkept, if_neg (Ne.symm hne)]
  have hyield : Buried inUse { m with
      sys := sysExit m.sys code esp, dead := processGetCurrent m.sys :: m.dead } := by
    rw [hsys]
    exact hterm.yield esp
  refine ⟨hyield.state, hyield.not_linked, ?_, ?_, hyield.dead_added, hyield.linked_added,
    hyield.inUse_added, hyield.current_added⟩
  · show (sysExit m.sys code esp).core.executing ∉ m.sys.cpu.executing :: m.exited
    rw [List.mem_cons, not_or]
    exact ⟨by rw [hnext, hexec]; exact hne, hyield.executing⟩
  · exact List.forall_mem_cons.mpr ⟨hexec ▸ List.mem_cons_self, hyield.exited_dead⟩

theorem buried_exitStep (hS : S.Lawful inUse) {m t : ExitMachine τ} {e : ExitOp}
    (h : Buried inUse m) (hC : BuriesTheDead m e) (ht : exitStep S m e = some t) :
    Buried inUse t := by
  cases e with
  | create name entry priority => exact h.create hS ht
  | tick esp =>
    obtain rfl := Option.some_inj.mp ht
    exact h.tick esp
  | yield esp =>
    obtain rfl := Option.some_inj.mp ht
    exact h.yield esp
  | block reason esp =>
    obtain rfl := Option.some_inj.mp ht
    rw [show schedulerBlockCurrent m.sys reason esp = schedulerYield _ esp
      from if_neg h.current_ne_zero]
    exact (h.setState (h.notMem_of_alive hC) reason).yield esp
  | unblock p =>
    rw [exitStep, Option.ite_none_right_eq_some] at ht
    obtain ⟨⟨hp, hb⟩, ht⟩ := ht
    obtain rfl := Option.some_inj.mp ht
    have hdead : p ∉ m.dead := h.notMem_of_alive (by rw [hb]; decide)
    rw [schedulerUnblock, if_neg (h.inUse_added p hp).1]
    exact (h.setState hdead .ready).schedulerAdd fun _ => ⟨hp, hdead⟩
  | exit code esp =>
    obtain rfl := Option.some_inj.mp ht
    rw [if_neg h.current_ne_zero]
    exact h.exit hC
  | terminate p code =>
    rw [exitStep, Option.ite_none_right_eq_some] at ht
    obtain ⟨⟨hp, -⟩, ht⟩ := ht
    obtain rfl := Option.some_inj.mp ht
    exact h.terminate hp hC code

/-- A terminated process is not linked, so it is not chosen. -/
theorem Buried.choosesLiving {m : ExitMachine τ} (h : Buried inUse m) {e : ExitOp}
    (hC : BuriesTheDead m e) : ChoosesLiving m e := by
  cases e with
  | create name entry priority => trivial
  | tick esp => exact fun hd => h.head_notMem hd.2.2.2.1
  | yield esp => exact fun hd => h.head_notMem hd.2
  | block reason esp => exact fun hd => h.head_notMem hd.2
  | unblock p => trivial
  | exit code esp =>
    obtain ⟨-, hhead, hnot⟩ := hC
    intro _
    rw [List.mem_cons, not_or]
    exact ⟨fun heq => hnot (heq ▸ linked_head hhead), h.head_notMem hhead⟩
  | terminate p code => trivial

theorem buried_exitBoot (hS : S.Lawful inUse) {s : Sys τ}
    (hidle : processGetCurrent (processInit S s) ≠ 0) : Buried inUse (exitBoot S s) := by
  have hnil : Links (exitBoot S s).sys.nextOf (exitBoot S s).sys.readyQueueHead [] 0 := rfl
  refine ⟨fun p hp => absurd hp List.not_mem_nil, fun p hp => absurd hp List.not_mem_nil,
    List.not_mem_nil, fun p hp => absurd hp List.not_mem_nil,
    fun p hp => absurd hp List.not_mem_nil, ?_, ?_, List.mem_cons_self⟩
  · exact fun p hl => absurd (hnil.onChain hl) List.not_mem_nil
  intro p hp
  obtain rfl := List.mem_singleton.mp hp
  exact ⟨hidle, (processInit_running hS hidle).2⟩

/-- **A terminated process never runs again**, and `sys_exit` does not return, along every
    run whose steps meet the condition. -/
theorem terminated_stays_dead (hS : S.Lawful inUse) (s : Sys τ)
    (hidle : processGetCurrent (processInit S s) ≠ 0) {es : List ExitOp}
    (hC : Meets (exitStep S) BuriesTheDead (exitBoot S s) es) :
    Along (exitStep S) StaysDead (exitBoot S s) es ∧
      Meets (exitStep S) ChoosesLiving (exitBoot S s) es := by
  have hboot := buried_exitBoot hS hidle
  have hstep : ∀ (m : ExitMachine τ) e t, Buried inUse m → BuriesTheDead m e →
      exitStep S m e = some t → Buried inUse t := fun m e t h hC ht => buried_exitStep hS h hC ht
  refine ⟨?_, hC.imp hstep (fun m e h hC => h.choosesLiving hC) hboot⟩
  exact hC.along hstep (fun m h => ⟨h.state, h.executing⟩) hboot

/-- Idle creates a process and exits; the process creates another one, is terminated while it
    executes, and yields to the other. -/
def idleExits : List ExitOp :=
  [.create (cstr "worker_a") 0x101000 1, .exit 0 0x9000, .create (cstr "worker_b") 0x101040 1,
    .terminate 8364 0, .yield 0x8000]

theorem terminated_stays_dead_idleExits :
    (∃ u, run (exitStep bumpServices) (exitBoot bumpServices coldSys) idleExits = some u) ∧
      Along (exitStep bumpServices) StaysDead (exitBoot bumpServices coldSys) idleExits ∧
      Meets (exitStep bumpServices) ChoosesLiving (exitBoot bumpServices coldSys) idleExits := by
  refine ⟨⟨_, rfl⟩, terminated_stays_dead lawful_bumpServices coldSys (by decide +kernel)
    ⟨trivial, ?_⟩⟩
  rintro _ ⟨⟩
  refine ⟨⟨rfl, by show _ ≠ 0; decide +kernel, ?_⟩, ?_⟩
  · -- the new process is alone in the queue
    intro hl
    refine absurd (Links.onChain (l := [8364]) ?_ hl) (by decide +kernel)
    exact ⟨by decide +kernel, by decide, show _ = 0 by decide +kernel⟩
  rintro _ ⟨⟩
  refine ⟨trivial, ?_⟩
  rintro _ ⟨⟩
  refine ⟨?_, ?_⟩
  · intro hl
    refine absurd (Links.onChain (l := [16727]) ?_ hl) (by decide +kernel)
    exact ⟨by decide +kernel, by decide, show _ = 0 by decide +kernel⟩
  rintro _ ⟨⟩
  exact ⟨trivial, fun _ _ => trivial⟩

/-- A process is terminated while it waits in the queue; the next yield runs it. -/
theorem terminated_runs_again : ∃ u,
    run (exitStep bumpServices) (exitBoot bumpServices coldSys)
      [.create (cstr "worker_a") 0x101000 1, .terminate 8364 0, .yield 0x9000] = some u ∧
    ¬ StaysDead u := by
  refine ⟨_, rfl, fun h => ?_⟩
  exact absurd (h.state 8364 (by decide +kernel)) (by decide +kernel)

end NexusKernel.Process
