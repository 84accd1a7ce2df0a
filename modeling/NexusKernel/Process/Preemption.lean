import NexusKernel.Drivers.Keyboard
import NexusKernel.Drivers.Timer
import NexusKernel.Process.Quantum
import NexusKernel.Process.RoundRobin

/-!
# Preemption and the interrupt flag

The gates of `idt.c` are interrupt gates: a handler, and a system call, runs with
interrupts disabled, and the `iret` at the end of the stubs in `isr.s` restores the flag as
it was. `context_switch` neither saves nor loads it. A process that is switched to from a
handler therefore starts with interrupts disabled, and nobody but `kernel_main` executes
`sti`; only a process that was itself switched away from in a handler would enable them, on
its way out of that handler. The one process whose context the scheduler saves is idle, and
idle never runs again (`RoundRobin`).

Results:
* `OnlyIdleSaved`: the invariant; no context but that of idle was saved in a handler.
* `preemption_disables_interrupts`: after the first switch made by the timer no interrupt
  is handled any more.
* `kernel_main_ticks_le`: with a process in the queue, the machine that `kernel_main` leaves
  to its idle loop counts at most `SCHEDULER_QUANTUM + 1` ticks.
-/

namespace NexusKernel.Process

variable {τ : Type} {S : Services τ} {inUse : τ → Set ℕ}

/-! ## Runs -/

/-- The processes with the interrupt flag, what the two interrupt handlers work on, and for
    each record if its context is inside a handler whose `iret` enables interrupts. -/
structure IrqMachine (τ : Type) where
  turn : TurnMachine τ
  interrupts : Bool
  enables : ℕ → Bool
  timer : Drivers.Timer
  keyboard : Drivers.Keyboard

/-- IRQ 0, IRQ 1, and what the code that runs does. `sys_exit` is reached by `int 0x80`
    only, `scheduler_yield` also without it. -/
inductive IrqOp where
  | timer (esp : ℕ)
  | key (scancode : Byte)
  | yield (syscall : Bool) (esp : ℕ)
  | block (esp : ℕ)
  | exit (code : ℤ) (esp : ℕ)
  | create (name : ℕ → Byte) (entry : ℕ) (priority : ℤ)

/-- A switch to the head of the queue, in a handler or not. In a handler the flag is clear,
    and its `iret` will restore it. -/
def IrqMachine.switch (m : IrqMachine τ) (handler : Bool) : IrqMachine τ :=
  { m with
    interrupts := m.enables m.turn.sys.readyQueueHead || !handler && m.interrupts
    enables :=
      Function.update m.enables (processGetCurrent m.turn.sys) (handler && m.interrupts) }

/-- The flag and the saved contexts after a yield. -/
def IrqMachine.yielded (m : IrqMachine τ) (handler : Bool) : IrqMachine τ :=
  if YieldSwitches m.turn.sys then m.switch handler else m

/-- One step. An interrupt is taken only while interrupts are enabled; `timer_callback`
    (`timer.c`, lines 12–16) counts and calls `scheduler_tick`. -/
def irqStep (S : Services τ) (m : IrqMachine τ) : IrqOp → Option (IrqMachine τ)
  | .timer esp =>
    if m.interrupts then
      (turnStep S m.turn (.tick esp)).map fun turn =>
        { (if TickDispatches m.turn.sys then m.switch true else m) with
          turn := turn, timer := Drivers.timerCallback m.timer }
    else none
  | .key scancode =>
    if m.interrupts then
      some { m with keyboard := Drivers.keyboardCallback m.keyboard scancode }
    else none
  | .yield syscall esp =>
    (turnStep S m.turn (.yield esp)).map fun turn => { m.yielded syscall with turn := turn }
  | .block esp =>
    (turnStep S m.turn (.block esp)).map fun turn => { m.yielded false with turn := turn }
  | .exit code esp =>
    (turnStep S m.turn (.exit code esp)).map fun turn => { m.yielded true with turn := turn }
  | .create name entry priority =>
    (turnStep S m.turn (.create name entry priority)).map fun turn => { m with turn := turn }

/-- The machine `m` with the given interrupt flag and devices; no context is in a handler. -/
def irqBoot (m : TurnMachine τ) (interrupts : Bool) (timer : Drivers.Timer)
    (keyboard : Drivers.Keyboard) : IrqMachine τ :=
  { turn := m
    interrupts := interrupts
    enables := fun _ => false
    timer := timer
    keyboard := keyboard }

/-! ## Only idle is saved -/

/-- The processes take their turns, and only the record of idle can hold a context that is
    inside a handler. -/
structure OnlyIdleSaved (inUse : τ → Set ℕ) (idle : ℕ) (m : IrqMachine τ) : Prop where
  turns : ∃ v, TakesTurns inUse idle m.turn v
  enables : ∀ p ≠ idle, m.enables p = false

/-- While interrupts are disabled, a step does not enable them and changes neither the
    timer nor the keyboard. -/
def StaysOff (m t : IrqMachine τ) : Prop :=
  m.interrupts = false → t.interrupts = false ∧ t.timer = m.timer ∧ t.keyboard = m.keyboard

section

variable {idle : ℕ} {m t : IrqMachine τ}

theorem OnlyIdleSaved.current_eq (h : OnlyIdleSaved inUse idle m) :
    processGetCurrent m.turn.sys = idle := by
  obtain ⟨v, hv⟩ := h.turns
  rw [hv.shows.current_eq, hv.inTurn.current_eq]

/-- A switch is never to idle, so no `iret` sets the flag. -/
theorem OnlyIdleSaved.interrupts_switch (h : OnlyIdleSaved inUse idle m)
    (hne : m.turn.sys.readyQueueHead ≠ processGetCurrent m.turn.sys) (handler : Bool) :
    (m.switch handler).interrupts = (!handler && m.interrupts) := by
  show (m.enables m.turn.sys.readyQueueHead || !handler && m.interrupts) = _
  rw [h.enables _ (h.current_eq ▸ hne), Bool.false_or]

theorem OnlyIdleSaved.enables_switch (h : OnlyIdleSaved inUse idle m) (handler : Bool) :
    ∀ p ≠ idle, (m.switch handler).enables p = false := by
  intro p hp
  show Function.update m.enables (processGetCurrent m.turn.sys) (handler && m.interrupts) p = false
  rw [h.current_eq, Function.update_of_ne hp]
  exact h.enables p hp

theorem OnlyIdleSaved.enables_yielded (h : OnlyIdleSaved inUse idle m) (handler : Bool) :
    ∀ p ≠ idle, (m.yielded handler).enables p = false := by
  unfold IrqMachine.yielded
  split_ifs
  · exact h.enables_switch handler
  · exact h.enables

theorem OnlyIdleSaved.staysOff_yielded (h : OnlyIdleSaved inUse idle m) (handler : Bool) :
    StaysOff m (m.yielded handler) := by
  intro hoff
  unfold IrqMachine.yielded
  split_ifs with hs
  · rw [h.interrupts_switch hs.2, hoff, Bool.and_false]
    exact ⟨rfl, rfl, rfl⟩
  · exact ⟨hoff, rfl, rfl⟩

/-- A step outside the interrupt handlers that may yield. -/
theorem OnlyIdleSaved.step_yielded (hS : S.Lawful inUse) (h : OnlyIdleSaved inUse idle m)
    {e : TurnOp} {handler : Bool}
    (ht : (turnStep S m.turn e).map (fun turn => { m.yielded handler with turn := turn }) = some t) :
    OnlyIdleSaved inUse idle t ∧ StaysOff m t := by
  obtain ⟨turn, hturn, rfl⟩ := Option.map_eq_some_iff.mp ht
  exact ⟨⟨inTurn_step hS h.turns hturn, h.enables_yielded handler⟩, h.staysOff_yielded handler⟩

theorem onlyIdleSaved_step (hS : S.Lawful inUse) (h : OnlyIdleSaved inUse idle m) {e : IrqOp}
    (ht : irqStep S m e = some t) : OnlyIdleSaved inUse idle t ∧ StaysOff m t := by
  cases e with
  | timer esp =>
    simp only [irqStep, Option.ite_none_right_eq_some, Option.map_eq_some_iff] at ht
    obtain ⟨henabled, turn, hturn, rfl⟩ := ht
    refine ⟨⟨inTurn_step hS h.turns hturn, ?_⟩, fun hoff => absurd (hoff.symm.trans henabled) ?_⟩
    · show ∀ p ≠ idle, (if TickDispatches m.turn.sys then m.switch true else m).enables p = false
      split_ifs
      · exact h.enables_switch true
      · exact h.enables
    · decide
  | key scancode =>
    simp only [irqStep, Option.ite_none_right_eq_some, Option.some.injEq] at ht
    obtain ⟨henabled, rfl⟩ := ht
    exact ⟨⟨h.turns, h.enables⟩, fun hoff => absurd (hoff.symm.trans henabled) (by decide)⟩
  | yield syscall esp =>
    rw [irqStep] at ht
    exact h.step_yielded hS ht
  | block esp =>
    rw [irqStep] at ht
    exact h.step_yielded hS ht
  | exit code esp =>
    rw [irqStep] at ht
    exact h.step_yielded hS ht
  | create name entry priority =>
    rw [irqStep] at ht
    obtain ⟨turn, hturn, rfl⟩ := Option.map_eq_some_iff.mp ht
    exact ⟨⟨inTurn_step hS h.turns hturn, h.enables⟩, fun hoff => ⟨hoff, rfl, rfl⟩⟩

/-- Once interrupts are disabled they stay so. -/
theorem interrupts_off_run (hS : S.Lawful inUse) (h : OnlyIdleSaved inUse idle m)
    (hoff : m.interrupts = false) {es : List IrqOp} {u : IrqMachine τ}
    (hrun : run (irqStep S) m es = some u) :
    u.interrupts = false ∧ u.timer = m.timer ∧ u.keyboard = m.keyboard := by
  refine (run_invariant (fun u => OnlyIdleSaved inUse idle u ∧ u.interrupts = false ∧
    u.timer = m.timer ∧ u.keyboard = m.keyboard) ?_ ⟨h, hoff, rfl, rfl⟩ hrun).2
  rintro a e b ⟨ha, haoff, htimer, hkeyboard⟩ hb
  obtain ⟨hb, hstays⟩ := onlyIdleSaved_step hS ha hb
  obtain ⟨hboff, htimer', hkeyboard'⟩ := hstays haoff
  exact ⟨hb, hboff, htimer'.trans htimer, hkeyboard'.trans hkeyboard⟩

/-- The timer interrupt that switches. -/
theorem OnlyIdleSaved.off_of_dispatches (h : OnlyIdleSaved inUse idle m) {esp : ℕ}
    (ht : irqStep S m (.timer esp) = some t) (hd : TickDispatches m.turn.sys) :
    t.interrupts = false := by
  simp only [irqStep, Option.ite_none_right_eq_some, Option.map_eq_some_iff, if_pos hd] at ht
  obtain ⟨-, turn, -, rfl⟩ := ht
  exact h.interrupts_switch hd.2.2.2.2 true

/-- The timer interrupt that does not. -/
theorem irqStep_timer_of_not {esp : ℕ} (ht : irqStep S m (.timer esp) = some t)
    (hd : ¬ TickDispatches m.turn.sys) :
    m.interrupts = true ∧
      t = { m with turn := m.turn.after (schedulerTick m.turn.sys esp),
                   timer := Drivers.timerCallback m.timer } := by
  simp only [irqStep, Option.ite_none_right_eq_some, Option.map_eq_some_iff, if_neg hd] at ht
  obtain ⟨henabled, turn, hturn, rfl⟩ := ht
  obtain rfl := Option.some_inj.mp hturn
  exact ⟨henabled, rfl⟩

end

/-- **The first preemption is the last interrupt.** Whatever has happened before: if a timer
    interrupt switches to another process, then along every run from there interrupts stay
    disabled, the tick counter stands still and no key is taken. -/
theorem preemption_disables_interrupts (hS : S.Lawful inUse) (s : Sys τ)
    (hidle : processGetCurrent (processInit S s) ≠ 0) (interrupts : Bool) (timer : Drivers.Timer)
    (keyboard : Drivers.Keyboard) {es es' : List IrqOp} {a b u : IrqMachine τ} {esp : ℕ}
    (ha : run (irqStep S) (irqBoot (turnBoot S s) interrupts timer keyboard) es = some a)
    (hb : irqStep S a (.timer esp) = some b)
    (hswitch : b.turn.sys.cpu.executing ≠ a.turn.sys.cpu.executing)
    (hu : run (irqStep S) b es' = some u) :
    u.interrupts = false ∧ u.timer = b.timer ∧ u.keyboard = b.keyboard := by
  have hinv := run_invariant (OnlyIdleSaved inUse (processGetCurrent (processInit S s)))
    (fun m e t hm ht => (onlyIdleSaved_step hS hm ht).1)
    ⟨⟨_, takesTurns_boot hS hidle⟩, fun _ _ => rfl⟩ ha
  have hd : TickDispatches a.turn.sys := by
    by_contra hd
    -- a tick that does not dispatch leaves the processor where it is
    obtain ⟨-, rfl⟩ := irqStep_timer_of_not hb hd
    obtain ⟨n, hn⟩ := schedulerTick_of_not hd esp
    refine hswitch ?_
    show (schedulerTick a.turn.sys esp).cpu.executing = a.turn.sys.cpu.executing
    rw [hn]
    rfl
  exact interrupts_off_run hS (onlyIdleSaved_step hS hinv hb).1 (hinv.off_of_dispatches hb hd) hu

/-- One process and 20 ticks. -/
def beforeSwitch : IrqMachine ℕ :=
  (run (irqStep bumpServices)
    (irqBoot (turnBoot bumpServices coldSys) true (Drivers.timerInit 100) ⟨fun _ => 0, 0, 0, 0⟩)
    (.create (cstr "worker_a") 0x101000 1 :: List.replicate 20 (.timer 0x9000))).get
    (by decide +kernel)

/-- The tick that switches. -/
def afterSwitch : IrqMachine ℕ :=
  (irqStep bumpServices beforeSwitch (.timer 0x9000)).get (by decide +kernel)

/-- The process that gets the processor yields. -/
theorem preemption_disables_interrupts_worker :
    ∃ u, run (irqStep bumpServices) afterSwitch [.yield false 0x8000] = some u ∧
      u.interrupts = false ∧ u.timer = afterSwitch.timer ∧ u.keyboard = afterSwitch.keyboard := by
  refine ⟨_, rfl, ?_⟩
  exact preemption_disables_interrupts (a := beforeSwitch) (b := afterSwitch) lawful_bumpServices
    coldSys (by decide +kernel) true (Drivers.timerInit 100) ⟨fun _ => 0, 0, 0, 0⟩
    (Option.some_get _).symm (Option.some_get _).symm (by decide +kernel)
    (show run (irqStep bumpServices) afterSwitch [.yield false 0x8000] = _ from rfl)

/-! ## The idle loop of `kernel_main` -/

/-- The processes that `kernel_main` creates before it enables interrupts (lines 133–139). -/
structure ProcessSpec where
  name : ℕ → Byte
  entry : ℕ
  priority : ℤ

def ProcessSpec.create (p : ProcessSpec) : TurnOp := .create p.name p.entry p.priority

/-- The steps once idle only halts: what is not an interrupt is done by another process. -/
def idleLoopStep (S : Services τ) (idle : ℕ) (m : IrqMachine τ) (e : IrqOp) :
    Option (IrqMachine τ) :=
  match e with
  | .timer _ | .key _ => irqStep S m e
  | _ => if m.turn.sys.cpu.executing = idle then none else irqStep S m e

/-- Nothing has been scheduled yet. -/
structure Unscheduled (idle : ℕ) (m : TurnMachine τ) : Prop where
  turns_eq : m.turns = []
  running : (m.sys.procs idle).state = .running
  enabled : m.sys.schedulerEnabled = true
  ticks_eq : m.sys.ticksRemaining = schedulerQuantum

section

variable {idle : ℕ}

theorem Unscheduled.create (hS : S.Lawful inUse) {m t : TurnMachine τ}
    (h : Unscheduled idle m) (hidle : idle ∈ inUse m.sys.env) (p : ProcessSpec)
    (ht : turnStep S m p.create = some t) : Unscheduled idle t := by
  have hc := created_processCreate hS m.sys p.name p.entry p.priority
  rcases hpc : processCreate S m.sys p.name p.entry p.priority with ⟨q, s⟩
  simp only [hpc] at hc
  simp only [ProcessSpec.create, turnStep, hpc, Option.some.injEq] at ht
  subst ht
  have hcore := core_schedulerAdd s q
  have hexec : (schedulerAdd s q).cpu.executing = m.sys.cpu.executing :=
    (congrArg Core.executing hcore).trans (by rw [hc.rest_eq]; rfl)
  refine ⟨?_, ?_, ?_, ?_⟩
  · show turnsAfter m.turns m.sys.cpu.executing (schedulerAdd s q).cpu.executing = []
    rw [hexec, turnsAfter_self, h.turns_eq]
  · have hstate : ((schedulerAdd s q).procs idle).state = (s.procs idle).state :=
      congrArg (fun c : Core τ => c.state idle) hcore
    exact hstate.trans (by rw [hc.eq_of_inUse idle hidle, h.running])
  · exact (congrArg Core.enabled hcore).trans (by rw [hc.rest_eq]; exact h.enabled)
  · exact (congrArg Core.ticksRemaining hcore).trans (by rw [hc.rest_eq]; exact h.ticks_eq)

/-- The processes are created one after the other; none is scheduled. -/
theorem Unscheduled.run_create (hS : S.Lawful inUse) {specs : List ProcessSpec}
    {m t : TurnMachine τ} (h : Unscheduled idle m) (hm : ∃ v, TakesTurns inUse idle m v)
    (ht : run (turnStep S) m (specs.map ProcessSpec.create) = some t) :
    Unscheduled idle t ∧ ∃ v, TakesTurns inUse idle t v := by
  induction specs generalizing m with
  | nil =>
    obtain rfl := Option.some_inj.mp ht
    exact ⟨h, hm⟩
  | cons p specs ih =>
    rw [List.map_cons, run_cons_eq_some] at ht
    obtain ⟨m', hm', ht⟩ := ht
    obtain ⟨v, hv⟩ := hm
    have hidle := (hv.inUse_all idle List.mem_cons_self).2
    exact ih (h.create hS hidle p hm') (inTurn_step hS ⟨v, hv⟩ hm') ht

/-- Idle runs, so the first process in the queue is another one. -/
theorem Unscheduled.otherReady {m : TurnMachine τ} (h : Unscheduled idle m)
    (hm : ∃ v, TakesTurns inUse idle m v) (hcreated : m.created ≠ []) : OtherReady m.sys := by
  obtain ⟨v, hv⟩ := hm
  have hidle : idle ∉ v.queue := hv.inTurn.notMem ((hv.shows.state_eq idle).symm.trans h.running)
  have hqueue : v.queue ≠ [] := by
    intro hnil
    have := hv.inTurn.created_eq
    rw [hnil, h.turns_eq] at this
    exact hcreated this
  obtain ⟨n, q, hq⟩ := List.exists_cons_of_ne_nil hqueue
  have hhead : m.sys.readyQueueHead = n := (hq ▸ hv.shows.queue.links).1
  refine ⟨?_, hv.shows.head_eq_zero_iff.not.mpr hqueue, ?_⟩
  · rw [hv.shows.current_eq, hv.inTurn.current_eq]
    exact hv.idle_ne
  · rw [hhead, hv.shows.current_eq, hv.inTurn.current_eq]
    rintro rfl
    exact hidle (hq ▸ List.mem_cons_self)

/-- Idle still executes, and every tick since the start was taken from the first quantum. -/
structure IdleExecutes (idle : ℕ) (m : IrqMachine τ) : Prop where
  executing_eq : m.turn.sys.cpu.executing = idle
  interrupts : m.interrupts = true
  enabled : m.turn.sys.schedulerEnabled = true
  otherReady : OtherReady m.turn.sys
  ticks_add : m.timer.ticks.toNat + m.turn.sys.ticksRemaining = schedulerQuantum

/-- The two phases of the idle loop. -/
inductive IdleLoop (inUse : τ → Set ℕ) (idle : ℕ) (m : IrqMachine τ) : Prop where
  | waiting (saved : OnlyIdleSaved inUse idle m) (executes : IdleExecutes idle m)
  | left (saved : OnlyIdleSaved inUse idle m) (off : m.interrupts = false)
    (ticks_le : m.timer.ticks.toNat ≤ schedulerQuantum + 1)

theorem toNat_timerCallback {t : Drivers.Timer} (h : t.ticks.toNat ≤ schedulerQuantum) :
    (Drivers.timerCallback t).ticks.toNat = t.ticks.toNat + 1 := by
  show (t.ticks + 1).toNat = _
  rw [schedulerQuantum] at h
  rw [BitVec.toNat_add_of_lt (by simp; omega)]
  rfl

variable {m t : IrqMachine τ}

theorem timer_irqStep {esp : ℕ} (ht : irqStep S m (.timer esp) = some t) :
    t.timer = Drivers.timerCallback m.timer := by
  simp only [irqStep, Option.ite_none_right_eq_some, Option.map_eq_some_iff] at ht
  obtain ⟨-, turn, -, rfl⟩ := ht
  rfl

/-- A tick either counts the quantum down, or it is the last interrupt. -/
theorem IdleExecutes.timer (hS : S.Lawful inUse) (hsaved : OnlyIdleSaved inUse idle m)
    (h : IdleExecutes idle m) {esp : ℕ} (ht : irqStep S m (.timer esp) = some t) :
    IdleLoop inUse idle t := by
  have hsaved' := (onlyIdleSaved_step hS hsaved ht).1
  have hadd := h.ticks_add
  have hticks : t.timer.ticks.toNat = m.timer.ticks.toNat + 1 := by
    rw [timer_irqStep ht, toNat_timerCallback (by omega)]
  by_cases hd : TickDispatches m.turn.sys
  · exact .left hsaved' (hsaved.off_of_dispatches ht hd) (by omega)
  · have hpos : m.turn.sys.ticksRemaining ≠ 0 := fun h0 => hd ⟨h.enabled, h0, h.otherReady⟩
    have hpoint : ¬ SchedulingPoint m.turn.sys := fun hpoint => hpos hpoint.2
    have hremaining := ticksRemaining_schedulerTick h.enabled esp
    rw [if_neg hpoint] at hremaining
    obtain ⟨n, hn⟩ := schedulerTick_of_not hd esp
    obtain ⟨-, rfl⟩ := irqStep_timer_of_not ht hd
    refine .waiting hsaved' ⟨?_, h.interrupts, ?_, ?_, ?_⟩
    · show (schedulerTick m.turn.sys esp).cpu.executing = idle
      rw [hn]
      exact h.executing_eq
    · show (schedulerTick m.turn.sys esp).schedulerEnabled = true
      rw [hn]
      exact h.enabled
    · show OtherReady (schedulerTick m.turn.sys esp)
      rw [hn]
      exact h.otherReady
    · show _ + (schedulerTick m.turn.sys esp).ticksRemaining = schedulerQuantum
      omega

theorem irqStep_of_idleLoopStep {e : IrqOp} (ht : idleLoopStep S idle m e = some t) :
    irqStep S m e = some t := by
  unfold idleLoopStep at ht
  split at ht
  · exact ht
  · exact ht
  · exact (Option.ite_none_left_eq_some.mp ht).2

theorem IdleLoop.step (hS : S.Lawful inUse) {e : IrqOp} (h : IdleLoop inUse idle m)
    (ht : idleLoopStep S idle m e = some t) : IdleLoop inUse idle t := by
  have hirq := irqStep_of_idleLoopStep ht
  cases h with
  | left saved off ticks_le =>
    obtain ⟨hsaved, hstays⟩ := onlyIdleSaved_step hS saved hirq
    obtain ⟨hoff, htimer, -⟩ := hstays off
    exact .left hsaved hoff (htimer ▸ ticks_le)
  | waiting saved executes =>
    cases e with
    | timer esp => exact executes.timer hS saved hirq
    | key scancode =>
      have hsaved := (onlyIdleSaved_step hS saved hirq).1
      simp only [irqStep, Option.ite_none_right_eq_some, Option.some.injEq] at hirq
      obtain ⟨-, rfl⟩ := hirq
      exact .waiting hsaved ⟨executes.executing_eq, executes.interrupts, executes.enabled,
        executes.otherReady, executes.ticks_add⟩
    -- idle only halts
    | _ => exact absurd executes.executing_eq (Option.ite_none_left_eq_some.mp ht).1

end

/-- **The clock stops.** After `kernel_main` has created at least one process and enabled
    interrupts, at most `SCHEDULER_QUANTUM + 1` ticks are ever counted, and interrupts are
    enabled only while idle executes: none of the processes is ever interrupted. -/
theorem kernel_main_ticks_le (hS : S.Lawful inUse) (s : Sys τ)
    (hidle : processGetCurrent (processInit S s) ≠ 0) (specs : List ProcessSpec)
    {m : TurnMachine τ}
    (hm : run (turnStep S) (turnBoot S s) (specs.map ProcessSpec.create) = some m)
    (hcreated : m.created ≠ []) (frequency : BitVec 32) (keyboard : Drivers.Keyboard)
    (es : List IrqOp) :
    Along (idleLoopStep S (processGetCurrent (processInit S s)))
      (fun u => u.timer.ticks.toNat ≤ schedulerQuantum + 1 ∧
        (u.interrupts = true →
          u.turn.sys.cpu.executing = processGetCurrent (processInit S s)))
      (irqBoot m true (Drivers.timerInit frequency) keyboard) es := by
  have hboot : Unscheduled (processGetCurrent (processInit S s)) (turnBoot S s) :=
    ⟨rfl, (processInit_running hS hidle).1, rfl, rfl⟩
  obtain ⟨hun, htakes⟩ := hboot.run_create hS ⟨_, takesTurns_boot hS hidle⟩ hm
  have hexec : m.sys.cpu.executing = processGetCurrent (processInit S s) := by
    obtain ⟨v, hv⟩ := htakes
    rw [hv.shows.executing_eq, hv.inTurn.executing_eq, hun.turns_eq]
    rfl
  refine along_of_invariant (IdleLoop inUse (processGetCurrent (processInit S s)))
    (fun m e t h ht => h.step hS ht) ?_
    (.waiting ⟨htakes, fun _ _ => rfl⟩ ⟨hexec, rfl, hun.enabled, hun.otherReady htakes hcreated, ?_⟩)
    es
  · intro u hu
    cases hu with
    | waiting saved executes =>
      have := executes.ticks_add
      exact ⟨by omega, fun _ => executes.executing_eq⟩
    | left saved off ticks_le =>
      exact ⟨ticks_le, fun hon => absurd (off.symm.trans hon) (by decide)⟩
  · show 0 + m.sys.ticksRemaining = schedulerQuantum
    rw [hun.ticks_eq, Nat.zero_add]

/-- The two processes of `kernel_main`, in its order. -/
def workers : List ProcessSpec := [⟨cstr "worker_a", 0x101000, 1⟩, ⟨cstr "worker_b", 0x101040, 1⟩]

def workersReady : TurnMachine ℕ :=
  (run (turnStep bumpServices) (turnBoot bumpServices coldSys)
    (workers.map ProcessSpec.create)).get (by decide +kernel)

/-- The first of them gets the processor at tick 21 and yields. -/
theorem kernel_main_ticks_le_workers :
    Along (idleLoopStep bumpServices (processGetCurrent (processInit bumpServices coldSys)))
      (fun u => u.timer.ticks.toNat ≤ schedulerQuantum + 1 ∧
        (u.interrupts = true →
          u.turn.sys.cpu.executing = processGetCurrent (processInit bumpServices coldSys)))
      (irqBoot workersReady true (Drivers.timerInit 100) ⟨fun _ => 0, 0, 0, 0⟩)
      (List.replicate 21 (.timer 0x9000) ++ [.yield false 0x8000]) :=
  kernel_main_ticks_le lawful_bumpServices coldSys (by decide +kernel) workers
    (Option.some_get _).symm (by decide +kernel) 100 _ _

end NexusKernel.Process
