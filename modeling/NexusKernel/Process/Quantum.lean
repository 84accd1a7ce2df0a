import NexusKernel.Process.Scheduler

/-!
# The quantum

`scheduler_tick` tests `ticks_remaining` before it counts it down, and reloads it with
`SCHEDULER_QUANTUM` at the tick that finds 0. A quantum therefore lasts one tick more than
its name says.

Results:
* `ticksRemaining_schedulerTick`: the counter after a tick.
* `TickRun.ticks_eq`: the scheduling points and the counter after `n` ticks.
* `scheduling_points_iff`: for which `n` the quantum is `SCHEDULER_QUANTUM` ticks.
-/

namespace NexusKernel.Process

variable {τ : Type} {s t : Sys τ} {n k : ℕ}

/-- The tick passes the test of `ticks_remaining` and reloads it (lines 99–107). -/
def SchedulingPoint (s : Sys τ) : Prop := s.schedulerEnabled = true ∧ s.ticksRemaining = 0

instance (s : Sys τ) : Decidable (SchedulingPoint s) := inferInstanceAs (Decidable (_ ∧ _))

/-- The states with a full quantum: after `scheduler_init`, and after a `scheduler_yield`
    that gets past its early return. -/
inductive QuantumStart : Sys τ → Prop where
  | init (s : Sys τ) : QuantumStart (schedulerInit s)
  | yield (s : Sys τ) (esp : ℕ) (enabled : s.schedulerEnabled = true)
    (dispatches : YieldDispatches s) : QuantumStart (schedulerYield s esp)

/-- `n` ticks, of which `k` were scheduling points. Between them any code may run, but the
    two variables are static and nothing but ticks, yields and `scheduler_init` writes
    them. -/
inductive TickRun (s : Sys τ) : Sys τ → (n k : ℕ) → Prop where
  | refl : TickRun s s 0 0
  | other {t u : Sys τ} {n k : ℕ} (before : TickRun s t n k)
    (ticks : u.ticksRemaining = t.ticksRemaining)
    (enabled : u.schedulerEnabled = t.schedulerEnabled) : TickRun s u n k
  | tick {t : Sys τ} {n k : ℕ} (before : TickRun s t n k) (esp : ℕ) :
    TickRun s (schedulerTick t esp) (n + 1) (if SchedulingPoint t then k + 1 else k)

theorem ticksRemaining_dispatch (s : Sys τ) (current next esp : ℕ) :
    (dispatch s current next esp).ticksRemaining = s.ticksRemaining :=
  congrArg Core.ticksRemaining (core_dispatch s current next esp)

theorem schedulerEnabled_dispatch (s : Sys τ) (current next esp : ℕ) :
    (dispatch s current next esp).schedulerEnabled = s.schedulerEnabled :=
  congrArg Core.enabled (core_dispatch s current next esp)

/-- A dispatch or not, the tick counts down or reloads. -/
theorem ticksRemaining_schedulerTick (hs : s.schedulerEnabled = true) (esp : ℕ) :
    (schedulerTick s esp).ticksRemaining =
      if SchedulingPoint s then schedulerQuantum else s.ticksRemaining - 1 := by
  rw [schedulerTick, if_neg (by simp [hs])]
  by_cases hticks : s.ticksRemaining > 0
  · have hpoint : ¬ SchedulingPoint s := fun h => by
      have := h.2
      omega
    rw [if_pos hticks, if_neg hpoint]
    rfl
  · have hpoint : SchedulingPoint s := ⟨hs, by omega⟩
    rw [if_neg hticks, if_pos hpoint]
    simp only
    split_ifs
    · rfl
    · rfl
    · rfl
    · exact ticksRemaining_dispatch _ _ _ _

theorem schedulerEnabled_schedulerTick (s : Sys τ) (esp : ℕ) :
    (schedulerTick s esp).schedulerEnabled = s.schedulerEnabled := by
  by_cases h : TickDispatches s
  · rw [schedulerTick_of_dispatches h, schedulerEnabled_dispatch]
    rfl
  · obtain ⟨n, hn⟩ := schedulerTick_of_not h esp
    rw [hn]
    rfl

theorem QuantumStart.full (h : QuantumStart s) :
    s.schedulerEnabled = true ∧ s.ticksRemaining = schedulerQuantum := by
  cases h with
  | init s => exact ⟨rfl, rfl⟩
  | yield s esp enabled dispatches =>
    rw [schedulerYield_of_dispatches dispatches, schedulerEnabled_dispatch, ticksRemaining_dispatch]
    exact ⟨enabled, rfl⟩

/-- The counter goes from `SCHEDULER_QUANTUM` down to 0 and needs one more tick to start
    again. -/
theorem TickRun.ticks_eq (hs : QuantumStart s) (h : TickRun s t n k) :
    t.schedulerEnabled = true ∧ k = n / (schedulerQuantum + 1) ∧
      t.ticksRemaining = schedulerQuantum - n % (schedulerQuantum + 1) := by
  induction h with
  | refl => exact ⟨hs.full.1, rfl, hs.full.2⟩
  | other before ticks enabled ih => rw [ticks, enabled]; exact ih
  | @tick t n k before esp ih =>
    obtain ⟨hen, hk, hticks⟩ := ih
    have hpoint : SchedulingPoint t ↔ n % (schedulerQuantum + 1) = schedulerQuantum := by
      rw [SchedulingPoint, hticks]
      simp only [hen, true_and, schedulerQuantum]
      omega
    rw [schedulerEnabled_schedulerTick, ticksRemaining_schedulerTick hen, hk, hticks]
    simp only [hpoint, schedulerQuantum]
    refine ⟨hen, ?_, ?_⟩
    · split_ifs <;> omega
    · split_ifs <;> omega

/-- Another process is ready. -/
def OtherReady (s : Sys τ) : Prop :=
  processGetCurrent s ≠ 0 ∧ s.readyQueueHead ≠ 0 ∧ s.readyQueueHead ≠ processGetCurrent s

/-- For every `n`, after `n` ticks from a full quantum: the number of scheduling points is
    `n / SCHEDULER_QUANTUM` iff that is also `n / (SCHEDULER_QUANTUM + 1)`; and with another
    process ready, the next tick preempts iff it is the last of `SCHEDULER_QUANTUM + 1`. -/
theorem scheduling_points_iff (hs : QuantumStart s) (h : TickRun s t n k) :
    (k = n / schedulerQuantum ↔ n / schedulerQuantum = n / (schedulerQuantum + 1)) ∧
      (OtherReady t → (TickDispatches t ↔ (n + 1) % (schedulerQuantum + 1) = 0)) := by
  obtain ⟨hen, hk, hticks⟩ := h.ticks_eq hs
  refine ⟨by rw [hk]; exact eq_comm, ?_⟩
  intro hready
  have hdispatches : TickDispatches t ↔ t.ticksRemaining = 0 :=
    ⟨fun hd => hd.2.1, fun h0 => ⟨hen, h0, hready⟩⟩
  rw [hdispatches, hticks]
  simp only [schedulerQuantum]
  omega

theorem exists_tickRun (s : Sys τ) (n : ℕ) : ∃ t k, TickRun s t n k := by
  induction n with
  | zero => exact ⟨s, 0, .refl⟩
  | succ n ih =>
    obtain ⟨t, k, h⟩ := ih
    exact ⟨_, _, h.tick 0⟩

/-- Idle is running and one process is ready. -/
def twoProcesses : Sys ℕ :=
  schedulerAdd { schedulerInit coldSys with currentProcess := 0x1000 } 0x2000

/-- With another process ready, the 21st tick preempts. -/
theorem scheduling_points_iff_two : TickDispatches (twoProcesses.setTicks 0) := by
  obtain ⟨t, k, h⟩ := exists_tickRun (schedulerInit coldSys) 20
  obtain ⟨hen, -, hticks⟩ := h.ticks_eq (.init coldSys)
  have hrun : TickRun (schedulerInit coldSys) (twoProcesses.setTicks 0) 20 k :=
    h.other hticks.symm hen.symm
  have hready : OtherReady (twoProcesses.setTicks 0) := by
    refine ⟨?_, ?_, ?_⟩ <;> decide
  exact ((scheduling_points_iff (.init coldSys) hrun).2 hready).mpr (by decide)

/-- With another process ready, 20 ticks after `scheduler_init` switch to it at no point;
    the 21st does. -/
theorem twentieth_tick_does_not_preempt :
    ((List.replicate 20 0).foldl schedulerTick twoProcesses).switches = [] ∧
      ((List.replicate 21 0).foldl schedulerTick twoProcesses).switches = [(0x1000, 0)] ∧
      ∃ t k, TickRun (schedulerInit coldSys) t 20 k ∧ k ≠ 20 / schedulerQuantum := by
  refine ⟨by decide, by decide, ?_⟩
  obtain ⟨t, k, h⟩ := exists_tickRun (schedulerInit coldSys) 20
  refine ⟨t, k, h, ?_⟩
  rw [(h.ticks_eq (.init coldSys)).2.1]
  decide

end NexusKernel.Process
