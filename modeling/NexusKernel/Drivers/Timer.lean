import NexusKernel.Common.Run

/-!
# The timer (`kernel/drivers/timer.c`)

`timer_sleep` waits until the tick counter has reached a target, halting in between; the
counter is advanced by the timer interrupt, at any point of the loop. The loop is a
system of its own steps and of the interrupts, so that a list of events is an
interleaving of the two. A read of the counter is one step.

The ports that `timer_init` programs, the registration of the driver, and what
`timer_callback` does besides counting, are left out.

Results:
* `run_timer`: interrupts that come in a row.
* `returns_at_target`: the loop can return with the counter at the target.
* `sleeps_iff_target`: it sleeps long enough iff the target is late enough.
* `timer_sleep_long_enough_iff`: for which durations, frequencies and counters that is.
-/

namespace NexusKernel.Drivers

/-! ## The code -/

/-- `timer_ticks` and `timer_frequency` (lines 9–10). -/
structure Timer where
  ticks : BitVec 64
  frequency : BitVec 32
deriving DecidableEq

/-- `timer_init` (lines 50–51). -/
def timerInit (frequency : BitVec 32) : Timer := ⟨0, frequency⟩

/-- `timer_callback` (line 14). -/
def timerCallback (t : Timer) : Timer := { t with ticks := t.ticks + 1 }

/-- The `target` of `timer_sleep(ms)` (line 74): the product and the quotient are
    computed in 32 bits, the sum in 64. -/
def sleepTarget (t : Timer) (ms : BitVec 32) : BitVec 64 :=
  t.ticks + (ms * t.frequency / 1000).setWidth 64

/-- Where `timer_sleep` is: at the loop test (line 75), before the instruction of `hlt()`
    (line 76), halted by it, or back at its caller. -/
inductive SleepPc where
  | test
  | hlt
  | halted
  | returned
deriving DecidableEq

/-- A call of `timer_sleep` that has computed its target. -/
structure Sleeper where
  timer : Timer
  target : BitVec 64
  pc : SleepPc
deriving DecidableEq

/-- A timer interrupt, another interrupt, or a step of the loop. -/
inductive SleepEvent where
  | timer
  | interrupt
  | step

/-- An interrupt ends `hlt`. -/
def SleepPc.wake : SleepPc → SleepPc
  | .halted => .test
  | pc => pc

/-- `timer_sleep` (lines 75–76) under interrupts, until it returns. -/
def sleepStep (s : Sleeper) (e : SleepEvent) : Option Sleeper :=
  match s.pc, e with
  | .returned, _ => none
  | pc, .timer => some { s with timer := timerCallback s.timer, pc := pc.wake }
  | pc, .interrupt => some { s with pc := pc.wake }
  | .test, .step => some { s with pc := if s.timer.ticks < s.target then .hlt else .returned }
  | .hlt, .step => some { s with pc := .halted }
  | .halted, .step => none

/-- `timer_sleep(ms)` before its first test. -/
def timerSleep (t : Timer) (ms : BitVec 32) : Sleeper := ⟨t, sleepTarget t ms, .test⟩

/-! ## Runs -/

/-- Whatever interrupts come, the counter has advanced by the duration, computed exactly,
    when the call returns. -/
def SleepsLongEnough (t : Timer) (ms : BitVec 32) : Prop :=
  ∀ es s, run sleepStep (timerSleep t ms) es = some s → s.pc = .returned →
    t.ticks.toNat + ms.toNat * t.frequency.toNat / 1000 ≤ s.timer.ticks.toNat

/-- The target stays the same, and the call returns only behind it. -/
structure SleepInv (target : BitVec 64) (s : Sleeper) : Prop where
  target_eq : s.target = target
  reached : s.pc = .returned → target ≤ s.timer.ticks

theorem SleepInv.step {target : BitVec 64} {s s' : Sleeper} {e : SleepEvent}
    (h : SleepInv target s) (hstep : sleepStep s e = some s') : SleepInv target s' := by
  obtain ⟨timer, target', pc⟩ := s
  obtain ⟨rfl, -⟩ := h
  cases pc with
  | returned => cases hstep
  | test =>
    cases e with
    | step =>
      obtain rfl := Option.some_inj.mp hstep
      refine ⟨rfl, ?_⟩
      intro hpc
      by_contra hlt
      simp [BitVec.not_le.mp hlt] at hpc
    | timer | interrupt =>
      obtain rfl := Option.some_inj.mp hstep
      exact ⟨rfl, nofun⟩
  | hlt | halted =>
    cases e with
    | step =>
      cases hstep <;> exact ⟨rfl, nofun⟩
    | timer | interrupt =>
      obtain rfl := Option.some_inj.mp hstep
      exact ⟨rfl, nofun⟩

/-- Timer interrupts that come while the loop is at its test. -/
theorem run_timer {s : Sleeper} (hpc : s.pc = .test) (k : ℕ) :
    run sleepStep s (List.replicate k .timer) =
      some { s with timer := { s.timer with ticks := s.timer.ticks + BitVec.ofNat 64 k } } := by
  induction k generalizing s with
  | zero => simp [run]
  | succ k ih =>
    have hstep : sleepStep s .timer = some { s with timer := timerCallback s.timer } := by
      simp [sleepStep, hpc, SleepPc.wake]
    have hticks : s.timer.ticks + 1 + BitVec.ofNat 64 k =
        s.timer.ticks + BitVec.ofNat 64 (k + 1) := by
      rw [BitVec.ofNat_add, BitVec.add_assoc, BitVec.add_comm 1]
      rfl
    rw [List.replicate_succ, run, hstep, Option.bind_some, ih (by exact hpc)]
    simp only [timerCallback, hticks]

/-- With as many interrupts as the target is away, the loop returns at the target. -/
theorem returns_at_target (t : Timer) (ms : BitVec 32) :
    ∃ es, run sleepStep (timerSleep t ms) es =
      some ⟨{ t with ticks := sleepTarget t ms }, sleepTarget t ms, .returned⟩ := by
  refine ⟨List.replicate (ms * t.frequency / 1000).toNat .timer ++ [.step],
    run_append_eq_some.mpr ⟨_, run_timer rfl _, ?_⟩⟩
  have hticks : t.ticks + BitVec.ofNat 64 (ms * t.frequency / 1000).toNat = sleepTarget t ms := by
    rw [sleepTarget, BitVec.ofNat_toNat]
  simp only [timerSleep, hticks]
  simp [run, sleepStep]

/-- The loop sleeps long enough iff its target is late enough. -/
theorem sleeps_iff_target (t : Timer) (ms : BitVec 32) :
    SleepsLongEnough t ms ↔
      t.ticks.toNat + ms.toNat * t.frequency.toNat / 1000 ≤ (sleepTarget t ms).toNat := by
  constructor
  · intro h
    obtain ⟨es, hes⟩ := returns_at_target t ms
    exact h es _ hes rfl
  · intro h es s hrun hpc
    have hinv : SleepInv (sleepTarget t ms) s :=
      run_invariant _ (fun _ _ _ hs hstep => hs.step hstep) ⟨rfl, by simp [timerSleep]⟩ hrun
    exact h.trans (BitVec.le_def.mp (hinv.reached hpc))

theorem toNat_sleepTarget (t : Timer) (ms : BitVec 32) :
    (sleepTarget t ms).toNat =
      (t.ticks.toNat + ms.toNat * t.frequency.toNat % 2 ^ 32 / 1000) % 2 ^ 64 := by
  simp [sleepTarget]

/-- For every duration, frequency and counter, and any interrupts: `timer_sleep` returns
    only when the counter has advanced by the duration iff the product fits in 32 bits and
    the sum in 64. -/
theorem timer_sleep_long_enough_iff (t : Timer) (ms : BitVec 32) :
    SleepsLongEnough t ms ↔
      ms.toNat * t.frequency.toNat < 2 ^ 32 ∧
        t.ticks.toNat + ms.toNat * t.frequency.toNat / 1000 < 2 ^ 64 := by
  rw [sleeps_iff_target, toNat_sleepTarget]
  have hticks := t.ticks.isLt
  generalize ms.toNat * t.frequency.toNat = p
  by_cases hp : p < 2 ^ 32
  · rw [Nat.mod_eq_of_lt hp]
    omega
  · -- a product that wraps around loses more than one tick
    have hlost : p % 2 ^ 32 / 1000 < p / 1000 := by omega
    have hle := Nat.mod_le (t.ticks.toNat + p % 2 ^ 32 / 1000) (2 ^ 64)
    omega

/-- At 100 Hz, 42 949 673 ms are 4 294 967 ticks; the call returns at once. -/
theorem long_sleep_returns_at_once :
    run sleepStep (timerSleep (timerInit 100) 42949673) [.step] =
        some ⟨timerInit 100, 0, .returned⟩ ∧
      (0 : ℕ) + 42949673 * 100 / 1000 = 4294967 ∧
      ¬ SleepsLongEnough (timerInit 100) 42949673 := by
  have hrun : run sleepStep (timerSleep (timerInit 100) 42949673) [.step] =
      some ⟨timerInit 100, 0, .returned⟩ := by decide
  refine ⟨hrun, by norm_num, ?_⟩
  intro h
  exact absurd (h _ _ hrun rfl) (by decide)

end NexusKernel.Drivers
