import NexusKernel.Process.Scheduler

/-!
# The scheduler as operations on a queue of processes

`View` is the scheduler's state with the linked list replaced by the list of its
processes. The entry points of `scheduler.c` compute on the pointers what the
functions of this module compute on the list, as long as the current process is
not in the queue while it runs (`Placed`).

Results:
* `shows_schedulerTick`, `shows_schedulerYield`, `shows_schedulerBlockCurrent`,
  `shows_schedulerUnblock`: each entry point refines its operation on views.
-/

namespace NexusKernel.Process

variable {τ : Type}

/-- What the scheduler's state says: the ready queue and everything beside it. -/
structure View (τ : Type) extends Core τ where
  queue : List ℕ

/-- The view of the state `s`. -/
structure Shows (s : Sys τ) (v : View τ) : Prop where
  queue : Queue s v.queue
  core : s.core = v.toCore

theorem Shows.state_eq {s : Sys τ} {v : View τ} (h : Shows s v) (p : ℕ) :
    (s.procs p).state = v.state p := congrArg (fun c : Core τ => c.state p) h.core

theorem Shows.current_eq {s : Sys τ} {v : View τ} (h : Shows s v) :
    processGetCurrent s = v.current := congrArg Core.current h.core

theorem Shows.executing_eq {s : Sys τ} {v : View τ} (h : Shows s v) :
    s.cpu.executing = v.executing := congrArg Core.executing h.core

theorem Shows.switches_eq {s : Sys τ} {v : View τ} (h : Shows s v) : s.switches = v.switches :=
  congrArg Core.switches h.core

theorem Shows.ticksRemaining_eq {s : Sys τ} {v : View τ} (h : Shows s v) :
    s.ticksRemaining = v.ticksRemaining := congrArg Core.ticksRemaining h.core

theorem Shows.enabled_eq {s : Sys τ} {v : View τ} (h : Shows s v) :
    s.schedulerEnabled = v.enabled := congrArg Core.enabled h.core

theorem Shows.env_eq {s : Sys τ} {v : View τ} (h : Shows s v) : s.env = v.env :=
  congrArg Core.env h.core

theorem Shows.head_eq_zero_iff {s : Sys τ} {v : View τ} (h : Shows s v) :
    s.readyQueueHead = 0 ↔ v.queue = [] := h.queue.head_eq_zero_iff

/-! ## The operations -/

/-- Take the first process off the queue and run it; the current process goes to the
    end of the queue if it was running. -/
def View.dispatch (v : View τ) : View τ :=
  match v.queue with
  | [] => v
  | n :: q =>
    { v with
      queue := if v.state v.current = .running then q ++ [v.current] else q
      state := Function.update
        (if v.state v.current = .running then Function.update v.state v.current .ready
          else v.state) n .running
      executing := if v.current = n then v.executing else n
      switches := (v.current, v.executing) :: v.switches }

/-- `n` ticks remain. -/
def View.setTicks (v : View τ) (n : ℕ) : View τ := { v with ticksRemaining := n }

/-- A timer tick. -/
def View.tick (v : View τ) : View τ :=
  if v.enabled = false then v
  else if v.ticksRemaining > 0 then v.setTicks (v.ticksRemaining - 1)
  else if v.queue.head? = some v.current then v.setTicks schedulerQuantum
  else (v.setTicks schedulerQuantum).dispatch

/-- Giving up the processor. -/
def View.yield (v : View τ) : View τ := if v.queue = [] then v else (v.setTicks schedulerQuantum).dispatch

/-- Waiting: the current process takes the state `reason` and gives up the processor. -/
def View.block (v : View τ) (reason : ProcessState) : View τ :=
  View.yield { v with state := Function.update v.state v.current reason }

/-- Waking up `p`. -/
def View.unblock (v : View τ) (p : ℕ) : View τ :=
  { v with state := Function.update v.state p .ready, queue := v.queue ++ [p] }

/-- There is a current process, and while it runs it is not in the queue. -/
structure View.Placed (v : View τ) : Prop where
  current_ne : v.current ≠ 0
  notMem : v.state v.current = .running → v.current ∉ v.queue

/-! ## Refinement -/

theorem View.dispatch_nil {v : View τ} (h : v.queue = []) : v.dispatch = v := by
  unfold View.dispatch
  rw [h]

theorem View.dispatch_cons {v : View τ} {n : ℕ} {q : List ℕ} (h : v.queue = n :: q) :
    v.dispatch =
      { v with
        queue := if v.state v.current = .running then q ++ [v.current] else q
        state := Function.update
          (if v.state v.current = .running then Function.update v.state v.current .ready
            else v.state) n .running
        executing := if v.current = n then v.executing else n
        switches := (v.current, v.executing) :: v.switches } := by
  unfold View.dispatch
  rw [h]

theorem Shows.setTicks {s : Sys τ} {v : View τ} (h : Shows s v) (n : ℕ) :
    Shows (s.setTicks n) (v.setTicks n) :=
  ⟨⟨h.queue.links, h.queue.tail_eq, h.queue.nodup⟩,
    congrArg (fun c : Core τ => { c with ticksRemaining := n }) h.core⟩

theorem Shows.setState {s : Sys τ} {v : View τ} (h : Shows s v) (p : ℕ) (st : ProcessState) :
    Shows (s.setState p st) { v with state := Function.update v.state p st } := by
  refine ⟨h.queue.setState p st, ?_⟩
  rw [core_setState, h.core]

theorem shows_dispatch {s : Sys τ} {v : View τ} (h : Shows s v) (hv : v.Placed)
    (hne : v.queue ≠ []) (esp : ℕ) :
    Shows (dispatch s (processGetCurrent s) s.readyQueueHead esp) v.dispatch := by
  obtain ⟨n, q, hq⟩ := List.exists_cons_of_ne_nil hne
  have hqueue : Queue s (n :: q) := hq ▸ h.queue
  have hcur : s.core.state v.current = .running → v.current ∉ q := by
    intro hrun
    rw [h.core] at hrun
    exact fun hmem => hv.notMem hrun (hq ▸ List.mem_cons_of_mem n hmem)
  have hq' := queue_dispatch hqueue hv.current_ne hcur esp
  have hcore := core_dispatch s v.current n esp
  rw [h.current_eq, hqueue.links.1, View.dispatch_cons hq]
  rw [h.core] at hq' hcore
  exact ⟨hq', hcore⟩

theorem Shows.head_eq_current_iff {s : Sys τ} {v : View τ} (h : Shows s v) (hv : v.Placed) :
    s.readyQueueHead = processGetCurrent s ↔ v.queue.head? = some v.current := by
  rw [h.queue.head_eq, h.current_eq]
  cases v.queue with
  | nil => exact iff_of_false (fun h0 => hv.current_ne h0.symm) nofun
  | cons n q => exact (Option.some_inj).symm

theorem shows_schedulerTick {s : Sys τ} {v : View τ} (h : Shows s v) (hv : v.Placed) (esp : ℕ) :
    Shows (schedulerTick s esp) v.tick := by
  have hcur0 : processGetCurrent s ≠ 0 := h.current_eq ▸ hv.current_ne
  rw [schedulerTick, View.tick, ← h.enabled_eq, ← h.ticksRemaining_eq]
  by_cases hen : s.schedulerEnabled = false
  · rw [if_pos hen, if_pos hen]
    exact h
  rw [if_neg hen, if_neg hen]
  by_cases hticks : s.ticksRemaining > 0
  · rw [if_pos hticks, if_pos hticks]
    exact h.setTicks (s.ticksRemaining - 1)
  rw [if_neg hticks, if_neg hticks]
  show Shows (if processGetCurrent s = 0 then _ else if s.readyQueueHead = 0 then _
    else if s.readyQueueHead = processGetCurrent s then _ else _) _
  rw [if_neg hcur0, if_congr h.head_eq_zero_iff rfl rfl]
  by_cases hnil : v.queue = []
  · rw [if_pos hnil, if_neg (by simp [hnil]),
      View.dispatch_nil (show (v.setTicks schedulerQuantum).queue = [] from hnil)]
    exact h.setTicks schedulerQuantum
  rw [if_neg hnil, if_congr (h.head_eq_current_iff hv) rfl rfl]
  by_cases hhead : v.queue.head? = some v.current
  · rw [if_pos hhead, if_pos hhead]
    exact h.setTicks schedulerQuantum
  · rw [if_neg hhead, if_neg hhead]
    exact shows_dispatch (h.setTicks schedulerQuantum) ⟨hv.current_ne, hv.notMem⟩ hnil esp

theorem shows_schedulerYield {s : Sys τ} {v : View τ} (h : Shows s v) (hv : v.Placed) (esp : ℕ) :
    Shows (schedulerYield s esp) v.yield := by
  have hor : (processGetCurrent s = 0 ∨ s.readyQueueHead = 0) ↔ v.queue = [] := by
    rw [h.current_eq, h.head_eq_zero_iff, or_iff_right hv.current_ne]
  show Shows (if processGetCurrent s = 0 ∨ s.readyQueueHead = 0 then s else _) _
  rw [View.yield, if_congr hor rfl rfl]
  by_cases hnil : v.queue = []
  · rw [if_pos hnil, if_pos hnil]
    exact h
  · rw [if_neg hnil, if_neg hnil]
    exact shows_dispatch (h.setTicks schedulerQuantum) ⟨hv.current_ne, hv.notMem⟩ hnil esp

theorem shows_schedulerBlockCurrent {s : Sys τ} {v : View τ} (h : Shows s v)
    (hcur : v.current ≠ 0) (reason : ProcessState) (hreason : reason ≠ .running) (esp : ℕ) :
    Shows (schedulerBlockCurrent s reason esp) (v.block reason) := by
  have hstate : Function.update v.state v.current reason v.current ≠ .running := by
    rwa [Function.update_self]
  show Shows (if processGetCurrent s = 0 then s
    else schedulerYield (s.setState (processGetCurrent s) reason) esp) _
  rw [h.current_eq, if_neg hcur]
  exact shows_schedulerYield (h.setState v.current reason) ⟨hcur, fun hrun => absurd hrun hstate⟩ esp

theorem shows_schedulerAdd {s : Sys τ} {v : View τ} (h : Shows s v) {p : ℕ} (h0 : p ≠ 0)
    (hp : p ∉ v.queue) : Shows (schedulerAdd s p) { v with queue := v.queue ++ [p] } :=
  ⟨queue_schedulerAdd h.queue h0 hp, (core_schedulerAdd s p).trans h.core⟩

theorem shows_schedulerUnblock {s : Sys τ} {v : View τ} (h : Shows s v) {p : ℕ} (h0 : p ≠ 0)
    (hp : p ∉ v.queue) : Shows (schedulerUnblock s p) (v.unblock p) := by
  rw [schedulerUnblock, if_neg h0]
  exact shows_schedulerAdd (h.setState p .ready) h0 hp

/-- A creation leaves the queue alone and changes the states of records not in use
    only. -/
theorem Created.shows {inUse : τ → Set ℕ} {s t : Sys τ} {p : ℕ} (hc : Created inUse s p t)
    {v : View τ} (h : Shows s v) (hq : ∀ a ∈ v.queue, a ∈ inUse s.env) :
    Shows t { v with state := t.core.state, env := t.env } := by
  have hcore : t.core = { s.core with state := t.core.state, env := t.env } :=
    congrArg Sys.core hc.rest_eq
  rw [h.core] at hcore
  exact ⟨hc.queue h.queue hq, hcore⟩

end NexusKernel.Process
