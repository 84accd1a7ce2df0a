import NexusKernel.Process.SchedulerRuns

/-!
# Who is running, and who is lost

`context_switch` does not update `current_process`, so after the first switch the
scheduler takes idle for the running process: the next switch saves the context in
the wrong record and puts the wrong process back. This module says exactly which
runs keep the processes in place and which keep the scheduler informed.

Results:
* `no_process_lost_iff`: the runs along which no process is lost.
* `scheduler_knows_running_iff`: the runs along which `process_get_current` is the
  process that is executing.
-/

namespace NexusKernel.Process

variable {τ : Type} {S : Services τ} {inUse : τ → Set ℕ}

/-- The two demonstration processes of `kernel_main.c`. -/
def createA : SchedOp := .create (cstr "worker_a") 0x101000 1

@[inherit_doc createA]
def createB : SchedOp := .create (cstr "worker_b") 0x101040 1

/-! ## No process is lost -/

/-- The ready queue, and the place of every process that can run: executing, or in
    the queue exactly once. -/
def NoneLost (m : Machine τ) : Prop :=
  ∃ q, Links m.sys.nextOf m.sys.readyQueueHead q 0 ∧
    ∀ p ∈ m.added, (m.sys.procs p).state ≠ .blocked → (m.sys.procs p).state ≠ .terminated →
      q.count p = if p = m.sys.cpu.executing then 0 else 1

/-- A tick or a yield that takes the processor from a process that is not blocked
    puts that process at the tail of the queue. -/
def PutsBack (S : Services τ) (m : Machine τ) : SchedOp → Prop
  | .tick esp => ∀ t, schedStep S m (.tick esp) = some t →
    t.sys.cpu.executing ≠ m.sys.cpu.executing →
    (m.sys.procs m.sys.cpu.executing).state ≠ .blocked →
    t.sys.readyQueueTail = m.sys.cpu.executing
  | .yield esp => ∀ t, schedStep S m (.yield esp) = some t →
    t.sys.cpu.executing ≠ m.sys.cpu.executing →
    (m.sys.procs m.sys.cpu.executing).state ≠ .blocked →
    t.sys.readyQueueTail = m.sys.cpu.executing
  | _ => True

/-- The step takes the processor from the process that is executing, and does not
    wake up the process that is executing. -/
def SwitchesFromExecuting (m : Machine τ) : SchedOp → Prop
  | .tick _ => m.sys.ticksRemaining = 0 → m.sys.readyQueueHead ≠ 0 →
    m.sys.readyQueueHead ≠ processGetCurrent m.sys →
    m.sys.cpu.executing = processGetCurrent m.sys
  | .yield _ => m.sys.readyQueueHead ≠ 0 → m.sys.cpu.executing = processGetCurrent m.sys
  | .block _ => m.sys.readyQueueHead ≠ 0 → m.sys.cpu.executing = processGetCurrent m.sys
  | .unblock p => p ≠ m.sys.cpu.executing
  | .create _ _ _ => True

theorem Shows.noneLost_iff {m : Machine τ} {v : View τ} (h : Shows m.sys v) :
    NoneLost m ↔ Located v m.added := by
  simp only [NoneLost, Located, h.state_eq, h.executing_eq]
  constructor
  · rintro ⟨q, hlinks, hq⟩
    rwa [hlinks.unique h.queue.links] at hq
  · exact fun hq => ⟨v.queue, h.queue.links, hq⟩

theorem Tracks.switchesFromExecuting_iff {m : Machine τ} {v : View τ} (h : Tracks inUse m v)
    (e : SchedOp) : SwitchesFromExecuting m e ↔ v.SwitchesWell e := by
  have hhead := h.shows.head_eq_current_iff h.placed
  rw [h.shows.current_eq] at hhead
  cases e <;> simp only [SwitchesFromExecuting, View.SwitchesWell, h.shows.ticksRemaining_eq,
    h.shows.executing_eq, ne_eq, h.shows.head_eq_zero_iff, hhead, h.shows.current_eq]

theorem tracks_step (hS : S.Lawful inUse) {m t : Machine τ} {e : SchedOp}
    (h : ∃ v, Tracks inUse m v) (hC : SwitchesFromExecuting m e) (ht : schedStep S m e = some t) :
    ∃ v, Tracks inUse t v := by
  obtain ⟨v, hv⟩ := h
  obtain ⟨v', hs, hstep, hin⟩ := schedStep_refines hS hv ht
  have hC' := (hv.switchesFromExecuting_iff e).mp hC
  exact ⟨v', hs, conserved_step hv.conserved hv.shows.queue.nodup hstep hC', hin⟩

/-- A dispatch from the executing process puts it at the tail, unless it is blocked. -/
theorem Conserved.getLast_dispatch {v : View τ} {l : List ℕ} (h : Conserved v l)
    (heq : v.executing = v.current) (hne : v.dispatch.executing ≠ v.executing)
    (hb : v.state v.executing ≠ .blocked) :
    v.dispatch.queue.getLast?.getD 0 = v.executing := by
  have hrun := h.executing_state.resolve_right hb
  rcases hq : v.queue with _ | ⟨n, q⟩
  · rw [View.dispatch_nil hq] at hne
    exact absurd rfl hne
  · rw [heq] at hrun
    rw [View.dispatch_cons hq]
    simp only [if_pos hrun, List.getLast?_concat, Option.getD_some]
    exact heq.symm

theorem Conserved.getLast_yield {v : View τ} {l : List ℕ} (h : Conserved v l)
    (hC : v.queue ≠ [] → v.executing = v.current) (hne : v.yield.executing ≠ v.executing)
    (hb : v.state v.executing ≠ .blocked) : v.yield.queue.getLast?.getD 0 = v.executing := by
  by_cases hnil : v.queue = []
  · rw [View.yield, if_pos hnil] at hne
    exact absurd rfl hne
  · rw [View.yield, if_neg hnil] at hne ⊢
    exact (h.setTicks _).getLast_dispatch (hC hnil) hne hb

theorem Conserved.getLast_tick {v : View τ} {l : List ℕ} (h : Conserved v l)
    (hC : v.ticksRemaining = 0 → v.queue ≠ [] → v.queue.head? ≠ some v.current →
      v.executing = v.current) (hne : v.tick.executing ≠ v.executing)
    (hb : v.state v.executing ≠ .blocked) : v.tick.queue.getLast?.getD 0 = v.executing := by
  unfold View.tick at hne ⊢
  split_ifs at hne ⊢ with hen hticks hhead
  · exact absurd rfl hne
  · exact absurd rfl hne
  · exact absurd rfl hne
  · by_cases hnil : v.queue = []
    · rw [View.dispatch_nil (show (v.setTicks schedulerQuantum).queue = [] from hnil)] at hne
      exact absurd rfl hne
    · exact (h.setTicks _).getLast_dispatch (hC (by omega) hnil hhead) hne hb

/-- A step that switches from the executing process puts it back. -/
theorem Tracks.putsBack {m : Machine τ} {v : View τ} (h : Tracks inUse m v) {e : SchedOp}
    (hC : SwitchesFromExecuting m e) : PutsBack S m e := by
  have hC' := (h.switchesFromExecuting_iff e).mp hC
  -- the view after the step tells where the tail and the executing process are
  have hview : ∀ {s : Sys τ} {v' : View τ}, Shows s v' →
      (v'.executing ≠ v.executing → v.state v.executing ≠ .blocked →
        v'.queue.getLast?.getD 0 = v.executing) →
      s.cpu.executing ≠ m.sys.cpu.executing →
      (m.sys.procs m.sys.cpu.executing).state ≠ .blocked →
      s.readyQueueTail = m.sys.cpu.executing := by
    intro s v' hs hlast hne hb
    rw [hs.executing_eq, h.shows.executing_eq] at hne
    rw [h.shows.state_eq, h.shows.executing_eq] at hb
    rw [hs.queue.tail_eq, h.shows.executing_eq]
    exact hlast hne hb
  cases e with
  | tick esp =>
    intro t ht
    obtain rfl := Option.some_inj.mp ht
    exact hview (shows_schedulerTick h.shows h.placed esp) (h.conserved.getLast_tick hC')
  | yield esp =>
    intro t ht
    obtain rfl := Option.some_inj.mp ht
    exact hview (shows_schedulerYield h.shows h.placed esp) (h.conserved.getLast_yield hC')
  | block esp => trivial
  | unblock p => trivial
  | create name entry priority => trivial

/-- **No process is lost** along a run, and a process that gives up the processor is
    put back at the tail, exactly if every switch is made from the process that is
    executing and that process is never woken up. -/
theorem no_process_lost_iff (hS : S.Lawful inUse) (s : Sys τ)
    (hidle : processGetCurrent (processInit S s) ≠ 0) {es : List SchedOp} {u : Machine τ}
    (hrun : run (schedStep S) (schedBoot S s) es = some u) :
    (Along (schedStep S) NoneLost (schedBoot S s) es ∧
      Meets (schedStep S) (PutsBack S) (schedBoot S s) es) ↔
    Meets (schedStep S) SwitchesFromExecuting (schedBoot S s) es := by
  have hboot : ∃ v, Tracks inUse (schedBoot S s) v := ⟨_, tracks_schedBoot hS hidle⟩
  have hstep : ∀ (m : Machine τ) e t, (∃ v, Tracks inUse m v) → SwitchesFromExecuting m e →
      schedStep S m e = some t → ∃ v, Tracks inUse t v :=
    fun m e t hm hC ht => tracks_step hS hm hC ht
  have hiff : Along (schedStep S) NoneLost (schedBoot S s) es ↔
      Meets (schedStep S) SwitchesFromExecuting (schedBoot S s) es := by
    refine along_iff_meets (fun m => ∃ v, Tracks inUse m v) ?_ hstep ?_ hboot hrun
    · rintro m ⟨v, hv⟩
      exact hv.shows.noneLost_iff.mpr (hv.conserved.located hv.shows.queue.nodup)
    · rintro m e t ⟨v, hv⟩ hC ht
      obtain ⟨v', hs, hview, -⟩ := schedStep_refines hS hv ht
      rw [hs.noneLost_iff]
      exact not_located_step hv.conserved hv.shows.queue.nodup hview
        fun hC' => hC ((hv.switchesFromExecuting_iff e).mpr hC')
  refine ⟨fun h => hiff.mp h.1, fun h => ⟨hiff.mpr h, h.imp hstep ?_ hboot⟩⟩
  rintro m e ⟨v, hv⟩ hC
  exact hv.putsBack hC

theorem no_process_lost_iff_first_yield :
    Along (schedStep bumpServices) NoneLost (schedBoot bumpServices coldSys)
      [createA, createB, .yield 0x9000] ∧
    Meets (schedStep bumpServices) (PutsBack bumpServices) (schedBoot bumpServices coldSys)
      [createA, createB, .yield 0x9000] := by
  refine (no_process_lost_iff lawful_bumpServices coldSys (by decide +kernel) rfl).mpr
    ⟨trivial, ?_⟩
  rintro _ ⟨⟩
  refine ⟨trivial, ?_⟩
  rintro _ ⟨⟩
  exact ⟨fun _ => rfl, fun _ _ => trivial⟩

/-- Idle yields to A and A yields to B: the second switch is made from idle, and A is
    neither executing nor in the queue. -/
theorem second_yield_loses_process : ∃ u,
    run (schedStep bumpServices) (schedBoot bumpServices coldSys)
      [createA, createB, .yield 0x9000, .yield 0x8000] = some u ∧ ¬ NoneLost u := by
  refine ⟨_, rfl, ?_⟩
  rintro ⟨q, hlinks, hq⟩
  -- idle is alone in the queue; A is the second process added
  obtain rfl : q = [1] :=
    hlinks.unique ⟨by decide +kernel, by decide, show _ = 0 by decide +kernel⟩
  exact absurd (hq 8364 (by decide +kernel) (by decide +kernel) (by decide +kernel))
    (by decide +kernel)

/-! ## The scheduler knows who is running -/

/-- `process_get_current` is the process that is executing, it is the one process
    that is marked running, and every switch was made from the executing process. -/
structure KnowsRunning (m : Machine τ) : Prop where
  current_eq : processGetCurrent m.sys = m.sys.cpu.executing
  running : (m.sys.procs (processGetCurrent m.sys)).state = .running
  others : ∀ p ∈ m.added, p ≠ processGetCurrent m.sys → (m.sys.procs p).state ≠ .running
  switches : ∀ c ∈ m.sys.switches, c.1 = c.2

/-- The step switches to no other process. -/
def NeverSwitches (m : Machine τ) : SchedOp → Prop
  | .tick _ => m.sys.ticksRemaining = 0 → m.sys.readyQueueHead = 0
  | .yield _ => m.sys.readyQueueHead = 0
  | .block _ => False
  | .unblock _ => True
  | .create _ _ _ => True

/-- The part of `KnowsRunning` that `Conserved` does not imply. -/
structure View.Knows (v : View τ) : Prop where
  executing_eq : v.executing = v.current
  running : v.state v.current = .running
  switches : ∀ c ∈ v.switches, c.1 = c.2

theorem Tracks.knowsRunning_iff {m : Machine τ} {v : View τ} (h : Tracks inUse m v) :
    KnowsRunning m ↔ v.Knows := by
  constructor
  · intro hm
    refine ⟨?_, ?_, ?_⟩
    · rw [← h.shows.executing_eq, ← h.shows.current_eq, hm.current_eq]
    · rw [← h.shows.state_eq, ← h.shows.current_eq, hm.running]
    · rw [← h.shows.switches_eq]
      exact hm.switches
  · intro hv
    refine ⟨?_, ?_, ?_, ?_⟩
    · rw [h.shows.executing_eq, h.shows.current_eq, hv.executing_eq]
    · rw [h.shows.state_eq, h.shows.current_eq, hv.running]
    · intro p hp hne
      rw [h.shows.current_eq, ← hv.executing_eq] at hne
      rw [h.shows.state_eq]
      exact h.conserved.not_running hp hne
    · rw [h.shows.switches_eq]
      exact hv.switches

/-- A process that knows it is running can only switch from itself. -/
theorem View.Knows.switchesWell {v v' : View τ} {l l' : List ℕ} {e : SchedOp} (h : v.Knows)
    (hstep : ViewStep v l e v' l') : v.SwitchesWell e := by
  cases hstep with
  | tick esp => exact fun _ _ _ => h.executing_eq
  | yield esp => exact fun _ => h.executing_eq
  | block esp => exact fun _ => h.executing_eq
  | unblock hp hb =>
    rintro rfl
    rw [h.executing_eq, h.running] at hb
    exact absurd hb (by decide)
  | createFailed => trivial
  | created => trivial

theorem Conserved.executing_dispatch_ne {v : View τ} {l : List ℕ} (h : Conserved v l)
    (heq : v.executing = v.current) (hne : v.queue ≠ []) :
    v.dispatch.executing ≠ v.dispatch.current := by
  obtain ⟨n, q, hq⟩ := List.exists_cons_of_ne_nil hne
  have hcn : v.current ≠ n := by
    rintro hcn
    apply h.executing_notMem
    rw [hq, heq, hcn]
    exact List.mem_cons_self
  rw [View.dispatch_cons hq]
  show (if v.current = n then v.executing else n) ≠ v.current
  rw [if_neg hcn]
  exact hcn.symm

theorem View.Knows.setTicks {v : View τ} (h : v.Knows) (n : ℕ) : (v.setTicks n).Knows :=
  ⟨h.executing_eq, h.running, h.switches⟩

theorem View.Knows.congr_state {v : View τ} (h : v.Knows) {st : ℕ → ProcessState} (env : τ)
    (q : List ℕ) (hst : st v.current = v.state v.current) :
    View.Knows { v with state := st, env := env, queue := q } :=
  ⟨h.executing_eq, hst.trans h.running, h.switches⟩

/-- The operation `e` keeps the processor where it is. -/
def View.StaysPut (v : View τ) : SchedOp → Prop
  | .tick _ => v.ticksRemaining = 0 → v.queue = []
  | .yield _ => v.queue = []
  | .block _ => False
  | .unblock _ => True
  | .create _ _ _ => True

theorem Shows.neverSwitches_iff {m : Machine τ} {v : View τ} (h : Shows m.sys v) (e : SchedOp) :
    NeverSwitches m e ↔ v.StaysPut e := by
  cases e <;>
    simp only [NeverSwitches, View.StaysPut, h.ticksRemaining_eq, h.head_eq_zero_iff]

theorem Conserved.knows_yield_iff {v : View τ} {l : List ℕ} (h : Conserved v l) (hv : v.Knows) :
    v.yield.Knows ↔ v.queue = [] := by
  by_cases hnil : v.queue = []
  · rw [View.yield, if_pos hnil]
    exact iff_of_true hv hnil
  · rw [View.yield, if_neg hnil]
    refine iff_of_false (fun hk => ?_) hnil
    exact (h.setTicks schedulerQuantum).executing_dispatch_ne hv.executing_eq hnil hk.executing_eq

theorem Conserved.knows_tick_iff {v : View τ} {l : List ℕ} (h : Conserved v l) (hv : v.Knows) :
    v.tick.Knows ↔ (v.ticksRemaining = 0 → v.queue = []) := by
  have hhead : v.queue.head? ≠ some v.current := by
    intro hhead
    apply h.executing_notMem
    rw [hv.executing_eq]
    exact List.mem_of_mem_head? hhead
  rw [View.tick, if_neg (by rw [h.enabled]; decide), if_neg hhead]
  split_ifs with hticks
  · exact iff_of_true (hv.setTicks _) fun h0 => absurd h0 (by omega)
  · have h0 : v.ticksRemaining = 0 := by omega
    by_cases hnil : v.queue = []
    · rw [View.dispatch_nil (show (v.setTicks schedulerQuantum).queue = [] from hnil)]
      exact iff_of_true (hv.setTicks _) fun _ => hnil
    · refine iff_of_false (fun hk => ?_) fun himp => hnil (himp h0)
      exact (h.setTicks schedulerQuantum).executing_dispatch_ne hv.executing_eq hnil hk.executing_eq

theorem Conserved.not_knows_block {v : View τ} {l : List ℕ} (h : Conserved v l) (hv : v.Knows) :
    ¬ (v.block .blocked).Knows := by
  intro hk
  by_cases hnil : v.queue = []
  · -- the current process is blocked, but nothing else runs
    rw [View.block, View.yield, if_pos hnil] at hk
    have hrun : Function.update v.state v.current .blocked v.current = .running := hk.running
    rw [Function.update_self] at hrun
    exact absurd hrun (by decide)
  · rw [View.block, View.yield, if_neg hnil] at hk
    have hset := (h.setBlocked hv.executing_eq).setTicks schedulerQuantum
    exact hset.executing_dispatch_ne hv.executing_eq hnil hk.executing_eq

theorem Conserved.knows_step_iff {v v' : View τ} {l l' : List ℕ} {e : SchedOp}
    (h : Conserved v l) (hv : v.Knows) (hstep : ViewStep v l e v' l') :
    v'.Knows ↔ v.StaysPut e := by
  cases hstep with
  | tick esp => exact h.knows_tick_iff hv
  | yield esp => exact h.knows_yield_iff hv
  | block esp => exact iff_of_false (h.not_knows_block hv) id
  | unblock hp hb =>
    refine iff_of_true (hv.congr_state v.env _ (Function.update_of_ne ?_ _ _)) trivial
    intro hcp
    rw [← hcp, hv.running] at hb
    exact absurd hb (by decide)
  | createFailed name entry priority hst =>
    exact iff_of_true (hv.congr_state _ v.queue (hst _ h.current_mem)) trivial
  | created name entry priority hp hst hready =>
    exact iff_of_true (hv.congr_state _ _ (hst _ h.current_mem)) trivial

/-- **The scheduler knows who is running** along a run exactly if no step of the run
    switches or blocks. -/
theorem scheduler_knows_running_iff (hS : S.Lawful inUse) (s : Sys τ)
    (hidle : processGetCurrent (processInit S s) ≠ 0) {es : List SchedOp} {u : Machine τ}
    (hrun : run (schedStep S) (schedBoot S s) es = some u) :
    Along (schedStep S) KnowsRunning (schedBoot S s) es ↔
      Meets (schedStep S) NeverSwitches (schedBoot S s) es := by
  have hboot : ∃ v, Tracks inUse (schedBoot S s) v ∧ v.Knows :=
    ⟨_, tracks_schedBoot hS hidle, rfl, (processInit_running hS hidle).1,
      fun c hc => absurd hc List.not_mem_nil⟩
  -- a scheduler that knows who is running switches from that process
  have hnext : ∀ {m t : Machine τ} {e : SchedOp} {v : View τ}, Tracks inUse m v → v.Knows →
      schedStep S m e = some t → ∃ v', Tracks inUse t v' ∧ (v'.Knows ↔ NeverSwitches m e) := by
    intro m t e v hv hk ht
    obtain ⟨v', hs, hstep, hin⟩ := schedStep_refines hS hv ht
    have hconserved := conserved_step hv.conserved hv.shows.queue.nodup hstep
      (hk.switchesWell hstep)
    refine ⟨v', ⟨hs, hconserved, hin⟩, ?_⟩
    rw [hv.shows.neverSwitches_iff]
    exact hv.conserved.knows_step_iff hk hstep
  refine along_iff_meets (fun m => ∃ v, Tracks inUse m v ∧ v.Knows) ?_ ?_ ?_ hboot hrun
  · rintro m ⟨v, hv, hk⟩
    exact hv.knowsRunning_iff.mpr hk
  · rintro m e t ⟨v, hv, hk⟩ hC ht
    obtain ⟨v', hv', hiff⟩ := hnext hv hk ht
    exact ⟨v', hv', hiff.mpr hC⟩
  · rintro m e t ⟨v, hv, hk⟩ hC ht
    obtain ⟨v', hv', hiff⟩ := hnext hv hk ht
    exact fun hP => hC (hiff.mp (hv'.knowsRunning_iff.mp hP))

theorem scheduler_knows_running_iff_first_ticks :
    Along (schedStep bumpServices) KnowsRunning (schedBoot bumpServices coldSys)
      [createA, .tick 0x9000, createB] := by
  refine (scheduler_knows_running_iff lawful_bumpServices coldSys (by decide +kernel) rfl).mpr
    ⟨trivial, ?_⟩
  rintro _ ⟨⟩
  refine ⟨fun h0 => absurd h0 (by decide +kernel), ?_⟩
  rintro _ ⟨⟩
  exact ⟨trivial, fun _ _ => trivial⟩

/-- Idle yields to A: A is executing, the scheduler still takes idle for the current
    process. -/
theorem first_yield_leaves_current : ∃ u,
    run (schedStep bumpServices) (schedBoot bumpServices coldSys)
      [createA, .yield 0x9000] = some u ∧ ¬ KnowsRunning u := by
  refine ⟨_, rfl, fun h => ?_⟩
  exact absurd h.current_eq (by decide +kernel)

end NexusKernel.Process
