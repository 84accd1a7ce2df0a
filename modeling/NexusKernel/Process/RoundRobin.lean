import NexusKernel.Process.SchedulerRuns
import NexusKernel.Process.Termination

/-!
# Whose turn it is

`current_process` is idle from boot on, because `context_switch` does not update it. The
scheduler therefore puts idle back into the queue whenever it takes the processor from
another process, and a process that has lost the processor is nowhere: the round never
comes round. This module says in which order the processes run, along every run of ticks,
yields, waits, exits, creations and terminations of any process (nothing in the kernel calls
`scheduler_unblock`).

Results:
* `InTurn`: the invariant. The processes created are those that have run, followed by
  those in the queue.
* `inTurn_step`: every step keeps it.
* `round_robin_runs_once`: every process runs at most once, in the order of creation, and
  idle never runs again.
-/

namespace NexusKernel.Process

variable {τ : Type} {S : Services τ} {inUse : τ → Set ℕ}

/-! ## Runs -/

/-- The system with the processes created and the processes that the processor was given
    to, both oldest first. -/
structure TurnMachine (τ : Type) where
  sys : Sys τ
  created : List ℕ
  turns : List ℕ

/-- What happens to the scheduler; a creation adds the process it made, and idle and every
    process created can be terminated. -/
inductive TurnOp where
  | tick (esp : ℕ)
  | yield (esp : ℕ)
  | block (esp : ℕ)
  | exit (code : ℤ) (esp : ℕ)
  | create (name : ℕ → Byte) (entry : ℕ) (priority : ℤ)
  | terminate (p : ℕ) (code : ℤ)

/-- The turns once `executing` has become `e`. -/
def turnsAfter (turns : List ℕ) (executing e : ℕ) : List ℕ :=
  if e = executing then turns else turns ++ [e]

/-- The machine after the system has become `s`. -/
def TurnMachine.after (m : TurnMachine τ) (s : Sys τ) : TurnMachine τ :=
  { m with sys := s, turns := turnsAfter m.turns m.sys.cpu.executing s.cpu.executing }

def turnStep (S : Services τ) (m : TurnMachine τ) : TurnOp → Option (TurnMachine τ)
  | .tick esp => some (m.after (schedulerTick m.sys esp))
  | .yield esp => some (m.after (schedulerYield m.sys esp))
  | .block esp => some (m.after (schedulerBlockCurrent m.sys .blocked esp))
  | .exit code esp => some (m.after (sysExit m.sys code esp))
  | .create name entry priority =>
    let (p, s) := processCreate S m.sys name entry priority
    some { m.after (schedulerAdd s p) with
      created := if p = 0 then m.created else m.created ++ [p] }
  | .terminate p code =>
    if p ∈ processGetCurrent m.sys :: m.created then some (m.after (processTerminate m.sys p code))
    else none

theorem turnStep_terminate {m t : TurnMachine τ} {p : ℕ} {code : ℤ} :
    turnStep S m (.terminate p code) = some t ↔
      p ∈ processGetCurrent m.sys :: m.created ∧ m.after (processTerminate m.sys p code) = t := by
  rw [turnStep, Option.ite_none_right_eq_some, Option.some_inj]

/-- The machine after `process_init` and `scheduler_init`, with idle executing. -/
def turnBoot (S : Services τ) (s : Sys τ) : TurnMachine τ :=
  let s := schedulerInit (processInit S s)
  { sys := { s with cpu := { s.cpu with executing := s.currentProcess } }
    created := []
    turns := [] }

/-! ## The invariant -/

/-- The processes created are those that have had their turn and, behind them, those in the
    queue; idle is the current process, and not in the queue while it is marked running. -/
structure InTurn (idle : ℕ) (v : View τ) (created turns : List ℕ) : Prop where
  current_eq : v.current = idle
  notMem : v.state idle = .running → idle ∉ v.queue
  created_eq : created = turns ++ v.queue.filter (· ≠ idle)
  executing_eq : v.executing = turns.getLastD idle
  nodup : (idle :: created).Nodup

section

variable {idle : ℕ} {v : View τ} {created turns : List ℕ}

theorem turnsAfter_self (turns : List ℕ) (e : ℕ) : turnsAfter turns e e = turns := if_pos rfl

theorem InTurn.idle_notMem (h : InTurn idle v created turns) : idle ∉ created :=
  (List.nodup_cons.mp h.nodup).1

theorem InTurn.placed (h : InTurn idle v created turns) (h0 : idle ≠ 0) : v.Placed :=
  ⟨h.current_eq ▸ h0, h.current_eq ▸ h.notMem⟩

/-- A process that waits in the queue is not executing. -/
theorem InTurn.executing_ne (h : InTurn idle v created turns) {n : ℕ} (hn : n ∈ v.queue)
    (hni : n ≠ idle) : n ≠ v.executing := by
  have hwait : n ∈ v.queue.filter (· ≠ idle) := List.mem_filter.mpr ⟨hn, decide_eq_true hni⟩
  have hdisj := List.disjoint_of_nodup_append (h.created_eq ▸ (List.nodup_cons.mp h.nodup).2)
  rintro rfl
  rw [h.executing_eq] at hwait hni
  by_cases hnil : turns = []
  · rw [hnil] at hni
    exact hni rfl
  · rw [List.getLastD_eq_getLast?, List.getLast?_eq_some_getLast hnil, Option.getD_some] at hwait
    exact hdisj (List.getLast_mem hnil) hwait

/-- Idle and the processes that were created are all there is in the queue. -/
theorem InTurn.mem_of_queue (h : InTurn idle v created turns) {p : ℕ} (hp : p ∈ v.queue) :
    p ∈ idle :: created := by
  by_cases hpi : p = idle
  · exact hpi ▸ List.mem_cons_self
  · rw [h.created_eq]
    exact List.mem_cons_of_mem _
      (List.mem_append_right _ (List.mem_filter.mpr ⟨hp, decide_eq_true hpi⟩))

theorem InTurn.setTicks (h : InTurn idle v created turns) (n : ℕ) :
    InTurn idle (v.setTicks n) created turns :=
  ⟨h.current_eq, h.notMem, h.created_eq, h.executing_eq, h.nodup⟩

/-- A process takes another state than running. -/
theorem InTurn.setState (h : InTurn idle v created turns) (p : ℕ) {st : ProcessState}
    (hst : st ≠ .running) :
    InTurn idle { v with state := Function.update v.state p st } created turns := by
  refine ⟨h.current_eq, ?_, h.created_eq, h.executing_eq, h.nodup⟩
  intro hrun
  by_cases hp : idle = p
  · simp only [hp, Function.update_self] at hrun
    exact absurd hrun hst
  · simp only [Function.update_of_ne hp] at hrun
    exact h.notMem hrun

/-- The head of the queue takes its turn, unless it is idle. -/
theorem InTurn.dispatch (h : InTurn idle v created turns) (hnodup : v.queue.Nodup) :
    InTurn idle v.dispatch created (turnsAfter turns v.executing v.dispatch.executing) := by
  rcases hq : v.queue with _ | ⟨n, q⟩
  · rw [View.dispatch_nil hq, turnsAfter_self]
    exact h
  have hnq : n ∉ q ∧ q.Nodup := List.nodup_cons.mp (hq ▸ hnodup)
  have hcreated := h.created_eq
  rw [hq] at hcreated
  rw [View.dispatch_cons hq]
  by_cases hni : n = idle
  · -- idle leaves the queue and is marked running, but nothing switches
    have hrun : v.state v.current ≠ .running := by
      intro hrun
      rw [h.current_eq] at hrun
      exact h.notMem hrun (by rw [hq, hni]; exact List.mem_cons_self)
    rw [List.filter_cons_of_neg (by simpa using hni)] at hcreated
    simp only [if_neg hrun, if_pos (h.current_eq.trans hni.symm), turnsAfter_self]
    exact ⟨h.current_eq, fun _ => hni ▸ hnq.1, hcreated, h.executing_eq, h.nodup⟩
  · have hne : n ≠ v.executing := h.executing_ne (hq ▸ List.mem_cons_self) hni
    have hcn : v.current ≠ n := fun hcn => hni (hcn.symm.trans h.current_eq)
    have hturns : turns ++ [n] ++ q.filter (· ≠ idle) = created := by
      rw [hcreated, List.filter_cons_of_pos (by simpa using hni), List.append_assoc,
        List.singleton_append]
    simp only [if_neg hcn, turnsAfter, if_neg hne]
    refine ⟨h.current_eq, ?_, ?_, by simp, h.nodup⟩
    · simp only [Function.update_of_ne (Ne.symm hni), h.current_eq]
      split_ifs with hrun
      · intro hready
        rw [Function.update_self] at hready
        exact absurd hready (by decide)
      · exact fun hrun' => absurd hrun' hrun
    · rw [h.current_eq]
      split_ifs with hrun
      · rw [List.filter_append, List.filter_singleton]
        simpa using hturns.symm
      · exact hturns.symm

theorem InTurn.tick (h : InTurn idle v created turns) (hnodup : v.queue.Nodup) :
    InTurn idle v.tick created (turnsAfter turns v.executing v.tick.executing) := by
  unfold View.tick
  split_ifs
  · rw [turnsAfter_self]
    exact h
  · exact (turnsAfter_self turns v.executing).symm ▸ h.setTicks _
  · exact (turnsAfter_self turns v.executing).symm ▸ h.setTicks _
  · exact (h.setTicks _).dispatch hnodup

theorem InTurn.yield (h : InTurn idle v created turns) (hnodup : v.queue.Nodup) :
    InTurn idle v.yield created (turnsAfter turns v.executing v.yield.executing) := by
  unfold View.yield
  split_ifs
  · rw [turnsAfter_self]
    exact h
  · exact (h.setTicks _).dispatch hnodup

/-- A new process joins the queue. -/
theorem InTurn.create (h : InTurn idle v created turns) {p : ℕ} (hp : p ∉ idle :: created)
    {st : ℕ → ProcessState} (hst : st idle = v.state idle) (env : τ) :
    InTurn idle { v with state := st, env := env, queue := v.queue ++ [p] } (created ++ [p])
      turns := by
  obtain ⟨hpi, hpc⟩ := not_or.mp (List.mem_cons.not.mp hp)
  refine ⟨h.current_eq, ?_, ?_, h.executing_eq, ?_⟩
  · intro hrun hmem
    rcases List.mem_append.mp hmem with hmem | hmem
    · exact h.notMem (hst ▸ hrun) hmem
    · exact hpi (List.mem_singleton.mp hmem).symm
  · show created ++ [p] = turns ++ (v.queue ++ [p]).filter (· ≠ idle)
    rw [List.filter_append, List.filter_cons_of_pos (by simpa using hpi), List.filter_nil,
      ← List.append_assoc, ← h.created_eq]
  · rw [← List.cons_append, ← List.concat_eq_append]
    exact h.nodup.concat hp

end

/-! ## Steps -/

/-- The machine shows a view in which every process waits for its turn or has had it, and
    the records are in use. -/
structure TakesTurns (inUse : τ → Set ℕ) (idle : ℕ) (m : TurnMachine τ) (v : View τ) : Prop where
  shows : Shows m.sys v
  inTurn : InTurn idle v m.created m.turns
  inUse_all : ∀ p ∈ idle :: m.created, p ≠ 0 ∧ p ∈ inUse m.sys.env

section

variable {idle : ℕ} {m : TurnMachine τ} {v : View τ}

theorem TakesTurns.idle_ne (h : TakesTurns inUse idle m v) : idle ≠ 0 :=
  (h.inUse_all idle List.mem_cons_self).1

theorem TakesTurns.placed (h : TakesTurns inUse idle m v) : v.Placed := h.inTurn.placed h.idle_ne

/-- A step of the scheduler that creates no process. -/
theorem TakesTurns.after (h : TakesTurns inUse idle m v) {s : Sys τ} {v' : View τ}
    (hs : Shows s v')
    (hv : InTurn idle v' m.created (turnsAfter m.turns v.executing v'.executing))
    (henv : v'.env = v.env) : TakesTurns inUse idle (m.after s) v' := by
  refine ⟨hs, ?_, ?_⟩
  · show InTurn idle v' m.created (turnsAfter m.turns m.sys.cpu.executing s.cpu.executing)
    rw [h.shows.executing_eq, hs.executing_eq]
    exact hv
  · show ∀ p ∈ idle :: m.created, p ≠ 0 ∧ p ∈ inUse s.env
    rw [hs.env_eq, henv, ← h.shows.env_eq]
    exact h.inUse_all

theorem Shows.terminate {s : Sys τ} {v : View τ} (h : Shows s v) {p : ℕ} (h0 : p ≠ 0) (code : ℤ) :
    Shows (processTerminate s p code)
      { v with state := Function.update v.state p .terminated } := by
  have hnext : (processTerminate s p code).nextOf = s.nextOf := by
    rw [processTerminate_of_ne s h0]
    show (s.setProc p fun r => { r with state := .terminated, exitCode := code }).nextOf = s.nextOf
    rw [nextOf_setProc]
    exact Function.update_eq_self p s.nextOf
  refine ⟨(queue_congr hnext ?_ ?_ v.queue).mpr h.queue, ?_⟩
  · rw [processTerminate_of_ne s h0]
    rfl
  · rw [processTerminate_of_ne s h0]
    rfl
  · rw [core_processTerminate s h0, h.core]

theorem shows_sysExit {s : Sys τ} {v : View τ} (h : Shows s v) (hcur : v.current ≠ 0) (code : ℤ)
    (esp : ℕ) : Shows (sysExit s code esp) (v.block .terminated) := by
  have hstate : Function.update v.state v.current .terminated v.current ≠ .running := by
    rw [Function.update_self]
    decide
  have hsys : sysExit s code esp = schedulerYield (processTerminate s v.current code) esp := by
    rw [sysExit, terminateCurrent_of_ne (h.current_eq ▸ hcur), h.current_eq]
  rw [hsys]
  exact shows_schedulerYield (h.terminate hcur code) ⟨hcur, fun hrun => absurd hrun hstate⟩ esp

theorem TakesTurns.create (hS : S.Lawful inUse) (h : TakesTurns inUse idle m v)
    {name : ℕ → Byte} {entry : ℕ} {priority : ℤ} {t : TurnMachine τ}
    (ht : turnStep S m (.create name entry priority) = some t) : ∃ v', TakesTurns inUse idle t v' := by
  have hc := created_processCreate hS m.sys name entry priority
  rcases hpc : processCreate S m.sys name entry priority with ⟨p, s⟩
  simp only [hpc] at hc
  simp only [turnStep, hpc, Option.some.injEq] at ht
  subst ht
  have hwaiting : ∀ a ∈ v.queue, a ∈ inUse m.sys.env := by
    intro a ha
    exact (h.inUse_all a (h.inTurn.mem_of_queue ha)).2
  have hshows := hc.shows h.shows hwaiting
  have hknown := hc.keepsKnown h.inUse_all
  have hidle : s.core.state idle = v.state idle := by
    rw [← h.shows.state_eq, ← hknown.procs_eq idle List.mem_cons_self]
    rfl
  have hexec : s.cpu.executing = m.sys.cpu.executing := by rw [hc.rest_eq]
  by_cases h0 : p = 0
  · simp only [h0, schedulerAdd, if_true]
    refine ⟨_, hshows, ?_, hknown.kept⟩
    show InTurn idle _ m.created (turnsAfter m.turns m.sys.cpu.executing s.cpu.executing)
    rw [hexec, turnsAfter_self]
    exact ⟨h.inTurn.current_eq, hidle ▸ h.inTurn.notMem, h.inTurn.created_eq,
      h.inTurn.executing_eq, h.inTurn.nodup⟩
  · obtain ⟨hfresh, hin, -⟩ := hc.fresh h0
    have hcore := core_schedulerAdd s p
    have henv : (schedulerAdd s p).env = s.env := congrArg Core.env hcore
    have hexec' : (schedulerAdd s p).cpu.executing = m.sys.cpu.executing :=
      (congrArg Core.executing hcore).trans hexec
    simp only [if_neg h0]
    refine ⟨_, shows_schedulerAdd hshows h0 fun hmem => hfresh (hwaiting p hmem), ?_, ?_⟩
    · show InTurn idle _ (m.created ++ [p]) (turnsAfter m.turns m.sys.cpu.executing
        (schedulerAdd s p).cpu.executing)
      rw [hexec', turnsAfter_self]
      exact h.inTurn.create (hknown.notMem h0) hidle s.env
    · show ∀ a ∈ idle :: (m.created ++ [p]), a ≠ 0 ∧ a ∈ inUse (schedulerAdd s p).env
      rw [henv, ← List.cons_append]
      intro a ha
      rcases List.mem_append.mp ha with ha | ha
      · exact hknown.kept a ha
      · rw [List.mem_singleton.mp ha]
        exact ⟨h0, hin⟩

/-- Every step keeps the order. -/
theorem inTurn_step (hS : S.Lawful inUse) {e : TurnOp} {t : TurnMachine τ}
    (h : ∃ v, TakesTurns inUse idle m v) (ht : turnStep S m e = some t) :
    ∃ v, TakesTurns inUse idle t v := by
  obtain ⟨v, h⟩ := h
  have hnodup := h.shows.queue.nodup
  cases e with
  | tick esp =>
    obtain rfl := Option.some_inj.mp ht
    exact ⟨_, h.after (shows_schedulerTick h.shows h.placed esp) (h.inTurn.tick hnodup) v.tick_env⟩
  | yield esp =>
    obtain rfl := Option.some_inj.mp ht
    exact ⟨_, h.after (shows_schedulerYield h.shows h.placed esp) (h.inTurn.yield hnodup)
      v.yield_env⟩
  | block esp =>
    obtain rfl := Option.some_inj.mp ht
    exact ⟨_, h.after
      (shows_schedulerBlockCurrent h.shows h.placed.current_ne .blocked (by decide) esp)
      ((h.inTurn.setState _ (by decide)).yield hnodup) (View.yield_env _)⟩
  | exit code esp =>
    obtain rfl := Option.some_inj.mp ht
    exact ⟨_, h.after (shows_sysExit h.shows h.placed.current_ne code esp)
      ((h.inTurn.setState _ (by decide)).yield hnodup) (View.yield_env _)⟩
  | create name entry priority => exact h.create hS ht
  | terminate p code =>
    obtain ⟨hp, rfl⟩ := turnStep_terminate.mp ht
    rw [h.shows.current_eq, h.inTurn.current_eq] at hp
    refine ⟨_, h.after (h.shows.terminate (h.inUse_all p hp).1 code) ?_ rfl⟩
    rw [turnsAfter_self]
    exact h.inTurn.setState p (by decide)

end

theorem takesTurns_boot (hS : S.Lawful inUse) {s : Sys τ}
    (hidle : processGetCurrent (processInit S s) ≠ 0) :
    TakesTurns inUse (processGetCurrent (processInit S s)) (turnBoot S s)
      { (turnBoot S s).sys.core with queue := [] } := by
  refine ⟨⟨⟨rfl, rfl, List.nodup_nil⟩, rfl⟩, ?_, ?_⟩
  · exact ⟨rfl, fun _ => List.not_mem_nil, rfl, rfl, List.nodup_singleton _⟩
  · intro p hp
    obtain rfl := List.mem_singleton.mp hp
    exact ⟨hidle, (processInit_running hS hidle).2⟩

/-! ## The order -/

/-- The processes that have had the processor are the first ones created, each once; those
    that have not are in the ready queue, in the order of creation. The last one to get the
    processor still has it. -/
structure RunsOnce (idle : ℕ) (m : TurnMachine τ) : Prop where
  order : ∃ q, Links m.sys.nextOf m.sys.readyQueueHead q 0 ∧
    m.created = m.turns ++ q.filter (· ≠ idle)
  once : m.turns.Nodup
  idle_never : idle ∉ m.turns
  executing : m.sys.cpu.executing = m.turns.getLastD idle

theorem TakesTurns.runsOnce {idle : ℕ} {m : TurnMachine τ} {v : View τ}
    (h : TakesTurns inUse idle m v) : RunsOnce idle m := by
  have hnodup := (List.nodup_cons.mp h.inTurn.nodup).2
  have hidle := h.inTurn.idle_notMem
  rw [h.inTurn.created_eq] at hnodup hidle
  refine ⟨⟨v.queue, h.shows.queue.links, h.inTurn.created_eq⟩, hnodup.of_append_left,
    fun hmem => hidle (List.mem_append_left _ hmem), ?_⟩
  rw [h.shows.executing_eq, h.inTurn.executing_eq]

/-- **Every process runs at most once**, whatever the order of ticks, yields, waits, exits,
    creations and terminations: in the order of creation, and idle never again. -/
theorem round_robin_runs_once (hS : S.Lawful inUse) (s : Sys τ)
    (hidle : processGetCurrent (processInit S s) ≠ 0) (es : List TurnOp) :
    Along (turnStep S) (RunsOnce (processGetCurrent (processInit S s))) (turnBoot S s) es := by
  refine along_of_invariant
    (fun m => ∃ v, TakesTurns inUse (processGetCurrent (processInit S s)) m v)
    (fun m e t hm ht => inTurn_step hS hm ht) ?_ ⟨_, takesTurns_boot hS hidle⟩ es
  rintro m ⟨v, h⟩
  exact h.runsOnce

/-- Two processes and four yields: the first two switch, and idle, third in the queue, is
    not switched to. -/
theorem round_robin_runs_once_two :
    Along (turnStep bumpServices) (RunsOnce (processGetCurrent (processInit bumpServices coldSys)))
      (turnBoot bumpServices coldSys)
      [.create (cstr "worker_a") 0x101000 1, .create (cstr "worker_b") 0x101040 1, .yield 0x9000,
        .yield 0x8000, .yield 0x7000, .yield 0x7000] :=
  round_robin_runs_once lawful_bumpServices coldSys (by decide +kernel) _

end NexusKernel.Process
