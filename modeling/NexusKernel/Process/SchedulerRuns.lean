import NexusKernel.Common.Run
import NexusKernel.Process.SchedulerView

/-!
# Runs of the scheduler

After boot the scheduler is driven by timer ticks, by processes that yield or block,
by wake-ups and by the creation of processes.

Results:
* `schedStep_refines`: a step on the pointers is a step on the view.
* `Conserved`: the invariant that places every process.
* `conserved_step`, `not_located_step`: which steps keep it, and that every other
  step misplaces a process.
* `tracks_schedBoot`: it holds after boot.
-/

namespace NexusKernel.Process

variable {τ : Type} {S : Services τ} {inUse : τ → Set ℕ}

/-! ## Runs -/

/-- The system with the list of idle and every process added so far. -/
structure Machine (τ : Type) where
  sys : Sys τ
  added : List ℕ

/-- What happens to the scheduler. `esp` is the stack pointer of the code that calls
    it; a creation adds the process it made. -/
inductive SchedOp where
  | tick (esp : ℕ)
  | yield (esp : ℕ)
  | block (esp : ℕ)
  | unblock (p : ℕ)
  | create (name : ℕ → Byte) (entry : ℕ) (priority : ℤ)

/-- One step. Only a blocked process is woken up. -/
def schedStep (S : Services τ) (m : Machine τ) : SchedOp → Option (Machine τ)
  | .tick esp => some { m with sys := schedulerTick m.sys esp }
  | .yield esp => some { m with sys := schedulerYield m.sys esp }
  | .block esp => some { m with sys := schedulerBlockCurrent m.sys .blocked esp }
  | .unblock p =>
    if p ∈ m.added ∧ (m.sys.procs p).state = .blocked then
      some { m with sys := schedulerUnblock m.sys p }
    else none
  | .create name entry priority =>
    let (p, s) := processCreate S m.sys name entry priority
    some { sys := schedulerAdd s p, added := if p = 0 then m.added else p :: m.added }

/-- The machine after `process_init` and `scheduler_init`: idle is executing and no
    switch has been made. -/
def schedBoot (S : Services τ) (s : Sys τ) : Machine τ :=
  let s := schedulerInit (processInit S s)
  { sys := { s with cpu := { s.cpu with executing := s.currentProcess }, switches := [] }
    added := [s.currentProcess] }

/-- The same steps on views; `l` lists the processes added. -/
inductive ViewStep : View τ → List ℕ → SchedOp → View τ → List ℕ → Prop
  | tick {v l} (esp) : ViewStep v l (.tick esp) v.tick l
  | yield {v l} (esp) : ViewStep v l (.yield esp) v.yield l
  | block {v l} (esp) : ViewStep v l (.block esp) (v.block .blocked) l
  | unblock {v l p} (hp : p ∈ l) (hb : v.state p = .blocked) :
    ViewStep v l (.unblock p) (v.unblock p) l
  | createFailed {v l st env} (name entry priority) (hst : ∀ q ∈ l, st q = v.state q) :
    ViewStep v l (.create name entry priority) { v with state := st, env := env } l
  | created {v l st env p} (name entry priority) (hp : p ∉ l)
      (hst : ∀ q ∈ l, st q = v.state q) (hready : st p = .ready) :
    ViewStep v l (.create name entry priority)
      { v with state := st, env := env, queue := v.queue ++ [p] } (p :: l)

/-! ## The invariant -/

/-- Where the processes `l` are: one of them is executing, the others are in the queue
    and ready, or blocked. A process other than the current one that executes runs. -/
structure Conserved (v : View τ) (l : List ℕ) : Prop where
  current_mem : v.current ∈ l
  executing_mem : v.executing ∈ l
  subset : ∀ p ∈ v.queue, p ∈ l
  mem_iff : ∀ p ∈ l, p ∈ v.queue ↔ p ≠ v.executing ∧ v.state p ≠ .blocked
  ready : ∀ p ∈ v.queue, v.state p = .ready
  executing_state : v.state v.executing = .running ∨ v.state v.executing = .blocked
  running_of_ne : v.executing ≠ v.current → v.state v.executing = .running
  enabled : v.enabled = true

/-- The machine shows a view with its processes in place, and their records are in
    use. -/
structure Tracks (inUse : τ → Set ℕ) (m : Machine τ) (v : View τ) : Prop where
  shows : Shows m.sys v
  conserved : Conserved v m.added
  inUse_added : ∀ p ∈ m.added, p ≠ 0 ∧ p ∈ inUse m.sys.env

theorem Conserved.executing_notMem {v : View τ} {l : List ℕ} (h : Conserved v l) :
    v.executing ∉ v.queue :=
  fun hmem => ((h.mem_iff _ h.executing_mem).mp hmem).1 rfl

theorem Conserved.not_running {v : View τ} {l : List ℕ} (h : Conserved v l) {p : ℕ} (hp : p ∈ l)
    (hne : p ≠ v.executing) : v.state p ≠ .running := by
  by_cases hb : v.state p = .blocked
  · rw [hb]; decide
  · rw [h.ready p ((h.mem_iff p hp).mpr ⟨hne, hb⟩)]; decide

theorem Tracks.placed {m : Machine τ} {v : View τ} (h : Tracks inUse m v) : v.Placed := by
  refine ⟨(h.inUse_added _ h.conserved.current_mem).1, fun hrun hmem => ?_⟩
  rw [h.conserved.ready _ hmem] at hrun
  exact absurd hrun (by decide)

/-! ## Refinement -/

theorem View.dispatch_env (v : View τ) : v.dispatch.env = v.env := by
  unfold View.dispatch
  split <;> rfl

theorem View.tick_env (v : View τ) : v.tick.env = v.env := by
  unfold View.tick
  split_ifs
  · rfl
  · rfl
  · rfl
  · exact View.dispatch_env _

theorem View.yield_env (v : View τ) : v.yield.env = v.env := by
  unfold View.yield
  split_ifs
  · rfl
  · exact View.dispatch_env _

/-- A creation followed by `scheduler_add` appends the new process, if there is one. -/
theorem create_refines (hS : S.Lawful inUse) {m : Machine τ} {v : View τ} (h : Tracks inUse m v)
    (name : ℕ → Byte) (entry : ℕ) (priority : ℤ) {t : Machine τ}
    (ht : schedStep S m (.create name entry priority) = some t) :
    ∃ v', Shows t.sys v' ∧ ViewStep v m.added (.create name entry priority) v' t.added ∧
      ∀ p ∈ t.added, p ≠ 0 ∧ p ∈ inUse t.sys.env := by
  have hc := created_processCreate hS m.sys name entry priority
  rcases hpc : processCreate S m.sys name entry priority with ⟨p, s⟩
  rw [hpc] at hc
  simp only [schedStep, hpc, Option.some.injEq] at ht
  subst ht
  have hqueue : ∀ a ∈ v.queue, a ∈ inUse m.sys.env :=
    fun a ha => (h.inUse_added a (h.conserved.subset a ha)).2
  have hshows := hc.shows h.shows hqueue
  have hknown := hc.keepsKnown h.inUse_added
  have hst : ∀ q ∈ m.added, s.core.state q = v.state q := by
    intro q hq
    rw [← h.shows.state_eq q, ← hknown.procs_eq q hq]
    rfl
  have henv : (schedulerAdd s p).env = s.env := congrArg Core.env (core_schedulerAdd s p)
  have hadded := hknown.joined
  rw [← henv] at hadded
  by_cases h0 : p = 0
  · simp only [h0, schedulerAdd, if_true] at hadded ⊢
    exact ⟨_, hshows, .createFailed name entry priority hst, hadded⟩
  · obtain ⟨hfresh, -, hready⟩ := hc.fresh h0
    simp only [if_neg h0] at hadded ⊢
    exact ⟨_, shows_schedulerAdd hshows h0 fun hmem => hfresh (hqueue p hmem),
      .created name entry priority (hknown.notMem h0) hst hready, hadded⟩

theorem schedStep_refines (hS : S.Lawful inUse) {m t : Machine τ} {v : View τ} {e : SchedOp}
    (h : Tracks inUse m v) (ht : schedStep S m e = some t) :
    ∃ v', Shows t.sys v' ∧ ViewStep v m.added e v' t.added ∧
      ∀ p ∈ t.added, p ≠ 0 ∧ p ∈ inUse t.sys.env := by
  have hplaced := h.placed
  -- an operation that leaves the services and the list of processes alone
  have hkeep : ∀ {s' : Sys τ} {v' : View τ}, Shows s' v' → v'.env = v.env →
      ∀ p ∈ m.added, p ≠ 0 ∧ p ∈ inUse s'.env := by
    intro s' v' hs' henv p hp
    rw [hs'.env_eq, henv, ← h.shows.env_eq]
    exact h.inUse_added p hp
  cases e with
  | tick esp =>
    obtain rfl := Option.some_inj.mp ht
    have hs := shows_schedulerTick h.shows hplaced esp
    exact ⟨v.tick, hs, .tick esp, hkeep hs v.tick_env⟩
  | yield esp =>
    obtain rfl := Option.some_inj.mp ht
    have hs := shows_schedulerYield h.shows hplaced esp
    exact ⟨v.yield, hs, .yield esp, hkeep hs v.yield_env⟩
  | block esp =>
    obtain rfl := Option.some_inj.mp ht
    have hs := shows_schedulerBlockCurrent h.shows hplaced.current_ne .blocked (by decide) esp
    exact ⟨v.block .blocked, hs, .block esp, hkeep hs (View.yield_env _)⟩
  | unblock p =>
    simp only [schedStep, Option.ite_none_right_eq_some, Option.some.injEq] at ht
    obtain ⟨⟨hp, hb⟩, rfl⟩ := ht
    rw [h.shows.state_eq] at hb
    have hmem : p ∉ v.queue := fun hmem => ((h.conserved.mem_iff p hp).mp hmem).2 hb
    have hs := shows_schedulerUnblock h.shows (h.inUse_added p hp).1 hmem
    exact ⟨v.unblock p, hs, .unblock hp hb, hkeep hs rfl⟩
  | create name entry priority => exact create_refines hS h name entry priority ht

/-! ## Steps that keep every process in place -/

/-- Every process of `l` that can run is either executing or in the queue exactly
    once. -/
def Located (v : View τ) (l : List ℕ) : Prop :=
  ∀ p ∈ l, v.state p ≠ .blocked → v.state p ≠ .terminated →
    v.queue.count p = if p = v.executing then 0 else 1

theorem Conserved.located {v : View τ} {l : List ℕ} (h : Conserved v l)
    (hnodup : v.queue.Nodup) : Located v l := by
  intro p hp hb _
  by_cases hpe : p = v.executing
  · rw [if_pos hpe, hpe]
    exact List.count_eq_zero_of_not_mem h.executing_notMem
  · rw [if_neg hpe]
    exact List.count_eq_one_of_mem hnodup ((h.mem_iff p hp).mpr ⟨hpe, hb⟩)

theorem Conserved.setTicks {v : View τ} {l : List ℕ} (h : Conserved v l) (n : ℕ) :
    Conserved (v.setTicks n) l :=
  ⟨h.current_mem, h.executing_mem, h.subset, h.mem_iff, h.ready, h.executing_state,
    h.running_of_ne, h.enabled⟩

/-- Dispatching from the executing process: it goes to the end of the queue if it
    runs, and the first process of the queue takes its place. -/
theorem Conserved.dispatch {v : View τ} {l : List ℕ} (h : Conserved v l) (hnodup : v.queue.Nodup)
    (heq : v.executing = v.current) : Conserved v.dispatch l := by
  rcases hq : v.queue with _ | ⟨n, q⟩
  · rwa [View.dispatch_nil hq]
  have hcur : v.current ∉ n :: q := by
    rw [← heq, ← hq]
    exact h.executing_notMem
  have hcn : v.current ≠ n := fun hcn => hcur (hcn ▸ List.mem_cons_self)
  have hmem := h.mem_iff
  have hready := h.ready
  have hsub := h.subset
  rw [hq] at hmem hready hsub hnodup
  rw [heq] at hmem
  have hnq : n ∉ q := (List.nodup_cons.mp hnodup).1
  rw [View.dispatch_cons hq]
  have hn : n ∈ l := hsub n List.mem_cons_self
  by_cases hrun : v.state v.current = .running
  · simp only [if_pos hrun, if_neg hcn]
    refine ⟨h.current_mem, hn, ?_, ?_, ?_, .inl (Function.update_self ..),
      fun _ => Function.update_self .., h.enabled⟩
    · intro p hp
      rcases List.mem_append.mp hp with hp | hp
      · exact hsub p (List.mem_cons_of_mem n hp)
      · exact List.mem_singleton.mp hp ▸ h.current_mem
    · intro p hp
      have := hmem p hp
      simp only [List.mem_append, List.mem_cons, Function.update_apply] at this ⊢
      grind
    · intro p hp
      have := hready p
      simp only [List.mem_append, List.mem_cons, Function.update_apply] at hp this ⊢
      grind
  · simp only [if_neg hrun, if_neg hcn]
    have hb : v.state v.current = .blocked := by
      rw [← heq]
      exact h.executing_state.resolve_left (heq ▸ hrun)
    refine ⟨h.current_mem, hn, fun p hp => hsub p (List.mem_cons_of_mem n hp), ?_, ?_,
      .inl (Function.update_self ..), fun _ => Function.update_self .., h.enabled⟩
    · intro p hp
      have := hmem p hp
      simp only [List.mem_cons, Function.update_apply] at this ⊢
      grind
    · intro p hp
      have := hready p
      simp only [List.mem_cons, Function.update_apply] at this ⊢
      grind

/-- Dispatching while another process than the current one executes loses a process:
    the one executing, or the current one if it was first in the queue. -/
theorem not_located_dispatch {v : View τ} {l : List ℕ} (hnodup : v.queue.Nodup)
    (hne : v.queue ≠ []) (hcl : v.current ∈ l) (hel : v.executing ∈ l)
    (heq : v.executing ≠ v.current) (hcur : v.state v.current ≠ .running)
    (hexec : v.state v.executing = .running) (hmem : v.executing ∉ v.queue) :
    ¬ Located v.dispatch l := by
  intro hloc
  obtain ⟨n, q, hq⟩ := List.exists_cons_of_ne_nil hne
  rw [hq] at hnodup hmem
  obtain ⟨hnq, -⟩ := List.nodup_cons.mp hnodup
  obtain ⟨hen, heq'⟩ := not_or.mp (List.mem_cons.not.mp hmem)
  rw [View.dispatch_cons hq] at hloc
  simp only [if_neg hcur] at hloc
  by_cases hcn : v.current = n
  · -- the current process leaves the queue and is marked running, but nothing switches
    have hc := hloc v.current hcl
    simp only [hcn, Function.update_self, if_true] at hc
    rw [List.count_eq_zero_of_not_mem hnq, if_neg (hcn ▸ heq.symm)] at hc
    exact absurd (hc (by decide) (by decide)) (by decide)
  · have he := hloc v.executing hel
    simp only [if_neg hcn, Function.update_of_ne hen, hexec, if_neg hen] at he
    rw [List.count_eq_zero_of_not_mem heq'] at he
    exact absurd (he (by decide) (by decide)) (by decide)

/-- The step `e` takes the processor from the process that is executing. -/
def View.SwitchesWell (v : View τ) : SchedOp → Prop
  | .tick _ => v.ticksRemaining = 0 → v.queue ≠ [] → v.queue.head? ≠ some v.current →
    v.executing = v.current
  | .yield _ => v.queue ≠ [] → v.executing = v.current
  | .block _ => v.queue ≠ [] → v.executing = v.current
  | .unblock p => p ≠ v.executing
  | .create _ _ _ => True

theorem Conserved.yield {v : View τ} {l : List ℕ} (h : Conserved v l) (hnodup : v.queue.Nodup)
    (hC : v.queue ≠ [] → v.executing = v.current) : Conserved v.yield l := by
  unfold View.yield
  split_ifs with hnil
  · exact h
  · exact (h.setTicks _).dispatch hnodup (hC hnil)

theorem Conserved.tick {v : View τ} {l : List ℕ} (h : Conserved v l) (hnodup : v.queue.Nodup)
    (hC : v.ticksRemaining = 0 → v.queue ≠ [] → v.queue.head? ≠ some v.current →
      v.executing = v.current) : Conserved v.tick l := by
  unfold View.tick
  split_ifs with hen hticks hhead
  · exact h
  · exact h.setTicks _
  · exact h.setTicks _
  · by_cases hnil : v.queue = []
    · rw [View.dispatch_nil (show (v.setTicks schedulerQuantum).queue = [] from hnil)]
      exact h.setTicks _
    · exact (h.setTicks _).dispatch hnodup (hC (by omega) hnil hhead)

/-- Blocking the process that is executing. -/
theorem Conserved.setBlocked {v : View τ} {l : List ℕ} (h : Conserved v l)
    (heq : v.executing = v.current) :
    Conserved { v with state := Function.update v.state v.current .blocked } l := by
  have hcur : v.current ∉ v.queue := heq ▸ h.executing_notMem
  have hstate : ∀ p, p ≠ v.current → Function.update v.state v.current .blocked p = v.state p :=
    fun p hp => Function.update_of_ne hp _ _
  refine ⟨h.current_mem, h.executing_mem, h.subset, ?_, ?_, .inr ?_, fun hne => absurd heq hne,
    h.enabled⟩
  · intro p hp
    by_cases hpc : p = v.current
    · exact iff_of_false (hpc ▸ hcur) fun hand => hand.1 (hpc.trans heq.symm)
    · show _ ↔ p ≠ v.executing ∧ Function.update v.state v.current .blocked p ≠ .blocked
      rw [hstate p hpc]
      exact h.mem_iff p hp
  · intro p hp
    show Function.update v.state v.current .blocked p = .ready
    rw [hstate p fun hpc => hcur (hpc ▸ hp)]
    exact h.ready p hp
  · show Function.update v.state v.current .blocked v.executing = .blocked
    rw [heq, Function.update_self]

theorem Conserved.block {v : View τ} {l : List ℕ} (h : Conserved v l) (hnodup : v.queue.Nodup)
    (hC : v.queue ≠ [] → v.executing = v.current) : Conserved (v.block .blocked) l := by
  unfold View.block
  by_cases heq : v.executing = v.current
  · exact (h.setBlocked heq).yield hnodup fun _ => heq
  · -- the queue is empty, so the current process, which does not execute, is blocked
    have hnil : v.queue = [] := by
      by_contra hnil
      exact heq (hC hnil)
    have hb : v.state v.current = .blocked := by
      by_contra hb
      have := (h.mem_iff _ h.current_mem).mpr ⟨fun hce => heq hce.symm, hb⟩
      rw [hnil] at this
      exact List.not_mem_nil this
    rw [← hb, Function.update_eq_self]
    exact h.yield hnodup hC

/-- A ready process that was not in the queue joins it. -/
theorem Conserved.enqueue {v : View τ} {l l' : List ℕ} (h : Conserved v l) {p : ℕ}
    {st : ℕ → ProcessState} (env : τ) (hl : ∀ q, q ∈ l' ↔ q = p ∨ q ∈ l)
    (hpe : p ≠ v.executing) (hst : ∀ q ∈ l, q ≠ p → st q = v.state q) (hready : st p = .ready) :
    Conserved { v with state := st, env := env, queue := v.queue ++ [p] } l' := by
  have hexec : st v.executing = v.state v.executing := hst _ h.executing_mem hpe.symm
  have hexec' : st v.executing = .running ∨ st v.executing = .blocked := hexec ▸ h.executing_state
  refine ⟨(hl _).mpr (.inr h.current_mem), (hl _).mpr (.inr h.executing_mem), ?_, ?_, ?_,
    hexec', fun hne => hexec.trans (h.running_of_ne hne), h.enabled⟩
  · intro q hq
    rcases List.mem_append.mp hq with hq | hq
    · exact (hl q).mpr (.inr (h.subset q hq))
    · exact (hl q).mpr (.inl (List.mem_singleton.mp hq))
  · intro q hq
    by_cases hqp : q = p
    · have hb : st q ≠ .blocked := by
        rw [hqp, hready]
        decide
      exact iff_of_true (List.mem_append_right _ (List.mem_singleton.mpr hqp)) ⟨hqp ▸ hpe, hb⟩
    · have hql : q ∈ l := ((hl q).mp hq).resolve_left hqp
      show q ∈ v.queue ++ [p] ↔ q ≠ v.executing ∧ st q ≠ .blocked
      rw [hst q hql hqp, ← h.mem_iff q hql, List.mem_append, List.mem_singleton,
        or_iff_left hqp]
  · intro q hq
    by_cases hqp : q = p
    · exact hqp ▸ hready
    · have hmem : q ∈ v.queue := (List.mem_append.mp hq).resolve_right (by simpa using hqp)
      exact (hst q (h.subset q hmem) hqp).trans (h.ready q hmem)

theorem Conserved.congr_state {v : View τ} {l : List ℕ} (h : Conserved v l)
    {st : ℕ → ProcessState} (env : τ) (hst : ∀ q ∈ l, st q = v.state q) :
    Conserved { v with state := st, env := env } l := by
  have hexec : st v.executing = v.state v.executing := hst _ h.executing_mem
  have hexec' : st v.executing = .running ∨ st v.executing = .blocked := hexec ▸ h.executing_state
  refine ⟨h.current_mem, h.executing_mem, h.subset, fun q hq => ?_,
    fun q hq => (hst q (h.subset q hq)).trans (h.ready q hq), hexec',
    fun hne => hexec.trans (h.running_of_ne hne), h.enabled⟩
  show q ∈ v.queue ↔ q ≠ v.executing ∧ st q ≠ .blocked
  rw [hst q hq]
  exact h.mem_iff q hq

/-- Every step that switches from the executing process keeps the processes in
    place. -/
theorem conserved_step {v v' : View τ} {l l' : List ℕ} {e : SchedOp} (h : Conserved v l)
    (hnodup : v.queue.Nodup) (hstep : ViewStep v l e v' l') (hC : v.SwitchesWell e) :
    Conserved v' l' := by
  cases hstep with
  | tick esp => exact h.tick hnodup hC
  | yield esp => exact h.yield hnodup hC
  | block esp => exact h.block hnodup hC
  | unblock hp hb =>
    refine h.enqueue v.env (fun q => ?_) hC (fun q _ hqp => Function.update_of_ne hqp _ _)
      (Function.update_self ..)
    exact (or_iff_right_of_imp fun hqp => hqp ▸ hp).symm
  | createFailed name entry priority hst => exact h.congr_state _ hst
  | created name entry priority hp hst hready =>
    refine h.enqueue _ (fun q => List.mem_cons) ?_ (fun q hq _ => hst q hq) hready
    exact fun hpe => hp (hpe ▸ h.executing_mem)

/-- Every other step loses a process or puts one in two places. -/
theorem not_located_step {v v' : View τ} {l l' : List ℕ} {e : SchedOp} (h : Conserved v l)
    (hnodup : v.queue.Nodup) (hstep : ViewStep v l e v' l') (hC : ¬ v.SwitchesWell e) :
    ¬ Located v' l' := by
  cases hstep with
  | tick esp =>
    simp only [View.SwitchesWell, Classical.not_imp] at hC
    obtain ⟨hticks, hne, hhead, heq⟩ := hC
    rw [View.tick, if_neg (by rw [h.enabled]; decide), if_neg (by omega), if_neg hhead]
    exact not_located_dispatch hnodup hne h.current_mem h.executing_mem heq
      (h.not_running h.current_mem (Ne.symm heq)) (h.running_of_ne heq) h.executing_notMem
  | yield esp =>
    simp only [View.SwitchesWell, Classical.not_imp] at hC
    obtain ⟨hne, heq⟩ := hC
    rw [View.yield, if_neg hne]
    exact not_located_dispatch hnodup hne h.current_mem h.executing_mem heq
      (h.not_running h.current_mem (Ne.symm heq)) (h.running_of_ne heq) h.executing_notMem
  | block esp =>
    simp only [View.SwitchesWell, Classical.not_imp] at hC
    obtain ⟨hne, heq⟩ := hC
    rw [View.block, View.yield, if_neg hne]
    refine not_located_dispatch hnodup hne h.current_mem h.executing_mem heq ?_ ?_
      h.executing_notMem
    · show Function.update v.state v.current .blocked v.current ≠ .running
      rw [Function.update_self]
      decide
    · show Function.update v.state v.current .blocked v.executing = .running
      rw [Function.update_of_ne heq]
      exact h.running_of_ne heq
  | @unblock p hp hb =>
    -- the executing process is put in the queue as well
    simp only [View.SwitchesWell, not_not] at hC
    intro hloc
    have hstate : (v.unblock p).state p = .ready := Function.update_self ..
    have hcount := hloc p hp (by rw [hstate]; decide) (by rw [hstate]; decide)
    rw [if_pos (show p = (v.unblock p).executing from hC)] at hcount
    exact List.count_eq_zero.mp hcount (List.mem_append_right v.queue List.mem_cons_self)
  | createFailed => exact absurd trivial hC
  | created => exact absurd trivial hC

/-! ## Boot -/

/-- After boot the queue is empty and idle, the current process, is executing. -/
def bootView (S : Services τ) (s : Sys τ) : View τ := { (schedBoot S s).sys.core with queue := [] }

theorem tracks_schedBoot (hS : S.Lawful inUse) {s : Sys τ}
    (hidle : processGetCurrent (processInit S s) ≠ 0) :
    Tracks inUse (schedBoot S s) (bootView S s) := by
  obtain ⟨hrun, hin⟩ := processInit_running hS hidle
  refine ⟨⟨⟨rfl, rfl, List.nodup_nil⟩, rfl⟩, ?_, ?_⟩
  · refine ⟨List.mem_cons_self, List.mem_cons_self, ?_, ?_, ?_, .inl hrun, fun _ => hrun, rfl⟩
    · exact fun p hp => absurd hp List.not_mem_nil
    · intro p hp
      exact iff_of_false List.not_mem_nil fun hand => hand.1 (List.mem_singleton.mp hp)
    · exact fun p hp => absurd hp List.not_mem_nil
  · intro p hp
    obtain rfl := List.mem_singleton.mp hp
    exact ⟨hidle, hin⟩

end NexusKernel.Process
