import NexusKernel.Process.ReadyQueue

/-!
# Wake-ups and the ready queue

`scheduler_unblock` adds a process to the queue whatever its state, and a process has
one `next` field only. Adding a process that waits already cuts the queue off behind
it; adding the last process of the queue links it to itself.

Results:
* `queue_schedulerAdd_of_ne_tail`: adding any process but the last one leaves a
  well-formed queue, cut off at that process if it was waiting.
* `not_links_schedulerAdd_tail`: adding the last process closes a cycle.
* `ready_queue_wellformed_iff`: the runs that keep the queue well formed.
-/

namespace NexusKernel.Process

variable {τ : Type} {S : Services τ} {inUse : τ → Set ℕ}

/-! ## Adding a process that waits already -/

/-- A node that points to itself is never left. -/
theorem not_links_of_loop {next : ℕ → ℕ} {p : ℕ} (hp : next p = p) :
    ∀ {q l : List ℕ} {h : ℕ}, Links next h (l ++ [p]) p → ¬ Links next h q 0 := by
  intro q
  induction q with
  | nil =>
    intro l h hl h0
    obtain rfl : h = 0 := h0
    cases l with
    | nil => exact hl.2.1 hl.1.symm
    | cons b l => exact hl.2.1 hl.1.symm
  | cons a q ih =>
    intro l h hl hq
    obtain ⟨rfl, ha, hq⟩ := hq
    cases l with
    | nil =>
      obtain rfl : h = p := hl.1
      exact ih (l := []) ⟨hp, ha, hp⟩ hq
    | cons b l =>
      obtain ⟨rfl, -, hl⟩ := hl
      exact ih hl hq

/-- Adding a process other than the last: the queue ends behind its first occurrence. -/
theorem queue_schedulerAdd_of_ne_tail {s : Sys τ} {q : List ℕ} (hq : Queue s q) {p : ℕ}
    (h0 : p ≠ 0) (hp : p ≠ s.readyQueueTail) :
    Queue (schedulerAdd s p) (q.takeWhile (· ≠ p) ++ [p]) := by
  by_cases hmem : p ∈ q
  · obtain ⟨l, m, rfl⟩ := List.append_of_mem hmem
    have hpl : p ∉ l := fun hin => (List.nodup_append.mp hq.nodup).2.2 p hin p List.mem_cons_self rfl
    have hhead : s.readyQueueHead ≠ 0 := by
      rw [Ne, hq.head_eq_zero_iff]
      simp
    have htake : (l ++ p :: m).takeWhile (· ≠ p) = l := by
      rw [List.takeWhile_append_of_pos, List.takeWhile_cons_of_neg (by simp), List.append_nil]
      intro a ha
      simpa using fun hap : a = p => hpl (hap ▸ ha)
    have htail : s.readyQueueTail ∉ l := by
      intro hin
      have hlast : s.readyQueueTail = (p :: m).getLast (List.cons_ne_nil p m) := by
        rw [hq.tail_eq, List.getLast?_append_of_ne_nil _ (List.cons_ne_nil p m),
          List.getLast?_eq_some_getLast (List.cons_ne_nil p m), Option.getD_some]
      exact (List.nodup_append.mp hq.nodup).2.2 _ hin _ (List.getLast_mem _) hlast
    obtain ⟨x, hl, rfl, -, -⟩ := links_append.mp hq.links
    rw [htake, schedulerAdd_of_ne h0 hhead]
    refine ⟨?_, by simp, ?_⟩
    · show Links ((s.setNext x 0).setNext s.readyQueueTail x).nextOf s.readyQueueHead (l ++ [x]) 0
      rw [nextOf_setNext, nextOf_setNext]
      refine links_append.mpr ⟨x, (hl.update hpl).update htail, rfl, h0, ?_⟩
      show Function.update (Function.update s.nextOf x 0) s.readyQueueTail x x = 0
      rw [Function.update_of_ne hp, Function.update_self]
    · rw [← List.concat_eq_append]
      exact (List.nodup_append.mp hq.nodup).1.concat hpl
  · have hall : q.takeWhile (· ≠ p) = q := by
      rw [List.takeWhile_eq_self_iff]
      intro a ha
      simpa using fun hap : a = p => hmem (hap ▸ ha)
    rw [hall]
    exact queue_schedulerAdd hq h0 hmem

/-- Adding the last process links it to itself: the list from the head never ends. -/
theorem not_links_schedulerAdd_tail {s : Sys τ} {q : List ℕ} (hq : Queue s q) {p : ℕ}
    (h0 : p ≠ 0) (hp : p = s.readyQueueTail) (q' : List ℕ) :
    ¬ Links (schedulerAdd s p).nextOf (schedulerAdd s p).readyQueueHead q' 0 := by
  have hne : q ≠ [] := by
    intro hnil
    exact h0 (hp.trans (hq.tail_eq_zero_iff.mpr hnil))
  have hhead : s.readyQueueHead ≠ 0 := fun hhead => hne (hq.head_eq_zero_iff.mp hhead)
  obtain ⟨l, t, hlt⟩ := q.eq_nil_or_concat.resolve_left hne
  rw [List.concat_eq_append] at hlt
  subst hlt
  obtain rfl : p = t := hp.trans (by simpa using hq.tail_eq)
  have ht : p ∉ l := List.disjoint_singleton.mp (List.disjoint_of_nodup_append hq.nodup)
  rw [schedulerAdd_of_ne h0 hhead]
  show ¬ Links ((s.setNext p 0).setNext s.readyQueueTail p).nextOf s.readyQueueHead q' 0
  rw [nextOf_setNext, nextOf_setNext, ← hp, Function.update_idem]
  exact not_links_of_loop (Function.update_self ..) (links_update_last hq.links ht)

/-! ## Dispatching -/

/-- The current process, marked running, is the last of the queue that is left when the
    head is taken. -/
def RequeuesTail (s : Sys τ) : Prop :=
  Readds s ∧ processGetCurrent s = (popHead s s.readyQueueHead).readyQueueTail

theorem tail_popHead (s : Sys τ) (n : ℕ) :
    (popHead s n).readyQueueTail = if (s.procs n).next = 0 then 0 else s.readyQueueTail := by
  by_cases h : (s.procs n).next = 0
  · rw [popHead_of_empty h, if_pos h]
  · rw [popHead_of_ne h, if_neg h]

theorem requeuesTail_setTicks_iff (s : Sys τ) (n : ℕ) :
    RequeuesTail (s.setTicks n) ↔ RequeuesTail s := by
  rw [RequeuesTail, RequeuesTail, tail_popHead, tail_popHead]
  exact Iff.rfl

/-- A dispatch that does not requeue the tail leaves a queue of processes that were in it,
    and the current one. -/
theorem exists_queue_dispatch {s : Sys τ} {q : List ℕ} (hq : Queue s q)
    (hcur : processGetCurrent s ≠ 0) (hhead : s.readyQueueHead ≠ 0) (hC : ¬ RequeuesTail s)
    (esp : ℕ) : ∃ q', Queue (dispatch s (processGetCurrent s) s.readyQueueHead esp) q' ∧
      ∀ p ∈ q', p ∈ q ∨ p = processGetCurrent s := by
  obtain ⟨n, q, rfl⟩ := List.exists_cons_of_ne_nil fun h => hhead (hq.head_eq_zero_iff.mpr h)
  have hn : s.readyQueueHead = n := hq.links.1
  have hpop := queue_popHead hq
  simp only [queue_dispatch_iff, hn]
  by_cases hrun : Readds s
  · have hne : processGetCurrent s ≠ (popHead s n).readyQueueTail := fun heq => hC ⟨hrun, hn ▸ heq⟩
    rw [requeue_popHead_of_running n hrun]
    refine ⟨_, queue_schedulerAdd_of_ne_tail (hpop.setState _ _) hcur hne, ?_⟩
    intro p hp
    rcases List.mem_append.mp hp with hp | hp
    · exact .inl (List.mem_cons_of_mem n (List.takeWhile_subset _ hp))
    · exact .inr (List.mem_singleton.mp hp)
  · rw [requeue_popHead_of_not n hrun]
    exact ⟨q, hpop, fun p hp => .inl (List.mem_cons_of_mem n hp)⟩

/-- A dispatch that requeues the tail closes a cycle. -/
theorem not_queue_dispatch {s : Sys τ} {q : List ℕ} (hq : Queue s q)
    (hcur : processGetCurrent s ≠ 0) (hhead : s.readyQueueHead ≠ 0) (hC : RequeuesTail s)
    (esp : ℕ) (q' : List ℕ) :
    ¬ Queue (dispatch s (processGetCurrent s) s.readyQueueHead esp) q' := by
  obtain ⟨n, q, rfl⟩ := List.exists_cons_of_ne_nil fun h => hhead (hq.head_eq_zero_iff.mpr h)
  have hn : s.readyQueueHead = n := hq.links.1
  obtain ⟨hrun, htail⟩ := hC
  rw [hn] at htail ⊢
  have hpop := (queue_popHead hq).setState (processGetCurrent s) .ready
  rw [queue_dispatch_iff, requeue_popHead_of_running n hrun]
  exact fun hq' => not_links_schedulerAdd_tail hpop hcur htail q' hq'.links

/-! ## Runs -/

/-- The system with the processes created so far and those handed to `scheduler_add`. -/
structure WakeMachine (τ : Type) where
  sys : Sys τ
  created : List ℕ
  added : List ℕ

/-- The calls; `fuel` bounds the loop of `scheduler_remove`. -/
inductive WakeOp where
  | create (name : ℕ → Byte) (entry : ℕ) (priority : ℤ)
  | add (p : ℕ)
  | remove (p fuel : ℕ)
  | tick (esp : ℕ)
  | yield (esp : ℕ)
  | block (reason : ProcessState) (esp : ℕ)
  | unblock (p : ℕ)

/-- One call. A created process is added once; any process can be removed or woken up
    at any time. -/
def wakeStep (S : Services τ) (m : WakeMachine τ) : WakeOp → Option (WakeMachine τ)
  | .create name entry priority =>
    let (p, s) := processCreate S m.sys name entry priority
    some { m with sys := s, created := if p = 0 then m.created else p :: m.created }
  | .add p =>
    if p ∈ m.created ∧ p ∉ m.added then
      some { m with sys := schedulerAdd m.sys p, added := p :: m.added }
    else none
  | .remove p fuel =>
    if p ∈ m.created then
      (schedulerRemove fuel m.sys p).map fun s => { m with sys := s }
    else none
  | .tick esp => some { m with sys := schedulerTick m.sys esp }
  | .yield esp => some { m with sys := schedulerYield m.sys esp }
  | .block reason esp => some { m with sys := schedulerBlockCurrent m.sys reason esp }
  | .unblock p =>
    if p ∈ m.created then some { m with sys := schedulerUnblock m.sys p } else none

/-- The machine after `process_init` and `scheduler_init`. -/
def wakeBoot (S : Services τ) (s : Sys τ) : WakeMachine τ :=
  let s := schedulerInit (processInit S s)
  { sys := s
    created := if s.currentProcess = 0 then [] else [s.currentProcess]
    added := [] }

/-- The list from `ready_queue_head` ends, holds every process at most once, and ends at
    `ready_queue_tail`. -/
def WellFormedQueue (m : WakeMachine τ) : Prop := ∃ q, Queue m.sys q

/-- The call does not add the last process of the queue to the queue. -/
def AddsNoTail (m : WakeMachine τ) : WakeOp → Prop
  | .create _ _ _ => True
  | .add p => p ≠ m.sys.readyQueueTail
  | .remove _ _ => True
  | .tick _ => TickDispatches m.sys → ¬ RequeuesTail m.sys
  | .yield _ => YieldDispatches m.sys → ¬ RequeuesTail m.sys
  | .block reason _ => YieldDispatches m.sys →
    ¬ RequeuesTail (m.sys.setState (processGetCurrent m.sys) reason)
  | .unblock p => p ≠ m.sys.readyQueueTail

/-- The invariant: a queue of created processes, whose records are in use. -/
structure Linked (inUse : τ → Set ℕ) (m : WakeMachine τ) (q : List ℕ) : Prop where
  queue : Queue m.sys q
  subset : ∀ p ∈ q, p ∈ m.created
  inUse_created : ∀ p ∈ m.created, p ≠ 0 ∧ p ∈ inUse m.sys.env
  current : processGetCurrent m.sys = 0 ∨ processGetCurrent m.sys ∈ m.created

/-- A change of the queue that leaves the services and the current process alone. -/
theorem Linked.of_core {m : WakeMachine τ} {q : List ℕ} (h : Linked inUse m q) {s : Sys τ}
    {added : List ℕ} (henv : s.env = m.sys.env)
    (hcur : processGetCurrent s = processGetCurrent m.sys) {q' : List ℕ} (hq : Queue s q')
    (hsub : ∀ p ∈ q', p ∈ m.created) :
    Linked inUse { m with sys := s, added := added } q' :=
  ⟨hq, hsub, fun p hp => henv ▸ h.inUse_created p hp, hcur ▸ h.current⟩

theorem Linked.dispatch {m : WakeMachine τ} {q : List ℕ} (h : Linked inUse m q) {s : Sys τ}
    (henv : s.env = m.sys.env) (hcur : processGetCurrent s = processGetCurrent m.sys)
    (hq : Queue s q) (hd : YieldDispatches s) (hC : ¬ RequeuesTail s) (esp : ℕ) :
    ∃ q', Linked inUse
      { m with sys := dispatch s (processGetCurrent s) s.readyQueueHead esp } q' := by
  obtain ⟨q', hq', hsub⟩ := exists_queue_dispatch hq hd.1 hd.2 hC esp
  have hcore := core_dispatch s (processGetCurrent s) s.readyQueueHead esp
  refine ⟨q', h.of_core ?_ ?_ hq' ?_⟩
  · exact (congrArg Core.env hcore).trans henv
  · exact (congrArg Core.current hcore).trans hcur
  · intro p hp
    rcases hsub p hp with hp | rfl
    · exact h.subset p hp
    · rw [hcur]
      exact h.current.resolve_left (hcur ▸ hd.1)

/-- A yield of the machine, or of the machine after its current process changed state. -/
theorem Linked.yield {m : WakeMachine τ} {q : List ℕ} (h : Linked inUse m q) {s : Sys τ}
    (henv : s.env = m.sys.env) (hcur : processGetCurrent s = processGetCurrent m.sys)
    (hq : Queue s q) (hC : YieldDispatches s → ¬ RequeuesTail s) (esp : ℕ) :
    ∃ q', Linked inUse { m with sys := schedulerYield s esp } q' := by
  by_cases hd : YieldDispatches s
  · rw [schedulerYield_of_dispatches hd]
    rw [← requeuesTail_setTicks_iff s schedulerQuantum] at hC
    exact h.dispatch (s := s.setTicks schedulerQuantum) henv hcur (hq.setTicks _) hd (hC hd) esp
  · rw [schedulerYield_of_not hd]
    exact ⟨q, h.of_core henv hcur hq h.subset⟩

theorem Linked.add {m : WakeMachine τ} {q : List ℕ} (h : Linked inUse m q) {s : Sys τ}
    {added : List ℕ} (henv : s.env = m.sys.env)
    (hcur : processGetCurrent s = processGetCurrent m.sys) (hq : Queue s q) {p : ℕ}
    (hp : p ∈ m.created) (hC : p ≠ s.readyQueueTail) :
    ∃ q', Linked inUse { m with sys := schedulerAdd s p, added := added } q' := by
  have hadd := queue_schedulerAdd_of_ne_tail hq (h.inUse_created p hp).1 hC
  have hcore := core_schedulerAdd s p
  refine ⟨_, h.of_core ?_ ?_ hadd ?_⟩
  · exact (congrArg Core.env hcore).trans henv
  · exact (congrArg Core.current hcore).trans hcur
  · intro a ha
    rcases List.mem_append.mp ha with ha | ha
    · exact h.subset a (List.takeWhile_subset _ ha)
    · exact List.mem_singleton.mp ha ▸ hp

theorem Linked.create (hS : S.Lawful inUse) {m t : WakeMachine τ} {q : List ℕ}
    (h : Linked inUse m q) {name : ℕ → Byte} {entry : ℕ} {priority : ℤ}
    (ht : wakeStep S m (.create name entry priority) = some t) : Linked inUse t q := by
  have hc := created_processCreate hS m.sys name entry priority
  rcases hpc : processCreate S m.sys name entry priority with ⟨p, s⟩
  simp only [hpc] at hc
  simp only [wakeStep, hpc, Option.some.injEq] at ht
  subst ht
  have hqueue : Queue s q :=
    hc.queue h.queue fun a ha => (h.inUse_created a (h.subset a ha)).2
  have hknown := hc.keepsKnown h.inUse_created
  have hcur : processGetCurrent s = processGetCurrent m.sys := by
    rw [processGetCurrent, hc.rest_eq]
    rfl
  refine ⟨hqueue, fun a ha => hknown.subset (h.subset a ha), hknown.joined, ?_⟩
  rw [hcur]
  exact h.current.imp_right fun hmem => hknown.subset hmem

/-- A call that does not add the last process keeps the queue well formed. -/
theorem linked_wakeStep (hS : S.Lawful inUse) {m t : WakeMachine τ} {q : List ℕ} {e : WakeOp}
    (h : Linked inUse m q) (hC : AddsNoTail m e) (ht : wakeStep S m e = some t) :
    ∃ q', Linked inUse t q' := by
  cases e with
  | create name entry priority => exact ⟨q, h.create hS ht⟩
  | add p =>
    rw [wakeStep, Option.ite_none_right_eq_some] at ht
    obtain ⟨⟨hp, -⟩, ht⟩ := ht
    obtain rfl := Option.some_inj.mp ht
    exact h.add rfl rfl h.queue hp hC
  | remove p fuel =>
    rw [wakeStep, Option.ite_none_right_eq_some, Option.map_eq_some_iff] at ht
    obtain ⟨hp, s, hs, rfl⟩ := ht
    obtain ⟨hqueue, hcore⟩ := queue_of_schedulerRemove h.queue hs
    refine ⟨_, h.of_core ?_ ?_ hqueue fun a ha => h.subset a (List.mem_of_mem_erase ha)⟩
    · exact congrArg Core.env hcore
    · exact congrArg Core.current hcore
  | tick esp =>
    obtain rfl := Option.some_inj.mp ht
    by_cases hd : TickDispatches m.sys
    · rw [schedulerTick_of_dispatches hd]
      have hC' := hC hd
      rw [← requeuesTail_setTicks_iff m.sys schedulerQuantum] at hC'
      exact h.dispatch (s := m.sys.setTicks schedulerQuantum) rfl rfl (h.queue.setTicks _)
        ⟨hd.2.2.1, hd.2.2.2.1⟩ hC' esp
    · obtain ⟨n, hn⟩ := schedulerTick_of_not hd esp
      rw [hn]
      exact ⟨q, h.of_core (s := m.sys.setTicks n) rfl rfl (h.queue.setTicks n) h.subset⟩
  | yield esp =>
    obtain rfl := Option.some_inj.mp ht
    exact h.yield rfl rfl h.queue hC esp
  | block reason esp =>
    obtain rfl := Option.some_inj.mp ht
    by_cases hcur : processGetCurrent m.sys = 0
    · rw [show schedulerBlockCurrent m.sys reason esp = m.sys from if_pos hcur]
      exact ⟨q, h⟩
    · rw [show schedulerBlockCurrent m.sys reason esp = schedulerYield _ esp from if_neg hcur]
      exact h.yield (s := m.sys.setState _ reason) rfl rfl (h.queue.setState _ _) hC esp
  | unblock p =>
    rw [wakeStep, Option.ite_none_right_eq_some] at ht
    obtain ⟨hp, ht⟩ := ht
    obtain rfl := Option.some_inj.mp ht
    rw [schedulerUnblock, if_neg (h.inUse_created p hp).1]
    exact h.add (s := m.sys.setState p .ready) rfl rfl (h.queue.setState p .ready) hp hC

/-- A call that adds the last process closes a cycle. -/
theorem not_wellFormed_wakeStep {m t : WakeMachine τ} {q : List ℕ} {e : WakeOp}
    (h : Linked inUse m q) (hC : ¬ AddsNoTail m e) (ht : wakeStep S m e = some t) :
    ¬ WellFormedQueue t := by
  rintro ⟨q', hq'⟩
  cases e with
  | create name entry priority => exact hC trivial
  | add p =>
    rw [wakeStep, Option.ite_none_right_eq_some] at ht
    obtain ⟨⟨hp, -⟩, ht⟩ := ht
    obtain rfl := Option.some_inj.mp ht
    exact not_links_schedulerAdd_tail h.queue (h.inUse_created p hp).1 (not_not.mp hC) q' hq'.links
  | remove p fuel => exact hC trivial
  | tick esp =>
    obtain rfl := Option.some_inj.mp ht
    obtain ⟨hd, hreq⟩ := Classical.not_imp.mp hC
    rw [not_not, ← requeuesTail_setTicks_iff m.sys schedulerQuantum] at hreq
    rw [schedulerTick_of_dispatches hd] at hq'
    exact not_queue_dispatch (h.queue.setTicks schedulerQuantum) hd.2.2.1 hd.2.2.2.1 hreq esp q' hq'
  | yield esp =>
    obtain rfl := Option.some_inj.mp ht
    obtain ⟨hd, hreq⟩ := Classical.not_imp.mp hC
    rw [not_not, ← requeuesTail_setTicks_iff m.sys schedulerQuantum] at hreq
    rw [schedulerYield_of_dispatches hd] at hq'
    exact not_queue_dispatch (h.queue.setTicks schedulerQuantum) hd.1 hd.2 hreq esp q' hq'
  | block reason esp =>
    obtain rfl := Option.some_inj.mp ht
    obtain ⟨hd, hreq⟩ := Classical.not_imp.mp hC
    rw [not_not, ← requeuesTail_setTicks_iff _ schedulerQuantum] at hreq
    have hd' : YieldDispatches (m.sys.setState (processGetCurrent m.sys) reason) := hd
    rw [show schedulerBlockCurrent m.sys reason esp = schedulerYield _ esp from if_neg hd.1,
      schedulerYield_of_dispatches hd'] at hq'
    exact not_queue_dispatch ((h.queue.setState _ _).setTicks schedulerQuantum) hd.1 hd.2 hreq esp
      q' hq'
  | unblock p =>
    rw [wakeStep, Option.ite_none_right_eq_some] at ht
    obtain ⟨hp, ht⟩ := ht
    obtain rfl := Option.some_inj.mp ht
    rw [schedulerUnblock, if_neg (h.inUse_created p hp).1] at hq'
    exact not_links_schedulerAdd_tail (h.queue.setState p .ready) (h.inUse_created p hp).1
      (not_not.mp hC) q' hq'.links

theorem linked_wakeBoot (hS : S.Lawful inUse) (s : Sys τ) : Linked inUse (wakeBoot S s) [] := by
  refine ⟨⟨rfl, rfl, List.nodup_nil⟩, fun p hp => absurd hp List.not_mem_nil, ?_, ?_⟩
  · intro p hp
    show p ≠ 0 ∧ p ∈ inUse (processInit S s).env
    by_cases h0 : (processInit S s).currentProcess = 0
    · rw [show (wakeBoot S s).created = [] from if_pos h0] at hp
      exact absurd hp List.not_mem_nil
    · rw [show (wakeBoot S s).created = [(processInit S s).currentProcess] from if_neg h0] at hp
      obtain rfl := List.mem_singleton.mp hp
      exact ⟨h0, (processInit_running hS h0).2⟩
  · by_cases h0 : (processInit S s).currentProcess = 0
    · exact .inl h0
    · rw [show (wakeBoot S s).created = [(processInit S s).currentProcess] from if_neg h0]
      exact .inr List.mem_cons_self

/-- **The ready queue stays well formed** along a run exactly if no call of the run adds
    the process at the tail of the queue. -/
theorem ready_queue_wellformed_iff (hS : S.Lawful inUse) (s : Sys τ) {es : List WakeOp}
    {u : WakeMachine τ} (hrun : run (wakeStep S) (wakeBoot S s) es = some u) :
    Along (wakeStep S) WellFormedQueue (wakeBoot S s) es ↔
      Meets (wakeStep S) AddsNoTail (wakeBoot S s) es := by
  refine along_iff_meets (fun m => ∃ q, Linked inUse m q) ?_ ?_ ?_ ⟨[], linked_wakeBoot hS s⟩ hrun
  · intro m ⟨q, h⟩
    exact ⟨q, h.queue⟩
  · intro m e t ⟨q, h⟩ hC ht
    exact linked_wakeStep hS h hC ht
  · intro m e t ⟨q, h⟩ hC ht
    exact not_wellFormed_wakeStep h hC ht

/-- Two processes are created and added, and the first is woken up while it waits: the
    second is lost, but the queue is well formed. -/
def wakeFirst : List WakeOp :=
  [.create (cstr "worker_a") 0x101000 1, .create (cstr "worker_b") 0x101040 1, .add 8364,
    .add 16727, .unblock 8364]

theorem ready_queue_wellformed_iff_wakeFirst :
    Along (wakeStep bumpServices) WellFormedQueue (wakeBoot bumpServices coldSys) wakeFirst := by
  have hrun : run (wakeStep bumpServices) (wakeBoot bumpServices coldSys) wakeFirst = some _ := rfl
  refine (ready_queue_wellformed_iff lawful_bumpServices coldSys hrun).mpr ⟨trivial, ?_⟩
  rintro _ ⟨⟩
  refine ⟨trivial, ?_⟩
  rintro _ ⟨⟩
  refine ⟨show 8364 ≠ _ by decide +kernel, ?_⟩
  rintro _ ⟨⟩
  refine ⟨show 16727 ≠ _ by decide +kernel, ?_⟩
  rintro _ ⟨⟩
  exact ⟨show 8364 ≠ _ by decide +kernel, fun _ _ => trivial⟩

/-- A process is created, added and woken up while it waits at the tail: its `next`
    points to itself. -/
theorem second_wakeup_closes_cycle : ∃ u,
    run (wakeStep bumpServices) (wakeBoot bumpServices coldSys)
      [.create (cstr "worker_a") 0x101000 1, .add 8364, .unblock 8364] = some u ∧
    ¬ WellFormedQueue u := by
  refine ⟨_, rfl, ?_⟩
  rintro ⟨q, hq⟩
  refine absurd hq.links (not_links_of_loop (p := 8364) ?_ (l := []) ⟨?_, by decide, ?_⟩)
  · rfl
  · rfl
  · rfl

end NexusKernel.Process
