import NexusKernel.Common.Chain
import NexusKernel.Process.Process

/-!
# The round-robin scheduler (`kernel/process/scheduler.c`)

The ready queue is a list linked through the `next` fields of the process records.
`context_switch` is modelled by its effect: the outgoing context goes to `prev`,
the processor continues in `next`. The value of the stack pointer at that moment
is the running code's business, so every entry point that can switch takes it as
an argument `esp`.

Results:
* `Queue`: the pointers from `ready_queue_head` lead through a list of processes
  to `ready_queue_tail`.
* `queue_schedulerAdd`, `queue_popHead`: adding appends, a dispatch takes the head.
* `queue_dispatch`, `core_dispatch`: what a dispatch does to the queue and to
  everything else.
-/

namespace NexusKernel.Process

variable {τ : Type}

/-! ## Functions -/

/-- `SCHEDULER_QUANTUM` (`scheduler.h`, line 8). -/
def schedulerQuantum : ℕ := 20

/-- `scheduler_init` (lines 13–22). -/
def schedulerInit (s : Sys τ) : Sys τ :=
  { s with
    readyQueueHead := 0, readyQueueTail := 0, ticksRemaining := schedulerQuantum,
    schedulerEnabled := true }

/-- `scheduler_add` (lines 24–38). -/
def schedulerAdd (s : Sys τ) (proc : ℕ) : Sys τ :=
  if proc = 0 then s
  else
    let s := s.setNext proc 0
    if s.readyQueueHead = 0 then { s with readyQueueHead := proc, readyQueueTail := proc }
    else
      let s := s.setNext s.readyQueueTail proc
      { s with readyQueueTail := proc }

/-- The loop of `scheduler_remove` (lines 55–56): from `prev` on, the first process whose
    `next` is `proc`, or `NULL`. At most `fuel` tests of the loop condition. -/
def findPrev (next : ℕ → ℕ) (proc : ℕ) : (fuel prev : ℕ) → Option ℕ
  | 0, _ => none
  | fuel + 1, prev =>
    if prev ≠ 0 ∧ next prev ≠ proc then findPrev next proc fuel (next prev) else some prev

/-- `scheduler_remove` (lines 40–63); `none` if the loop does not end within `fuel`
    tests. -/
def schedulerRemove (fuel : ℕ) (s : Sys τ) (proc : ℕ) : Option (Sys τ) :=
  if proc = 0 then some s
  else if s.readyQueueHead = proc then
    let s := { s with readyQueueHead := (s.procs proc).next }
    let s := if s.readyQueueHead = 0 then { s with readyQueueTail := 0 } else s
    some (s.setNext proc 0)
  else
    match findPrev (fun p => (s.procs p).next) proc fuel s.readyQueueHead with
    | none => none
    | some prev =>
      if prev = 0 then some s
      else
        let s := s.setNext prev (s.procs proc).next
        let s := if s.readyQueueTail = proc then { s with readyQueueTail := prev } else s
        some (s.setNext proc 0)

/-- The outgoing half of `context_switch`: `esp` and the return label go to the
    context of `prev` (lines 82 and 84). -/
def Sys.saveContext (s : Sys τ) (prev esp : ℕ) : Sys τ :=
  s.setProc prev fun p =>
    { p with context := { p.context with esp := esp, eip := s.cpu.switchReturn } }

/-- The incoming half: the stack for interrupts, the directory, the stack pointer and
    the program counter of `next` (lines 70–73, 83 and 85–86). -/
def Sys.loadContext (s : Sys τ) (next : ℕ) : Cpu :=
  { s.cpu with
    executing := next
    esp := (s.procs next).context.esp
    eip := (s.procs next).context.eip
    tssEsp0 := (s.procs next).kernelStack
    currentDirectory :=
      if (s.procs next).pageDirectory ≠ 0 then (s.procs next).pageDirectory
      else s.cpu.currentDirectory }

/-- `context_switch` (lines 65–93), with the stack pointer `esp` it saves. -/
def contextSwitch (s : Sys τ) (prev next esp : ℕ) : Sys τ :=
  let s := { s with switches := (prev, s.cpu.executing) :: s.switches }
  if prev = next then s else { s.saveContext prev esp with cpu := s.loadContext next }

/-- `ready_queue_head = next->next; if (!ready_queue_head) ready_queue_tail = NULL;`
    (lines 121–123 and 143–145). -/
def popHead (s : Sys τ) (next : ℕ) : Sys τ :=
  let s := { s with readyQueueHead := (s.procs next).next }
  if s.readyQueueHead = 0 then { s with readyQueueTail := 0 } else s

/-- What `scheduler_tick` and `scheduler_yield` do with the head `next` of the queue
    (lines 121–131 and 143–153). -/
def dispatch (s : Sys τ) (current next esp : ℕ) : Sys τ :=
  let s := popHead s next
  let s := if (s.procs current).state = .running then
      schedulerAdd (s.setState current .ready) current
    else s
  let s := s.setState next .running
  contextSwitch s current next esp

/-- `ticks_remaining = n`. -/
def Sys.setTicks (s : Sys τ) (n : ℕ) : Sys τ := { s with ticksRemaining := n }

/-- `scheduler_tick` (lines 95–132). -/
def schedulerTick (s : Sys τ) (esp : ℕ) : Sys τ :=
  if s.schedulerEnabled = false then s
  else if s.ticksRemaining > 0 then s.setTicks (s.ticksRemaining - 1)
  else
    let s := s.setTicks schedulerQuantum
    let current := processGetCurrent s
    if current = 0 then s
    else if s.readyQueueHead = 0 then s
    else
      let next := s.readyQueueHead
      if next = current then s else dispatch s current next esp

/-- `scheduler_yield` (lines 134–154). -/
def schedulerYield (s : Sys τ) (esp : ℕ) : Sys τ :=
  let current := processGetCurrent s
  if current = 0 ∨ s.readyQueueHead = 0 then s
  else
    let s := s.setTicks schedulerQuantum
    dispatch s current s.readyQueueHead esp

/-- `scheduler_block_current` (lines 156–164). -/
def schedulerBlockCurrent (s : Sys τ) (reason : ProcessState) (esp : ℕ) : Sys τ :=
  let current := processGetCurrent s
  if current = 0 then s
  else schedulerYield (s.setState current reason) esp

/-- `scheduler_unblock` (lines 166–173). -/
def schedulerUnblock (s : Sys τ) (proc : ℕ) : Sys τ :=
  if proc = 0 then s
  else schedulerAdd (s.setState proc .ready) proc

/-! ## The ready queue -/

/-- The `next` pointers of the records. -/
def Sys.nextOf (s : Sys τ) (p : ℕ) : ℕ := (s.procs p).next

/-- The ready queue is the list `q` of different processes, from head to tail. -/
structure Queue (s : Sys τ) (q : List ℕ) : Prop where
  links : Links s.nextOf s.readyQueueHead q 0
  tail_eq : s.readyQueueTail = q.getLast?.getD 0
  nodup : q.Nodup

theorem Queue.head_eq_zero_iff {s : Sys τ} {q : List ℕ} (hq : Queue s q) :
    s.readyQueueHead = 0 ↔ q = [] := hq.links.eq_nil_iff.symm

theorem Queue.tail_eq_zero_iff {s : Sys τ} {q : List ℕ} (hq : Queue s q) :
    s.readyQueueTail = 0 ↔ q = [] := by
  rw [hq.tail_eq]
  by_cases hnil : q = []
  · simp [hnil]
  · rw [List.getLast?_eq_some_getLast hnil]
    exact iff_of_false (hq.links.ne_zero _ (List.getLast_mem hnil)) hnil

theorem Queue.head_eq {s : Sys τ} {q : List ℕ} (hq : Queue s q) :
    s.readyQueueHead = q.head?.getD 0 := by
  cases q with
  | nil => exact hq.links
  | cons n q => exact hq.links.1

theorem nextOf_setProc (s : Sys τ) (p : ℕ) (f : Proc → Proc) :
    (s.setProc p f).nextOf = Function.update s.nextOf p (f (s.procs p)).next := by
  funext a
  by_cases ha : a = p
  · subst ha; simp [Sys.nextOf, Sys.setProc]
  · simp [Sys.nextOf, Sys.setProc, ha]

theorem nextOf_setNext (s : Sys τ) (p v : ℕ) :
    (s.setNext p v).nextOf = Function.update s.nextOf p v := nextOf_setProc s p _

theorem nextOf_setState (s : Sys τ) (p : ℕ) (v : ProcessState) :
    (s.setState p v).nextOf = s.nextOf := by
  rw [Sys.setState, nextOf_setProc]
  exact Function.update_eq_self p s.nextOf

theorem schedulerAdd_of_empty {s : Sys τ} {proc : ℕ} (h0 : proc ≠ 0)
    (hhead : s.readyQueueHead = 0) : schedulerAdd s proc =
      { s.setNext proc 0 with readyQueueHead := proc, readyQueueTail := proc } :=
  (if_neg h0).trans (if_pos hhead)

theorem schedulerAdd_of_ne {s : Sys τ} {proc : ℕ} (h0 : proc ≠ 0)
    (hhead : s.readyQueueHead ≠ 0) : schedulerAdd s proc =
      { (s.setNext proc 0).setNext s.readyQueueTail proc with readyQueueTail := proc } :=
  (if_neg h0).trans (if_neg hhead)

/-- A creation leaves a queue of records in use alone. -/
theorem Created.queue {inUse : τ → Set ℕ} {s t : Sys τ} {p : ℕ} (hc : Created inUse s p t)
    {q : List ℕ} (hq : Queue s q) (hin : ∀ a ∈ q, a ∈ inUse s.env) : Queue t q := by
  have hhead : t.readyQueueHead = s.readyQueueHead := by rw [hc.rest_eq]
  have htail : t.readyQueueTail = s.readyQueueTail := by rw [hc.rest_eq]
  refine ⟨?_, htail.trans hq.tail_eq, hq.nodup⟩
  rw [hhead]
  apply hq.links.congr
  intro a ha
  exact congrArg Proc.next (hc.eq_of_inUse a (hin a ha))

/-- A queue is read off the `next` pointers, the head and the tail. -/
theorem queue_congr {s t : Sys τ} (hnext : t.nextOf = s.nextOf)
    (hhead : t.readyQueueHead = s.readyQueueHead) (htail : t.readyQueueTail = s.readyQueueTail)
    (q : List ℕ) : Queue t q ↔ Queue s q := by
  constructor
  · intro hq
    exact ⟨hnext ▸ hhead ▸ hq.links, htail ▸ hq.tail_eq, hq.nodup⟩
  · intro hq
    exact ⟨hnext ▸ hhead ▸ hq.links, htail ▸ hq.tail_eq, hq.nodup⟩

theorem queue_setState_iff (s : Sys τ) (p : ℕ) (st : ProcessState) (q : List ℕ) :
    Queue (s.setState p st) q ↔ Queue s q := queue_congr (nextOf_setState s p st) rfl rfl q

theorem Queue.setState {s : Sys τ} {q : List ℕ} (hq : Queue s q) (p : ℕ) (st : ProcessState) :
    Queue (s.setState p st) q := (queue_setState_iff s p st q).mpr hq

/-- `scheduler_add` appends a process that is not queued. -/
theorem queue_schedulerAdd {s : Sys τ} {q : List ℕ} (hq : Queue s q) {proc : ℕ} (h0 : proc ≠ 0)
    (hproc : proc ∉ q) : Queue (schedulerAdd s proc) (q ++ [proc]) := by
  have hnodup : (q ++ [proc]).Nodup := by
    rw [← List.concat_eq_append]
    exact hq.nodup.concat hproc
  by_cases hhead : s.readyQueueHead = 0
  · obtain rfl := hq.head_eq_zero_iff.mp hhead
    rw [schedulerAdd_of_empty h0 hhead]
    refine ⟨⟨rfl, h0, ?_⟩, rfl, hnodup⟩
    show (s.setNext proc 0).nextOf proc = 0
    rw [nextOf_setNext, Function.update_self]
  · -- the queue ends in a last process, the tail
    obtain ⟨l, t, hlt⟩ := q.eq_nil_or_concat.resolve_left fun h => hhead (hq.head_eq_zero_iff.mpr h)
    rw [List.concat_eq_append] at hlt
    subst hlt
    have htail : s.readyQueueTail = t := by simpa using hq.tail_eq
    have ht : t ∉ l := List.disjoint_singleton.mp (List.disjoint_of_nodup_append hq.nodup)
    rw [schedulerAdd_of_ne h0 hhead]
    refine ⟨?_, by simp, hnodup⟩
    show Links ((s.setNext proc 0).setNext s.readyQueueTail proc).nextOf s.readyQueueHead _ 0
    rw [nextOf_setNext, nextOf_setNext, htail]
    exact links_snoc hq.links ht h0 hproc

theorem popHead_of_empty {s : Sys τ} {n : ℕ} (h : (s.procs n).next = 0) :
    popHead s n = { s with readyQueueHead := (s.procs n).next, readyQueueTail := 0 } := if_pos h

theorem popHead_of_ne {s : Sys τ} {n : ℕ} (h : (s.procs n).next ≠ 0) :
    popHead s n = { s with readyQueueHead := (s.procs n).next } := if_neg h

/-- Taking the head off the queue. -/
theorem queue_popHead {s : Sys τ} {n : ℕ} {q : List ℕ} (hq : Queue s (n :: q)) :
    Queue (popHead s n) q := by
  obtain ⟨-, -, hlinks⟩ := hq.links
  by_cases hnil : (s.procs n).next = 0
  · rw [popHead_of_empty hnil]
    obtain rfl := hlinks.eq_nil_iff.mpr hnil
    exact ⟨hlinks, rfl, List.nodup_nil⟩
  · rw [popHead_of_ne hnil]
    refine ⟨hlinks, ?_, (List.nodup_cons.mp hq.nodup).2⟩
    cases q with
    | nil => exact absurd hlinks hnil
    | cons a q => exact hq.tail_eq

/-! ## What queue operations leave alone -/

/-- The part of the state that the queue operations do not touch. -/
structure Core (τ : Type) where
  state : ℕ → ProcessState
  current : ℕ
  executing : ℕ
  switches : List (ℕ × ℕ)
  ticksRemaining : ℕ
  enabled : Bool
  env : τ

def Sys.core (s : Sys τ) : Core τ where
  state p := (s.procs p).state
  current := s.currentProcess
  executing := s.cpu.executing
  switches := s.switches
  ticksRemaining := s.ticksRemaining
  enabled := s.schedulerEnabled
  env := s.env

theorem core_setProc (s : Sys τ) (p : ℕ) (f : Proc → Proc) :
    (s.setProc p f).core =
      { s.core with state := Function.update s.core.state p (f (s.procs p)).state } := by
  have hstate : (s.setProc p f).core.state =
      Function.update s.core.state p (f (s.procs p)).state := by
    funext a
    by_cases ha : a = p
    · subst ha; simp [Sys.core, Sys.setProc]
    · simp [Sys.core, Sys.setProc, ha]
  rw [← hstate]
  rfl

theorem core_setState (s : Sys τ) (p : ℕ) (v : ProcessState) :
    (s.setState p v).core = { s.core with state := Function.update s.core.state p v } :=
  core_setProc s p _

theorem core_setNext (s : Sys τ) (p v : ℕ) : (s.setNext p v).core = s.core := by
  rw [Sys.setNext, core_setProc]
  exact congrArg (fun st => { s.core with state := st }) (Function.update_eq_self p s.core.state)

theorem core_schedulerAdd (s : Sys τ) (proc : ℕ) : (schedulerAdd s proc).core = s.core := by
  by_cases h0 : proc = 0
  · rw [schedulerAdd, if_pos h0]
  · by_cases hhead : s.readyQueueHead = 0
    · rw [schedulerAdd_of_empty h0 hhead]
      exact core_setNext s proc 0
    · rw [schedulerAdd_of_ne h0 hhead]
      exact (core_setNext _ _ _).trans (core_setNext s proc 0)

theorem core_popHead (s : Sys τ) (n : ℕ) : (popHead s n).core = s.core := by
  by_cases hnil : (s.procs n).next = 0
  · rw [popHead_of_empty hnil]; rfl
  · rw [popHead_of_ne hnil]; rfl

/-! ## Switching and dispatching -/

theorem core_saveContext (s : Sys τ) (prev esp : ℕ) : (s.saveContext prev esp).core = s.core := by
  rw [Sys.saveContext, core_setProc]
  exact congrArg (fun st => { s.core with state := st }) (Function.update_eq_self prev s.core.state)

theorem nextOf_saveContext (s : Sys τ) (prev esp : ℕ) :
    (s.saveContext prev esp).nextOf = s.nextOf := by
  rw [Sys.saveContext, nextOf_setProc]
  exact Function.update_eq_self prev s.nextOf

theorem contextSwitch_self (s : Sys τ) (p esp : ℕ) :
    contextSwitch s p p esp = { s with switches := (p, s.cpu.executing) :: s.switches } :=
  if_pos rfl

theorem contextSwitch_of_ne (s : Sys τ) {prev next : ℕ} (h : prev ≠ next) (esp : ℕ) :
    contextSwitch s prev next esp =
      { ({ s with switches := (prev, s.cpu.executing) :: s.switches } : Sys τ).saveContext prev esp
        with cpu := s.loadContext next } := if_neg h

theorem core_contextSwitch (s : Sys τ) (prev next esp : ℕ) :
    (contextSwitch s prev next esp).core =
      { s.core with
        executing := if prev = next then s.core.executing else next
        switches := (prev, s.core.executing) :: s.core.switches } := by
  by_cases heq : prev = next
  · subst heq
    rw [contextSwitch_self, if_pos rfl]
    rfl
  · rw [contextSwitch_of_ne s heq, if_neg heq]
    have h := core_saveContext { s with switches := (prev, s.cpu.executing) :: s.switches } prev esp
    exact congrArg (fun c : Core τ => { c with executing := next }) h

theorem queue_contextSwitch_iff (s : Sys τ) (prev next esp : ℕ) (q : List ℕ) :
    Queue (contextSwitch s prev next esp) q ↔ Queue s q := by
  by_cases heq : prev = next
  · subst heq
    rw [contextSwitch_self]
    apply queue_congr <;> rfl
  · rw [contextSwitch_of_ne s heq]
    apply queue_congr
    · exact nextOf_saveContext { s with switches := (prev, s.cpu.executing) :: s.switches } prev esp
    · rfl
    · rfl

/-- The middle of a dispatch: a running process goes back to the queue (lines 125–128
    and 147–150). -/
def requeue (s : Sys τ) (current : ℕ) : Sys τ :=
  if (s.procs current).state = .running then schedulerAdd (s.setState current .ready) current
  else s

theorem state_popHead (s : Sys τ) (n p : ℕ) : ((popHead s n).procs p).state = (s.procs p).state :=
  congrArg (fun c : Core τ => c.state p) (core_popHead s n)

theorem requeue_popHead_of_running {s : Sys τ} {current : ℕ} (n : ℕ)
    (h : (s.procs current).state = .running) : requeue (popHead s n) current =
      schedulerAdd ((popHead s n).setState current .ready) current :=
  if_pos ((state_popHead s n current).trans h)

theorem requeue_popHead_of_not {s : Sys τ} {current : ℕ} (n : ℕ)
    (h : ¬ (s.procs current).state = .running) : requeue (popHead s n) current = popHead s n :=
  if_neg fun hrun => h ((state_popHead s n current).symm.trans hrun)

theorem queue_dispatch_iff (s : Sys τ) (current next esp : ℕ) (q : List ℕ) :
    Queue (dispatch s current next esp) q ↔ Queue (requeue (popHead s next) current) q :=
  (queue_contextSwitch_iff _ _ _ _ q).trans (queue_setState_iff _ _ _ q)

/-- What a dispatch does beside the queue: a running `current` is made ready and the
    processor continues in `n`. -/
theorem core_dispatch (s : Sys τ) (current n esp : ℕ) :
    (dispatch s current n esp).core =
      { s.core with
        state := Function.update
          (if s.core.state current = .running then
            Function.update s.core.state current .ready else s.core.state) n .running
        executing := if current = n then s.core.executing else n
        switches := (current, s.core.executing) :: s.core.switches } := by
  have hdispatch : dispatch s current n esp =
      contextSwitch ((requeue (popHead s n) current).setState n .running) current n esp := rfl
  rw [hdispatch, core_contextSwitch, core_setState]
  by_cases hrun : s.core.state current = .running
  · rw [requeue_popHead_of_running n hrun, core_schedulerAdd, core_setState, core_popHead,
      if_pos hrun]
  · rw [requeue_popHead_of_not n hrun, core_popHead, if_neg hrun]

/-- A dispatch takes the head `n` off the queue and puts `current` at its end if it was
    running. -/
theorem queue_dispatch {s : Sys τ} {n : ℕ} {q : List ℕ} (hq : Queue s (n :: q)) {current : ℕ}
    (h0 : current ≠ 0) (hcur : s.core.state current = .running → current ∉ q) (esp : ℕ) :
    Queue (dispatch s current n esp)
      (if s.core.state current = .running then q ++ [current] else q) := by
  have hpop := queue_popHead hq
  rw [queue_dispatch_iff]
  by_cases hrun : s.core.state current = .running
  · rw [requeue_popHead_of_running n hrun, if_pos hrun]
    exact queue_schedulerAdd (hpop.setState current .ready) h0 (hcur hrun)
  · rw [requeue_popHead_of_not n hrun, if_neg hrun]
    exact hpop

/-! ## When an entry point dispatches -/

/-- `scheduler_tick` gets past its early returns. -/
def TickDispatches (s : Sys τ) : Prop :=
  s.schedulerEnabled = true ∧ s.ticksRemaining = 0 ∧ processGetCurrent s ≠ 0 ∧
    s.readyQueueHead ≠ 0 ∧ s.readyQueueHead ≠ processGetCurrent s

/-- `scheduler_yield` gets past its early return. -/
def YieldDispatches (s : Sys τ) : Prop := processGetCurrent s ≠ 0 ∧ s.readyQueueHead ≠ 0

instance (s : Sys τ) : Decidable (TickDispatches s) := inferInstanceAs (Decidable (_ ∧ _))

instance (s : Sys τ) : Decidable (YieldDispatches s) := inferInstanceAs (Decidable (_ ∧ _))

/-- A yield of the system `s` switches to another record: `context_switch` gets past its
    early return, too. -/
def YieldSwitches (s : Sys τ) : Prop := YieldDispatches s ∧ s.readyQueueHead ≠ processGetCurrent s

instance (s : Sys τ) : Decidable (YieldSwitches s) := inferInstanceAs (Decidable (_ ∧ _))

theorem schedulerTick_of_dispatches {s : Sys τ} (h : TickDispatches s) (esp : ℕ) :
    schedulerTick s esp =
      dispatch (s.setTicks schedulerQuantum) (processGetCurrent s) s.readyQueueHead esp := by
  obtain ⟨hen, hticks, hcur, hhead, hne⟩ := h
  rw [schedulerTick, if_neg (by rw [hen]; decide), if_neg (by omega)]
  exact (if_neg hcur).trans ((if_neg hhead).trans (if_neg hne))

/-- A tick that does not dispatch only counts. -/
theorem schedulerTick_of_not {s : Sys τ} (h : ¬ TickDispatches s) (esp : ℕ) :
    ∃ n, schedulerTick s esp = s.setTicks n := by
  rw [schedulerTick]
  by_cases hen : s.schedulerEnabled = false
  · exact ⟨s.ticksRemaining, if_pos hen⟩
  rw [if_neg hen]
  by_cases hticks : s.ticksRemaining > 0
  · exact ⟨_, if_pos hticks⟩
  rw [if_neg hticks]
  refine ⟨schedulerQuantum, ?_⟩
  by_cases hcur : processGetCurrent s = 0
  · exact if_pos hcur
  by_cases hhead : s.readyQueueHead = 0
  · exact (if_neg hcur).trans (if_pos hhead)
  have hne : s.readyQueueHead = processGetCurrent s := by
    by_contra hne
    exact h ⟨by simpa using hen, by omega, hcur, hhead, hne⟩
  exact (if_neg hcur).trans ((if_neg hhead).trans (if_pos hne))

theorem schedulerYield_of_dispatches {s : Sys τ} (h : YieldDispatches s) (esp : ℕ) :
    schedulerYield s esp =
      dispatch (s.setTicks schedulerQuantum) (processGetCurrent s) s.readyQueueHead esp :=
  if_neg (not_or.mpr h)

theorem schedulerYield_of_not {s : Sys τ} (h : ¬ YieldDispatches s) (esp : ℕ) :
    schedulerYield s esp = s :=
  if_pos (by rwa [YieldDispatches, not_and_or, not_not, not_not] at h)

/-- What the processor executes after a yield. -/
theorem executing_schedulerYield (s : Sys τ) (esp : ℕ) :
    (schedulerYield s esp).cpu.executing =
      if YieldSwitches s then s.readyQueueHead else s.cpu.executing := by
  by_cases hd : YieldDispatches s
  · have hcore := core_dispatch (s.setTicks schedulerQuantum) (processGetCurrent s)
      s.readyQueueHead esp
    rw [schedulerYield_of_dispatches hd]
    refine (congrArg Core.executing hcore).trans ?_
    by_cases hsame : processGetCurrent s = s.readyQueueHead
    · rw [if_neg fun h : YieldSwitches s => h.2 hsame.symm]
      exact if_pos hsame
    · rw [if_pos (show YieldSwitches s from ⟨hd, Ne.symm hsame⟩)]
      exact if_neg hsame
  · rw [schedulerYield_of_not hd, if_neg fun h : YieldSwitches s => hd h.1]

theorem Queue.setTicks {s : Sys τ} {q : List ℕ} (hq : Queue s q) (n : ℕ) :
    Queue (s.setTicks n) q := ⟨hq.links, hq.tail_eq, hq.nodup⟩

end NexusKernel.Process
