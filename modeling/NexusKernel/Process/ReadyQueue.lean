import NexusKernel.Common.Run
import NexusKernel.Process.Scheduler

/-!
# The ready queue is a FIFO list

`scheduler_add`, `scheduler_remove` and the dispatches of `scheduler_tick` and
`scheduler_yield` on the linked list do what appending, deleting and taking the
first element do on a list of processes.

Results:
* `queue_schedulerRemove`: `scheduler_remove` returns, and deletes exactly the
  process.
* `ready_queue_refines_fifo`: the linked list is the FIFO list along every run, and
  a process leaves it after those ahead of it.
-/

namespace NexusKernel.Process

variable {τ : Type}

/-! ## Removal -/

/-- On a list that ends, the loop ends: at the node before `proc`, or at `NULL` if
    `proc` is not behind the first node. -/
theorem findPrev_of_links {next : ℕ → ℕ} {proc h : ℕ} {q : List ℕ} (hq : Links next h q 0)
    (h0 : proc ≠ 0) {fuel : ℕ} (hfuel : q.length < fuel) :
    (∃ l prev l', q = l ++ prev :: proc :: l' ∧ findPrev next proc fuel h = some prev) ∨
      (proc ∉ q.tail ∧ findPrev next proc fuel h = some 0) := by
  induction q generalizing h fuel with
  | nil =>
    obtain ⟨fuel, rfl⟩ := Nat.exists_eq_add_of_lt hfuel
    obtain rfl : h = 0 := hq
    exact .inr ⟨List.not_mem_nil, by simp [findPrev]⟩
  | cons a q ih =>
    obtain ⟨rfl, ha, hq⟩ := hq
    obtain ⟨fuel, rfl⟩ : ∃ n, fuel = n + 1 := ⟨fuel - 1, by omega⟩
    rw [List.length_cons, Nat.add_lt_add_iff_right] at hfuel
    by_cases hnext : next h = proc
    · cases q with
      | nil => exact absurd (hnext.symm.trans hq) h0
      | cons b q =>
        obtain rfl : proc = b := hnext.symm.trans hq.1
        exact .inl ⟨[], h, q, rfl, by simp [findPrev, hnext]⟩
    · have hstep : findPrev next proc (fuel + 1) h = findPrev next proc fuel (next h) := by
        rw [findPrev, if_pos ⟨ha, hnext⟩]
      rw [hstep]
      rcases ih hq hfuel with ⟨l, prev, l', rfl, hprev⟩ | ⟨hmem, hnone⟩
      · exact .inl ⟨h :: l, prev, l', rfl, hprev⟩
      · refine .inr ⟨fun hin => ?_, hnone⟩
        cases q with
        | nil => exact List.not_mem_nil hin
        | cons b q =>
          rcases List.mem_cons.mp hin with rfl | hin
          · exact hnext hq.1
          · exact hmem hin

/-- A loop that ends does not end differently with more fuel. -/
theorem findPrev_mono {next : ℕ → ℕ} {proc fuel prev r : ℕ}
    (h : findPrev next proc fuel prev = some r) (k : ℕ) :
    findPrev next proc (fuel + k) prev = some r := by
  induction fuel generalizing prev with
  | zero => exact absurd h (Option.some_ne_none r).symm
  | succ fuel ih =>
    rw [Nat.add_right_comm, findPrev]
    rw [findPrev] at h
    split_ifs at h ⊢ with hloop
    · exact ih h
    · exact h

theorem schedulerRemove_of_head {s : Sys τ} {proc : ℕ} (h0 : proc ≠ 0)
    (hhead : s.readyQueueHead = proc) (fuel : ℕ) :
    schedulerRemove fuel s proc = some ((popHead s proc).setNext proc 0) :=
  (if_neg h0).trans (if_pos hhead)

theorem schedulerRemove_of_find {s : Sys τ} {proc prev fuel : ℕ} (h0 : proc ≠ 0)
    (hhead : s.readyQueueHead ≠ proc)
    (hfind : findPrev s.nextOf proc fuel s.readyQueueHead = some prev) :
    schedulerRemove fuel s proc = if prev = 0 then some s else
      some (Sys.setNext (if s.readyQueueTail = proc then
        { s.setNext prev (s.nextOf proc) with readyQueueTail := prev }
        else s.setNext prev (s.nextOf proc)) proc 0) := by
  have hprev : findPrev (fun p => (s.procs p).next) proc fuel s.readyQueueHead = some prev := hfind
  rw [schedulerRemove, if_neg h0, if_neg hhead]
  simp only [hprev]
  rfl

theorem schedulerRemove_mono {fuel : ℕ} {s t : Sys τ} {proc : ℕ}
    (h : schedulerRemove fuel s proc = some t) (k : ℕ) :
    schedulerRemove (fuel + k) s proc = some t := by
  by_cases h0 : proc = 0
  · rw [schedulerRemove, if_pos h0] at h ⊢
    exact h
  by_cases hhead : s.readyQueueHead = proc
  · rw [schedulerRemove_of_head h0 hhead] at h ⊢
    exact h
  cases hfind : findPrev s.nextOf proc fuel s.readyQueueHead with
  | none =>
    have hnone : findPrev (fun p => (s.procs p).next) proc fuel s.readyQueueHead = none := hfind
    rw [schedulerRemove, if_neg h0, if_neg hhead] at h
    simp only [hnone] at h
    exact absurd h (Option.some_ne_none t).symm
  | some prev =>
    rw [schedulerRemove_of_find h0 hhead hfind] at h
    rw [schedulerRemove_of_find h0 hhead (findPrev_mono hfind k), h]

/-- A pointer of a process off the queue can change. -/
theorem Queue.setNext {s : Sys τ} {q : List ℕ} (hq : Queue s q) {p : ℕ} (hp : p ∉ q) (v : ℕ) :
    Queue (s.setNext p v) q := by
  refine ⟨?_, hq.tail_eq, hq.nodup⟩
  rw [nextOf_setNext]
  exact hq.links.update hp

/-- Taking out the process behind `prev`; the tail moves to `prev` if it was the last. -/
theorem Queue.unlink {s : Sys τ} {l l' : List ℕ} {prev proc : ℕ}
    (hq : Queue s (l ++ prev :: proc :: l')) :
    Queue (if s.readyQueueTail = proc then
        { s.setNext prev (s.nextOf proc) with readyQueueTail := prev }
      else s.setNext prev (s.nextOf proc)) (l ++ prev :: l') := by
  have hnodup : (l ++ prev :: l').Nodup :=
    hq.nodup.sublist ((List.sublist_cons_self proc l').cons_cons prev |>.append_left l)
  have hprev : prev ∉ l ∧ prev ∉ l' := by
    rw [List.nodup_append, List.nodup_cons] at hnodup
    exact ⟨fun hin => hnodup.2.2 prev hin prev List.mem_cons_self rfl, hnodup.2.1.1⟩
  have hproc : proc ∉ l' := by
    have hcons := (List.nodup_append.mp hq.nodup).2.1
    exact (List.nodup_cons.mp (List.nodup_cons.mp hcons).2).1
  have hlinks : Links (s.setNext prev (s.nextOf proc)).nextOf s.readyQueueHead (l ++ prev :: l') 0 := by
    rw [nextOf_setNext]
    exact links_remove hq.links hprev.1 hprev.2
  have htail := hq.tail_eq
  cases l' with
  | nil =>
    have hlast : s.readyQueueTail = proc := by simpa using htail
    rw [if_pos hlast]
    exact ⟨hlinks, by simp, hnodup⟩
  | cons b l' =>
    have hlast : s.readyQueueTail = (l ++ prev :: b :: l').getLast?.getD 0 := by
      simpa using htail
    have hne : s.readyQueueTail ≠ proc := by
      intro heq
      apply hproc
      have hget : (l ++ prev :: proc :: b :: l').getLast?.getD 0 =
          (b :: l').getLast (List.cons_ne_nil b l') := by
        simp [List.getLast?_eq_some_getLast (List.cons_ne_nil b l')]
      rw [← heq, htail, hget]
      exact List.getLast_mem _
    rw [if_neg hne]
    exact ⟨hlinks, hlast, hnodup⟩

/-- `scheduler_remove` returns; it deletes `proc`, if it is in the queue, and changes
    nothing else of the queue. -/
theorem queue_schedulerRemove {s : Sys τ} {q : List ℕ} (hq : Queue s q) (proc fuel : ℕ)
    (hfuel : q.length < fuel) :
    ∃ t, schedulerRemove fuel s proc = some t ∧ Queue t (q.erase proc) ∧ t.core = s.core := by
  by_cases h0 : proc = 0
  · refine ⟨s, if_pos h0, ?_, rfl⟩
    rwa [List.erase_of_not_mem fun hmem => hq.links.ne_zero proc hmem h0]
  by_cases hhead : s.readyQueueHead = proc
  · rw [schedulerRemove_of_head h0 hhead]
    refine ⟨_, rfl, ?_, (core_setNext _ _ _).trans (core_popHead s proc)⟩
    cases q with
    | nil => exact absurd (hhead.symm.trans hq.links) h0
    | cons a q =>
      obtain rfl : proc = a := hhead.symm.trans hq.links.1
      rw [List.erase_cons_head]
      exact (queue_popHead hq).setNext (List.nodup_cons.mp hq.nodup).1 0
  rcases findPrev_of_links hq.links h0 hfuel with ⟨l, prev, l', rfl, hfind⟩ | ⟨hmem, hfind⟩
  · have hprev : prev ≠ 0 :=
      hq.links.ne_zero prev (List.mem_append_right l List.mem_cons_self)
    have hsplit : l ++ prev :: proc :: l' = (l ++ [prev]) ++ proc :: l' := by simp
    have hproc : proc ∉ l ++ [prev] ∧ proc ∉ l' := by
      have hnodup := hq.nodup
      rw [hsplit, List.nodup_append, List.nodup_cons] at hnodup
      exact ⟨fun hin => hnodup.2.2 proc hin proc List.mem_cons_self rfl, hnodup.2.1.1⟩
    have herase : (l ++ prev :: proc :: l').erase proc = l ++ prev :: l' := by
      rw [hsplit, List.erase_append_right _ hproc.1, List.erase_cons_head]
      simp
    rw [schedulerRemove_of_find h0 hhead hfind, if_neg hprev, herase]
    refine ⟨_, rfl, hq.unlink.setNext ?_ 0, ?_⟩
    · rw [List.append_cons, List.mem_append]
      exact not_or.mpr hproc
    · rw [core_setNext]
      split_ifs
      · exact core_setNext s prev _
      · exact core_setNext s prev _
  · rw [schedulerRemove_of_find h0 hhead hfind, if_pos rfl]
    refine ⟨s, rfl, ?_, rfl⟩
    rw [List.erase_of_not_mem]
    · exact hq
    · intro hin
      cases q with
      | nil => exact List.not_mem_nil hin
      | cons a q =>
        rcases List.mem_cons.mp hin with rfl | hin
        · exact hhead hq.links.1
        · exact hmem hin

/-- Whatever the fuel, a removal that returns deletes exactly the process. -/
theorem queue_of_schedulerRemove {s t : Sys τ} {q : List ℕ} (hq : Queue s q) {proc fuel : ℕ}
    (ht : schedulerRemove fuel s proc = some t) :
    Queue t (q.erase proc) ∧ t.core = s.core := by
  obtain ⟨t', ht', hqueue, hcore⟩ :=
    queue_schedulerRemove hq proc (fuel + (q.length + 1)) (by omega)
  rw [schedulerRemove_mono ht] at ht'
  obtain rfl := Option.some_inj.mp ht'
  exact ⟨hqueue, hcore⟩

/-! ## Runs of queue operations -/

/-- The system beside the list of processes waiting and the log of the processes taken
    off its front, oldest first. -/
structure Fifo (τ : Type) where
  sys : Sys τ
  list : List ℕ
  taken : List ℕ

/-- The calls that change the queue; `fuel` bounds the loop of `scheduler_remove`. -/
inductive FifoOp where
  | add (p : ℕ)
  | remove (p fuel : ℕ)
  | tick (esp : ℕ)
  | yield (esp : ℕ)
deriving DecidableEq

/-- The current process goes back to the queue. -/
def Readds (s : Sys τ) : Prop := (s.procs (processGetCurrent s)).state = .running

instance (s : Sys τ) : Decidable (Readds s) := inferInstanceAs (Decidable (_ = _))

/-- What a dispatch does to the list: the first process is taken, and the current
    process is added if it was running. It must not be waiting already. -/
def Fifo.dispatch (m : Fifo τ) (s : Sys τ) : Option (Fifo τ) :=
  if Readds m.sys then
    if processGetCurrent m.sys ∈ m.list.tail then none
    else some ⟨s, m.list.tail ++ [processGetCurrent m.sys], m.taken ++ m.list.head?.toList⟩
  else some ⟨s, m.list.tail, m.taken ++ m.list.head?.toList⟩

/-- One call. A process is added only while it is not waiting. -/
def fifoStep (m : Fifo τ) : FifoOp → Option (Fifo τ)
  | .add p =>
    if p ∈ m.list then none
    else some { m with
      sys := schedulerAdd m.sys p, list := if p = 0 then m.list else m.list ++ [p] }
  | .remove p fuel =>
    (schedulerRemove fuel m.sys p).map fun s => { m with sys := s, list := m.list.erase p }
  | .tick esp =>
    if TickDispatches m.sys then m.dispatch (schedulerTick m.sys esp)
    else some { m with sys := schedulerTick m.sys esp }
  | .yield esp =>
    if YieldDispatches m.sys then m.dispatch (schedulerYield m.sys esp)
    else some { m with sys := schedulerYield m.sys esp }

/-- The machine after `scheduler_init`. -/
def fifoStart (s : Sys τ) : Fifo τ := ⟨schedulerInit s, [], []⟩

/-- A dispatch on the pointers does what it does on the list. -/
theorem queue_fifoDispatch {m t : Fifo τ} (hq : Queue m.sys m.list)
    (hcur : processGetCurrent m.sys ≠ 0) (hhead : m.sys.readyQueueHead ≠ 0) {esp : ℕ}
    (ht : m.dispatch (dispatch (m.sys.setTicks schedulerQuantum) (processGetCurrent m.sys)
      m.sys.readyQueueHead esp) = some t) : Queue t.sys t.list := by
  obtain ⟨n, q, hlist⟩ := List.exists_cons_of_ne_nil fun h => hhead (hq.head_eq_zero_iff.mpr h)
  have hn : m.sys.readyQueueHead = n := by rw [hq.head_eq, hlist]; rfl
  have hqueue : Queue (m.sys.setTicks schedulerQuantum) (n :: q) := hlist ▸ hq.setTicks _
  rw [hn] at ht
  unfold Fifo.dispatch at ht
  rw [hlist] at ht
  by_cases hrun : Readds m.sys
  · rw [if_pos hrun, List.tail_cons] at ht
    by_cases hmem : processGetCurrent m.sys ∈ q
    · rw [if_pos hmem] at ht
      exact absurd ht (Option.some_ne_none t).symm
    · rw [if_neg hmem] at ht
      obtain rfl := Option.some_inj.mp ht
      have hspec := queue_dispatch hqueue hcur (fun _ => hmem) esp
      rwa [if_pos (show (m.sys.setTicks schedulerQuantum).core.state _ = _ from hrun)] at hspec
  · rw [if_neg hrun] at ht
    obtain rfl := Option.some_inj.mp ht
    have hspec := queue_dispatch hqueue hcur (fun h => absurd h hrun) esp
    rwa [if_neg (show ¬ (m.sys.setTicks schedulerQuantum).core.state _ = _ from hrun)] at hspec

theorem queue_fifoStep {m t : Fifo τ} {e : FifoOp} (hq : Queue m.sys m.list)
    (ht : fifoStep m e = some t) : Queue t.sys t.list := by
  cases e with
  | add p =>
    rw [fifoStep, Option.ite_none_left_eq_some] at ht
    obtain ⟨hp, ht⟩ := ht
    obtain rfl := Option.some_inj.mp ht
    by_cases h0 : p = 0
    · simp only [h0, schedulerAdd, if_true]
      exact hq
    · simp only [if_neg h0]
      exact queue_schedulerAdd hq h0 hp
  | remove p fuel =>
    rw [fifoStep, Option.map_eq_some_iff] at ht
    obtain ⟨s, hs, rfl⟩ := ht
    exact (queue_of_schedulerRemove hq hs).1
  | tick esp =>
    rw [fifoStep] at ht
    by_cases hd : TickDispatches m.sys
    · rw [if_pos hd, schedulerTick_of_dispatches hd] at ht
      exact queue_fifoDispatch hq hd.2.2.1 hd.2.2.2.1 ht
    · rw [if_neg hd] at ht
      obtain rfl := Option.some_inj.mp ht
      obtain ⟨n, hn⟩ := schedulerTick_of_not hd esp
      simp only [hn]
      exact hq.setTicks n
  | yield esp =>
    rw [fifoStep] at ht
    by_cases hd : YieldDispatches m.sys
    · rw [if_pos hd, schedulerYield_of_dispatches hd] at ht
      exact queue_fifoDispatch hq hd.1 hd.2 ht
    · rw [if_neg hd] at ht
      obtain rfl := Option.some_inj.mp ht
      simp only [schedulerYield_of_not hd]
      exact hq

/-! ## Order -/

theorem fifoDispatch_eq {m t : Fifo τ} {s : Sys τ} (ht : m.dispatch s = some t) :
    ∃ r, t.list = m.list.tail ++ r ∧ t.taken = m.taken ++ m.list.head?.toList := by
  unfold Fifo.dispatch at ht
  split_ifs at ht with hrun hmem
  · obtain rfl := Option.some_inj.mp ht
    exact ⟨_, rfl, rfl⟩
  · obtain rfl := Option.some_inj.mp ht
    exact ⟨[], (List.append_nil _).symm, rfl⟩

/-- What a call can do to the list and the log. -/
theorem fifoStep_cases {m t : Fifo τ} {e : FifoOp} (ht : fifoStep m e = some t) :
    (∃ r, t.list = m.list ++ r ∧ t.taken = m.taken) ∨
    (∃ x fuel, e = .remove x fuel ∧ t.list = m.list.erase x ∧ t.taken = m.taken) ∨
    (∃ r, t.list = m.list.tail ++ r ∧ t.taken = m.taken ++ m.list.head?.toList) := by
  cases e with
  | add x =>
    rw [fifoStep, Option.ite_none_left_eq_some] at ht
    obtain rfl := Option.some_inj.mp ht.2
    by_cases h0 : x = 0
    · exact .inl ⟨[], by simp [h0], rfl⟩
    · exact .inl ⟨[x], by simp [h0], rfl⟩
  | remove x fuel =>
    rw [fifoStep, Option.map_eq_some_iff] at ht
    obtain ⟨s, -, rfl⟩ := ht
    exact .inr (.inl ⟨x, fuel, rfl, rfl, rfl⟩)
  | tick esp =>
    rw [fifoStep] at ht
    split_ifs at ht with hd
    · exact .inr (.inr (fifoDispatch_eq ht))
    · obtain rfl := Option.some_inj.mp ht
      exact .inl ⟨[], (List.append_nil _).symm, rfl⟩
  | yield esp =>
    rw [fifoStep] at ht
    split_ifs at ht with hd
    · exact .inr (.inr (fifoDispatch_eq ht))
    · obtain rfl := Option.some_inj.mp ht
      exact .inl ⟨[], (List.append_nil _).symm, rfl⟩

theorem fifoRun_taken {m t : Fifo τ} {es : List FifoOp} (hrun : run fifoStep m es = some t) :
    ∃ new, t.taken = m.taken ++ new := by
  refine run_invariant (fun t => ∃ new, t.taken = m.taken ++ new) ?_
    ⟨[], (List.append_nil _).symm⟩ hrun
  intro s e u ⟨new, hs⟩ hu
  obtain ⟨r, -, htaken⟩ | ⟨x, fuel, -, -, htaken⟩ | ⟨r, -, htaken⟩ := fifoStep_cases hu
  · exact ⟨new, htaken.trans hs⟩
  · exact ⟨new, htaken.trans hs⟩
  · exact ⟨new ++ s.list.head?.toList, by rw [htaken, hs, List.append_assoc]⟩

/-- One call, seen from a process `p` that waits with the processes `a` ahead of it:
    it keeps its place behind those of `a` that are left, or it is first and taken. -/
theorem fifoStep_ahead {m t : Fifo τ} {e : FifoOp} (ht : fifoStep m e = some t) {a b : List ℕ}
    {p : ℕ} (hlist : m.list = a ++ p :: b) (he : ∀ fuel, e ≠ .remove p fuel) :
    ∃ new, t.taken = m.taken ++ new ∧
      ((∃ a' b', t.list = a' ++ p :: b' ∧ (new ++ a').Sublist a) ∨ new = [p]) := by
  obtain ⟨r, hl, htaken⟩ | ⟨x, fuel, rfl, hl, htaken⟩ | ⟨r, hl, htaken⟩ := fifoStep_cases ht
  · refine ⟨[], by rw [htaken, List.append_nil], .inl ⟨a, b ++ r, ?_, List.Sublist.refl a⟩⟩
    rw [hl, hlist, List.append_assoc, List.cons_append]
  · have hxp : p ≠ x := by
      rintro rfl
      exact he fuel rfl
    refine ⟨[], by rw [htaken, List.append_nil], .inl ?_⟩
    by_cases hxa : x ∈ a
    · refine ⟨a.erase x, b, ?_, List.erase_sublist⟩
      rw [hl, hlist, List.erase_append_left _ hxa]
    · refine ⟨a, b.erase x, ?_, List.Sublist.refl a⟩
      rw [hl, hlist, List.erase_append_right _ hxa, List.erase_cons_tail (by simpa using hxp)]
  · rw [hlist] at hl htaken
    refine ⟨_, htaken, ?_⟩
    cases a with
    | nil => exact .inr rfl
    | cons x a => exact .inl ⟨a, b ++ r, by simpa using hl, List.Sublist.refl _⟩

/-- A whole run, seen from `p`: as long as `p` waits, only processes of `a` are taken, in
    their order; when `p` is taken, only processes of `a` were taken before. -/
theorem fifoRun_ahead {m t : Fifo τ} {es : List FifoOp} (hrun : run fifoStep m es = some t)
    {a b : List ℕ} {p : ℕ} (hlist : m.list = a ++ p :: b)
    (hes : ∀ fuel, FifoOp.remove p fuel ∉ es) :
    ∃ new, t.taken = m.taken ++ new ∧
      ((∃ a' b', t.list = a' ++ p :: b' ∧ (new ++ a').Sublist a) ∨
        ∃ w w', new = w ++ p :: w' ∧ w.Sublist a) := by
  induction es generalizing m a b with
  | nil =>
    cases hrun
    exact ⟨[], (List.append_nil _).symm, .inl ⟨a, b, hlist, List.Sublist.refl a⟩⟩
  | cons e es ih =>
    obtain ⟨s, hs, hrun⟩ := run_cons_eq_some.mp hrun
    obtain ⟨n, htaken, ⟨a', b', hl, hsub⟩ | rfl⟩ := fifoStep_ahead hs hlist
      fun fuel heq => hes fuel (heq ▸ List.mem_cons_self)
    · obtain ⟨new, hnew, hcase⟩ := ih hrun hl fun fuel hin => hes fuel (List.mem_cons_of_mem e hin)
      refine ⟨n ++ new, by rw [hnew, htaken, List.append_assoc], ?_⟩
      obtain ⟨a'', b'', hl', hsub'⟩ | ⟨w, w', rfl, hsub'⟩ := hcase
      · refine .inl ⟨a'', b'', hl', ?_⟩
        rw [List.append_assoc]
        exact (hsub'.append_left n).trans hsub
      · refine .inr ⟨n ++ w, w', by rw [List.append_assoc], ?_⟩
        exact (hsub'.append_left n).trans hsub
    · obtain ⟨new, hnew⟩ := fifoRun_taken hrun
      refine ⟨p :: new, by rw [hnew, htaken, List.append_assoc]; rfl, .inr ⟨[], new, rfl, ?_⟩⟩
      exact List.nil_sublist a

/-- **The ready queue is a FIFO list.** After every run of additions, removals and
    dispatches from `scheduler_init`, the pointers from `ready_queue_head` are the
    abstract list, `ready_queue_tail` is its last node, and `scheduler_remove` returns.
    A process that waits with `a` ahead of it and is not removed is taken after
    processes of `a` only, in their order, and at the latest by dispatch number
    `a.length + 1`. -/
theorem ready_queue_refines_fifo (s : Sys τ) {es : List FifoOp} {m : Fifo τ}
    (hrun : run fifoStep (fifoStart s) es = some m) :
    Queue m.sys m.list ∧ (m.sys.readyQueueTail = 0 ↔ m.sys.readyQueueHead = 0) ∧
    (∀ p, ∃ fuel t, fifoStep m (.remove p fuel) = some t) ∧
    ∀ {a b : List ℕ} {p : ℕ} {later : List FifoOp} {t : Fifo τ}, m.list = a ++ p :: b →
      (∀ fuel, FifoOp.remove p fuel ∉ later) → run fifoStep m later = some t →
      ∃ new, t.taken = m.taken ++ new ∧
        ((∃ a' b', t.list = a' ++ p :: b' ∧ (new ++ a').Sublist a) ∨
          ∃ w w', new = w ++ p :: w' ∧ w.Sublist a) ∧
        (a.length < new.length → p ∈ new.take (a.length + 1)) := by
  have hstart : Queue (fifoStart s).sys (fifoStart s).list := ⟨rfl, rfl, List.nodup_nil⟩
  have hq : Queue m.sys m.list := run_invariant (fun m : Fifo τ => Queue m.sys m.list)
    (fun _ _ _ hs ht => queue_fifoStep hs ht) hstart hrun
  refine ⟨hq, by rw [hq.tail_eq_zero_iff, hq.head_eq_zero_iff], ?_, ?_⟩
  · intro p
    obtain ⟨t, ht, -⟩ := queue_schedulerRemove hq p _ (Nat.lt_succ_self _)
    exact ⟨_, _, by rw [fifoStep, ht]; rfl⟩
  · intro a b p later t hlist hlater hrun'
    obtain ⟨new, hnew, hcase⟩ := fifoRun_ahead hrun' hlist hlater
    refine ⟨new, hnew, hcase, fun hlen => ?_⟩
    obtain ⟨a', b', -, hsub⟩ | ⟨w, w', rfl, hsub⟩ := hcase
    · have hle := hsub.length_le
      rw [List.length_append] at hle
      omega
    · have hle := hsub.length_le
      rw [List.take_append, List.mem_append]
      refine .inr ?_
      rw [show a.length + 1 - w.length = (a.length - w.length) + 1 by omega, List.take_succ_cons]
      exact List.mem_cons_self

/-- The process at 1 runs; the scheduler is not yet initialised. -/
def loneSys : Sys Unit where
  procs p := { state := if p = 1 then .running else .ready }
  processTable _ := 0
  currentProcess := 1
  nextPid := 2
  readyQueueHead := 0
  readyQueueTail := 0
  ticksRemaining := 0
  schedulerEnabled := false
  cpu := ⟨1, 0, 0, 0, 0, 0⟩
  switches := []
  env := ()

/-- Three processes are added, one is removed, and the running process yields. -/
def loneOps : List FifoOp := [.add 2, .add 3, .add 4, .remove 3 5, .yield 0]

theorem ready_queue_refines_fifo_lone :
    ∃ m, run fifoStep (fifoStart loneSys) loneOps = some m ∧ m.taken = [2] ∧
      Queue m.sys [4, 1] := by
  have hrun : run fifoStep (fifoStart loneSys) loneOps = some _ := rfl
  exact ⟨_, hrun, rfl, (ready_queue_refines_fifo loneSys hrun).1⟩

end NexusKernel.Process
