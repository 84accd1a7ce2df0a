import NexusKernel.Process.RoundRobin

/-!
# Which records the scheduler writes

A step of the scheduler writes the records of the current process and of processes in the
ready queue; a creation writes the new record as well. All of them belong to idle or to a
process that was created.

Results:
* `procs_dispatch`: the records that a dispatch leaves alone.
* `turnStep_cases`: what a step does to the services.
* `procs_turnStep`: the records that it leaves alone.
-/

namespace NexusKernel.Process

variable {τ : Type} {S : Services τ} {inUse : τ → Set ℕ} {s : Sys τ} {a : ℕ}

theorem procs_setProc {p : ℕ} (hap : a ≠ p) (f : Proc → Proc) : (s.setProc p f).procs a = s.procs a :=
  Function.update_of_ne hap _ _

theorem procs_setNext {p : ℕ} (hap : a ≠ p) (v : ℕ) : (s.setNext p v).procs a = s.procs a :=
  procs_setProc hap _

theorem procs_schedulerAdd {p : ℕ} (hap : a ≠ p)
    (htail : s.readyQueueHead ≠ 0 → a ≠ s.readyQueueTail) :
    (schedulerAdd s p).procs a = s.procs a := by
  by_cases hp : p = 0
  · rw [schedulerAdd, if_pos hp]
  by_cases hhead : s.readyQueueHead = 0
  · rw [schedulerAdd_of_empty hp hhead]
    exact procs_setNext hap 0
  · rw [schedulerAdd_of_ne hp hhead]
    exact (procs_setNext (htail hhead) p).trans (procs_setNext hap 0)

/-- Neither the current process nor an end of the ready queue. -/
structure NotAtEnds (s : Sys τ) (a : ℕ) : Prop where
  current : a ≠ s.currentProcess
  head : s.readyQueueHead ≠ 0 → a ≠ s.readyQueueHead
  tail : s.readyQueueHead ≠ 0 → a ≠ s.readyQueueTail

theorem NotAtEnds.setTicks (h : NotAtEnds s a) (n : ℕ) : NotAtEnds (s.setTicks n) a :=
  ⟨h.current, h.head, h.tail⟩

theorem NotAtEnds.setProc (h : NotAtEnds s a) (p : ℕ) (f : Proc → Proc) :
    NotAtEnds (s.setProc p f) a := ⟨h.current, h.head, h.tail⟩

theorem popHead_tail {next : ℕ} (h : (popHead s next).readyQueueHead ≠ 0) :
    (popHead s next).readyQueueTail = s.readyQueueTail := by
  by_cases hnext : (s.procs next).next = 0
  · rw [popHead_of_empty hnext] at h
    exact absurd hnext h
  · rw [popHead_of_ne hnext]

theorem procs_popHead (s : Sys τ) (next : ℕ) : (popHead s next).procs = s.procs := by
  by_cases hnext : (s.procs next).next = 0
  · rw [popHead_of_empty hnext]
  · rw [popHead_of_ne hnext]

theorem procs_contextSwitch_other {prev next : ℕ} (hap : a ≠ prev) (esp : ℕ) :
    (contextSwitch s prev next esp).procs a = s.procs a := by
  by_cases heq : prev = next
  · subst heq
    rw [contextSwitch_self]
  · rw [contextSwitch_of_ne s heq]
    show (Sys.saveContext _ prev esp).procs a = s.procs a
    exact procs_setProc hap _

theorem procs_dispatch (h : NotAtEnds s a) (hne : s.readyQueueHead ≠ 0) (esp : ℕ) :
    (dispatch s s.currentProcess s.readyQueueHead esp).procs a = s.procs a := by
  have hpop := congrFun (procs_popHead s s.readyQueueHead) a
  have hmiddle : (requeue (popHead s s.readyQueueHead) s.currentProcess).procs a = s.procs a := by
    by_cases hrun : (s.procs s.currentProcess).state = .running
    · rw [requeue_popHead_of_running _ hrun]
      refine (procs_schedulerAdd h.current ?_).trans ((procs_setProc h.current _).trans hpop)
      intro hpopped htail
      exact h.tail hne (htail.trans (popHead_tail hpopped))
    · rw [requeue_popHead_of_not _ hrun]
      exact hpop
  exact (procs_contextSwitch_other h.current esp).trans ((procs_setProc (h.head hne) _).trans hmiddle)

theorem procs_schedulerTick (h : NotAtEnds s a) (esp : ℕ) :
    (schedulerTick s esp).procs a = s.procs a := by
  by_cases hd : TickDispatches s
  · rw [schedulerTick_of_dispatches hd]
    exact procs_dispatch (h.setTicks schedulerQuantum) hd.2.2.2.1 esp
  · obtain ⟨n, hn⟩ := schedulerTick_of_not hd esp
    rw [hn]
    rfl

theorem procs_schedulerYield (h : NotAtEnds s a) (esp : ℕ) :
    (schedulerYield s esp).procs a = s.procs a := by
  by_cases hd : YieldDispatches s
  · rw [schedulerYield_of_dispatches hd]
    exact procs_dispatch (h.setTicks schedulerQuantum) hd.2 esp
  · rw [schedulerYield_of_not hd]

theorem procs_schedulerBlockCurrent (h : NotAtEnds s a) (reason : ProcessState) (esp : ℕ) :
    (schedulerBlockCurrent s reason esp).procs a = s.procs a := by
  by_cases hcur : processGetCurrent s = 0
  · rw [schedulerBlockCurrent, if_pos hcur]
  · rw [schedulerBlockCurrent, if_neg hcur]
    exact (procs_schedulerYield (h.setProc _ _) esp).trans (procs_setProc h.current _)

theorem procs_sysExit (h : NotAtEnds s a) (code : ℤ) (esp : ℕ) :
    (sysExit s code esp).procs a = s.procs a := by
  by_cases hcur : processGetCurrent s = 0
  · rw [sysExit, terminateCurrent_of_eq hcur]
    exact procs_schedulerYield h esp
  · have hends : NotAtEnds (processTerminate s (processGetCurrent s) code) a := by
      rw [processTerminate_of_ne s hcur]
      exact ⟨h.current, h.head, h.tail⟩
    rw [sysExit, terminateCurrent_of_ne hcur, procs_schedulerYield hends, processTerminate_of_ne s hcur]
    exact procs_setProc h.current fun p => { p with state := .terminated, exitCode := code }

/-- A creation writes into the block it got for the record, and returns this block if it
    returns one. -/
theorem processCreate_footprint (S : Services τ) (s : Sys τ) (name : ℕ → Byte) (entry : ℕ)
    (priority : ℤ) :
    ((processCreate S s name entry priority).1 = 0 ∨
      (processCreate S s name entry priority).1 = (S.kmalloc s.env sizeofProcess).1) ∧
    ∀ a, a ≠ (S.kmalloc s.env sizeofProcess).1 →
      (processCreate S s name entry priority).2.procs a = s.procs a := by
  obtain ⟨pid?, n, hpid⟩ := exists_processGetNextPid_eq s
  cases pid? with
  | none => simp [processCreate, hpid]
  | some pid =>
    rcases hk : S.kmalloc s.env sizeofProcess with ⟨proc, e1⟩
    rcases hc : S.createAddressSpace e1 with ⟨dir, e2⟩
    rcases hs : S.kmalloc e2 kernelStackSize with ⟨kstack, e3⟩
    simp only [processCreate, hpid, hk, setProc_env, hc, hs]
    split_ifs with h0 hd hks hentry
    · exact ⟨Or.inl rfl, fun _ _ => rfl⟩
    · exact ⟨Or.inl rfl, fun a ha => by simp [Sys.setProc, ha]⟩
    · exact ⟨Or.inl rfl, fun a ha => by simp [Sys.setProc, ha]⟩
    · exact ⟨Or.inr rfl, fun a ha => by simp [Sys.setProc, Sys.setState, ha]⟩
    · exact ⟨Or.inr rfl, fun a ha => by simp [Sys.setProc, Sys.setState, ha]⟩

section

variable {idle : ℕ} {m t : TurnMachine τ} {v : View τ}

theorem TakesTurns.notAtEnds (h : TakesTurns inUse idle m v) (ha : a ∉ idle :: m.created) :
    NotAtEnds m.sys a := by
  have hqueue : ∀ p ∈ v.queue, a ≠ p := by
    rintro p hp rfl
    exact ha (h.inTurn.mem_of_queue hp)
  refine ⟨?_, ?_, ?_⟩
  · rintro rfl
    have hcur : m.sys.currentProcess = idle := h.shows.current_eq.trans h.inTurn.current_eq
    exact ha (hcur ▸ List.mem_cons_self)
  · intro hne
    refine hqueue _ ?_
    rw [h.shows.queue.head_eq] at hne ⊢
    cases hq : v.queue with
    | nil =>
      rw [hq] at hne
      exact absurd rfl hne
    | cons p q => exact List.mem_cons_self
  · intro hne
    refine hqueue _ ?_
    rw [h.shows.queue.tail_eq]
    cases hq : v.queue.getLast? with
    | none => exact absurd (h.shows.head_eq_zero_iff.mpr (List.getLast?_eq_none_iff.mp hq)) hne
    | some p => exact List.mem_of_getLast? hq

/-- What a step does to the services and to the list of processes: nothing, or what a creation
    does. -/
theorem turnStep_cases (h : TakesTurns inUse idle m v) {e : TurnOp}
    (ht : turnStep S m e = some t) :
    (t.sys.env = m.sys.env ∧ t.created = m.created) ∨
      ∃ name entry priority,
        t.sys.env = (processCreate S m.sys name entry priority).2.env ∧
        t.created = if (processCreate S m.sys name entry priority).1 = 0 then m.created
          else m.created ++ [(processCreate S m.sys name entry priority).1] := by
  have hsame : ∀ {s : Sys τ} {v' : View τ}, Shows s v' → v'.env = v.env → s.env = m.sys.env :=
    fun hs henv => hs.env_eq.trans (henv.trans h.shows.env_eq.symm)
  cases e with
  | tick esp =>
    obtain rfl := Option.some_inj.mp ht
    exact Or.inl ⟨hsame (shows_schedulerTick h.shows h.placed esp) v.tick_env, rfl⟩
  | yield esp =>
    obtain rfl := Option.some_inj.mp ht
    exact Or.inl ⟨hsame (shows_schedulerYield h.shows h.placed esp) v.yield_env, rfl⟩
  | block esp =>
    obtain rfl := Option.some_inj.mp ht
    exact Or.inl ⟨hsame (shows_schedulerBlockCurrent h.shows h.placed.current_ne .blocked
      (by decide) esp) (View.yield_env _), rfl⟩
  | exit code esp =>
    obtain rfl := Option.some_inj.mp ht
    exact Or.inl ⟨hsame (shows_sysExit h.shows h.placed.current_ne code esp) (View.yield_env _), rfl⟩
  | create name entry priority =>
    obtain rfl := Option.some_inj.mp ht
    exact Or.inr ⟨name, entry, priority,
      congrArg Core.env (core_schedulerAdd (processCreate S m.sys name entry priority).2 _), rfl⟩
  | terminate p code =>
    obtain ⟨hp, rfl⟩ := turnStep_terminate.mp ht
    rw [h.shows.current_eq, h.inTurn.current_eq] at hp
    exact Or.inl ⟨hsame (h.shows.terminate (h.inUse_all p hp).1 code) rfl, rfl⟩

theorem procs_turnStep (hS : S.Lawful inUse) (h : TakesTurns inUse idle m v)
    (ha : a ∉ idle :: m.created) (hnew : a ≠ (S.kmalloc m.sys.env sizeofProcess).1) {e : TurnOp}
    (ht : turnStep S m e = some t) : t.sys.procs a = m.sys.procs a := by
  have hends := h.notAtEnds ha
  cases e with
  | tick esp =>
    obtain rfl := Option.some_inj.mp ht
    exact procs_schedulerTick hends esp
  | yield esp =>
    obtain rfl := Option.some_inj.mp ht
    exact procs_schedulerYield hends esp
  | block esp =>
    obtain rfl := Option.some_inj.mp ht
    exact procs_schedulerBlockCurrent hends .blocked esp
  | exit code esp =>
    obtain rfl := Option.some_inj.mp ht
    exact procs_sysExit hends code esp
  | create name entry priority =>
    have hc := created_processCreate hS m.sys name entry priority
    obtain ⟨hp, hprocs⟩ := processCreate_footprint S m.sys name entry priority
    rcases hpc : processCreate S m.sys name entry priority with ⟨p, s⟩
    simp only [hpc] at hc hp hprocs
    simp only [turnStep, hpc, Option.some.injEq] at ht
    subst ht
    have hhead : s.readyQueueHead = m.sys.readyQueueHead := by rw [hc.rest_eq]
    have htail : s.readyQueueTail = m.sys.readyQueueTail := by rw [hc.rest_eq]
    refine Eq.trans ?_ (hprocs a hnew)
    show (schedulerAdd s p).procs a = s.procs a
    obtain rfl | rfl := hp
    · rfl
    · refine procs_schedulerAdd hnew ?_
      rw [hhead, htail]
      exact hends.tail
  | terminate p code =>
    obtain ⟨hp, rfl⟩ := turnStep_terminate.mp ht
    rw [h.shows.current_eq, h.inTurn.current_eq] at hp
    exact processTerminate_record m.sys code fun hap => ha (hap ▸ hp)

end

end NexusKernel.Process
