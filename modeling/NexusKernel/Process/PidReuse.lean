import NexusKernel.Process.ProcessTable

/-!
# Terminating a process twice

`process_terminate` clears the table slot that the stored PID of its argument names, and a
terminated process keeps its PID. The search of `process_get_next_pid` goes round the
table, so the PID of a terminated process is given out again. If the first of the two is
then terminated once more (`sys_exit` does so when nothing else is ready), the second
loses its slot.

Results:
* `affectsOnly_iff`: terminating a process leaves all others alone iff none of those not
  terminated has its PID.
* `terminate_affects_only_iff`: the same along every run.
* `reused_pid_cleared`: a run of 255 creations and one termination, after which it does
  not.
-/

namespace NexusKernel.Process

variable {τ : Type} {S : Services τ} {inUse : τ → Set ℕ} {idle p : ℕ}

/-- The system with all processes that were ever created, idle included. -/
structure MadeMachine (τ : Type) where
  sys : Sys τ
  made : List ℕ

/-- One call. Every process that was created can be terminated, also again. -/
def madeStep (S : Services τ) (m : MadeMachine τ) : TableOp → Option (MadeMachine τ)
  | .create name entry priority =>
    let (p, s) := processCreate S m.sys name entry priority
    some { sys := s, made := if p = 0 then m.made else p :: m.made }
  | .terminate p code =>
    if p ∈ m.made then some { m with sys := processTerminate m.sys p code } else none

/-- The machine after `process_init`. -/
def madeBoot (S : Services τ) (s : Sys τ) : MadeMachine τ :=
  { sys := (tableBoot S s).sys, made := (tableBoot S s).live }

/-- The processes that are not terminated. -/
def MadeMachine.live (m : MadeMachine τ) : List ℕ :=
  m.made.filter fun a => (m.sys.procs a).state ≠ .terminated

theorem MadeMachine.mem_live {m : MadeMachine τ} {a : ℕ} :
    a ∈ m.live ↔ a ∈ m.made ∧ (m.sys.procs a).state ≠ .terminated := by
  simp [MadeMachine.live]

/-- Terminating `p` changes no slot that it is not in, and no other process. -/
structure AffectsOnly (s : Sys τ) (p : ℕ) (code : ℤ) : Prop where
  slot : ∀ i, s.processTable i ≠ p → (processTerminate s p code).processTable i = s.processTable i
  record : ∀ q, q ≠ p → (processTerminate s p code).procs q = s.procs q

/-- No other process that is not terminated has the PID of `p`. -/
def PidUnused (m : MadeMachine τ) (p : ℕ) : Prop :=
  ∀ q ∈ m.live, q ≠ p → (m.sys.procs q).pid ≠ (m.sys.procs p).pid

/-! ## The invariant -/

/-- The table is in order for the processes not terminated, and every process but idle
    has a PID other than that of the slot of idle. -/
structure MadeInv (inUse : τ → Set ℕ) (idle : ℕ) (m : MadeMachine τ) : Prop where
  table : TableInv inUse idle { sys := m.sys, live := m.live }
  inUse_made : ∀ a ∈ m.made, a ≠ 0 ∧ a ∈ inUse m.sys.env
  pid_made : ∀ a ∈ m.made, a ≠ idle → 1 ≤ (m.sys.procs a).pid ∧
    (m.sys.procs a).pid < maxProcesses ∧ (idle ≠ 0 → (m.sys.procs a).pid ≠ 1)

theorem MadeInv.create (hS : S.Lawful inUse) {m t : MadeMachine τ} (h : MadeInv inUse idle m)
    {name : ℕ → Byte} {entry : ℕ} {priority : ℤ}
    (ht : madeStep S m (.create name entry priority) = some t) : MadeInv inUse idle t := by
  have hc := created_processCreate hS m.sys name entry priority
  rcases hpc : processCreate S m.sys name entry priority with ⟨p, s⟩
  obtain ⟨-, -, -, hnew⟩ := processCreate_table S h.table.nextPid.1 h.table.nextPid.2 hpc
  simp only [hpc] at hc
  simp only [madeStep, hpc, Option.some.injEq] at ht
  subst ht
  have hknown := hc.keepsKnown h.inUse_made
  have hfilter : (m.made.filter fun a => (s.procs a).state ≠ .terminated) = m.live := by
    apply List.filter_congr
    intro a ha
    rw [hknown.procs_eq a ha]
  have hstep : tableStep S { sys := m.sys, live := m.live } (.create name entry priority) =
      some { sys := s, live := if p = 0 then m.live else p :: m.live } := by
    simp only [tableStep, hpc]
  have htable := h.table.create hS hstep
  by_cases h0 : p = 0
  · simp only [if_pos h0] at htable ⊢
    refine ⟨?_, ?_, ?_⟩
    · rw [MadeMachine.live, hfilter]
      exact htable
    · exact hknown.kept
    · intro a ha
      rw [hknown.procs_eq a ha]
      exact h.pid_made a ha
  · obtain ⟨-, -, hready⟩ := hc.fresh h0
    obtain ⟨pid, -, hfree, hpid1, hpid2, -, hpid⟩ := hnew h0
    simp only [if_neg h0] at htable ⊢
    refine ⟨?_, ?_, ?_⟩
    · have hlive : MadeMachine.live { sys := s, made := p :: m.made } = p :: m.live := by
        rw [MadeMachine.live, List.filter_cons_of_pos (by simp [hready]), hfilter]
      rw [hlive]
      exact htable
    · simpa only [if_neg h0] using hknown.joined
    · refine List.forall_mem_cons.mpr ⟨?_, ?_⟩
      · intro _
        rw [hpid]
        refine ⟨hpid1, hpid2, ?_⟩
        rintro hidle rfl
        exact hidle ((h.table.idle_slot hidle).1.symm.trans hfree)
      · intro a ha
        rw [hknown.procs_eq a ha]
        exact h.pid_made a ha

/-- A slot that holds a process other than `p` and has the number of the PID of `p` is
    that of another process with the same PID. -/
theorem MadeInv.slot_cases {m : MadeMachine τ} (h : MadeInv inUse idle m) (hp : p ∈ m.made)
    (hpos : 0 < (m.sys.procs p).pid) (hslot : m.sys.processTable (m.sys.procs p).pid ≠ 0) :
    m.sys.processTable (m.sys.procs p).pid ∈ m.live ∧
      (m.sys.procs (m.sys.processTable (m.sys.procs p).pid)).pid = (m.sys.procs p).pid := by
  obtain ⟨hone, hidle⟩ | ⟨hlive, -, hpid⟩ := h.table.slot _ hslot
  · have hidle0 : idle ≠ 0 := hidle ▸ hslot
    have hpi : p ≠ idle := by
      intro hpi
      have hzero := (h.table.idle_slot hidle0).2.1
      rw [← hpi] at hzero
      exact absurd hzero hpos.ne'
    exact absurd hone ((h.pid_made p hp hpi).2.2 hidle0)
  · exact ⟨hlive, hpid⟩

theorem affectsOnly_iff {m : MadeMachine τ} (h : MadeInv inUse idle m) (hp : p ∈ m.made) (code : ℤ) :
    AffectsOnly m.sys p code ↔ PidUnused m p := by
  have h0 := (h.inUse_made p hp).1
  constructor
  · intro honly q hq hne heq
    by_cases hqi : q = idle
    · -- only idle has the PID 0
      have hzero : (m.sys.procs q).pid = 0 := by
        rw [hqi]
        exact (h.table.idle_slot (hqi ▸ (h.table.inUse_live q hq).1)).2.1
      have hpid := (h.pid_made p hp fun hpi => hne (hqi.trans hpi.symm)).1
      omega
    · obtain ⟨hlt, hpos, hslot⟩ := h.table.found q hq hqi
      simp only [heq] at hlt hpos hslot
      have hkept := honly.slot (m.sys.procs p).pid (by rw [hslot]; exact hne)
      rw [processTerminate_slot m.sys h0, if_pos ⟨⟨hpos, hlt⟩, rfl⟩, hslot] at hkept
      exact (h.table.inUse_live q hq).1 hkept.symm
  · intro hunused
    refine ⟨?_, fun q hq => processTerminate_record m.sys code hq⟩
    intro i hi
    rw [processTerminate_slot m.sys h0]
    split_ifs with hclear
    · obtain ⟨hrange, rfl⟩ := hclear
      by_contra hslot
      obtain ⟨hlive, hpid⟩ := h.slot_cases hp hrange.1 (Ne.symm hslot)
      exact hunused _ hlive hi hpid
    · rfl

/-! ## Terminations that affect only their process -/

theorem MadeInv.terminate {m : MadeMachine τ} (h : MadeInv inUse idle m) (hp : p ∈ m.made)
    (hunused : PidUnused m p) (code : ℤ) :
    MadeInv inUse idle { m with sys := processTerminate m.sys p code } := by
  have h0 := (h.inUse_made p hp).1
  have hself : (processTerminate m.sys p code).procs p =
      { m.sys.procs p with state := .terminated, exitCode := code } := by
    rw [processTerminate_of_ne m.sys h0]
    exact Function.update_self _ _ _
  have henv : (processTerminate m.sys p code).env = m.sys.env := by
    rw [processTerminate_of_ne m.sys h0]
    rfl
  have hlive : MadeMachine.live { m with sys := processTerminate m.sys p code } =
      m.live.filter (· ≠ p) := by
    rw [MadeMachine.live, MadeMachine.live, List.filter_filter]
    apply List.filter_congr
    intro a _
    by_cases hap : a = p
    · simp [hap, hself]
    · simp [hap, processTerminate_record m.sys code hap]
  refine ⟨?_, ?_, ?_⟩
  · rw [hlive]
    by_cases hdead : (m.sys.procs p).state = .terminated
    · -- `p` has no slot any more, and nothing changes but its exit code
      have hmem : p ∉ m.live := fun hmem => (MadeMachine.mem_live.mp hmem).2 hdead
      have hkeep : m.live.filter (· ≠ p) = m.live := by
        rw [List.filter_eq_self]
        intro a ha
        simpa using fun hap : a = p => hmem (hap ▸ ha)
      rw [hkeep]
      refine h.table.congr ?_ ?_ (fun a _ => pid_processTerminate m.sys p code a) ?_ ?_ ?_
      · rw [processTerminate_of_ne m.sys h0]
        rfl
      · funext i
        rw [processTerminate_slot m.sys h0]
        split_ifs with hclear
        · obtain ⟨hrange, rfl⟩ := hclear
          by_contra hslot
          obtain ⟨hin, heq⟩ := h.slot_cases hp hrange.1 (Ne.symm hslot)
          refine hunused _ hin ?_ heq
          intro hslotp
          exact hmem (hslotp ▸ hin)
        · rfl
      · intro a ha
        rw [processTerminate_record m.sys code fun hap : a = p => hmem (hap ▸ ha)]
      · rw [henv]
      · rw [processTerminate_of_ne m.sys h0]
        exact h.table.nextPid
    · exact h.table.terminate (MadeMachine.mem_live.mpr ⟨hp, hdead⟩) code
  · simp only [henv]
    exact h.inUse_made
  · simp only [pid_processTerminate]
    exact h.pid_made

theorem madeInv_boot (hS : S.Lawful inUse) (s : Sys τ) :
    MadeInv inUse (processGetCurrent (tableBoot S s).sys) (madeBoot S s) := by
  have hboot := (tableInv_boot hS s).1
  have hlive : (madeBoot S s).live = (tableBoot S s).live := by
    rw [MadeMachine.live, madeBoot, List.filter_eq_self]
    intro a ha
    simpa using hboot.state a ha
  refine ⟨?_, hboot.inUse_live, ?_⟩
  · rw [hlive]
    exact hboot
  · intro a ha hne
    -- idle is the only process there is
    have hidle : ∀ a ∈ (tableBoot S s).live, a = processGetCurrent (tableBoot S s).sys := by
      simp only [tableBoot]
      split_ifs
      · simp
      · simp
    exact absurd (hidle a ha) hne

/-! ## Every run -/

/-- A termination affects only its process. -/
def StepAffectsOnly (m : MadeMachine τ) : TableOp → Prop
  | .create _ _ _ => True
  | .terminate p code => AffectsOnly m.sys p code

/-- A process that is terminated has a PID that no other has who is not. -/
def StepPidUnused (m : MadeMachine τ) : TableOp → Prop
  | .create _ _ _ => True
  | .terminate p _ => PidUnused m p

/-- For every sequence of creations and terminations after `process_init`, of live and of
    terminated processes: each termination leaves the slot, the state and the exit code of
    all other processes as they were iff none is of a process whose PID has been given to
    another one that is not terminated. -/
theorem terminate_affects_only_iff (hS : S.Lawful inUse) (s : Sys τ) (es : List TableOp)
    (u : MadeMachine τ) (hrun : run (madeStep S) (madeBoot S s) es = some u) :
    Meets (madeStep S) StepAffectsOnly (madeBoot S s) es ↔
      Meets (madeStep S) StepPidUnused (madeBoot S s) es := by
  refine meets_congr (MadeInv inUse (processGetCurrent (tableBoot S s).sys)) ?_ ?_
    (madeInv_boot hS s) hrun
  · intro m e t h ht
    cases e with
    | create name entry priority => exact Iff.rfl
    | terminate p code =>
      rw [madeStep, Option.ite_none_right_eq_some] at ht
      exact affectsOnly_iff h ht.1 code
  · intro m e t h hunused ht
    cases e with
    | create name entry priority => exact h.create hS ht
    | terminate p code =>
      rw [madeStep, Option.ite_none_right_eq_some] at ht
      obtain ⟨hp, ht⟩ := ht
      obtain rfl := Option.some_inj.mp ht
      exact h.terminate hp hunused code

/-- A process is terminated twice, with no other created in between. -/
theorem terminate_affects_only_iff_bump :
    Meets (madeStep bumpServices) StepAffectsOnly (madeBoot bumpServices coldSys)
      [.create (cstr "worker_a") 0x101000 1, .terminate 8364 0, .terminate 8364 1] := by
  have hrun : (run (madeStep bumpServices) (madeBoot bumpServices coldSys)
      [.create (cstr "worker_a") 0x101000 1, .terminate 8364 0, .terminate 8364 1]).isSome = true := by
    decide +kernel
  obtain ⟨u, hu⟩ := Option.isSome_iff_exists.mp hrun
  refine (terminate_affects_only_iff lawful_bumpServices coldSys _ u hu).mpr ⟨trivial, ?_⟩
  intro m hm
  obtain rfl := Option.some_inj.mp hm
  refine ⟨?_, ?_⟩
  · unfold StepPidUnused PidUnused
    decide +kernel
  · intro n hn
    rw [madeStep, Option.ite_none_right_eq_some] at hn
    obtain rfl := Option.some_inj.mp hn.2
    refine ⟨?_, fun _ _ => trivial⟩
    unfold StepPidUnused PidUnused
    decide +kernel

/-- A process is created and terminated, and then as many processes as it takes for its
    PID, which is 2, to be given out again. -/
def reuseOps : List TableOp :=
  .create (cstr "worker_a") 0x101000 1 :: .terminate 8364 0 ::
    List.replicate 254 (.create (cstr "worker_b") 0x101040 1)

/-- Terminating the first process again takes the last one out of the table. -/
theorem reused_pid_cleared :
    ∃ m, run (madeStep bumpServices) (madeBoot bumpServices coldSys) reuseOps = some m ∧
      8364 ∈ m.made ∧ processGetByPid m.sys 2 ∈ m.live ∧ processGetByPid m.sys 2 ≠ 8364 ∧
      processGetByPid (processTerminate m.sys 8364 0) 2 = 0 ∧ ¬ AffectsOnly m.sys 8364 0 := by
  have hrun : (run (madeStep bumpServices) (madeBoot bumpServices coldSys) reuseOps).any
      (fun m => 8364 ∈ m.made ∧ processGetByPid m.sys 2 ∈ m.live ∧ processGetByPid m.sys 2 ≠ 8364 ∧
        processGetByPid m.sys 2 ≠ 0 ∧ processGetByPid (processTerminate m.sys 8364 0) 2 = 0) =
        true := by
    decide +kernel
  obtain ⟨m, hm, hend⟩ := (Option.any_eq_true _ _).mp hrun
  obtain ⟨hmade, hlive, hne, h0, hgone⟩ := of_decide_eq_true hend
  refine ⟨m, hm, hmade, hlive, hne, hgone, ?_⟩
  intro honly
  exact h0 ((honly.slot 2 hne).symm.trans hgone)

end NexusKernel.Process
