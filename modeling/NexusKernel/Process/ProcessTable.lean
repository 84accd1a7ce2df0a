import NexusKernel.Common.Run
import NexusKernel.Process.Process

/-!
# The process table

`process_create` enters the new process in a free slot and gives it the slot's number
as its PID. `process_init` then writes 0 into the PID of idle, but leaves idle in the
slot it was given, slot 1.

Results:
* `processGetNextPid_eq`: the two loops that look for a slot are one search in cyclic
  order.
* `processGetNextPid_spec`, `processCreate_table`: the slot is free, and the process
  and its slot agree.
* `pid_search_complete`: the search misses no free slot, from any state of the table, and
  so no creation in any run fails for lack of a PID while there is one.
* `process_table_indexed_iff`: the table is indexed by PID only if idle could not be
  created; idle and the PIDs 0 and 1 apart, it always is.
-/

namespace NexusKernel.Process

variable {τ : Type} {S : Services τ} {inUse : τ → Set ℕ}

/-! ## The slot of a new process -/

/-- The slots from `n` on, and then those before `n`; slot 0 is not among them. -/
def cyclicOrder (n : ℕ) : List ℕ := List.range' n (maxProcesses - n) ++ List.range' 1 (n - 1)

theorem mem_cyclicOrder {n i : ℕ} (h1 : 1 ≤ n) (h2 : n ≤ maxProcesses) :
    i ∈ cyclicOrder n ↔ 1 ≤ i ∧ i < maxProcesses := by
  rw [cyclicOrder, List.mem_append, List.mem_range'_1, List.mem_range'_1]
  omega

/-- The two loops are one search in cyclic order. -/
theorem processGetNextPid_eq (s : Sys τ) : processGetNextPid s =
    match (cyclicOrder s.nextPid).find? fun i => s.processTable i = 0 with
    | some pid => (some pid, { s with nextPid := pid + 1 })
    | none => (none, s) := by
  rw [processGetNextPid, cyclicOrder, List.find?_append]
  cases (List.range' s.nextPid (maxProcesses - s.nextPid)).find? fun i => s.processTable i = 0 <;>
    rfl

/-- The search finds a free slot with a positive number. -/
theorem processGetNextPid_spec {s t : Sys τ} {pid : ℕ} (h1 : 1 ≤ s.nextPid)
    (h2 : s.nextPid ≤ maxProcesses) (h : processGetNextPid s = (some pid, t)) :
    s.processTable pid = 0 ∧ 1 ≤ pid ∧ pid < maxProcesses ∧ t = { s with nextPid := pid + 1 } := by
  rw [processGetNextPid_eq] at h
  split at h
  · rename_i i hi
    obtain ⟨hpid, rfl⟩ := Prod.mk.inj h
    obtain rfl := Option.some_inj.mp hpid
    obtain ⟨hpos, hlt⟩ := (mem_cyclicOrder h1 h2).mp (List.mem_of_find?_eq_some hi)
    exact ⟨by simpa using List.find?_some hi, hpos, hlt, rfl⟩
  · exact absurd (Prod.mk.inj h).1 (Option.some_ne_none pid).symm

theorem processGetNextPid_none {s t : Sys τ} (h : processGetNextPid s = (none, t)) : t = s := by
  rw [processGetNextPid_eq] at h
  split at h
  · exact absurd (Prod.mk.inj h).1 (Option.some_ne_none _)
  · exact (Prod.mk.inj h).2.symm

/-- It fails exactly if all slots but slot 0 are taken. -/
theorem processGetNextPid_eq_none_iff {s : Sys τ} (h1 : 1 ≤ s.nextPid)
    (h2 : s.nextPid ≤ maxProcesses) :
    (processGetNextPid s).1 = none ↔ ∀ i, 1 ≤ i → i < maxProcesses → s.processTable i ≠ 0 := by
  have hnone : (processGetNextPid s).1 = none ↔
      ((cyclicOrder s.nextPid).find? fun i => s.processTable i = 0) = none := by
    rw [processGetNextPid_eq]
    cases (cyclicOrder s.nextPid).find? fun i => s.processTable i = 0 <;> simp
  rw [hnone, List.find?_eq_none]
  simp only [mem_cyclicOrder h1 h2, decide_eq_true_eq, and_imp]

/-- A failed creation leaves the table alone; a successful one enters the process in the
    slot of its PID. -/
theorem processCreate_table (S : Services τ) {s t : Sys τ} {p : ℕ} {name : ℕ → Byte} {entry : ℕ}
    {priority : ℤ} (h1 : 1 ≤ s.nextPid) (h2 : s.nextPid ≤ maxProcesses)
    (h : processCreate S s name entry priority = (p, t)) :
    1 ≤ t.nextPid ∧ t.nextPid ≤ maxProcesses ∧
      (p = 0 → t.processTable = s.processTable) ∧
      (p ≠ 0 → ∃ pid, (processGetNextPid s).1 = some pid ∧ s.processTable pid = 0 ∧ 1 ≤ pid ∧
        pid < maxProcesses ∧ t.processTable = Function.update s.processTable pid p ∧
        (t.procs p).pid = pid) := by
  rcases hpid : processGetNextPid s with ⟨_ | pid, s'⟩
  · obtain rfl := processGetNextPid_none hpid
    simp only [processCreate, hpid] at h
    obtain ⟨rfl, rfl⟩ := Prod.mk.inj h
    exact ⟨h1, h2, fun _ => rfl, fun h => absurd rfl h⟩
  · obtain ⟨hfree, hpid1, hpid2, rfl⟩ := processGetNextPid_spec h1 h2 hpid
    simp only [processCreate, hpid] at h
    rcases hk : S.kmalloc s.env sizeofProcess with ⟨proc, e1⟩
    rcases hc : S.createAddressSpace e1 with ⟨dir, e2⟩
    rcases hs : S.kmalloc e2 kernelStackSize with ⟨kstack, e3⟩
    simp only [hk, setProc_env, hc, hs] at h
    split_ifs at h with h0 hd hks hentry
    all_goals obtain ⟨rfl, rfl⟩ := Prod.mk.inj h
    · exact ⟨by simp, hpid2, fun _ => rfl, fun h => absurd rfl h⟩
    · exact ⟨by simp [Sys.setProc], hpid2, fun _ => rfl, fun h => absurd rfl h⟩
    · exact ⟨by simp [Sys.setProc], hpid2, fun _ => rfl, fun h => absurd rfl h⟩
    · refine ⟨by simp [Sys.setProc, Sys.setState], hpid2, fun h => absurd h h0, fun _ => ?_⟩
      exact ⟨pid, rfl, hfree, hpid1, hpid2, rfl, by simp [Sys.setProc, Sys.setState, newProc]⟩
    · refine ⟨by simp [Sys.setProc, Sys.setState], hpid2, fun h => absurd h h0, fun _ => ?_⟩
      exact ⟨pid, rfl, hfree, hpid1, hpid2, rfl, by simp [Sys.setProc, Sys.setState, newProc]⟩

/-- One of the allocations for a new process fails. -/
def NoRoom (S : Services τ) (e : τ) : Prop :=
  (S.kmalloc e sizeofProcess).1 = 0 ∨
  (S.createAddressSpace (S.kmalloc e sizeofProcess).2).1 = 0 ∨
  (S.kmalloc (S.createAddressSpace (S.kmalloc e sizeofProcess).2).2 kernelStackSize).1 = 0

/-- With a free slot, a creation fails exactly if an allocation does. -/
theorem processCreate_eq_zero_iff (S : Services τ) {s t : Sys τ} {pid : ℕ}
    (hpid : processGetNextPid s = (some pid, t)) (henv : t.env = s.env) (name : ℕ → Byte)
    (entry : ℕ) (priority : ℤ) :
    (processCreate S s name entry priority).1 = 0 ↔ NoRoom S s.env := by
  rcases hk : S.kmalloc s.env sizeofProcess with ⟨proc, e1⟩
  rcases hc : S.createAddressSpace e1 with ⟨dir, e2⟩
  rcases hs : S.kmalloc e2 kernelStackSize with ⟨kstack, e3⟩
  simp only [processCreate, hpid, NoRoom, henv, hk, setProc_env, hc, hs]
  split_ifs with h0 hd hks
  · exact iff_of_true rfl (.inl h0)
  · exact iff_of_true rfl (.inr (.inl hd))
  · exact iff_of_true rfl (.inr (.inr hks))
  · exact iff_of_false h0 (not_or.mpr ⟨h0, not_or.mpr ⟨hd, hks⟩⟩)
  · exact iff_of_false h0 (not_or.mpr ⟨h0, not_or.mpr ⟨hd, hks⟩⟩)

/-! ## Runs -/

/-- The system with the processes created and not yet terminated. -/
structure TableMachine (τ : Type) where
  sys : Sys τ
  live : List ℕ

inductive TableOp where
  | create (name : ℕ → Byte) (entry : ℕ) (priority : ℤ)
  | terminate (p : ℕ) (code : ℤ)

/-- One call; only a live process is terminated. -/
def tableStep (S : Services τ) (m : TableMachine τ) : TableOp → Option (TableMachine τ)
  | .create name entry priority =>
    let (p, s) := processCreate S m.sys name entry priority
    some { sys := s, live := if p = 0 then m.live else p :: m.live }
  | .terminate p code =>
    if p ∈ m.live then
      some { sys := processTerminate m.sys p code, live := m.live.filter (· ≠ p) }
    else none

/-- The machine after `process_init`, with `next_pid` as it is initialised. -/
def tableBoot (S : Services τ) (s : Sys τ) : TableMachine τ :=
  let s := processInit S { s with nextPid := 1 }
  { sys := s, live := if processGetCurrent s = 0 then [] else [processGetCurrent s] }

/-- The table holds only live processes, each in the slot of its PID, and finds every
    live process. -/
structure Indexed (m : TableMachine τ) : Prop where
  pid_eq : ∀ pid : ℤ, processGetByPid m.sys pid = 0 ∨
    ((m.sys.procs (processGetByPid m.sys pid)).pid = pid ∧
      (m.sys.procs (processGetByPid m.sys pid)).state ≠ .terminated)
  found : ∀ p ∈ m.live, processGetByPid m.sys (m.sys.procs p).pid = p

/-- The same for every process but idle and every PID but 0 and 1. -/
structure IndexedButIdle (m : TableMachine τ) : Prop where
  pid_eq : ∀ pid : ℤ, pid ≠ 0 → pid ≠ 1 → processGetByPid m.sys pid = 0 ∨
    ((m.sys.procs (processGetByPid m.sys pid)).pid = pid ∧
      (m.sys.procs (processGetByPid m.sys pid)).state ≠ .terminated)
  found : ∀ p ∈ m.live, p ≠ processGetCurrent m.sys →
    processGetByPid m.sys (m.sys.procs p).pid = p

/-! ## The invariant -/

/-- Every slot but that of idle agrees with the process in it. `idle` is the process
    `process_init` made, or 0. -/
structure TableInv (inUse : τ → Set ℕ) (idle : ℕ) (m : TableMachine τ) : Prop where
  current_eq : processGetCurrent m.sys = idle
  slot : ∀ i, m.sys.processTable i ≠ 0 →
    (i = 1 ∧ m.sys.processTable i = idle) ∨
      (m.sys.processTable i ∈ m.live ∧ m.sys.processTable i ≠ idle ∧
        (m.sys.procs (m.sys.processTable i)).pid = i)
  found : ∀ p ∈ m.live, p ≠ idle → (m.sys.procs p).pid < maxProcesses ∧
    0 < (m.sys.procs p).pid ∧ m.sys.processTable (m.sys.procs p).pid = p
  idle_slot : idle ≠ 0 → m.sys.processTable 1 = idle ∧ (m.sys.procs idle).pid = 0 ∧
    idle ∈ inUse m.sys.env
  state : ∀ p ∈ m.live, (m.sys.procs p).state ≠ .terminated
  inUse_live : ∀ p ∈ m.live, p ≠ 0 ∧ p ∈ inUse m.sys.env
  nextPid : 1 ≤ m.sys.nextPid ∧ m.sys.nextPid ≤ maxProcesses

theorem processGetByPid_natCast {s : Sys τ} {pid : ℕ} (h : pid < maxProcesses) :
    processGetByPid s pid = s.processTable pid := by
  rw [processGetByPid, if_neg (by omega), Int.toNat_natCast]

/-- A PID in range is looked up in the table, any other is not found. -/
theorem processGetByPid_cases (s : Sys τ) (pid : ℤ) :
    processGetByPid s pid = 0 ∨ ∃ i : ℕ, pid = i ∧ processGetByPid s pid = s.processTable i := by
  by_cases h : pid < 0 ∨ pid ≥ maxProcesses
  · exact .inl (if_pos h)
  · exact .inr ⟨pid.toNat, by omega, if_neg h⟩

theorem TableInv.indexedButIdle {idle : ℕ} {m : TableMachine τ} (h : TableInv inUse idle m) :
    IndexedButIdle m := by
  constructor
  · intro pid _ hpid1
    obtain h0 | ⟨i, rfl, hi⟩ := processGetByPid_cases m.sys pid
    · exact .inl h0
    rw [hi]
    by_cases hslot : m.sys.processTable i = 0
    · exact .inl hslot
    obtain ⟨rfl, -⟩ | ⟨hlive, -, hpid⟩ := h.slot i hslot
    · exact absurd rfl hpid1
    · exact .inr ⟨by rw [hpid], h.state _ hlive⟩
  · intro p hp hne
    obtain ⟨hlt, -, hslot⟩ := h.found p hp (h.current_eq ▸ hne)
    rw [processGetByPid_natCast hlt, hslot]

theorem TableInv.indexed_iff {idle : ℕ} {m : TableMachine τ} (h : TableInv inUse idle m) :
    Indexed m ↔ idle = 0 := by
  constructor
  · intro hm
    by_contra hidle
    obtain ⟨hslot, hpid, -⟩ := h.idle_slot hidle
    have hget : processGetByPid m.sys 1 = idle := by
      rw [← hslot]
      exact processGetByPid_natCast (by decide)
    obtain h0 | ⟨heq, -⟩ := hm.pid_eq 1
    · exact hidle (hget.symm.trans h0)
    · rw [hget, hpid] at heq
      exact absurd heq (by decide)
  · intro h0
    constructor
    · intro pid
      obtain hnone | ⟨i, rfl, hi⟩ := processGetByPid_cases m.sys pid
      · exact .inl hnone
      rw [hi]
      by_cases hslot : m.sys.processTable i = 0
      · exact .inl hslot
      obtain ⟨-, heq⟩ | ⟨hlive, -, hpid⟩ := h.slot i hslot
      · exact absurd (heq.trans h0) hslot
      · exact .inr ⟨by rw [hpid], h.state _ hlive⟩
    · intro p hp
      obtain ⟨hlt, -, hslot⟩ := h.found p hp (h0 ▸ (h.inUse_live p hp).1)
      rw [processGetByPid_natCast hlt, hslot]

/-- The invariant depends on the table, the PIDs and the states of the live processes only;
    more memory may be in use. -/
theorem TableInv.congr {idle : ℕ} {live : List ℕ} {s t : Sys τ} (h : TableInv inUse idle ⟨s, live⟩)
    (hcur : t.currentProcess = s.currentProcess) (htable : t.processTable = s.processTable)
    (hpid : ∀ a ∈ inUse s.env, (t.procs a).pid = (s.procs a).pid)
    (hstate : ∀ a ∈ live, (t.procs a).state = (s.procs a).state)
    (hin : inUse s.env ⊆ inUse t.env) (hnext : 1 ≤ t.nextPid ∧ t.nextPid ≤ maxProcesses) :
    TableInv inUse idle ⟨t, live⟩ where
  current_eq := hcur.trans h.current_eq
  slot := by
    intro i hi
    simp only [htable] at hi ⊢
    obtain hone | ⟨hlive, hne, heq⟩ := h.slot i hi
    · exact .inl hone
    · exact .inr ⟨hlive, hne, (hpid _ (h.inUse_live _ hlive).2).trans heq⟩
  found := by
    intro a ha
    simp only [htable, hpid a (h.inUse_live a ha).2]
    exact h.found a ha
  idle_slot := by
    intro h0
    obtain ⟨hslot, hzero, hidle⟩ := h.idle_slot h0
    exact ⟨htable ▸ hslot, (hpid idle hidle).trans hzero, hin hidle⟩
  state := by
    intro a ha
    rw [hstate a ha]
    exact h.state a ha
  inUse_live a ha := ⟨(h.inUse_live a ha).1, hin (h.inUse_live a ha).2⟩
  nextPid := hnext

/-- A process is entered in the slot of its PID, which is free. -/
theorem TableInv.enter {idle p : ℕ} {live : List ℕ} {s : Sys τ} (h : TableInv inUse idle ⟨s, live⟩)
    (hp : p ≠ 0 ∧ p ∈ inUse s.env) (hpi : p ≠ idle) (hstate : (s.procs p).state ≠ .terminated)
    (hpos : 1 ≤ (s.procs p).pid) (hlt : (s.procs p).pid < maxProcesses)
    (hfree : s.processTable (s.procs p).pid = 0) :
    TableInv inUse idle
      ⟨{ s with processTable := Function.update s.processTable (s.procs p).pid p }, p :: live⟩ where
  current_eq := h.current_eq
  slot := by
    intro i hi
    show (i = 1 ∧ Function.update s.processTable (s.procs p).pid p i = idle) ∨ _
    by_cases hip : i = (s.procs p).pid
    · rw [hip]
      simp only [Function.update_self]
      exact .inr ⟨List.mem_cons_self, hpi, trivial⟩
    · simp only [Function.update_of_ne hip] at hi ⊢
      obtain hone | ⟨hmem, hne, hpid⟩ := h.slot i hi
      · exact .inl hone
      · exact .inr ⟨List.mem_cons_of_mem p hmem, hne, hpid⟩
  found := by
    intro a ha hne
    obtain rfl | ha := List.mem_cons.mp ha
    · exact ⟨hlt, hpos, Function.update_self _ _ _⟩
    · obtain ⟨hlt', hpos', hslot⟩ := h.found a ha hne
      refine ⟨hlt', hpos', (Function.update_of_ne ?_ _ _).trans hslot⟩
      intro heq
      exact (h.inUse_live a ha).1 (hslot.symm.trans ((congrArg s.processTable heq).trans hfree))
  idle_slot := by
    intro h0
    obtain ⟨hslot, hrest⟩ := h.idle_slot h0
    refine ⟨(Function.update_of_ne ?_ _ _).trans hslot, hrest⟩
    intro heq
    rw [heq, hfree] at hslot
    exact h0 hslot.symm
  state := List.forall_mem_cons.mpr ⟨hstate, h.state⟩
  inUse_live := List.forall_mem_cons.mpr ⟨hp, h.inUse_live⟩
  nextPid := h.nextPid

theorem TableInv.create (hS : S.Lawful inUse) {idle : ℕ} {m t : TableMachine τ}
    (h : TableInv inUse idle m) {name : ℕ → Byte} {entry : ℕ} {priority : ℤ}
    (ht : tableStep S m (.create name entry priority) = some t) : TableInv inUse idle t := by
  have hc := created_processCreate hS m.sys name entry priority
  rcases hpc : processCreate S m.sys name entry priority with ⟨p, s⟩
  obtain ⟨hn1, hn2, hfail, hnew⟩ := processCreate_table S h.nextPid.1 h.nextPid.2 hpc
  simp only [hpc] at hc
  simp only [tableStep, hpc, Option.some.injEq] at ht
  subst ht
  -- whether it succeeds or not, the creation changes no record that is in use
  have hkeep : TableInv inUse idle ⟨{ s with processTable := m.sys.processTable }, m.live⟩ := by
    refine h.congr ?_ rfl ?_ ?_ hc.inUse_mono ⟨hn1, hn2⟩
    · rw [hc.rest_eq]
    · intro a ha
      exact congrArg Proc.pid (hc.eq_of_inUse a ha)
    · intro a ha
      exact congrArg Proc.state ((hc.keepsKnown h.inUse_live).procs_eq a ha)
  by_cases h0 : p = 0
  · simp only [if_pos h0]
    rwa [← hfail h0] at hkeep
  · obtain ⟨hfresh, hin, hready⟩ := hc.fresh h0
    obtain ⟨pid, -, hfree, hpid1, hpid2, htable, rfl⟩ := hnew h0
    have hpi : p ≠ idle := by
      rintro rfl
      exact hfresh (h.idle_slot h0).2.2
    have hstate : (s.procs p).state ≠ .terminated := by
      rw [hready]
      decide
    have henter := hkeep.enter ⟨h0, hin⟩ hpi hstate hpid1 hpid2 hfree
    simp only [if_neg h0]
    rwa [← htable] at henter

theorem processTerminate_slot {p : ℕ} (s : Sys τ) (h0 : p ≠ 0) (code : ℤ) (i : ℕ) :
    (processTerminate s p code).processTable i =
      if (0 < (s.procs p).pid ∧ (s.procs p).pid < maxProcesses) ∧ i = (s.procs p).pid then 0
      else s.processTable i := by
  rw [processTerminate_of_ne s h0]
  show (if 0 < (s.procs p).pid ∧ (s.procs p).pid < maxProcesses then
    Function.update s.processTable (s.procs p).pid 0 else s.processTable) i = _
  by_cases hrange : 0 < (s.procs p).pid ∧ (s.procs p).pid < maxProcesses
  · rw [if_pos hrange, Function.update_apply]
    simp only [hrange, and_self, true_and]
  · rw [if_neg hrange, if_neg fun hand => hrange hand.1]

/-- A live process is removed; idle keeps its slot. -/
theorem TableInv.remove {idle p : ℕ} {live : List ℕ} {s : Sys τ} (h : TableInv inUse idle ⟨s, live⟩)
    (hp : p ∈ live) :
    TableInv inUse idle
      ⟨{ s with processTable := fun i =>
          if p ≠ idle ∧ i = (s.procs p).pid then 0 else s.processTable i },
        live.filter (· ≠ p)⟩ where
  current_eq := h.current_eq
  slot := by
    intro i hi
    show (i = 1 ∧ (if p ≠ idle ∧ i = (s.procs p).pid then 0 else s.processTable i) = idle) ∨ _
    have hkept : ¬ (p ≠ idle ∧ i = (s.procs p).pid) := fun hclear => hi (if_pos hclear)
    simp only [if_neg hkept] at hi ⊢
    obtain hone | ⟨hlive, hne, hpid⟩ := h.slot i hi
    · exact .inl hone
    · refine .inr ⟨List.mem_filter.mpr ⟨hlive, decide_eq_true ?_⟩, hne, hpid⟩
      rintro rfl
      exact hkept ⟨hne, hpid.symm⟩
  found := by
    intro a ha hne
    obtain ⟨ha, hap⟩ := List.mem_filter.mp ha
    obtain ⟨hlt, hpos, hslot⟩ := h.found a ha hne
    refine ⟨hlt, hpos, (if_neg ?_).trans hslot⟩
    rintro ⟨hpi, heq⟩
    have hsame := (congrArg s.processTable heq).trans (h.found p hp hpi).2.2
    exact of_decide_eq_true hap (hslot.symm.trans hsame)
  idle_slot := by
    intro h0
    obtain ⟨hslot, hrest⟩ := h.idle_slot h0
    refine ⟨(if_neg ?_).trans hslot, hrest⟩
    rintro ⟨hpi, heq⟩
    rw [heq, (h.found p hp hpi).2.2] at hslot
    exact hpi hslot
  state a ha := h.state a (List.mem_of_mem_filter ha)
  inUse_live a ha := h.inUse_live a (List.mem_of_mem_filter ha)
  nextPid := h.nextPid

/-- The slots after the termination of a live process: all but idle have a PID in range. -/
theorem TableInv.slot_terminate {idle p : ℕ} {m : TableMachine τ} (h : TableInv inUse idle m)
    (hp : p ∈ m.live) (code : ℤ) : (processTerminate m.sys p code).processTable =
      fun i => if p ≠ idle ∧ i = (m.sys.procs p).pid then 0 else m.sys.processTable i := by
  have h0 := (h.inUse_live p hp).1
  funext i
  rw [processTerminate_slot m.sys h0]
  refine if_congr (and_congr_left' ?_) rfl rfl
  by_cases hpi : p = idle
  · have hzero : (m.sys.procs p).pid = 0 := hpi ▸ (h.idle_slot (hpi ▸ h0)).2.1
    exact iff_of_false (by omega) (not_not.mpr hpi)
  · obtain ⟨hlt, hpos, -⟩ := h.found p hp hpi
    exact iff_of_true ⟨hpos, hlt⟩ hpi

theorem TableInv.terminate {idle : ℕ} {m : TableMachine τ} (h : TableInv inUse idle m) {p : ℕ}
    (hp : p ∈ m.live) (code : ℤ) : TableInv inUse idle
      { sys := processTerminate m.sys p code, live := m.live.filter (· ≠ p) } := by
  have hof := processTerminate_of_ne m.sys (h.inUse_live p hp).1 code
  refine (h.remove hp).congr ?_ (h.slot_terminate hp code) ?_ ?_ ?_ ?_
  · rw [hof]
    rfl
  · exact fun a _ => pid_processTerminate m.sys p code a
  · -- only the state of `p` changes, and `p` is not live any more
    intro a ha
    rw [processTerminate_record m.sys code (of_decide_eq_true (List.mem_filter.mp ha).2)]
  · rw [hof]
    exact subset_rfl
  · rw [hof]
    exact h.nextPid

theorem tableInv_step (hS : S.Lawful inUse) {idle : ℕ} {m t : TableMachine τ} {e : TableOp}
    (h : TableInv inUse idle m) (ht : tableStep S m e = some t) : TableInv inUse idle t := by
  cases e with
  | create name entry priority => exact h.create hS ht
  | terminate p code =>
    rw [tableStep, Option.ite_none_right_eq_some] at ht
    obtain ⟨hp, ht⟩ := ht
    obtain rfl := Option.some_inj.mp ht
    exact h.terminate hp code

/-! ## Boot -/

/-- The first slot `process_init` gives out is slot 1. -/
theorem processGetNextPid_boot (s : Sys τ) :
    processGetNextPid { s with processTable := fun _ => 0, currentProcess := 0, nextPid := 1 } =
      (some 1,
        { s with processTable := fun _ => 0, currentProcess := 0, nextPid := 2 }) := rfl

/-- The table with idle in slot 1 and nothing else. -/
theorem tableInv_makeIdle (S : Services τ) {t : Sys τ} {p : ℕ} (hp : p ≠ 0 ∧ p ∈ inUse t.env)
    (htable : t.processTable = Function.update (fun _ => 0) 1 p)
    (hnext : 1 ≤ t.nextPid ∧ t.nextPid ≤ maxProcesses) :
    TableInv inUse p { sys := makeIdle S t p, live := [p] } where
  current_eq := rfl
  slot := by
    intro i hi
    have hslot : t.processTable i ≠ 0 := hi
    show (i = 1 ∧ t.processTable i = p) ∨ _
    rw [htable] at hslot ⊢
    by_cases hi1 : i = 1
    · exact .inl ⟨hi1, by rw [hi1, Function.update_self]⟩
    · rw [Function.update_of_ne hi1] at hslot
      exact absurd rfl hslot
  found := by
    intro a ha hne
    exact absurd (List.mem_singleton.mp ha) hne
  idle_slot := by
    intro _
    refine ⟨?_, congrArg Proc.pid (makeIdle_procs S t p), hp.2⟩
    show t.processTable 1 = p
    rw [htable, Function.update_self]
  state := by
    refine List.forall_mem_singleton.mpr ?_
    rw [makeIdle_procs]
    simp
  inUse_live := List.forall_mem_singleton.mpr hp
  nextPid := hnext

theorem tableInv_boot (hS : S.Lawful inUse) (s : Sys τ) :
    TableInv inUse (processGetCurrent (tableBoot S s).sys) (tableBoot S s) ∧
      (processGetCurrent (tableBoot S s).sys = 0 ↔ NoRoom S s.env) := by
  have hroom := processCreate_eq_zero_iff S (processGetNextPid_boot s) rfl (cstr "idle") 0 0
  have hc := created_processCreate hS
    { s with processTable := fun _ => 0, currentProcess := 0, nextPid := 1 } (cstr "idle") 0 0
  rcases hpc : processCreate S
    { s with processTable := fun _ => 0, currentProcess := 0, nextPid := 1 } (cstr "idle") 0 0
    with ⟨p, t⟩
  obtain ⟨hn1, hn2, hfail, hnew⟩ := processCreate_table S (le_refl 1)
    (show 1 ≤ maxProcesses by decide) hpc
  rw [hpc] at hroom
  simp only [hpc] at hc
  have hcur : t.currentProcess = 0 := by rw [hc.rest_eq]
  by_cases h0 : p = 0
  · have hinit : processInit S { s with nextPid := 1 } = t := by
      simp only [processInit, hpc, h0, ne_eq, not_true_eq_false, if_false]
    have hboot : tableBoot S s = { sys := t, live := [] } := by
      simp only [tableBoot, hinit, processGetCurrent, hcur, if_true]
    rw [hboot]
    refine ⟨⟨rfl, ?_, by simp, fun h => absurd hcur h, by simp, by simp, hn1, hn2⟩, ?_⟩
    · intro i hi
      rw [hfail h0] at hi
      exact absurd rfl hi
    · exact iff_of_true hcur (hroom.mp h0)
  · obtain ⟨-, hin, -⟩ := hc.fresh h0
    obtain ⟨pid, hpid, -, -, -, htable, -⟩ := hnew h0
    rw [processGetNextPid_boot] at hpid
    obtain rfl := Option.some_inj.mp hpid
    have hinit : processInit S { s with nextPid := 1 } = makeIdle S t p := by
      simp only [processInit, hpc, ne_eq, h0, not_false_eq_true, if_true]
      rfl
    have hboot : tableBoot S s = { sys := makeIdle S t p, live := [p] } := by
      simp only [tableBoot, hinit]
      exact congrArg (TableMachine.mk (makeIdle S t p)) (if_neg h0)
    rw [hboot]
    refine ⟨tableInv_makeIdle S ⟨h0, hin⟩ htable ⟨hn1, hn2⟩, ?_⟩
    exact iff_of_false h0 fun h => h0 (hroom.mpr h)

/-- **The process table is indexed by PID** along a run exactly if idle could not be
    created. Idle and the PIDs 0 and 1 apart, it is along every run. -/
theorem process_table_indexed_iff (hS : S.Lawful inUse) (s : Sys τ) (es : List TableOp) :
    (Along (tableStep S) Indexed (tableBoot S s) es ↔ NoRoom S s.env) ∧
      Along (tableStep S) IndexedButIdle (tableBoot S s) es := by
  obtain ⟨hboot, hroom⟩ := tableInv_boot hS s
  have hstep : ∀ (m : TableMachine τ) e t,
      TableInv inUse (processGetCurrent (tableBoot S s).sys) m → tableStep S m e = some t →
      TableInv inUse (processGetCurrent (tableBoot S s).sys) t :=
    fun m e t h ht => tableInv_step hS h ht
  refine ⟨?_, along_of_invariant _ hstep (fun m h => h.indexedButIdle) hboot es⟩
  rw [← hroom]
  constructor
  · intro halong
    exact hboot.indexed_iff.mp halong.head
  · intro h0
    exact along_of_invariant _ hstep (fun m h => h.indexed_iff.mpr h0) hboot es

theorem process_table_indexed_iff_bump :
    Along (tableStep bumpServices) IndexedButIdle (tableBoot bumpServices coldSys)
      [.create (cstr "worker_a") 0x101000 1, .terminate 8364 0,
        .create (cstr "worker_b") 0x101040 1] :=
  (process_table_indexed_iff lawful_bumpServices coldSys _).2

/-- After `process_init`, PID 1 is found, and it is idle, whose PID is 0. -/
theorem idle_not_indexed : ¬ Indexed (tableBoot bumpServices coldSys) := by
  intro h
  obtain h0 | ⟨hpid, -⟩ := h.pid_eq 1
  · exact absurd h0 (by decide +kernel)
  · exact absurd hpid (by decide +kernel)

/-! ## The search along a run -/

/-- `process_get_next_pid` returns the first free slot in cyclic order from `next_pid` on;
    it fails, and changes nothing, exactly if all slots but slot 0 are taken. -/
structure CyclicSearch (s : Sys τ) : Prop where
  first : processGetNextPid s =
    match (cyclicOrder s.nextPid).find? fun i => s.processTable i = 0 with
    | some pid => (some pid, { s with nextPid := pid + 1 })
    | none => (none, s)
  fails_iff : (processGetNextPid s).1 = none ↔
    ∀ i, 1 ≤ i → i < maxProcesses → s.processTable i ≠ 0
  ne_zero : (processGetNextPid s).1 ≠ some 0
  nextPid : 1 ≤ (processGetNextPid s).2.nextPid ∧ (processGetNextPid s).2.nextPid ≤ maxProcesses

/-- A creation enters nothing in a slot that is taken, and while a slot is free it fails
    only if an allocation does. -/
structure CreatesInFreeSlot (S : Services τ) (s : Sys τ) : Prop where
  keeps : ∀ name entry priority i, s.processTable i ≠ 0 →
    (processCreate S s name entry priority).2.processTable i = s.processTable i
  succeeds : ∀ name entry priority, (∃ i, 1 ≤ i ∧ i < maxProcesses ∧ s.processTable i = 0) →
    ((processCreate S s name entry priority).1 = 0 ↔ NoRoom S s.env)

/-- A creation, or the termination of any process. -/
def pidStep (S : Services τ) (s : Sys τ) : TableOp → Option (Sys τ)
  | .create name entry priority => some (processCreate S s name entry priority).2
  | .terminate p code => some (processTerminate s p code)

section

variable {s : Sys τ}

theorem cyclicSearch (h1 : 1 ≤ s.nextPid) (h2 : s.nextPid ≤ maxProcesses) : CyclicSearch s := by
  refine ⟨processGetNextPid_eq s, processGetNextPid_eq_none_iff h1 h2, ?_, ?_⟩
  · intro h
    rcases hpid : processGetNextPid s with ⟨pid?, t⟩
    obtain rfl : pid? = some 0 := by rw [← h, hpid]
    exact absurd (processGetNextPid_spec h1 h2 hpid).2.1 (by decide)
  · rcases hpid : processGetNextPid s with ⟨_ | pid, t⟩
    · obtain rfl := processGetNextPid_none hpid
      exact ⟨h1, h2⟩
    · obtain ⟨-, hpos, hlt, rfl⟩ := processGetNextPid_spec h1 h2 hpid
      exact ⟨Nat.succ_pos pid, hlt⟩

theorem createsInFreeSlot (S : Services τ) (h1 : 1 ≤ s.nextPid) (h2 : s.nextPid ≤ maxProcesses) :
    CreatesInFreeSlot S s := by
  refine ⟨?_, ?_⟩
  · intro name entry priority i hi
    rcases hpc : processCreate S s name entry priority with ⟨p, t⟩
    obtain ⟨-, -, hfail, hnew⟩ := processCreate_table S h1 h2 hpc
    by_cases h0 : p = 0
    · rw [hfail h0]
    · obtain ⟨pid, -, hfree, -, -, htable, -⟩ := hnew h0
      rw [htable, Function.update_of_ne]
      rintro rfl
      exact hi hfree
  · intro name entry priority ⟨i, hpos, hlt, hfree⟩
    rcases hpid : processGetNextPid s with ⟨_ | pid, t⟩
    · have hnone : (processGetNextPid s).1 = none := by rw [hpid]
      exact absurd hfree ((processGetNextPid_eq_none_iff h1 h2).mp hnone i hpos hlt)
    · obtain ⟨-, -, -, rfl⟩ := processGetNextPid_spec h1 h2 hpid
      exact processCreate_eq_zero_iff S hpid rfl name entry priority

/-- `next_pid` stays in range. -/
theorem nextPid_pidStep (S : Services τ) {t : Sys τ} {e : TableOp}
    (h : 1 ≤ s.nextPid ∧ s.nextPid ≤ maxProcesses) (ht : pidStep S s e = some t) :
    1 ≤ t.nextPid ∧ t.nextPid ≤ maxProcesses := by
  cases e with
  | create name entry priority =>
    obtain rfl := Option.some_inj.mp ht
    obtain ⟨hn1, hn2, -⟩ := processCreate_table S h.1 h.2 (Prod.mk.eta).symm
    exact ⟨hn1, hn2⟩
  | terminate p code =>
    obtain rfl := Option.some_inj.mp ht
    by_cases h0 : p = 0
    · rwa [processTerminate, if_pos h0]
    · rw [processTerminate_of_ne s h0]
      exact h

theorem nextPid_processInit (S : Services τ) (h : 1 ≤ s.nextPid ∧ s.nextPid ≤ maxProcesses) :
    1 ≤ (processInit S s).nextPid ∧ (processInit S s).nextPid ≤ maxProcesses := by
  rcases hpc : processCreate S { s with processTable := fun _ => 0, currentProcess := 0 }
    (cstr "idle") 0 0 with ⟨p, t⟩
  obtain ⟨hn1, hn2, -⟩ := processCreate_table S (by exact h.1) (by exact h.2) hpc
  simp only [processInit, hpc]
  split_ifs
  · exact ⟨hn1, hn2⟩
  · exact ⟨hn1, hn2⟩

end

/-- For every process table and every `next_pid` in range the search is complete; and in
    every state that creations and terminations can reach after `process_init`, no slot
    that is taken is given out, and no creation fails for lack of a PID while a slot is
    free. -/
theorem pid_search_complete :
    (∀ s : Sys τ, 1 ≤ s.nextPid → s.nextPid ≤ maxProcesses → CyclicSearch s) ∧
      ∀ (S : Services τ) (s : Sys τ) (es : List TableOp),
        Along (pidStep S) (fun t => CyclicSearch t ∧ CreatesInFreeSlot S t)
          (processInit S { s with nextPid := 1 }) es := by
  refine ⟨fun s => cyclicSearch, ?_⟩
  intro S s es
  refine along_of_invariant (fun t => 1 ≤ t.nextPid ∧ t.nextPid ≤ maxProcesses) ?_ ?_ ?_ es
  · intro t e u ht hu
    exact nextPid_pidStep S ht hu
  · intro t ht
    exact ⟨cyclicSearch ht.1 ht.2, createsInFreeSlot S ht.1 ht.2⟩
  · exact nextPid_processInit S ⟨le_rfl, show 1 ≤ maxProcesses by decide⟩

/-- From a table with `next_pid` behind its end, and after one creation and one
    termination. -/
theorem pid_search_complete_bump :
    CyclicSearch { coldSys with nextPid := 256 } ∧
      Along (pidStep bumpServices) (fun t => CyclicSearch t ∧ CreatesInFreeSlot bumpServices t)
        (processInit bumpServices { coldSys with nextPid := 1 })
        [.create (cstr "worker_a") 0x101000 1, .terminate 8364 0] :=
  ⟨pid_search_complete.1 _ (by decide) (by decide), pid_search_complete.2 bumpServices coldSys _⟩

end NexusKernel.Process
