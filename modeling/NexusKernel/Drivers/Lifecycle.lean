import NexusKernel.Drivers.Driver

/-!
# The life cycle of drivers

What each driver sees of the registry: its `init` and `cleanup` callbacks, in order. The
callbacks about one driver depend on its own state only, so the invariant is stated for
one driver and its part of the trace, and each call is checked on the one driver that it
is about.

Results:
* `Life.deactivate`, `Life.init`, `Life.activate`: the transitions of one driver.
* `life_effect`: a call keeps the invariant of every driver.
* `driver_life_cycle`: so does every sequence of calls.
-/

namespace NexusKernel.Drivers

/-! ## Callbacks of one driver -/

/-- The driver that a callback is about. -/
def Callback.driver : Callback → ℕ
  | .init d _ => d
  | .cleanup d => d

/-- A successful `init` is `true`, a `cleanup` is `false`; a failed `init` does not count. -/
def Callback.life : Callback → Option Bool
  | .init _ result => if result = 0 then some true else none
  | .cleanup _ => some false

/-- What an `init` returned. -/
def Callback.result : Callback → Option ℤ
  | .init _ result => some result
  | .cleanup _ => none

/-- The callbacks about `d`. -/
def about (d : ℕ) (trace : List Callback) : List Callback := trace.filter fun c => c.driver = d

/-- The successful `init` and the `cleanup` calls of `d`, in order. -/
def lifeEvents (d : ℕ) (trace : List Callback) : List Bool := (about d trace).filterMap Callback.life

/-- What the last `init` of `d` returned. -/
def lastInit (d : ℕ) (trace : List Callback) : Option ℤ :=
  ((about d trace).filterMap Callback.result).getLast?

theorem about_append_self {d : ℕ} {trace calls : List Callback} (h : ∀ c ∈ calls, c.driver = d) :
    about d (trace ++ calls) = about d trace ++ calls := by
  simp [about, List.filter_append, List.filter_eq_self.mpr fun c hc => decide_eq_true (h c hc)]

theorem about_append_other {d e : ℕ} {trace calls : List Callback} (h : ∀ c ∈ calls, c.driver = d)
    (hne : e ≠ d) : about e (trace ++ calls) = about e trace := by
  have hnil : calls.filter (fun c => c.driver = e) = [] := by
    rw [List.filter_eq_nil_iff]
    intro c hc
    simp [h c hc, hne.symm]
  simp [about, List.filter_append, hnil]

/-- Successful `init` and `cleanup` calls take turns, `init` first. -/
structure Alternates (l : List Bool) : Prop where
  turns : l.IsChain (· ≠ ·)
  starts : l.head? ≠ some false

theorem alternates_nil : Alternates [] := ⟨List.isChain_nil, by simp⟩

theorem Alternates.append_init {l : List Bool} (h : Alternates l) (hlast : l.getLast? ≠ some true) :
    Alternates (l ++ [true]) := by
  constructor
  · rw [List.isChain_append]
    refine ⟨h.turns, List.isChain_singleton true, ?_⟩
    intro x hx y hy
    obtain rfl : true = y := by simpa using hy
    intro hxt
    exact hlast (hxt ▸ hx)
  · cases l with
    | nil => simp
    | cons b l => simpa using h.starts

theorem Alternates.append_cleanup {l : List Bool} (h : Alternates l)
    (hlast : l.getLast? = some true) : Alternates (l ++ [false]) := by
  constructor
  · rw [List.isChain_append]
    refine ⟨h.turns, List.isChain_singleton false, ?_⟩
    intro x hx y hy
    obtain rfl : false = y := by simpa using hy
    rw [hlast] at hx
    obtain rfl := Option.mem_some_iff.mp hx
    exact nofun
  · cases l with
    | nil => simp at hlast
    | cons b l => simpa using h.starts

/-! ## The invariant of one driver -/

/-- A driver with the fixed fields `D`, on the list iff `reg`, in state `st`, after the
    callbacks `tr`. -/
structure Life (D : Driver) (reg : Prop) (st : DriverState) (tr : List Callback) : Prop where
  unloaded_iff : st = .unloaded ↔ ¬ reg
  alternates : D.hasInit = true → D.hasCleanup = true → Alternates (tr.filterMap Callback.life)
  active_iff : D.hasInit = true → D.hasCleanup = true →
    (st = .active ↔ (tr.filterMap Callback.life).getLast? = some true)
  last_init : st = .active → ∀ r, (tr.filterMap Callback.result).getLast? = some r → r = 0
  no_init : D.hasInit = false → tr.filterMap Callback.result = []

section

variable {D : Driver} {reg q : Prop} {st v : DriverState} {tr : List Callback} {d : ℕ}

/-- The driver becomes or stays inactive; `cleanup` is called if it was active. -/
theorem Life.deactivate (h : Life D reg st tr) (hv : v ≠ .active) (hreg : v = .unloaded ↔ ¬ q) :
    Life D q v (tr ++ if st = .active ∧ D.hasCleanup then [.cleanup d] else []) := by
  by_cases hcall : st = .active ∧ D.hasCleanup = true
  · rw [if_pos hcall]
    refine ⟨hreg, ?_, ?_, fun hact => absurd hact hv, ?_⟩
    · intro hinit hclean
      rw [List.filterMap_append]
      exact (h.alternates hinit hclean).append_cleanup ((h.active_iff hinit hclean).mp hcall.1)
    · intro _ _
      simp [List.filterMap_append, Callback.life, hv]
    · intro hinit
      simpa [List.filterMap_append, Callback.result] using h.no_init hinit
  · rw [if_neg hcall, List.append_nil]
    refine ⟨hreg, h.alternates, ?_, fun hact => absurd hact hv, h.no_init⟩
    intro hinit hclean
    rw [← h.active_iff hinit hclean]
    exact iff_of_false hv fun hact => hcall ⟨hact, hclean⟩

/-- `init` is called on an inactive driver of the list. -/
theorem Life.init (h : Life D reg st tr) (hreg : reg) (hst : st ≠ .active) (hinit : D.hasInit = true)
    (result : ℤ) :
    Life D reg (if result = 0 then .active else .error) (tr ++ [.init d result]) := by
  have hunloaded : (if result = 0 then DriverState.active else .error) = .unloaded ↔ ¬ reg := by
    split_ifs <;> simp [hreg]
  by_cases hresult : result = 0
  · simp only [if_pos hresult] at hunloaded ⊢
    refine ⟨hunloaded, ?_, ?_, ?_, fun hno => absurd (hinit.symm.trans hno) (by decide)⟩
    · intro _ hclean
      rw [List.filterMap_append]
      simp only [List.filterMap_cons, List.filterMap_nil, Callback.life, if_pos hresult]
      exact (h.alternates hinit hclean).append_init (mt (h.active_iff hinit hclean).mpr hst)
    · intro _ _
      simp [List.filterMap_append, Callback.life, hresult]
    · intro _ r hr
      simp only [List.filterMap_append, List.filterMap_cons, List.filterMap_nil, Callback.result,
        List.getLast?_concat, Option.some.injEq] at hr
      exact hr ▸ hresult
  · simp only [if_neg hresult] at hunloaded ⊢
    have hevents : (tr ++ [Callback.init d result]).filterMap Callback.life =
        tr.filterMap Callback.life := by
      simp [List.filterMap_append, Callback.life, hresult]
    refine ⟨hunloaded, ?_, ?_, nofun, fun hno => absurd (hinit.symm.trans hno) (by decide)⟩
    · intro _ hclean
      rw [hevents]
      exact h.alternates hinit hclean
    · intro _ hclean
      rw [hevents, ← h.active_iff hinit hclean]
      exact iff_of_false nofun hst

/-- A driver without `init` becomes active. -/
theorem Life.activate (h : Life D reg st tr) (hreg : reg) (hinit : D.hasInit = false) :
    Life D reg .active tr where
  unloaded_iff := iff_of_false nofun (not_not.mpr hreg)
  alternates := h.alternates
  active_iff := fun hyes => absurd (hinit.symm.trans hyes) (by decide)
  last_init := by
    intro _ r hr
    rw [h.no_init hinit] at hr
    exact absurd hr (by simp)
  no_init := h.no_init

end

/-! ## All drivers -/

/-- Every driver is in line with the list and its part of the trace. -/
def AllLife (drv : ℕ → Driver) (l : List ℕ) (state : ℕ → DriverState) (trace : List Callback) :
    Prop :=
  ∀ d, Life (drv d) (d ∈ l) (state d) (about d trace)

section

variable {drv : ℕ → Driver} {l l' : List ℕ} {state : ℕ → DriverState} {trace calls : List Callback}
  {d : ℕ} {v : DriverState}

/-- It is enough to look at the one driver whose state and callbacks change. -/
theorem AllLife.change (h : AllLife drv l state trace) (hcalls : ∀ c ∈ calls, c.driver = d)
    (hl : ∀ e, e ≠ d → (e ∈ l' ↔ e ∈ l)) (hd : Life (drv d) (d ∈ l') v (about d trace ++ calls)) :
    AllLife drv l' (Function.update state d v) (trace ++ calls) := by
  intro e
  by_cases he : e = d
  · subst he
    rw [Function.update_self, about_append_self hcalls]
    exact hd
  · rw [Function.update_of_ne he, about_append_other hcalls he, propext (hl e he)]
    exact h e

theorem driver_of_mem_cleanup {b : Prop} [Decidable b] :
    ∀ c ∈ (if b then [Callback.cleanup d] else []), c.driver = d := by
  intro c hc
  split_ifs at hc
  · rw [List.mem_singleton.mp hc]
    rfl
  · exact absurd hc List.not_mem_nil

/-- Every call keeps the invariant. -/
theorem life_effect {state' : ℕ → DriverState} (hnodup : l.Nodup) (h : AllLife drv l state trace)
    (he : Effect drv l state l' state' calls) : AllLife drv l' state' (trace ++ calls) := by
  cases he with
  | nothing =>
    rw [List.append_nil]
    exact h
  | register d hd =>
    have hstate : state d ≠ .active := by
      rw [(h d).unloaded_iff.mpr hd]
      exact nofun
    have hlife := (h d).deactivate (d := d) (v := .loaded) (q := d ∈ d :: l) nofun
      (iff_of_false nofun (not_not.mpr List.mem_cons_self))
    rw [if_neg fun hcall => hstate hcall.1] at hlife
    exact h.change nofun (fun e he => by simp [he]) hlife
  | unregister d hd =>
    refine h.change driver_of_mem_cleanup ?_ ((h d).deactivate nofun (iff_of_true rfl ?_))
    · intro e he
      rw [hnodup.mem_erase_iff, and_iff_right he]
    · exact hnodup.not_mem_erase
  | init d hd hstate hinit result =>
    exact h.change (by simp [Callback.driver]) (fun _ _ => Iff.rfl) ((h d).init hd hstate hinit result)
  | activate d hd hstate hinit =>
    refine h.change nofun (fun _ _ => Iff.rfl) ?_
    rw [List.append_nil]
    exact (h d).activate hd hinit
  | unload d hd hstate =>
    have hlife := (h d).deactivate (d := d) (v := .loaded) (q := d ∈ l) nofun
      (iff_of_false nofun (not_not.mpr hd))
    simp only [hstate, true_and] at hlife
    exact h.change driver_of_mem_cleanup (fun _ _ => Iff.rfl) hlife

/-- `cleanup` is called on drivers of the list that are active. -/
theorem Effect.cleanup {state' : ℕ → DriverState} (he : Effect drv l state l' state' calls)
    (hmem : .cleanup d ∈ calls) : d ∈ l ∧ state d = .active := by
  cases he with
  | nothing => exact absurd hmem List.not_mem_nil
  | register => exact absurd hmem List.not_mem_nil
  | unregister e hd =>
    split_ifs at hmem with hcall
    · obtain rfl := Callback.cleanup.inj (List.mem_singleton.mp hmem)
      exact ⟨hd, hcall.1⟩
    · exact absurd hmem List.not_mem_nil
  | init => simp at hmem
  | activate => exact absurd hmem List.not_mem_nil
  | unload e hd hstate =>
    split_ifs at hmem
    · obtain rfl := Callback.cleanup.inj (List.mem_singleton.mp hmem)
      exact ⟨hd, hstate⟩
    · exact absurd hmem List.not_mem_nil

end

/-- A run keeps the list well formed and every driver's invariant. -/
theorem life_run (drv : ℕ → Driver) {s : DriverRun} {l : List ℕ} (hreg : Registry drv s.mgr l)
    (h : AllLife drv l s.mgr.state s.trace) (calls : List DriverCall) :
    ∃ t l', run (driverStep drv) s calls = some t ∧ Registry drv t.mgr l' ∧
      AllLife drv l' t.mgr.state t.trace := by
  induction calls generalizing s l with
  | nil => exact ⟨s, l, rfl, hreg, h⟩
  | cons call calls ih =>
    obtain ⟨r, l', hcall, hr, heffect⟩ := driverCall_effect hreg call
    obtain ⟨t, l'', hrun, ht, hlife⟩ := ih (s := ⟨r.mgr, s.trace ++ r.calls⟩) hr
      (life_effect hreg.nodup h heffect)
    refine ⟨t, l'', run_cons_eq_some.mpr ⟨_, ?_, hrun⟩, ht, hlife⟩
    rw [driverStep, hcall]
    rfl

theorem allLife_boot (drv : ℕ → Driver) {m : DriverManager} (hm : ∀ d, m.state d = .unloaded) :
    AllLife drv [] (driverBoot m).mgr.state (driverBoot m).trace := by
  intro d
  have hstate : (driverBoot m).mgr.state d = .unloaded := hm d
  rw [hstate]
  exact ⟨iff_of_true rfl List.not_mem_nil, fun _ _ => alternates_nil,
    fun _ _ => iff_of_false nofun (by simp [about, driverBoot]), nofun, fun _ => rfl⟩

/-- For every set of drivers that start unloaded and every sequence of calls, whatever
    the `init` callbacks return: the successful `init` and the `cleanup` calls of a driver
    with both take turns, `init` first; such a driver is active iff the last of them is an
    `init`; a driver is unloaded iff it is not on the list; and a `cleanup` is only ever
    called for a driver that is on the list and whose last `init`, if any, succeeded. -/
theorem driver_life_cycle (drv : ℕ → Driver) (m : DriverManager)
    (hm : ∀ d, m.state d = .unloaded) (calls : List DriverCall) :
    ∃ s l, run (driverStep drv) (driverBoot m) calls = some s ∧
      Links s.mgr.next s.mgr.driverList l 0 ∧
      (∀ d, (drv d).hasInit = true → (drv d).hasCleanup = true →
        Alternates (lifeEvents d s.trace) ∧
        (s.mgr.state d = .active ↔ (lifeEvents d s.trace).getLast? = some true)) ∧
      (∀ d, s.mgr.state d = .unloaded ↔ d ∉ l) ∧
      ∀ call r d, driverCall drv s.mgr call = some r → .cleanup d ∈ r.calls →
        d ∈ l ∧ ∀ x, lastInit d s.trace = some x → x = 0 := by
  obtain ⟨s, l, hrun, hs, hlife⟩ := life_run drv (registry_boot drv m) (allLife_boot drv hm) calls
  refine ⟨s, l, hrun, hs.links, ?_, fun d => (hlife d).unloaded_iff, ?_⟩
  · intro d hinit hclean
    exact ⟨(hlife d).alternates hinit hclean, (hlife d).active_iff hinit hclean⟩
  · intro call r d hcall hmem
    obtain ⟨r', l', hcall', -, heffect⟩ := driverCall_effect hs call
    obtain rfl := Option.some_inj.mp (hcall.symm.trans hcall')
    obtain ⟨hd, hactive⟩ := heffect.cleanup hmem
    exact ⟨hd, (hlife d).last_init hactive⟩

/-- A driver whose first `init` fails, and which is unregistered while it is active. -/
theorem driver_life_cycle_kbd :
    ∃ s, run (driverStep fun _ => ⟨.lit "kbd", .input, some ⟨true, true⟩⟩)
        (driverBoot ⟨0, 0, fun _ => .unloaded, fun _ => 0⟩)
        [.register 8, .load (.lit "kbd") 5, .load (.lit "kbd") 0, .unregister (.lit "kbd")] = some s ∧
      s.trace = [.init 8 5, .init 8 0, .cleanup 8] ∧ Alternates (lifeEvents 8 s.trace) := by
  obtain ⟨s, -, hrun, -, hlife, -⟩ := driver_life_cycle
    (fun _ => ⟨.lit "kbd", .input, some ⟨true, true⟩⟩) ⟨0, 0, fun _ => .unloaded, fun _ => 0⟩
    (fun _ => rfl)
    [.register 8, .load (.lit "kbd") 5, .load (.lit "kbd") 0, .unregister (.lit "kbd")]
  have htrace : (run (driverStep fun _ => ⟨.lit "kbd", .input, some ⟨true, true⟩⟩)
      (driverBoot ⟨0, 0, fun _ => .unloaded, fun _ => 0⟩)
      [.register 8, .load (.lit "kbd") 5, .load (.lit "kbd") 0, .unregister (.lit "kbd")]).map
        DriverRun.trace = some [.init 8 5, .init 8 0, .cleanup 8] := by decide +kernel
  rw [hrun, Option.map_some, Option.some_inj] at htrace
  exact ⟨s, hrun, htrace, (hlife 8 rfl rfl).1⟩

end NexusKernel.Drivers
