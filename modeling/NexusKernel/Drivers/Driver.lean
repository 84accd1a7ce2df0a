import NexusKernel.Common.Chain
import NexusKernel.Common.Run
import NexusKernel.Lib.String

/-!
# The driver registry (`kernel/drivers/driver.c`)

A `driver_t` belongs to its caller; the registry links the objects through their `next`
fields. The fields that the registry only reads (`name`, `type`, `ops`) are fixed for
each object, `state` and `next` are part of the registry's state. What an `init` callback
returns is up to the driver, so it is an argument of `driver_load`.

`major`, `minor`, `private_data`, the other callbacks and the messages of the calls are
left out; `driver_list_all` is in `Drivers.Listing`.

Results:
* `driverFind_eq`: a lookup ends, with the first driver of that name on the list.
* `driverRegister_cases`, `driverUnregister_cases`: the outcomes of the two calls that
  change the list.
* `driverCall_effect`: what any call does to the list, the states and the callbacks.
* `driver_registry_refines_map`: after any calls the list is a map from names, and the
  calls are the operations of that map.
-/

namespace NexusKernel.Drivers

/-! ## Objects and state -/

/-- `MAX_DRIVERS` (`driver.h`, line 7). -/
def maxDrivers : ℕ := 64

/-- `driver_type_t` (`driver.h`, lines 9–17). -/
inductive DriverType where
  | char
  | block
  | network
  | display
  | input
  | storage
  | other
deriving DecidableEq

/-- `driver_state_t` (`driver.h`, lines 19–24). -/
inductive DriverState where
  | unloaded
  | loaded
  | active
  | error
deriving DecidableEq

/-- Which of the callbacks that the registry calls are not `NULL`. -/
structure DriverOps where
  init : Bool
  cleanup : Bool

/-- The fields of a `driver_t` that the registry only reads; `ops` may be `NULL`. -/
structure Driver where
  name : CString
  type : DriverType
  ops : Option DriverOps

/-- `drv->ops && drv->ops->init`. -/
def Driver.hasInit (d : Driver) : Bool := d.ops.any (·.init)

/-- `drv->ops && drv->ops->cleanup`. -/
def Driver.hasCleanup (d : Driver) : Bool := d.ops.any (·.cleanup)

/-- `driver_list` and `driver_count` (lines 6–7), and the fields `state` and `next` of
    the driver at each address. -/
structure DriverManager where
  driverList : ℕ
  driverCount : ℕ
  state : ℕ → DriverState
  next : ℕ → ℕ

/-- A callback that was called: with its result, if it is `init`. -/
inductive Callback where
  | init (drv : ℕ) (result : ℤ)
  | cleanup (drv : ℕ)
deriving DecidableEq

/-- What a call returns, the state after it and the callbacks it made. -/
structure CallResult where
  ret : ℤ
  mgr : DriverManager
  calls : List Callback

/-! ## Functions -/

def DriverManager.setState (m : DriverManager) (d : ℕ) (v : DriverState) : DriverManager :=
  { m with state := Function.update m.state d v }

/-- `driver_manager_init` (lines 9–14). -/
def driverManagerInit (m : DriverManager) : DriverManager :=
  { m with driverList := 0, driverCount := 0 }

section

variable (drv : ℕ → Driver)

/-- `strcmp(drv->name, name) == 0`. -/
def named (name : CString) (d : ℕ) : Bool := strcmp (drv d).name name = 0

/-- `driver_find` (lines 71–80): 0 is `NULL`, and `none` means that the loop has not
    ended after `MAX_DRIVERS` nodes. -/
def driverFind (m : DriverManager) (name : CString) : Option ℕ :=
  (search m.next (named drv name) maxDrivers 0 m.driverList).map Prod.snd

/-- `driver_find_by_type` (lines 82–91). -/
def driverFindByType (m : DriverManager) (type : DriverType) : Option ℕ :=
  (search m.next (fun d => (drv d).type = type) maxDrivers 0 m.driverList).map Prod.snd

/-- The stores of `driver_register` (lines 31–34). -/
def addDriver (m : DriverManager) (d : ℕ) : DriverManager where
  driverList := d
  driverCount := u32 (m.driverCount + 1)
  state := Function.update m.state d .loaded
  next := Function.update m.next d m.driverList

/-- `driver_register` (lines 16–38). -/
def driverRegister (m : DriverManager) (d : ℕ) : Option CallResult :=
  if d = 0 ∨ (drv d).name.bytes 0 = 0 then some ⟨-1, m, []⟩
  else if m.driverCount ≥ maxDrivers then some ⟨-1, m, []⟩
  else
    (driverFind drv m (drv d).name).map fun found =>
      if found ≠ 0 then ⟨-1, m, []⟩ else ⟨0, addDriver m d, []⟩

/-- The stores of `driver_unregister` on the driver `d`, found behind `prev` (lines
    53–59). -/
def removeDriver (m : DriverManager) (prev d : ℕ) : DriverManager where
  driverList := if prev ≠ 0 then m.driverList else m.next d
  driverCount := sub32 m.driverCount 1
  state := Function.update m.state d .unloaded
  next := if prev ≠ 0 then Function.update m.next prev (m.next d) else m.next

/-- The call of `cleanup` in `driver_unregister` (lines 50–51). -/
def cleanupCalls (m : DriverManager) (d : ℕ) : List Callback :=
  if m.state d = .active ∧ (drv d).hasCleanup then [.cleanup d] else []

/-- `driver_unregister` (lines 40–69). -/
def driverUnregister (m : DriverManager) (name : CString) : Option CallResult :=
  (search m.next (named drv name) maxDrivers 0 m.driverList).map fun (prev, d) =>
    if d = 0 then ⟨-1, m, []⟩ else ⟨0, removeDriver m prev d, cleanupCalls drv m d⟩

/-- `driver_load` (lines 93–114), where `init`, if it is called, returns `result`. -/
def driverLoad (m : DriverManager) (name : CString) (result : ℤ) : Option CallResult :=
  (driverFind drv m name).map fun d =>
    if d = 0 then ⟨-1, m, []⟩
    else if m.state d = .active then ⟨0, m, []⟩
    else if (drv d).hasInit then
      if result ≠ 0 then ⟨result, m.setState d .error, [.init d result]⟩
      else ⟨0, m.setState d .active, [.init d result]⟩
    else ⟨0, m.setState d .active, []⟩

/-- `driver_unload` (lines 116–131). -/
def driverUnload (m : DriverManager) (name : CString) : Option CallResult :=
  (driverFind drv m name).map fun d =>
    if d = 0 then ⟨-1, m, []⟩
    else if m.state d ≠ .active then ⟨0, m, []⟩
    else ⟨0, m.setState d .loaded, if (drv d).hasCleanup then [.cleanup d] else []⟩

/-! ## The list of drivers -/

/-- The list from `driver_list` consists of the drivers `l`, with distinct names that are
    not empty, and `driver_count` is its length. -/
structure Registry (m : DriverManager) (l : List ℕ) : Prop where
  links : Links m.next m.driverList l 0
  names_nodup : (l.map fun d => (drv d).name).Nodup
  names_ne : ∀ d ∈ l, (drv d).name.chars ≠ []
  count_eq : m.driverCount = l.length
  length_le : l.length ≤ maxDrivers

/-- The list as a map: the driver registered under a name. -/
def registered (l : List ℕ) (name : CString) : Option ℕ := l.find? fun d => (drv d).name = name

end

section

variable {drv : ℕ → Driver} {m : DriverManager} {l : List ℕ}

theorem Registry.nodup (h : Registry drv m l) : l.Nodup := h.names_nodup.of_map

theorem named_iff {name : CString} {d : ℕ} : named drv name d = true ↔ (drv d).name = name := by
  rw [named, decide_eq_true_eq, strcmp_eq_zero_iff]

theorem named_eq (name : CString) : named drv name = fun d => decide ((drv d).name = name) := by
  funext d
  rw [Bool.eq_iff_iff, named_iff, decide_eq_true_eq]

/-- The map has an entry for exactly the names on the list. -/
theorem Registry.registered_eq_some (h : Registry drv m l) {name : CString} {d : ℕ} :
    registered drv l name = some d ↔ d ∈ l ∧ (drv d).name = name := by
  constructor
  · intro hfind
    exact ⟨List.mem_of_find?_eq_some hfind, by simpa using List.find?_some hfind⟩
  · intro ⟨hd, hname⟩
    have hsome : (registered drv l name).isSome := by
      rw [registered, List.find?_isSome]
      exact ⟨d, hd, by simpa using hname⟩
    obtain ⟨e, he⟩ := Option.isSome_iff_exists.mp hsome
    have hename : (drv e).name = name := by simpa using List.find?_some he
    -- names are distinct, so the first driver of that name is the only one
    have hed : e = d := List.inj_on_of_nodup_map h.names_nodup (List.mem_of_find?_eq_some he) hd
      (hename.trans hname.symm)
    rw [he, hed]

theorem registered_eq_none {name : CString} :
    registered drv l name = none ↔ ∀ d ∈ l, (drv d).name ≠ name := by
  simp [registered]

theorem driverFind_eq (h : Registry drv m l) (name : CString) :
    driverFind drv m name = some ((registered drv l name).getD 0) := by
  rw [driverFind, search_snd 0 h.links h.length_le, named_eq]
  rfl

theorem driverFindByType_eq (h : Registry drv m l) (type : DriverType) :
    driverFindByType drv m type = some ((l.find? fun d => (drv d).type = type).getD 0) :=
  search_snd 0 h.links h.length_le

/-- A lookup finds nothing, or the one driver of that name. -/
theorem driverFind_cases (h : Registry drv m l) (name : CString) :
    (driverFind drv m name = some 0 ∧ registered drv l name = none) ∨
      ∃ d, driverFind drv m name = some d ∧ d ≠ 0 ∧ registered drv l name = some d := by
  rw [driverFind_eq h]
  cases hfind : registered drv l name with
  | none => exact Or.inl ⟨rfl, rfl⟩
  | some d => exact Or.inr ⟨d, rfl, h.links.ne_zero d (h.registered_eq_some.mp hfind).1, rfl⟩

/-! ## Changes of the list -/

/-- The states do not matter for the list. -/
theorem Registry.setState (h : Registry drv m l) (d : ℕ) (v : DriverState) :
    Registry drv (m.setState d v) l :=
  ⟨h.links, h.names_nodup, h.names_ne, h.count_eq, h.length_le⟩

theorem registered_cons (d : ℕ) :
    registered drv (d :: l) = Function.update (registered drv l) (drv d).name (some d) := by
  funext name
  rw [registered, List.find?_cons]
  by_cases hname : name = (drv d).name
  · subst hname
    simp
  · rw [Function.update_of_ne hname]
    simp [Ne.symm hname, registered]

theorem Registry.registered_erase (h : Registry drv m l) {d : ℕ} (hd : d ∈ l) :
    registered drv (l.erase d) = Function.update (registered drv l) (drv d).name none := by
  funext name
  by_cases hname : name = (drv d).name
  · subst hname
    rw [Function.update_self, registered_eq_none]
    intro e he hename
    rw [h.nodup.mem_erase_iff] at he
    exact he.1 (List.inj_on_of_nodup_map h.names_nodup he.2 hd hename)
  · rw [Function.update_of_ne hname]
    obtain ⟨pre, post, rfl⟩ := List.append_of_mem hd
    rw [erase_middle h.nodup, registered, registered, List.find?_append, List.find?_append,
      List.find?_cons]
    simp [Ne.symm hname]

theorem Registry.addDriver (h : Registry drv m l) {d : ℕ} (hd0 : d ≠ 0)
    (hname : (drv d).name.chars ≠ []) (hnew : registered drv l (drv d).name = none)
    (hroom : l.length < maxDrivers) : Registry drv (addDriver m d) (d :: l) := by
  rw [registered_eq_none] at hnew
  have hdl : d ∉ l := by
    intro hd
    exact hnew d hd rfl
  refine ⟨links_cons_update h.links hd0 hdl, ?_, ?_, ?_, hroom⟩
  · rw [List.map_cons, List.nodup_cons]
    refine ⟨?_, h.names_nodup⟩
    simpa using hnew
  · rw [List.forall_mem_cons]
    exact ⟨hname, h.names_ne⟩
  · simp only [Drivers.addDriver, List.length_cons]
    unfold maxDrivers at hroom
    rw [h.count_eq, u32_of_lt (by omega)]

/-- `driver_register` adds the driver if it has a name, the name is new and there is room;
    else it returns -1 and changes nothing. -/
theorem driverRegister_cases (h : Registry drv m l) (d : ℕ) :
    (driverRegister drv m d = some ⟨-1, m, []⟩ ∧ ¬ (d ≠ 0 ∧ (drv d).name.chars ≠ [] ∧
        registered drv l (drv d).name = none ∧ l.length < maxDrivers)) ∨
      (driverRegister drv m d = some ⟨0, addDriver m d, []⟩ ∧ d ≠ 0 ∧ (drv d).name.chars ≠ [] ∧
        registered drv l (drv d).name = none ∧ l.length < maxDrivers) := by
  have hempty : (drv d).name.bytes 0 = 0 ↔ (drv d).name.chars = [] := by
    rw [CString.bytes_eq_zero_iff, Nat.le_zero, CString.strlen, List.length_eq_zero_iff]
  have hcount := h.count_eq
  unfold driverRegister
  by_cases hnull : d = 0 ∨ (drv d).name.bytes 0 = 0
  · left
    rw [if_pos hnull]
    refine ⟨rfl, ?_⟩
    rintro ⟨hd0, hname, -⟩
    exact hnull.elim hd0 fun hzero => hname (hempty.mp hzero)
  · rw [if_neg hnull]
    by_cases hfull : m.driverCount ≥ maxDrivers
    · left
      rw [if_pos hfull]
      exact ⟨rfl, fun hok => by omega⟩
    · rw [if_neg hfull]
      obtain ⟨hfind, hnone⟩ | ⟨e, hfind, he0, hsome⟩ := driverFind_cases h (drv d).name
      · right
        rw [hfind]
        exact ⟨rfl, fun h0 => hnull (Or.inl h0), fun hc => hnull (Or.inr (hempty.mpr hc)), hnone, by omega⟩
      · left
        rw [hfind, Option.map_some, if_pos he0]
        refine ⟨rfl, ?_⟩
        rintro ⟨-, -, hnone, -⟩
        exact absurd (hsome.symm.trans hnone) (Option.some_ne_none e)

/-- The pointers lead past the driver that the search has found. -/
theorem links_removeDriver {pre post : List ℕ} {d : ℕ} (hnodup : (pre ++ d :: post).Nodup)
    (hl : Links m.next m.driverList (pre ++ d :: post) 0) :
    Links (removeDriver m (pre.getLast?.getD 0) d).next
      (removeDriver m (pre.getLast?.getD 0) d).driverList (pre ++ post) 0 := by
  simp only [removeDriver]
  rcases List.eq_nil_or_concat pre with rfl | ⟨init, p, rfl⟩
  · obtain ⟨rfl, -, hrest⟩ := hl
    exact hrest
  · -- the node before the driver gets its `next`
    simp only [List.concat_eq_append, List.append_assoc, List.singleton_append] at hnodup hl ⊢
    have hp0 : p ≠ 0 := hl.ne_zero p (by simp)
    have hp := (List.nodup_cons.mp (List.nodup_middle.mp hnodup)).1
    rw [List.getLast?_concat, Option.getD_some, if_pos hp0, if_pos hp0]
    apply links_remove hl
    · intro hmem
      exact hp (List.mem_append_left _ hmem)
    · intro hmem
      exact hp (List.mem_append_right _ (List.mem_cons_of_mem _ hmem))

theorem Registry.removeDriver {pre post : List ℕ} {d : ℕ}
    (h : Registry drv m (pre ++ d :: post)) :
    Registry drv (removeDriver m (pre.getLast?.getD 0) d) (pre ++ post) := by
  have hsub : (pre ++ post).Sublist (pre ++ d :: post) :=
    (List.sublist_cons_self d post).append_left pre
  have hcount := h.count_eq
  have hlen := h.length_le
  unfold maxDrivers at hlen
  simp only [List.length_append, List.length_cons] at hcount hlen
  refine ⟨links_removeDriver h.nodup h.links, h.names_nodup.sublist (hsub.map _),
    fun e he => h.names_ne e (hsub.subset he), ?_, hsub.length_le.trans h.length_le⟩
  simp only [Drivers.removeDriver]
  rw [hcount, sub32_of_le (by omega) (by omega), List.length_append]
  omega

/-- `driver_unregister` takes out the driver of that name; without one it returns -1 and
    changes nothing. -/
theorem driverUnregister_cases (h : Registry drv m l) (name : CString) :
    (driverUnregister drv m name = some ⟨-1, m, []⟩ ∧ registered drv l name = none) ∨
      ∃ d m', driverUnregister drv m name = some ⟨0, m', cleanupCalls drv m d⟩ ∧
        registered drv l name = some d ∧ Registry drv m' (l.erase d) ∧
        m'.state = Function.update m.state d .unloaded := by
  cases hfind : registered drv l name with
  | none =>
    left
    rw [registered_eq_none] at hfind
    obtain ⟨q, hq⟩ := search_of_none (p := named drv name) 0 h.links h.length_le fun a ha =>
      Bool.eq_false_of_not_eq_true (mt named_iff.mp (hfind a ha))
    rw [driverUnregister, hq]
    exact ⟨rfl, rfl⟩
  | some d =>
    right
    obtain ⟨-, pre, post, rfl, hpre⟩ := List.find?_eq_some_iff_append.mp hfind
    obtain ⟨hd, hname⟩ := h.registered_eq_some.mp hfind
    have hsearch := search_of_split (p := named drv name) 0 h.links h.length_le
      (fun a ha => Bool.eq_false_of_not_eq_true (mt named_iff.mp (by simpa using hpre a ha)))
      (named_iff.mpr hname)
    refine ⟨d, Drivers.removeDriver m (pre.getLast?.getD 0) d, ?_, rfl, ?_, rfl⟩
    · rw [driverUnregister, hsearch]
      exact congrArg some (if_neg (h.links.ne_zero d hd))
    · rw [erase_middle h.nodup]
      exact h.removeDriver

end

/-! ## Calls -/

inductive DriverCall where
  | register (d : ℕ)
  | unregister (name : CString)
  | load (name : CString) (result : ℤ)
  | unload (name : CString)

def driverCall (drv : ℕ → Driver) (m : DriverManager) : DriverCall → Option CallResult
  | .register d => driverRegister drv m d
  | .unregister name => driverUnregister drv m name
  | .load name result => driverLoad drv m name result
  | .unload name => driverUnload drv m name

/-- What a call can do to the drivers `l` on the list and their states, and the callbacks
    it makes on the way. -/
inductive Effect (drv : ℕ → Driver) (l : List ℕ) (state : ℕ → DriverState) :
    List ℕ → (ℕ → DriverState) → List Callback → Prop
  | nothing : Effect drv l state l state []
  | register (d : ℕ) (hd : d ∉ l) :
      Effect drv l state (d :: l) (Function.update state d .loaded) []
  | unregister (d : ℕ) (hd : d ∈ l) :
      Effect drv l state (l.erase d) (Function.update state d .unloaded)
        (if state d = .active ∧ (drv d).hasCleanup then [.cleanup d] else [])
  | init (d : ℕ) (hd : d ∈ l) (hstate : state d ≠ .active) (hinit : (drv d).hasInit = true)
      (result : ℤ) :
      Effect drv l state l (Function.update state d (if result = 0 then .active else .error))
        [.init d result]
  | activate (d : ℕ) (hd : d ∈ l) (hstate : state d ≠ .active) (hinit : (drv d).hasInit = false) :
      Effect drv l state l (Function.update state d .active) []
  | unload (d : ℕ) (hd : d ∈ l) (hstate : state d = .active) :
      Effect drv l state l (Function.update state d .loaded)
        (if (drv d).hasCleanup then [.cleanup d] else [])

section

variable {drv : ℕ → Driver} {m : DriverManager} {l : List ℕ}

theorem driverLoad_effect (h : Registry drv m l) (name : CString) (result : ℤ) :
    ∃ r, driverLoad drv m name result = some r ∧ Registry drv r.mgr l ∧
      Effect drv l m.state l r.mgr.state r.calls := by
  unfold driverLoad
  obtain ⟨hfind, -⟩ | ⟨d, hfind, hd0, hsome⟩ := driverFind_cases h name
  · rw [hfind]
    exact ⟨_, rfl, h, .nothing⟩
  · have hd := (h.registered_eq_some.mp hsome).1
    rw [hfind, Option.map_some, if_neg hd0]
    by_cases hstate : m.state d = .active
    · rw [if_pos hstate]
      exact ⟨_, rfl, h, .nothing⟩
    · rw [if_neg hstate]
      by_cases hinit : (drv d).hasInit = true
      · have heffect := Effect.init d hd hstate hinit result
        rw [if_pos hinit]
        by_cases hresult : result = 0
        · rw [if_neg (not_not.mpr hresult)]
          rw [if_pos hresult] at heffect
          exact ⟨_, rfl, h.setState d _, heffect⟩
        · rw [if_pos hresult]
          rw [if_neg hresult] at heffect
          exact ⟨_, rfl, h.setState d _, heffect⟩
      · rw [if_neg hinit]
        exact ⟨_, rfl, h.setState d _, .activate d hd hstate (Bool.eq_false_of_not_eq_true hinit)⟩

theorem driverUnload_effect (h : Registry drv m l) (name : CString) :
    ∃ r, driverUnload drv m name = some r ∧ Registry drv r.mgr l ∧
      Effect drv l m.state l r.mgr.state r.calls := by
  unfold driverUnload
  obtain ⟨hfind, -⟩ | ⟨d, hfind, hd0, hsome⟩ := driverFind_cases h name
  · rw [hfind]
    exact ⟨_, rfl, h, .nothing⟩
  · have hd := (h.registered_eq_some.mp hsome).1
    rw [hfind, Option.map_some, if_neg hd0]
    by_cases hstate : m.state d = .active
    · rw [if_neg (not_not.mpr hstate)]
      exact ⟨_, rfl, h.setState d _, .unload d hd hstate⟩
    · rw [if_pos hstate]
      exact ⟨_, rfl, h, .nothing⟩

/-- Every call returns, keeps the list well formed and has one of the effects. -/
theorem driverCall_effect (h : Registry drv m l) (call : DriverCall) :
    ∃ r l', driverCall drv m call = some r ∧ Registry drv r.mgr l' ∧
      Effect drv l m.state l' r.mgr.state r.calls := by
  cases call with
  | register d =>
    obtain ⟨hcall, -⟩ | ⟨hcall, hd0, hname, hnew, hroom⟩ := driverRegister_cases h d
    · exact ⟨_, l, hcall, h, .nothing⟩
    · refine ⟨_, d :: l, hcall, h.addDriver hd0 hname hnew hroom, .register d ?_⟩
      intro hd
      exact registered_eq_none.mp hnew d hd rfl
  | unregister name =>
    obtain ⟨hcall, -⟩ | ⟨d, m', hcall, hsome, hm', hstate⟩ := driverUnregister_cases h name
    · exact ⟨_, l, hcall, h, .nothing⟩
    · refine ⟨_, l.erase d, hcall, hm', ?_⟩
      rw [hstate]
      exact .unregister d (h.registered_eq_some.mp hsome).1
  | load name result =>
    obtain ⟨r, hcall, hr, heffect⟩ := driverLoad_effect h name result
    exact ⟨r, l, hcall, hr, heffect⟩
  | unload name =>
    obtain ⟨r, hcall, hr, heffect⟩ := driverUnload_effect h name
    exact ⟨r, l, hcall, hr, heffect⟩

end

/-- The registry and all callbacks made so far. -/
structure DriverRun where
  mgr : DriverManager
  trace : List Callback

def driverStep (drv : ℕ → Driver) (s : DriverRun) (call : DriverCall) : Option DriverRun :=
  (driverCall drv s.mgr call).map fun r => ⟨r.mgr, s.trace ++ r.calls⟩

/-- The state after `driver_manager_init`. -/
def driverBoot (m : DriverManager) : DriverRun := ⟨driverManagerInit m, []⟩

theorem registry_boot (drv : ℕ → Driver) (m : DriverManager) :
    Registry drv (driverBoot m).mgr [] where
  links := rfl
  names_nodup := List.nodup_nil
  names_ne := fun _ hd => absurd hd List.not_mem_nil
  count_eq := rfl
  length_le := Nat.zero_le _

/-- Every sequence of calls returns, with a well-formed list. -/
theorem registry_run (drv : ℕ → Driver) {s : DriverRun} {l : List ℕ} (h : Registry drv s.mgr l)
    (calls : List DriverCall) :
    ∃ t l', run (driverStep drv) s calls = some t ∧ Registry drv t.mgr l' := by
  induction calls generalizing s l with
  | nil => exact ⟨s, l, rfl, h⟩
  | cons call calls ih =>
    obtain ⟨r, l', hcall, hr, -⟩ := driverCall_effect h call
    obtain ⟨t, l'', hrun, ht⟩ := ih (s := ⟨r.mgr, s.trace ++ r.calls⟩) hr
    refine ⟨t, l'', run_cons_eq_some.mpr ⟨_, ?_, hrun⟩, ht⟩
    rw [driverStep, hcall]
    rfl

/-- For every set of driver objects and every sequence of calls from
    `driver_manager_init` on: all calls return; the list from `driver_list` is finite,
    without repetition, with distinct names that are not empty, and has
    `driver_count ≤ MAX_DRIVERS` nodes; `driver_find` is the lookup in the map from names
    that it stands for; `driver_register` and `driver_unregister` are the insertion and
    the removal of that map, and change nothing when they fail. -/
theorem driver_registry_refines_map (drv : ℕ → Driver) (m : DriverManager)
    (calls : List DriverCall) :
    ∃ s l, run (driverStep drv) (driverBoot m) calls = some s ∧ Registry drv s.mgr l ∧ l.Nodup ∧
      (∀ name, driverFind drv s.mgr name = some ((registered drv l name).getD 0)) ∧
      (∀ name d, registered drv l name = some d ↔ d ∈ l ∧ (drv d).name = name) ∧
      (∀ d, ∃ r, driverRegister drv s.mgr d = some r ∧
        (r.ret = 0 ↔ d ≠ 0 ∧ (drv d).name.chars ≠ [] ∧ registered drv l (drv d).name = none ∧
          l.length < maxDrivers) ∧
        (r.ret = 0 → ∃ l', Registry drv r.mgr l' ∧
          registered drv l' = Function.update (registered drv l) (drv d).name (some d)) ∧
        (r.ret ≠ 0 → r.ret = -1 ∧ r.mgr = s.mgr)) ∧
      ∀ name, ∃ r, driverUnregister drv s.mgr name = some r ∧
        (r.ret = 0 ↔ registered drv l name ≠ none) ∧
        (r.ret = 0 → ∃ l', Registry drv r.mgr l' ∧
          registered drv l' = Function.update (registered drv l) name none) ∧
        (r.ret ≠ 0 → r.ret = -1 ∧ r.mgr = s.mgr ∧ r.calls = []) := by
  obtain ⟨s, l, hrun, h⟩ := registry_run drv (registry_boot drv m) calls
  refine ⟨s, l, hrun, h, h.nodup, driverFind_eq h, fun _ _ => h.registered_eq_some, ?_, ?_⟩
  · intro d
    obtain ⟨hcall, hno⟩ | ⟨hcall, hd0, hname, hnew, hroom⟩ := driverRegister_cases h d
    · exact ⟨_, hcall, iff_of_false (by norm_num) hno, fun h0 => absurd h0 (by norm_num),
        fun _ => ⟨rfl, rfl⟩⟩
    · exact ⟨_, hcall, iff_of_true rfl ⟨hd0, hname, hnew, hroom⟩,
        fun _ => ⟨d :: l, h.addDriver hd0 hname hnew hroom, registered_cons d⟩,
        fun hne => absurd rfl hne⟩
  · intro name
    obtain ⟨hcall, hnone⟩ | ⟨d, m', hcall, hsome, hm', -⟩ := driverUnregister_cases h name
    · exact ⟨_, hcall, iff_of_false (by norm_num) (not_not.mpr hnone),
        fun h0 => absurd h0 (by norm_num), fun _ => ⟨rfl, rfl, rfl⟩⟩
    · obtain ⟨hd, hname⟩ := h.registered_eq_some.mp hsome
      refine ⟨_, hcall, iff_of_true rfl (by rw [hsome]; exact Option.some_ne_none d),
        fun _ => ⟨l.erase d, hm', ?_⟩, fun hne => absurd rfl hne⟩
      rw [h.registered_erase hd, hname]

end NexusKernel.Drivers
