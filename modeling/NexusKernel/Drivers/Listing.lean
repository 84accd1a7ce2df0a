import NexusKernel.Drivers.Driver
import NexusKernel.Lib.Stdio

/-!
# The list of drivers on the console (`driver_list_all`)

`driver_list_all` passes a string, an integer and a string for each driver, with the
format `"  %-16s type=%d state=%s\n"`. `kprintf` knows no field widths: it prints `%-` as
it stands and takes `16s` for text. The first argument is then taken by `%d` and the
second by `%s`.

The name is the first field of a `driver_t`, so its address is that of the driver. The
words for the states are constants of the kernel; `stateAddr` says where they are.

Results:
* `driverLines_taken`: which arguments the conversions of each line take.
* `driver_list_all_reports_iff`: the list is reported only if it is empty.
-/

namespace NexusKernel.Drivers

open Lib

/-- The value of a `driver_type_t`. -/
def DriverType.number : DriverType → ℕ
  | .char => 0
  | .block => 1
  | .network => 2
  | .display => 3
  | .input => 4
  | .storage => 5
  | .other => 6

/-- The word for a state (lines 138–145); no state leads to the `default`. -/
def stateStr : DriverState → CString
  | .unloaded => .lit "UNLOADED"
  | .loaded => .lit "LOADED"
  | .active => .lit "ACTIVE"
  | .error => .lit "ERROR"

/-- The line above the drivers (line 135). -/
@[irreducible] def header : CString := .lit "Registered drivers:\n"

/-- The format of a line (line 146). -/
@[irreducible] def lineFormat : CString := .lit "  %-16s type=%d state=%s\n"

section

variable (mem : Mem) (drv : ℕ → Driver) (stateAddr : DriverState → BitVec 32)

/-- The arguments of a line (line 146). -/
def lineArgs (m : DriverManager) (d : ℕ) : List (BitVec 32) :=
  [BitVec.ofNat 32 d, BitVec.ofNat 32 (drv d).type.number, stateAddr (m.state d)]

/-- The loop of `driver_list_all` (lines 136–148), at most `fuel` tests of its condition. -/
def driverLines (m : DriverManager) : (fuel d : ℕ) → Option (List Printed)
  | 0, _ => none
  | fuel + 1, d =>
    if d = 0 then some []
    else
      (kprintf mem fuel lineFormat.bytes (lineArgs drv stateAddr m d)).bind fun line =>
        (driverLines m fuel (m.next d)).map (line :: ·)

/-- `driver_list_all` (lines 133–149): the outputs of its calls of `kprintf`. -/
def driverListAll (m : DriverManager) (fuel : ℕ) : Option (List Printed) :=
  (kprintf mem fuel header.bytes []).bind fun line =>
    (driverLines mem drv stateAddr m fuel m.driverList).map (line :: ·)

/-- A line about the driver `d`: it carries the name, the number of the type and the word
    for the state, and its three arguments were taken as a string, an integer and a
    string. -/
structure Reports (m : DriverManager) (d : ℕ) (line : Printed) : Prop where
  name : (drv d).name.chars <:+: line.chars
  type : decimal.text (drv d).type.number <:+: line.chars
  state : (stateStr (m.state d)).chars <:+: line.chars
  taken : line.taken = [Conversion.string, .int, .string].zip (lineArgs drv stateAddr m d)

/-- The output is the header and one line for each driver of the list, in order. -/
def ReportsRegistry (m : DriverManager) (l : List ℕ) : Prop :=
  ∃ fuel line lines, driverListAll mem drv stateAddr m fuel = some (line :: lines) ∧
    List.Forall₂ (Reports drv stateAddr m) l lines

end

section

variable {mem : Mem} {drv : ℕ → Driver} {stateAddr : DriverState → BitVec 32} {m : DriverManager}
  {l : List ℕ} {lines : List Printed} {fuel : ℕ}

/-- The characters of the format. -/
theorem chars_lineFormat : lineFormat.chars =
    [chr ' ', chr ' ', chr '%', chr '-', chr '1', chr '6', chr 's',
      chr ' ', chr 't', chr 'y', chr 'p', chr 'e', chr '=', chr '%', chr 'd',
      chr ' ', chr 's', chr 't', chr 'a', chr 't', chr 'e', chr '=', chr '%', chr 's',
      chr '\n'] := by
  decide +kernel

theorem paired_lineFormat : Paired lineFormat.chars := by
  rw [chars_lineFormat]
  simp [Paired, chr]

/-- The conversions of the format are `%d` and `%s`. -/
theorem conversions_lineFormat :
    (directives lineFormat.chars).filterMap Directive.conversion? = [.int, .string] := by
  rw [chars_lineFormat]
  decide +kernel

/-- In every line, the address of the name is taken as an integer and the type as the
    address of a string; the third argument is not taken. -/
theorem driverLines_taken {d : ℕ} (hl : Links m.next d l 0)
    (h : driverLines mem drv stateAddr m fuel d = some lines) :
    List.Forall₂ (fun d line => line.taken = [Conversion.int, .string].zip (lineArgs drv stateAddr m d))
      l lines := by
  induction l generalizing fuel d lines with
  | nil =>
    obtain - | fuel := fuel
    · cases h
    have hend : d = 0 := hl
    rw [driverLines, if_pos hend, Option.some_inj] at h
    exact h ▸ .nil
  | cons n l ih =>
    obtain - | fuel := fuel
    · cases h
    obtain ⟨rfl, hne, hrest⟩ := hl
    rw [driverLines, if_neg hne] at h
    obtain ⟨line, hline, h⟩ := Option.bind_eq_some_iff.mp h
    obtain ⟨rest, hlines, rfl⟩ := Option.map_eq_some_iff.mp h
    refine .cons ?_ (ih hrest hlines)
    rw [kprintf_taken paired_lineFormat hline, conversions_lineFormat]

/-- A list that is reported has no driver: a line takes two arguments, not three. -/
theorem ReportsRegistry.eq_nil (hl : Links m.next m.driverList l 0)
    (h : ReportsRegistry mem drv stateAddr m l) : l = [] := by
  obtain ⟨fuel, line, lines, hall, hlines⟩ := h
  rw [driverListAll, Option.bind_eq_some_iff] at hall
  obtain ⟨line', -, hall⟩ := hall
  obtain ⟨lines', hlines', heq⟩ := Option.map_eq_some_iff.mp hall
  obtain ⟨rfl, rfl⟩ := List.cons.inj heq
  have htaken := driverLines_taken hl hlines'
  cases hlines with
  | nil => rfl
  | cons hline hrest =>
    obtain - | ⟨hline', -⟩ := htaken
    rw [hline.taken] at hline'
    have hlength := congrArg List.length hline'
    simp [lineArgs] at hlength

end

/-- For every list of drivers, whatever stands in memory: `driver_list_all` reports it iff
    it is empty. -/
theorem driver_list_all_reports_iff {mem : Mem} {drv : ℕ → Driver}
    {stateAddr : DriverState → BitVec 32} {m : DriverManager} {l : List ℕ}
    (hl : Links m.next m.driverList l 0) : ReportsRegistry mem drv stateAddr m l ↔ l = [] := by
  constructor
  · exact ReportsRegistry.eq_nil hl
  · rintro rfl
    have hend : m.driverList = 0 := hl
    have hplain : chr '%' ∉ header.chars := by decide +kernel
    obtain ⟨N, hN⟩ := exists_kprintf_of_plain mem hplain []
    obtain ⟨line, hline⟩ := hN (N + 1) (Nat.le_succ N)
    refine ⟨N + 1, line, [], ?_, .nil⟩
    rw [driverListAll, hline, Option.bind_some, driverLines, if_pos hend]
    rfl

section

/-- An active driver at `0x2000` that is the whole list. -/
def oneDriver : DriverManager where
  driverList := 0x2000
  driverCount := 1
  state := fun _ => .active
  next := fun _ => 0

def serialDriver : Driver where
  name := .lit "serial"
  type := .other
  ops := none

/-- The list without drivers is reported. -/
theorem driver_list_all_reports_iff_init :
    ReportsRegistry (fun _ => 0) (fun _ => serialDriver) (fun _ => 0x3000)
      (driverManagerInit oneDriver) [] := by
  have hl : Links oneDriver.next (driverManagerInit oneDriver).driverList [] 0 := rfl
  exact (driver_list_all_reports_iff hl).mpr rfl

/-- In the line of a driver at `0x2000`, `%d` takes the address of the name and `%s` takes
    the type, 6, for an address. -/
theorem name_taken_as_integer :
    (driverListAll (fun _ => 0) (fun _ => serialDriver) (fun _ => 0x3000) oneDriver 64).map
        (List.map Printed.taken) = some [[], [(.int, 0x2000), (.string, 6)]] ∧
      ¬ ReportsRegistry (fun _ => 0) (fun _ => serialDriver) (fun _ => 0x3000) oneDriver [0x2000] := by
  refine ⟨by decide +kernel, fun h => ?_⟩
  have hl : Links oneDriver.next oneDriver.driverList [0x2000] 0 := ⟨rfl, by decide, rfl⟩
  exact List.cons_ne_nil _ _ (h.eq_nil hl)

end

end NexusKernel.Drivers
