import NexusKernel.Common.X86
import NexusKernel.Cpu.Gdt

/-!
# The interrupt descriptor table (`kernel/cpu/idt.c`)

`idt_set_gate` splits the address of a stub over two fields and sets the privilege bits of
every gate to 3; the processor puts the address together again (`IdtEntry.gate`). The two
handlers dispatch on the number in the frame.

`idt_ptr` and `idt_flush`, which tell the processor where the table is, are left out.

Results:
* `gate_entry`: the processor gets the address of the stub back.
* `gate_idtInit`: the gates after `idt_init`, for all 256 vectors.
* `exceptionMessages_getElem?`: no exception reads beyond the table of messages.
-/

namespace NexusKernel.Cpu

open X86 (Word)

/-! ## Gates -/

/-- `idt_entry_t` (`idt.h`, lines 6–12). -/
structure IdtEntry where
  baseLow : BitVec 16
  sel : BitVec 16
  always0 : BitVec 8
  flags : BitVec 8
  baseHigh : BitVec 16
deriving DecidableEq

/-- The entry that `idt_set_gate` stores (`idt.c`, lines 50–54). -/
def idtEntry (base : Word) (sel : BitVec 16) (flags : BitVec 8) : IdtEntry where
  baseLow := (base &&& 0xFFFF).setWidth 16
  baseHigh := (base >>> 16 &&& 0xFFFF).setWidth 16
  sel := sel
  always0 := 0
  flags := flags ||| 0x60

/-- `idt_set_gate`. -/
def idtSetGate (t : ℕ → IdtEntry) (num : BitVec 8) (base : Word) (sel : BitVec 16)
    (flags : BitVec 8) : ℕ → IdtEntry :=
  Function.update t num.toNat (idtEntry base sel flags)

/-- An interrupt gate as the processor reads it. -/
structure Gate where
  offset : Word
  sel : BitVec 16
  dpl : BitVec 2
deriving DecidableEq

/-- The gate that an entry describes, if it is present and a 32-bit interrupt gate. -/
def IdtEntry.gate (e : IdtEntry) : Option Gate :=
  if e.flags.getLsbD 7 ∧ e.flags.extractLsb' 0 5 = 0x0E then
    some ⟨e.baseHigh ++ e.baseLow, e.sel, e.flags.extractLsb' 5 2⟩
  else none

theorem gate_entry (base : Word) (sel : BitVec 16) {flags : BitVec 8}
    (h : flags = 0x8E ∨ flags = 0xEE) : (idtEntry base sel flags).gate = some ⟨base, sel, 3⟩ := by
  have hlow := toNat_field base (show (0xFFFF : BitVec 32).toNat = 2 ^ 16 - 1 from rfl) (le_refl 16)
  have hhigh := toNat_field (base >>> 16) (show (0xFFFF : BitVec 32).toNat = 2 ^ 16 - 1 from rfl)
    (le_refl 16)
  have hlt := base.isLt
  rw [toNat_shift] at hhigh
  have hbase : (idtEntry base sel flags).baseHigh ++ (idtEntry base sel flags).baseLow = base := by
    apply BitVec.eq_of_toNat_eq
    rw [toNat_append_add]
    simp only [idtEntry, hlow, hhigh]
    omega
  have hflags : (flags ||| 0x60).getLsbD 7 ∧ (flags ||| 0x60).extractLsb' 0 5 = 0x0E ∧
      (flags ||| 0x60).extractLsb' 5 2 = 3 := by
    rcases h with rfl | rfl
    · decide
    · decide
  rw [IdtEntry.gate, if_pos ⟨hflags.1, hflags.2.1⟩, hbase]
  exact congrArg (fun d => some (Gate.mk base sel d)) hflags.2.2

/-! ## `idt_init` -/

/-- The addresses of the stubs `isr0` to `isr31`, `isr128`, and `irq0` to `irq15`. -/
structure Labels where
  isr : ℕ → Word
  irq : ℕ → Word

/-- The arguments of a call of `idt_set_gate`; the selector is always `KERNEL_CS`. -/
structure GateCall where
  num : BitVec 8
  base : Word
  flags : BitVec 8

/-- `KERNEL_CS`. -/
def kernelCs : BitVec 16 := 0x08

/-- The calls of `idt_set_gate` in `idt_init` (lines 81–131). -/
def gateCalls (l : Labels) : List GateCall :=
  ((List.range 32).map fun n => ⟨BitVec.ofNat 8 n, l.isr n, 0x8E⟩) ++
    ((List.range 16).map fun k => ⟨BitVec.ofNat 8 (32 + k), l.irq k, 0x8E⟩) ++
    [⟨128, l.isr 128, 0xEE⟩]

/-- A sequence of calls of `idt_set_gate`. -/
def setGates (t : ℕ → IdtEntry) (gs : List GateCall) : ℕ → IdtEntry :=
  gs.foldl (fun t g => idtSetGate t g.num g.base kernelCs g.flags) t

/-- `idt_init` (lines 71–134): the table is cleared, then the gates are set. -/
def idtInit (l : Labels) : ℕ → IdtEntry := setGates (fun _ => ⟨0, 0, 0, 0, 0⟩) (gateCalls l)

theorem setGates_of_notMem (t : ℕ → IdtEntry) {gs : List GateCall} {n : ℕ}
    (h : ∀ g ∈ gs, g.num.toNat ≠ n) : setGates t gs n = t n := by
  induction gs generalizing t with
  | nil => rfl
  | cons g gs ih =>
    show setGates (idtSetGate t g.num g.base kernelCs g.flags) gs n = t n
    rw [ih _ fun g' hg' => h g' (List.mem_cons_of_mem g hg'), idtSetGate,
      Function.update_of_ne (Ne.symm (h g List.mem_cons_self))]

theorem setGates_of_mem (t : ℕ → IdtEntry) {gs : List GateCall}
    (hnodup : (gs.map GateCall.num).Nodup) {g : GateCall} (hg : g ∈ gs) :
    setGates t gs g.num.toNat = idtEntry g.base kernelCs g.flags := by
  induction gs generalizing t with
  | nil => exact absurd hg List.not_mem_nil
  | cons g' gs ih =>
    rw [List.map_cons, List.nodup_cons] at hnodup
    show setGates (idtSetGate t g'.num g'.base kernelCs g'.flags) gs g.num.toNat = _
    rcases List.mem_cons.mp hg with rfl | hg
    · have hothers : ∀ h ∈ gs, h.num.toNat ≠ g.num.toNat := by
        intro h hh heq
        exact hnodup.1 (List.mem_map.mpr ⟨h, hh, BitVec.eq_of_toNat_eq heq⟩)
      rw [setGates_of_notMem _ hothers, idtSetGate, Function.update_self]
    · exact ih _ hnodup.2 hg

/-- The stub for a vector. -/
def Labels.stub (l : Labels) (n : ℕ) : Option Word :=
  if n < 32 then some (l.isr n)
  else if n < 48 then some (l.irq (n - 32))
  else if n = 128 then some (l.isr 128)
  else none

theorem nodup_gateCalls (l : Labels) : ((gateCalls l).map GateCall.num).Nodup := by
  have hnums : (gateCalls l).map GateCall.num =
      (List.range 48).map (BitVec.ofNat 8) ++ [128] := by
    simp only [gateCalls, List.map_append, List.map_map, Function.comp_def, List.map_cons,
      List.map_nil]
    rfl
  rw [hnums]
  decide +kernel

theorem mem_gateCalls {l : Labels} {n : ℕ} {o : Word} (hn : n < 256) (h : l.stub n = some o) :
    ∃ g ∈ gateCalls l, g.num.toNat = n ∧ g.base = o ∧ (g.flags = 0x8E ∨ g.flags = 0xEE) := by
  have hnum : (BitVec.ofNat 8 n).toNat = n := by
    rw [BitVec.toNat_ofNat]
    omega
  unfold Labels.stub at h
  split_ifs at h with h1 h2 h3
  · refine ⟨⟨BitVec.ofNat 8 n, l.isr n, 0x8E⟩, ?_, hnum, Option.some_inj.mp h, .inl rfl⟩
    exact List.mem_append_left _ (List.mem_append_left _
      (List.mem_map.mpr ⟨n, List.mem_range.mpr h1, rfl⟩))
  · refine ⟨⟨BitVec.ofNat 8 n, l.irq (n - 32), 0x8E⟩, ?_, hnum, Option.some_inj.mp h, .inl rfl⟩
    refine List.mem_append_left _ (List.mem_append_right _
      (List.mem_map.mpr ⟨n - 32, List.mem_range.mpr (by omega), ?_⟩))
    rw [show 32 + (n - 32) = n by omega]
  · refine ⟨⟨128, l.isr 128, 0xEE⟩, ?_, h3.symm, Option.some_inj.mp h, .inr rfl⟩
    exact List.mem_append_right _ (List.mem_singleton.mpr rfl)

theorem stub_of_mem_gateCalls {l : Labels} {g : GateCall} (hg : g ∈ gateCalls l) :
    (l.stub g.num.toNat).isSome := by
  rcases List.mem_append.mp hg with hg | hg
  · rcases List.mem_append.mp hg with hg | hg
    · obtain ⟨n, hn, rfl⟩ := List.mem_map.mp hg
      have hn := List.mem_range.mp hn
      have hnum : (BitVec.ofNat 8 n).toNat = n := by rw [BitVec.toNat_ofNat]; omega
      simp [Labels.stub, hnum, hn]
    · obtain ⟨k, hk, rfl⟩ := List.mem_map.mp hg
      have hk := List.mem_range.mp hk
      have hnum : (BitVec.ofNat 8 (32 + k)).toNat = 32 + k := by rw [BitVec.toNat_ofNat]; omega
      simp only [Labels.stub, hnum]
      rw [if_neg (by omega), if_pos (by omega)]
      rfl
  · obtain rfl := List.mem_singleton.mp hg
    rfl

/-- The gates after `idt_init`: those of the stubs, all of them open to software of any
    privilege, and no others. -/
theorem gate_idtInit (l : Labels) {n : ℕ} (hn : n < 256) :
    (idtInit l n).gate = (l.stub n).map fun o => ⟨o, kernelCs, 3⟩ := by
  cases hstub : l.stub n with
  | none =>
    have hnone : ∀ g ∈ gateCalls l, g.num.toNat ≠ n := by
      rintro g hg rfl
      exact absurd (stub_of_mem_gateCalls hg) (by simp [hstub])
    rw [idtInit, setGates_of_notMem _ hnone]
    decide
  | some o =>
    obtain ⟨g, hg, rfl, rfl, hflags⟩ := mem_gateCalls hn hstub
    rw [idtInit, setGates_of_mem _ (nodup_gateCalls l) hg, gate_entry _ _ hflags]
    rfl

/-! ## Handlers -/

/-- `registers_t` (`idt.h`, lines 19–24). -/
structure Registers where
  ds : Word
  edi : Word
  esi : Word
  ebp : Word
  uselessEsp : Word
  ebx : Word
  edx : Word
  ecx : Word
  eax : Word
  intNo : Word
  errCode : Word
  eip : Word
  cs : Word
  eflags : Word
  esp : Word
  ss : Word
deriving DecidableEq

/-- `isr_handlers`. -/
abbrev Handlers (H : Type) := ℕ → Option H

/-- `isr_register_handler` (lines 136–139). -/
def isrRegisterHandler {H : Type} (t : Handlers H) (n : BitVec 8) (handler : H) : Handlers H :=
  Function.update t n.toNat (some handler)

/-- `exception_messages` (lines 17–46). -/
def exceptionMessages : List String :=
  ["Division By Zero", "Debug", "Non Maskable Interrupt", "Breakpoint", "Overflow",
    "Bound Range Exceeded", "Invalid Opcode", "Device Not Available", "Double Fault",
    "Coprocessor Segment Overrun", "Invalid TSS", "Segment Not Present", "Stack-Segment Fault",
    "General Protection Fault", "Page Fault", "Reserved", "x87 Floating-Point Exception",
    "Alignment Check", "Machine Check", "SIMD Floating-Point Exception",
    "Virtualization Exception", "Control Protection Exception", "Reserved", "Reserved",
    "Reserved", "Reserved", "Reserved", "Reserved", "Hypervisor Injection Exception",
    "VMM Communication Exception", "Security Exception", "Reserved"]

/-- What a handler of `idt.c` does with a frame: it calls the registered handler, or halts
    after a panic, for which it prints formats with their arguments, or returns. -/
inductive Dispatch (H : Type) where
  | call (handler : H)
  | panic (message : Option String) (lines : List (String × List Word))
  | return

/-- `isr_handler` (lines 141–156). -/
def isrHandler {H : Type} (t : Handlers H) (r : Registers) : Dispatch H :=
  match t r.intNo.toNat with
  | some h => .call h
  | none =>
    if r.intNo.toNat < 32 then
      .panic exceptionMessages[r.intNo.toNat]?
        [("KERNEL PANIC: %s (int %d, err %x)\n", [r.intNo, r.errCode]),
          ("  EIP=%x CS=%x EFLAGS=%x\n", [r.eip, r.cs, r.eflags]),
          ("  EAX=%x EBX=%x ECX=%x EDX=%x\n", [r.eax, r.ebx, r.ecx, r.edx]),
          ("  ESP=%x EBP=%x ESI=%x EDI=%x\n", [r.esp, r.ebp, r.esi, r.edi])]
    else .return

/-- `irq_handler` after the two end-of-interrupt commands (lines 164–165). -/
def irqDispatch {H : Type} (t : Handlers H) (r : Registers) : Dispatch H :=
  match t r.intNo.toNat with
  | some h => .call h
  | none => .return

/-- Every panic has a message. -/
theorem exceptionMessages_getElem? {n : ℕ} (h : n < 32) : (exceptionMessages[n]?).isSome := by
  rw [List.getElem?_eq_getElem (show n < exceptionMessages.length from h)]
  rfl

end NexusKernel.Cpu
