import NexusKernel.Common.X86
import NexusKernel.Process.Scheduler

/-!
# The code of `context_switch` (`kernel/process/scheduler.c`)

The instructions of the inline assembly, on records that lie in memory. They push `ebp`,
save the stack pointer and a return address in the record of the process that is left, and
return to what the other record holds. Beside these three words nothing is saved: the
other registers and the flags are passed on to the next process.

Results:
* `contextSwitch_refines`: on memory the code does what `contextSwitch` does on the records.
* `context_switch_returns`: a process that is switched back to continues with its own `esp`
  and `ebp`, and with everything else as it is left by the process that was running.
-/

namespace NexusKernel.Process

open X86

/-! ## The code -/

/-- The offsets of `context.esp` and `context.eip` in `process_t` (`process.h`). -/
def espOffset : ℕ := 112

@[inherit_doc espOffset]
def eipOffset : ℕ := 116

/-- `context.esp` of the record at `p`. -/
def contextEsp (m : Mem) (p : ℕ) : ℕ := read32 m (p + espOffset)

/-- `context.eip` of the record at `p`. -/
def contextEip (m : Mem) (p : ℕ) : ℕ := read32 m (p + eipOffset)

theorem toNat_contextEsp (m : Mem) (p : ℕ) :
    (BitVec.ofNat 32 (contextEsp m p)).toNat = contextEsp m p := by
  rw [BitVec.toNat_ofNat]
  exact Nat.mod_eq_of_lt (read32_lt _ _)

theorem toNat_contextEip (m : Mem) (p : ℕ) :
    (BitVec.ofNat 32 (contextEip m p)).toNat = contextEip m p := by
  rw [BitVec.toNat_ofNat]
  exact Nat.mod_eq_of_lt (read32_lt _ _)

/-- The inline assembly up to the `ret` (lines 81–85); `label` is the address of `1:`. -/
def switchCode (prev next : ℕ) (label : Word) : List Instr :=
  [.push .ebp, .store (prev + espOffset) .esp, .load .esp (next + espOffset),
    .storeImm (prev + eipOffset) label, .pushMem (next + eipOffset)]

/-- The state after the `ret` (line 86). -/
def switchAsm (σ : State) (prev next : ℕ) (label : Word) : State :=
  (execAll σ (switchCode prev next label)).ret

/-- What is executed at the label (line 88). -/
def popEbp (σ : State) : State := exec σ (.pop .ebp)

/-! ## What it writes -/

/-- The stack slot that `pushl %ebp` uses. -/
def slot (esp : Word) : ℕ := (esp - 4#32).toNat

theorem slot_lt (esp : Word) : slot esp < 2 ^ 32 := BitVec.isLt _

/-- The records of `R` do not overlap. -/
def Separate (R : Set ℕ) : Prop :=
  ∀ p ∈ R, ∀ q ∈ R, p ≠ q → p + sizeofProcess ≤ q ∨ q + sizeofProcess ≤ p

/-- The word at `a` is not one of the two context words of a record. -/
def OffRecords (R : Set ℕ) (a : ℕ) : Prop :=
  ∀ p ∈ R, a + 4 ≤ p + espOffset ∨ p + eipOffset + 4 ≤ a

section

variable {R : Set ℕ} {σ : State} {prev next : ℕ} (label : Word)

/-- The memory once the process that is left has been saved. -/
def savedMem (σ : State) (prev : ℕ) (label : Word) : Mem :=
  write32 (write32 (write32 σ.mem (slot σ.esp) (σ.reg .ebp).toNat) (prev + espOffset) (slot σ.esp))
    (prev + eipOffset) label.toNat

theorem contextEsp_savedMem_self : contextEsp (savedMem σ prev label) prev = slot σ.esp := by
  unfold contextEsp savedMem espOffset eipOffset
  rw [read32_write32_of_disjoint (by omega), read32_write32_of_lt (slot_lt σ.esp)]

theorem contextEip_savedMem_self : contextEip (savedMem σ prev label) prev = label.toNat := by
  unfold contextEip savedMem
  rw [read32_write32_of_lt label.isLt]

/-- The other records keep their words. -/
theorem context_savedMem_of_ne (hsep : Separate R) (hprev : prev ∈ R) (hslot : OffRecords R (slot σ.esp))
    {p : ℕ} (hp : p ∈ R) (hne : p ≠ prev) :
    contextEsp (savedMem σ prev label) p = contextEsp σ.mem p ∧
      contextEip (savedMem σ prev label) p = contextEip σ.mem p := by
  have hapart := hsep p hp prev hprev hne
  have hoff := hslot p hp
  unfold sizeofProcess at hapart
  unfold espOffset eipOffset at hoff
  unfold contextEsp contextEip savedMem espOffset eipOffset
  constructor
  · rw [read32_write32_of_disjoint (by omega), read32_write32_of_disjoint (by omega),
      read32_write32_of_disjoint (by omega)]
  · rw [read32_write32_of_disjoint (by omega), read32_write32_of_disjoint (by omega),
      read32_write32_of_disjoint (by omega)]

/-- The word that was pushed is still there. -/
theorem read32_savedMem_slot (hprev : prev ∈ R) (hslot : OffRecords R (slot σ.esp)) :
    read32 (savedMem σ prev label) (slot σ.esp) = (σ.reg .ebp).toNat := by
  have hoff := hslot prev hprev
  unfold espOffset eipOffset at hoff
  unfold savedMem espOffset eipOffset
  rw [read32_write32_of_disjoint (by omega), read32_write32_of_disjoint (by omega),
    read32_write32_of_lt (BitVec.isLt _)]

/-- The slot of a process that was switched away from earlier. -/
theorem read32_savedMem_of_apart {a : ℕ} (hprev : prev ∈ R) (ha : OffRecords R a)
    (hapart : slot σ.esp + 4 ≤ a ∨ a + 4 ≤ slot σ.esp) :
    read32 (savedMem σ prev label) a = read32 σ.mem a := by
  have hoff := ha prev hprev
  unfold espOffset eipOffset at hoff
  unfold savedMem espOffset eipOffset
  rw [read32_write32_of_disjoint (by omega), read32_write32_of_disjoint (by omega),
    read32_write32_of_disjoint (by omega)]

/-- A switch in one piece: the state of the next process is loaded, and the address it
    continues at has been written below its stack. -/
theorem switchAsm_eq (hsep : Separate R) (hprev : prev ∈ R) (hnext : next ∈ R) (hne : prev ≠ next)
    (hslot : OffRecords R (slot σ.esp)) :
    switchAsm σ prev next label =
      { σ with
        reg := Function.update σ.reg .esp (BitVec.ofNat 32 (contextEsp σ.mem next))
        eip := BitVec.ofNat 32 (contextEip σ.mem next)
        mem := write32 (savedMem σ prev label) (slot (BitVec.ofNat 32 (contextEsp σ.mem next)))
          (contextEip σ.mem next) } := by
  have hesp : read32 (write32 (write32 σ.mem (slot σ.esp) (σ.reg .ebp).toNat) (prev + espOffset)
      (slot σ.esp)) (next + espOffset) = contextEsp σ.mem next := by
    have hapart := hsep prev hprev next hnext hne
    have hoff := hslot next hnext
    unfold sizeofProcess at hapart
    unfold espOffset eipOffset at hoff
    unfold contextEsp espOffset
    rw [read32_write32_of_disjoint (by omega), read32_write32_of_disjoint (by omega)]
  have heip : contextEip (savedMem σ prev label) next = contextEip σ.mem next :=
    (context_savedMem_of_ne label hsep hprev hslot hnext (Ne.symm hne)).2
  -- the state before `pushl` has loaded the stack pointer of `next`
  have hload : execAll σ [.push .ebp, .store (prev + espOffset) .esp, .load .esp (next + espOffset),
      .storeImm (prev + eipOffset) label] =
      { σ with
        reg := Function.update σ.reg .esp (BitVec.ofNat 32 (contextEsp σ.mem next))
        mem := savedMem σ prev label } := by
    rw [← hesp]
    simp only [execAll_cons, execAll_nil, exec, State.push, State.setReg, State.esp,
      Function.update_self, Function.update_idem]
    rfl
  rw [switchAsm, switchCode, show ∀ i₁ i₂ i₃ i₄ i₅ : Instr, [i₁, i₂, i₃, i₄, i₅] =
    [i₁, i₂, i₃, i₄] ++ [i₅] from fun _ _ _ _ _ => rfl, execAll_append, hload]
  simp only [execAll_cons, execAll_nil, exec, State.ret, word_push_zero]
  rw [show read32 (savedMem σ prev label) (next + eipOffset) = _ from heip]
  have hdrop : BitVec.ofNat 32 (contextEsp σ.mem next) - 4#32 + BitVec.ofNat 32 (4 * 1) =
      BitVec.ofNat 32 (contextEsp σ.mem next) := BitVec.sub_add_cancel _ _
  simp only [State.drop, State.push, State.setReg, State.esp, Function.update_self,
    Function.update_idem, toNat_contextEip, hdrop]
  rfl

theorem esp_switchAsm (hsep : Separate R) (hprev : prev ∈ R) (hnext : next ∈ R) (hne : prev ≠ next)
    (hslot : OffRecords R (slot σ.esp)) :
    (switchAsm σ prev next label).esp = BitVec.ofNat 32 (contextEsp σ.mem next) := by
  rw [switchAsm_eq label hsep hprev hnext hne hslot]
  exact Function.update_self Reg.esp _ σ.reg

/-- The address pushed on the next stack is not in a record. -/
theorem context_switchAsm (hsep : Separate R) (hprev : prev ∈ R) (hnext : next ∈ R)
    (hne : prev ≠ next) (hslot : OffRecords R (slot σ.esp))
    (hslot' : OffRecords R (slot (BitVec.ofNat 32 (contextEsp σ.mem next)))) {p : ℕ} (hp : p ∈ R) :
    contextEsp (switchAsm σ prev next label).mem p = contextEsp (savedMem σ prev label) p ∧
      contextEip (switchAsm σ prev next label).mem p = contextEip (savedMem σ prev label) p := by
  have hoff := hslot' p hp
  rw [switchAsm_eq label hsep hprev hnext hne hslot]
  generalize slot (BitVec.ofNat 32 (contextEsp σ.mem next)) = a at hoff
  unfold espOffset eipOffset at hoff
  unfold contextEsp contextEip espOffset eipOffset
  exact ⟨read32_write32_of_disjoint (by omega), read32_write32_of_disjoint (by omega)⟩

end

/-! ## Refinement -/

/-- The memory holds the contexts of the records. -/
def HoldsContexts (R : Set ℕ) (m : Mem) (procs : ℕ → Proc) : Prop :=
  ∀ p ∈ R, contextEsp m p = (procs p).context.esp ∧ contextEip m p = (procs p).context.eip

variable {τ : Type}

theorem procs_contextSwitch (s : Sys τ) {prev next : ℕ} (hne : prev ≠ next) (esp : ℕ) :
    (contextSwitch s prev next esp).procs =
      Function.update s.procs prev
        { s.procs prev with
          context := { (s.procs prev).context with esp := esp, eip := s.cpu.switchReturn } } := by
  rw [contextSwitch_of_ne s hne]
  rfl

/-- **The code refines the model.** On memory that holds the contexts of the records, the
    instructions leave what `contextSwitch` computes, with the stack pointer below the pushed
    `ebp` as the one it saves; the processor continues where the model's does. -/
theorem contextSwitch_refines {R : Set ℕ} (hsep : Separate R) {σ : State} {s : Sys τ}
    (hholds : HoldsContexts R σ.mem s.procs) {prev next : ℕ} (hprev : prev ∈ R) (hnext : next ∈ R)
    (hne : prev ≠ next) (hslot : OffRecords R (slot σ.esp))
    (hslot' : OffRecords R (slot (BitVec.ofNat 32 (s.procs next).context.esp)))
    (hreturn : s.cpu.switchReturn < 2 ^ 32) :
    HoldsContexts R (switchAsm σ prev next (BitVec.ofNat 32 s.cpu.switchReturn)).mem
        (contextSwitch s prev next (slot σ.esp)).procs ∧
      (switchAsm σ prev next (BitVec.ofNat 32 s.cpu.switchReturn)).esp.toNat =
        (contextSwitch s prev next (slot σ.esp)).cpu.esp ∧
      (switchAsm σ prev next (BitVec.ofNat 32 s.cpu.switchReturn)).eip.toNat =
        (contextSwitch s prev next (slot σ.esp)).cpu.eip := by
  obtain ⟨hesp, heip⟩ := hholds next hnext
  have hlabel : (BitVec.ofNat 32 s.cpu.switchReturn).toNat = s.cpu.switchReturn := by
    rw [BitVec.toNat_ofNat, Nat.mod_eq_of_lt hreturn]
  refine ⟨?_, ?_, ?_⟩
  · intro p hp
    obtain ⟨h1, h2⟩ := context_switchAsm (BitVec.ofNat 32 s.cpu.switchReturn) hsep hprev hnext
      hne hslot (hesp ▸ hslot') hp
    rw [h1, h2, procs_contextSwitch s hne]
    by_cases hpp : p = prev
    · rw [hpp, contextEsp_savedMem_self, contextEip_savedMem_self, Function.update_self, hlabel]
      exact ⟨rfl, rfl⟩
    · obtain ⟨h3, h4⟩ := context_savedMem_of_ne (BitVec.ofNat 32 s.cpu.switchReturn) hsep hprev
        hslot hp hpp
      rw [h3, h4, Function.update_of_ne hpp]
      exact hholds p hp
  · rw [esp_switchAsm _ hsep hprev hnext hne hslot, toNat_contextEsp, hesp, contextSwitch_of_ne s hne]
    rfl
  · rw [switchAsm_eq _ hsep hprev hnext hne hslot]
    show (BitVec.ofNat 32 (contextEip σ.mem next)).toNat = _
    rw [toNat_contextEip, heip, contextSwitch_of_ne s hne]
    rfl

/-- Two records; the second has a stack at `0x9000` and starts at `0x101000`. -/
def twoRecords : Set ℕ := {0x1000, 0x2000}

def twoRecordsMem : Mem := write32 (write32 (fun _ => 0) 0x2070 0x9000) 0x2074 0x101000

def twoRecordsSys : Sys ℕ :=
  { coldSys with
    procs := Function.update coldSys.procs 0x2000 { context := { esp := 0x9000, eip := 0x101000 } } }

/-- The processor on the stack of the first. -/
def firstRuns : State where
  reg _ := 0x8000
  seg _ := 0x10
  cs := 0x08
  eip := 0x100000
  eflags := 0x202
  mem := twoRecordsMem

theorem separate_twoRecords : Separate twoRecords := by
  rintro p (rfl | rfl) q (rfl | rfl)
  all_goals decide

theorem offRecords_twoRecords {a : ℕ} (ha : 0x3000 ≤ a) : OffRecords twoRecords a := by
  unfold OffRecords espOffset eipOffset
  rintro p (rfl | rfl)
  all_goals omega

theorem contextSwitch_refines_two :
    HoldsContexts twoRecords (switchAsm firstRuns 0x1000 0x2000
        (BitVec.ofNat 32 twoRecordsSys.cpu.switchReturn)).mem
        (contextSwitch twoRecordsSys 0x1000 0x2000 (slot firstRuns.esp)).procs ∧
      (switchAsm firstRuns 0x1000 0x2000
        (BitVec.ofNat 32 twoRecordsSys.cpu.switchReturn)).esp.toNat =
        (contextSwitch twoRecordsSys 0x1000 0x2000 (slot firstRuns.esp)).cpu.esp ∧
      (switchAsm firstRuns 0x1000 0x2000
        (BitVec.ofNat 32 twoRecordsSys.cpu.switchReturn)).eip.toNat =
        (contextSwitch twoRecordsSys 0x1000 0x2000 (slot firstRuns.esp)).cpu.eip := by
  refine contextSwitch_refines separate_twoRecords ?_ (Or.inl rfl) (Or.inr rfl) (by decide)
    (offRecords_twoRecords (by decide +kernel)) (offRecords_twoRecords (by decide +kernel))
    (by decide)
  rintro p (rfl | rfl)
  · decide +kernel
  · decide +kernel

/-! ## There and back -/

/-- **What a process gets back.** Between the switch from `prev` in `σ` and the switch back
    to it in `ρ` anything may happen that leaves its two context words and the slot of its
    `ebp` alone. The code after the label then continues with the stack pointer and the frame
    pointer of `σ`; the other registers, the segment registers and the flags are those of the
    process that was running in `ρ`. -/
theorem context_switch_returns {R : Set ℕ} (hsep : Separate R) {σ ρ : State} {prev next other : ℕ}
    (hprev : prev ∈ R) (hnext : next ∈ R) (hother : other ∈ R) (hne : prev ≠ next)
    (hne' : other ≠ prev) (label label' : Word) (hslot : OffRecords R (slot σ.esp))
    (hslot' : OffRecords R (slot (BitVec.ofNat 32 (contextEsp σ.mem next))))
    (hslotρ : OffRecords R (slot ρ.esp))
    (hesp : contextEsp ρ.mem prev = contextEsp (switchAsm σ prev next label).mem prev)
    (heip : contextEip ρ.mem prev = contextEip (switchAsm σ prev next label).mem prev)
    (hebp : read32 ρ.mem (slot σ.esp) = read32 (switchAsm σ prev next label).mem (slot σ.esp))
    (hapart : slot (BitVec.ofNat 32 (contextEsp σ.mem next)) + 4 ≤ slot σ.esp ∨
      slot σ.esp + 4 ≤ slot (BitVec.ofNat 32 (contextEsp σ.mem next)))
    (hapartρ : slot ρ.esp + 4 ≤ slot σ.esp ∨ slot σ.esp + 4 ≤ slot ρ.esp) :
    (switchAsm ρ other prev label').eip = label ∧
      popEbp (switchAsm ρ other prev label') =
        { ρ with
          reg := Function.update (Function.update ρ.reg .ebp (σ.reg .ebp)) .esp σ.esp
          eip := label
          mem := (switchAsm ρ other prev label').mem } := by
  obtain ⟨hctx, hctx'⟩ := context_switchAsm label hsep hprev hnext hne hslot hslot' hprev
  have hespσ : BitVec.ofNat 32 (contextEsp ρ.mem prev) = σ.esp - 4#32 := by
    rw [hesp, hctx, contextEsp_savedMem_self, slot, BitVec.ofNat_toNat, BitVec.setWidth_eq]
  have heipσ : BitVec.ofNat 32 (contextEip ρ.mem prev) = label := by
    rw [heip, hctx', contextEip_savedMem_self, BitVec.ofNat_toNat, BitVec.setWidth_eq]
  have hback := switchAsm_eq label' hsep hother hprev hne' hslotρ
  rw [hespσ, heipσ] at hback
  have hpushed : read32 ρ.mem (slot σ.esp) = (σ.reg .ebp).toNat := by
    rw [hebp, switchAsm_eq label hsep hprev hnext hne hslot,
      read32_write32_of_disjoint (by omega), read32_savedMem_slot label hprev hslot]
  -- the return address goes below the slot
  have hbelow : slot (σ.esp - 4#32) + 4 ≤ slot σ.esp ∨ slot σ.esp + 4 ≤ slot (σ.esp - 4#32) := by
    simp only [slot, BitVec.toNat_sub, BitVec.toNat_ofNat]
    omega
  have hword : (switchAsm ρ other prev label').word 0 = σ.reg .ebp := by
    have haddr : σ.esp - 4#32 + BitVec.ofNat 32 (4 * 0) = σ.esp - 4#32 := by simp
    rw [State.word, hback]
    show BitVec.ofNat 32 (read32 _ (Function.update ρ.reg .esp (σ.esp - 4#32) .esp +
      BitVec.ofNat 32 (4 * 0)).toNat) = _
    rw [Function.update_self, haddr]
    show BitVec.ofNat 32 (read32 _ (slot σ.esp)) = _
    rw [read32_write32_of_disjoint (by omega), read32_savedMem_of_apart label' hother hslot hapartρ,
      hpushed, BitVec.ofNat_toNat, BitVec.setWidth_eq]
  refine ⟨by rw [hback], ?_⟩
  rw [popEbp, exec, hword, hback]
  have hdrop : σ.esp - 4#32 + BitVec.ofNat 32 (4 * 1) = σ.esp := BitVec.sub_add_cancel _ _
  simp only [State.drop, State.setReg, State.esp, Function.update_self, Function.update_idem]
  simp only [State.esp] at hdrop
  rw [hdrop, Function.update_comm (by decide)]

/-- The second process switches back at once. -/
def secondRuns : State := switchAsm firstRuns 0x1000 0x2000 0x100500

theorem context_switch_returns_two :
    (switchAsm secondRuns 0x2000 0x1000 0x100500).eip = 0x100500 ∧
      popEbp (switchAsm secondRuns 0x2000 0x1000 0x100500) =
        { secondRuns with
          reg := Function.update (Function.update secondRuns.reg .ebp (firstRuns.reg .ebp)) .esp
            firstRuns.esp
          eip := 0x100500
          mem := (switchAsm secondRuns 0x2000 0x1000 0x100500).mem } :=
  context_switch_returns separate_twoRecords (Or.inl rfl) (Or.inr rfl) (Or.inr rfl)
    (by decide) (by decide) _ _ (offRecords_twoRecords (by decide +kernel))
    (offRecords_twoRecords (by decide +kernel)) (offRecords_twoRecords (by decide +kernel)) rfl rfl
    rfl (by decide +kernel) (by decide +kernel)

end NexusKernel.Process
