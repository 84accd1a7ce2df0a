import NexusKernel.Common.Mem

/-!
# A small model of the 32-bit x86 processor

Registers, selectors, flags and a flat memory, with the instructions that code working on
its own stack is made of. Such code is described by the words that lie on the stack,
counted from `esp` (`State.word`), and not by addresses: a push puts a word in front
(`word_push_zero`, `word_push_succ`).

Everything runs at one privilege level: an interrupt pushes no `ss` and `esp`, and `iret`
pops none. The code segment is flat, and an instruction that is not a jump moves on to the
next one of its list.

* `exec`: the instructions.
* `word_pushAll`, `mem_pushAll`: the words that a sequence of pushes leaves, and the memory
  it does not touch.
-/

namespace NexusKernel.X86

abbrev Word := BitVec 32

/-- The general registers, in the order of `pushal`. -/
inductive Reg where
  | eax
  | ecx
  | edx
  | ebx
  | esp
  | ebp
  | esi
  | edi
deriving DecidableEq

/-- The data segment registers. -/
inductive Seg where
  | ds
  | es
  | fs
  | gs
deriving DecidableEq

structure State where
  reg : Reg → Word
  seg : Seg → BitVec 16
  cs : BitVec 16
  eip : Word
  eflags : Word
  mem : Mem

/-! ## Registers and the stack -/

def State.setReg (σ : State) (r : Reg) (v : Word) : State :=
  { σ with reg := Function.update σ.reg r v }

/-- The stack pointer. -/
def State.esp (σ : State) : Word := σ.reg .esp

/-- The word at `i` words from the top of the stack. -/
def State.word (σ : State) (i : ℕ) : Word :=
  BitVec.ofNat 32 (read32 σ.mem (σ.esp + BitVec.ofNat 32 (4 * i)).toNat)

def State.push (σ : State) (v : Word) : State :=
  { σ.setReg .esp (σ.esp - 4#32) with mem := write32 σ.mem (σ.esp - 4#32).toNat v.toNat }

/-- `n` words are taken off the stack. -/
def State.drop (σ : State) (n : ℕ) : State := σ.setReg .esp (σ.esp + BitVec.ofNat 32 (4 * n))

/-- Push the words of a list, the last one first. -/
def State.pushAll (σ : State) : List Word → State
  | [] => σ
  | v :: vs => (σ.pushAll vs).push v

section

variable (σ : State) (r : Reg) (v : Word) (i n : ℕ)

@[simp] theorem reg_setReg_self : (σ.setReg r v).reg r = v := by
  simp [State.setReg]

@[simp] theorem esp_push : (σ.push v).esp = σ.esp - 4#32 := Function.update_self Reg.esp _ σ.reg

@[simp] theorem esp_drop : (σ.drop n).esp = σ.esp + BitVec.ofNat 32 (4 * n) :=
  Function.update_self Reg.esp _ σ.reg

theorem reg_push_of_ne (h : r ≠ .esp) : (σ.push v).reg r = σ.reg r := Function.update_of_ne h ..

theorem word_congr {σ τ : State} (hmem : τ.mem = σ.mem) (hesp : τ.esp = σ.esp) (i : ℕ) :
    τ.word i = σ.word i := by
  rw [State.word, State.word, hmem, hesp]

theorem word_push_zero : (σ.push v).word 0 = v := by
  have haddr : σ.esp - 4#32 + BitVec.ofNat 32 (4 * 0) = σ.esp - 4#32 := by simp
  rw [State.word, esp_push, haddr]
  show BitVec.ofNat 32 (read32 (write32 σ.mem (σ.esp - 4#32).toNat v.toNat) (σ.esp - 4#32).toNat) = v
  rw [read32_write32_of_lt v.isLt, BitVec.ofNat_toNat, BitVec.setWidth_eq]

/-- The words below a pushed one are as they were, as long as the stack is not all of the
    address space. -/
theorem word_push_succ (h : i + 2 ≤ 2 ^ 30) : (σ.push v).word (i + 1) = σ.word i := by
  have haddr : σ.esp - 4#32 + BitVec.ofNat 32 (4 * (i + 1)) = σ.esp + BitVec.ofNat 32 (4 * i) := by
    apply BitVec.eq_of_toNat_eq
    simp only [BitVec.toNat_add, BitVec.toNat_sub, BitVec.toNat_ofNat]
    omega
  rw [State.word, State.word, esp_push, haddr]
  show BitVec.ofNat 32 (read32 (write32 σ.mem (σ.esp - 4#32).toNat v.toNat) _) = _
  rw [read32_write32_of_disjoint]
  -- the two addresses are 4 * (i + 1) apart modulo 2 ^ 32
  simp only [BitVec.toNat_add, BitVec.toNat_sub, BitVec.toNat_ofNat]
  omega

end

/-! ## Sequences of pushes -/

section

variable (σ : State) (vs : List Word)

theorem pushAll_append (ws : List Word) : σ.pushAll (vs ++ ws) = (σ.pushAll ws).pushAll vs := by
  induction vs with
  | nil => rfl
  | cons v vs ih => exact congrArg (fun τ : State => τ.push v) ih

/-- Pushes look at the memory and at the stack pointer only. -/
theorem pushAll_congr {σ τ : State} (hmem : τ.mem = σ.mem) (hreg : τ.reg = σ.reg)
    (vs : List Word) :
    (τ.pushAll vs).mem = (σ.pushAll vs).mem ∧ (τ.pushAll vs).reg = (σ.pushAll vs).reg := by
  induction vs with
  | nil => exact ⟨hmem, hreg⟩
  | cons v vs ih => simp only [State.pushAll, State.push, State.setReg, State.esp, ih, and_self]

theorem esp_pushAll : (σ.pushAll vs).esp = σ.esp - BitVec.ofNat 32 (4 * vs.length) := by
  induction vs with
  | nil => simp [State.pushAll]
  | cons v vs ih =>
    rw [State.pushAll, esp_push, ih, List.length_cons]
    apply BitVec.eq_of_toNat_eq
    simp only [BitVec.toNat_sub, BitVec.toNat_ofNat]
    omega

theorem reg_pushAll_of_ne {r : Reg} (h : r ≠ .esp) : (σ.pushAll vs).reg r = σ.reg r := by
  induction vs with
  | nil => rfl
  | cons v vs ih => rw [State.pushAll, reg_push_of_ne _ _ _ h, ih]

theorem seg_pushAll : (σ.pushAll vs).seg = σ.seg := by
  induction vs with
  | nil => rfl
  | cons v vs ih => exact ih

/-- The words pushed lie in front of the others. -/
theorem word_pushAll {i : ℕ} (hlen : vs.length + i + 2 ≤ 2 ^ 30) :
    (σ.pushAll vs).word (vs.length + i) = σ.word i := by
  induction vs with
  | nil => rw [List.length_nil, Nat.zero_add]; rfl
  | cons v vs ih =>
    rw [List.length_cons] at hlen ⊢
    rw [State.pushAll, Nat.add_right_comm, word_push_succ _ _ _ (by omega), ih (by omega)]

theorem word_pushAll_of_getElem? {i : ℕ} {v : Word} (hlen : vs.length + 2 ≤ 2 ^ 30)
    (hv : vs[i]? = some v) : (σ.pushAll vs).word i = v := by
  induction vs generalizing i with
  | nil => simp at hv
  | cons w vs ih =>
    rw [List.length_cons] at hlen
    cases i with
    | zero =>
      rw [State.pushAll, word_push_zero]
      simpa using hv
    | succ i =>
      rw [List.getElem?_cons_succ] at hv
      have hi : i < vs.length := (List.getElem?_eq_some_iff.mp hv).1
      rw [State.pushAll, word_push_succ _ _ _ (by omega)]
      exact ih (by omega) hv

/-- Nothing is written above the stack pointer, or below the last word pushed. -/
theorem mem_pushAll {x : ℕ} (hlen : 4 * vs.length ≤ σ.esp.toNat)
    (hx : x + 4 * vs.length < σ.esp.toNat ∨ σ.esp.toNat ≤ x) : (σ.pushAll vs).mem x = σ.mem x := by
  induction vs with
  | nil => rfl
  | cons v vs ih =>
    rw [List.length_cons] at hlen hx
    have hesp : ((σ.pushAll vs).esp - 4#32).toNat = σ.esp.toNat - 4 * (vs.length + 1) := by
      have := σ.esp.isLt
      rw [esp_pushAll]
      simp only [BitVec.toNat_sub, BitVec.toNat_ofNat]
      omega
    show write32 (σ.pushAll vs).mem ((σ.pushAll vs).esp - 4#32).toNat v.toNat x = σ.mem x
    rw [write32_outside (by omega), ih (by omega) (by omega)]

end

/-! ## Instructions -/

/-- The low half of a register. -/
def setLow (w : Word) (v : BitVec 16) : Word := w.extractLsb' 16 16 ++ v

/-- The arithmetic flags after the sum of `a` and `b`: carry, parity, adjust, zero, sign and
    overflow; the others stay as in `f`. -/
def addFlags (f a b : Word) : Word :=
  let s := a + b
  let bit (c : Bool) (k : ℕ) : Word := if c then 1#32 <<< k else 0
  (f &&& ~~~0x8D5#32) ||| bit (BitVec.carry 32 a b false) 0
    ||| bit (((List.range 8).countP fun i => s.getLsbD i) % 2 = 0) 2
    ||| bit (BitVec.carry 4 a b false) 4 ||| bit (s = 0) 6 ||| bit s.msb 7
    ||| bit (BitVec.saddOverflow a b) 11

/-- The instructions; a memory operand is its address. -/
inductive Instr where
  | pushImm (v : Word)
  | push (r : Reg)
  | pushMem (a : ℕ)
  | pop (r : Reg)
  | popfl
  | pushal
  | popal
  | addImm (r : Reg) (v : Word)
  | movImm (r : Reg) (v : Word)
  | movAxImm (v : BitVec 16)
  | movAxSeg (s : Seg)
  | movSegAx (s : Seg)
  | load (r : Reg) (a : ℕ)
  | store (a : ℕ) (r : Reg)
  | storeImm (a : ℕ) (v : Word)

/-- What `pushal` pushes, as it lies on the stack. -/
def State.saved (σ : State) : List Word :=
  [σ.reg .edi, σ.reg .esi, σ.reg .ebp, σ.reg .esp, σ.reg .ebx, σ.reg .edx, σ.reg .ecx, σ.reg .eax]

/-- The registers that `popal` loads; the word for `esp` is skipped. -/
def State.restored (σ : State) : Reg → Word
  | .edi => σ.word 0
  | .esi => σ.word 1
  | .ebp => σ.word 2
  | .esp => σ.esp + 32#32
  | .ebx => σ.word 4
  | .edx => σ.word 5
  | .ecx => σ.word 6
  | .eax => σ.word 7

def exec (σ : State) : Instr → State
  | .pushImm v => σ.push v
  | .push r => σ.push (σ.reg r)
  | .pushMem a => σ.push (BitVec.ofNat 32 (read32 σ.mem a))
  | .pop r => (σ.drop 1).setReg r (σ.word 0)
  | .popfl => { σ.drop 1 with eflags := σ.word 0 }
  | .pushal => σ.pushAll σ.saved
  | .popal => { σ with reg := σ.restored }
  | .addImm r v => { σ.setReg r (σ.reg r + v) with eflags := addFlags σ.eflags (σ.reg r) v }
  | .movImm r v => σ.setReg r v
  | .movAxImm v => σ.setReg .eax (setLow (σ.reg .eax) v)
  | .movAxSeg s => σ.setReg .eax (setLow (σ.reg .eax) (σ.seg s))
  | .movSegAx s => { σ with seg := Function.update σ.seg s ((σ.reg .eax).setWidth 16) }
  | .load r a => σ.setReg r (BitVec.ofNat 32 (read32 σ.mem a))
  | .store a r => { σ with mem := write32 σ.mem a (σ.reg r).toNat }
  | .storeImm a v => { σ with mem := write32 σ.mem a v.toNat }

/-- The instructions of a block, one after the other. -/
def execAll (σ : State) (is : List Instr) : State := is.foldl exec σ

@[simp] theorem execAll_nil (σ : State) : execAll σ [] = σ := rfl

@[simp] theorem execAll_cons (σ : State) (i : Instr) (is : List Instr) :
    execAll σ (i :: is) = execAll (exec σ i) is := rfl

theorem execAll_append (σ : State) (is js : List Instr) :
    execAll σ (is ++ js) = execAll (execAll σ is) js := List.foldl_append

theorem setWidth_setLow (w : Word) (v : BitVec 16) : (setLow w v).setWidth 16 = v := by
  apply BitVec.eq_of_toNat_eq
  rw [BitVec.toNat_setWidth, setLow, BitVec.toNat_append, ← Nat.shiftLeft_add_eq_or_of_lt v.isLt,
    Nat.shiftLeft_eq, Nat.mul_add_mod_self_right, Nat.mod_eq_of_lt v.isLt]

/-! ## Interrupts and returns -/

/-- An interrupt through an interrupt gate to `offset` in the segment `sel`, with the error
    code of the exceptions that have one: the interrupt flag (bit 9) and the trap flag (bit 8)
    are cleared. -/
def State.interrupt (σ : State) (sel : BitVec 16) (offset : Word) (err : Option Word) : State :=
  { σ.pushAll (err.toList ++ [σ.eip, σ.cs.setWidth 32, σ.eflags]) with
    cs := sel
    eip := offset
    eflags := σ.eflags &&& ~~~0x300#32 }

def State.iret (σ : State) : State :=
  { σ.drop 3 with
    eip := σ.word 0
    cs := (σ.word 1).setWidth 16
    eflags := σ.word 2 }

/-- The near return. -/
def State.ret (σ : State) : State := { σ.drop 1 with eip := σ.word 0 }

end NexusKernel.X86
