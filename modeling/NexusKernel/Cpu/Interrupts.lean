import NexusKernel.Cpu.Idt
import NexusKernel.Cpu.Pic

/-!
# The way into a handler and back (`kernel/boot/isr.s`)

The stub of a vector completes what the processor has pushed to a `registers_t` and calls
one of the two handlers of `idt.c` with a pointer to it; on the way back it loads the
registers from there. `isr_common_stub` and `irq_common_stub` are the same code but for the
handler they call, which a `CommonStub` names. The call itself is not modelled by
instructions: a handler may do anything, as long as it returns with the stack pointer it was
called with.

The saved `ds` is loaded into all four data segment registers, and whether the frame has
the right shape depends on the processor having pushed an error code exactly for the
vectors of `ISR_ERRCODE`.

Results:
* `registersAt_entered`: the frame that a handler is given.
* `resumed_eq`: where the interrupted code continues, whatever the handler did.
* `interrupt_transparent_iff`: a handler that leaves the frame alone is not noticed, iff the
  error code was pushed when the stub expects it and the segment registers are equal.
* `unhandled_exception_panics`: what happens on an exception without a handler.
* `irq_reaches_handler`: from a request at a controller to the handler registered for it.
-/

namespace NexusKernel.Cpu

open X86

/-! ## The code -/

/-- The vectors of `ISR_ERRCODE` (lines 37–59). -/
def isrErrcode : List ℕ := [8, 10, 11, 12, 13, 14, 17, 30]

/-- The function of `idt.c` that a common stub calls. -/
inductive StubHandler where
  | isrHandler
  | irqHandler
deriving DecidableEq

/-- A common stub: its code up to the call, the function that it calls, and its code from
    there to the `iret`. -/
structure CommonStub where
  entry : List Instr
  handler : StubHandler
  exit : List Instr

/-- Up to the call (lines 90–101 and 115–126). -/
def commonEntry : List Instr :=
  [.pushal, .movAxSeg .ds, .push .eax, .movAxImm 0x10, .movSegAx .ds, .movSegAx .es,
    .movSegAx .fs, .movSegAx .gs, .push .esp]

/-- From the call to the `iret` (lines 103–113 and 128–138). -/
def commonExit : List Instr :=
  [.addImm .esp 4, .pop .eax, .movSegAx .ds, .movSegAx .es, .movSegAx .fs, .movSegAx .gs, .popal,
    .addImm .esp 8]

/-- `isr_common_stub` (lines 90–113). -/
def isrCommonStub : CommonStub := ⟨commonEntry, .isrHandler, commonExit⟩

/-- `irq_common_stub` (lines 115–138). -/
def irqCommonStub : CommonStub := ⟨commonEntry, .irqHandler, commonExit⟩

/-- The stub of a vector: what it pushes, and the common stub that it jumps to. -/
structure Stub where
  pushes : List Instr
  common : CommonStub

/-- `ISR_NOERRCODE` (lines 3–10), and `isr128` (lines 82–85). -/
def isrNoerrcodeStub (num : ℕ) : Stub :=
  ⟨[.pushImm 0, .pushImm (BitVec.ofNat 32 num)], isrCommonStub⟩

/-- `ISR_ERRCODE` (lines 12–18). -/
def isrErrcodeStub (num : ℕ) : Stub := ⟨[.pushImm (BitVec.ofNat 32 num)], isrCommonStub⟩

/-- `IRQ` (lines 20–27). -/
def irqStub (mapped : ℕ) : Stub :=
  ⟨[.pushImm 0, .pushImm (BitVec.ofNat 32 mapped)], irqCommonStub⟩

/-- The stub of the vector `n`, by the macro that makes it (lines 29–85). -/
def stubOf (n : ℕ) : Stub :=
  if n ∈ isrErrcode then isrErrcodeStub n
  else if 32 ≤ n ∧ n < 48 then irqStub n
  else isrNoerrcodeStub n

theorem pushes_stubOf (n : ℕ) : (stubOf n).pushes =
    if n ∈ isrErrcode then [.pushImm (BitVec.ofNat 32 n)]
    else [.pushImm 0, .pushImm (BitVec.ofNat 32 n)] := by
  unfold stubOf
  split_ifs <;> rfl

theorem entry_stubOf (n : ℕ) : (stubOf n).common.entry = commonEntry := by
  unfold stubOf
  split_ifs <;> rfl

theorem exit_stubOf (n : ℕ) : (stubOf n).common.exit = commonExit := by
  unfold stubOf
  split_ifs <;> rfl

/-- The state in which the handler is called, for an interrupt on the vector `n` whose gate
    leads to `offset`. -/
def entered (σ : State) (offset : Word) (n : ℕ) (err : Option Word) : State :=
  execAll (σ.interrupt kernelCs offset err) ((stubOf n).pushes ++ (stubOf n).common.entry)

/-- The state after the `iret`, from one in which the handler has returned. -/
def resumed (σ : State) : State := (execAll σ commonExit).iret

/-- The word of the structure at `p` with index `i`. -/
def wordAt (m : Mem) (p : Word) (i : ℕ) : Word :=
  BitVec.ofNat 32 (read32 m (p + BitVec.ofNat 32 (4 * i)).toNat)

/-- The `registers_t` at `p`. -/
def registersAt (m : Mem) (p : Word) : Registers where
  ds := wordAt m p 0
  edi := wordAt m p 1
  esi := wordAt m p 2
  ebp := wordAt m p 3
  uselessEsp := wordAt m p 4
  ebx := wordAt m p 5
  edx := wordAt m p 6
  ecx := wordAt m p 7
  eax := wordAt m p 8
  intNo := wordAt m p 9
  errCode := wordAt m p 10
  eip := wordAt m p 11
  cs := wordAt m p 12
  eflags := wordAt m p 13
  esp := wordAt m p 14
  ss := wordAt m p 15

/-! ## Into the handler -/

section

variable (σ : State) (offset : Word) (n : ℕ) (err : Option Word)

/-- What lies on the stack above the interrupted code's words when the common stub starts. -/
def stubWords : List Word :=
  (if n ∈ isrErrcode then [BitVec.ofNat 32 n] else [BitVec.ofNat 32 n, 0]) ++
    (err.toList ++ [σ.eip, σ.cs.setWidth 32, σ.eflags])

theorem execAll_pushes :
    (execAll (σ.interrupt kernelCs offset err) (stubOf n).pushes).mem =
        (σ.pushAll (stubWords σ n err)).mem ∧
      (execAll (σ.interrupt kernelCs offset err) (stubOf n).pushes).reg =
        (σ.pushAll (stubWords σ n err)).reg ∧
      (execAll (σ.interrupt kernelCs offset err) (stubOf n).pushes).seg = σ.seg := by
  rw [pushes_stubOf, stubWords, pushAll_append]
  split_ifs
  · exact ⟨rfl, rfl, seg_pushAll _ _⟩
  · exact ⟨rfl, rfl, seg_pushAll _ _⟩

/-- What the common stub puts on the stack. -/
def commonWords (τ : State) : List Word :=
  (τ.esp - 36#32) :: setLow (τ.reg .eax) (τ.seg .ds) :: τ.saved

theorem execAll_commonEntry (τ : State) :
    (execAll τ commonEntry).mem = (τ.pushAll (commonWords τ)).mem ∧
      (execAll τ commonEntry).esp = (τ.pushAll (commonWords τ)).esp := by
  have hrest : ∀ ρ : State,
      (execAll ρ commonEntry.tail).mem = (ρ.pushAll
        [ρ.esp - 4#32, setLow (ρ.reg .eax) (ρ.seg .ds)]).mem ∧
      (execAll ρ commonEntry.tail).esp = (ρ.pushAll
        [ρ.esp - 4#32, setLow (ρ.reg .eax) (ρ.seg .ds)]).esp := fun ρ => ⟨rfl, rfl⟩
  have hptr : (τ.pushAll τ.saved).esp - 4#32 = τ.esp - 36#32 := by
    rw [esp_pushAll, show τ.saved.length = 8 from rfl, BitVec.sub_sub]
    rfl
  have hwords : τ.pushAll (commonWords τ) = (τ.pushAll τ.saved).pushAll
      [(τ.pushAll τ.saved).esp - 4#32,
        setLow ((τ.pushAll τ.saved).reg .eax) ((τ.pushAll τ.saved).seg .ds)] := by
    rw [← pushAll_append, hptr, reg_pushAll_of_ne _ _ (by decide), seg_pushAll]
    rfl
  rw [hwords]
  exact hrest (τ.pushAll τ.saved)

/-- All that lies on the stack when the handler is called: its argument, then the frame. -/
def enteredWords : List Word :=
  let esp := σ.esp - BitVec.ofNat 32 (4 * (stubWords σ n err).length)
  [esp - 36#32, setLow (σ.reg .eax) (σ.seg .ds), σ.reg .edi, σ.reg .esi, σ.reg .ebp, esp,
    σ.reg .ebx, σ.reg .edx, σ.reg .ecx, σ.reg .eax] ++ stubWords σ n err

theorem entered_eq_pushAll :
    (entered σ offset n err).mem = (σ.pushAll (enteredWords σ n err)).mem ∧
      (entered σ offset n err).esp = (σ.pushAll (enteredWords σ n err)).esp := by
  obtain ⟨hmem, hreg, hseg⟩ := execAll_pushes σ offset n err
  rw [entered, entry_stubOf, execAll_append]
  set τ := execAll (σ.interrupt kernelCs offset err) (stubOf n).pushes
  obtain ⟨hmem', hesp'⟩ := execAll_commonEntry τ
  obtain ⟨hmem'', hreg''⟩ := pushAll_congr hmem hreg (commonWords τ)
  have hesp : τ.reg .esp = σ.esp - BitVec.ofNat 32 (4 * (stubWords σ n err).length) := by
    rw [hreg]
    exact esp_pushAll σ (stubWords σ n err)
  have hregs : ∀ r ≠ Reg.esp, τ.reg r = σ.reg r := by
    intro r hr
    rw [hreg, reg_pushAll_of_ne _ _ hr]
  have hwords : commonWords τ ++ stubWords σ n err = enteredWords σ n err := by
    rw [commonWords, State.saved, State.esp, hesp, hseg, hregs .edi (by decide),
      hregs .esi (by decide), hregs .ebp (by decide), hregs .ebx (by decide),
      hregs .edx (by decide), hregs .ecx (by decide), hregs .eax (by decide)]
    rfl
  rw [hmem', hesp', ← hwords, pushAll_append]
  exact ⟨hmem'', congrFun hreg'' .esp⟩

theorem word_entered (i : ℕ) :
    (entered σ offset n err).word i = (σ.pushAll (enteredWords σ n err)).word i :=
  word_congr (entered_eq_pushAll σ offset n err).1 (entered_eq_pushAll σ offset n err).2 i

/-- What `σ` looks like to the handler of the vector `n`. The upper half of `ds` comes from
    `eax`, and without a change of privilege `esp` and `ss` are words of the interrupted
    code's own stack. -/
def snapshot : Registers where
  ds := setLow (σ.reg .eax) (σ.seg .ds)
  edi := σ.reg .edi
  esi := σ.reg .esi
  ebp := σ.reg .ebp
  uselessEsp := σ.esp - 20#32
  ebx := σ.reg .ebx
  edx := σ.reg .edx
  ecx := σ.reg .ecx
  eax := σ.reg .eax
  intNo := BitVec.ofNat 32 n
  errCode := err.getD 0
  eip := σ.eip
  cs := σ.cs.setWidth 32
  eflags := σ.eflags
  esp := σ.word 0
  ss := σ.word 1

/-- The error code was pushed exactly when the stub expects it. -/
def ErrorCodeMatches (n : ℕ) (err : Option Word) : Prop := err.isSome = true ↔ n ∈ isrErrcode

instance (n : ℕ) (err : Option Word) : Decidable (ErrorCodeMatches n err) :=
  inferInstanceAs (Decidable (_ ↔ _))

theorem stubWords_of_matches (h : ErrorCodeMatches n err) :
    stubWords σ n err = [BitVec.ofNat 32 n, err.getD 0, σ.eip, σ.cs.setWidth 32, σ.eflags] := by
  unfold stubWords
  cases err with
  | none => rw [if_neg (by simpa [ErrorCodeMatches] using h)]; rfl
  | some e => rw [if_pos (by simpa [ErrorCodeMatches] using h)]; rfl

theorem length_enteredWords (h : ErrorCodeMatches n err) : (enteredWords σ n err).length = 15 := by
  simp [enteredWords, stubWords_of_matches σ n err h]

/-- The frame follows the argument that points to it. -/
theorem wordAt_entered {τ : State} {p : Word} (hp : p = τ.esp + 4#32) (i : ℕ) :
    wordAt τ.mem p i = τ.word (i + 1) := by
  have haddr : τ.esp + 4#32 + BitVec.ofNat 32 (4 * i) = τ.esp + BitVec.ofNat 32 (4 * (i + 1)) := by
    rw [BitVec.add_assoc, ← BitVec.ofNat_add, Nat.mul_add, Nat.add_comm]
  rw [wordAt, State.word, hp, haddr]

theorem word_zero_entered :
    (entered σ offset n err).word 0 = (entered σ offset n err).esp + 4#32 := by
  have hlen : (stubWords σ n err).length ≤ 6 := by
    cases err with
    | none => by_cases hn : n ∈ isrErrcode <;> simp [stubWords, hn]
    | some e => by_cases hn : n ∈ isrErrcode <;> simp [stubWords, hn]
  rw [word_entered, (entered_eq_pushAll σ offset n err).2, esp_pushAll, enteredWords]
  rw [word_pushAll_of_getElem? _ _ (by simp; omega) rfl]
  simp only [List.length_append, List.length_cons, List.length_nil]
  apply BitVec.eq_of_toNat_eq
  simp only [BitVec.toNat_sub, BitVec.toNat_add, BitVec.toNat_ofNat]
  omega

/-- **The frame.** If the error code was pushed when the stub expects it, the handler is
    given the registers of the interrupted code and the number of the vector. -/
theorem registersAt_entered (h : ErrorCodeMatches n err) :
    registersAt (entered σ offset n err).mem ((entered σ offset n err).word 0) =
      snapshot σ n err := by
  have hword : ∀ i v, (enteredWords σ n err)[i]? = some v → (entered σ offset n err).word i = v := by
    intro i v hv
    rw [word_entered]
    exact word_pushAll_of_getElem? _ _ (by rw [length_enteredWords σ n err h]; decide) hv
  have hbelow : ∀ i ≤ 1, (entered σ offset n err).word (15 + i) = σ.word i := by
    intro i hi
    have hlen := length_enteredWords σ n err h
    rw [word_entered, ← hlen]
    exact word_pushAll _ _ (by rw [hlen]; omega)
  rw [enteredWords, stubWords_of_matches σ n err h] at hword
  simp only [registersAt, wordAt_entered (word_zero_entered σ offset n err)]
  simp only [snapshot, Registers.mk.injEq]
  refine ⟨hword 1 _ rfl, hword 2 _ rfl, hword 3 _ rfl, hword 4 _ rfl, hword 5 _ rfl, hword 6 _ rfl,
    hword 7 _ rfl, hword 8 _ rfl, hword 9 _ rfl, hword 10 _ rfl, hword 11 _ rfl, hword 12 _ rfl,
    hword 13 _ rfl, hword 14 _ rfl, hbelow 0 (by decide), hbelow 1 (by decide)⟩

end

/-! ## Back -/

/-- The general registers of a frame; the stack pointer is not loaded from it. -/
def Registers.reg (r : Registers) (esp : Word) : Reg → Word
  | .eax => r.eax
  | .ecx => r.ecx
  | .edx => r.edx
  | .ebx => r.ebx
  | .esp => esp
  | .ebp => r.ebp
  | .esi => r.esi
  | .edi => r.edi

/-- Where the interrupted code continues, from any state in which the handler returns: with
    what is in the frame then, and with all segment registers alike. -/
theorem resumed_eq (τ : State) :
    resumed τ =
      { reg := (registersAt τ.mem (τ.esp + 4#32)).reg (τ.esp + 60#32)
        seg := fun _ => (registersAt τ.mem (τ.esp + 4#32)).ds.setWidth 16
        cs := (registersAt τ.mem (τ.esp + 4#32)).cs.setWidth 16
        eip := (registersAt τ.mem (τ.esp + 4#32)).eip
        eflags := (registersAt τ.mem (τ.esp + 4#32)).eflags
        mem := τ.mem } := by
  simp only [resumed, commonExit, execAll_cons, execAll_nil, exec, State.iret, State.mk.injEq]
  refine ⟨?_, ?_, ?_, ?_, ?_, ?_⟩
  · funext r
    cases r with
    | esp =>
      show τ.esp + 4#32 + 4#32 + 32#32 + 8#32 + 12#32 = τ.esp + 60#32
      simp only [BitVec.add_assoc]
      rfl
    | _ => simp [State.restored, State.word, State.drop, State.setReg, State.esp, registersAt,
        wordAt, Registers.reg]
  · funext g
    cases g
    all_goals simp [State.word, State.drop, State.setReg, State.esp, registersAt, wordAt,
      Function.update]
  · simp [State.restored, State.word, State.drop, State.setReg, State.esp, registersAt, wordAt,
      BitVec.add_assoc]
  · simp [State.restored, State.word, State.drop, State.setReg, State.esp, registersAt, wordAt,
      BitVec.add_assoc]
  · simp [State.restored, State.word, State.drop, State.setReg, State.esp, registersAt, wordAt,
      BitVec.add_assoc]
  · rfl

/-! ## Whole interrupts -/

/-- A call of a handler: the common stub that makes it, and the state in which it is made. -/
structure HandlerCall where
  stub : CommonStub
  state : State

/-- The frame that the handler is given a pointer to. -/
def HandlerCall.frame (c : HandlerCall) : Registers := registersAt c.state.mem (c.state.word 0)

/-- What the handler called does with its frame. -/
def HandlerCall.dispatch {H : Type} (c : HandlerCall) (t : Handlers H) : Dispatch H :=
  match c.stub.handler with
  | .isrHandler => isrHandler t c.frame
  | .irqHandler => irqDispatch t c.frame

/-- Both handlers call what is registered for the number in the frame. -/
theorem HandlerCall.dispatch_of_registered {H : Type} {c : HandlerCall} {t : Handlers H} {h : H}
    (hh : t c.frame.intNo.toNat = some h) : c.dispatch t = .call h := by
  unfold HandlerCall.dispatch
  split
  · rw [isrHandler, hh]
  · rw [irqDispatch, hh]

/-- The state after the `iret` of the stub, from one in which the handler has returned. -/
def HandlerCall.resumed (c : HandlerCall) (τ : State) : State := (execAll τ c.stub.exit).iret

/-- An interrupt on the vector `n`, up to the call of the handler, with the stub at each
    address; `none` if the vector has no gate. -/
def deliver (idt : ℕ → IdtEntry) (code : Word → Stub) (σ : State) (n : ℕ)
    (err : Option Word) : Option HandlerCall :=
  (idt n).gate.map fun g =>
    { stub := (code g.offset).common
      state := execAll (σ.interrupt g.sel g.offset err)
        ((code g.offset).pushes ++ (code g.offset).common.entry) }

/-- The stubs are where the labels say. -/
def HasStubs (l : Labels) (code : Word → Stub) : Prop :=
  ∀ n o, l.stub n = some o → code o = stubOf n

section

variable {l : Labels} {code : Word → Stub} {σ τ : State} {c : HandlerCall} {n : ℕ}
  {err : Option Word}

theorem deliver_of_stub (hcode : HasStubs l code) (hn : n < 256) {o : Word}
    (ho : l.stub n = some o) :
    deliver (idtInit l) code σ n err = some ⟨(stubOf n).common, entered σ o n err⟩ := by
  rw [deliver, gate_idtInit l hn, ho, Option.map_some, Option.map_some, hcode n o ho]
  rfl

/-- Every interrupt that is delivered goes through the stub of its vector. -/
theorem deliver_idtInit (hcode : HasStubs l code) (hn : n < 256)
    (hc : deliver (idtInit l) code σ n err = some c) :
    ∃ o, c = ⟨(stubOf n).common, entered σ o n err⟩ := by
  rcases ho : l.stub n with _ | o
  · rw [deliver, gate_idtInit l hn, ho] at hc
    exact absurd hc (by simp)
  · rw [deliver_of_stub hcode hn ho] at hc
    exact ⟨o, (Option.some_inj.mp hc).symm⟩

theorem resumed_stubOf (τ ρ : State) :
    HandlerCall.resumed ⟨(stubOf n).common, ρ⟩ τ = resumed τ := by
  rw [HandlerCall.resumed, exit_stubOf, resumed]

theorem length_stubWords (σ : State) (n : ℕ) (err : Option Word) :
    (stubWords σ n err).length = 5 ↔ ErrorCodeMatches n err := by
  unfold ErrorCodeMatches
  cases err with
  | none => by_cases hn : n ∈ isrErrcode <;> simp [stubWords, hn]
  | some e => by_cases hn : n ∈ isrErrcode <;> simp [stubWords, hn]

/-- The stack pointer comes back iff the frame has the right size. -/
theorem esp_resumed_iff (o : Word) (hesp : τ.esp = (entered σ o n err).esp) :
    (resumed τ).esp = σ.esp ↔ ErrorCodeMatches n err := by
  have hlen : (stubWords σ n err).length ≤ 6 := by
    cases err with
    | none => by_cases hn : n ∈ isrErrcode <;> simp [stubWords, hn]
    | some e => by_cases hn : n ∈ isrErrcode <;> simp [stubWords, hn]
  have hlt := σ.esp.isLt
  rw [resumed_eq, ← length_stubWords σ]
  show τ.esp + 60#32 = σ.esp ↔ _
  rw [hesp, (entered_eq_pushAll σ o n err).2, esp_pushAll, enteredWords]
  simp only [List.length_append, List.length_cons, List.length_nil, ← BitVec.toNat_inj,
    BitVec.toNat_sub, BitVec.toNat_add, BitVec.toNat_ofNat]
  omega

theorem resumed_of_matches (o : Word) (hmatch : ErrorCodeMatches n err)
    (hesp : τ.esp = (entered σ o n err).esp) :
    resumed τ =
      { reg := (registersAt τ.mem ((entered σ o n err).word 0)).reg σ.esp
        seg := fun _ => (registersAt τ.mem ((entered σ o n err).word 0)).ds.setWidth 16
        cs := (registersAt τ.mem ((entered σ o n err).word 0)).cs.setWidth 16
        eip := (registersAt τ.mem ((entered σ o n err).word 0)).eip
        eflags := (registersAt τ.mem ((entered σ o n err).word 0)).eflags
        mem := τ.mem } := by
  have hσ : τ.esp + 60#32 = σ.esp := by
    have := (esp_resumed_iff o hesp).mpr hmatch
    rwa [resumed_eq] at this
  rw [resumed_eq, word_zero_entered, ← hesp, hσ]

/-- A frame in which only `eax` was changed. -/
theorem resumed_of_eax (o : Word) (hmatch : ErrorCodeMatches n err)
    (hesp : τ.esp = (entered σ o n err).esp) {v : Word}
    (hframe : registersAt τ.mem ((entered σ o n err).word 0) = { snapshot σ n err with eax := v }) :
    resumed τ =
      { σ with reg := Function.update σ.reg .eax v, seg := fun _ => σ.seg .ds, mem := τ.mem } := by
  have hreg : Registers.reg { snapshot σ n err with eax := v } σ.esp =
      Function.update σ.reg .eax v := by
    funext r
    cases r <;> rfl
  have hcs : (σ.cs.setWidth 32).setWidth 16 = σ.cs := by
    rw [BitVec.setWidth_setWidth_of_le _ (by decide), BitVec.setWidth_eq]
  rw [resumed_of_matches o hmatch hesp, hframe, hreg]
  simp only [snapshot, setWidth_setLow, hcs]

/-- A frame that was not changed. -/
theorem resumed_of_frame_eq (o : Word) (hmatch : ErrorCodeMatches n err)
    (hesp : τ.esp = (entered σ o n err).esp)
    (hframe : registersAt τ.mem ((entered σ o n err).word 0) =
      registersAt (entered σ o n err).mem ((entered σ o n err).word 0)) :
    resumed τ = { σ with seg := fun _ => σ.seg .ds, mem := τ.mem } := by
  have hsame := hframe.trans (registersAt_entered σ o n err hmatch)
  rw [resumed_of_eax o hmatch hesp hsame]
  simp only [Function.update_eq_self]

/-- Nothing but 15 words below the interrupted code's stack pointer is written. -/
theorem mem_entered (o : Word) (hmatch : ErrorCodeMatches n err) (hroom : 60 ≤ σ.esp.toNat) {x : ℕ}
    (hx : x + 60 < σ.esp.toNat ∨ σ.esp.toNat ≤ x) : (entered σ o n err).mem x = σ.mem x := by
  have hlen := length_enteredWords σ n err hmatch
  rw [(entered_eq_pushAll σ o n err).1]
  exact mem_pushAll _ _ (by omega) (by omega)

end

/-- **A handler works on the interrupted registers.** If the error code was pushed when the
    stub expects it, the handler gets the registers of the interrupted code and the vector
    number in its frame, and up to its call nothing but 15 words below the interrupted stack
    has been written (the call itself pushes its return address as a 16th). Whatever the
    handler does, if it returns with its stack pointer, the interrupted code continues on its
    own stack with the registers that the frame holds then, and with the low half of the
    frame's `ds` in all four data segment registers. -/
theorem handler_gets_and_sets_registers {l : Labels} {code : Word → Stub}
    (hcode : HasStubs l code) {n : ℕ} (hn : n < 256) {σ : State} {c : HandlerCall}
    {err : Option Word} (hc : deliver (idtInit l) code σ n err = some c)
    (hmatch : ErrorCodeMatches n err) :
    c.frame = snapshot σ n err ∧
      (60 ≤ σ.esp.toNat →
        ∀ x, x + 60 < σ.esp.toNat ∨ σ.esp.toNat ≤ x → c.state.mem x = σ.mem x) ∧
      ∀ τ : State, τ.esp = c.state.esp → c.resumed τ =
        { reg := (registersAt τ.mem (c.state.word 0)).reg σ.esp
          seg := fun _ => (registersAt τ.mem (c.state.word 0)).ds.setWidth 16
          cs := (registersAt τ.mem (c.state.word 0)).cs.setWidth 16
          eip := (registersAt τ.mem (c.state.word 0)).eip
          eflags := (registersAt τ.mem (c.state.word 0)).eflags
          mem := τ.mem } := by
  obtain ⟨o, rfl⟩ := deliver_idtInit hcode hn hc
  refine ⟨registersAt_entered σ o n err hmatch, fun hroom x hx => mem_entered o hmatch hroom hx, ?_⟩
  intro τ hesp
  rw [resumed_stubOf]
  exact resumed_of_matches o hmatch hesp

/-- A kernel with its stubs at `0x101000`, 16 bytes apart. -/
def kernelLabels : Labels where
  isr n := BitVec.ofNat 32 (0x101000 + 16 * n)
  irq k := BitVec.ofNat 32 (0x101000 + 16 * (32 + k))

def kernelCode (o : Word) : Stub := stubOf ((o.toNat - 0x101000) / 16)

theorem hasStubs_kernelCode : HasStubs kernelLabels kernelCode := by
  have hcode : ∀ n < 256, kernelCode (BitVec.ofNat 32 (0x101000 + 16 * n)) = stubOf n := by
    intro n hn
    rw [kernelCode, BitVec.toNat_ofNat,
      show ((0x101000 + 16 * n) % 2 ^ 32 - 0x101000) / 16 = n by omega]
  intro n o ho
  unfold Labels.stub at ho
  split_ifs at ho with h1 h2 h3
  · obtain rfl := Option.some_inj.mp ho
    exact hcode n (by omega)
  · obtain rfl := Option.some_inj.mp ho
    show kernelCode (BitVec.ofNat 32 (0x101000 + 16 * (32 + (n - 32)))) = _
    rw [show 32 + (n - 32) = n by omega]
    exact hcode n (by omega)
  · obtain rfl := Option.some_inj.mp ho
    rw [h3]
    exact hcode 128 (by omega)

/-- Code that is interrupted. -/
def interruptedState : State where
  reg _ := 0x8000
  seg _ := 0x10
  cs := kernelCs
  eip := 0x102000
  eflags := 0x202
  mem _ := 0

/-- A page fault. -/
theorem handler_gets_and_sets_registers_page_fault :
    ∃ c, deliver (idtInit kernelLabels) kernelCode interruptedState 14 (some 2) = some c ∧
      c.frame = snapshot interruptedState 14 (some 2) :=
  ⟨_, (Option.some_get (by decide +kernel)).symm, (handler_gets_and_sets_registers
    hasStubs_kernelCode (by decide) (Option.some_get (by decide +kernel)).symm
    (by decide : ErrorCodeMatches 14 (some 2))).1⟩

/-- **When an interrupt is not noticed.** A handler that returns with its stack pointer and
    leaves the frame as it was given it is transparent to the interrupted code, but for the
    memory, iff the processor pushed an error code exactly when the stub expects one and the
    four data segment registers were equal. -/
theorem interrupt_transparent_iff {l : Labels} {code : Word → Stub}
    (hcode : HasStubs l code) {n : ℕ} (hn : n < 256) {σ τ : State} {c : HandlerCall}
    {err : Option Word} (hc : deliver (idtInit l) code σ n err = some c)
    (hesp : τ.esp = c.state.esp) (hframe : registersAt τ.mem (c.state.word 0) = c.frame) :
    c.resumed τ = { σ with mem := τ.mem } ↔
      ErrorCodeMatches n err ∧ ∀ g, σ.seg g = σ.seg .ds := by
  obtain ⟨o, rfl⟩ := deliver_idtInit hcode hn hc
  rw [resumed_stubOf]
  constructor
  · intro heq
    have hmatch : ErrorCodeMatches n err := (esp_resumed_iff o hesp).mp (by rw [heq]; rfl)
    refine ⟨hmatch, fun g => ?_⟩
    rw [resumed_of_frame_eq o hmatch hesp hframe] at heq
    exact (congrFun (congrArg State.seg heq) g).symm
  · rintro ⟨hmatch, hseg⟩
    rw [resumed_of_frame_eq o hmatch hesp hframe, ← funext hseg]

/-- The timer interrupt. -/
def timerCall : HandlerCall :=
  (deliver (idtInit kernelLabels) kernelCode interruptedState 32 none).get (by decide +kernel)

/-- A handler for it that does nothing. -/
theorem interrupt_transparent_iff_timer :
    timerCall.resumed timerCall.state = { interruptedState with mem := timerCall.state.mem } ↔
      ErrorCodeMatches 32 none ∧ ∀ g, interruptedState.seg g = interruptedState.seg .ds := by
  have hcall : deliver (idtInit kernelLabels) kernelCode interruptedState 32 none =
      some timerCall := (Option.some_get _).symm
  have hesp : timerCall.state.esp = timerCall.state.esp := rfl
  have hframe : registersAt timerCall.state.mem (timerCall.state.word 0) = timerCall.frame := rfl
  exact interrupt_transparent_iff hasStubs_kernelCode (by decide) hcall hesp hframe

/-! ## Exceptions -/

theorem handler_stubOf_of_lt {n : ℕ} (hn : n < 32) : (stubOf n).common.handler = .isrHandler := by
  unfold stubOf
  split_ifs
  · rfl
  · omega
  · rfl

/-- An exception for which no handler is registered ends in a panic, with the message of its
    vector and the registers of the interrupted code. -/
theorem unhandled_exception_panics {l : Labels} {code : Word → Stub} (hcode : HasStubs l code)
    {n : ℕ} (hn : n < 32) {σ : State} {c : HandlerCall} {err : Option Word}
    (hc : deliver (idtInit l) code σ n err = some c) (hmatch : ErrorCodeMatches n err)
    {H : Type} {t : Handlers H} (ht : t n = none) :
    ∃ message ∈ exceptionMessages[n]?, c.dispatch t = .panic (some message)
      [("KERNEL PANIC: %s (int %d, err %x)\n", [BitVec.ofNat 32 n, err.getD 0]),
        ("  EIP=%x CS=%x EFLAGS=%x\n", [σ.eip, σ.cs.setWidth 32, σ.eflags]),
        ("  EAX=%x EBX=%x ECX=%x EDX=%x\n",
          [σ.reg .eax, σ.reg .ebx, σ.reg .ecx, σ.reg .edx]),
        ("  ESP=%x EBP=%x ESI=%x EDI=%x\n",
          [σ.word 0, σ.reg .ebp, σ.reg .esi, σ.reg .edi])] := by
  obtain ⟨o, rfl⟩ := deliver_idtInit hcode (by omega) hc
  have hframe : HandlerCall.frame ⟨(stubOf n).common, entered σ o n err⟩ = snapshot σ n err :=
    registersAt_entered σ o n err hmatch
  have hint : (snapshot σ n err).intNo.toNat = n := by
    show (BitVec.ofNat 32 n).toNat = n
    rw [BitVec.toNat_ofNat]
    omega
  obtain ⟨message, hmessage⟩ := Option.isSome_iff_exists.mp (exceptionMessages_getElem? hn)
  refine ⟨message, hmessage, ?_⟩
  simp only [HandlerCall.dispatch, handler_stubOf_of_lt hn, hframe, isrHandler, hint, ht, hn,
    if_true, hmessage]
  rfl

/-! ## From the controllers to the handlers -/

/-- The stub of a device's vector never expects an error code. -/
theorem errorCodeMatches_irq {k : ℕ} (hk : k < 16) : ErrorCodeMatches (32 + k) none := by
  have : 32 + k ∉ isrErrcode := by
    simp only [isrErrcode, List.mem_cons, List.not_mem_nil, or_false]
    omega
  simpa [ErrorCodeMatches] using this

theorem common_stubOf_irq {k : ℕ} (hk : k < 16) :
    (stubOf (32 + k)).common = irqCommonStub := by
  have hnot : 32 + k ∉ isrErrcode := by
    simpa [ErrorCodeMatches] using errorCodeMatches_irq hk
  rw [stubOf, if_neg hnot, if_pos (by omega)]
  rfl

/-- **From a request to its handler.** When nothing is in service and line `k` is the first
    that waits, the processor gets the vector `32 + k`; its gate and its stub lead to
    `irq_handler` with the registers of the interrupted code and that number in the frame;
    `irq_handler` frees the line and leaves the others waiting, and then calls the handler
    registered for the number. -/
theorem irq_reaches_handler {l : Labels} {code : Word → Stub} (hcode : HasStubs l code)
    {p : Pics} (hp : p.Idle) {k : ℕ} {rest : List ℕ} (hw : p.waiting = k :: rest) {H : Type}
    {t : Handlers H} {h : H} (hh : t (32 + k) = some h) (σ : State) :
    ∃ q c, p.acknowledge = some (32 + k, q) ∧
      deliver (idtInit l) code σ (32 + k) none = some c ∧ c.stub.handler = .irqHandler ∧
      c.frame = snapshot σ (32 + k) none ∧ (irqHandlerEoi q c.frame.intNo.toNat).Idle ∧
      (irqHandlerEoi q c.frame.intNo.toNat).waiting = rest ∧ c.dispatch t = .call h := by
  have hk : k < 16 := by
    have hmem : k ∈ p.waiting := hw ▸ List.mem_cons_self
    have hlines : ∀ j ∈ lines, j < 16 := by decide
    exact hlines k (List.mem_of_mem_filter hmem)
  obtain ⟨q, hq, hidle, hrest⟩ := acknowledge_of_waiting hp hw
  have hstub : l.stub (32 + k) = some (l.irq k) := by
    rw [Labels.stub, if_neg (by omega), if_pos (by omega), Nat.add_sub_cancel_left]
  have hc : deliver (idtInit l) code σ (32 + k) none = _ := deliver_of_stub hcode (by omega) hstub
  rw [common_stubOf_irq hk] at hc
  have hframe : HandlerCall.frame ⟨irqCommonStub, entered σ (l.irq k) (32 + k) none⟩ =
      snapshot σ (32 + k) none := registersAt_entered σ _ _ _ (errorCodeMatches_irq hk)
  have hint : (snapshot σ (32 + k) none).intNo.toNat = 32 + k := by
    show (BitVec.ofNat 32 (32 + k)).toNat = 32 + k
    rw [BitVec.toNat_ofNat]
    omega
  refine ⟨q, _, hq, hc, rfl, hframe, ?_, ?_, HandlerCall.dispatch_of_registered ?_⟩
  · rw [hframe, hint]
    exact hidle
  · rw [hframe, hint]
    exact hrest
  · rw [hframe, hint]
    exact hh

/-- A key is pressed. -/
theorem irq_reaches_handler_key :
    ∃ q c, ((picRemap biosPics).raise 1).acknowledge = some (32 + 1, q) ∧
      deliver (idtInit kernelLabels) kernelCode interruptedState (32 + 1) none = some c ∧
      c.stub.handler = .irqHandler ∧ c.frame = snapshot interruptedState (32 + 1) none ∧
      (irqHandlerEoi q c.frame.intNo.toNat).Idle ∧
      (irqHandlerEoi q c.frame.intNo.toNat).waiting = [] ∧
      c.dispatch (isrRegisterHandler (fun _ => none) 33 "keyboard_callback") =
        .call "keyboard_callback" :=
  irq_reaches_handler hasStubs_kernelCode (idle_raise (idle_picRemap biosPics).1 1)
    (by decide +kernel) (by decide) interruptedState

end NexusKernel.Cpu
