import NexusKernel.Common.Mem
import NexusKernel.Common.Ring
import NexusKernel.Common.Run

/-!
# The keyboard buffer (`kernel/drivers/keyboard.c`)

The interrupt handler puts characters into a ring of 256 bytes; `keyboard_driver_read`
and `keyboard_getchar` take them out. A run interleaves interrupts, single iterations of
the read loop of any number of calls, and `keyboard_getchar` calls that do not wait.

The port access, the registration of the handler and of the driver, and the console
output are left out: none of them reads or writes the buffer.

Results:
* `ring_keyboardCallback`, `ring_advance`: the code pushes and pops the ring.
* `keyboardDriverRead_spec`: what a whole `keyboard_driver_read` returns.
* `inStep_step`: every step keeps the ring in line with what was accepted and delivered.
* `keyboard_buffer_is_fifo`: so does every interleaving.
-/

namespace NexusKernel.Drivers

/-! ## State and functions -/

/-- `KB_BUFFER_SIZE` (`keyboard.h`, line 8). -/
def kbBufferSize : ℕ := 256

/-- The static variables (lines 8–11). -/
structure Keyboard where
  kbBuffer : ℕ → Byte
  kbReadIdx : ℕ
  kbWriteIdx : ℕ
  kbCount : ℕ

def asciiCodes (l : List Char) : List Byte := l.map fun c => BitVec.ofNat 8 c.toNat

/-- `scancode_to_ascii` (lines 13–23); 39, 96 and 92 are the quote, the backquote and the
    backslash. -/
def scancodeToAscii : List Byte :=
  [0, 27] ++ asciiCodes ['1', '2', '3', '4', '5', '6', '7', '8', '9', '0', '-', '='] ++ [8] ++
  [9] ++ asciiCodes ['q', 'w', 'e', 'r', 't', 'y', 'u', 'i', 'o', 'p', '[', ']'] ++ [10] ++
  [0] ++ asciiCodes ['a', 's', 'd', 'f', 'g', 'h', 'j', 'k', 'l', ';'] ++ [39, 96] ++
  [0, 92] ++ asciiCodes ['z', 'x', 'c', 'v', 'b', 'n', 'm', ',', '.', '/'] ++ [0] ++
  asciiCodes ['*'] ++ [0] ++ asciiCodes [' '] ++ List.replicate 70 0

/-- `scancode_to_ascii[scancode]`. -/
def asciiOf (scancode : Byte) : Byte := scancodeToAscii.getD scancode.toNat 0

/-- `keyboard_callback` on the scancode that the port delivers (lines 25–41). -/
def keyboardCallback (k : Keyboard) (scancode : Byte) : Keyboard :=
  if scancode &&& 0x80 ≠ 0 then k
  else
    let c := asciiOf scancode
    if c ≠ 0 ∧ k.kbCount < kbBufferSize then
      { k with
        kbBuffer := Function.update k.kbBuffer k.kbWriteIdx c
        kbWriteIdx := u32 (k.kbWriteIdx + 1) % kbBufferSize
        kbCount := u32 (k.kbCount + 1) }
    else k

/-- The stores after a character has been taken (lines 62–63 and 108–109). -/
def advance (k : Keyboard) : Keyboard :=
  { k with
    kbReadIdx := u32 (k.kbReadIdx + 1) % kbBufferSize
    kbCount := sub32 k.kbCount 1 }

/-- The local variables of a `keyboard_driver_read` call. -/
structure ReadCall where
  buf : ℕ → Byte
  size : ℕ
  read : ℕ

/-- One iteration of the loop of `keyboard_driver_read` (lines 60–64), `none` when the
    loop is left. -/
def readIteration (k : Keyboard) (c : ReadCall) : Option (Keyboard × ReadCall) :=
  if c.read < c.size ∧ 0 < k.kbCount then
    some (advance k, { c with
      buf := Function.update c.buf c.read (k.kbBuffer k.kbReadIdx)
      read := c.read + 1 })
  else none

/-- The loop of `keyboard_driver_read`, without interrupts. -/
def readLoop : ℕ → Keyboard → ReadCall → Keyboard × ReadCall
  | 0, k, c => (k, c)
  | fuel + 1, k, c =>
    match readIteration k c with
    | some (k', c') => readLoop fuel k' c'
    | none => (k, c)

/-- `keyboard_driver_read` (lines 54–67) without interrupts: the number returned and what
    is stored. Each iteration adds one to `read`, so `size` of them are enough. -/
def keyboardDriverRead (k : Keyboard) (buffer : ℕ → Byte) (size : ℕ) :
    ℕ × Keyboard × (ℕ → Byte) :=
  let r := readLoop size k ⟨buffer, size, 0⟩
  (r.2.read, r.1, r.2.buf)

/-- `keyboard_init` (lines 88–92). -/
def keyboardInit (k : Keyboard) : Keyboard :=
  { k with kbReadIdx := 0, kbWriteIdx := 0, kbCount := 0 }

/-- `keyboard_getchar` (lines 102–111); `none` while it waits. -/
def keyboardGetchar (k : Keyboard) : Option (Byte × Keyboard) :=
  if k.kbCount = 0 then none else some (k.kbBuffer k.kbReadIdx, advance k)

/-- `keyboard_has_input` (lines 113–116). -/
def keyboardHasInput (k : Keyboard) : Bool := decide (0 < k.kbCount)

/-! ## The code on the ring -/

/-- The variables as a ring. -/
def Keyboard.ring (k : Keyboard) : Ring Byte := ⟨k.kbBuffer, k.kbReadIdx, k.kbWriteIdx, k.kbCount⟩

/-- The characters that wait in the buffer. -/
def Keyboard.pending (k : Keyboard) : List Byte := k.ring.contents kbBufferSize

/-- The character of a key press that has one. -/
def keyPress (scancode : Byte) : Option Byte :=
  if scancode.toNat < 128 ∧ asciiOf scancode ≠ 0 then some (asciiOf scancode) else none

theorem and_release_bit (scancode : Byte) : scancode &&& 0x80 ≠ 0 ↔ 128 ≤ scancode.toNat := by
  have hall : ∀ x : Fin 256, BitVec.ofFin x &&& 0x80#8 ≠ 0 ↔ 128 ≤ x.val := by decide +kernel
  exact hall scancode.toFin

section

variable {k : Keyboard}

/-- The handler pushes the character of a key press if there is room for it. -/
theorem ring_keyboardCallback (hk : k.ring.Valid kbBufferSize) (scancode : Byte) :
    (keyboardCallback k scancode).ring =
      match keyPress scancode with
      | some c => if k.kbCount < kbBufferSize then k.ring.push kbBufferSize c else k.ring
      | none => k.ring := by
  have hwr : k.kbWriteIdx < kbBufferSize := hk.wr_lt
  unfold keyboardCallback keyPress
  simp only [and_release_bit]
  by_cases hpress : scancode.toNat < 128
  · by_cases hc : asciiOf scancode = 0
    · simp [hc]
    · by_cases hroom : k.kbCount < kbBufferSize
      · have hwr' : u32 (k.kbWriteIdx + 1) = k.kbWriteIdx + 1 :=
          u32_of_lt (by unfold kbBufferSize at hwr; omega)
        have hcount : u32 (k.kbCount + 1) = k.kbCount + 1 :=
          u32_of_lt (by unfold kbBufferSize at hroom; omega)
        rw [if_neg (by omega), if_pos ⟨hc, hroom⟩, if_pos ⟨hpress, hc⟩, hwr', hcount]
        exact (if_pos hroom).symm
      · rw [if_neg (by omega), if_neg fun h => hroom h.2, if_pos ⟨hpress, hc⟩]
        exact (if_neg hroom).symm
  · simp [hpress, Nat.le_of_not_lt hpress]

theorem ring_advance (hk : k.ring.Valid kbBufferSize) (hne : 0 < k.kbCount) :
    (advance k).ring = k.ring.pop kbBufferSize := by
  have hrd : k.kbReadIdx < kbBufferSize := hk.rd_lt
  have hcount : k.kbCount ≤ kbBufferSize := hk.count_le
  unfold kbBufferSize at hrd hcount
  have hrd' : u32 (k.kbReadIdx + 1) = k.kbReadIdx + 1 := u32_of_lt (by omega)
  have hsub : sub32 k.kbCount 1 = k.kbCount - 1 := sub32_of_le (by omega) hne
  simp only [Keyboard.ring, advance, hrd', hsub]
  rfl

theorem keyboardHasInput_iff : keyboardHasInput k = true ↔ k.pending ≠ [] := by
  rw [keyboardHasInput, decide_eq_true_iff, ← List.length_pos_iff, Keyboard.pending,
    Ring.length_contents]
  rfl

/-! ## A whole read -/

theorem pending_advance (hk : k.ring.Valid kbBufferSize) (hne : 0 < k.kbCount) :
    k.pending = k.kbBuffer k.kbReadIdx :: (advance k).pending := by
  rw [Keyboard.pending, Keyboard.pending, ring_advance hk hne]
  exact Ring.contents_pop hk hne

/-- The loop moves characters from the front of the buffer behind those it has read,
    until it has `size` of them or the buffer is empty. -/
theorem readLoop_spec (hk : k.ring.Valid kbBufferSize) {c : ReadCall} {fuel : ℕ}
    (hfuel : c.size - c.read ≤ fuel) :
    (readLoop fuel k c).1.ring.Valid kbBufferSize ∧
      (readLoop fuel k c).1.pending = k.pending.drop (c.size - c.read) ∧
      (readLoop fuel k c).2.read = c.read + (k.pending.take (c.size - c.read)).length ∧
      ∀ i, (readLoop fuel k c).2.buf i =
        if c.read ≤ i then (k.pending.take (c.size - c.read))[i - c.read]?.getD (c.buf i)
        else c.buf i := by
  induction fuel generalizing k c with
  | zero =>
    rw [Nat.le_zero.mp hfuel]
    simp [readLoop, hk]
  | succ fuel ih =>
    by_cases hloop : c.read < c.size ∧ 0 < k.kbCount
    · have hsize : c.size - c.read = c.size - (c.read + 1) + 1 := by omega
      rw [readLoop, readIteration, if_pos hloop, pending_advance hk hloop.2, hsize,
        List.take_succ_cons, List.drop_succ_cons, List.length_cons]
      obtain ⟨hvalid, hpending, hread, hbuf⟩ := ih (c := { c with
          buf := Function.update c.buf c.read (k.kbBuffer k.kbReadIdx), read := c.read + 1 })
        (by rw [ring_advance hk hloop.2]; exact hk.pop hloop.2) (by simp only; omega)
      simp only at hread hbuf
      refine ⟨hvalid, hpending, by rw [hread]; omega, ?_⟩
      intro i
      rw [hbuf]
      obtain hi | rfl | hi := Nat.lt_trichotomy i c.read
      · rw [if_neg (by omega), if_neg (by omega), Function.update_of_ne (by omega)]
      · simp
      · rw [if_pos (by omega), if_pos (by omega), Function.update_of_ne (by omega),
          show i - c.read = i - (c.read + 1) + 1 by omega, List.getElem?_cons_succ]
    · have hempty : k.pending.take (c.size - c.read) = [] := by
        rw [List.take_eq_nil_iff, ← List.length_eq_zero_iff, Keyboard.pending,
          Ring.length_contents]
        show _ ∨ k.kbCount = 0
        omega
      have hdrop := List.take_append_drop (c.size - c.read) k.pending
      rw [hempty, List.nil_append] at hdrop
      rw [readLoop, readIteration, if_neg hloop, hempty, hdrop]
      simp [hk]

/-- `keyboard_driver_read` without interrupts returns the number of characters it gets,
    at most `size`; they are the oldest of the buffer, in order. -/
theorem keyboardDriverRead_spec (hk : k.ring.Valid kbBufferSize) (buffer : ℕ → Byte) (size : ℕ) :
    (keyboardDriverRead k buffer size).1 = min size k.kbCount ∧
      (keyboardDriverRead k buffer size).2.1.pending = k.pending.drop size ∧
      (List.range (keyboardDriverRead k buffer size).1).map (keyboardDriverRead k buffer size).2.2 =
        k.pending.take size := by
  have hlen : k.pending.length = k.kbCount := Ring.length_contents
  obtain ⟨-, hpending, hread, hbuf⟩ := readLoop_spec hk (c := ⟨buffer, size, 0⟩) (show size - 0 ≤ size from le_rfl)
  simp only [Nat.sub_zero, Nat.zero_add, Nat.zero_le, if_true] at hpending hread hbuf
  refine ⟨by rw [← hlen, ← List.length_take]; exact hread, hpending, ?_⟩
  show (List.range (readLoop size k ⟨buffer, size, 0⟩).2.read).map
    (readLoop size k ⟨buffer, size, 0⟩).2.buf = _
  rw [hread]
  apply List.ext_getElem
  · simp
  · intro i h1 h2
    rw [List.getElem_map, List.getElem_range, hbuf, List.getElem?_eq_getElem h2, Option.getD_some]

end

/-! ## Interleavings -/

/-- The buffer, and what has been accepted and delivered so far. -/
structure KeyboardRun where
  kb : Keyboard
  accepted : List Byte
  delivered : List Byte

inductive KeyboardEvent where
  | interrupt (scancode : Byte)
  | readIteration (call : ReadCall)
  | getchar

/-- A key press is accepted if it has a character and fewer than `KB_BUFFER_SIZE` of
    those accepted before are still to be delivered. -/
def KeyboardRun.accepts (s : KeyboardRun) (scancode : Byte) : Option Byte :=
  if s.accepted.length - s.delivered.length < kbBufferSize then keyPress scancode else none

/-- One atomic step: an interrupt, an iteration of the loop of some
    `keyboard_driver_read` call, or a `keyboard_getchar` that does not wait. What an
    iteration delivers is the byte it stores in the caller's buffer. -/
def keyboardStep (s : KeyboardRun) : KeyboardEvent → Option KeyboardRun
  | .interrupt scancode =>
    some { s with
      kb := keyboardCallback s.kb scancode
      accepted := s.accepted ++ (s.accepts scancode).toList }
  | .readIteration call =>
    (readIteration s.kb call).map fun r =>
      { s with kb := r.1, delivered := s.delivered ++ [r.2.buf call.read] }
  | .getchar =>
    (keyboardGetchar s.kb).map fun r => { s with kb := r.2, delivered := s.delivered ++ [r.1] }

/-- The state after `keyboard_init`. -/
def keyboardBoot (k : Keyboard) : KeyboardRun := ⟨keyboardInit k, [], []⟩

/-- The ring holds what has been accepted and not delivered. -/
def KeyboardRun.InStep (s : KeyboardRun) : Prop :=
  s.kb.ring.Fifo kbBufferSize s.accepted s.delivered

theorem inStep_boot (k : Keyboard) : (keyboardBoot k).InStep where
  valid := ⟨Nat.zero_lt_succ 255, Nat.zero_le 256, rfl⟩
  accepted_eq := rfl

theorem KeyboardRun.InStep.interrupt {s : KeyboardRun} (hs : s.InStep) (scancode : Byte) :
    (keyboardCallback s.kb scancode).ring.Fifo kbBufferSize
      (s.accepted ++ (s.accepts scancode).toList) s.delivered := by
  have hcount : s.kb.kbCount = _ := hs.count_eq
  rw [ring_keyboardCallback hs.valid, KeyboardRun.accepts, ← hcount]
  cases keyPress scancode with
  | none => simpa [KeyboardRun.InStep] using hs
  | some c =>
    by_cases hroom : s.kb.kbCount < kbBufferSize
    · simpa [hroom] using hs.push hroom c
    · simpa [hroom, KeyboardRun.InStep] using hs

theorem KeyboardRun.InStep.advance {s : KeyboardRun} (hs : s.InStep) (hne : 0 < s.kb.kbCount) :
    (advance s.kb).ring.Fifo kbBufferSize s.accepted
      (s.delivered ++ [s.kb.kbBuffer s.kb.kbReadIdx]) := by
  rw [ring_advance hs.valid hne]
  exact hs.pop hne

theorem inStep_step {s t : KeyboardRun} {e : KeyboardEvent} (hs : s.InStep)
    (hstep : keyboardStep s e = some t) : t.InStep := by
  cases e with
  | interrupt scancode =>
    obtain rfl := Option.some_inj.mp hstep
    exact hs.interrupt scancode
  | readIteration call =>
    obtain ⟨r, hr, rfl⟩ := Option.map_eq_some_iff.mp hstep
    rw [Drivers.readIteration] at hr
    split_ifs at hr with hloop
    obtain rfl := Option.some_inj.mp hr
    have hadvance := hs.advance hloop.2
    simpa [KeyboardRun.InStep] using hadvance
  | getchar =>
    obtain ⟨r, hr, rfl⟩ := Option.map_eq_some_iff.mp hstep
    rw [keyboardGetchar] at hr
    split_ifs at hr with hempty
    obtain rfl := Option.some_inj.mp hr
    exact hs.advance (Nat.pos_of_ne_zero hempty)

/-- From `keyboard_init` on, for every interleaving of interrupts, iterations of the read
    loop and `keyboard_getchar` calls: what has been delivered is a first part of what
    has been accepted, the rest is in the buffer in the order of arrival, and
    `kb_count` and the indices agree with that. -/
theorem keyboard_buffer_is_fifo (k : Keyboard) (es : List KeyboardEvent) (s : KeyboardRun)
    (hrun : run keyboardStep (keyboardBoot k) es = some s) :
    s.delivered <+: s.accepted ∧ s.accepted = s.delivered ++ s.kb.pending ∧
      s.kb.kbCount = s.accepted.length - s.delivered.length ∧ s.kb.kbCount ≤ kbBufferSize ∧
      s.kb.kbReadIdx < kbBufferSize ∧ s.kb.kbWriteIdx < kbBufferSize ∧
      s.kb.kbWriteIdx = (s.kb.kbReadIdx + s.kb.kbCount) % kbBufferSize := by
  have hs := run_invariant KeyboardRun.InStep (fun _ _ _ => inStep_step) (inStep_boot k) hrun
  exact ⟨hs.isPrefix, hs.accepted_eq, hs.count_eq, hs.valid.count_le, hs.valid.rd_lt, hs.valid.wr_lt,
    hs.valid.wr_eq⟩

/-- Two key presses with a release between them, and one character read. -/
theorem keyboard_buffer_is_fifo_ab :
    ∃ s, run keyboardStep (keyboardBoot ⟨fun _ => 0, 0, 0, 0⟩)
        [.interrupt 0x1E, .interrupt 0x9E, .readIteration ⟨fun _ => 0, 4, 0⟩, .interrupt 0x30] =
          some s ∧
      s.accepted = [97, 98] ∧ s.delivered = [97] ∧ s.delivered <+: s.accepted ∧
      s.kb.kbCount = s.accepted.length - s.delivered.length := by
  have hsome : (run keyboardStep (keyboardBoot ⟨fun _ => 0, 0, 0, 0⟩)
      [.interrupt 0x1E, .interrupt 0x9E, .readIteration ⟨fun _ => 0, 4, 0⟩, .interrupt 0x30]).map
        (fun s => (s.accepted, s.delivered)) = some ([97, 98], [97]) := by decide +kernel
  obtain ⟨s, hs, heq⟩ := Option.map_eq_some_iff.mp hsome
  obtain ⟨hacc, hdel⟩ := Prod.mk.inj heq
  obtain ⟨hpre, -, hcount, -⟩ := keyboard_buffer_is_fifo _ _ s hs
  exact ⟨s, hs, hacc, hdel, hpre, hcount⟩

end NexusKernel.Drivers
