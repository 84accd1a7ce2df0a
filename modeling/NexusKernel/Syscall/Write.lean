import NexusKernel.Common.Run
import NexusKernel.Lib.Stdio
import NexusKernel.Lib.Vga

/-!
# Writing to the screen (`sys_write`)

`sys_write` prints a buffer with one `kprintf("%c", ...)` for each byte. On its way to the
screen a byte becomes an `int`, a `char` again and, signed, the low half of a cell, so the
sign of a byte from `0x80` on fills the colour of its cell. Scrolling moves cells together
with their colour, those that nothing was written to included.

The buffer is an array of the caller's: its bytes as the loop reads them.

Results:
* `sysWrite_eq`: the call prints the bytes of the buffer, in order.
* `inColour_putchar_iff`: which characters keep the screen in its colour.
* `screen_colour_iff`: which output does.
-/

namespace NexusKernel.Syscall

open Lib

/-! ## The call -/

/-- `kprintf` on the screen: the characters go to `vga_putchar`. -/
def printOn (s : Vga) (r : Printed) : Vga := r.chars.foldl vgaPutchar s

/-- The loop of `sys_write` (`syscall.c`, lines 38–39); `none` if `kprintf` does not end
    within `fuel` iterations. -/
def writeLoop (fuel : ℕ) (buffer : ℕ → Byte) (size : ℕ) (s : Vga) : Option Vga :=
  (List.range size).foldlM
    (fun s i => (kprintf s.mem fuel (cstr "%c") [(buffer i).signExtend 32]).map (printOn s)) s

/-- `sys_write` (lines 31–44): the result and the screen. -/
def sysWrite (fuel : ℕ) (fd : BitVec 32) (buffer : ℕ → Byte) (size : BitVec 32) (s : Vga) :
    Option (BitVec 32 × Vga) :=
  if fd = 1 ∨ fd = 2 then (writeLoop fuel buffer size.toNat s).map fun s => (size, s)
  else some (-1, s)

/-- `kprintf("%c", v)` prints the low byte of `v`. -/
theorem kprintf_char (mem : Mem) (fuel : ℕ) (v : BitVec 32) :
    kprintf mem (fuel + 2) (cstr "%c") [v] =
      some ⟨[.directive [v.setWidth 8]], [(.char, v)], [0, 1, 2]⟩ := by
  have hconv : conversionOf (cstr "%c" (0 + 1)) = some .char := by decide
  rw [kprintf, kprintfFrom_convert (by decide) hconv, kprintfFrom_end (by decide)]
  rfl

/-- The loop prints the bytes of the buffer. -/
theorem writeLoop_eq {fuel : ℕ} (hfuel : 2 ≤ fuel) (buffer : ℕ → Byte) (size : ℕ) (s : Vga) :
    writeLoop fuel buffer size s = some (((List.range size).map buffer).foldl vgaPutchar s) := by
  obtain ⟨fuel, rfl⟩ := Nat.exists_eq_add_of_le' hfuel
  have hbyte : ∀ b : Byte, (b.signExtend 32).setWidth 8 = b := by decide
  have hstep : (fun (s : Vga) (i : ℕ) =>
      (kprintf s.mem (fuel + 2) (cstr "%c") [(buffer i).signExtend 32]).map (printOn s)) =
      fun s i => some (vgaPutchar s (buffer i)) := by
    funext s i
    rw [kprintf_char, hbyte]
    rfl
  rw [writeLoop, hstep, List.foldl_map]
  exact List.foldlM_pure ..

theorem sysWrite_eq {fuel : ℕ} (hfuel : 2 ≤ fuel) {fd : BitVec 32} (hfd : fd = 1 ∨ fd = 2)
    (buffer : ℕ → Byte) (size : BitVec 32) (s : Vga) :
    sysWrite fuel fd buffer size s =
      some (size, ((List.range size.toNat).map buffer).foldl vgaPutchar s) := by
  rw [sysWrite, if_pos hfd, writeLoop_eq hfuel]
  rfl

/-! ## Colour -/

/-- The high byte of a cell. -/
def colourOf (v : BitVec 16) : Byte := (v >>> 8).setWidth 8

/-- The characters that are not stored in a cell. -/
def IsControl (c : Byte) : Prop := c = 10 ∨ c = 13 ∨ c = 9 ∨ c = 8

instance (c : Byte) : Decidable (IsControl c) := inferInstanceAs (Decidable (_ ∨ _))

/-- Every cell written since boot has the colour of the screen. -/
def InColour (s : Vga) : Prop := ∀ i ∈ s.written, colourOf (cellAt s.mem i.toNat) = 0x07

/-- The cell that a character is stored in holds it in its low byte. -/
def HoldsByte (s : Vga) (c : Byte) : Prop :=
  ¬ IsControl c →
    (cellAt (moveCursor s c).mem (s.cursorY * vgaWidth + s.cursorX).toNat).setWidth 8 = c

/-- The character scrolls the screen. -/
def Scrolls (s : Vga) (c : Byte) : Prop := (wrapLine (moveCursor s c)).cursorY ≥ vgaHeight

instance (s : Vga) (c : Byte) : Decidable (Scrolls s c) := inferInstanceAs (Decidable (_ ≥ _))

/-- A byte that is stored has no sign, and if the screen scrolls, the cells that it moves
    and that nothing was written to have the colour of the screen as well. -/
def KeepsColour (s : Vga) (c : Byte) : Prop :=
  (¬ IsControl c → c.toNat < 128) ∧
    (Scrolls s c → ∀ i : ℕ, 80 ≤ i → i < 2000 → (i : ℤ) ∉ (moveCursor s c).written →
      colourOf (cellAt s.mem i) = 0x07)

/-- One character. -/
def putStep (s : Vga) (c : Byte) : Option Vga := some (vgaPutchar s c)

theorem colourOf_cellOf_iff : ∀ c : Byte, colourOf (cellOf c) = 0x07 ↔ c.toNat < 128 := by
  decide +kernel

theorem setWidth_cellOf : ∀ c : Byte, (cellOf c).setWidth 8 = c := by decide +kernel

/-! ### The motion of a character -/

theorem moveCursor_of_control {c : Byte} (hc : IsControl c) (s : Vga) :
    (moveCursor s c).mem = s.mem ∧ (moveCursor s c).written = s.written := by
  unfold moveCursor
  split_ifs with h10 h13 h9 h8
  · exact ⟨rfl, rfl⟩
  · exact ⟨rfl, rfl⟩
  · exact ⟨rfl, rfl⟩
  · exact ⟨rfl, rfl⟩
  · exact ⟨rfl, rfl⟩
  · exact absurd hc (not_or.mpr ⟨h10, not_or.mpr ⟨h13, not_or.mpr ⟨h9, h8⟩⟩⟩)

theorem moveCursor_of_not_control {c : Byte} (hc : ¬ IsControl c) (s : Vga) : moveCursor s c =
    { s.store (s.cursorY * vgaWidth + s.cursorX) (cellOf c) with cursorX := s.cursorX + 1 } := by
  simp only [IsControl, not_or] at hc
  rw [moveCursor, if_neg hc.1, if_neg hc.2.1, if_neg hc.2.2.1, if_neg hc.2.2.2]

theorem wrapLine_mem (s : Vga) : (wrapLine s).mem = s.mem ∧ (wrapLine s).written = s.written := by
  rw [wrapLine]
  split_ifs <;> exact ⟨rfl, rfl⟩

theorem wrapLine_cursorY (s : Vga) :
    (wrapLine s).cursorY = if s.cursorX ≥ vgaWidth then s.cursorY + 1 else s.cursorY := by
  rw [wrapLine]
  split_ifs <;> rfl

theorem inColour_congr {s t : Vga} (h : t.mem = s.mem ∧ t.written = s.written) :
    InColour t ↔ InColour s := by
  rw [InColour, InColour, h.1, h.2]

theorem holdsByte (s : Vga) (c : Byte) : HoldsByte s c := by
  intro hc
  rw [moveCursor_of_not_control hc]
  simp [Vga.store, cellAt_setCell, setWidth_cellOf]

section

variable {mem : Mem} {s : Vga} {t : Terminal} {c : Byte}

/-- The index that a character is stored at. -/
theorem Window.index_nonneg (h : Window mem s t) : 0 ≤ s.cursorY * vgaWidth + s.cursorX := by
  have hy := h.y_nonneg
  have hx := h.x_eq
  simp only [vgaWidth]
  omega

theorem inColour_moveCursor_iff (h : Window mem s t) (hs : InColour s) :
    InColour (moveCursor s c) ↔ (¬ IsControl c → c.toNat < 128) := by
  by_cases hc : IsControl c
  · rw [inColour_congr (moveCursor_of_control hc s)]
    exact iff_of_true hs fun hnot => absurd hc hnot
  have hindex := Window.index_nonneg h
  rw [moveCursor_of_not_control hc]
  generalize s.cursorY * vgaWidth + s.cursorX = k at hindex
  simp only [InColour, Vga.store, cellAt_setCell, List.forall_mem_cons, if_true,
    colourOf_cellOf_iff]
  constructor
  · intro hin _
    exact hin.1
  · intro hlt
    refine ⟨hlt hc, ?_⟩
    intro i hi
    have hpos := (h.written i hi).1
    split_ifs with hik
    · rw [colourOf_cellOf_iff]
      exact hlt hc
    · exact hs i hi

/-- A cell that nothing was written to is as it was. -/
theorem cellAt_moveCursor (s : Vga) {i : ℕ} (hindex : 0 ≤ s.cursorY * vgaWidth + s.cursorX)
    (hi : (i : ℤ) ∉ (moveCursor s c).written) :
    cellAt (moveCursor s c).mem i = cellAt s.mem i := by
  by_cases hc : IsControl c
  · rw [(moveCursor_of_control hc s).1]
  rw [moveCursor_of_not_control hc] at hi ⊢
  simp only [Vga.store, List.mem_cons, not_or] at hi
  simp only [Vga.store, cellAt_setCell]
  rw [if_neg]
  intro hik
  exact hi.1 (by omega)

/-! ### Scrolling -/

theorem mem_written_blankRow {i : ℤ} (n : ℕ) (hi : i ∈ s.written) : i ∈ (blankRow n s).written := by
  induction n with
  | zero => exact hi
  | succ n ih =>
    rw [blankRow, List.range_succ, List.foldl_append]
    exact List.mem_cons_of_mem _ ih

/-- Every cell but those of the first row is moved. -/
theorem inColour_vgaScroll_iff (hscroll : s.cursorY ≥ vgaHeight)
    (hwritten : ∀ i ∈ (vgaScroll s).written, 0 ≤ i ∧ i < 2000) :
    InColour (vgaScroll s) ↔ ∀ i : ℕ, 80 ≤ i → i < 2000 → colourOf (cellAt s.mem i) = 0x07 := by
  have hcells : ∀ j : ℕ, cellAt (vgaScroll s).mem j =
      if 1920 ≤ j ∧ j < 2000 then blankCell
      else if j < 1920 then cellAt s.mem (j + 80) else cellAt s.mem j := by
    intro j
    rw [vgaScroll, if_pos hscroll]
    show cellAt (blankRow 80 (moveUp s)).mem j = _
    rw [(blanked_blankRow (moveUp s) (le_refl 80)).cells, cellAt_moveUp]
  constructor
  · intro h i hi hlt
    have hmem : ((i - 80 : ℕ) : ℤ) ∈ (vgaScroll s).written := by
      rw [vgaScroll, if_pos hscroll]
      apply mem_written_blankRow
      rw [moveUp_written, List.mem_append, List.mem_map]
      exact Or.inl ⟨i - 80, List.mem_range.mpr (by omega), rfl⟩
    have hcell := h _ hmem
    rwa [Int.toNat_natCast, hcells, if_neg (by omega), if_pos (by omega),
      Nat.sub_add_cancel hi] at hcell
  · intro h i hi
    obtain ⟨hpos, hlt⟩ := hwritten i hi
    rw [hcells]
    split_ifs with hlast hmoved
    · decide
    · exact h _ (by omega) (by omega)
    · exact absurd hlt (by omega)

/-- A character that is stored and scrolls is in the last cell. -/
theorem index_of_scrolls (h : Window mem s t) (hx : t.x < 80) (hy : s.cursorY < 25)
    (hc : ¬ IsControl c) (hscroll : Scrolls s c) :
    s.cursorY * vgaWidth + s.cursorX = 1999 := by
  have hsx := h.x_eq
  rw [Scrolls, wrapLine_cursorY, moveCursor_of_not_control hc] at hscroll
  simp only [vgaWidth, vgaHeight, Vga.store] at hscroll ⊢
  split_ifs at hscroll <;> omega

/-- One character keeps the cells written since boot in the screen's colour iff it has no
    sign and scrolls no other colour into place. -/
theorem inColour_putchar_iff (h : Window mem s t) (hx : t.x < 80) (hy : s.cursorY < 25)
    (hs : InColour s) (c : Byte) : InColour (vgaPutchar s c) ↔ KeepsColour s c := by
  have hmove := inColour_moveCursor_iff (c := c) h hs
  have hwrap := wrapLine_mem (moveCursor s c)
  by_cases hscroll : Scrolls s c
  · have hwritten : ∀ i ∈ (vgaPutchar s c).written, 0 ≤ i ∧ i < 2000 :=
      (window_putAll h hx hy [c]).1.written
    rw [vgaPutchar, inColour_vgaScroll_iff hscroll hwritten, hwrap.1]
    constructor
    · intro hall
      refine ⟨?_, ?_⟩
      · intro hc
        have hlast := hall 1999 (by norm_num) (by norm_num)
        rw [moveCursor_of_not_control hc, index_of_scrolls h hx hy hc hscroll] at hlast
        rw [← colourOf_cellOf_iff]
        simpa [Vga.store, cellAt_setCell] using hlast
      · intro _ i hi hlt hnot
        rw [← cellAt_moveCursor s (Window.index_nonneg h) hnot]
        exact hall i hi hlt
    · intro hkeeps i hi hlt
      by_cases hin : (i : ℤ) ∈ (moveCursor s c).written
      · exact hmove.mpr hkeeps.1 i hin
      · rw [cellAt_moveCursor s (Window.index_nonneg h) hin]
        exact hkeeps.2 hscroll i hi hlt hin
  · have hstay : vgaPutchar s c = wrapLine (moveCursor s c) := if_neg hscroll
    rw [hstay, inColour_congr hwrap, hmove]
    exact ⟨fun hc => ⟨hc, fun hs => absurd hs hscroll⟩, fun hkeeps => hkeeps.1⟩

end

/-! ## Output -/

/-- A call on file descriptor 1 or 2. -/
structure Write where
  fd : BitVec 32
  buffer : ℕ → Byte
  size : BitVec 32
  fd_eq : fd = 1 ∨ fd = 2

/-- The bytes of a sequence of calls. -/
def output (ws : List Write) : List Byte :=
  ws.flatMap fun w => (List.range w.size.toNat).map w.buffer

/-- The calls, one after another. -/
def writes (fuel : ℕ) (s : Vga) (ws : List Write) : Option Vga :=
  ws.foldlM (fun s w => (sysWrite fuel w.fd w.buffer w.size s).map Prod.snd) s

/-- A sequence of calls prints its bytes. -/
theorem writes_eq {fuel : ℕ} (hfuel : 2 ≤ fuel) (s : Vga) (ws : List Write) :
    writes fuel s ws = some ((output ws).foldl vgaPutchar s) := by
  induction ws generalizing s with
  | nil => rfl
  | cons w ws ih =>
    rw [writes, List.foldlM_cons, sysWrite_eq hfuel w.fd_eq, output, List.flatMap_cons,
      List.foldl_append]
    exact ih _

/-- The screen is a window on the terminal, and in its colour. -/
def ColourInv (mem : Mem) (s : Vga) : Prop :=
  ∃ t, Window mem s t ∧ t.x < 80 ∧ s.cursorY < 25 ∧ InColour s

theorem ColourInv.step {mem : Mem} {s : Vga} {c : Byte} (h : ColourInv mem s)
    (hkeeps : KeepsColour s c) : ColourInv mem (vgaPutchar s c) := by
  obtain ⟨t, hwin, hx, hy, hs⟩ := h
  obtain ⟨hwin', hx', hy'⟩ := window_putAll hwin hx hy [c]
  exact ⟨_, hwin', hx', hy', (inColour_putchar_iff hwin hx hy hs c).mpr hkeeps⟩

/-- For every screen at boot and every sequence of `sys_write` calls: they print their
    bytes; each byte that is not a control character is held by the cell it is stored in;
    and in every state on the way all cells written since boot have the colour of the
    screen iff every such byte is below `0x80` and the screen never scrolls cells of
    another colour that nothing was written to. -/
theorem screen_colour_iff (mem : Mem) (ws : List Write) {fuel : ℕ} (hfuel : 2 ≤ fuel) :
    writes fuel (vgaBoot mem) ws = some ((output ws).foldl vgaPutchar (vgaBoot mem)) ∧
      Meets putStep HoldsByte (vgaBoot mem) (output ws) ∧
      (Along putStep InColour (vgaBoot mem) (output ws) ↔
        Meets putStep KeepsColour (vgaBoot mem) (output ws)) := by
  refine ⟨writes_eq hfuel _ ws, meets_of_forall holdsByte _ _, ?_⟩
  have hboot : ColourInv mem (vgaBoot mem) :=
    ⟨_, window_boot mem, by simp [Terminal.ofScreen], by simp [vgaBoot], by simp [InColour, vgaBoot]⟩
  have htotal : ∀ s c, ∃ t, putStep s c = some t := fun s c => ⟨_, rfl⟩
  obtain ⟨u, hrun⟩ := exists_run htotal (vgaBoot mem) (output ws)
  refine along_iff_meets (ColourInv mem) ?_ ?_ ?_ hboot hrun
  · rintro s ⟨t, -, -, -, hs⟩
    exact hs
  · intro s c s' hinv hkeeps hstep
    obtain rfl := Option.some_inj.mp hstep
    exact hinv.step hkeeps
  · rintro s c s' ⟨t, hwin, hx, hy, hs⟩ hkeeps hstep hs'
    obtain rfl := Option.some_inj.mp hstep
    exact hkeeps ((inColour_putchar_iff hwin hx hy hs c).mp hs')

/-- A call that writes `A`. -/
def writeA : Write := ⟨1, fun _ => chr 'A', 1, Or.inl rfl⟩

/-- `A` on a screen in its colour. -/
theorem screen_colour_iff_A :
    Along putStep InColour (vgaBoot fun _ => 0x07) (output [writeA]) := by
  refine (screen_colour_iff (fun _ => 0x07) [writeA] (le_refl 2)).2.2.mpr ?_
  refine ⟨⟨by decide, ?_⟩, fun _ _ => trivial⟩
  intro hscroll
  exact absurd hscroll (by decide)

/-- The byte `0x80` on the same screen: its cell is `0xFF80`. -/
theorem high_byte_changes_colour :
    let w : Write := ⟨1, fun _ => 0x80, 1, Or.inl rfl⟩
    (writes 2 (vgaBoot fun _ => 0x07) [w]).map (fun s => (s.written, cellAt s.mem 0)) =
        some ([0], 0xFF80) ∧
      ¬ Along putStep InColour (vgaBoot fun _ => 0x07) (output [w]) := by
  intro w
  refine ⟨by decide, ?_⟩
  intro h
  have hcell := (h.2 _ rfl).head 0 (by decide)
  exact absurd hcell (by decide)

end NexusKernel.Syscall
