import NexusKernel.Lib.String

/-!
# The text screen (`kernel/lib/stdio.c`, lines 5–50)

`vga_putchar` writes to a buffer of 25 rows of 80 cells and scrolls it when the cursor
leaves the last row. What it shows is a window on a terminal that never scrolls: after
`k` scrolls, rows `k` to `k + 24` of it.

The buffer is a part of memory, two bytes a cell. Indices are `int`s in the source; the
model logs each index that is stored to and counts the scrolls, and nothing reads either.

Results:
* `cellAt_setCell`: a store changes one cell.
* `Window.moveCursor`, `Window.wrapLine`, `Window.vgaScroll`: the parts of `vga_putchar`
  keep the screen a window on the terminal.
* `vga_shows_window`: so does any text.
-/

namespace NexusKernel.Lib

/-! ## Cells -/

/-- `VGA_WIDTH` (line 5). -/
def vgaWidth : ℕ := 80

/-- `VGA_HEIGHT` (line 6). -/
def vgaHeight : ℕ := 25

/-- `VGA_MEMORY` (line 7). -/
def vgaMemory : ℕ := 0xB8000

/-- `(uint16_t)(c | (VGA_COLOR << 8))` for a `char`, which is signed (lines 8 and 40). -/
def cellOf (c : Byte) : BitVec 16 := (c.signExtend 32 ||| 0x07#32 <<< 8).setWidth 16

/-- A blank in the same colour (line 21). -/
def blankCell : BitVec 16 := cellOf 32

/-- `vga_buffer[i]`. -/
def cellAt (m : Mem) (i : ℕ) : BitVec 16 := m (vgaMemory + 2 * i + 1) ++ m (vgaMemory + 2 * i)

/-- The store `vga_buffer[i] = v`. -/
def setCell (m : Mem) (i : ℕ) (v : BitVec 16) : Mem :=
  Function.update (Function.update m (vgaMemory + 2 * i) (v.setWidth 8)) (vgaMemory + 2 * i + 1)
    ((v >>> 8).setWidth 8)

theorem setCell_outside {m : Mem} {i a : ℕ} {v : BitVec 16}
    (h : a < vgaMemory + 2 * i ∨ vgaMemory + 2 * i + 2 ≤ a) : setCell m i v a = m a := by
  rw [setCell, Function.update_of_ne (by omega), Function.update_of_ne (by omega)]

theorem cellAt_setCell (m : Mem) (i j : ℕ) (v : BitVec 16) :
    cellAt (setCell m i v) j = if j = i then v else cellAt m j := by
  by_cases hij : j = i
  · subst hij
    have hlow : vgaMemory + 2 * j ≠ vgaMemory + 2 * j + 1 := by omega
    rw [if_pos rfl, cellAt, setCell, Function.update_self, Function.update_of_ne hlow,
      Function.update_self]
    apply BitVec.eq_of_toNat_eq
    have hv := v.isLt
    rw [BitVec.toNat_append, BitVec.toNat_setWidth, BitVec.toNat_setWidth, BitVec.toNat_ushiftRight,
      Nat.shiftRight_eq_div_pow, ← Nat.shiftLeft_add_eq_or_of_lt (Nat.mod_lt _ (by norm_num)),
      Nat.shiftLeft_eq]
    omega
  · rw [if_neg hij, cellAt, cellAt, setCell_outside (by omega), setCell_outside (by omega)]

/-! ## The code -/

/-- The memory, `cursor_x` and `cursor_y` (lines 10–12), the indices stored to so far and
    the number of scrolls. -/
structure Vga where
  mem : Mem
  cursorX : ℤ
  cursorY : ℤ
  written : List ℤ
  scrolls : ℕ

/-- A store to the buffer. -/
def Vga.store (s : Vga) (i : ℤ) (v : BitVec 16) : Vga :=
  { s with mem := setCell s.mem i.toNat v, written := i :: s.written }

/-- The rows move up by one (lines 17–18). -/
def moveUp (s : Vga) : Vga :=
  { s with
    mem := memmove s.mem vgaMemory (vgaMemory + 2 * vgaWidth) (vgaWidth * (vgaHeight - 1) * 2)
    written := (List.range (vgaWidth * (vgaHeight - 1))).map Nat.cast ++ s.written }

/-- The first `n` cells of the last row become blank (lines 19–21). -/
def blankRow (n : ℕ) (s : Vga) : Vga :=
  (List.range n).foldl (fun s (i : ℕ) => s.store ((vgaHeight - 1) * vgaWidth + i) blankCell) s

/-- `vga_scroll` (lines 14–24). -/
def vgaScroll (s : Vga) : Vga :=
  if s.cursorY ≥ vgaHeight then
    { blankRow vgaWidth (moveUp s) with cursorY := vgaHeight - 1, scrolls := s.scrolls + 1 }
  else s

/-- `(x + 8) & ~7` in 32 bits. -/
def tabStop (x : ℤ) : ℤ := (BitVec.ofInt 32 (x + 8) &&& ~~~7#32).toInt

/-- The first part of `vga_putchar` (lines 28–43). -/
def moveCursor (s : Vga) (c : Byte) : Vga :=
  if c = 10 then { s with cursorX := 0, cursorY := s.cursorY + 1 }
  else if c = 13 then { s with cursorX := 0 }
  else if c = 9 then { s with cursorX := tabStop s.cursorX }
  else if c = 8 then if s.cursorX > 0 then { s with cursorX := s.cursorX - 1 } else s
  else { s.store (s.cursorY * vgaWidth + s.cursorX) (cellOf c) with cursorX := s.cursorX + 1 }

/-- The end of a row (lines 45–48). -/
def wrapLine (s : Vga) : Vga :=
  if s.cursorX ≥ vgaWidth then { s with cursorX := 0, cursorY := s.cursorY + 1 } else s

/-- `vga_putchar` (lines 26–50). -/
def vgaPutchar (s : Vga) (c : Byte) : Vga := vgaScroll (wrapLine (moveCursor s c))

/-- The screen before the first character. -/
def vgaBoot (mem : Mem) : Vga := ⟨mem, 0, 0, [], 0⟩

/-! ## The terminal -/

/-- A terminal with rows without end, and its cursor. -/
structure Terminal where
  cell : ℕ → ℕ → BitVec 16
  x : ℕ
  y : ℕ

/-- The motion of a character. -/
def Terminal.move (t : Terminal) (c : Byte) : Terminal :=
  if c = 10 then { t with x := 0, y := t.y + 1 }
  else if c = 13 then { t with x := 0 }
  else if c = 9 then { t with x := (t.x / 8 + 1) * 8 }
  else if c = 8 then { t with x := t.x - 1 }
  else
    { t with
      cell := Function.update t.cell t.y (Function.update (t.cell t.y) t.x (cellOf c))
      x := t.x + 1 }

/-- A character at the end of a row is followed by the next row. -/
def Terminal.wrap (t : Terminal) : Terminal :=
  if t.x < 80 then t else { t with x := 0, y := t.y + 1 }

def Terminal.put (t : Terminal) (c : Byte) : Terminal := (t.move c).wrap

/-- The first 25 rows show the screen, the others are blank. -/
def Terminal.ofScreen (mem : Mem) : Terminal where
  cell r c := if r < 25 then cellAt mem (r * 80 + c) else blankCell
  x := 0
  y := 0

/-! ## The window -/

/-- The screen shows the terminal from row `scrolls` on, with the same cursor; the rows
    below the window are still blank, and nothing outside the buffer has changed. -/
structure Window (mem : Mem) (s : Vga) (t : Terminal) : Prop where
  x_eq : s.cursorX = t.x
  y_eq : s.cursorY + s.scrolls = t.y
  y_nonneg : 0 ≤ s.cursorY
  cells : ∀ r < 25, ∀ c < 80, cellAt s.mem (r * 80 + c) = t.cell (s.scrolls + r) c
  blank : ∀ r ≥ s.scrolls + 25, ∀ c < 80, t.cell r c = blankCell
  written : ∀ i ∈ s.written, 0 ≤ i ∧ i < 2000
  outside : ∀ a, a < vgaMemory ∨ vgaMemory + 4000 ≤ a → s.mem a = mem a

theorem tabStop_eq {x : ℕ} (hx : x < 80) : tabStop x = ((x / 8 + 1) * 8 : ℕ) := by
  have hall : ∀ x : Fin 80, tabStop (x : ℕ) = ((x / 8 + 1) * 8 : ℕ) := by decide +kernel
  exact hall ⟨x, hx⟩

section

variable {mem : Mem} {s : Vga} {t : Terminal}

/-- A character that only moves the cursor. -/
theorem Window.cursor (h : Window mem s t) {x y : ℤ} {x' y' : ℕ} (hx : x = x')
    (hy : y + s.scrolls = y') (hy0 : 0 ≤ y) :
    Window mem { s with cursorX := x, cursorY := y } { t with x := x', y := y' } :=
  ⟨hx, hy, hy0, h.cells, h.blank, h.written, h.outside⟩

/-- A character at the cursor. -/
theorem Window.store (h : Window mem s t) (hx : t.x < 80) (hy : s.cursorY < 25) (v : BitVec 16) :
    Window mem (s.store (s.cursorY * vgaWidth + s.cursorX) v)
      { t with cell := Function.update t.cell t.y (Function.update (t.cell t.y) t.x v) } := by
  obtain ⟨y, hsy⟩ := Int.eq_ofNat_of_zero_le h.y_nonneg
  have hty : t.y = s.scrolls + y := by
    have := h.y_eq
    omega
  have hindex : s.cursorY * vgaWidth + s.cursorX = ((y * 80 + t.x : ℕ) : ℤ) := by
    rw [hsy, h.x_eq]
    simp [vgaWidth]
  rw [hindex]
  refine ⟨h.x_eq, h.y_eq, h.y_nonneg, ?_, ?_, ?_, ?_⟩
  · intro r hr c hc
    show cellAt (setCell s.mem (y * 80 + t.x) v) (r * 80 + c) = _
    simp only [cellAt_setCell, hty, Vga.store]
    by_cases hrow : r = y
    · subst hrow
      rw [Function.update_self]
      by_cases hcol : c = t.x
      · rw [if_pos (by rw [hcol]), hcol, Function.update_self]
      · rw [if_neg (by omega), Function.update_of_ne hcol]
        exact h.cells r hr c hc
    · rw [if_neg (by omega), Function.update_of_ne (show s.scrolls + r ≠ s.scrolls + y by omega)]
      exact h.cells r hr c hc
  · intro r hr c hc
    have hne : r ≠ t.y := by
      simp only [Vga.store] at hr
      omega
    simp only [Function.update_of_ne hne]
    exact h.blank r hr c hc
  · intro i hi
    obtain rfl | hi := List.mem_cons.mp hi
    · omega
    · exact h.written i hi
  · intro a ha
    show setCell s.mem (y * 80 + t.x) v a = mem a
    rw [setCell_outside (by omega)]
    exact h.outside a ha

/-- The motion of a character; only one of the cursor's coordinates can leave the
    screen. -/
theorem Window.moveCursor (h : Window mem s t) (hx : t.x < 80) (hy : s.cursorY < 25) (c : Byte) :
    Window mem (moveCursor s c) (t.move c) ∧
      (((t.move c).x < 80 ∧ (moveCursor s c).cursorY ≤ 25) ∨
        ((t.move c).x ≤ 80 ∧ (moveCursor s c).cursorY < 25)) := by
  have hsx := h.x_eq
  have hsy := h.y_eq
  have hy0 := h.y_nonneg
  unfold Lib.moveCursor Terminal.move
  by_cases hnl : c = 10
  · rw [if_pos hnl, if_pos hnl]
    exact ⟨h.cursor rfl (by push_cast; omega) (by omega), Or.inl ⟨by simp, by simp only; omega⟩⟩
  rw [if_neg hnl, if_neg hnl]
  by_cases hcr : c = 13
  · rw [if_pos hcr, if_pos hcr]
    exact ⟨h.cursor rfl hsy hy0, Or.inl ⟨by simp, by simp only; omega⟩⟩
  rw [if_neg hcr, if_neg hcr]
  by_cases htab : c = 9
  · rw [if_pos htab, if_pos htab, hsx, tabStop_eq hx]
    exact ⟨h.cursor rfl hsy hy0, Or.inr ⟨by simp only; omega, hy⟩⟩
  rw [if_neg htab, if_neg htab]
  by_cases hbs : c = 8
  · rw [if_pos hbs, if_pos hbs]
    by_cases hpos : s.cursorX > 0
    · rw [if_pos hpos]
      exact ⟨h.cursor (by omega) hsy hy0, Or.inl ⟨by simp only; omega, by simp only; omega⟩⟩
    · rw [if_neg hpos]
      have hzero : t.x - 1 = t.x := by omega
      rw [hzero]
      exact ⟨h, Or.inl ⟨hx, hy.le⟩⟩
  rw [if_neg hbs, if_neg hbs]
  have hstore := h.store hx hy (cellOf c)
  refine ⟨hstore.cursor (by push_cast; omega) hsy hy0, Or.inr ⟨by simp only; omega, hy⟩⟩

theorem Window.wrapLine (h : Window mem s t)
    (hbound : (t.x < 80 ∧ s.cursorY ≤ 25) ∨ (t.x ≤ 80 ∧ s.cursorY < 25)) :
    Window mem (wrapLine s) t.wrap ∧ t.wrap.x < 80 ∧ (wrapLine s).cursorY ≤ 25 := by
  have hsx := h.x_eq
  have hsy := h.y_eq
  have hy0 := h.y_nonneg
  unfold Lib.wrapLine Terminal.wrap
  by_cases hx : t.x < 80
  · rw [if_neg (by unfold vgaWidth; omega), if_pos hx]
    exact ⟨h, hx, by omega⟩
  · rw [if_pos (by unfold vgaWidth; omega), if_neg hx]
    exact ⟨h.cursor rfl (by push_cast; omega) (by omega), by simp, by simp only; omega⟩

/-! ## Scrolling -/

/-- What the loop over the last row has done after `n` iterations. -/
structure Blanked (n : ℕ) (s s' : Vga) : Prop where
  cells : ∀ j, cellAt s'.mem j = if 1920 ≤ j ∧ j < 1920 + n then blankCell else cellAt s.mem j
  outside : ∀ a, a < vgaMemory ∨ vgaMemory + 4000 ≤ a → s'.mem a = s.mem a
  written : ∀ i ∈ s'.written, i ∈ s.written ∨ (0 ≤ i ∧ i < 2000)
  x_eq : s'.cursorX = s.cursorX

theorem blanked_blankRow (s : Vga) {n : ℕ} (hn : n ≤ 80) : Blanked n s (blankRow n s) := by
  induction n with
  | zero => exact ⟨fun j => (if_neg (by omega)).symm, fun _ _ => rfl, fun _ h => Or.inl h, rfl⟩
  | succ n ih =>
    have h := ih (by omega)
    have hindex : ((vgaHeight : ℤ) - 1) * vgaWidth + n = ((1920 + n : ℕ) : ℤ) := by
      simp [vgaHeight, vgaWidth]
    have hstep : blankRow (n + 1) s = (blankRow n s).store ((1920 + n : ℕ) : ℤ) blankCell := by
      rw [blankRow, List.range_succ, List.foldl_append, List.foldl_cons, List.foldl_nil, hindex]
      rfl
    rw [hstep]
    refine ⟨?_, ?_, ?_, h.x_eq⟩
    · intro j
      show cellAt (setCell (blankRow n s).mem (1920 + n) blankCell) j = _
      rw [cellAt_setCell, h.cells]
      by_cases hj : j = 1920 + n
      · rw [if_pos hj, if_pos (by omega)]
      · rw [if_neg hj]
        exact if_congr (by omega) rfl rfl
    · intro a ha
      show setCell (blankRow n s).mem (1920 + n) blankCell a = _
      rw [setCell_outside (by omega)]
      exact h.outside a ha
    · intro i hi
      obtain rfl | hi := List.mem_cons.mp hi
      · right
        omega
      · exact h.written i hi

theorem moveUp_apply (s : Vga) (a : ℕ) : (moveUp s).mem a =
    if vgaMemory ≤ a ∧ a < vgaMemory + 3840 then s.mem (a + 160) else s.mem a := by
  simp only [moveUp, memmove_eq, copyIn]
  show (if vgaMemory ≤ a ∧ a < vgaMemory + 3840 then s.mem (vgaMemory + 160 + (a - vgaMemory))
    else s.mem a) = _
  by_cases ha : vgaMemory ≤ a ∧ a < vgaMemory + 3840
  · rw [if_pos ha, if_pos ha, show vgaMemory + 160 + (a - vgaMemory) = a + 160 by omega]
  · rw [if_neg ha, if_neg ha]

theorem moveUp_cursorX (s : Vga) : (moveUp s).cursorX = s.cursorX := by
  simp only [moveUp]

theorem moveUp_written (s : Vga) :
    (moveUp s).written = (List.range 1920).map Nat.cast ++ s.written := rfl

/-- Every row but the last becomes the one below it. -/
theorem cellAt_moveUp (s : Vga) (j : ℕ) :
    cellAt (moveUp s).mem j = if j < 1920 then cellAt s.mem (j + 80) else cellAt s.mem j := by
  rw [cellAt, moveUp_apply, moveUp_apply]
  by_cases hj : j < 1920
  · rw [if_pos (by omega), if_pos (by omega), if_pos hj, cellAt,
      show vgaMemory + 2 * j + 1 + 160 = vgaMemory + 2 * (j + 80) + 1 by omega,
      show vgaMemory + 2 * j + 160 = vgaMemory + 2 * (j + 80) by omega]
  · rw [if_neg (by omega), if_neg (by omega), if_neg hj, cellAt]

theorem Window.vgaScroll (h : Window mem s t) (hy : s.cursorY ≤ 25) :
    Window mem (vgaScroll s) t ∧ (vgaScroll s).cursorY < 25 := by
  unfold Lib.vgaScroll
  by_cases hscroll : s.cursorY ≥ vgaHeight
  · have hblank : Blanked 80 (moveUp s) (blankRow vgaWidth (moveUp s)) :=
      blanked_blankRow (moveUp s) (le_refl 80)
    have hsy := h.y_eq
    have hy25 : s.cursorY = 25 := by
      unfold vgaHeight at hscroll
      omega
    rw [if_pos hscroll]
    constructor
    · constructor <;> dsimp only
      · rw [hblank.x_eq, moveUp_cursorX]
        exact h.x_eq
      · simp only [vgaHeight]
        push_cast
        omega
      · simp [vgaHeight]
      · intro r hr c hc
        rw [hblank.cells, cellAt_moveUp]
        by_cases hlast : r = 24
        · -- the row that comes into view is blank on both sides
          rw [if_pos (by omega)]
          exact (h.blank _ (by omega) c hc).symm
        · rw [if_neg (by omega), if_pos (by omega), show r * 80 + c + 80 = (r + 1) * 80 + c by ring,
            h.cells (r + 1) (by omega) c hc, show s.scrolls + 1 + r = s.scrolls + (r + 1) by ring]
      · intro r hr c hc
        exact h.blank r (by omega) c hc
      · intro i hi
        obtain hi | hi := hblank.written i hi
        · rw [moveUp_written, List.mem_append, List.mem_map] at hi
          obtain ⟨j, hj, hij⟩ | hi := hi
          · have hlt := List.mem_range.mp hj
            omega
          · exact h.written i hi
        · exact hi
      · intro a ha
        rw [hblank.outside a ha, moveUp_apply, if_neg (by omega)]
        exact h.outside a ha
    · simp [vgaHeight]
  · rw [if_neg hscroll]
    refine ⟨h, ?_⟩
    unfold vgaHeight at hscroll
    omega

end

theorem window_boot (mem : Mem) : Window mem (vgaBoot mem) (Terminal.ofScreen mem) := by
  refine ⟨rfl, rfl, le_rfl, ?_, ?_, fun i hi => absurd hi List.not_mem_nil, fun _ _ => rfl⟩
  · intro r hr c hc
    simp only [Terminal.ofScreen, vgaBoot, Nat.zero_add, if_pos hr]
  · intro r hr c hc
    exact if_neg (by simp only [vgaBoot] at hr; omega)

/-- Every text keeps the screen a window, with the cursor on it. -/
theorem window_putAll {mem : Mem} {s : Vga} {t : Terminal} (h : Window mem s t) (hx : t.x < 80)
    (hy : s.cursorY < 25) (cs : List Byte) :
    Window mem (cs.foldl vgaPutchar s) (cs.foldl Terminal.put t) ∧
      (cs.foldl Terminal.put t).x < 80 ∧ (cs.foldl vgaPutchar s).cursorY < 25 := by
  induction cs generalizing s t with
  | nil => exact ⟨h, hx, hy⟩
  | cons c cs ih =>
    obtain ⟨hmove, hbound⟩ := h.moveCursor hx hy c
    obtain ⟨hwrap, hx', hy'⟩ := hmove.wrapLine hbound
    obtain ⟨hscroll, hy''⟩ := hwrap.vgaScroll hy'
    exact ih hscroll hx' hy''

/-- For every text printed on any screen: the cursor stays on the screen, every cell
    stored to is one of its 2000, nothing else in memory changes, and after `k` scrolls
    the screen shows rows `k` to `k + 24` of the terminal that never scrolls. -/
theorem vga_shows_window (mem : Mem) (cs : List Byte) :
    let s := cs.foldl vgaPutchar (vgaBoot mem)
    let t := cs.foldl Terminal.put (Terminal.ofScreen mem)
    (0 ≤ s.cursorX ∧ s.cursorX < 80 ∧ 0 ≤ s.cursorY ∧ s.cursorY < 25) ∧
      (∀ i ∈ s.written, 0 ≤ i ∧ i < 2000) ∧
      (∀ a, a < vgaMemory ∨ vgaMemory + 4000 ≤ a → s.mem a = mem a) ∧
      (∀ r < 25, ∀ c < 80, cellAt s.mem (r * 80 + c) = t.cell (s.scrolls + r) c) ∧
      s.cursorX = t.x ∧ s.cursorY + s.scrolls = t.y := by
  intro s t
  obtain ⟨h, hx, hy⟩ := window_putAll (window_boot mem) (by simp [Terminal.ofScreen])
    (show (0 : ℤ) < 25 by norm_num) cs
  have hsx : s.cursorX = t.x := h.x_eq
  exact ⟨⟨by omega, by rw [hsx]; exact_mod_cast hx, h.y_nonneg, hy⟩, h.written, h.outside, h.cells,
    h.x_eq, h.y_eq⟩

end NexusKernel.Lib
