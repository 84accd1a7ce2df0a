import NexusKernel.Common.Run
import NexusKernel.Common.Mem

/-!
# The interrupt controllers (`kernel/cpu/idt.c`)

`pic_remap` initialises the two 8259 controllers, and `irq_handler` tells them that an
interrupt is over before it calls the handler. The controllers are modelled as far as these
commands reach: the initialisation sequence, the mask, the requests and the interrupts in
service. Requests are taken in the order of the lines, and the second controller is
connected to line 2 of the first one.

A controller takes no request while one of equal or higher priority is in service. Since
`irq_handler` sends its commands first, nothing is in service while a handler runs, and a
handler that does not return blocks no line.

Results:
* `idle_picRemap`: what `pic_remap` leaves, in whatever state it finds the controllers.
* `acknowledge_of_waiting`: the next interrupt, and what is left after `irq_handler` has
  been entered.
* `irqs_delivered_in_order`: after any run, the requests that wait are delivered once each.
-/

namespace NexusKernel.Cpu

/-! ## One controller -/

/-- Which word of the initialisation sequence is expected next, if any. -/
inductive PicStage where
  | ready
  | icw2
  | icw3
  | icw4
deriving DecidableEq

structure Pic where
  stage : PicStage
  needsIcw4 : Bool
  single : Bool
  base : Byte
  cascade : Byte
  mask : Byte
  inService : Byte
  requests : Byte
deriving DecidableEq

/-- A write to the command port: the first word of an initialisation (bit 4), or the end of
    the interrupt with the highest priority; other commands do not occur. -/
def Pic.writeCommand (p : Pic) (v : Byte) : Pic :=
  if v.getLsbD 4 then
    { p with
      stage := .icw2, needsIcw4 := v.getLsbD 0, single := v.getLsbD 1
      mask := 0, inService := 0, requests := 0 }
  else if v = 0x20 then { p with inService := p.inService &&& (p.inService - 1) }
  else p

/-- The stage after the words 1 to 3. -/
def Pic.lastStage (p : Pic) : PicStage := if p.needsIcw4 then .icw4 else .ready

/-- A write to the data port. -/
def Pic.writeData (p : Pic) (v : Byte) : Pic :=
  match p.stage with
  | .icw2 => { p with base := v &&& 0xF8, stage := if p.single then p.lastStage else .icw3 }
  | .icw3 => { p with cascade := v, stage := p.lastStage }
  | .icw4 => { p with stage := .ready }
  | .ready => { p with mask := v }

/-- The line that is taken next, of those in `requests`. -/
def Pic.next (p : Pic) (requests : Byte) : Option ℕ :=
  (List.range 8).find? fun i =>
    requests.getLsbD i && !p.mask.getLsbD i && (List.range (i + 1)).all fun j => !p.inService.getLsbD j

/-- Line `i` is taken. -/
def Pic.accept (p : Pic) (i : ℕ) : Pic :=
  { p with
    requests := p.requests &&& ~~~(1#8 <<< i)
    inService := p.inService ||| 1#8 <<< i }

/-! ## Both controllers -/

structure Pics where
  master : Pic
  slave : Pic
deriving DecidableEq

/-- `outb` to a port of the controllers. -/
def Pics.outb (p : Pics) (port : ℕ) (v : Byte) : Pics :=
  if port = 0x20 then { p with master := p.master.writeCommand v }
  else if port = 0x21 then { p with master := p.master.writeData v }
  else if port = 0xA0 then { p with slave := p.slave.writeCommand v }
  else if port = 0xA1 then { p with slave := p.slave.writeData v }
  else p

/-- `outb` followed by `io_wait` (`io.h`, lines 42–45). -/
def Pics.outbWait (p : Pics) (port : ℕ) (v : Byte) : Pics := (p.outb port v).outb 0x80 0

/-- `pic_remap` (lines 57–69). -/
def picRemap (p : Pics) : Pics :=
  ((((((((((p.outbWait 0x20 0x11).outbWait 0xA0 0x11).outbWait 0x21 0x20).outbWait 0xA1 0x28).outbWait
    0x21 0x04).outbWait 0xA1 0x02).outbWait 0x21 0x01).outbWait 0xA1 0x01).outbWait 0x21 0x00).outbWait
    0xA1 0x00)

/-- The two commands of `irq_handler` (lines 160–162). -/
def irqHandlerEoi (p : Pics) (intNo : ℕ) : Pics :=
  let p := if intNo ≥ 40 then p.outb 0xA0 0x20 else p
  p.outb 0x20 0x20

/-- Line `k` of the sixteen asks for an interrupt; line 2 is not a device's. -/
def Pics.raise (p : Pics) (k : ℕ) : Pics :=
  if k < 8 then { p with master := { p.master with requests := p.master.requests ||| 1#8 <<< k } }
  else { p with slave := { p.slave with requests := p.slave.requests ||| 1#8 <<< (k - 8) } }

/-- The requests that the first controller sees: on line 2 those of the second. -/
def Pics.masterRequests (p : Pics) : Byte :=
  p.master.requests &&& ~~~0x04#8 ||| if (p.slave.next p.slave.requests).isSome then 0x04#8 else 0#8

/-- The processor takes an interrupt: the vector it gets. -/
def Pics.acknowledge (p : Pics) : Option (ℕ × Pics) :=
  (p.master.next p.masterRequests).bind fun i =>
    if i = 2 then
      (p.slave.next p.slave.requests).map fun j =>
        ((p.slave.base + BitVec.ofNat 8 j).toNat, ⟨p.master.accept 2, p.slave.accept j⟩)
    else some ((p.master.base + BitVec.ofNat 8 i).toNat, ⟨p.master.accept i, p.slave⟩)

/-! ## Nothing in service -/

/-- Initialised as by `pic_remap`, with every line enabled and no interrupt in service. -/
structure Pics.Idle (p : Pics) : Prop where
  base_master : p.master.base = 0x20
  base_slave : p.slave.base = 0x28
  mask_master : p.master.mask = 0
  mask_slave : p.slave.mask = 0
  inService_master : p.master.inService = 0
  inService_slave : p.slave.inService = 0

/-- The device lines in the order in which they are served. -/
def lines : List ℕ := [0, 1, 8, 9, 10, 11, 12, 13, 14, 15, 3, 4, 5, 6, 7]

/-- Line `k` waits. -/
def Pics.requested (p : Pics) (k : ℕ) : Bool :=
  if k < 8 then p.master.requests.getLsbD k else p.slave.requests.getLsbD (k - 8)

/-- The lines that wait, first the one that is served next. -/
def Pics.waiting (p : Pics) : List ℕ := lines.filter p.requested

theorem picRemap_eq (p : Pics) :
    picRemap p = ⟨⟨.ready, true, false, 0x20, 0x04, 0, 0, 0⟩, ⟨.ready, true, false, 0x28, 0x02, 0, 0, 0⟩⟩ := by
  rfl

theorem idle_picRemap (p : Pics) : (picRemap p).Idle ∧ (picRemap p).waiting = [] := by
  rw [picRemap_eq]
  exact ⟨⟨rfl, rfl, rfl, rfl, rfl, rfl⟩, by decide⟩

/-! ## One interrupt -/

theorem getLsbD_clear (r : Byte) {i j : ℕ} (hi : i < 8) (hj : j < 8) :
    (r &&& ~~~(1#8 <<< i)).getLsbD j = (r.getLsbD j && decide (j ≠ i)) := by
  have hbit : (1#8 <<< i).getLsbD j = decide (j = i) := by
    interval_cases i <;> interval_cases j <;> rfl
  rw [BitVec.getLsbD_and, BitVec.getLsbD_not, hbit]
  simp [hj]

/-- A single interrupt in service is over with the next command. -/
theorem eoi_accept {i : ℕ} (hi : i < 8) :
    ((0#8 ||| 1#8 <<< i) &&& ((0#8 ||| 1#8 <<< i) - 1)) = 0#8 := by
  interval_cases i <;> rfl

section

variable {p : Pics}

theorem next_of_idle {q : Pic} (hmask : q.mask = 0) (hserv : q.inService = 0) (r : Byte) :
    q.next r = (List.range 8).find? fun i => r.getLsbD i := by
  have hall : ∀ i, ((List.range (i + 1)).all fun _ => true) = true :=
    fun i => List.all_eq_true.mpr fun _ _ => rfl
  simp [Pic.next, hmask, hserv, hall]

theorem getLsbD_masterRequests (p : Pics) {i : ℕ} (hi : i < 8) :
    p.masterRequests.getLsbD i =
      if i = 2 then (p.slave.next p.slave.requests).isSome else p.requested i := by
  have hclear := getLsbD_clear p.master.requests (show 2 < 8 by decide) hi
  have hcascade : ∀ b : Bool, (if b then 0x04#8 else 0#8).getLsbD i = (b && decide (i = 2)) := by
    intro b
    interval_cases i <;> cases b <;> rfl
  rw [Pics.masterRequests, BitVec.getLsbD_or, hcascade]
  rw [show (p.master.requests &&& ~~~0x04#8).getLsbD i = _ from hclear, Pics.requested, if_pos hi]
  by_cases h2 : i = 2
  · simp [h2]
  · simp [h2]

/-- The controllers once line `k` is taken. -/
def Pics.take (p : Pics) (k : ℕ) : Pics :=
  if k < 8 then ⟨p.master.accept k, p.slave⟩ else ⟨p.master.accept 2, p.slave.accept (k - 8)⟩

theorem toNat_base_add {b : Byte} (hb : b.toNat + 8 ≤ 256) {i : ℕ} (hi : i < 8) :
    (b + BitVec.ofNat 8 i).toNat = b.toNat + i := by
  rw [BitVec.toNat_add, BitVec.toNat_ofNat]
  omega

theorem acknowledge_of_master (h : p.Idle) {i : ℕ} (hi : i < 8) (h2 : i ≠ 2)
    (hnext : p.master.next p.masterRequests = some i) :
    p.acknowledge = some (32 + i, p.take i) := by
  rw [Pics.acknowledge, hnext, Option.bind_some, if_neg h2, h.base_master,
    toNat_base_add (by decide) hi, Pics.take, if_pos hi]
  rfl

theorem acknowledge_of_slave (h : p.Idle) {j : ℕ} (hj : j < 8)
    (hnext : p.master.next p.masterRequests = some 2)
    (hslave : p.slave.next p.slave.requests = some j) :
    p.acknowledge = some (32 + (8 + j), p.take (8 + j)) := by
  rw [Pics.acknowledge, hnext, Option.bind_some, if_pos rfl, hslave, Option.map_some, h.base_slave,
    toNat_base_add (by decide) hj, Pics.take, if_neg (by omega), Nat.add_sub_cancel_left,
    ← Nat.add_assoc]
  rfl

/-- The lines of the first controller before and behind the second one's. -/
theorem next_master (h : p.Idle) :
    p.master.next p.masterRequests = ([0, 1].find? p.requested).or
      ((if (p.slave.next p.slave.requests).isSome then some 2 else none).or
        ([3, 4, 5, 6, 7].find? p.requested)) := by
  have hbits : ∀ l : List ℕ, (∀ i ∈ l, i < 8 ∧ i ≠ 2) →
      (l.find? fun i => p.masterRequests.getLsbD i) = l.find? p.requested := by
    intro l hl
    apply List.find?_congr
    intro i hi
    rw [getLsbD_masterRequests p (hl i hi).1, if_neg (hl i hi).2]
  have hrange : List.range 8 = [0, 1] ++ ([2] ++ [3, 4, 5, 6, 7]) := rfl
  rw [next_of_idle h.mask_master h.inService_master, hrange, List.find?_append, List.find?_append,
    hbits [0, 1] (by decide), hbits [3, 4, 5, 6, 7] (by decide), List.find?_singleton,
    getLsbD_masterRequests p (by decide), if_pos rfl]

theorem find?_lines (h : p.Idle) :
    lines.find? p.requested = ([0, 1].find? p.requested).or
      (((p.slave.next p.slave.requests).map (8 + ·)).or ([3, 4, 5, 6, 7].find? p.requested)) := by
  have hlines : lines = [0, 1] ++ ((List.range 8).map (8 + ·) ++ [3, 4, 5, 6, 7]) := rfl
  rw [hlines, List.find?_append, List.find?_append, List.find?_map,
    next_of_idle h.mask_slave h.inService_slave]
  congr 3

/-- The next interrupt is that of the first line that waits. -/
theorem acknowledge_eq (h : p.Idle) :
    p.acknowledge = (lines.find? p.requested).map fun k => (32 + k, p.take k) := by
  have hmaster := next_master h
  have hlines := find?_lines h
  cases h01 : [0, 1].find? p.requested with
  | some i =>
    have hi := List.mem_of_find?_eq_some h01
    simp only [h01, Option.some_or] at hmaster hlines
    rw [hlines]
    exact acknowledge_of_master h (by simp at hi; omega) (by simp at hi; omega) hmaster
  | none =>
    cases hslave : p.slave.next p.slave.requests with
    | some j =>
      have hj : j ∈ List.range 8 := List.mem_of_find?_eq_some
        ((next_of_idle h.mask_slave h.inService_slave _).symm.trans hslave)
      simp only [h01, hslave, Option.isSome_some, if_true, Option.map_some, Option.none_or,
        Option.some_or] at hmaster hlines
      rw [hlines]
      exact acknowledge_of_slave h (List.mem_range.mp hj) hmaster hslave
    | none =>
      simp only [h01, hslave, Option.isSome_none, Bool.false_eq_true, if_false, Option.map_none,
        Option.none_or] at hmaster hlines
      rw [hlines]
      cases h37 : [3, 4, 5, 6, 7].find? p.requested with
      | none =>
        rw [Pics.acknowledge, hmaster, h37]
        rfl
      | some i =>
        have hi := List.mem_of_find?_eq_some h37
        exact acknowledge_of_master h (by simp at hi; omega) (by simp at hi; omega)
          (hmaster.trans h37)

theorem writeCommand_accept {q : Pic} (hserv : q.inService = 0) {i : ℕ} (hi : i < 8) :
    (q.accept i).writeCommand 0x20 = { q with requests := q.requests &&& ~~~(1#8 <<< i) } := by
  have heoi := eoi_accept hi
  rw [Pic.writeCommand, if_neg (by decide), if_pos rfl]
  simp only [Pic.accept, hserv]
  rw [show (0 : Byte) = 0#8 from rfl, heoi]

/-- The lines that wait are those that do not lose their request. -/
theorem waiting_eq_filter {q : Pics} {k : ℕ}
    (h : ∀ j ∈ lines, q.requested j = (p.requested j && decide (j ≠ k))) :
    q.waiting = p.waiting.filter (· ≠ k) := by
  rw [Pics.waiting, Pics.waiting, List.filter_filter]
  apply List.filter_congr
  intro j hj
  rw [h j hj, Bool.and_comm]

/-- After the commands of `irq_handler` nothing is in service, and the line no longer
    waits. -/
theorem eoi_take (h : p.Idle) {k : ℕ} (hk : k ∈ lines) :
    (irqHandlerEoi (p.take k) (32 + k)).Idle ∧
      (irqHandlerEoi (p.take k) (32 + k)).waiting = p.waiting.filter (· ≠ k) := by
  have hlines : ∀ j ∈ lines, j < 16 ∧ j ≠ 2 := by decide
  obtain ⟨hk16, hk2⟩ := hlines k hk
  by_cases hk8 : k < 8
  · have heq : irqHandlerEoi (p.take k) (32 + k) =
        { p with master := { p.master with requests := p.master.requests &&& ~~~(1#8 <<< k) } } := by
      rw [irqHandlerEoi, if_neg (by omega), Pics.take, if_pos hk8,
        ← writeCommand_accept h.inService_master hk8]
      rfl
    rw [heq]
    refine ⟨⟨h.1, h.2, h.3, h.4, h.5, h.6⟩, waiting_eq_filter fun j hj => ?_⟩
    unfold Pics.requested
    split_ifs with hj8
    · exact getLsbD_clear _ hk8 hj8
    · rw [decide_eq_true (by omega), Bool.and_true]
  · have heq : irqHandlerEoi (p.take k) (32 + k) =
        ⟨{ p.master with requests := p.master.requests &&& ~~~(1#8 <<< 2) },
          { p.slave with requests := p.slave.requests &&& ~~~(1#8 <<< (k - 8)) }⟩ := by
      rw [irqHandlerEoi, if_pos (by omega), Pics.take, if_neg hk8,
        ← writeCommand_accept h.inService_master (by decide),
        ← writeCommand_accept h.inService_slave (by omega)]
      rfl
    rw [heq]
    refine ⟨⟨h.1, h.2, h.3, h.4, h.5, h.6⟩, waiting_eq_filter fun j hj => ?_⟩
    obtain ⟨hj16, hj2⟩ := hlines j hj
    unfold Pics.requested
    split_ifs with hj8
    · rw [getLsbD_clear _ (by decide) hj8, decide_eq_true hj2, decide_eq_true (by omega)]
    · rw [getLsbD_clear _ (by omega) (by omega)]
      congr 1
      exact decide_eq_decide.mpr (by omega)

/-- The next interrupt, up to the call of the handler. -/
theorem acknowledge_of_waiting (h : p.Idle) {k : ℕ} {rest : List ℕ} (hw : p.waiting = k :: rest) :
    ∃ q, p.acknowledge = some (32 + k, q) ∧ (irqHandlerEoi q (32 + k)).Idle ∧
      (irqHandlerEoi q (32 + k)).waiting = rest := by
  have hfind : lines.find? p.requested = some k := by
    rw [← List.head?_filter]
    exact congrArg List.head? hw
  have hk : k ∈ lines := List.mem_of_find?_eq_some hfind
  have hnodup : (k :: rest).Nodup := hw ▸ List.Nodup.filter _ (by decide : lines.Nodup)
  obtain ⟨hidle, hrest⟩ := eoi_take h hk
  refine ⟨p.take k, by rw [acknowledge_eq h, hfind]; rfl, hidle, ?_⟩
  rw [hrest, hw, List.filter_cons_of_neg (by simp), List.filter_eq_self]
  intro j hj
  exact decide_eq_true (ne_of_mem_of_not_mem hj (List.nodup_cons.mp hnodup).1)

theorem idle_raise (h : p.Idle) (k : ℕ) : (p.raise k).Idle := by
  unfold Pics.raise
  split_ifs
  · exact ⟨h.1, h.2, h.3, h.4, h.5, h.6⟩
  · exact ⟨h.1, h.2, h.3, h.4, h.5, h.6⟩

end

/-! ## Runs -/

/-- The controllers, and the vectors of the handlers called, oldest first. -/
structure PicRun where
  pics : Pics
  delivered : List ℕ
deriving DecidableEq

/-- A device asks for an interrupt, or the processor takes one and enters `irq_handler`. -/
inductive PicEvent where
  | raise (k : ℕ)
  | interrupt

def picStep (s : PicRun) : PicEvent → Option PicRun
  | .raise k => if k ∈ lines then some { s with pics := s.pics.raise k } else none
  | .interrupt => s.pics.acknowledge.map fun a =>
      { pics := irqHandlerEoi a.2 a.1, delivered := s.delivered ++ [a.1] }

theorem picStep_interrupt {s : PicRun} (h : s.pics.Idle) {k : ℕ} {rest : List ℕ}
    (hw : s.pics.waiting = k :: rest) :
    ∃ t, picStep s .interrupt = some t ∧ t.pics.Idle ∧ t.pics.waiting = rest ∧
      t.delivered = s.delivered ++ [32 + k] := by
  obtain ⟨q, hq, hidle, hrest⟩ := acknowledge_of_waiting h hw
  refine ⟨⟨irqHandlerEoi q (32 + k), s.delivered ++ [32 + k]⟩, ?_, hidle, hrest, rfl⟩
  rw [picStep, hq, Option.map_some]

theorem idle_picStep {s t : PicRun} {e : PicEvent} (h : s.pics.Idle) (ht : picStep s e = some t) :
    t.pics.Idle := by
  cases e with
  | raise k =>
    simp only [picStep, Option.ite_none_right_eq_some, Option.some.injEq] at ht
    obtain ⟨-, rfl⟩ := ht
    exact idle_raise h k
  | interrupt =>
    cases hw : s.pics.waiting with
    | nil =>
      have hfind : lines.find? s.pics.requested = none := by
        rw [← List.head?_filter]
        exact congrArg List.head? hw
      rw [picStep, acknowledge_eq h, hfind] at ht
      simp at ht
    | cons k rest =>
      obtain ⟨t', ht', hidle, -⟩ := picStep_interrupt h hw
      exact Option.some_inj.mp (ht'.symm.trans ht) ▸ hidle

/-- As many interrupts as lines wait. -/
theorem run_interrupts {s : PicRun} (h : s.pics.Idle) {ks : List ℕ} (hw : s.pics.waiting = ks) :
    ∃ t, run picStep s (List.replicate ks.length .interrupt) = some t ∧ t.pics.waiting = [] ∧
      t.delivered = s.delivered ++ ks.map (32 + ·) := by
  induction ks generalizing s with
  | nil => exact ⟨s, rfl, hw, (List.append_nil _).symm⟩
  | cons k ks ih =>
    obtain ⟨t, ht, hidle, hrest, hdelivered⟩ := picStep_interrupt h hw
    obtain ⟨u, hu, hempty, hall⟩ := ih hidle hrest
    refine ⟨u, ?_, hempty, ?_⟩
    · rw [List.length_cons, List.replicate_succ, run_cons_eq_some]
      exact ⟨t, ht, hu⟩
    · rw [hall, hdelivered, List.append_assoc]
      rfl

/-- **No interrupt request is lost or delivered twice.** After `pic_remap` and any run of
    requests and interrupts, whether the handlers returned or not: nothing is in service, and
    the lines that wait are served by as many further interrupts, each once, in the order of
    their priority, line `k` with the vector `32 + k` of its gate. -/
theorem irqs_delivered_in_order (p : Pics) {es : List PicEvent} {s : PicRun}
    (hs : run picStep ⟨picRemap p, []⟩ es = some s) :
    s.pics.Idle ∧ ∃ t, run picStep s (List.replicate s.pics.waiting.length .interrupt) = some t ∧
      t.pics.waiting = [] ∧ t.delivered = s.delivered ++ s.pics.waiting.map (32 + ·) := by
  have hidle : s.pics.Idle := run_invariant (fun s : PicRun => s.pics.Idle)
    (fun s e t h ht => idle_picStep h ht) (idle_picRemap p).1 hs
  exact ⟨hidle, run_interrupts hidle rfl⟩

/-- The controllers as a BIOS may leave them. -/
def biosPics : Pics :=
  ⟨⟨.ready, true, false, 0x08, 0x04, 0xFF, 0, 0⟩, ⟨.ready, true, false, 0x70, 0x02, 0xFF, 0, 0⟩⟩

/-- The timer, the keyboard and line 8, after a first timer interrupt. -/
def threeWait : PicRun :=
  ⟨⟨⟨.ready, true, false, 0x20, 0x04, 0, 0, 0x03⟩, ⟨.ready, true, false, 0x28, 0x02, 0, 0, 0x01⟩⟩, [32]⟩

theorem irqs_delivered_in_order_three :
    threeWait.pics.Idle ∧
      ∃ t, run picStep threeWait (List.replicate threeWait.pics.waiting.length .interrupt) = some t ∧
        t.pics.waiting = [] ∧
        t.delivered = threeWait.delivered ++ threeWait.pics.waiting.map (32 + ·) :=
  irqs_delivered_in_order biosPics (show run picStep ⟨picRemap biosPics, []⟩
    [.raise 0, .interrupt, .raise 8, .raise 1, .raise 0] = some threeWait by decide +kernel)

end NexusKernel.Cpu
