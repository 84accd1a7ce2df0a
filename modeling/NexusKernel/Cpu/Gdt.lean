import Mathlib

/-!
# Segment descriptors (`kernel/cpu/gdt.c`)

`gdt_set_gate` scatters a base and a limit over the fields of a descriptor, and the
processor collects them again. What the processor sees is the descriptor's `segment`.

`gdt_ptr` and the two assembly routines that load the registers are left out, and so are
the fields of the TSS that stay zero.

Results:
* `segment_gate`: the processor gets the base back, and the low 20 bits of the limit.
* `tss_descriptor_iff`: the addresses of the TSS for which its segment is the TSS.
-/

namespace NexusKernel.Cpu

/-! ## Descriptors -/

/-- `gdt_entry_t` (`gdt.h`, lines 6–13). -/
structure GdtEntry where
  limitLow : BitVec 16
  baseLow : BitVec 16
  baseMiddle : BitVec 8
  access : BitVec 8
  granularity : BitVec 8
  baseHigh : BitVec 8
deriving DecidableEq

/-- The entry that `gdt_set_gate` stores (`gdt.c`, lines 14–19). -/
def gate (base limit : BitVec 32) (access gran : BitVec 8) : GdtEntry where
  baseLow := (base &&& 0xFFFF).setWidth 16
  baseMiddle := (base >>> 16 &&& 0xFF).setWidth 8
  baseHigh := (base >>> 24 &&& 0xFF).setWidth 8
  limitLow := (limit &&& 0xFFFF).setWidth 16
  granularity := (limit >>> 16 &&& 0x0F).setWidth 8 ||| gran &&& 0xF0
  access := access

/-- The segment that an entry describes: its first byte, and the offset of its last one. -/
structure Segment where
  base : BitVec 32
  limit : ℕ
deriving DecidableEq

/-- The 20 bits of the limit. -/
def GdtEntry.rawLimit (e : GdtEntry) : BitVec 20 := e.granularity.setWidth 4 ++ e.limitLow

/-- How the processor reads an entry; with bit 7 of `granularity` the limit counts pages. -/
def GdtEntry.segment (e : GdtEntry) : Segment where
  base := e.baseHigh ++ e.baseMiddle ++ e.baseLow
  limit := if e.granularity.getLsbD 7 then e.rawLimit.toNat * 4096 + 4095 else e.rawLimit.toNat

/-- The low `w` bits, as a field of `v` bits. -/
theorem toNat_field (x : BitVec 32) {mask : BitVec 32} {w v : ℕ} (hmask : mask.toNat = 2 ^ w - 1)
    (hwv : w ≤ v) : ((x &&& mask).setWidth v).toNat = x.toNat % 2 ^ w := by
  have hlt : x.toNat % 2 ^ w < 2 ^ v :=
    (Nat.mod_lt _ (by positivity)).trans_le (Nat.pow_le_pow_right (by norm_num) hwv)
  rw [BitVec.toNat_setWidth, BitVec.toNat_and, hmask, Nat.and_two_pow_sub_one_eq_mod,
    Nat.mod_eq_of_lt hlt]

theorem toNat_shift (x : BitVec 32) (k : ℕ) : (x >>> k).toNat = x.toNat / 2 ^ k := by
  rw [BitVec.toNat_ushiftRight, Nat.shiftRight_eq_div_pow]

theorem toNat_append_add {m n : ℕ} (x : BitVec m) (y : BitVec n) :
    (x ++ y).toNat = x.toNat * 2 ^ n + y.toNat := by
  rw [BitVec.toNat_append, ← Nat.shiftLeft_add_eq_or_of_lt y.isLt, Nat.shiftLeft_eq]

/-- The processor gets the base back. -/
theorem base_gate (base limit : BitVec 32) (access gran : BitVec 8) :
    (gate base limit access gran).segment.base = base := by
  have hlow := toNat_field base (show (0xFFFF : BitVec 32).toNat = 2 ^ 16 - 1 from rfl) (le_refl 16)
  have hmiddle := toNat_field (base >>> 16) (show (0xFF : BitVec 32).toNat = 2 ^ 8 - 1 from rfl)
    (le_refl 8)
  have hhigh := toNat_field (base >>> 24) (show (0xFF : BitVec 32).toNat = 2 ^ 8 - 1 from rfl)
    (le_refl 8)
  have hlt := base.isLt
  rw [toNat_shift] at hmiddle hhigh
  apply BitVec.eq_of_toNat_eq
  simp only [GdtEntry.segment, gate, toNat_append_add, hlow, hmiddle, hhigh]
  omega

/-- Of the limit it gets the low 20 bits. -/
theorem rawLimit_gate (base limit : BitVec 32) (access gran : BitVec 8) :
    (gate base limit access gran).rawLimit.toNat = limit.toNat % 2 ^ 20 := by
  have hlow := toNat_field limit (show (0xFFFF : BitVec 32).toNat = 2 ^ 16 - 1 from rfl) (le_refl 16)
  have hhigh := toNat_field (limit >>> 16) (show (0x0F : BitVec 32).toNat = 2 ^ 4 - 1 from rfl)
    (show 4 ≤ 8 by norm_num)
  have hflags : ∀ gran : BitVec 8, (gran &&& 0xF0).setWidth 4 = 0#4 := by decide
  rw [toNat_shift] at hhigh
  rw [GdtEntry.rawLimit, toNat_append_add, gate, BitVec.setWidth_or, hflags, BitVec.or_zero,
    BitVec.toNat_setWidth, hhigh, hlow]
  omega

/-- What the processor sees of a gate. -/
theorem segment_gate (base limit : BitVec 32) (access gran : BitVec 8) :
    (gate base limit access gran).segment =
      ⟨base, if gran.getLsbD 7 then limit.toNat % 2 ^ 20 * 4096 + 4095 else limit.toNat % 2 ^ 20⟩ := by
  have hbit : (gate base limit access gran).granularity.getLsbD 7 = gran.getLsbD 7 := by
    simp [gate]
  rw [Segment.mk.injEq]
  refine ⟨base_gate base limit access gran, ?_⟩
  rw [GdtEntry.segment, hbit, rawLimit_gate]

/-! ## The tables -/

/-- `sizeof(tss_entry_t)` (`gdt.h`, lines 20–37): 25 words and two halves. -/
def tssSize : ℕ := 25 * 4 + 2 * 2

/-- The fields of `tss_entry_t` that are not always zero. -/
structure TssEntry where
  esp0 : BitVec 32
  ss0 : BitVec 32
  es : BitVec 32
  cs : BitVec 32
  ss : BitVec 32
  ds : BitVec 32
  fs : BitVec 32
  gs : BitVec 32
  iomapBase : BitVec 16
deriving DecidableEq

/-- `gdt_entries` and `tss` (lines 7 and 9). -/
structure Tables where
  gdtEntries : ℕ → GdtEntry
  tss : TssEntry

/-- The tables before `gdt_init`. -/
def bootTables : Tables := ⟨fun _ => ⟨0, 0, 0, 0, 0, 0⟩, ⟨0, 0, 0, 0, 0, 0, 0, 0, 0⟩⟩

/-- `gdt_set_gate` (lines 11–20). -/
def gdtSetGate (t : Tables) (num : ℕ) (base limit : BitVec 32) (access gran : BitVec 8) : Tables :=
  { t with gdtEntries := Function.update t.gdtEntries num (gate base limit access gran) }

/-- `tss_init` (lines 22–35), with `tss` at the address `base`. -/
def tssInit (t : Tables) (base ss0 esp0 : BitVec 32) : Tables :=
  let limit := base + BitVec.ofNat 32 tssSize
  let t := gdtSetGate t 5 base limit 0xE9 0x00
  { t with
    tss :=
      { ss0 := ss0
        esp0 := esp0
        cs := 0x08 ||| 0x3
        ss := 0x10 ||| 0x3
        ds := 0x10 ||| 0x3
        es := 0x10 ||| 0x3
        fs := 0x10 ||| 0x3
        gs := 0x10 ||| 0x3
        iomapBase := BitVec.ofNat 16 tssSize } }

/-- `gdt_init` (lines 37–52). -/
def gdtInit (t : Tables) (base : BitVec 32) : Tables :=
  let t := gdtSetGate t 0 0 0 0 0
  let t := gdtSetGate t 1 0 0xFFFFFFFF 0x9A 0xCF
  let t := gdtSetGate t 2 0 0xFFFFFFFF 0x92 0xCF
  let t := gdtSetGate t 3 0 0xFFFFFFFF 0xFA 0xCF
  let t := gdtSetGate t 4 0 0xFFFFFFFF 0xF2 0xCF
  tssInit t base 0x10 0

/-- The processor finds an I/O permission bitmap in the TSS if the segment goes beyond
    `iomap_base`. -/
def HasIoBitmap (t : Tables) : Prop := t.tss.iomapBase.toNat ≤ (t.gdtEntries 5).segment.limit

/-- The segment of the TSS is the object at `base`: all of it and nothing behind it. -/
structure DescribesTss (t : Tables) (base : BitVec 32) : Prop where
  base_eq : (t.gdtEntries 5).segment.base = base
  limit_eq : (t.gdtEntries 5).segment.limit = tssSize - 1
  no_bitmap : ¬ HasIoBitmap t

theorem gdtEntries_tssInit (t : Tables) (base ss0 esp0 : BitVec 32) (num : ℕ) :
    (tssInit t base ss0 esp0).gdtEntries num =
      if num = 5 then gate base (base + BitVec.ofNat 32 tssSize) 0xE9 0x00 else t.gdtEntries num :=
  Function.update_apply ..

/-- The limit is computed as if it were an end address, so what is left of it depends on
    where the TSS lies. -/
theorem segment_tssInit (t : Tables) (base ss0 esp0 : BitVec 32) :
    ((tssInit t base ss0 esp0).gdtEntries 5).segment =
      ⟨base, (base.toNat + tssSize) % 2 ^ 20⟩ := by
  rw [gdtEntries_tssInit, if_pos rfl, segment_gate, if_neg (by decide), BitVec.toNat_add,
    BitVec.toNat_ofNat, Segment.mk.injEq]
  refine ⟨rfl, ?_⟩
  rw [tssSize]
  omega

/-- For every address of the TSS: the descriptor that `tss_init` writes describes the TSS
    iff the low 20 bits of the address are all set. -/
theorem tss_descriptor_iff (t : Tables) (base ss0 esp0 : BitVec 32) :
    DescribesTss (tssInit t base ss0 esp0) base ↔ base.toNat % 2 ^ 20 = 2 ^ 20 - 1 := by
  have hseg := segment_tssInit t base ss0 esp0
  have hiomap : (tssInit t base ss0 esp0).tss.iomapBase.toNat = 104 := rfl
  constructor
  · intro h
    have hlimit := h.limit_eq
    rw [hseg] at hlimit
    simp only [tssSize] at hlimit
    omega
  · intro h
    have hlimit : (base.toNat + tssSize) % 2 ^ 20 = tssSize - 1 := by
      rw [tssSize]
      omega
    refine ⟨by rw [hseg], by rw [hseg]; exact hlimit, ?_⟩
    rw [HasIoBitmap, hseg, hiomap]
    show ¬ 104 ≤ (base.toNat + tssSize) % 2 ^ 20
    rw [hlimit]
    decide

/-- With the TSS at `0x105000` the segment ends `0x5068` bytes behind its start, and what
    follows the TSS is taken for an I/O permission bitmap. -/
theorem tss_limit_too_large :
    ((gdtInit bootTables 0x105000).gdtEntries 5).segment = ⟨0x105000, 0x5068⟩ ∧
      HasIoBitmap (gdtInit bootTables 0x105000) ∧
      ¬ DescribesTss (gdtInit bootTables 0x105000) 0x105000 := by
  have hseg : ((gdtInit bootTables 0x105000).gdtEntries 5).segment = ⟨0x105000, 0x5068⟩ := by decide
  refine ⟨hseg, ?_, ?_⟩
  · rw [HasIoBitmap, hseg]
    decide
  · intro h
    have hlimit := h.limit_eq
    rw [hseg] at hlimit
    exact absurd hlimit (by decide)

end NexusKernel.Cpu
