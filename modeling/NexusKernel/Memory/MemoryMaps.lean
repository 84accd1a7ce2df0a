import NexusKernel.Memory.PmmKernelImage

/-!
# What `pmm_init` makes of a memory map

An entry of the map describes a region by two 64-bit numbers; `pmm_init` narrows
both bounds to 32 bits, and it counts a frame down once for every available entry
that covers it.

Results:
* `mapExact_iff`: the free frames are those of the available regions iff narrowing
  the bounds changes none of the frames covered between 1 MiB and 512 MiB.
* `narrowedHolds_iff`: it changes none of a region that ends at or below `0xFFFFF000`.
* `drifted_bootPmm`: how far `used_frames` is off after the two loops.
* `initial_accounting_iff`: the counter is right iff the surplus of covering
  entries over all frames is a multiple of `2 ^ 32`.
* `dvd_surplus_iff`: with fewer than `2 ^ 15` entries, iff no two cover one frame.
-/

namespace NexusKernel.Memory

open Bitmap

/-! ## Frames inside a region -/

/-- The frame `f` lies wholly inside the region of the available entry `e`. -/
def MmapEntry.Holds (e : MmapEntry) (f : ℕ) : Prop :=
  e.type = 1 ∧ e.addr ≤ f * pageSize ∧ (f + 1) * pageSize ≤ e.addr + e.len

instance (e : MmapEntry) (f : ℕ) : Decidable (e.Holds f) := inferInstanceAs (Decidable (_ ∧ _))

/-- The same between the bounds that lines 81–84 compute in 32 bits. -/
def MmapEntry.NarrowedHolds (e : MmapEntry) (f : ℕ) : Prop :=
  e.type = 1 ∧ (e.addr + 4095) % 2 ^ 32 / 4096 ≤ f ∧ f < (e.addr + e.len) % 2 ^ 32 / 4096

theorem releases_iff {total : ℕ} {e : MmapEntry} {f : ℕ} :
    Releases total e f ↔ e.NarrowedHolds f ∧ f < total := by
  have hstart : frameStart e = (e.addr + 4095) % 2 ^ 32 / 4096 := by
    unfold frameStart u32 pageSize
    omega
  have hend : frameEnd e = (e.addr + e.len) % 2 ^ 32 / 4096 := by
    unfold frameEnd u32 pageSize
    omega
  unfold Releases MmapEntry.NarrowedHolds
  rw [hstart, hend, and_assoc, and_assoc]

/-- Narrowing does nothing to a region that ends at or below `0xFFFFF000`. -/
theorem narrowedHolds_iff {e : MmapEntry} (hend : e.addr + e.len ≤ 0xFFFFF000) (f : ℕ) :
    e.NarrowedHolds f ↔ e.Holds f := by
  unfold MmapEntry.NarrowedHolds MmapEntry.Holds pageSize
  apply and_congr_right
  intro _
  omega

/-- The first walk puts `total_frames` above every frame the second one clears. -/
theorem lt_total_of_narrowedHolds (s : Pmm) {es : List MmapEntry} {e : MmapEntry} (he : e ∈ es)
    {f : ℕ} (hf : f < 131072) (h : e.NarrowedHolds f) : f < (bootPmm s es).totalFrames := by
  have hlt := h.2.2
  have hend := (le_foldl_memEndBody es 0 ((f + 1) * 4096)).mpr (Or.inr ⟨e, he, by omega⟩)
  rw [bootPmm_totalFrames]
  unfold pageSize
  omega

/-! ## The free frames -/

/-- `pmm_init` has understood the map: below `total_frames` the free frames are those
    inside an available region and above the first megabyte, and of the frames inside
    an available region none that the bitmap could hold is above `total_frames`. -/
def MapExact (s : Pmm) (es : List MmapEntry) : Prop :=
  (∀ f < s.totalFrames, bit s.frameBitmap f = false ↔ (∃ e ∈ es, e.Holds f) ∧ 256 ≤ f) ∧
    ∀ f, 256 ≤ f → f < bitmapSize * 8 → (∃ e ∈ es, e.Holds f) → f < s.totalFrames

/-- Narrowed to 32 bits, the available regions cover the same frames among those that
    the bitmap holds and the first megabyte does not. -/
def NarrowsExactly (es : List MmapEntry) : Prop :=
  ∀ f, 256 ≤ f → f < 131072 → ((∃ e ∈ es, e.Holds f) ↔ ∃ e ∈ es, e.NarrowedHolds f)

theorem bootPmm_bit_iff (s : Pmm) (es : List MmapEntry) {f : ℕ} (hf : f < 131072) :
    bit (bootPmm s es).frameBitmap f = false ↔ 256 ≤ f ∧ ∃ e ∈ es, e.NarrowedHolds f := by
  rw [bootPmm_bit s es hf]
  apply and_congr_right
  intro _
  constructor
  · intro ⟨e, he, hrel⟩
    exact ⟨e, he, (releases_iff.mp hrel).1⟩
  · intro ⟨e, he, h⟩
    exact ⟨e, he, releases_iff.mpr ⟨h, lt_total_of_narrowedHolds s he hf h⟩⟩

theorem mapExact_bootPmm_iff (s : Pmm) (es : List MmapEntry) :
    MapExact (bootPmm s es) es ↔ NarrowsExactly es := by
  have htotal : (bootPmm s es).totalFrames ≤ 131072 := by
    rw [bootPmm_totalFrames]
    omega
  have hsize : bitmapSize * 8 = 131072 := by norm_num [bitmapSize]
  unfold MapExact
  rw [hsize]
  constructor
  · intro ⟨hfree, hbelow⟩ f hlow hf
    constructor
    · intro h
      have hbit := (hfree f (hbelow f hlow hf h)).mpr ⟨h, hlow⟩
      exact ((bootPmm_bit_iff s es hf).mp hbit).2
    · intro h
      obtain ⟨e, he, hholds⟩ := h
      have hbit := (bootPmm_bit_iff s es hf).mpr ⟨hlow, e, he, hholds⟩
      exact ((hfree f (lt_total_of_narrowedHolds s he hf hholds)).mp hbit).1
  · intro hnarrow
    constructor
    · intro f hf
      rw [bootPmm_bit_iff s es (hf.trans_le htotal), and_comm]
      apply and_congr_left
      intro hlow
      exact (hnarrow f hlow (hf.trans_le htotal)).symm
    · intro f hlow hf h
      obtain ⟨e, he, hholds⟩ := (hnarrow f hlow hf).mp h
      exact lt_total_of_narrowedHolds s he hf hholds

/-- After `pmm_init` on any memory map, the free frames are exactly those the map
    makes available iff narrowing its bounds to 32 bits keeps the frames covered. -/
theorem mapExact_iff (mem : Mem) (mbi : MultibootInfo) (es : List MmapEntry)
    (hmap : MemoryMap mem mbi es) (s₀ : Pmm) :
    ∃ s, (∃ n, ∀ fuel > n, pmmInit fuel mem mbi s₀ = some s) ∧
      (MapExact s es ↔ NarrowsExactly es) :=
  ⟨bootPmm s₀ es, ⟨es.length, fun _ hfuel => pmmInit_eq hmap s₀ hfuel⟩, mapExact_bootPmm_iff s₀ es⟩

theorem narrowsExactly_of_low {es : List MmapEntry}
    (hend : ∀ e ∈ es, e.addr + e.len ≤ 0xFFFFF000) : NarrowsExactly es := by
  intro f _ _
  apply exists_congr
  intro e
  apply and_congr_right
  intro he
  exact (narrowedHolds_iff (hend e he) f).symm

/-- The map of the 128 MiB machine is understood. -/
theorem mapExact_iff_pc :
    ∃ s, (∃ n, ∀ fuel > n, pmmInit fuel pcMem pcInfo ⟨fun _ => 0, 0, 0⟩ = some s) ∧
      MapExact s pcMap := by
  obtain ⟨s, hinit, hiff⟩ := mapExact_iff pcMem pcInfo pcMap memoryMap_pc ⟨fun _ => 0, 0, 0⟩
  exact ⟨s, hinit, hiff.mpr (narrowsExactly_of_low (by decide))⟩

/-- An available region from one megabyte to 4 GiB: its narrowed end is zero, so that
    `total_frames` is zero and no frame of it is free. -/
theorem wide_region_lost :
    ∃ s, (∃ n, ∀ fuel > n, pmmInit fuel wideMem wideInfo ⟨fun _ => 0, 0, 0⟩ = some s) ∧
      (∀ f, 256 ≤ f → f < bitmapSize * 8 → (⟨20, 0x100000, 0xFFF00000, 1⟩ : MmapEntry).Holds f) ∧
      s.totalFrames = 0 ∧ ¬ MapExact s [⟨20, 0x100000, 0xFFF00000, 1⟩] := by
  have htotal : (bootPmm ⟨fun _ => 0, 0, 0⟩ [⟨20, 0x100000, 0xFFF00000, 1⟩]).totalFrames = 0 := by
    rw [bootPmm_totalFrames]
    decide
  have hholds : ∀ f, 256 ≤ f → f < bitmapSize * 8 →
      (⟨20, 0x100000, 0xFFF00000, 1⟩ : MmapEntry).Holds f := by
    intro f hlow hf
    unfold bitmapSize at hf
    refine ⟨rfl, ?_, ?_⟩
    · show 0x100000 ≤ f * 4096
      omega
    · show (f + 1) * 4096 ≤ 0x100000 + 0xFFF00000
      omega
  refine ⟨bootPmm ⟨fun _ => 0, 0, 0⟩ _, ⟨1, fun _ hfuel => pmmInit_eq memoryMap_wide _ hfuel⟩,
    hholds, htotal, ?_⟩
  intro hexact
  have hlt := hexact.2 256 le_rfl (by decide) ⟨_, List.mem_singleton.mpr rfl,
    hholds 256 le_rfl (by decide)⟩
  rw [htotal] at hlt
  exact absurd hlt (Nat.not_lt_zero _)

/-! ## How far the counter drifts -/

/-- `used_frames` is `d` less than the number of set bits, in 32 bits. -/
structure Drifted (s : Pmm) (d : ℕ) : Prop where
  used_add : s.usedFrames + d ≡ count (bit s.frameBitmap) s.totalFrames [MOD 2 ^ 32]
  used_lt : s.usedFrames < 2 ^ 32
  total_le : s.totalFrames ≤ 131072
  above_set : ∀ f, s.totalFrames ≤ f → f < 131072 → bit s.frameBitmap f = true

theorem Drifted.used_eq_iff {s : Pmm} {d : ℕ} (hs : Drifted s d) :
    s.usedFrames = count (bit s.frameBitmap) s.totalFrames ↔ 2 ^ 32 ∣ d := by
  have hcount := count_le (bit s.frameBitmap) s.totalFrames
  have htotal := hs.total_le
  have hlt := hs.used_lt
  have hadd := hs.used_add
  rw [Nat.modEq_iff_dvd] at hadd
  omega

theorem u32_modEq (x : ℕ) : u32 x ≡ x [MOD 2 ^ 32] := Nat.mod_modEq x _

theorem sub32_one_add_one (x : ℕ) : sub32 x 1 + 1 ≡ x [MOD 2 ^ 32] := by
  unfold sub32 u32 Nat.ModEq
  omega

theorem drifted_reserveBody {s : Pmm} {d : ℕ} (hs : Drifted s d) {i : ℕ} (hi : i < 131072) :
    Drifted (reserveBody s i) d := by
  unfold reserveBody bitmapTest
  rw [testBit_eq]
  split_ifs with hbit
  · -- a clear bit is below `total_frames`, so one more bit of the count is set
    have hlt : i < s.totalFrames := by
      by_contra hge
      rw [hs.above_set i (Nat.not_lt.mp hge) hi] at hbit
      exact Bool.noConfusion hbit
    have hcount := count_update_of_lt (bit s.frameBitmap) hlt true
    simp only [hbit, Bool.false_eq_true, if_false, if_true, Nat.add_zero] at hcount
    refine ⟨?_, u32_lt _, hs.total_le, fun f hf hf' => bit_takeFrame_of_set (hs.above_set f hf hf')⟩
    rw [bit_takeFrame]
    show u32 (s.usedFrames + 1) + d ≡ count _ s.totalFrames [MOD 2 ^ 32]
    rw [hcount]
    calc u32 (s.usedFrames + 1) + d ≡ s.usedFrames + 1 + d [MOD 2 ^ 32] :=
          (u32_modEq _).add_right d
      _ = s.usedFrames + d + 1 := Nat.add_right_comm _ _ _
      _ ≡ count (bit s.frameBitmap) s.totalFrames + 1 [MOD 2 ^ 32] := hs.used_add.add_right 1
  · exact hs

theorem drifted_foldl_reserveBody {l : List ℕ} {s : Pmm} {d : ℕ} (hs : Drifted s d)
    (hl : ∀ i ∈ l, i < 131072) : Drifted (l.foldl reserveBody s) d := by
  induction l generalizing s with
  | nil => exact hs
  | cons i l ih =>
    rw [List.forall_mem_cons] at hl
    exact ih (drifted_reserveBody hs hl.1) hl.2

/-! ## The releases of the second walk -/

theorem foldl_releaseFrame_used (l : List ℕ) (s : Pmm) :
    (l.foldl releaseFrame s).usedFrames + l.length ≡ s.usedFrames [MOD 2 ^ 32] := by
  induction l generalizing s with
  | nil => exact Nat.ModEq.refl _
  | cons f l ih =>
    rw [List.foldl_cons, List.length_cons, ← Nat.add_assoc]
    exact ((ih (releaseFrame s f)).add_right 1).trans (sub32_one_add_one s.usedFrames)

theorem used_lt_foldl_releaseFrame (l : List ℕ) {s : Pmm} (hs : s.usedFrames < 2 ^ 32) :
    (l.foldl releaseFrame s).usedFrames < 2 ^ 32 := by
  induction l generalizing s with
  | nil => exact hs
  | cons f l ih => exact ih (s := releaseFrame s f) (u32_lt _)

/-- The number of available entries of the map that cover the frame `f`. -/
def coverings (es : List MmapEntry) (f : ℕ) : ℕ := es.countP fun e => e.Holds f

/-- Over all frames, the coverings beyond the first. -/
def surplus (es : List MmapEntry) : ℕ := ∑ f ∈ Finset.range 131072, (coverings es f - 1)

/-- One entry counts down once for every frame below `total_frames` inside it. -/
theorem releaseBody_used (s : Pmm) {e : MmapEntry} (hend : e.addr + e.len ≤ 0xFFFFF000) :
    (releaseBody s e).usedFrames + ∑ f ∈ Finset.range s.totalFrames, (if e.Holds f then 1 else 0) ≡
      s.usedFrames [MOD 2 ^ 32] := by
  rw [← Finset.card_filter]
  unfold releaseBody
  split_ifs with htype
  · have hfilter : (Finset.range s.totalFrames).filter e.Holds =
        Finset.Ico (frameStart e) (min (frameEnd e) s.totalFrames) := by
      ext f
      have hrel : Releases s.totalFrames e f ↔ _ := releases_iff
      rw [narrowedHolds_iff hend, Releases] at hrel
      rw [Finset.mem_filter, Finset.mem_range, Finset.mem_Ico, lt_min_iff, and_comm, ← hrel]
      exact and_iff_right htype
    have hused := foldl_releaseFrame_used
      (List.range' (frameStart e) (min (frameEnd e) s.totalFrames - frameStart e)) s
    rw [List.length_range'] at hused
    rw [hfilter, Nat.card_Ico]
    exact hused
  · have hfilter : (Finset.range s.totalFrames).filter e.Holds = ∅ :=
      Finset.filter_false_of_mem fun f _ h => htype h.1
    rw [hfilter, Finset.card_empty]
    exact Nat.ModEq.refl _

theorem foldl_releaseBody_used {es : List MmapEntry} (s : Pmm)
    (hend : ∀ e ∈ es, e.addr + e.len ≤ 0xFFFFF000) :
    (es.foldl releaseBody s).usedFrames + ∑ f ∈ Finset.range s.totalFrames, coverings es f ≡
      s.usedFrames [MOD 2 ^ 32] := by
  induction es generalizing s with
  | nil =>
    simp only [coverings, List.countP_nil, Finset.sum_const_zero]
    exact Nat.ModEq.refl _
  | cons e es ih =>
    rw [List.forall_mem_cons] at hend
    have hrest := ih (releaseBody s e) hend.2
    have hfirst := releaseBody_used s hend.1
    rw [releaseBody_totalFrames] at hrest
    have hsum : ∑ f ∈ Finset.range s.totalFrames, coverings (e :: es) f =
        ∑ f ∈ Finset.range s.totalFrames, coverings es f +
          ∑ f ∈ Finset.range s.totalFrames, (if e.Holds f then 1 else 0) := by
      rw [← Finset.sum_add_distrib]
      apply Finset.sum_congr rfl
      intro f _
      simp [coverings, List.countP_cons]
    rw [List.foldl_cons, hsum, ← Nat.add_assoc]
    exact (hrest.add_right _).trans hfirst

theorem used_lt_releaseBody {s : Pmm} (hs : s.usedFrames < 2 ^ 32) (e : MmapEntry) :
    (releaseBody s e).usedFrames < 2 ^ 32 := by
  unfold releaseBody
  split_ifs
  · exact used_lt_foldl_releaseFrame _ hs
  · exact hs

theorem used_lt_foldl_releaseBody (es : List MmapEntry) {s : Pmm} (hs : s.usedFrames < 2 ^ 32) :
    (es.foldl releaseBody s).usedFrames < 2 ^ 32 := by
  induction es generalizing s with
  | nil => exact hs
  | cons e es ih => exact ih (used_lt_releaseBody hs e)

/-! ## The counter after `pmm_init` -/

section

variable {es : List MmapEntry} (hend : ∀ e ∈ es, e.addr + e.len ≤ 0xFFFFF000)
include hend

/-- After the second walk the bit of a frame is set iff no entry covers the frame. -/
theorem bit_walked_iff (s : Pmm) {f : ℕ} (hlt : f < s.totalFrames)
    (hset : bit s.frameBitmap f = true) :
    bit (es.foldl releaseBody s).frameBitmap f = true ↔ coverings es f = 0 := by
  rw [foldl_releaseBody_bit, coverings, List.countP_eq_zero]
  simp only [hset, true_and, decide_eq_true_eq, releases_iff, hlt, and_true]
  constructor
  · intro h e he hholds
    exact h e he ((narrowedHolds_iff (hend e he) f).mpr hholds)
  · intro h e he hholds
    exact h e he ((narrowedHolds_iff (hend e he) f).mp hholds)

/-- The frames counted down more than once are what the counter loses. -/
theorem used_walked {s : Pmm} (hused : s.usedFrames = s.totalFrames)
    (hset : ∀ f < s.totalFrames, bit s.frameBitmap f = true) :
    (es.foldl releaseBody s).usedFrames +
        ∑ f ∈ Finset.range s.totalFrames, (coverings es f - 1) ≡
      count (bit (es.foldl releaseBody s).frameBitmap) s.totalFrames [MOD 2 ^ 32] := by
  have hwalk := foldl_releaseBody_used s hend
  -- frame by frame, the coverings and the set bit make one more than the surplus
  have hsum : ∑ f ∈ Finset.range s.totalFrames, coverings es f +
      count (bit (es.foldl releaseBody s).frameBitmap) s.totalFrames =
      ∑ f ∈ Finset.range s.totalFrames, (coverings es f - 1) + s.totalFrames := by
    have hones : s.totalFrames = ∑ _f ∈ Finset.range s.totalFrames, 1 := by simp
    conv_rhs => rhs; rw [hones]
    rw [count, Finset.card_filter, ← Finset.sum_add_distrib, ← Finset.sum_add_distrib]
    apply Finset.sum_congr rfl
    intro f hf
    have hlt := Finset.mem_range.mp hf
    simp only [bit_walked_iff hend s hlt (hset f hlt)]
    split_ifs <;> omega
  apply Nat.ModEq.add_right_cancel' s.totalFrames
  rw [Nat.add_assoc, ← hsum, ← Nat.add_assoc, Nat.add_comm (count _ _)]
  rw [hused] at hwalk
  exact hwalk.add_right _

theorem sum_coverings_eq_surplus (s : Pmm) :
    ∑ f ∈ Finset.range (bootPmm s es).totalFrames, (coverings es f - 1) = surplus es := by
  have htotal : (bootPmm s es).totalFrames ≤ 131072 := by
    rw [bootPmm_totalFrames]
    omega
  apply Finset.sum_subset (Finset.range_mono htotal)
  intro f hf hnot
  have hzero : coverings es f = 0 := by
    rw [coverings, List.countP_eq_zero]
    intro e he hholds
    apply hnot
    apply Finset.mem_range.mpr
    apply lt_total_of_narrowedHolds s he (Finset.mem_range.mp hf)
    exact (narrowedHolds_iff (hend e he) f).mpr (of_decide_eq_true hholds)
  rw [hzero, Nat.zero_sub]

/-- After `pmm_init` the counter lacks the surplus. -/
theorem drifted_bootPmm (s : Pmm) : Drifted (bootPmm s es) (surplus es) := by
  set s₁ := allUsed s (es.foldl memEndBody 0 / pageSize) with hs₁
  have hall := accounted_allUsed s (es.foldl memEndBody 0 / pageSize)
  rw [← hs₁] at hall
  have htotal := hall.total_le
  have hset : ∀ f < s₁.totalFrames, bit s₁.frameBitmap f = true := by
    intro f hf
    exact allUsed_bit s _ (hf.trans_le htotal)
  have hwalked : (es.foldl releaseBody s₁).totalFrames = s₁.totalFrames :=
    foldl_releaseBody_totalFrames es s₁
  have hsurplus : surplus es = ∑ f ∈ Finset.range s₁.totalFrames, (coverings es f - 1) := by
    rw [← sum_coverings_eq_surplus hend s, bootPmm, foldl_reserveBody_totalFrames, ← hs₁, hwalked]
  have hdrift : Drifted (es.foldl releaseBody s₁) (surplus es) := by
    refine ⟨?_, ?_, hwalked ▸ htotal, ?_⟩
    · rw [hwalked, hsurplus]
      exact used_walked hend rfl hset
    · apply used_lt_foldl_releaseBody
      exact hall.used_le.trans_lt (by omega)
    · intro f hf hlt
      rw [hwalked] at hf
      rw [foldl_releaseBody_bit]
      exact ⟨hall.above_set f hf hlt, fun e _ hrel => absurd hrel.2.2.2 (Nat.not_lt.mpr hf)⟩
  apply drifted_foldl_reserveBody hdrift
  intro i hi
  have := List.mem_range.mp hi
  omega

end

/-- After `pmm_init` on any memory map of regions that end at or below `0xFFFFF000`,
    `used_frames` is the number of set bits below `total_frames` (and so at most
    `total_frames`) iff the coverings beyond the first, over all frames, add up to a
    multiple of `2 ^ 32`. -/
theorem initial_accounting_iff (mem : Mem) (mbi : MultibootInfo) (es : List MmapEntry)
    (hmap : MemoryMap mem mbi es) (hend : ∀ e ∈ es, e.addr + e.len ≤ 0xFFFFF000) (s₀ : Pmm) :
    ∃ s, (∃ n, ∀ fuel > n, pmmInit fuel mem mbi s₀ = some s) ∧
      ((s.usedFrames = count (bit s.frameBitmap) s.totalFrames ∧ s.usedFrames ≤ s.totalFrames) ↔
        2 ^ 32 ∣ surplus es) := by
  have hdrift := drifted_bootPmm hend s₀
  refine ⟨bootPmm s₀ es, ⟨es.length, fun _ hfuel => pmmInit_eq hmap s₀ hfuel⟩, ?_⟩
  rw [← hdrift.used_eq_iff]
  apply and_iff_left_of_imp
  intro hused
  rw [hused]
  exact count_le _ _

/-- With fewer than `2 ^ 15` entries the surplus does not wrap: no two of them may
    cover one frame. -/
theorem dvd_surplus_iff {es : List MmapEntry} (hlen : es.length < 2 ^ 15) :
    2 ^ 32 ∣ surplus es ↔ ∀ f < 131072, coverings es f ≤ 1 := by
  have hle : surplus es ≤ 131072 * es.length := by
    have hsum : surplus es ≤ ∑ _f ∈ Finset.range 131072, es.length := by
      apply Finset.sum_le_sum
      intro f _
      exact (Nat.sub_le _ _).trans List.countP_le_length
    rwa [Finset.sum_const, Finset.card_range, smul_eq_mul] at hsum
  have hzero : 2 ^ 32 ∣ surplus es ↔ surplus es = 0 := by
    constructor
    · intro hdvd
      exact Nat.eq_zero_of_dvd_of_lt hdvd (by omega)
    · intro h
      rw [h]
      exact dvd_zero _
  rw [hzero, surplus, Finset.sum_eq_zero_iff]
  simp only [Finset.mem_range, Nat.sub_eq_zero_iff_le]

theorem mem_region_of_holds {e : MmapEntry} {f : ℕ} (h : e.Holds f) : f * pageSize ∈ e.region := by
  obtain ⟨-, hstart, hend⟩ := h
  unfold pageSize at *
  exact ⟨hstart, by omega⟩

/-- Disjoint regions leave no surplus. -/
theorem coverings_le_one {es : List MmapEntry}
    (hdisj : es.Pairwise fun d e => Disjoint d.region e.region) (f : ℕ) : coverings es f ≤ 1 := by
  induction es with
  | nil => exact Nat.zero_le 1
  | cons e es ih =>
    rw [List.pairwise_cons] at hdisj
    rw [coverings, List.countP_cons]
    split_ifs with hholds
    · have hzero : es.countP (fun d => d.Holds f) = 0 := by
        rw [List.countP_eq_zero]
        intro d hd hholds'
        exact Set.disjoint_left.mp (hdisj.1 d hd) (mem_region_of_holds (of_decide_eq_true hholds))
          (mem_region_of_holds (of_decide_eq_true hholds'))
      rw [hzero]
    · exact ih hdisj.2

/-- The small map has no frame in two regions. -/
theorem initial_accounting_iff_small :
    ∃ s, (∃ n, ∀ fuel > n, pmmInit fuel smallMem smallInfo ⟨fun _ => 0, 0, 0⟩ = some s) ∧
      s.usedFrames = count (bit s.frameBitmap) s.totalFrames ∧ s.usedFrames ≤ s.totalFrames := by
  obtain ⟨s, hinit, hiff⟩ := initial_accounting_iff smallMem smallInfo smallMap memoryMap_small
    (by decide) ⟨fun _ => 0, 0, 0⟩
  exact ⟨s, hinit, hiff.mpr ((dvd_surplus_iff (by decide)).mpr fun f _ =>
    coverings_le_one disjoint_smallMap f)⟩

/-- A map that lists the 64 KiB above one megabyte twice. -/
def twiceMap : List MmapEntry := [⟨20, 0x100000, 0x10000, 1⟩, ⟨20, 0x100000, 0x10000, 1⟩]

def twiceMem : Mem :=
  wordsAt 0x9000 [20, 0x100000, 0, 0x10000, 0, 1, 20, 0x100000, 0, 0x10000, 0, 1]

theorem memoryMap_twice : MemoryMap twiceMem smallInfo twiceMap where
  present := by decide
  entries := ⟨by decide +kernel, by decide +kernel, trivial⟩
  length_eq := by decide
  fits := by decide

/-- Its sixteen frames are counted down twice. -/
theorem repeated_region_miscounted :
    ∃ s, (∃ n, ∀ fuel > n, pmmInit fuel twiceMem smallInfo ⟨fun _ => 0, 0, 0⟩ = some s) ∧
      (∀ e ∈ twiceMap, e.addr + e.len ≤ 0xFFFFF000) ∧ s.totalFrames = 272 ∧ s.usedFrames = 240 ∧
      s.usedFrames ≠ count (bit s.frameBitmap) s.totalFrames := by
  have hend : ∀ e ∈ twiceMap, e.addr + e.len ≤ 0xFFFFF000 := by decide
  refine ⟨bootPmm ⟨fun _ => 0, 0, 0⟩ twiceMap,
    ⟨2, fun _ hfuel => pmmInit_eq memoryMap_twice _ hfuel⟩, hend, ?_, by decide +kernel, ?_⟩
  · rw [bootPmm_totalFrames]
    decide
  · rw [ne_eq, (drifted_bootPmm hend _).used_eq_iff, dvd_surplus_iff (by decide)]
    intro h
    exact absurd (h 256 (by decide)) (by decide)

end NexusKernel.Memory
