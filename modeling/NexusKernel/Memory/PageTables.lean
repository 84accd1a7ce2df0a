import NexusKernel.Memory.PmmAccounting
import NexusKernel.Memory.Vmm

/-!
# Page tables refine a partial map of pages

One directory, any source of frames. As long as the directory's object and its
page tables lie in different frames that are in use, and the source never returns
a frame in use, the two-level tables are a partial map from pages to frames.

Results:
* `directoryTables_enterTable`: entering a new table keeps the frames apart and
  changes no translation.
* `pageFrame_storeEntry`: a store into a table changes one page only.
* `page_tables_refine_page_map`: after every sequence of maps and unmaps the
  translation of an address is the last successful map of its page.
-/

namespace NexusKernel.Memory

open Bitmap

/-! ## Frames -/

/-- A source of page frames: what `pmm_alloc_frame` may do. It returns 0 or a
    frame address, and never that of a frame in use. -/
structure FrameSource (σ : Type) where
  alloc : σ → ℕ × σ
  inUse : σ → Set ℕ
  mono : ∀ s, inUse s ⊆ inUse (alloc s).2
  aligned : ∀ s, (alloc s).1 % 4096 = 0
  lt : ∀ s, (alloc s).1 < 2 ^ 32
  fresh : ∀ s, (alloc s).1 ≠ 0 → (alloc s).1 / 4096 ∉ inUse s
  taken : ∀ s, (alloc s).1 ≠ 0 → (alloc s).1 / 4096 ∈ inUse (alloc s).2

variable {σ : Type} {A : FrameSource σ} {s : Vm σ} {dir : ℕ}

/-- The object at `dir` and the tables it names occupy pairwise different frames,
    all in use. -/
structure DirectoryTables (A : FrameSource σ) (s : Vm σ) (dir : ℕ) : Prop where
  aligned : dir % 4096 = 0
  object_used : ∀ j < 3, dir / 4096 + j ∈ A.inUse s.pmm
  table_used : ∀ i < 1024, Present s.mem dir i → tableOf s.mem dir i / 4096 ∈ A.inUse s.pmm
  table_apart : ∀ i < 1024, Present s.mem dir i → ∀ j < 3,
    tableOf s.mem dir i / 4096 ≠ dir / 4096 + j
  table_inj : ∀ i < 1024, ∀ k < 1024, Present s.mem dir i → Present s.mem dir k →
    tableOf s.mem dir i / 4096 = tableOf s.mem dir k / 4096 → i = k
  table_ne_zero : ∀ i < 1024, Present s.mem dir i → tableOf s.mem dir i ≠ 0

/-! ## Entering a table -/

section

variable {i flags t : ℕ}

/-- Only the directory's first two frames and the table's own are written. -/
theorem read32_enterTable_of_frame (hdir : dir % 4096 = 0) (hi : i < 1024) (ht : t % 4096 = 0)
    {y : ℕ} (hy : y % 4 = 0) (hyt : y / 4096 ≠ t / 4096) (hy0 : y / 4096 ≠ dir / 4096)
    (hy1 : y / 4096 ≠ dir / 4096 + 1) :
    read32 (enterTable s dir i flags t).mem y = read32 s.mem y := by
  simp only [enterTable, Vm.clear, Vm.store32, entryAddr, tableAddr, pageSize]
  rw [read32_fill_of_disjoint (by omega), read32_write32_of_disjoint (by omega),
    read32_write32_of_disjoint (by omega)]

theorem read32_enterTable_table {j : ℕ} (hj : j < 1024) :
    read32 (enterTable s dir i flags t).mem (t + 4 * j) = 0 := by
  simp only [enterTable, Vm.clear, pageSize]
  exact read32_fill_zero (by omega) (by omega)

theorem dirEntry_enterTable (hdir : dir % 4096 = 0) (ht : t % 4096 = 0) (hlt : t < 2 ^ 32)
    (hflags : flags < 0x1000) (hne : t / 4096 ≠ dir / 4096) {k : ℕ} (hk : k < 1024) :
    dirEntry (enterTable s dir i flags t).mem dir k =
      if k = i then t ||| flags ||| pagePresent ||| pageWritable else dirEntry s.mem dir k := by
  have hentry : t ||| flags ||| pagePresent ||| pageWritable < 2 ^ 32 := by
    refine Nat.or_lt_two_pow (Nat.or_lt_two_pow (Nat.or_lt_two_pow hlt ?_) ?_) ?_
    · omega
    · decide
    · decide
  simp only [enterTable, Vm.clear, Vm.store32, dirEntry, entryAddr, tableAddr, pageSize]
  rw [read32_fill_of_disjoint (by omega), read32_write32_of_disjoint (by omega)]
  split_ifs with hki
  · rw [hki, read32_write32_of_lt hentry]
  · exact read32_write32_of_disjoint (by omega)

theorem present_newEntry : (t ||| flags ||| pagePresent ||| pageWritable) &&& pagePresent ≠ 0 := by
  rw [Nat.or_right_comm]
  exact or_pagePresent_and _

theorem newEntry_and_pageMask (ht : t % 4096 = 0) (hlt : t < 2 ^ 32) (hflags : flags < 0x1000) :
    (t ||| flags ||| pagePresent ||| pageWritable) &&& 0xFFFFF000 = t := by
  rw [Nat.or_assoc, Nat.or_assoc]
  refine or_low_and_pageMask ht hlt ?_
  exact Nat.or_lt_two_pow (n := 12) hflags (by decide)

/-- The state of the machine when a fresh frame `t` has been entered as table `i`. -/
theorem present_enterTable (hs : DirectoryTables A s dir) (hflags : flags < 0x1000)
    (ht : t = (A.alloc s.pmm).1) (ht0 : t ≠ 0) {k : ℕ} (hk : k < 1024) :
    (Present (enterTable { s with pmm := (A.alloc s.pmm).2 } dir i flags t).mem dir k ↔
      k = i ∨ Present s.mem dir k) ∧
    tableOf (enterTable { s with pmm := (A.alloc s.pmm).2 } dir i flags t).mem dir k =
      if k = i then t else tableOf s.mem dir k := by
  have halign : t % 4096 = 0 := ht ▸ A.aligned s.pmm
  have hlt : t < 2 ^ 32 := ht ▸ A.lt s.pmm
  have hne : t / 4096 ≠ dir / 4096 := by
    intro h
    have hfresh := A.fresh s.pmm (ht ▸ ht0)
    rw [← ht, h] at hfresh
    exact hfresh (hs.object_used 0 (by norm_num))
  unfold Present tableOf
  rw [dirEntry_enterTable hs.aligned halign hlt hflags hne hk]
  split_ifs with hki
  · exact ⟨by simp [hki, present_newEntry], newEntry_and_pageMask halign hlt hflags⟩
  · exact ⟨by simp [hki], rfl⟩

/-- Entering a fresh table keeps all frames apart. -/
theorem directoryTables_enterTable (hs : DirectoryTables A s dir) (hflags : flags < 0x1000)
    (ht : t = (A.alloc s.pmm).1) (ht0 : t ≠ 0) :
    DirectoryTables A (enterTable { s with pmm := (A.alloc s.pmm).2 } dir i flags t) dir := by
  have hfresh : t / 4096 ∉ A.inUse s.pmm := ht ▸ A.fresh s.pmm (ht ▸ ht0)
  have htaken : t / 4096 ∈ A.inUse (A.alloc s.pmm).2 := ht ▸ A.taken s.pmm (ht ▸ ht0)
  have hold : ∀ k < 1024, k ≠ i →
      Present (enterTable { s with pmm := (A.alloc s.pmm).2 } dir i flags t).mem dir k →
      Present s.mem dir k := by
    intro k hk hki h
    exact ((present_enterTable hs hflags ht ht0 hk).1.mp h).resolve_left hki
  refine ⟨hs.aligned, fun j hj => A.mono _ (hs.object_used j hj), ?_, ?_, ?_, ?_⟩
  · intro k hk hp
    rw [(present_enterTable hs hflags ht ht0 hk).2]
    split_ifs with hki
    · exact htaken
    · exact A.mono _ (hs.table_used k hk (hold k hk hki hp))
  · intro k hk hp j hj
    rw [(present_enterTable hs hflags ht ht0 hk).2]
    split_ifs with hki
    · intro h
      exact hfresh (h ▸ hs.object_used j hj)
    · exact hs.table_apart k hk (hold k hk hki hp) j hj
  · intro k hk l hl hpk hpl
    rw [(present_enterTable hs hflags ht ht0 hk).2, (present_enterTable hs hflags ht ht0 hl).2]
    split_ifs with hki hli hli
    · intro _
      rw [hki, hli]
    · intro h
      exact absurd (h ▸ hs.table_used l hl (hold l hl hli hpl)) hfresh
    · intro h
      exact absurd (h ▸ hs.table_used k hk (hold k hk hki hpk)) hfresh
    · exact hs.table_inj k hk l hl (hold k hk hki hpk) (hold l hl hli hpl)
  · intro k hk hp
    rw [(present_enterTable hs hflags ht ht0 hk).2]
    split_ifs with hki
    · exact ht0
    · exact hs.table_ne_zero k hk (hold k hk hki hp)

/-- Entering a fresh table changes no entry of another. -/
theorem pageEntry_enterTable (hs : DirectoryTables A s dir) (hi : i < 1024)
    (hnew : ¬ Present s.mem dir i) (hflags : flags < 0x1000) (ht : t = (A.alloc s.pmm).1)
    (ht0 : t ≠ 0) {n : ℕ} (hn : n < 2 ^ 20) (hp : Present s.mem dir (n / 1024)) :
    pageEntry (enterTable { s with pmm := (A.alloc s.pmm).2 } dir i flags t).mem dir n =
      pageEntry s.mem dir n := by
  have hk : n / 1024 < 1024 := by omega
  have hki : n / 1024 ≠ i := by
    rintro rfl
    exact hnew hp
  have halign : t % 4096 = 0 := ht ▸ A.aligned s.pmm
  have hfresh : t / 4096 ∉ A.inUse s.pmm := ht ▸ A.fresh s.pmm (ht ▸ ht0)
  have hused := hs.table_used _ hk hp
  have hmod := tableOf_aligned s.mem dir (n / 1024)
  have h0 := hs.table_apart _ hk hp 0 (by norm_num)
  have h1 := hs.table_apart _ hk hp 1 (by norm_num)
  have hyt : tableOf s.mem dir (n / 1024) / 4096 ≠ t / 4096 := by
    intro h
    exact hfresh (h ▸ hused)
  rw [pageEntry, (present_enterTable hs hflags ht ht0 hk).2, if_neg hki,
    read32_enterTable_of_frame hs.aligned hi halign (by omega) (by omega) (by omega) (by omega)]
  rfl

/-- Entering a fresh table changes no translation: its pages were unmapped, and
    all its entries are zero. -/
theorem pageFrame_enterTable (hs : DirectoryTables A s dir) (hi : i < 1024)
    (hnew : ¬ Present s.mem dir i) (hflags : flags < 0x1000) (ht : t = (A.alloc s.pmm).1)
    (ht0 : t ≠ 0) {n : ℕ} (hn : n < 2 ^ 20) :
    pageFrame (enterTable { s with pmm := (A.alloc s.pmm).2 } dir i flags t).mem dir n =
      pageFrame s.mem dir n := by
  have hk : n / 1024 < 1024 := by omega
  obtain ⟨hpresent, htable⟩ := present_enterTable (i := i) hs hflags ht ht0 hk
  by_cases hki : n / 1024 = i
  · rw [pageFrame_of_present (hpresent.mpr (Or.inl hki)), pageFrame_of_not_present (hki ▸ hnew),
      pageEntry, htable, if_pos hki, read32_enterTable_table (by omega)]
    rfl
  · by_cases hp : Present s.mem dir (n / 1024)
    · rw [pageFrame_of_present (hpresent.mpr (Or.inr hp)), pageFrame_of_present hp,
        pageEntry_enterTable hs hi hnew hflags ht ht0 hn hp]
    · rw [pageFrame_of_not_present (by rw [hpresent]; tauto), pageFrame_of_not_present hp]

end

/-! ## Storing an entry -/

section

variable {i j w : ℕ}

/-- A store into table `i` leaves the directory alone. -/
theorem dirEntry_storeEntry (hs : DirectoryTables A s dir) (hi : i < 1024)
    (hp : Present s.mem dir i) (hj : j < 1024) {k : ℕ} (hk : k < 1024) :
    dirEntry (write32 s.mem (tableOf s.mem dir i + 4 * j) w) dir k = dirEntry s.mem dir k := by
  have hmod := tableOf_aligned s.mem dir i
  have hapart := hs.table_apart i hi hp 0 (by norm_num)
  have hdir := hs.aligned
  unfold dirEntry entryAddr
  exact read32_write32_of_disjoint (by omega)

theorem present_storeEntry (hs : DirectoryTables A s dir) (hi : i < 1024)
    (hp : Present s.mem dir i) (hj : j < 1024) {k : ℕ} (hk : k < 1024) :
    Present (s.store32 (tableOf s.mem dir i + 4 * j) w).mem dir k ↔ Present s.mem dir k := by
  show dirEntry (write32 s.mem (tableOf s.mem dir i + 4 * j) w) dir k &&& pagePresent ≠ 0 ↔ _
  rw [dirEntry_storeEntry hs hi hp hj hk]
  rfl

theorem tableOf_storeEntry (hs : DirectoryTables A s dir) (hi : i < 1024)
    (hp : Present s.mem dir i) (hj : j < 1024) {k : ℕ} (hk : k < 1024) :
    tableOf (s.store32 (tableOf s.mem dir i + 4 * j) w).mem dir k = tableOf s.mem dir k := by
  show dirEntry (write32 s.mem (tableOf s.mem dir i + 4 * j) w) dir k &&& 0xFFFFF000 = _
  rw [dirEntry_storeEntry hs hi hp hj hk]
  rfl

theorem directoryTables_storeEntry (hs : DirectoryTables A s dir) (hi : i < 1024)
    (hp : Present s.mem dir i) (hj : j < 1024) :
    DirectoryTables A (s.store32 (tableOf s.mem dir i + 4 * j) w) dir := by
  refine ⟨hs.aligned, hs.object_used, ?_, ?_, ?_, ?_⟩
  · intro k hk
    rw [present_storeEntry hs hi hp hj hk, tableOf_storeEntry hs hi hp hj hk]
    exact hs.table_used k hk
  · intro k hk
    rw [present_storeEntry hs hi hp hj hk, tableOf_storeEntry hs hi hp hj hk]
    exact hs.table_apart k hk
  · intro k hk l hl
    rw [present_storeEntry hs hi hp hj hk, tableOf_storeEntry hs hi hp hj hk,
      present_storeEntry hs hi hp hj hl, tableOf_storeEntry hs hi hp hj hl]
    exact hs.table_inj k hk l hl
  · intro k hk
    rw [present_storeEntry hs hi hp hj hk, tableOf_storeEntry hs hi hp hj hk]
    exact hs.table_ne_zero k hk

/-- A store into a table changes the entry of one page and no other. -/
theorem pageEntry_storeEntry (hs : DirectoryTables A s dir) (hi : i < 1024)
    (hp : Present s.mem dir i) (hj : j < 1024) (hw : w < 2 ^ 32) {n : ℕ} (hn : n < 2 ^ 20)
    (hpn : Present s.mem dir (n / 1024)) :
    pageEntry (s.store32 (tableOf s.mem dir i + 4 * j) w).mem dir n =
      if n = 1024 * i + j then w else pageEntry s.mem dir n := by
  have hk : n / 1024 < 1024 := by omega
  rw [pageEntry, tableOf_storeEntry hs hi hp hj hk]
  show read32 (write32 s.mem (tableOf s.mem dir i + 4 * j) w) _ = _
  split_ifs with hnij
  · rw [show n / 1024 = i by omega, show n % 1024 = j by omega, read32_write32_of_lt hw]
  · -- another word of the same table, or a word of another table
    have halign := tableOf_aligned s.mem dir i
    have halign' := tableOf_aligned s.mem dir (n / 1024)
    have hinj := hs.table_inj i hi (n / 1024) hk hp hpn
    rw [read32_write32_of_disjoint (by omega)]
    rfl

/-- A store into a table changes the frame of one page and no other. -/
theorem pageFrame_storeEntry (hs : DirectoryTables A s dir) (hi : i < 1024)
    (hp : Present s.mem dir i) (hj : j < 1024) (hw : w < 2 ^ 32) {n : ℕ} (hn : n < 2 ^ 20) :
    pageFrame (s.store32 (tableOf s.mem dir i + 4 * j) w).mem dir n =
      if n = 1024 * i + j then decodeEntry w else pageFrame s.mem dir n := by
  have hk : n / 1024 < 1024 := by omega
  have hiff := present_storeEntry (w := w) hs hi hp hj hk
  by_cases hpn : Present s.mem dir (n / 1024)
  · rw [pageFrame_of_present (hiff.mpr hpn), pageFrame_of_present hpn,
      pageEntry_storeEntry hs hi hp hj hw hn hpn]
    split_ifs <;> rfl
  · have hne : n ≠ 1024 * i + j := by
      intro h
      rw [show n / 1024 = i by omega] at hpn
      exact hpn hp
    rw [pageFrame_of_not_present (mt hiff.mp hpn), pageFrame_of_not_present hpn, if_neg hne]

end

/-! ## Maps and unmaps -/

theorem newPageEntry_lt (phys flags : ℕ) : newPageEntry phys flags < 2 ^ 32 := by
  refine Nat.or_lt_two_pow (Nat.or_lt_two_pow ?_ ?_) (by decide)
  · exact Nat.and_lt_two_pow _ (by norm_num)
  · exact Nat.and_lt_two_pow _ (by norm_num)

theorem decodeEntry_newPageEntry {phys flags : ℕ} (hphys : phys < 2 ^ 32) :
    decodeEntry (newPageEntry phys flags) = some (phys &&& 0xFFFFF000) := by
  have hlow : flags &&& 0xFFF ||| pagePresent < 4096 :=
    Nat.or_lt_two_pow (n := 12) (Nat.and_lt_two_pow _ (by norm_num)) (by decide)
  unfold decodeEntry newPageEntry
  rw [if_neg (or_pagePresent_and _), Nat.or_assoc, or_low_and_pageMask _ _ hlow]
  · rw [and_pageMask hphys]; omega
  · rw [and_pageMask hphys]; omega

/-- One call on the directory. -/
inductive PageOp where
  | map (virt phys flags : ℕ)
  | unmap (virt : ℕ)

/-- The arguments are 32-bit words, the flags below `0x1000`. -/
def PageOp.Valid : PageOp → Prop
  | .map virt phys flags => virt < 2 ^ 32 ∧ phys < 2 ^ 32 ∧ flags < 0x1000
  | .unmap virt => virt < 2 ^ 32

/-- The page the call is about. -/
def PageOp.page : PageOp → ℕ
  | .map virt _ _ => virt / 4096
  | .unmap virt => virt / 4096

def pageStep (A : FrameSource σ) (dir : ℕ) (s : Vm σ) : PageOp → Vm σ
  | .map virt phys flags => vmmMapPage A.alloc s dir virt phys flags
  | .unmap virt => vmmUnmapPage s dir virt

/-- The call finds or gets a page table; an unmap always succeeds. -/
def succeeds (A : FrameSource σ) (dir : ℕ) (s : Vm σ) : PageOp → Bool
  | .map virt _ flags => (getOrCreateTable A.alloc s dir (tableIdx virt) flags).1 ≠ 0
  | .unmap _ => true

/-- What a call with outcome `ok` makes of the frame `m` of page `n`, in a partial
    map of pages. -/
def mapUpdate (n : ℕ) (m : Option ℕ) : PageOp × Bool → Option ℕ
  | (.map virt phys _, ok) => if ok ∧ n = virt / 4096 then some (phys &&& 0xFFFFF000) else m
  | (.unmap virt, _) => if n = virt / 4096 then none else m

variable {virt phys flags : ℕ}

/-- Mapping a page whose table is there. -/
theorem map_of_present (hs : DirectoryTables A s dir) (hvirt : virt < 2 ^ 32) (hphys : phys < 2 ^ 32)
    (flags : ℕ) (hp : Present s.mem dir (tableIdx virt)) :
    DirectoryTables A (s.store32 (tableOf s.mem dir (tableIdx virt) + 4 * pageIdx virt)
      (newPageEntry phys flags)) dir ∧
    ∀ n < 2 ^ 20, pageFrame (s.store32 (tableOf s.mem dir (tableIdx virt) + 4 * pageIdx virt)
      (newPageEntry phys flags)).mem dir n =
      if n = virt / 4096 then some (phys &&& 0xFFFFF000) else pageFrame s.mem dir n := by
  have hi := tableIdx_lt hvirt
  have hj := pageIdx_lt virt
  have hpage : 1024 * tableIdx virt + pageIdx virt = virt / 4096 := by
    rw [tableIdx_eq, pageIdx_eq]; omega
  refine ⟨directoryTables_storeEntry hs hi hp hj, ?_⟩
  intro n hn
  rw [pageFrame_storeEntry hs hi hp hj (newPageEntry_lt _ _) hn, hpage,
    decodeEntry_newPageEntry hphys]

/-- A map that gets no table changes nothing but the allocator. -/
theorem vmmMapPage_of_fail (hs : DirectoryTables A s dir) (hvirt : virt < 2 ^ 32)
    (hfail : (getOrCreateTable A.alloc s dir (tableIdx virt) flags).1 = 0) :
    vmmMapPage A.alloc s dir virt phys flags = { s with pmm := (A.alloc s.pmm).2 } := by
  have hi := tableIdx_lt hvirt
  by_cases hp : Present s.mem dir (tableIdx virt)
  · rw [getOrCreateTable_present hp] at hfail
    exact absurd hfail (hs.table_ne_zero _ hi hp)
  · by_cases ht : (A.alloc s.pmm).1 = 0
    · exact vmmMapPage_full hp ht
    · rw [getOrCreateTable_fresh hp ht] at hfail
      exact absurd hfail ht

/-- After its lookup has succeeded, a map works in a directory with its table
    present and the translations unchanged. -/
theorem getOrCreateTable_spec (hs : DirectoryTables A s dir) {i : ℕ} (hi : i < 1024)
    (hflags : flags < 0x1000) (hok : (getOrCreateTable A.alloc s dir i flags).1 ≠ 0) :
    ∃ t, getOrCreateTable A.alloc s dir i flags = (tableOf t.mem dir i, t) ∧
      DirectoryTables A t dir ∧ Present t.mem dir i ∧
      ∀ n < 2 ^ 20, pageFrame t.mem dir n = pageFrame s.mem dir n := by
  by_cases hp : Present s.mem dir i
  · exact ⟨s, getOrCreateTable_present hp, hs, hp, fun _ _ => rfl⟩
  · by_cases ht : (A.alloc s.pmm).1 = 0
    · rw [getOrCreateTable_full hp ht] at hok
      exact absurd rfl hok
    · obtain ⟨hpresent, htable⟩ := present_enterTable (i := i) hs hflags rfl ht hi
      refine ⟨_, ?_, directoryTables_enterTable hs hflags rfl ht,
        hpresent.mpr (Or.inl rfl), fun n hn => pageFrame_enterTable hs hi hp hflags rfl ht hn⟩
      rw [getOrCreateTable_fresh hp ht, htable, if_pos rfl]

/-- One call keeps the frames apart and acts on the partial map of pages. -/
theorem pageStep_refines (hs : DirectoryTables A s dir) {op : PageOp} (hop : op.Valid) :
    DirectoryTables A (pageStep A dir s op) dir ∧
      ∀ n < 2 ^ 20, pageFrame (pageStep A dir s op).mem dir n =
        mapUpdate n (pageFrame s.mem dir n) (op, succeeds A dir s op) := by
  cases op with
  | map virt phys flags =>
    obtain ⟨hvirt, hphys, hflags⟩ := hop
    have hi := tableIdx_lt hvirt
    by_cases hok : (getOrCreateTable A.alloc s dir (tableIdx virt) flags).1 = 0
    · have hstep : pageStep A dir s (.map virt phys flags) =
          { s with pmm := (A.alloc s.pmm).2 } := vmmMapPage_of_fail hs hvirt hok
      rw [hstep]
      refine ⟨⟨hs.aligned, fun j hj => A.mono _ (hs.object_used j hj),
        fun i hi hp => A.mono _ (hs.table_used i hi hp), hs.table_apart, hs.table_inj,
        hs.table_ne_zero⟩, ?_⟩
      intro n _
      simp [mapUpdate, succeeds, hok]
    · obtain ⟨t, heq, ht, hp, hsame⟩ := getOrCreateTable_spec hs hi hflags hok
      have hstep : pageStep A dir s (.map virt phys flags) =
          t.store32 (tableOf t.mem dir (tableIdx virt) + 4 * pageIdx virt)
            (newPageEntry phys flags) := by
        show vmmMapPage A.alloc s dir virt phys flags = _
        rw [vmmMapPage_eq, if_pos hok, heq]
      obtain ⟨htables, hframes⟩ := map_of_present ht hvirt hphys flags hp
      rw [hstep]
      refine ⟨htables, ?_⟩
      intro n hn
      rw [hframes n hn, hsame n hn]
      simp [mapUpdate, succeeds, hok]
  | unmap virt =>
    have hvirt : virt < 2 ^ 32 := hop
    have hi := tableIdx_lt hvirt
    have hj := pageIdx_lt virt
    have hpage : 1024 * tableIdx virt + pageIdx virt = virt / 4096 := by
      rw [tableIdx_eq, pageIdx_eq]; omega
    by_cases hp : Present s.mem dir (tableIdx virt)
    · have hstep : pageStep A dir s (.unmap virt) =
          s.store32 (tableOf s.mem dir (tableIdx virt) + 4 * pageIdx virt) 0 := if_neg hp
      rw [hstep]
      refine ⟨directoryTables_storeEntry hs hi hp hj, ?_⟩
      intro n hn
      rw [pageFrame_storeEntry hs hi hp hj (by norm_num) hn, hpage]
      rfl
    · have hstep : pageStep A dir s (.unmap virt) = s := if_pos (not_not.mp hp)
      rw [hstep]
      refine ⟨hs, ?_⟩
      intro n _
      -- a page without a table is not mapped
      show _ = if n = virt / 4096 then none else pageFrame s.mem dir n
      split_ifs with hn
      · rw [pageFrame, hn, ← tableIdx_eq, if_neg hp]
      · rfl

/-! ## Every sequence of calls -/

def pageRun (A : FrameSource σ) (dir : ℕ) (s : Vm σ) (ops : List PageOp) : Vm σ :=
  ops.foldl (pageStep A dir) s

/-- The calls of a sequence with their outcomes, oldest first. -/
def history (A : FrameSource σ) (dir : ℕ) : Vm σ → List PageOp → List (PageOp × Bool)
  | _, [] => []
  | s, op :: ops => (op, succeeds A dir s op) :: history A dir (pageStep A dir s op) ops

/-- The frame of page `n` by its last successful map in `h` that no unmap of the
    page follows. -/
def lastMapped (h : List (PageOp × Bool)) (n : ℕ) : Option ℕ := h.foldl (mapUpdate n) none

/-- A directory with no present entry, whose object lies in three frames in use. -/
structure EmptyDirectory (A : FrameSource σ) (s : Vm σ) (dir : ℕ) : Prop where
  aligned : dir % 4096 = 0
  fits : dir + directorySize ≤ 2 ^ 32
  object_used : ∀ j < 3, dir / 4096 + j ∈ A.inUse s.pmm
  not_present : ∀ i < 1024, ¬ Present s.mem dir i

theorem EmptyDirectory.directoryTables (hs : EmptyDirectory A s dir) :
    DirectoryTables A s dir where
  aligned := hs.aligned
  object_used := hs.object_used
  table_used := fun i hi hp => absurd hp (hs.not_present i hi)
  table_apart := fun i hi hp => absurd hp (hs.not_present i hi)
  table_inj := fun i hi _ _ hp => absurd hp (hs.not_present i hi)
  table_ne_zero := fun i hi hp => absurd hp (hs.not_present i hi)

theorem EmptyDirectory.pageFrame_eq_none (hs : EmptyDirectory A s dir) {n : ℕ} (hn : n < 2 ^ 20) :
    pageFrame s.mem dir n = none := if_neg (hs.not_present _ (by omega))

/-- A run keeps the frames apart and folds its outcomes into the map of pages. -/
theorem pageRun_refines (hs : DirectoryTables A s dir) {ops : List PageOp}
    (hops : ∀ op ∈ ops, op.Valid) :
    DirectoryTables A (pageRun A dir s ops) dir ∧
      ∀ n < 2 ^ 20, pageFrame (pageRun A dir s ops).mem dir n =
        (history A dir s ops).foldl (mapUpdate n) (pageFrame s.mem dir n) := by
  induction ops generalizing s with
  | nil => exact ⟨hs, fun _ _ => rfl⟩
  | cons op ops ih =>
    rw [List.forall_mem_cons] at hops
    obtain ⟨hstep, hframe⟩ := pageStep_refines hs hops.1
    obtain ⟨hrun, hframes⟩ := ih hstep hops.2
    refine ⟨hrun, ?_⟩
    intro n hn
    show pageFrame (pageRun A dir (pageStep A dir s op) ops).mem dir n = _
    rw [hframes n hn, hframe n hn]
    rfl

theorem mapUpdate_of_ne {n : ℕ} {op : PageOp} (hne : n ≠ op.page) (m : Option ℕ) (ok : Bool) :
    mapUpdate n m (op, ok) = m := by
  cases op with
  | map virt phys flags => exact if_neg fun h => hne h.2
  | unmap virt => exact if_neg hne

/-- Page tables refine a partial map of pages, for every directory that starts
    empty and every sequence of maps and unmaps, with any frame source: the
    translation of an address is the last successful map of its page; a call
    changes no translation of another page; a map that gets no table changes
    nothing; a new table starts with all pages unmapped; and the object and the
    tables stay in different frames in use. -/
theorem page_tables_refine_page_map (A : FrameSource σ) (s : Vm σ) (dir : ℕ)
    (hs : EmptyDirectory A s dir) (ops : List PageOp) (hops : ∀ op ∈ ops, op.Valid) (t : Vm σ)
    (ht : pageRun A dir s ops = t) :
    (∀ virt < 2 ^ 32, vmmGetPhysical t.mem dir virt =
      (lastMapped (history A dir s ops) (virt / 4096)).elim 0 fun p => p ||| (virt &&& 0xFFF)) ∧
    DirectoryTables A t dir ∧
    (∀ op : PageOp, op.Valid → ∀ virt < 2 ^ 32, virt / 4096 ≠ op.page →
      vmmGetPhysical (pageStep A dir t op).mem dir virt = vmmGetPhysical t.mem dir virt) ∧
    (∀ op : PageOp, op.Valid → succeeds A dir t op = false →
      (pageStep A dir t op).mem = t.mem ∧ (pageStep A dir t op).writes = t.writes) ∧
    ∀ i < 1024, ∀ flags < 0x1000, ¬ Present t.mem dir i → (A.alloc t.pmm).1 ≠ 0 →
      ∃ u, getOrCreateTable A.alloc t dir i flags = (tableOf u.mem dir i, u) ∧
        Present u.mem dir i ∧ ∀ j < 1024, read32 u.mem (tableOf u.mem dir i + 4 * j) = 0 := by
  obtain ⟨hrun, hframes⟩ := pageRun_refines hs.directoryTables hops
  rw [ht] at hrun hframes
  refine ⟨?_, hrun, ?_, ?_, ?_⟩
  · intro virt hvirt
    rw [vmmGetPhysical_eq, hframes _ (by omega), hs.pageFrame_eq_none (by omega)]
    rfl
  · intro op hop virt hvirt hne
    rw [vmmGetPhysical_eq, vmmGetPhysical_eq, (pageStep_refines hrun hop).2 _ (by omega),
      mapUpdate_of_ne hne]
  · intro op hop hfail
    cases op with
    | map virt phys flags =>
      have hfail : (getOrCreateTable A.alloc t dir (tableIdx virt) flags).1 = 0 := by
        simpa [succeeds] using hfail
      have hstep : pageStep A dir t (.map virt phys flags) =
          { t with pmm := (A.alloc t.pmm).2 } := vmmMapPage_of_fail hrun hop.1 hfail
      rw [hstep]
      exact ⟨rfl, rfl⟩
    | unmap virt => exact Bool.noConfusion (show true = false from hfail)
  · intro i hi flags hflags hnew halloc
    obtain ⟨hpresent, htable⟩ := present_enterTable (i := i) hrun hflags rfl halloc hi
    refine ⟨_, ?_, hpresent.mpr (Or.inl rfl), ?_⟩
    · rw [getOrCreateTable_fresh hnew halloc, htable, if_pos rfl]
    · intro j hj
      rw [htable, if_pos rfl]
      exact read32_enterTable_table hj

/-! ## The kernel's own frames -/

theorem pmmAllocFrame_aligned_lt {s : Pmm} (hs : Accounted s) :
    (pmmAllocFrame s).1 % 4096 = 0 ∧ (pmmAllocFrame s).1 < 2 ^ 32 := by
  have htotal := hs.total_le
  obtain ⟨h, -⟩ | ⟨f, h, hf, -⟩ := pmmAllocFrame_cases htotal
  · rw [h]
    norm_num
  · have := hf.lt_total
    rw [h, pageSize]
    omega

theorem bit_of_pmmAllocFrame {s : Pmm} (hs : Accounted s) (h0 : (pmmAllocFrame s).1 ≠ 0) :
    bit s.frameBitmap ((pmmAllocFrame s).1 / 4096) = false ∧
      bit (pmmAllocFrame s).2.frameBitmap ((pmmAllocFrame s).1 / 4096) = true := by
  obtain ⟨h, -⟩ | ⟨f, h, hf, -⟩ := pmmAllocFrame_cases hs.total_le
  · rw [h] at h0
    exact absurd rfl h0
  · have hframe : f * pageSize / 4096 = f := Nat.mul_div_cancel f (by decide)
    rw [h, hframe, bit_takeFrame, Function.update_self]
    exact ⟨hf.2, rfl⟩

/-- `pmm_alloc_frame` is such a source, on the states that are accounted for. -/
def pmmSource : FrameSource { s : Pmm // Accounted s } where
  alloc s := ((pmmAllocFrame s.1).1, ⟨(pmmAllocFrame s.1).2, accounted_pmmAllocFrame s.2⟩)
  inUse s := { f | bit s.1.frameBitmap f = true }
  mono _ _ hf := bit_step_of_not_frees .allocFrame hf id
  aligned s := (pmmAllocFrame_aligned_lt s.2).1
  lt s := (pmmAllocFrame_aligned_lt s.2).2
  fresh s h := Bool.eq_false_iff.mp (bit_of_pmmAllocFrame s.2 h).1
  taken s h := (bit_of_pmmAllocFrame s.2 h).2

/-- The small map's allocator with three frames taken for a directory. -/
def smallPmm : Pmm :=
  pmmRun (bootPmm ⟨fun _ => 0, 0, 0⟩ smallMap) [.allocFrame, .allocFrame, .allocFrame]

theorem accounted_smallPmm : Accounted smallPmm :=
  accounted_pmmRun (accounted_bootPmm _ disjoint_smallMap (by decide)) _

/-- A zeroed directory at one megabyte. -/
def smallVm : Vm { s : Pmm // Accounted s } := ⟨fun _ => 0, ⟨smallPmm, accounted_smallPmm⟩, []⟩

theorem emptyDirectory_small : EmptyDirectory pmmSource smallVm 0x100000 where
  aligned := by decide
  fits := by decide
  object_used := by
    show ∀ j < 3, bit smallPmm.frameBitmap (0x100000 / 4096 + j) = true
    decide +kernel
  not_present := by
    intro i _ h
    have hzero : dirEntry smallVm.mem 0x100000 i = 0 := rfl
    exact h (by rw [hzero]; decide)

/-- Mapping a page at `0x400000` and unmapping it again. -/
theorem page_tables_refine_page_map_small :
    vmmGetPhysical (pageRun pmmSource 0x100000 smallVm [.map 0x400000 0xB8000 3]).mem 0x100000
      0x400123 = 0xB8123 ∧
    vmmGetPhysical (pageRun pmmSource 0x100000 smallVm
      [.map 0x400000 0xB8000 3, .unmap 0x400FFF]).mem 0x100000 0x400123 = 0 := by
  have hmap : (PageOp.map 0x400000 0xB8000 3).Valid := by unfold PageOp.Valid; decide
  have hunmap : (PageOp.unmap 0x400FFF).Valid := by unfold PageOp.Valid; decide
  have hfirst := page_tables_refine_page_map pmmSource smallVm 0x100000 emptyDirectory_small
    [.map 0x400000 0xB8000 3] (by simp [hmap]) _ rfl
  have hboth := page_tables_refine_page_map pmmSource smallVm 0x100000 emptyDirectory_small
    [.map 0x400000 0xB8000 3, .unmap 0x400FFF] (by simp [hmap, hunmap]) _ rfl
  refine ⟨(hfirst.1 0x400123 (by decide)).trans ?_, (hboth.1 0x400123 (by decide)).trans ?_⟩
  · decide +kernel
  · decide +kernel

end NexusKernel.Memory
