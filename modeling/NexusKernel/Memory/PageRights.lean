import NexusKernel.Memory.PageTables

/-!
# The rights of a page

The processor grants an access if both the directory entry and the table entry allow it.
`vmm_map_page` writes its flags into the table entry each time, but into the directory
entry only when it enters a table: the first mapping in four megabytes decides what all
the others there can get.

Results:
* `rightsOf_newEntry`, `rightsOf_newPageEntry`: the rights that the code writes.
* `rights_pageStep`: what a call does to the rights of a region and of a page.
* `effective_rights_iff`: when the rights of all pages are those last asked for.
* `user_right_withheld`: two mappings, the second without the right it asks for.
-/

namespace NexusKernel.Memory

variable {σ : Type} {A : FrameSource σ} {s : Vm σ} {dir : ℕ}

/-! ## Rights -/

/-- `PAGE_USER` (`vmm.h`, line 8). -/
def pageUser : ℕ := 0x004

/-- The `PAGE_USER` and `PAGE_WRITABLE` bits of an entry or of flags. -/
def rightsOf (e : ℕ) : Bool × Bool := (e &&& pageUser ≠ 0, e &&& pageWritable ≠ 0)

/-- What the processor grants: what both entries of the page allow. -/
def hardwareRights (mem : Mem) (dir n : ℕ) : Bool × Bool :=
  rightsOf (dirEntry mem dir (n / 1024)) ⊓ rightsOf (pageEntry mem dir n)

/-- The flags of the last map of page `n`, unless an unmap of the page follows it. -/
def flagsUpdate (n : ℕ) (m : Option ℕ) : PageOp → Option ℕ
  | .map virt _ flags => if n = virt / 4096 then some flags else m
  | .unmap virt => if n = virt / 4096 then none else m

@[inherit_doc flagsUpdate]
def lastFlags (ops : List PageOp) (n : ℕ) : Option ℕ := ops.foldl (flagsUpdate n) none

/-- The rights of the directory entry of region `i`: its own if it is present at the start,
    else those of the first map in the region, with the right to write. -/
def regionUpdate (i : ℕ) : Option (Bool × Bool) → PageOp → Option (Bool × Bool)
  | none, .map virt _ flags => if i = tableIdx virt then some ((rightsOf flags).1, true) else none
  | r, _ => r

@[inherit_doc regionUpdate]
def entryRights (mem : Mem) (dir i : ℕ) : Option (Bool × Bool) :=
  if Present mem dir i then some (rightsOf (dirEntry mem dir i)) else none

@[inherit_doc regionUpdate]
def regionRights (mem : Mem) (dir : ℕ) (ops : List PageOp) (i : ℕ) : Option (Bool × Bool) :=
  ops.foldl (regionUpdate i) (entryRights mem dir i)

/-! ## The rights in an entry -/

theorem rightsOf_eq (e : ℕ) : rightsOf e = (e.testBit 2, e.testBit 1) := by
  have hbit : ∀ i, decide (e &&& 2 ^ i ≠ 0) = e.testBit i := by
    intro i
    rw [Nat.and_two_pow]
    cases e.testBit i <;> simp
  exact Prod.ext (hbit 2) (hbit 1)

theorem rightsOf_or (x y : ℕ) : rightsOf (x ||| y) = rightsOf x ⊔ rightsOf y := by
  simp only [rightsOf_eq, Nat.testBit_or]
  rfl

theorem rightsOf_and (x y : ℕ) : rightsOf (x &&& y) = rightsOf x ⊓ rightsOf y := by
  simp only [rightsOf_eq, Nat.testBit_and]
  rfl

theorem rightsOf_pagePresent : rightsOf pagePresent = ⊥ := by decide

theorem rightsOf_of_aligned {t : ℕ} (ht : t % 4096 = 0) : rightsOf t = ⊥ := by
  have hbit : ∀ i < 12, t.testBit i = false := by
    intro i hi
    rw [Nat.testBit_eq_decide_div_mod_eq, decide_eq_false_iff_not]
    interval_cases i <;> omega
  rw [rightsOf_eq, hbit 2 (by norm_num), hbit 1 (by norm_num)]
  rfl

/-- The entry of a new table allows what the flags allow, and writing. -/
theorem rightsOf_newEntry {t : ℕ} (ht : t % 4096 = 0) (flags : ℕ) :
    rightsOf (t ||| flags ||| pagePresent ||| pageWritable) = ((rightsOf flags).1, true) := by
  have hwritable : rightsOf pageWritable = (false, true) := by decide
  simp [rightsOf_or, rightsOf_of_aligned ht, rightsOf_pagePresent, hwritable, Prod.ext_iff]

theorem rightsOf_newPageEntry (phys flags : ℕ) :
    rightsOf (newPageEntry phys flags) = rightsOf flags := by
  have hmask : rightsOf 0xFFFFF000 = ⊥ := by decide
  have hflags : rightsOf 0xFFF = ⊤ := by decide
  simp [newPageEntry, rightsOf_or, rightsOf_and, rightsOf_pagePresent, hmask, hflags]

/-! ## One call -/

/-- The rights of the regions are `region`, and the pages with flags in `last` are mapped
    with the rights of these flags. -/
structure HasRights (A : FrameSource σ) (s : Vm σ) (dir : ℕ) (region : ℕ → Option (Bool × Bool))
    (last : ℕ → Option ℕ) : Prop where
  tables : DirectoryTables A s dir
  region_eq : ∀ i < 1024, entryRights s.mem dir i = region i
  mapped : ∀ n < 2 ^ 20, ∀ flags, last n = some flags →
    Present s.mem dir (n / 1024) ∧ rightsOf (pageEntry s.mem dir n) = rightsOf flags

section

variable {region : ℕ → Option (Bool × Bool)} {last : ℕ → Option ℕ} {virt phys flags : ℕ}

/-- Entering a table gives its region the rights of the flags. -/
theorem HasRights.enter (h : HasRights A s dir region last) {i : ℕ} (hi : i < 1024)
    (hnew : ¬ Present s.mem dir i) (hflags : flags < 0x1000) (h0 : (A.alloc s.pmm).1 ≠ 0) :
    HasRights A (enterTable { s with pmm := (A.alloc s.pmm).2 } dir i flags (A.alloc s.pmm).1) dir
      (Function.update region i (some ((rightsOf flags).1, true))) last := by
  have hs := h.tables
  have hne : (A.alloc s.pmm).1 / 4096 ≠ dir / 4096 := by
    intro heq
    exact A.fresh s.pmm h0 (heq ▸ hs.object_used 0 (by norm_num))
  refine ⟨directoryTables_enterTable hs hflags rfl h0, ?_, ?_⟩
  · intro k hk
    have hentry := dirEntry_enterTable (s := { s with pmm := (A.alloc s.pmm).2 }) (i := i)
      hs.aligned (A.aligned s.pmm) (A.lt s.pmm) hflags hne hk
    have hpresent := (present_enterTable (i := i) hs hflags rfl h0 hk).1
    by_cases hki : k = i
    · subst hki
      rw [entryRights, if_pos (hpresent.mpr (Or.inl rfl)), hentry, if_pos rfl,
        rightsOf_newEntry (A.aligned s.pmm), Function.update_self]
    · rw [Function.update_of_ne hki, ← h.region_eq k hk, entryRights, entryRights, hentry, if_neg hki]
      simp [hpresent, hki]
  · intro n hn f hf
    obtain ⟨hp, hrights⟩ := h.mapped n hn f hf
    refine ⟨(present_enterTable hs hflags rfl h0 (by omega)).1.mpr (Or.inr hp), ?_⟩
    rw [pageEntry_enterTable hs hi hnew hflags rfl h0 hn hp]
    exact hrights

/-- Storing an entry changes the rights of its page. -/
theorem HasRights.store (h : HasRights A s dir region last) (hvirt : virt < 2 ^ 32)
    (hp : Present s.mem dir (tableIdx virt)) {w : ℕ} (hw : w < 2 ^ 32) {f : Option ℕ}
    (hf : ∀ flags, f = some flags → rightsOf w = rightsOf flags) :
    HasRights A (s.store32 (tableOf s.mem dir (tableIdx virt) + 4 * pageIdx virt) w) dir region
      (Function.update last (virt / 4096) f) := by
  have hi := tableIdx_lt hvirt
  have hj := pageIdx_lt virt
  have hpage : 1024 * tableIdx virt + pageIdx virt = virt / 4096 := by
    rw [tableIdx_eq, pageIdx_eq]
    omega
  refine ⟨directoryTables_storeEntry h.tables hi hp hj, ?_, ?_⟩
  · intro k hk
    rw [← h.region_eq k hk, entryRights, entryRights]
    simp only [present_storeEntry h.tables hi hp hj hk]
    simp only [Vm.store32, dirEntry_storeEntry h.tables hi hp hj hk]
  · intro n hn flags hflags
    rw [present_storeEntry h.tables hi hp hj (by omega)]
    by_cases hne : n = virt / 4096
    · subst hne
      rw [Function.update_self] at hflags
      rw [tableIdx_eq] at hp
      refine ⟨hp, ?_⟩
      rw [pageEntry_storeEntry h.tables hi (tableIdx_eq virt ▸ hp) hj hw hn hp, if_pos hpage.symm]
      exact hf flags hflags
    · rw [Function.update_of_ne hne] at hflags
      obtain ⟨hpn, hrights⟩ := h.mapped n hn flags hflags
      refine ⟨hpn, ?_⟩
      rw [pageEntry_storeEntry h.tables hi hp hj hw hn hpn, hpage, if_neg hne]
      exact hrights

/-- A map whose table is there, or could be entered. -/
theorem rights_map (h : HasRights A s dir region last)
    (hvalid : (PageOp.map virt phys flags).Valid)
    (hok : succeeds A dir s (.map virt phys flags) = true) :
    HasRights A (vmmMapPage A.alloc s dir virt phys flags) dir
      (fun i => regionUpdate i (region i) (.map virt phys flags))
      (fun n => flagsUpdate n (last n) (.map virt phys flags)) := by
  obtain ⟨hvirt, hphys, hflags⟩ := hvalid
  have hi := tableIdx_lt hvirt
  have hlast : (fun n => flagsUpdate n (last n) (.map virt phys flags)) =
      Function.update last (virt / 4096) (some flags) := by
    funext n
    simp [flagsUpdate, Function.update_apply]
  have hrights : ∀ f, some flags = some f → rightsOf (newPageEntry phys flags) = rightsOf f := by
    intro f hf
    rw [rightsOf_newPageEntry, Option.some_inj.mp hf]
  have hregion := h.region_eq (tableIdx virt) hi
  rw [hlast]
  by_cases hp : Present s.mem dir (tableIdx virt)
  · have hsame : (fun i => regionUpdate i (region i) (.map virt phys flags)) = region := by
      funext i
      rw [entryRights, if_pos hp] at hregion
      cases hr : region i with
      | none =>
        have hne : i ≠ tableIdx virt := by
          rintro rfl
          rw [hr] at hregion
          exact Option.some_ne_none _ hregion
        exact if_neg hne
      | some r => rfl
    rw [hsame, vmmMapPage_present hp (h.tables.table_ne_zero _ hi hp)]
    exact h.store hvirt hp (newPageEntry_lt _ _) hrights
  · have h0 : (A.alloc s.pmm).1 ≠ 0 := by
      intro h0
      simp [succeeds, getOrCreateTable_full hp h0] at hok
    have hnew : (fun i => regionUpdate i (region i) (.map virt phys flags)) =
        Function.update region (tableIdx virt) (some ((rightsOf flags).1, true)) := by
      funext i
      rw [entryRights, if_neg hp] at hregion
      by_cases hne : i = tableIdx virt
      · subst hne
        rw [Function.update_self, ← hregion]
        exact if_pos rfl
      · rw [Function.update_of_ne hne]
        cases region i with
        | none => exact if_neg hne
        | some r => rfl
    obtain ⟨hpresent, htable⟩ := present_enterTable (i := tableIdx virt) h.tables hflags rfl h0 hi
    have hstore := (h.enter hi hp hflags h0).store hvirt (hpresent.mpr (Or.inl rfl))
      (newPageEntry_lt phys flags) hrights
    rw [htable, if_pos rfl] at hstore
    rw [hnew, vmmMapPage_fresh hp h0]
    exact hstore

theorem rights_unmap (h : HasRights A s dir region last) (hvirt : virt < 2 ^ 32) :
    HasRights A (vmmUnmapPage s dir virt) dir region
      (fun n => flagsUpdate n (last n) (.unmap virt)) := by
  have hlast : (fun n => flagsUpdate n (last n) (.unmap virt)) =
      Function.update last (virt / 4096) none := by
    funext n
    simp [flagsUpdate, Function.update_apply]
  rw [hlast]
  by_cases hp : Present s.mem dir (tableIdx virt)
  · rw [show vmmUnmapPage s dir virt =
      s.store32 (tableOf s.mem dir (tableIdx virt) + 4 * pageIdx virt) 0 from if_neg hp]
    exact h.store hvirt hp (by norm_num) (by simp)
  · rw [show vmmUnmapPage s dir virt = s from if_pos (not_not.mp hp)]
    refine ⟨h.tables, h.region_eq, ?_⟩
    intro n hn f hf
    by_cases hne : n = virt / 4096
    · subst hne
      simp at hf
    · rw [Function.update_of_ne hne] at hf
      exact h.mapped n hn f hf

end

/-- One call that gets its table. -/
theorem rights_pageStep {region : ℕ → Option (Bool × Bool)} {last : ℕ → Option ℕ}
    (h : HasRights A s dir region last) {op : PageOp} (hop : op.Valid)
    (hok : succeeds A dir s op = true) :
    HasRights A (pageStep A dir s op) dir (fun i => regionUpdate i (region i) op)
      (fun n => flagsUpdate n (last n) op) := by
  cases op with
  | map virt phys flags => exact rights_map h hop hok
  | unmap virt =>
    have hsame : (fun i => regionUpdate i (region i) (.unmap virt)) = region := by
      funext i
      cases region i <;> rfl
    rw [hsame]
    exact rights_unmap h hop

/-! ## Every sequence of calls -/

theorem rights_pageRun {region : ℕ → Option (Bool × Bool)} {last : ℕ → Option ℕ}
    (h : HasRights A s dir region last) {ops : List PageOp} (hops : ∀ op ∈ ops, op.Valid)
    (hok : ∀ e ∈ history A dir s ops, e.2 = true) :
    HasRights A (pageRun A dir s ops) dir (fun i => ops.foldl (regionUpdate i) (region i))
      (fun n => ops.foldl (flagsUpdate n) (last n)) := by
  induction ops generalizing s region last with
  | nil => exact h
  | cons op ops ih =>
    rw [List.forall_mem_cons] at hops
    rw [history, List.forall_mem_cons] at hok
    exact ih (rights_pageStep h hops.1 hok.1) hops.2 hok.2

/-- For every directory apart from its tables and every sequence of maps and unmaps that get
    their tables: every page that was mapped has the rights last asked for it iff the
    directory entry of its region, which has the rights of the first map there, allows
    them. -/
theorem effective_rights_iff (A : FrameSource σ) (s : Vm σ) (dir : ℕ)
    (hs : DirectoryTables A s dir) (ops : List PageOp) (hops : ∀ op ∈ ops, op.Valid)
    (hok : ∀ e ∈ history A dir s ops, e.2 = true) :
    (∀ n < 2 ^ 20, ∀ flags, lastFlags ops n = some flags →
      hardwareRights (pageRun A dir s ops).mem dir n = rightsOf flags) ↔
    ∀ n < 2 ^ 20, ∀ flags, lastFlags ops n = some flags →
      ∃ r, regionRights s.mem dir ops (n / 1024) = some r ∧ rightsOf flags ≤ r := by
  have hstart : HasRights A s dir (entryRights s.mem dir) fun _ => none :=
    ⟨hs, fun _ _ => rfl, fun _ _ _ h => absurd h (Option.some_ne_none _).symm⟩
  have hrun := rights_pageRun hstart hops hok
  refine forall₂_congr fun n hn => forall₂_congr fun flags hlast => ?_
  obtain ⟨hp, hrights⟩ := hrun.mapped n hn flags hlast
  have hregion := hrun.region_eq (n / 1024) (by omega)
  rw [entryRights, if_pos hp] at hregion
  rw [hardwareRights, hrights, inf_eq_right, regionRights, ← hregion]
  simp

/-- Two mappings in one region, the first with more rights than the second. -/
theorem effective_rights_iff_small :
    hardwareRights (pageRun pmmSource 0x100000 smallVm
      [.map 0x400000 0xB8000 7, .map 0x401000 0xB8000 3]).mem 0x100000 0x401 = rightsOf 3 := by
  have hops : ∀ op ∈ [PageOp.map 0x400000 0xB8000 7, .map 0x401000 0xB8000 3], op.Valid := by
    simp only [List.forall_mem_cons, PageOp.Valid, List.not_mem_nil, false_imp_iff, implies_true]
    norm_num
  have hok : ∀ e ∈ history pmmSource 0x100000 smallVm [.map 0x400000 0xB8000 7,
      .map 0x401000 0xB8000 3], e.2 = true := by
    simp only [history, List.forall_mem_cons, List.not_mem_nil, false_imp_iff, implies_true, and_true]
    decide +kernel
  refine (effective_rights_iff pmmSource smallVm 0x100000 emptyDirectory_small.directoryTables _ hops
    hok).mpr ?_ 0x401 (by norm_num) 3 (by decide)
  intro n _ flags hlast
  have hn : n = 0x400 ∨ n = 0x401 := by
    simp only [lastFlags, List.foldl_cons, List.foldl_nil, flagsUpdate] at hlast
    split_ifs at hlast with h1 h2
    · exact Or.inr h1
    · exact Or.inl h2
  refine ⟨(true, true), ?_, le_top⟩
  obtain rfl | rfl := hn <;> decide +kernel

/-- A mapping for the kernel, and then one for users in the same four megabytes: the second
    page is not accessible to users. -/
theorem user_right_withheld :
    lastFlags [.map 0x400000 0xB8000 3, .map 0x401000 0xB8000 7] 0x401 = some 7 ∧
      rightsOf 7 = (true, true) ∧
      hardwareRights (pageRun pmmSource 0x100000 smallVm
        [.map 0x400000 0xB8000 3, .map 0x401000 0xB8000 7]).mem 0x100000 0x401 = (false, true) := by
  refine ⟨by decide, by decide, ?_⟩
  decide +kernel

end NexusKernel.Memory
