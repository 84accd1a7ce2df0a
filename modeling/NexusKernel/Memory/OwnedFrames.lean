import NexusKernel.Memory.KernelMappings

/-!
# The frames of an address space

An address space takes a frame for its directory and one for each page table that
`vmm_map_page` enters in it. `vmm_destroy_address_space` finds them again through the
entries of the directory that the kernel directory does not have.

Directory objects are kept in storage of their own, beyond the 32-bit addresses of page
tables; only what is at issue here, the frames, goes through the frame allocator.

Results:
* `Takes.alloc`, `Takes.freeFrame`, `Takes.eq_of_empty`: what is taken and given back.
* `owns_pageStep`: a call on the directory keeps its own frames apart.
* `destroy_returns_frames`: destroying an address space undoes its creation and all calls
  on it, for the allocator.
-/

namespace NexusKernel.Memory

open Bitmap

/-! ## Frames taken from the allocator -/

/-- `q` is `p` with the frames of `F`, which were free, in use. -/
structure Takes (p : Pmm) (F : Set ℕ) (q : Pmm) : Prop where
  accounted : Accounted q
  total_eq : q.totalFrames = p.totalFrames
  findable : ∀ f ∈ F, Findable p f
  bit_iff : ∀ f, bit q.frameBitmap f = true ↔ bit p.frameBitmap f = true ∨ f ∈ F

section

variable {p q : Pmm} {F : Set ℕ}

theorem Takes.refl (hp : Accounted p) : Takes p ∅ p where
  accounted := hp
  total_eq := rfl
  findable := fun _ hf => hf.elim
  bit_iff := fun _ => by simp

/-- An allocator that is accounted for is known by its bits. -/
theorem Takes.eq_of_empty (hp : Accounted p) (h : Takes p ∅ q) : q = p := by
  have hbits : bit q.frameBitmap = bit p.frameBitmap := by
    funext f
    have hf := h.bit_iff f
    rw [Set.mem_empty_iff_false, or_false] at hf
    exact Bool.eq_iff_iff.mpr hf
  have hused : q.usedFrames = p.usedFrames := by
    rw [h.accounted.used_eq, hp.used_eq, hbits, h.total_eq]
  have hbitmap := bit_injective hbits
  have htotal := h.total_eq
  cases p
  cases q
  simp only at hused hbitmap htotal
  rw [hused, hbitmap, htotal]

theorem Takes.findable_of_findable (h : Takes p F q) {f : ℕ} (hf : Findable q f) :
    Findable p f ∧ f ∉ F := by
  have hiff := h.bit_iff f
  rw [hf.2] at hiff
  simp only [Bool.false_eq_true, false_iff, not_or, Bool.not_eq_true] at hiff
  exact ⟨⟨h.total_eq ▸ hf.1, hiff.1⟩, hiff.2⟩

theorem Takes.alloc (h : Takes p F q) (h0 : (pmmAllocFrame q).1 ≠ 0) :
    (pmmAllocFrame q).1 / 4096 ∉ F ∧
      Takes p (insert ((pmmAllocFrame q).1 / 4096) F) (pmmAllocFrame q).2 := by
  have haccounted := accounted_pmmAllocFrame h.accounted
  obtain ⟨heq, -⟩ | ⟨f, heq, hf, -⟩ := pmmAllocFrame_cases h.accounted.total_le
  · rw [heq] at h0
    exact absurd rfl h0
  · obtain ⟨hfp, hfF⟩ := h.findable_of_findable hf
    rw [heq] at haccounted ⊢
    have hframe : f * pageSize / 4096 = f := Nat.mul_div_cancel f (by decide)
    simp only [hframe]
    refine ⟨hfF, haccounted, h.total_eq, ?_, ?_⟩
    · intro g hg
      obtain rfl | hg := hg
      · exact hfp
      · exact h.findable g hg
    · intro g
      rw [bit_takeFrame, Set.mem_insert_iff]
      by_cases hg : g = f
      · subst hg
        simp
      · rw [Function.update_of_ne hg, h.bit_iff]
        simp [hg]

theorem Takes.freeFrame (h : Takes p F q) {a : ℕ} (ha : a / 4096 ∈ F) :
    Takes p (F \ {a / 4096}) (pmmFreeFrame q a) := by
  have hlt : a / pageSize < q.totalFrames := h.total_eq ▸ (h.findable _ ha).lt_total
  have hset : bit q.frameBitmap (a / pageSize) = true := (h.bit_iff _).mpr (Or.inr ha)
  have haccounted := accounted_pmmFreeFrame h.accounted a
  have hclear : bit p.frameBitmap (a / 4096) = false := (h.findable _ ha).2
  rw [pmmFreeFrame_eq, if_pos ⟨hlt, hset⟩] at haccounted ⊢
  refine ⟨haccounted, h.total_eq, fun f hf => h.findable f hf.1, ?_⟩
  intro f
  rw [bit_releaseFrame, show a / pageSize = a / 4096 from rfl]
  by_cases hf : f = a / 4096
  · subst hf
    simp [hclear]
  · rw [Function.update_of_ne hf, h.bit_iff]
    simp [hf]

/-- Giving back all frames taken, in any order. -/
theorem Takes.freeFrames {l : List ℕ} (h : Takes p F q) (hnodup : (l.map (· / 4096)).Nodup)
    (hmem : ∀ f, f ∈ F ↔ f ∈ l.map (· / 4096)) : Takes p ∅ (l.foldl pmmFreeFrame q) := by
  induction l generalizing F q with
  | nil =>
    have hF : F = ∅ := Set.eq_empty_iff_forall_notMem.mpr fun f hf =>
      List.not_mem_nil ((hmem f).mp hf)
    exact hF ▸ h
  | cons a l ih =>
    rw [List.map_cons, List.nodup_cons] at hnodup
    refine ih (h.freeFrame ((hmem _).mpr List.mem_cons_self)) hnodup.2 ?_
    intro f
    rw [Set.mem_sdiff, Set.mem_singleton_iff, hmem, List.map_cons, List.mem_cons]
    constructor
    · intro ⟨hf, hne⟩
      exact hf.resolve_left hne
    · intro hf
      refine ⟨Or.inr hf, ?_⟩
      rintro rfl
      exact hnodup.1 hf

/-- Where frame 0 is not free, the address 0 means that no frame was taken. -/
theorem pmmAllocFrame_of_eq_zero (hp : Accounted p) (hzero : ¬ Findable p 0)
    (h0 : (pmmAllocFrame p).1 = 0) : (pmmAllocFrame p).2 = p := by
  obtain ⟨heq, -⟩ | ⟨f, heq, hf, -⟩ := pmmAllocFrame_cases hp.total_le
  · rw [heq]
  · rw [heq, pageSize] at h0
    have hf0 : f = 0 := by simpa using h0
    exact absurd (hf0 ▸ hf) hzero

/-- Frames are found lowest first: after another frame has been found, frame 0 is not free. -/
theorem not_findable_zero (hp : Accounted p) (h0 : (pmmAllocFrame p).1 ≠ 0) : ¬ Findable p 0 := by
  intro hzero
  rw [pmmAllocFrame_of_lowest hp.total_le hzero fun g _ => Nat.zero_le g] at h0
  exact h0 (Nat.zero_mul _)

end

/-! ## Storage for directories -/

section

variable {σ : Type}

/-- The storage of the directory object in frame `a`: beyond all 32-bit addresses, and
    with `a` as its low word, which is what `physical_addr` keeps. -/
@[irreducible]
def ownStorage (a : ℕ) : ℕ := 2 ^ 32 * (a + 1) + a

/-- The storage of the kernel directory, beyond all others. -/
@[irreducible]
def kernelStorage : ℕ := 2 ^ 65

/-- `pmm_alloc_frame` for a directory object. -/
def allocOwn (alloc : σ → ℕ × σ) (p : σ) : ℕ × σ :=
  (if (alloc p).1 = 0 then 0 else ownStorage (alloc p).1, (alloc p).2)

theorem ownStorage_ne_zero (a : ℕ) : ownStorage a ≠ 0 := by
  unfold ownStorage
  omega

theorem ownStorage_ne_kernelStorage {a : ℕ} (ha : a < 2 ^ 32) : ownStorage a ≠ kernelStorage := by
  unfold ownStorage kernelStorage
  omega

theorem le_entryAddr_ownStorage (a i : ℕ) : 2 ^ 32 ≤ entryAddr (ownStorage a) i := by
  unfold entryAddr ownStorage
  omega

theorem le_entryAddr_kernelStorage (i : ℕ) : 2 ^ 32 ≤ entryAddr kernelStorage i := by
  unfold entryAddr kernelStorage
  omega

theorem le_physicalAddr_ownStorage (a : ℕ) : 2 ^ 32 ≤ physicalAddr (ownStorage a) := by
  unfold physicalAddr ownStorage
  omega

theorem kernelStorage_mod : kernelStorage % 4096 = 0 := by
  unfold kernelStorage
  norm_num

theorem ownStorage_mod {a : ℕ} (ha : a % 4096 = 0) : ownStorage a % 4096 = 0 := by
  unfold ownStorage
  omega

theorem ownStorage_low {a : ℕ} (ha : a < 2 ^ 32) : ownStorage a % 2 ^ 32 = a := by
  unfold ownStorage
  omega

/-- The kernel directory lies apart from all other directories. -/
theorem kernelStorage_apart {a : ℕ} (ha : a < 2 ^ 32) {j : ℕ} (hj : j < 3) :
    kernelStorage / 4096 ≠ ownStorage a / 4096 + j := by
  unfold ownStorage kernelStorage
  omega

theorem vmmCreateAddressSpace_own_full {alloc : σ → ℕ × σ} {s : Vm σ} {k : ℕ}
    (h0 : (alloc s.pmm).1 = 0) :
    vmmCreateAddressSpace (allocOwn alloc) k s = (0, { s with pmm := (alloc s.pmm).2 }) :=
  vmmCreateAddressSpace_full (if_pos h0)

theorem vmmCreateAddressSpace_own_fresh {alloc : σ → ℕ × σ} {s : Vm σ} {k : ℕ}
    (h0 : (alloc s.pmm).1 ≠ 0) :
    vmmCreateAddressSpace (allocOwn alloc) k s = (ownStorage (alloc s.pmm).1,
      newDirectory k { s with pmm := (alloc s.pmm).2 } (ownStorage (alloc s.pmm).1)) := by
  have hfst : (allocOwn alloc s.pmm).1 = ownStorage (alloc s.pmm).1 := if_neg h0
  rw [vmmCreateAddressSpace_fresh (hfst ▸ ownStorage_ne_zero _), hfst]
  rfl

theorem read32_newDirectory_physicalAddr (s : Vm σ) {k d : ℕ} (hd : d % 4096 = 0)
    (hk : k % 4096 = 0) (hne : k / 4096 ≠ d / 4096) :
    read32 (newDirectory k s d).mem (physicalAddr d) = d % 2 ^ 32 := by
  have hout := (foldl_copyEntry (s := (s.clear d directorySize).store32 (physicalAddr d) d)
    hd hk hne le_rfl).1
  have hsame := hout (physicalAddr d) (by unfold physicalAddr; omega) (by unfold physicalAddr; omega)
  rw [newDirectory, hsame]
  exact read32_write32_self _ _ _

/-- A new directory knows its frame and has the kernel directory's present entries and no
    others. -/
theorem newDirectory_own (s : Vm σ) {a : ℕ} (ha : a % 4096 = 0) (hlt : a < 2 ^ 32) :
    (∀ i < 1024, dirEntry (newDirectory kernelStorage s (ownStorage a)).mem kernelStorage i =
      dirEntry s.mem kernelStorage i) ∧
    read32 (newDirectory kernelStorage s (ownStorage a)).mem (physicalAddr (ownStorage a)) = a ∧
    ∀ i < 1024, dirEntry (newDirectory kernelStorage s (ownStorage a)).mem (ownStorage a) i =
      if Present s.mem kernelStorage i then dirEntry s.mem kernelStorage i else 0 := by
  have hmod := kernelStorage_mod
  have hd := ownStorage_mod ha
  have hapart : ∀ j < 3, kernelStorage / 4096 ≠ ownStorage a / 4096 + j :=
    fun j hj => kernelStorage_apart hlt hj
  have hlow := ownStorage_low hlt
  generalize ownStorage a = d at *
  obtain ⟨hout, hcopy⟩ := newDirectory_reads (s := s) hd hmod hapart
  refine ⟨?_, ?_, hcopy⟩
  · intro i hi
    refine hout (entryAddr kernelStorage i) (by unfold entryAddr; omega) ?_
    intro j hj
    have := hapart j hj
    unfold entryAddr
    omega
  · rw [← hlow]
    exact read32_newDirectory_physicalAddr s hd hmod (by simpa using hapart 0 (by norm_num))

end

/-! ## The tables of one address space -/

section

variable {s t u : Vm { p : Pmm // Accounted p }} {a i flags : ℕ}

theorem pmmSource_fst (p : { p : Pmm // Accounted p }) :
    (pmmSource.alloc p).1 = (pmmAllocFrame p.1).1 := rfl

theorem pmmSource_snd (p : { p : Pmm // Accounted p }) :
    (pmmSource.alloc p).2.1 = (pmmAllocFrame p.1).2 := rfl

/-- `pmm_free_frame`. -/
def freeOwn (p : { p : Pmm // Accounted p }) (a : ℕ) : { p : Pmm // Accounted p } :=
  ⟨pmmFreeFrame p.1 a, accounted_pmmFreeFrame p.2 a⟩

/-- Table `i` of the directory at `dir` is not one of the kernel directory's. -/
def OwnTable (mem : Mem) (kernelDirectory dir i : ℕ) : Prop :=
  Present mem dir i ∧ ¬ Present mem kernelDirectory i

/-- The frames of its own tables from number `n` on. -/
def ownFrames (mem : Mem) (kernelDirectory dir n : ℕ) : Set ℕ :=
  { f | ∃ i, n ≤ i ∧ i < 1024 ∧ OwnTable mem kernelDirectory dir i ∧ tableOf mem dir i / 4096 = f }

/-- A new directory has no table of its own. -/
theorem not_ownTable_newDirectory {σ : Type} (v : Vm σ) (ha : a % 4096 = 0) (hlt : a < 2 ^ 32)
    (hi : i < 1024) : ¬ OwnTable (newDirectory kernelStorage v (ownStorage a)).mem kernelStorage
      (ownStorage a) i := by
  obtain ⟨hkernel, -, hcopy⟩ := newDirectory_own v ha hlt
  intro ⟨hp, hnot⟩
  rw [Present, hkernel i hi, ← Present] at hnot
  rw [Present, hcopy i hi, if_neg hnot, Nat.zero_and] at hp
  exact hp rfl

/-- In `u` the directory in frame `a` and its own tables have exactly the frames taken since
    `s`, one each. -/
structure Owns (s : Vm { p : Pmm // Accounted p }) (a : ℕ) (u : Vm { p : Pmm // Accounted p }) :
    Prop where
  aligned : a % 4096 = 0
  lt : a < 2 ^ 32
  kernel : ∀ i < 1024, dirEntry u.mem kernelStorage i = dirEntry s.mem kernelStorage i
  physical : read32 u.mem (physicalAddr (ownStorage a)) = a
  shared : ∀ i < 1024, Present u.mem kernelStorage i → Present u.mem (ownStorage a) i
  table_inj : ∀ i < 1024, ∀ j < 1024, OwnTable u.mem kernelStorage (ownStorage a) i →
    OwnTable u.mem kernelStorage (ownStorage a) j →
    tableOf u.mem (ownStorage a) i / 4096 = tableOf u.mem (ownStorage a) j / 4096 → i = j
  table_ne : ∀ i < 1024, OwnTable u.mem kernelStorage (ownStorage a) i →
    tableOf u.mem (ownStorage a) i / 4096 ≠ a / 4096
  takes : Takes s.pmm.1 (insert (a / 4096) (ownFrames u.mem kernelStorage (ownStorage a) 0)) u.pmm.1

/-- After `newDirectory` the frame of the directory is the only one taken. -/
theorem owns_newDirectory (ha : a = (pmmSource.alloc s.pmm).1) (h0 : a ≠ 0) :
    Owns s a (newDirectory kernelStorage { s with pmm := (pmmSource.alloc s.pmm).2 }
      (ownStorage a)) := by
  have halign : a % 4096 = 0 := ha ▸ pmmSource.aligned s.pmm
  have hlt : a < 2 ^ 32 := ha ▸ pmmSource.lt s.pmm
  have hpmm := pmm_newDirectory kernelStorage (ownStorage a)
    { s with pmm := (pmmSource.alloc s.pmm).2 }
  have hnone := fun i hi => not_ownTable_newDirectory
    { s with pmm := (pmmSource.alloc s.pmm).2 } halign hlt (i := i) hi
  obtain ⟨hkernel, hphysical, hcopy⟩ :=
    newDirectory_own { s with pmm := (pmmSource.alloc s.pmm).2 } halign hlt
  generalize newDirectory kernelStorage _ (ownStorage a) = u at hkernel hphysical hcopy hpmm hnone ⊢
  refine ⟨halign, hlt, hkernel, hphysical, ?_, fun i hi _ _ hown => absurd hown (hnone i hi),
    fun i hi hown => absurd hown (hnone i hi), ?_⟩
  · intro i hi hp
    rw [Present, hkernel i hi, ← Present] at hp
    rw [Present, hcopy i hi, if_pos hp]
    exact hp
  · have hempty : ownFrames u.mem kernelStorage (ownStorage a) 0 = ∅ := by
      rw [Set.eq_empty_iff_forall_notMem]
      rintro f ⟨i, -, hi, hown, -⟩
      exact hnone i hi hown
    rw [ha, pmmSource_fst] at h0
    rw [hempty, hpmm, ha, pmmSource_fst, pmmSource_snd]
    exact ((Takes.refl s.pmm.2).alloc h0).2

/-- Only the directories and the allocator matter. -/
theorem Owns.congr (h : Owns s a t) (hpmm : u.pmm = t.pmm)
    (hread : ∀ y, 2 ^ 32 ≤ y → read32 u.mem y = read32 t.mem y) : Owns s a u := by
  have hkernel : ∀ i, dirEntry u.mem kernelStorage i = dirEntry t.mem kernelStorage i :=
    fun i => hread _ (le_entryAddr_kernelStorage i)
  have hentry : ∀ i, dirEntry u.mem (ownStorage a) i = dirEntry t.mem (ownStorage a) i :=
    fun i => hread _ (le_entryAddr_ownStorage a i)
  refine ⟨h.aligned, h.lt, fun i hi => (hkernel i).trans (h.kernel i hi), ?_, ?_, ?_, ?_, ?_⟩
  · rw [hread _ (le_physicalAddr_ownStorage a)]
    exact h.physical
  · simp only [Present, hkernel, hentry]
    exact h.shared
  · simp only [OwnTable, Present, tableOf, hkernel, hentry]
    exact h.table_inj
  · simp only [OwnTable, Present, tableOf, hkernel, hentry]
    exact h.table_ne
  · simp only [ownFrames, OwnTable, Present, tableOf, hkernel, hentry, hpmm]
    exact h.takes

/-- A store into a table leaves all directories alone. -/
theorem Owns.storeEntry (h : Owns s a t) {j w : ℕ} (hj : j < 1024) (b i : ℕ) :
    Owns s a (t.store32 (tableOf t.mem b i + 4 * j) w) := by
  refine h.congr rfl ?_
  intro y hy
  have hlt : tableOf t.mem b i < 2 ^ 32 := Nat.and_lt_two_pow _ (by norm_num)
  have hmod := tableOf_aligned t.mem b i
  exact read32_write32_of_disjoint (by omega)

/-! ## Entering a table -/

/-- What a state of the allocator knows about the next frame. -/
theorem Owns.fresh (h : Owns s a t) (h0 : (pmmSource.alloc t.pmm).1 ≠ 0) :
    (pmmSource.alloc t.pmm).1 / 4096 ≠ a / 4096 ∧
    (pmmSource.alloc t.pmm).1 / 4096 ∉ ownFrames t.mem kernelStorage (ownStorage a) 0 ∧
    Takes s.pmm.1 (insert ((pmmSource.alloc t.pmm).1 / 4096)
      (insert (a / 4096) (ownFrames t.mem kernelStorage (ownStorage a) 0)))
      (pmmSource.alloc t.pmm).2.1 := by
  rw [pmmSource_fst] at h0
  obtain ⟨hout, htakes⟩ := h.takes.alloc h0
  rw [Set.mem_insert_iff, not_or] at hout
  rw [pmmSource_fst, pmmSource_snd]
  exact ⟨hout.1, hout.2, htakes⟩

/-- The frames of the tables once table `i`, in the frame `x`, is one of them. -/
theorem ownFrames_enter {x : ℕ} (hi : i < 1024) (hnew : ¬ Present t.mem (ownStorage a) i)
    (hown : ∀ j < 1024, OwnTable u.mem kernelStorage (ownStorage a) j ↔
      j = i ∨ OwnTable t.mem kernelStorage (ownStorage a) j)
    (htable : ∀ j < 1024, tableOf u.mem (ownStorage a) j =
      if j = i then x else tableOf t.mem (ownStorage a) j) :
    ownFrames u.mem kernelStorage (ownStorage a) 0 =
      insert (x / 4096) (ownFrames t.mem kernelStorage (ownStorage a) 0) := by
  ext f
  simp only [ownFrames, Set.mem_insert_iff, Set.mem_ofPred_eq, Nat.zero_le, true_and]
  constructor
  · rintro ⟨j, hj, hjown, hf⟩
    rw [htable j hj] at hf
    split_ifs at hf with hji
    · exact Or.inl hf.symm
    · exact Or.inr ⟨j, hj, ((hown j hj).mp hjown).resolve_left hji, hf⟩
  · intro hf
    obtain rfl | ⟨j, hj, hjown, hf⟩ := hf
    · exact ⟨i, hi, (hown i hi).mpr (Or.inl rfl), by rw [htable i hi, if_pos rfl]⟩
    · have hji : j ≠ i := by
        rintro rfl
        exact hnew hjown.1
      exact ⟨j, hj, (hown j hj).mpr (Or.inr hjown), by rw [htable j hj, if_neg hji, hf]⟩

/-- Table `i`, which is not there, gets a frame `x` that the directory does not own. -/
theorem Owns.enter (h : Owns s a t) {x : ℕ} (hi : i < 1024)
    (hnew : ¬ Present t.mem (ownStorage a) i) (hxa : x / 4096 ≠ a / 4096)
    (hx : x / 4096 ∉ ownFrames t.mem kernelStorage (ownStorage a) 0)
    (hkernel : ∀ j < 1024, dirEntry u.mem kernelStorage j = dirEntry t.mem kernelStorage j)
    (hphysical : read32 u.mem (physicalAddr (ownStorage a)) =
      read32 t.mem (physicalAddr (ownStorage a)))
    (hpresent : ∀ j < 1024, Present u.mem (ownStorage a) j ↔ j = i ∨ Present t.mem (ownStorage a) j)
    (htable : ∀ j < 1024, tableOf u.mem (ownStorage a) j =
      if j = i then x else tableOf t.mem (ownStorage a) j)
    (htakes : Takes s.pmm.1 (insert (x / 4096)
      (insert (a / 4096) (ownFrames t.mem kernelStorage (ownStorage a) 0))) u.pmm.1) :
    Owns s a u := by
  have hkernelPresent : ∀ j < 1024,
      Present u.mem kernelStorage j ↔ Present t.mem kernelStorage j := by
    intro j hj
    rw [Present, hkernel j hj, Present]
  have hown : ∀ j < 1024, OwnTable u.mem kernelStorage (ownStorage a) j ↔
      j = i ∨ OwnTable t.mem kernelStorage (ownStorage a) j := by
    intro j hj
    rw [OwnTable, hpresent j hj, hkernelPresent j hj, OwnTable]
    by_cases hji : j = i
    · subst hji
      simp [mt (h.shared j hj) hnew]
    · simp [hji]
  have hframe : ∀ j < 1024, j ≠ i → OwnTable t.mem kernelStorage (ownStorage a) j →
      x / 4096 ≠ tableOf t.mem (ownStorage a) j / 4096 := by
    intro j hj _ hjown heq
    exact hx ⟨j, Nat.zero_le j, hj, hjown, heq.symm⟩
  refine ⟨h.aligned, h.lt,
    fun j hj => (hkernel j hj).trans (h.kernel j hj), hphysical.trans h.physical, ?_, ?_, ?_, ?_⟩
  · intro j hj hp
    exact (hpresent j hj).mpr (Or.inr (h.shared j hj ((hkernelPresent j hj).mp hp)))
  · intro j hj l hl hjown hlown
    rw [hown j hj] at hjown
    rw [hown l hl] at hlown
    rw [htable j hj, htable l hl]
    split_ifs with hji hli hli
    · intro _
      rw [hji, hli]
    · intro heq
      exact absurd heq (hframe l hl hli (hlown.resolve_left hli))
    · intro heq
      exact absurd heq.symm (hframe j hj hji (hjown.resolve_left hji))
    · exact h.table_inj j hj l hl (hjown.resolve_left hji) (hlown.resolve_left hli)
  · intro j hj hjown
    rw [htable j hj]
    split_ifs with hji
    · exact hxa
    · exact h.table_ne j hj (((hown j hj).mp hjown).resolve_left hji)
  · rw [ownFrames_enter hi hnew hown htable, Set.insert_comm]
    exact htakes

/-- The state that `get_or_create_table` leaves when it enters a table. -/
theorem owns_enterTable (h : Owns s a t) (hi : i < 1024)
    (hnew : ¬ Present t.mem (ownStorage a) i) (hflags : flags < 0x1000)
    (h0 : (pmmSource.alloc t.pmm).1 ≠ 0) :
    Owns s a (enterTable { t with pmm := (pmmSource.alloc t.pmm).2 } (ownStorage a) i flags
      (pmmSource.alloc t.pmm).1) := by
  obtain ⟨hxa, hx, htakes⟩ := h.fresh h0
  have hmod := pmmSource.aligned t.pmm
  have hlt := pmmSource.lt t.pmm
  generalize pmmSource.alloc t.pmm = r at *
  have hd := ownStorage_mod h.aligned
  have hlarge := le_entryAddr_ownStorage a 0
  have hxd : r.1 / 4096 ≠ ownStorage a / 4096 := by
    unfold entryAddr at hlarge
    omega
  have hentry : ∀ j < 1024, dirEntry (enterTable { t with pmm := r.2 } (ownStorage a) i flags
      r.1).mem (ownStorage a) j =
        if j = i then r.1 ||| flags ||| pagePresent ||| pageWritable
        else dirEntry t.mem (ownStorage a) j :=
    fun j hj => dirEntry_enterTable hd hmod hlt hflags hxd hj
  refine h.enter hi hnew hxa hx ?_ ?_ ?_ ?_ htakes
  · intro j hj
    have hkd := kernelStorage_mod
    have hk0 := kernelStorage_apart h.lt (show 0 < 3 by norm_num)
    have hk1 := kernelStorage_apart h.lt (show 1 < 3 by norm_num)
    have hlargek := le_entryAddr_kernelStorage j
    have hframe : entryAddr kernelStorage j / 4096 = kernelStorage / 4096 := by
      unfold entryAddr
      omega
    refine read32_enterTable_of_frame hd hi hmod ?_ ?_ ?_ ?_
    · unfold entryAddr
      omega
    · omega
    · rw [hframe]
      simpa using hk0
    · rw [hframe]
      exact hk1
  · have hphys : physicalAddr (ownStorage a) / 4096 = ownStorage a / 4096 + 2 := by
      unfold physicalAddr
      omega
    have hlargep := le_physicalAddr_ownStorage a
    refine read32_enterTable_of_frame hd hi hmod ?_ ?_ ?_ ?_
    · unfold physicalAddr
      omega
    · omega
    · omega
    · omega
  · intro j hj
    rw [Present, hentry j hj, Present]
    split_ifs with hji
    · simp [hji, present_newEntry]
    · simp [hji]
  · intro j hj
    rw [tableOf, hentry j hj, tableOf]
    split_ifs with hji
    · exact newEntry_and_pageMask hmod hlt hflags
    · rfl

/-! ## Maps and unmaps -/

/-- Where frame 0 was not free, a failed lookup takes no frame. -/
theorem Owns.alloc_fail (h : Owns s a t) (hzero : ¬ Findable s.pmm.1 0)
    (h0 : (pmmSource.alloc t.pmm).1 = 0) : (pmmSource.alloc t.pmm).2 = t.pmm := by
  apply Subtype.ext
  rw [pmmSource_snd]
  refine pmmAllocFrame_of_eq_zero t.pmm.2 ?_ h0
  intro hfind
  exact hzero (h.takes.findable_of_findable hfind).1

/-- A call on the directory changes its own tables only. -/
theorem owns_pageStep (h : Owns s a t) (hzero : ¬ Findable s.pmm.1 0) {op : PageOp}
    (hop : op.Valid) : Owns s a (pageStep pmmSource (ownStorage a) t op) := by
  cases op with
  | map virt phys flags =>
    obtain ⟨hvirt, -, hflags⟩ := hop
    have hi := tableIdx_lt hvirt
    show Owns s a (vmmMapPage pmmSource.alloc t (ownStorage a) virt phys flags)
    by_cases hp : Present t.mem (ownStorage a) (tableIdx virt)
    · by_cases ht : tableOf t.mem (ownStorage a) (tableIdx virt) = 0
      · rw [vmmMapPage_null hp ht]
        exact h
      · rw [vmmMapPage_present hp ht]
        exact h.storeEntry (pageIdx_lt virt) _ _
    · by_cases h0 : (pmmSource.alloc t.pmm).1 = 0
      · rw [vmmMapPage_full hp h0, h.alloc_fail hzero h0]
        exact h
      · have henter := owns_enterTable h hi hp hflags h0
        have hmod := pmmSource.aligned t.pmm
        have hlt := pmmSource.lt t.pmm
        have hj := pageIdx_lt virt
        rw [vmmMapPage_fresh hp h0]
        refine henter.congr rfl ?_
        intro y hy
        exact read32_write32_of_disjoint (by omega)
  | unmap virt =>
    show Owns s a (vmmUnmapPage t (ownStorage a) virt)
    unfold vmmUnmapPage
    split_ifs
    · exact h
    · exact h.storeEntry (pageIdx_lt virt) _ _

theorem owns_pageRun (h : Owns s a t) (hzero : ¬ Findable s.pmm.1 0) {ops : List PageOp}
    (hops : ∀ op ∈ ops, op.Valid) : Owns s a (pageRun pmmSource (ownStorage a) t ops) := by
  induction ops generalizing t with
  | nil => exact h
  | cons op ops ih =>
    rw [List.forall_mem_cons] at hops
    exact ih (owns_pageStep h hzero hops.1) hops.2

/-! ## Destroying -/

/-- The addresses that `vmm_destroy_address_space` passes to `pmm_free_frame`. -/
def destroyFrees (mem : Mem) (kernelDirectory dir : ℕ) : List ℕ :=
  ((List.range 1024).filter fun i => Present mem dir i ∧ ¬ Present mem kernelDirectory i).map
    (tableOf mem dir) ++ [read32 mem (physicalAddr dir)]

theorem vmmDestroyAddressSpace_eq {σ : Type} (free : σ → ℕ → σ) (v : Vm σ) {kernelDirectory dir : ℕ}
    (h0 : dir ≠ 0) (hne : dir ≠ kernelDirectory) :
    vmmDestroyAddressSpace free kernelDirectory v dir =
      { v with pmm := (destroyFrees v.mem kernelDirectory dir).foldl free v.pmm } := by
  have hloop : ∀ (l : List ℕ) (p : σ), l.foldl (freeTable free kernelDirectory v.mem dir) p =
      ((l.filter fun i => Present v.mem dir i ∧ ¬ Present v.mem kernelDirectory i).map
        (tableOf v.mem dir)).foldl free p := by
    intro l
    induction l with
    | nil =>
      intro p
      rfl
    | cons i l ih =>
      intro p
      rw [List.foldl_cons, ih]
      by_cases hown : Present v.mem dir i ∧ ¬ Present v.mem kernelDirectory i
      · rw [List.filter_cons_of_pos (by simpa using hown), freeTable,
          if_pos ⟨hown.1, not_not.mp hown.2⟩]
        rfl
      · rw [List.filter_cons_of_neg (by simpa using hown), freeTable, if_neg]
        rintro ⟨hp, hk⟩
        exact hown ⟨hp, not_not.mpr hk⟩
  rw [vmmDestroyAddressSpace, if_neg (not_or.mpr ⟨h0, hne⟩), destroyFrees, List.foldl_append, hloop]
  rfl

/-- A new directory gives back its own frame only. -/
theorem vmmDestroyAddressSpace_newDirectory {σ : Type} (free : σ → ℕ → σ) (v : Vm σ)
    (ha : a % 4096 = 0) (hlt : a < 2 ^ 32) :
    (vmmDestroyAddressSpace free kernelStorage (newDirectory kernelStorage v (ownStorage a))
      (ownStorage a)).pmm = free v.pmm a := by
  have hnone : ((List.range 1024).filter fun i =>
      Present (newDirectory kernelStorage v (ownStorage a)).mem (ownStorage a) i ∧
        ¬ Present (newDirectory kernelStorage v (ownStorage a)).mem kernelStorage i) = [] := by
    rw [List.filter_eq_nil_iff]
    intro i hi hown
    rw [decide_eq_true_iff] at hown
    exact not_ownTable_newDirectory v ha hlt (List.mem_range.mp hi) hown
  rw [vmmDestroyAddressSpace_eq free _ (ownStorage_ne_zero a) (ownStorage_ne_kernelStorage hlt),
    destroyFrees, hnone, (newDirectory_own v ha hlt).2.1, pmm_newDirectory]
  rfl

theorem mem_destroyFrees {mem : Mem} {kernelDirectory dir f : ℕ} :
    f ∈ (destroyFrees mem kernelDirectory dir).map (· / 4096) ↔
      f ∈ insert (read32 mem (physicalAddr dir) / 4096) (ownFrames mem kernelDirectory dir 0) := by
  simp only [destroyFrees, List.map_append, List.map_map, List.map_cons, List.map_nil,
    List.mem_append, List.mem_map, List.mem_filter, List.mem_range, decide_eq_true_eq,
    List.mem_singleton, Function.comp_apply, Set.mem_insert_iff, ownFrames, Set.mem_ofPred_eq,
    Nat.zero_le, true_and, OwnTable, and_assoc]
  exact or_comm

theorem Owns.nodup_destroyFrees (h : Owns s a t) :
    ((destroyFrees t.mem kernelStorage (ownStorage a)).map (· / 4096)).Nodup := by
  have hown : ∀ i ∈ (List.range 1024).filter fun i =>
      Present t.mem (ownStorage a) i ∧ ¬ Present t.mem kernelStorage i,
      i < 1024 ∧ OwnTable t.mem kernelStorage (ownStorage a) i := by
    intro i hi
    simpa [OwnTable] using hi
  rw [destroyFrees, List.map_append, List.map_map, List.nodup_append]
  refine ⟨List.Nodup.map_on ?_ (List.nodup_range.filter _), List.nodup_singleton _, ?_⟩
  · intro i hi j hj heq
    exact h.table_inj i (hown i hi).1 j (hown j hj).1 (hown i hi).2 (hown j hj).2 heq
  · intro f hf g hg
    obtain ⟨i, hi, rfl⟩ := List.mem_map.mp hf
    rw [List.map_cons, List.map_nil, List.mem_singleton, h.physical] at hg
    rw [hg]
    exact h.table_ne i (hown i hi).1 (hown i hi).2

theorem foldl_freeOwn (l : List ℕ) (p : { p : Pmm // Accounted p }) :
    (l.foldl freeOwn p).1 = l.foldl pmmFreeFrame p.1 := by
  induction l generalizing p with
  | nil => rfl
  | cons a l ih => exact ih (freeOwn p a)

/-- All frames are given back, each once. -/
theorem Owns.destroy (h : Owns s a t) :
    (vmmDestroyAddressSpace freeOwn kernelStorage t (ownStorage a)).pmm = s.pmm := by
  apply Subtype.ext
  rw [vmmDestroyAddressSpace_eq freeOwn t (ownStorage_ne_zero a) (ownStorage_ne_kernelStorage h.lt),
    foldl_freeOwn]
  refine Takes.eq_of_empty s.pmm.2 (h.takes.freeFrames h.nodup_destroyFrees ?_)
  intro f
  rw [mem_destroyFrees, h.physical]

end

/-- Destroying an address space returns exactly the frames it took. For every state of the
    frame allocator that is accounted for, every kernel directory, and every sequence of
    maps and unmaps on a new address space, whether they get their tables or not: after
    `vmm_destroy_address_space` the allocator is as it was before the creation, and of the
    tables of the kernel directory none has been freed, as long as they were not free
    before. -/
theorem destroy_returns_frames (s : Vm { p : Pmm // Accounted p }) (dir : ℕ)
    (t : Vm { p : Pmm // Accounted p })
    (hcreate : vmmCreateAddressSpace (allocOwn pmmSource.alloc) kernelStorage s = (dir, t))
    (hdir : dir ≠ 0) (ops : List PageOp) (hops : ∀ op ∈ ops, op.Valid)
    (u : Vm { p : Pmm // Accounted p }) (hrun : pageRun pmmSource dir t ops = u) :
    (vmmDestroyAddressSpace freeOwn kernelStorage u dir).pmm = s.pmm ∧
    vmmDestroyAddressSpace freeOwn kernelStorage u dir =
      { u with pmm := (destroyFrees u.mem kernelStorage dir).foldl freeOwn u.pmm } ∧
    ∀ a ∈ destroyFrees u.mem kernelStorage dir, ∀ i < 1024, Present s.mem kernelStorage i →
      ¬ Findable s.pmm.1 (tableOf s.mem kernelStorage i / 4096) →
      a / 4096 ≠ tableOf s.mem kernelStorage i / 4096 := by
  have h0 : (pmmSource.alloc s.pmm).1 ≠ 0 := by
    intro h
    rw [vmmCreateAddressSpace_own_full h] at hcreate
    exact hdir (congrArg Prod.fst hcreate).symm
  rw [vmmCreateAddressSpace_own_fresh h0, Prod.mk.injEq] at hcreate
  obtain ⟨rfl, rfl⟩ := hcreate
  have hzero : ¬ Findable s.pmm.1 0 := not_findable_zero s.pmm.2 h0
  have hu : Owns s (pmmSource.alloc s.pmm).1 u := by
    rw [← hrun]
    exact owns_pageRun (owns_newDirectory rfl h0) hzero hops
  refine ⟨hu.destroy, vmmDestroyAddressSpace_eq _ _ (ownStorage_ne_zero _)
    (ownStorage_ne_kernelStorage hu.lt), ?_⟩
  intro a ha i hi hp hused heq
  refine hused (heq ▸ hu.takes.findable _ ?_)
  have hmem := mem_destroyFrees.mp (List.mem_map_of_mem (f := (· / 4096)) ha)
  rwa [hu.physical] at hmem

/-- An address space in which two tables were entered. -/
theorem destroy_returns_frames_small :
    ∃ dir t, vmmCreateAddressSpace (allocOwn pmmSource.alloc) kernelStorage smallVm = (dir, t) ∧
      dir ≠ 0 ∧ (vmmDestroyAddressSpace freeOwn kernelStorage (pageRun pmmSource dir t
        [.map 0x400000 0xB8000 3, .map 0x800000 0xB8000 7, .unmap 0x400000]) dir).pmm =
        smallVm.pmm := by
  have hdir : (vmmCreateAddressSpace (allocOwn pmmSource.alloc) kernelStorage smallVm).1 ≠ 0 := by
    decide +kernel
  rcases hcreate : vmmCreateAddressSpace (allocOwn pmmSource.alloc) kernelStorage smallVm with
    ⟨dir, t⟩
  rw [hcreate] at hdir
  refine ⟨dir, t, rfl, hdir, ?_⟩
  refine (destroy_returns_frames smallVm dir t hcreate hdir _ ?_ _ rfl).1
  simp only [List.forall_mem_cons, PageOp.Valid, List.not_mem_nil, false_imp_iff, implies_true]
  norm_num

end NexusKernel.Memory
