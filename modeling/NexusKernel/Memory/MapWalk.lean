import NexusKernel.Common.Orbit
import NexusKernel.Memory.Pmm

/-!
# The walks over the memory map

`pmm_init` walks over the memory map twice, and each entry says itself where the next one
is. The sum is taken modulo `2^32`, so a size can lead back to an entry that was read
before, or to an address in front of the map.

Results:
* `mmapReads_eq_some_iff`: a walk ends iff the orbit of its cursor leaves the map.
* `mmapWalk_eq_reads`: both walks read these entries.
* `exists_exitsAfter_nextEntry`: while no sum reaches `2^32`, the cursor goes up to the end.
* `mmap_walks_inside_of_fit`: both walks then end and stay inside the map.
* `size_leads_to_itself`: a size for which `pmm_init` does not return.
-/

namespace NexusKernel.Memory

/-- The address behind the entry at `mmap`, as an integer. -/
def entryEnd (mem : Mem) (mmap : ℕ) : ℕ := mmap + (entryAt mem mmap).size + 4

/-- The cursor behind the entry at `mmap` (lines 67 and 91). -/
def nextEntry (mem : Mem) (mmap : ℕ) : ℕ := u32 (mmap + (entryAt mem mmap).size + 4)

/-- The addresses of the entries that a walk (lines 63–68 and 78–92) reads. -/
def mmapReads (mem : Mem) (mmapEnd : ℕ) : (fuel : ℕ) → (mmap : ℕ) → Option (List ℕ)
  | 0, _ => none
  | fuel + 1, mmap =>
    if mmap < mmapEnd then (mmapReads mem mmapEnd fuel (nextEntry mem mmap)).map (mmap :: ·)
    else some []

section

variable {mem : Mem} {mmapEnd fuel mmap : ℕ}

/-- The walk with any body is a fold over the entries read. -/
theorem mmapWalk_eq_reads {σ : Type} (body : σ → MmapEntry → σ) (s : σ) :
    mmapWalk mem mmapEnd body fuel mmap s =
      (mmapReads mem mmapEnd fuel mmap).map fun ps => (ps.map (entryAt mem)).foldl body s := by
  induction fuel generalizing mmap s with
  | zero => rfl
  | succ fuel ih =>
    rw [mmapWalk, mmapReads]
    split_ifs with hlt
    · rw [Option.map_map]
      exact ih _
    · rfl

/-- The entries read are the orbit of the cursor, up to the end of the map. -/
theorem mmapReads_eq_some_iff {ps : List ℕ} :
    mmapReads mem mmapEnd fuel mmap = some ps ↔
      ∃ n < fuel, ExitsAfter (nextEntry mem) (· < mmapEnd) mmap n ∧
        ps = List.iterate (nextEntry mem) mmap n := by
  induction fuel generalizing mmap ps with
  | zero => simp [mmapReads]
  | succ fuel ih =>
    rw [mmapReads]
    split_ifs with hlt
    · rw [Option.map_eq_some_iff]
      constructor
      · intro ⟨qs, hqs, hps⟩
        obtain ⟨n, hn, hexit, rfl⟩ := ih.mp hqs
        exact ⟨n + 1, by omega, exitsAfter_succ.mpr ⟨hlt, hexit⟩, hps.symm⟩
      · intro ⟨n, hn, hexit, hps⟩
        cases n with
        | zero => exact absurd hlt hexit.outside
        | succ n =>
          have htail := (exitsAfter_succ.mp hexit).2
          exact ⟨_, ih.mpr ⟨n, by omega, htail, rfl⟩, hps.symm⟩
    · constructor
      · intro h
        obtain rfl := Option.some_inj.mp h
        exact ⟨0, by omega, exitsAfter_zero.mpr hlt, rfl⟩
      · intro ⟨n, hn, hexit, hps⟩
        cases n with
        | zero => rw [hps]; rfl
        | succ n => exact absurd (exitsAfter_succ.mp hexit).1 hlt

end

/-! ## Maps -/

/-- Both walks of `pmm_init` end, and the entries they read start inside the map. -/
def WalksInside (mem : Mem) (mbi : MultibootInfo) : Prop :=
  ∃ ps : List ℕ, (∀ p ∈ ps, mbi.mmapAddr ≤ p ∧ p < mbi.mmapAddr + mbi.mmapLength) ∧
    ∃ N, ∀ fuel ≥ N,
      mmapReads mem (u32 (mbi.mmapAddr + mbi.mmapLength)) fuel mbi.mmapAddr = some ps ∧
      (∀ memEnd, mmapWalk mem (u32 (mbi.mmapAddr + mbi.mmapLength)) memEndBody fuel mbi.mmapAddr
        memEnd = some ((ps.map (entryAt mem)).foldl memEndBody memEnd)) ∧
      ∀ s, mmapWalk mem (u32 (mbi.mmapAddr + mbi.mmapLength)) releaseBody fuel mbi.mmapAddr s =
        some ((ps.map (entryAt mem)).foldl releaseBody s)

/-- From entry to entry by integer sums, every entry that starts inside the map ends below
    `2^32`. -/
def SizesFit (mem : Mem) (mbi : MultibootInfo) : Prop :=
  ∀ k, (entryEnd mem)^[k] mbi.mmapAddr < mbi.mmapAddr + mbi.mmapLength →
    (entryEnd mem)^[k + 1] mbi.mmapAddr < 2 ^ 32

theorem lt_entryEnd (mem : Mem) (mmap : ℕ) : mmap < entryEnd mem mmap := by
  rw [entryEnd]
  omega

theorem le_iterate_entryEnd (mem : Mem) (mmap k : ℕ) : mmap ≤ (entryEnd mem)^[k] mmap :=
  Function.id_le_iterate_of_id_le (fun p => (lt_entryEnd mem p).le) k mmap

/-- As long as no sum wraps around, the cursor is where the integer sums are. -/
theorem exists_exitsAfter_nextEntry {mem : Mem} {mbi : MultibootInfo} (h : SizesFit mem mbi) :
    ∃ n, ExitsAfter (nextEntry mem) (· < mbi.mmapAddr + mbi.mmapLength) mbi.mmapAddr n ∧
      ∀ k ≤ n, mbi.mmapAddr ≤ (nextEntry mem)^[k] mbi.mmapAddr := by
  obtain ⟨n, hexit⟩ := exists_exitsAfter (lt_entryEnd mem) (mbi.mmapAddr + mbi.mmapLength)
  obtain ⟨hnext, hsame⟩ := hexit.congr (g := nextEntry mem) fun k hk => by
    have hfit := h k (hexit.inside k hk)
    rw [Function.iterate_succ_apply'] at hfit ⊢
    exact u32_of_lt hfit
  refine ⟨n, hnext, ?_⟩
  intro k hk
  rw [hsame k hk]
  exact le_iterate_entryEnd mem mbi.mmapAddr k

/-- For every memory map that ends below `2^32` and every contents of memory in which no
    entry of the map, counted by integer sums, reaches `2^32`: both walks end and read inside
    the map. -/
theorem mmap_walks_inside_of_fit {mem : Mem} {mbi : MultibootInfo}
    (hend : mbi.mmapAddr + mbi.mmapLength < 2 ^ 32) (hfit : SizesFit mem mbi) :
    WalksInside mem mbi := by
  obtain ⟨n, hexit, habove⟩ := exists_exitsAfter_nextEntry hfit
  rw [WalksInside, u32_of_lt hend]
  refine ⟨List.iterate (nextEntry mem) mbi.mmapAddr n, ?_, n + 1, ?_⟩
  · intro p hp
    obtain ⟨k, hk, rfl⟩ := List.mem_iterate.mp hp
    exact ⟨habove k hk.le, hexit.inside k hk⟩
  · intro fuel hfuel
    have hreads := mmapReads_eq_some_iff.mpr ⟨n, hfuel, hexit, rfl⟩
    refine ⟨hreads, ?_, ?_⟩
    · intro memEnd
      rw [mmapWalk_eq_reads, hreads, Option.map_some]
    · intro s
      rw [mmapWalk_eq_reads, hreads, Option.map_some]

/-- One entry of 20 bytes behind its size, and zeros behind it. -/
theorem mmap_walks_inside_of_fit_one :
    WalksInside (write32 (fun _ => 0) 0x1000 20) ⟨0x20, 0, 24, 0x1000⟩ := by
  have hsize : (entryAt (write32 (fun _ => 0) 0x1000 20) 0x1000).size = 20 :=
    read32_write32_of_lt (by norm_num)
  refine mmap_walks_inside_of_fit (by norm_num) ?_
  intro k hk
  cases k with
  | zero =>
    show 0x1000 + (entryAt (write32 (fun _ => 0) 0x1000 20) 0x1000).size + 4 < 2 ^ 32
    rw [hsize]
    norm_num
  | succ k =>
    -- the second entry would start at the end of the map
    rw [Function.iterate_succ_apply, entryEnd, hsize] at hk
    have hle := le_iterate_entryEnd (write32 (fun _ => 0) 0x1000 20) (0x1000 + 20 + 4) k
    simp only at hk
    omega

/-- An entry of size `0xFFFFFFFC` at `0x1000` leads to itself: `pmm_init` does not
    return. -/
theorem size_leads_to_itself :
    let mem := write32 (fun _ => 0) 0x1000 0xFFFFFFFC
    let mbi : MultibootInfo := ⟨0x20, 0, 24, 0x1000⟩
    (∀ fuel s, pmmInit fuel mem mbi s = none) ∧ ¬ WalksInside mem mbi := by
  intro mem mbi
  have hnext : nextEntry mem 0x1000 = 0x1000 := by
    have hsize : (entryAt mem 0x1000).size = 0xFFFFFFFC := read32_write32_of_lt (by norm_num)
    rw [nextEntry, hsize]
    decide
  have hreads : ∀ fuel, mmapReads mem 0x1018 fuel 0x1000 = none := by
    intro fuel
    induction fuel with
    | zero => rfl
    | succ fuel ih => rw [mmapReads, if_pos (by norm_num), hnext, ih]; rfl
  constructor
  · intro fuel s
    have hwalk : mmapWalk mem 0x1018 memEndBody fuel 0x1000 0 = none := by
      rw [mmapWalk_eq_reads, hreads]
      rfl
    rw [pmmInit, if_neg (by decide)]
    show (mmapWalk mem 0x1018 memEndBody fuel 0x1000 0).bind _ = none
    rw [hwalk]
    rfl
  · rintro ⟨ps, -, N, hN⟩
    have hsome := (hN N le_rfl).1
    rw [show u32 (mbi.mmapAddr + mbi.mmapLength) = 0x1018 from rfl,
      show mbi.mmapAddr = 0x1000 from rfl, hreads] at hsome
    cases hsome

end NexusKernel.Memory
