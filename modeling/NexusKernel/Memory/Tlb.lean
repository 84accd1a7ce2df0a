import NexusKernel.Common.Cache
import NexusKernel.Memory.PageTables

/-!
# Cached translations (`kernel/memory/vmm.c`)

The processor translates through a cache of page frames. It takes a frame from the
current directory's tables when the page is accessed (or before), drops entries when it
likes, and drops all of them when `vmm_switch_directory` loads `cr3` (line 107).
`vmm_unmap_page` drops the entry of its page by `invlpg` (line 131), unless it returns
early (lines 125–126); `vmm_map_page` drops nothing.

Pages without a mapping are not cached, so a new directory entry of
`get_or_create_table` needs no `invlpg`. The rights the cache also holds are left out.

Results:
* `dropsChanged_iff`: which calls drop every translation they change.
* `translations_coherent_iff`: the calls under which the processor translates as the
  tables say at every moment, whatever it caches.
-/

namespace NexusKernel.Memory

variable {σ : Type} {A : FrameSource σ} {s : Vm σ} {dir : ℕ}

/-- The frame the tables of `dir` give for a page. -/
def translation (dir : ℕ) (s : Vm σ) (n : Fin (2 ^ 20)) : Option ℕ := pageFrame s.mem dir n

/-- A call on the current directory. -/
def mapCall (A : FrameSource σ) (dir : ℕ) (s : Vm σ) (op : PageOp) : Option (Vm σ) :=
  some (pageStep A dir s op)

theorem meets_mapCall_cons {C : Vm σ → PageOp → Prop} {op : PageOp} {ops : List PageOp} :
    Meets (mapCall A dir) C s (op :: ops) ↔
      C s op ∧ Meets (mapCall A dir) C (pageStep A dir s op) ops := by
  rw [Meets, mapCall]
  simp only [Option.some.injEq, forall_eq']

/-- The call reaches `invlpg` for page `n` (line 131). -/
def invlpg (dir : ℕ) (s : Vm σ) : PageOp → Fin (2 ^ 20) → Bool
  | .map _ _ _, _ => false
  | .unmap virt, n => Present s.mem dir (tableIdx virt) ∧ n.val = virt / 4096

/-- One event of a processor that runs on the directory `dir`: a call, a fill, an
    eviction, or a load of `cr3`. -/
def tlbStep (A : FrameSource σ) (dir : ℕ) :
    Cached (Vm σ) (Fin (2 ^ 20)) ℕ → CacheEvent PageOp (Fin (2 ^ 20)) →
      Option (Cached (Vm σ) (Fin (2 ^ 20)) ℕ) :=
  cachedStep (mapCall A dir) (translation dir) (invlpg dir)

/-- The call does not map a mapped page to another frame. -/
def KeepsFrame (A : FrameSource σ) (dir : ℕ) (s : Vm σ) : PageOp → Prop
  | .map virt phys flags => succeeds A dir s (.map virt phys flags) = true →
      ∀ f, pageFrame s.mem dir (virt / 4096) = some f → f = phys &&& 0xFFFFF000
  | .unmap _ => True

/-- A page that was mapped before it is unmapped has a table, so `vmm_unmap_page` does
    not return before its `invlpg`. -/
theorem invlpg_of_mapped {virt f : ℕ} {n : Fin (2 ^ 20)} (hn : n.val = virt / 4096)
    (hf : translation dir s n = some f) : invlpg dir s (.unmap virt) n = true := by
  have hpresent : Present s.mem dir (n / 1024) := by
    by_contra hp
    rw [translation, pageFrame_of_not_present hp] at hf
    exact absurd hf (Option.some_ne_none f).symm
  rw [hn, ← tableIdx_eq] at hpresent
  exact decide_eq_true ⟨hpresent, hn⟩

/-- The calls that drop every translation they change are those that do not move a mapped
    page. -/
theorem dropsChanged_iff (hs : DirectoryTables A s dir) {op : PageOp} (hop : op.Valid) :
    DropsChanged (mapCall A dir) (translation dir) (invlpg dir) s op ↔ KeepsFrame A dir s op := by
  have hframe : ∀ n : Fin (2 ^ 20), translation dir (pageStep A dir s op) n =
      mapUpdate n (translation dir s n) (op, succeeds A dir s op) :=
    fun n => (pageStep_refines hs hop).2 n n.isLt
  cases op with
  | map virt phys flags =>
    have hpage : virt / 4096 < 2 ^ 20 := by
      have hvirt : virt < 2 ^ 32 := hop.1
      omega
    constructor
    · intro h hok f hf
      have hnew := (h _ rfl ⟨_, hpage⟩ f hf).resolve_right (Bool.false_ne_true)
      rw [hframe, mapUpdate, if_pos ⟨hok, rfl⟩, Option.some_inj] at hnew
      exact hnew.symm
    · rintro h t ⟨⟩ n f hf
      refine Or.inl ?_
      rw [hframe, mapUpdate]
      split_ifs with hmap
      · rw [h hmap.1 f (hmap.2 ▸ hf)]
      · exact hf
  | unmap virt =>
    refine iff_of_true ?_ trivial
    rintro t ⟨⟩ n f hf
    by_cases hn : n.val = virt / 4096
    · exact Or.inr (invlpg_of_mapped hn hf)
    · refine Or.inl ?_
      rw [hframe, mapUpdate_of_ne hn, hf]

/-- On one directory, from an empty cache: a sequence of maps and unmaps lets the
    processor translate every page as the tables say, at every moment and whatever it
    caches in between, iff no successful map moves a page that is mapped to another
    frame. -/
theorem translations_coherent_iff (A : FrameSource σ) (s : Vm σ) (dir : ℕ)
    (hs : DirectoryTables A s dir) (ops : List PageOp) (hops : ∀ op ∈ ops, op.Valid) :
    (∀ es, CacheEvent.calls es = ops →
      Along (tlbStep A dir) (Coherent (translation dir)) ⟨s, fun _ => none⟩ es) ↔
    Meets (mapCall A dir) (KeepsFrame A dir) s ops := by
  refine (coherent_interleavings_iff (coherent_empty (translation dir) s) ops).trans ?_
  obtain ⟨t, ht⟩ : ∃ t, run (mapCall A dir) s ops = some t := exists_run (fun s op => ⟨_, rfl⟩) s ops
  refine meets_congr_on (fun s => DirectoryTables A s dir) (A := fun _ op => op.Valid) ?_ ?_ hs
    (meets_of_forall_mem (fun op hop _ => hops op hop) s) ht
  · intro s op t hs hop _
    exact dropsChanged_iff hs hop
  · rintro s op t hs hop - ⟨⟩
    exact (pageStep_refines hs hop).1

/-- A page may be mapped to another frame after it has been unmapped, not before. -/
theorem translations_coherent_iff_small :
    (∀ es, CacheEvent.calls es =
        [.map 0x400000 0xB8000 3, .unmap 0x400000, .map 0x400000 0x9000 3] →
      Along (tlbStep pmmSource 0x100000) (Coherent (translation 0x100000))
        ⟨smallVm, fun _ => none⟩ es) ∧
    ¬ ∀ es, CacheEvent.calls es = [.map 0x400000 0xB8000 3, .map 0x400000 0x9000 3] →
      Along (tlbStep pmmSource 0x100000) (Coherent (translation 0x100000))
        ⟨smallVm, fun _ => none⟩ es := by
  have hmap : ∀ phys < 2 ^ 32, (PageOp.map 0x400000 phys 3).Valid := by
    intro phys hphys
    exact ⟨by norm_num, hphys, by norm_num⟩
  have hunmap : (PageOp.unmap 0x400000).Valid := by
    show 0x400000 < 2 ^ 32
    norm_num
  have hs := emptyDirectory_small.directoryTables
  rw [translations_coherent_iff pmmSource smallVm 0x100000 hs _ (by simp [hmap, hunmap]),
    translations_coherent_iff pmmSource smallVm 0x100000 hs _ (by simp [hmap])]
  have hok : succeeds pmmSource 0x100000 smallVm (.map 0x400000 0xB8000 3) = true := by
    decide +kernel
  obtain ⟨hs', hframes⟩ := pageStep_refines hs (hmap 0xB8000 (by norm_num))
  have hnew : pageFrame smallVm.mem 0x100000 (0x400000 / 4096) = none :=
    emptyDirectory_small.pageFrame_eq_none (by norm_num)
  have hmapped : pageFrame (pageStep pmmSource 0x100000 smallVm (.map 0x400000 0xB8000 3)).mem
      0x100000 (0x400000 / 4096) = some 0xB8000 := by
    rw [hframes _ (by norm_num), hok]
    rfl
  have hgone : pageFrame (pageStep pmmSource 0x100000 (pageStep pmmSource 0x100000 smallVm
      (.map 0x400000 0xB8000 3)) (.unmap 0x400000)).mem 0x100000 (0x400000 / 4096) = none := by
    rw [(pageStep_refines hs' hunmap).2 _ (by norm_num), mapUpdate, if_pos rfl]
  simp only [meets_mapCall_cons]
  constructor
  · exact ⟨fun _ f hf => absurd (hf.symm.trans hnew) (Option.some_ne_none f), trivial,
      fun _ f hf => absurd (hf.symm.trans hgone) (Option.some_ne_none f), trivial⟩
  · rintro ⟨-, h, -⟩
    have hmoved := h (by decide +kernel) 0xB8000 hmapped
    exact absurd hmoved (by decide)

end NexusKernel.Memory
