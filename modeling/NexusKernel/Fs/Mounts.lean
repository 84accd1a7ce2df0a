import NexusKernel.Common.Run
import NexusKernel.Fs.Vfs

/-!
# Mount points (`kernel/fs/vfs.c`)

`vfs_mount` records every mount in `mount_list`; `vfs_resolve_path` never reads that
list. It starts at `vfs_root`, the root last mounted at exactly `/`, and looks up the
components of the path in the directories below it.

Results:
* `mountFor_spec`, `mountFor_self`: the mount a path belongs to.
* `mountsReachable_iff`: resolution respects the mounts iff every mount point already
  leads, through the directories below `vfs_root`, to the root mounted there.
* `mounts_reachable_at_root`: so it does when all mounts are at `/`, and does not when a
  file system of its own is mounted anywhere else.
* `second_mount_unreachable`: a mount at `/mnt` that cannot be reached.
-/

namespace NexusKernel.Fs

variable {τ : Type}

/-! ## Where a path belongs -/

/-- A mount: the components of its path and its root. -/
abbrev MountPoint := List CString × ℕ

/-- The mount that a path with components `q` belongs to, for mounts listed latest
    first: the longest mount path that `q` starts with, and of several the latest. -/
def mountFor (q : List CString) : List MountPoint → Option MountPoint
  | [] => none
  | m :: ms =>
    match mountFor q ms with
    | none => if m.1 <+: q then some m else none
    | some b => if m.1 <+: q ∧ b.1.length ≤ m.1.length then some m else some b

/-- The node that a path with components `q` should resolve to. -/
def resolveMounted (s : Ramfs τ) (ms : List MountPoint) (q : List CString) : ℕ :=
  (mountFor q ms).elim 0 fun m => walk s m.2 (q.drop m.1.length)

/-- The root last mounted at the path with components `p`. -/
def rootAt (ms : List MountPoint) (p : List CString) : Option ℕ :=
  (ms.find? fun m => m.1 = p).map Prod.snd

theorem rootAt_cons (m : MountPoint) (ms : List MountPoint) (p : List CString) :
    rootAt (m :: ms) p = if m.1 = p then some m.2 else rootAt ms p := by
  unfold rootAt
  rw [List.find?_cons]
  by_cases hp : m.1 = p
  · simp [hp]
  · simp [hp]

/-- The mount chosen is the last one at its path, which `q` starts with, and no mount
    that `q` starts with is longer. -/
theorem mountFor_spec (q : List CString) (ms : List MountPoint) :
    match mountFor q ms with
    | none => ∀ m ∈ ms, ¬ m.1 <+: q
    | some b => b.1 <+: q ∧ rootAt ms b.1 = some b.2 ∧
        ∀ m ∈ ms, m.1 <+: q → m.1.length ≤ b.1.length := by
  induction ms with
  | nil => simp [mountFor]
  | cons m ms ih =>
    rw [mountFor]
    rcases hms : mountFor q ms with _ | b
    · rw [hms] at ih
      dsimp only at ih ⊢
      split_ifs with hm
      · refine ⟨hm, by rw [rootAt_cons, if_pos rfl], ?_⟩
        intro m' hm' hpre
        obtain rfl | hm' := List.mem_cons.mp hm'
        · exact le_rfl
        · exact absurd hpre (ih m' hm')
      · exact List.forall_mem_cons.mpr ⟨hm, ih⟩
    · rw [hms] at ih
      dsimp only at ih ⊢
      obtain ⟨hb, hroot, hlong⟩ := ih
      split_ifs with hm
      · refine ⟨hm.1, by rw [rootAt_cons, if_pos rfl], ?_⟩
        intro m' hm' hpre
        obtain rfl | hm' := List.mem_cons.mp hm'
        · exact le_rfl
        · exact (hlong m' hm' hpre).trans hm.2
      · have hshort : m.1 <+: q → m.1.length < b.1.length := by
          intro hpre
          by_contra hle
          exact hm ⟨hpre, by omega⟩
        refine ⟨hb, ?_, ?_⟩
        · rw [rootAt_cons, if_neg, hroot]
          intro heq
          have := hshort (heq ▸ hb)
          rw [heq] at this
          exact lt_irrefl _ this
        · intro m' hm' hpre
          obtain rfl | hm' := List.mem_cons.mp hm'
          · exact (hshort hpre).le
          · exact hlong m' hm' hpre

/-- A mount point belongs to the last mount made there. -/
theorem mountFor_self {ms : List MountPoint} {m : MountPoint} (hm : m ∈ ms) :
    ∃ r, rootAt ms m.1 = some r ∧ mountFor m.1 ms = some (m.1, r) := by
  have hspec := mountFor_spec m.1 ms
  rcases hfor : mountFor m.1 ms with _ | b
  · rw [hfor] at hspec
    exact absurd List.prefix_rfl (hspec m hm)
  · rw [hfor] at hspec
    obtain ⟨hpre, hroot, hlong⟩ := hspec
    have hb : b.1 = m.1 := hpre.eq_of_length_le (hlong m hm List.prefix_rfl)
    rw [hb] at hroot
    exact ⟨b.2, hroot, by rw [← hb]⟩

theorem rootAt_eq_some {ms : List MountPoint} {p : List CString} {r : ℕ}
    (h : rootAt ms p = some r) : (p, r) ∈ ms := by
  obtain ⟨m, hm, rfl⟩ := Option.map_eq_some_iff.mp h
  have hp : m.1 = p := by simpa using List.find?_some hm
  rw [← hp]
  exact List.mem_of_find?_eq_some hm

/-! ## Runs of mounts -/

structure MountOp where
  path : CString
  fsType : CString
  root : ℕ

/-- A call of `vfs_mount` that succeeds, with an absolute path shorter than
    `VFS_PATH_MAX - 1`. -/
def mountStep (H : Heap τ) (v : Vfs τ) (op : MountOp) : Option (Vfs τ) :=
  let (result, u) := vfsMount H v (some op.path) (some op.fsType) op.root
  if op.path.chars.head? = some slash ∧ op.path.strlen < vfsPathMax - 1 ∧ result = 0 then some u
  else none

/-- The mounts made by a run, latest first. -/
def mountTable (ops : List MountOp) : List MountPoint :=
  (ops.map fun op => (components op.path, op.root)).reverse

/-- Every path resolves inside the file system it belongs to. -/
def MountsReachable (v : Vfs τ) (ms : List MountPoint) : Prop :=
  ∀ (pathbuf : ℕ → Byte) (q : CString), q.strlen < vfsPathMax - 1 →
    vfsResolvePath v pathbuf (some q) = resolveMounted v.fs ms (components q)

/-- Every mount point leads, from `vfs_root` and without regard to mounts, to the root
    last mounted there. -/
def LeadsToMounts (v : Vfs τ) (ms : List MountPoint) : Prop :=
  ∀ p r, rootAt ms p = some r → walk v.fs v.vfsRoot p = r

/-- `vfs_root` is only set by a mount at `/`. -/
theorem vfsRoot_vfsMount (H : Heap τ) (v : Vfs τ) (path fsType : CString) (root : ℕ) :
    (vfsMount H v (some path) (some fsType) root).2.vfsRoot = v.vfsRoot ∨ components path = [] := by
  simp only [vfsMount]
  split_ifs with hroot hcount hmount hslash
  · exact Or.inl rfl
  · exact Or.inl rfl
  · exact Or.inl rfl
  · right
    rw [strcmp_eq_zero_iff.mp hslash, components_slash]
  · exact Or.inl rfl

theorem mountStep_eq_some {H : Heap τ} {v u : Vfs τ} {op : MountOp}
    (h : mountStep H v op = some u) :
    u = (vfsMount H v (some op.path) (some op.fsType) op.root).2 ∧
      op.path.strlen < vfsPathMax - 1 ∧
      (vfsMount H v (some op.path) (some op.fsType) op.root).1 = 0 := by
  simp only [mountStep] at h
  split_ifs at h with hguard
  exact ⟨(Option.some_inj.mp h).symm, hguard.2⟩

/-- Without a mount at the root there is no `vfs_root`. -/
theorem vfsRoot_of_run {H : Heap τ} {v u : Vfs τ} {ops : List MountOp}
    (hrun : run (mountStep H) v ops = some u) :
    u.vfsRoot = v.vfsRoot ∨ ∃ op ∈ ops, components op.path = [] := by
  induction ops generalizing v with
  | nil =>
    obtain rfl := Option.some_inj.mp hrun
    exact Or.inl rfl
  | cons op ops ih =>
    obtain ⟨w, hstep, hrun⟩ := run_cons_eq_some.mp hrun
    obtain hroot | ⟨op', hop', hcomponents⟩ := ih hrun
    · obtain ⟨hw, -⟩ := mountStep_eq_some hstep
      obtain hkeep | hcomponents := vfsRoot_vfsMount H v op.path op.fsType op.root
      · exact Or.inl (hroot.trans (hw ▸ hkeep))
      · exact Or.inr ⟨op, List.mem_cons_self, hcomponents⟩
    · exact Or.inr ⟨op', List.mem_cons_of_mem _ hop', hcomponents⟩

theorem strlen_of_run {H : Heap τ} {v u : Vfs τ} {ops : List MountOp}
    (hrun : run (mountStep H) v ops = some u) : ∀ op ∈ ops, op.path.strlen < vfsPathMax - 1 := by
  induction ops generalizing v with
  | nil => exact fun op hop => absurd hop List.not_mem_nil
  | cons op ops ih =>
    obtain ⟨w, hstep, hrun⟩ := run_cons_eq_some.mp hrun
    exact List.forall_mem_cons.mpr ⟨(mountStep_eq_some hstep).2.1, ih hrun⟩

theorem mem_mountTable {ops : List MountOp} {m : MountPoint} :
    m ∈ mountTable ops ↔ ∃ op ∈ ops, (components op.path, op.root) = m := by
  rw [mountTable, List.mem_reverse, List.mem_map]

theorem mountsReachable_iff {H : Heap τ} {v u : Vfs τ} {ops : List MountOp}
    (hrun : run (mountStep H) (vfsInit v) ops = some u) :
    MountsReachable u (mountTable ops) ↔ LeadsToMounts u (mountTable ops) := by
  constructor
  · intro hreach p r hroot
    obtain ⟨op, hop, heq⟩ := mem_mountTable.mp (rootAt_eq_some hroot)
    have hp : components op.path = p := congrArg Prod.fst heq
    have hlen := strlen_of_run hrun op hop
    obtain ⟨r', hroot', hfor⟩ := mountFor_self (rootAt_eq_some hroot)
    obtain rfl : r' = r := Option.some_inj.mp (hroot'.symm.trans hroot)
    have h := hreach (fun _ => 0) op.path hlen
    rw [vfsResolvePath_eq _ _ hlen, hp, resolveMounted, hfor] at h
    rw [h]
    show walk u.fs r' (p.drop p.length) = r'
    rw [List.drop_length]
    rfl
  · intro hleads pathbuf q hlen
    have hspec := mountFor_spec (components q) (mountTable ops)
    rw [vfsResolvePath_eq _ _ hlen, resolveMounted]
    rcases hfor : mountFor (components q) (mountTable ops) with _ | b
    · -- no mount at all that the path starts with, so none at the root
      rw [hfor] at hspec
      have hzero : u.vfsRoot = 0 := by
        obtain hroot | ⟨op, hop, hcomponents⟩ := vfsRoot_of_run hrun
        · exact hroot
        · have hmem := mem_mountTable.mpr ⟨op, hop, rfl⟩
          refine absurd ?_ (hspec _ hmem)
          rw [hcomponents]
          exact List.nil_prefix
      rw [hzero, walk_zero]
      rfl
    · rw [hfor] at hspec
      obtain ⟨⟨rest, hrest⟩, hroot, -⟩ := hspec
      rw [← hrest, walk_append, hleads b.1 b.2 hroot, Option.elim_some, List.drop_left]

/-- A successful mount at `/` sets `vfs_root`. -/
theorem vfsRoot_vfsMount_slash {H : Heap τ} {v : Vfs τ} {fsType : CString} {root : ℕ}
    (h : (vfsMount H v (some (.lit "/")) (some fsType) root).1 = 0) :
    (vfsMount H v (some (.lit "/")) (some fsType) root).2.vfsRoot = root := by
  have hfail : (-1 : ℤ) ≠ 0 := by decide
  simp only [vfsMount] at h ⊢
  split_ifs at h ⊢ with hroot hcount hmount hslash
  · exact absurd h hfail
  · exact absurd h hfail
  · exact absurd h hfail
  · rfl
  · exact absurd (strcmp_eq_zero_iff.mpr rfl) hslash

theorem mountTable_snoc (ops : List MountOp) (op : MountOp) :
    mountTable (ops ++ [op]) = (components op.path, op.root) :: mountTable ops := by
  simp [mountTable]

/-- When all mounts are at `/`, the last one is `vfs_root`. -/
theorem leadsToMounts_of_root {H : Heap τ} {v u : Vfs τ} {ops : List MountOp}
    (hrun : run (mountStep H) v ops = some u) (hops : ∀ op ∈ ops, op.path = .lit "/") :
    LeadsToMounts u (mountTable ops) := by
  intro p r hroot
  cases ops using List.reverseRecOn with
  | nil => exact absurd hroot (Option.some_ne_none r).symm
  | append_singleton ops last =>
    have hlast : last.path = .lit "/" := hops last (List.mem_append_right _ List.mem_cons_self)
    obtain ⟨w, -, hrun⟩ := run_append_eq_some.mp hrun
    obtain ⟨u', hstep, hu⟩ := run_cons_eq_some.mp hrun
    obtain rfl := Option.some_inj.mp hu
    -- no mount point has components
    obtain ⟨op, hop, heq⟩ := mem_mountTable.mp (rootAt_eq_some hroot)
    have hp : components op.path = p := congrArg Prod.fst heq
    rw [hops op hop, components_slash] at hp
    subst hp
    rw [mountTable_snoc, rootAt_cons, hlast, components_slash, if_pos rfl] at hroot
    obtain ⟨hu, -, hzero⟩ := mountStep_eq_some hstep
    rw [hlast] at hu hzero
    rw [hu]
    exact (vfsRoot_vfsMount_slash hzero).trans (Option.some_inj.mp hroot)

/-- After every run of successful mounts from `vfs_init`, in any file system: if all of them
    were made at `/`, each path resolves inside the mounted file system it belongs to; and if
    the last mount at some path has a root that is nowhere in the tree below `vfs_root`, not
    every path does. -/
theorem mounts_reachable_at_root (H : Heap τ) (v u : Vfs τ) (ops : List MountOp)
    (hrun : run (mountStep H) (vfsInit v) ops = some u) :
    ((∀ op ∈ ops, op.path = .lit "/") → MountsReachable u (mountTable ops)) ∧
      ∀ op ∈ ops, rootAt (mountTable ops) (components op.path) = some op.root →
        (∀ names, walk u.fs u.vfsRoot names ≠ op.root) → ¬ MountsReachable u (mountTable ops) := by
  constructor
  · intro hops
    exact (mountsReachable_iff hrun).mpr (leadsToMounts_of_root hrun hops)
  · intro op _ hroot hapart hreach
    exact hapart _ ((mountsReachable_iff hrun).mp hreach _ _ hroot)

/-! ## One run of each kind -/

/-- Two RAM file systems, with their roots at `0x20000` and `0x40000`. -/
def twoRoots : Ramfs (ℕ × List ℕ) :=
  (ramfsInit slotHeap (ramfsInit slotHeap ⟨fun _ => {}, fun _ => ⟨0, 0, 0⟩, fun _ => 0, 0, 0, []⟩).2).2

def twoRootsVfs : Vfs (ℕ × List ℕ) :=
  ⟨twoRoots, 0, 0, 0, fun _ => ⟨fun _ => 0, fun _ => 0, 0, 0⟩⟩

/-- Two file systems mounted at `/`, one after the other. -/
def rootMounts : List MountOp :=
  [⟨.lit "/", .lit "ramfs", 0x20000⟩, ⟨.lit "/", .lit "ramfs", 0x40000⟩]

theorem mounts_reachable_at_root_twice :
    ∃ u, run (mountStep slotHeap) (vfsInit twoRootsVfs) rootMounts = some u ∧
      u.vfsRoot = 0x40000 ∧ MountsReachable u (mountTable rootMounts) := by
  have hrun : run (mountStep slotHeap) (vfsInit twoRootsVfs) rootMounts = some _ := rfl
  refine ⟨_, hrun, rfl, (mounts_reachable_at_root slotHeap twoRootsVfs _ _ hrun).1 ?_⟩
  simp [rootMounts]

/-- A second file system at `/mnt` cannot be reached. -/
theorem second_mount_unreachable :
    ∃ u, run (mountStep slotHeap) (vfsInit twoRootsVfs)
      [⟨.lit "/", .lit "ramfs", 0x20000⟩, ⟨.lit "/mnt", .lit "ramfs", 0x40000⟩] = some u ∧
      ¬ MountsReachable u (mountTable [⟨.lit "/", .lit "ramfs", 0x20000⟩,
        ⟨.lit "/mnt", .lit "ramfs", 0x40000⟩]) ∧
      ∀ pathbuf, vfsResolvePath u pathbuf (some (.lit "/mnt")) = 0 := by
  have hlen : (CString.lit "/mnt").strlen < vfsPathMax - 1 := by decide +kernel
  refine ⟨_, rfl, ?_, ?_⟩
  · intro hreach
    have h := hreach (fun _ => 0) (.lit "/mnt") hlen
    rw [vfsResolvePath_eq _ _ hlen] at h
    revert h
    decide +kernel
  intro pathbuf
  rw [vfsResolvePath_eq _ _ hlen]
  decide +kernel

end NexusKernel.Fs
