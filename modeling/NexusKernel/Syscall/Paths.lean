import NexusKernel.Fs.Directories

/-!
# Paths in system calls (`kernel/syscall/syscall.c`)

`sys_open` resolves its path component by component; `sys_mkdir` and `sys_unlink` take
the whole path as the name of an entry of the root directory.

Results:
* `pathAgrees_of_single`: the three agree on a path that is one short component.
* `components_of_agrees`, `not_agrees_of_longer`, `not_agrees_of_full`: they agree on no
  other path.
* `paths_agree_iff`: a path means the same in all calls and states iff it is a name
  without a slash and of at most 126 characters.
-/

namespace NexusKernel.Syscall

open NexusKernel.Fs

variable {τ : Type} {H : Heap τ} {blocks : τ → ℕ → Option ℕ}

/-- What `sys_open` returns for the node of its path (lines 52–55). -/
def openNode (v : Vfs τ) (node flags : ℕ) : ℤ := if node = 0 then -1 else vfsOpen v.fs node flags

/-- `sys_open` (lines 46–56), for a path that ends in the buffer of `vfs_resolve_path`. -/
def sysOpen (v : Vfs τ) (pathbuf : ℕ → Byte) (path : Option CString) (flags : ℕ) : ℤ :=
  openNode v (vfsResolvePath v pathbuf path) flags

/-- `sys_mkdir` (lines 92–102). -/
def sysMkdir (H : Heap τ) (v : Vfs τ) (path : CString) (mode : ℕ) : ℤ × Vfs τ :=
  let root := vfsGetRoot v
  if root = 0 then (-1, v)
  else
    let (result, fs) := vfsMkdir H v.fs root path mode
    (result, { v with fs := fs })

/-- `sys_unlink` (lines 104–113). -/
def sysUnlink (H : Heap τ) (v : Vfs τ) (path : CString) : ℤ × Vfs τ :=
  let root := vfsGetRoot v
  if root = 0 then (-1, v)
  else
    let (result, fs) := vfsUnlink H v.fs root path
    (result, { v with fs := fs })

/-! ## What a path means -/

/-- The path means the same to the calls in the state `v`: what `sys_mkdir` has made is
    what the path resolves to, `sys_unlink` succeeds only on a path that resolves, and
    then it does no longer, and a path that resolves to a node other than the root is
    removed by it. -/
structure PathAgrees (H : Heap τ) (v : Vfs τ) (path : CString) : Prop where
  mkdir : ∀ mode pathbuf, (sysMkdir H v path mode).1 = 0 →
    vfsResolvePath (sysMkdir H v path mode).2 pathbuf (some path) = (nodeBlock H v.fs).1
  unlink : ∀ pathbuf, (sysUnlink H v path).1 = 0 →
    vfsResolvePath v pathbuf (some path) ≠ 0 ∧
      vfsResolvePath (sysUnlink H v path).2 pathbuf (some path) = 0
  removes : ∀ pathbuf, vfsResolvePath v pathbuf (some path) ≠ 0 →
    vfsResolvePath v pathbuf (some path) ≠ v.vfsRoot →
    (sysUnlink H v path).1 = 0 ∧
      ¬ InTree (sysUnlink H v path).2.fs v.vfsRoot (vfsResolvePath v pathbuf (some path))

/-- A state of the file system: no root is mounted, or the root is that of a RAM file
    system in a state that calls have led to, with names of any length. -/
def FsState (H : Heap τ) (v : Vfs τ) : Prop :=
  v.vfsRoot = 0 ∨ ∃ s ops, (ramfsInit H s).1 ≠ 0 ∧ v.vfsRoot = (ramfsInit H s).1 ∧
    Meets (fsStep H) (OnTree (ramfsInit H s).1) (ramfsInit H s).2 ops ∧
    run (fsStep H) (ramfsInit H s).2 ops = some v.fs

/-- The path means the same to all calls, with every heap and in every state. -/
def PathMeansSame (path : CString) : Prop :=
  ∀ (τ : Type) (H : Heap τ) (blocks : τ → ℕ → Option ℕ), H.Lawful blocks →
    ∀ v, FsState H v → PathAgrees H v path

theorem sysMkdir_of_root {v : Vfs τ} (hroot : v.vfsRoot ≠ 0) (path : CString) (mode : ℕ) :
    sysMkdir H v path mode = ((vfsMkdir H v.fs v.vfsRoot path mode).1,
      { v with fs := (vfsMkdir H v.fs v.vfsRoot path mode).2 }) := if_neg hroot

theorem sysUnlink_of_root {v : Vfs τ} (hroot : v.vfsRoot ≠ 0) (path : CString) :
    sysUnlink H v path = ((vfsUnlink H v.fs v.vfsRoot path).1,
      { v with fs := (vfsUnlink H v.fs v.vfsRoot path).2 }) := if_neg hroot

/-- The tree of a root directory in which names of less than 127 characters are once. -/
def RootInv (blocks : τ → ℕ → Option ℕ) (root : ℕ) (s : Ramfs τ) : Prop :=
  ∃ kids, RamfsInv blocks s root kids ∧ ShortDistinct s root kids ∧ s.modifies root = true

theorem rootInv_ramfsInit (hH : H.Lawful blocks) {s : Ramfs τ} (hinit : (ramfsInit H s).1 ≠ 0) :
    RootInv blocks (ramfsInit H s).1 (ramfsInit H s).2 := by
  refine ⟨_, ramfsInv_ramfsInit hH hinit, ?_, (isDirectory_ramfsInit hinit).2⟩
  intro d _ c hc
  exact absurd hc List.not_mem_nil

theorem rootInv_step (hH : H.Lawful blocks) {root : ℕ} (s : Ramfs τ) (op : FsOp) (t : Ramfs τ)
    (hs : RootInv blocks root s) (hop : OnTree root s op) (hstep : fsStep H s op = some t) :
    RootInv blocks root t := by
  obtain rfl := Option.some_inj.mp hstep
  obtain ⟨kids, h, hshort, hmod⟩ := hs
  obtain ⟨kids', he⟩ := effect_fsCall hH h hop
  refine ⟨kids', ramfsInv_of_effect h he, shortDistinct_of_effect hshort he, ?_⟩
  rw [modifies_of_effect he Reach.root]
  exact hmod

/-- The states in which a root is mounted. -/
theorem rootInv_of_fsState (hH : H.Lawful blocks) {v : Vfs τ} (hv : FsState H v)
    (hroot : v.vfsRoot ≠ 0) : RootInv blocks v.vfsRoot v.fs := by
  obtain hnull | ⟨s, ops, hinit, heq, hops, hrun⟩ := hv
  · exact absurd hnull hroot
  · rw [heq]
    exact Meets.invariant (rootInv_step hH) (rootInv_ramfsInit hH hinit) hops hrun

/-! ## One component -/

theorem components_single {path : CString} (hne : path.chars ≠ []) (hslash : slash ∉ path.chars) :
    components path = [path] := by
  have hafter : path.after slash = none := by
    rcases hafter : path.after slash with _ | rest
    · rfl
    · refine absurd ?_ hslash
      rw [CString.chars_of_after hafter]
      simp
  have hpos : 0 < path.strlen := List.length_pos_iff.mpr hne
  rw [components_eq, hafter, CString.upTo_of_after hafter, if_pos hpos]
  rfl

theorem slash_not_mem_components {path : CString} : ∀ c ∈ components path, slash ∉ c.chars := by
  -- by the length of the path: a component is the first one or one of the rest
  induction hn : path.strlen using Nat.strong_induction_on generalizing path with
  | _ n ih =>
    intro c hc
    rw [components_eq, List.mem_append] at hc
    obtain hc | hc := hc
    · split_ifs at hc
      · rw [List.mem_singleton.mp hc]
        exact CString.not_mem_upTo _ _
      · exact absurd hc List.not_mem_nil
    · rcases hafter : path.after slash with _ | rest
      · rw [hafter] at hc
        exact absurd hc List.not_mem_nil
      · rw [hafter] at hc
        exact ih rest.strlen (hn ▸ strlen_after hafter) rfl c hc

section

variable {s : Ramfs τ} {root : ℕ} {kids : ℕ → List ℕ} {name : CString}

/-- An entry with a short name is unlinked, and nothing else has its name. -/
theorem unlink_of_entry (h : RamfsInv blocks s root kids) (hshort : ShortDistinct s root kids)
    (hmod : s.modifies root = true) (hname : name.strlen < vfsNameMax - 1) {c : ℕ}
    (hc : entry s kids root name = some c) :
    (vfsUnlink H s root name).1 = 0 ∧
      RemovesEntry s (vfsUnlink H s root name).2 root kids (removeKid kids root c) root name c := by
  obtain ⟨hmem, rfl⟩ := mem_of_entry hc
  obtain ⟨pre, post, hkids, hunlink⟩ :=
    vfsUnlink_of_present (H := H) h.tree Reach.root hmod hc
  rw [hunlink]
  exact ⟨rfl, removesEntry_unlinked h (hshort root Reach.root c hmem hname) Reach.root hkids⟩

/-- What is unlinked was found before and is not found after. -/
theorem unlink_of_success (h : RamfsInv blocks s root kids) (hshort : ShortDistinct s root kids)
    (hmod : s.modifies root = true) (hname : name.strlen < vfsNameMax - 1)
    (hunlink : (vfsUnlink H s root name).1 = 0) :
    vfsFinddir s root name ≠ 0 ∧ vfsFinddir (vfsUnlink H s root name).2 root name = 0 := by
  rcases hentry : entry s kids root name with _ | c
  · rw [vfsUnlink_of_absent h.tree Reach.root hmod hentry] at hunlink
    exact absurd hunlink (show ¬ (-1 : ℤ) = 0 by decide)
  · have hremoves := (unlink_of_entry (H := H) h hshort hmod hname hentry).2
    constructor
    · rw [vfsFinddir_eq h.tree Reach.root (h.tree.dir_type _ Reach.root hmod), hentry]
      exact h.tree.ne_zero (Reach.root.kid (mem_of_entry hentry).1)
    · refine vfsFinddir_of_no_entry hremoves.tree Reach.root ?_
      rw [hremoves.entry_dir, Function.update_self]

/-- What is found can be unlinked, and is then not in the tree. -/
theorem unlink_of_found (h : RamfsInv blocks s root kids) (hshort : ShortDistinct s root kids)
    (hmod : s.modifies root = true) (hname : name.strlen < vfsNameMax - 1)
    (hfound : vfsFinddir s root name ≠ 0) :
    (vfsUnlink H s root name).1 = 0 ∧
      ¬ InTree (vfsUnlink H s root name).2 root (vfsFinddir s root name) := by
  rw [vfsFinddir_eq h.tree Reach.root (h.tree.dir_type _ Reach.root hmod)] at hfound ⊢
  rcases hentry : entry s kids root name with _ | c
  · rw [hentry] at hfound
    exact absurd rfl hfound
  · obtain ⟨hresult, hremoves⟩ := unlink_of_entry (H := H) h hshort hmod hname hentry
    refine ⟨hresult, ?_⟩
    rw [inTree_iff_reach hremoves.tree, hremoves.reach]
    exact fun hgone => hgone.2 Reach.root

end

/-- On a single short component the calls agree. -/
theorem pathAgrees_of_single (hH : H.Lawful blocks) {v : Vfs τ} (hv : FsState H v)
    {path : CString} (hname : path.strlen < vfsNameMax - 1)
    (hsingle : components path = [path]) : PathAgrees H v path := by
  have hlen : path.strlen < vfsPathMax - 1 := hname.trans (by decide)
  have hresolve : ∀ (w : Vfs τ) pathbuf,
      vfsResolvePath w pathbuf (some path) = vfsFinddir w.fs w.vfsRoot path := by
    intro w pathbuf
    rw [vfsResolvePath_eq w pathbuf hlen, hsingle]
    rfl
  by_cases hroot : v.vfsRoot = 0
  · have hmkdir : ∀ mode, sysMkdir H v path mode = (-1, v) := fun mode => if_pos hroot
    have hunlink : sysUnlink H v path = (-1, v) := if_pos hroot
    refine ⟨?_, ?_, ?_⟩
    · intro mode pathbuf hmake
      rw [hmkdir] at hmake
      exact absurd hmake (show ¬ (-1 : ℤ) = 0 by decide)
    · intro pathbuf hgone
      rw [hunlink] at hgone
      exact absurd hgone (show ¬ (-1 : ℤ) = 0 by decide)
    · intro pathbuf hfound
      rw [hresolve, hroot] at hfound
      exact absurd rfl hfound
  · obtain ⟨kids, h, hshort, hmod⟩ := rootInv_of_fsState hH hv hroot
    refine ⟨?_, ?_, ?_⟩
    · intro mode pathbuf hmake
      rw [sysMkdir_of_root hroot] at hmake ⊢
      rw [hresolve]
      have hpair : vfsMake H v.fs v.vfsRoot path (.mkdir mode) =
          (0, (vfsMkdir H v.fs v.vfsRoot path mode).2) := Prod.ext hmake rfl
      have hfound := (madeEntry hH h Reach.root hpair).finddir
      rwa [CString.take_of_le hname.le] at hfound
    · intro pathbuf hgone
      rw [sysUnlink_of_root hroot] at hgone ⊢
      rw [hresolve, hresolve]
      exact unlink_of_success h hshort hmod hname hgone
    · intro pathbuf hfound _
      rw [hresolve] at hfound ⊢
      rw [sysUnlink_of_root hroot]
      exact unlink_of_found h hshort hmod hname hfound

/-! ## Any other path -/

/-- In an empty root there is nothing but what was made, and in that there is nothing. -/
theorem walk_of_made {s t : Ramfs τ} {root : ℕ} {name : CString} {x : ℕ}
    (hmade : MadeEntry blocks s t root (fun _ => []) root name x) {names : List CString}
    (hwalk : walk t root names = x) : names = [name.take (vfsNameMax - 1)] := by
  have hx := hmade.adds.fresh
  have hfind : ∀ c, c ≠ name.take (vfsNameMax - 1) → vfsFinddir t root c = 0 := by
    intro c hc
    refine vfsFinddir_of_no_entry hmade.inv.tree Reach.root ?_
    rw [hmade.adds.entry_dir, Function.update_of_ne hc]
    rfl
  have hnone : ∀ c, vfsFinddir t x c = 0 := by
    intro c
    refine vfsFinddir_of_no_entry hmade.inv.tree ((hmade.adds.reach x).mpr (Or.inr rfl)) ?_
    rw [hmade.adds.entry_new]
  cases names with
  | nil =>
    refine absurd ?_ hx
    rw [← hwalk]
    exact Reach.root
  | cons c names =>
    by_cases hc : c = name.take (vfsNameMax - 1)
    · rw [hc] at hwalk ⊢
      cases names with
      | nil => rfl
      | cons c' names =>
        have hlost : walk t root (name.take (vfsNameMax - 1) :: c' :: names) = 0 := by
          show walk t (vfsFinddir t (vfsFinddir t root _) c') names = 0
          rw [hmade.finddir, hnone, walk_zero]
        exact absurd (hwalk.symm.trans hlost) hmade.ne_zero
    · have hlost : walk t root (c :: names) = 0 := by
        show walk t (vfsFinddir t root c) names = 0
        rw [hfind c hc, walk_zero]
      exact absurd (hwalk.symm.trans hlost) hmade.ne_zero

/-- A RAM file system with nothing in it, mounted as the root. -/
def freshVfs : Vfs (ℕ × List ℕ) where
  fs := (ramfsInit slotHeap slotRamfs).2
  vfsRoot := (ramfsInit slotHeap slotRamfs).1
  mountList := 0
  mountCount := 0
  mounts := fun _ => ⟨fun _ => 0, fun _ => 0, 0, 0⟩

/-- The root with one directory in it. -/
theorem exists_mkdir (name : CString) :
    ∃ t, vfsMkdir slotHeap freshVfs.fs freshVfs.vfsRoot name 0 = (0, t) ∧
      MadeEntry slotBlocks freshVfs.fs t freshVfs.vfsRoot (fun _ => []) freshVfs.vfsRoot name
        (nodeBlock slotHeap freshVfs.fs).1 := by
  have h := ramfsInv_ramfsInit lawful_slotHeap ramfsInit_slotRamfs
  have hempty : vfsFinddir freshVfs.fs freshVfs.vfsRoot name = 0 :=
    vfsFinddir_of_no_entry h.tree Reach.root rfl
  obtain ⟨t, ht⟩ := make_slotHeap h (isDirectory_ramfsInit ramfsInit_slotRamfs) hempty (.mkdir 0)
  exact ⟨t, ht, madeEntry lawful_slotHeap h Reach.root ht⟩

theorem fsState_freshVfs : FsState slotHeap freshVfs :=
  Or.inr ⟨slotRamfs, [], ramfsInit_slotRamfs, rfl, trivial, rfl⟩

/-- The root with some directories made in it. -/
theorem fsState_of_mkdirs (names : List CString) {t : Ramfs (ℕ × List ℕ)}
    (hrun : run (fsStep slotHeap) freshVfs.fs
      (names.map fun name => .make freshVfs.vfsRoot name (.mkdir 0)) = some t) :
    FsState slotHeap { freshVfs with fs := t } := by
  refine Or.inr ⟨slotRamfs, _, ramfsInit_slotRamfs, rfl, meets_of_forall_mem ?_ _, hrun⟩
  simp only [List.forall_mem_map]
  exact fun _ _ _ => Relation.ReflTransGen.refl

theorem run_mkdir {s t : Ramfs (ℕ × List ℕ)} {root : ℕ} {name : CString} {names : List CString}
    (hmake : vfsMkdir slotHeap s root name 0 = (0, t)) :
    run (fsStep slotHeap) s ((name :: names).map fun name => .make root name (.mkdir 0)) =
      run (fsStep slotHeap) t (names.map fun name => .make root name (.mkdir 0)) := by
  show (some (vfsMkdir slotHeap s root name 0).2).bind _ = _
  rw [hmake]
  rfl

/-- If the calls agree, the path has one component, the name that `sys_mkdir` stores. -/
theorem components_of_agrees {path : CString} (hlen : path.strlen < vfsPathMax - 1)
    (hagrees : PathAgrees slotHeap freshVfs path) :
    components path = [path.take (vfsNameMax - 1)] := by
  obtain ⟨t, ht, hmade⟩ := exists_mkdir path
  have hmkdir : sysMkdir slotHeap freshVfs path 0 = (0, { freshVfs with fs := t }) := by
    rw [sysMkdir_of_root ramfsInit_slotRamfs, ht]
  have hresolve := hagrees.mkdir 0 (fun _ => 0)
  rw [hmkdir, vfsResolvePath_eq _ _ hlen] at hresolve
  exact walk_of_made hmade (hresolve rfl)

/-- A path that is longer than its component cannot be unlinked. -/
theorem not_agrees_of_longer {path : CString} (hlen : path.strlen < vfsPathMax - 1)
    (hcomponents : components path = [path.take (vfsNameMax - 1)]) (hlong : ¬ NameFits path)
    (hsame : ∀ v, FsState slotHeap v → PathAgrees slotHeap v path) : False := by
  have hfits : NameFits (path.take (vfsNameMax - 1)) := by
    simp [NameFits, CString.take, CString.strlen]
  obtain ⟨t, ht, hmade⟩ := exists_mkdir (path.take (vfsNameMax - 1))
  have hagrees := hsame _ (fsState_of_mkdirs [_] (run_mkdir ht))
  have hfound : vfsResolvePath { freshVfs with fs := t } (fun _ => 0) (some path) =
      (nodeBlock slotHeap freshVfs.fs).1 := by
    rw [vfsResolvePath_eq _ _ hlen, hcomponents, ← CString.take_of_le hfits]
    exact hmade.finddir
  have habsent : entry t (insertKid (fun _ => []) freshVfs.vfsRoot (nodeBlock slotHeap freshVfs.fs).1)
      freshVfs.vfsRoot path = none := by
    rw [hmade.adds.entry_dir, CString.take_of_le hfits,
      Function.update_of_ne (take_ne_of_long hlong)]
    rfl
  have hremoves := hagrees.removes (fun _ => 0)
  rw [hfound] at hremoves
  have hne : (nodeBlock slotHeap freshVfs.fs).1 ≠ freshVfs.vfsRoot := by
    intro hroot
    exact hmade.adds.fresh (hroot ▸ Reach.root)
  have hunlink := (hremoves hmade.ne_zero hne).1
  rw [sysUnlink_of_root ramfsInit_slotRamfs,
    vfsUnlink_of_absent hmade.inv.tree Reach.root hmade.directory.2 habsent] at hunlink
  exact absurd hunlink (show ¬ (-1 : ℤ) = 0 by decide)

/-- A name that two children of the root have is found after it was unlinked. -/
theorem found_of_namesake {s : Ramfs τ} {root : ℕ} {kids : ℕ → List ℕ} {name : CString}
    (h : RamfsInv blocks s root kids) (hmod : s.modifies root = true) {a c : ℕ}
    (hc : entry s kids root name = some c) (ha : a ∈ kids root) (hac : a ≠ c)
    (hname : s.nameOf a = name) :
    (vfsUnlink H s root name).1 = 0 ∧ vfsFinddir (vfsUnlink H s root name).2 root name ≠ 0 := by
  obtain ⟨pre, post, hkids, hunlink⟩ := vfsUnlink_of_present (H := H) h.tree Reach.root hmod hc
  have hrem := removed_removeKid (.root : Reach kids root root) (mem_of_entry hc).1
  have htree := (ramfsTree_unlinkChild h.tree Reach.root hkids).congr
    (t := (vfsUnlink H s root name).2) (fun b _ => by rw [hunlink]; exact SameShape.refl _)
    (by rw [hunlink])
  refine ⟨by rw [hunlink], ?_⟩
  have hmod' : (vfsUnlink H s root name).2.modifies root = true := by
    rw [hunlink, ← hmod]
    simp only [Ramfs.modifies, unlinkChild_nodes]
  rw [Ne, vfsFinddir_eq_zero_iff htree Reach.root (htree.dir_type _ Reach.root hmod'),
    entry_eq_none_iff]
  intro hnone
  refine hnone a ?_ ?_
  · rw [hrem.kids_dir]
    exact (List.mem_erase_of_ne hac).mpr ha
  · rw [hunlink]
    exact (nameOf_unlinkChild s root _ c a).trans hname

/-- A name of 127 characters, followed by one more, can be made twice, and both entries have
    the 127 characters as their name. -/
theorem not_agrees_of_full {path : CString} (hfull : path.strlen = vfsNameMax - 1)
    (hsingle : components path = [path])
    (hsame : ∀ v, FsState slotHeap v → PathAgrees slotHeap v path) : False := by
  obtain ⟨name, htake, hlong⟩ : ∃ name : CString,
      name.take (vfsNameMax - 1) = path ∧ ¬ NameFits name := by
    refine ⟨⟨path.chars ++ [0x61], by simpa using path.zero_not_mem⟩, ?_, ?_⟩
    · exact CString.ext (List.take_left' hfull)
    · rw [NameFits, CString.strlen, List.length_append, not_le]
      exact Nat.lt_succ_of_le hfull.ge
  obtain ⟨t, ht, hmade⟩ := exists_mkdir name
  have hlost := (not_found_of_long lawful_slotHeap
    (ramfsInv_ramfsInit lawful_slotHeap ramfsInit_slotRamfs) Reach.root hlong
    (show vfsMake slotHeap freshVfs.fs _ name (.mkdir 0) = (0, t) from ht)).2
  obtain ⟨u, hu⟩ := make_slotHeap hmade.inv hmade.directory hlost (.mkdir 0)
  have hmade' := madeEntry lawful_slotHeap hmade.inv Reach.root hu
  have hstate := fsState_of_mkdirs [name, name] ((run_mkdir ht).trans (run_mkdir hu))
  have hunlink := (hsame _ hstate).unlink (fun _ => 0)
  -- the two entries
  have hc := congrFun hmade'.adds.entry_dir path
  rw [htake, Function.update_self] at hc
  have hold := (hmade.adds.reach _).mpr (Or.inr rfl)
  have hne : (nodeBlock slotHeap freshVfs.fs).1 ≠ (nodeBlock slotHeap t).1 := by
    intro heq
    apply hmade'.adds.fresh
    rw [← heq]
    exact hold
  have hname : u.nameOf (nodeBlock slotHeap freshVfs.fs).1 = path := by
    rw [hmade'.name_old _ hold, hmade.name_new, htake]
  obtain ⟨hresult, hfound⟩ := found_of_namesake (H := slotHeap) hmade'.inv hmade'.directory.2 hc
    (by simp [insertKid]) hne hname
  rw [sysUnlink_of_root ramfsInit_slotRamfs] at hunlink
  have hgone := (hunlink hresult).2
  have hlen : path.strlen < vfsPathMax - 1 := by
    rw [hfull]
    decide
  rw [vfsResolvePath_eq _ _ hlen, hsingle] at hgone
  exact hfound hgone

/-- A path shorter than `VFS_PATH_MAX - 1` means the same to `sys_open`, `sys_mkdir` and
    `sys_unlink` in all states iff it is a name: not empty, without a slash, and of at most
    126 characters, one less than a node can hold. -/
theorem paths_agree_iff (path : CString) (hlen : path.strlen < vfsPathMax - 1) :
    PathMeansSame path ↔
      path.chars ≠ [] ∧ slash ∉ path.chars ∧ path.strlen < vfsNameMax - 1 := by
  constructor
  · intro hsame
    have hslots := hsame _ slotHeap slotBlocks lawful_slotHeap
    have hcomponents := components_of_agrees hlen (hslots _ fsState_freshVfs)
    by_cases hshort : NameFits path
    · rw [CString.take_of_le hshort] at hcomponents
      have hmem : path ∈ components path := by
        rw [hcomponents]
        exact List.mem_singleton_self _
      refine ⟨?_, slash_not_mem_components path hmem, lt_of_le_of_ne hshort ?_⟩
      · intro hnil
        rw [components_of_chars_nil hnil] at hmem
        exact absurd hmem List.not_mem_nil
      · intro hfull
        exact not_agrees_of_full hfull hcomponents hslots
    · exact (not_agrees_of_longer hlen hcomponents hshort hslots).elim
  · rintro ⟨hne, hslash, hname⟩ τ H blocks hH v hv
    exact pathAgrees_of_single hH hv hname (components_single hne hslash)

theorem paths_agree_iff_tmp :
    PathMeansSame (.lit "tmp") ↔ (CString.lit "tmp").chars ≠ [] ∧
      slash ∉ (CString.lit "tmp").chars ∧ (CString.lit "tmp").strlen < vfsNameMax - 1 :=
  paths_agree_iff (.lit "tmp") (by decide)

/-- `sys_mkdir("/tmp")` succeeds, and `"/tmp"` does not resolve. -/
theorem mkdir_slash_tmp_lost :
    (sysMkdir slotHeap freshVfs (.lit "/tmp") 0o755).1 = 0 ∧
      vfsResolvePath (sysMkdir slotHeap freshVfs (.lit "/tmp") 0o755).2 (fun _ => 0)
        (some (.lit "/tmp")) = 0 ∧
      sysOpen (sysMkdir slotHeap freshVfs (.lit "/tmp") 0o755).2 (fun _ => 0)
        (some (.lit "/tmp")) 0 = -1 := by
  have hresolve : vfsResolvePath (sysMkdir slotHeap freshVfs (.lit "/tmp") 0o755).2 (fun _ => 0)
      (some (.lit "/tmp")) = 0 := by
    have hcomponents : components (.lit "/tmp") = [.lit "tmp"] := by decide +kernel
    rw [vfsResolvePath_eq _ _ (by decide), hcomponents]
    decide +kernel
  refine ⟨by decide +kernel, hresolve, ?_⟩
  rw [sysOpen, openNode, hresolve]
  rfl

end NexusKernel.Syscall
