import NexusKernel.Fs.RamfsBlocks

/-!
# Directories as finite maps

A directory is a finite map from names to nodes: `entry s kids d`. The calls look up,
add and remove entries of these maps.

The field of a node holds 127 characters of a name, while lookups compare the whole
name, so this is so for names that fit the field. A longer name can be given to a node
but never found again.

Results:
* `addsEntry_made`, `removesEntry_unlinked`: what the calls do to the maps.
* `shortDistinct_of_effect`: names of less than 127 characters stay distinct whatever is made.
* `ramfs_directories_refine_maps`: in every state of every run with names that fit, the
  directories are a tree of finite maps, and each call acts on it as it should.
* `names_findable_iff`: a run gives distinct names, and each new node is found by its
  name, iff it makes no node with a longer name.
-/

namespace NexusKernel.Fs

variable {τ : Type} {H : Heap τ} {blocks : τ → ℕ → Option ℕ} {s t : Ramfs τ} {root : ℕ}
  {kids kids' : ℕ → List ℕ}

/-! ## Stored names -/

/-- The name fits the field of a node. -/
def NameFits (name : CString) : Prop := name.strlen ≤ vfsNameMax - 1

instance (name : CString) : Decidable (NameFits name) := inferInstanceAs (Decidable (_ ≤ _))

theorem take_ne_of_long {name : CString} (hlong : ¬ NameFits name) :
    name ≠ name.take (vfsNameMax - 1) := by
  intro heq
  have hlen : (name.take (vfsNameMax - 1)).strlen ≤ vfsNameMax - 1 := by
    simp [CString.take, CString.strlen]
  rw [← heq] at hlen
  exact hlong hlen

/-- The children of a directory have different names. -/
def DistinctNames (s : Ramfs τ) (root : ℕ) (kids : ℕ → List ℕ) : Prop :=
  ∀ a, Reach kids root a → ((kids a).map s.nameOf).Nodup

theorem DistinctNames.unique (hnames : DistinctNames s root kids) {d c : ℕ} (hd : Reach kids root d)
    (hc : c ∈ kids d) : ∀ a ∈ kids d, s.nameOf a = s.nameOf c → a = c := by
  intro a ha heq
  exact List.inj_on_of_nodup_map (hnames d hd) ha hc heq

theorem nameOf_congr {a : ℕ} (h : (t.nodes a).name = (s.nodes a).name) : t.nameOf a = s.nameOf a := by
  rw [Ramfs.nameOf, h]
  rfl

theorem entry_congr {a : ℕ} (hkids : kids' a = kids a)
    (hnames : ∀ c ∈ kids a, t.nameOf c = s.nameOf c) : entry t kids' a = entry s kids a := by
  funext name
  rw [entry, hkids]
  apply List.find?_congr
  intro c hc
  rw [hnames c hc]

section

variable {d x : ℕ} {name : CString} {file : ℕ} {op : MakeOp} {heap : τ}

/-- The name of a new node is the beginning of the one asked for. -/
theorem nameOf_made (hxd : x ≠ d) :
    (s.addNode d x (madeNode s d name file op) heap).nameOf x = name.take (vfsNameMax - 1) := by
  have hname : (madeNode s d name file op).name =
      strncpy (fun _ => 0) name.bytes (vfsNameMax - 1) := by
    cases op <;> rfl
  rw [Ramfs.nameOf, addNode_nodes_new hxd, hname]
  exact stringAt_strncpy (Or.inr rfl)

theorem nameOf_addNode_old {n : VfsNode} {a : ℕ} (hax : a ≠ x) :
    (s.addNode d x n heap).nameOf a = s.nameOf a := by
  apply nameOf_congr
  rw [addNode_nodes_old hax]

theorem nameOf_unlinkChild (s : Ramfs τ) (d prev c a : ℕ) :
    (unlinkChild s d prev c).nameOf a = s.nameOf a := by
  apply nameOf_congr
  rw [unlinkChild_nodes]

theorem nameOf_written {node offset size : ℕ} {buffer : ℕ → Byte} {f' : RamfsFile} {a : ℕ} :
    (written s node offset size buffer f' heap).nameOf a = s.nameOf a := by
  apply nameOf_congr
  by_cases ha : a = node
  · rw [ha, written_nodes_self]
  · rw [written_nodes_other ha]

/-! ## One entry more -/

/-- The tree has one node more, `x`, under `name` in `d`. -/
structure AddsEntry (s t : Ramfs τ) (root : ℕ) (kids kids' : ℕ → List ℕ) (d : ℕ) (name : CString)
    (x : ℕ) : Prop where
  tree : RamfsTree t root kids'
  fresh : ¬ Reach kids root x
  reach : ∀ a, Reach kids' root a ↔ Reach kids root a ∨ a = x
  entry_dir : entry t kids' d = Function.update (entry s kids d) name (some x)
  entry_other : ∀ a, Reach kids root a → a ≠ d → entry t kids' a = entry s kids a
  entry_new : entry t kids' x = fun _ => none

/-- The new node is under the name it stores. -/
theorem addsEntry_made (name : CString) (file : ℕ) (op : MakeOp) (heap : τ)
    (h : RamfsInv blocks s root kids) (hd : Reach kids root d) (hx : ¬ Reach kids root x)
    (hx0 : x ≠ 0) :
    AddsEntry s (s.addNode d x (madeNode s d name file op) heap) root kids (insertKid kids d x) d
      (name.take (vfsNameMax - 1)) x := by
  have hins := inserted_insertKid hd hx
  have hold : ∀ {a}, Reach kids root a → a ≠ x := by
    rintro a ha rfl
    exact hx ha
  have hxd := (hold hd).symm
  refine ⟨ramfsTree_addNode h.tree hd hx hx0 (freshNode_madeNode s d name file op), hx,
    fun a => reach_insert hins, ?_, ?_, ?_⟩
  · have htail : entry (s.addNode d x (madeNode s d name file op) heap) kids d = entry s kids d :=
      entry_congr rfl fun c hc => nameOf_addNode_old (hold (hd.kid hc))
    funext name'
    rw [entry, hins.kids_dir, List.find?_cons, nameOf_made hxd]
    by_cases hname : name' = name.take (vfsNameMax - 1)
    · simp [hname]
    · rw [Function.update_of_ne hname, ← htail, decide_eq_false (Ne.symm hname)]
      rfl
  · intro a ha had
    exact entry_congr (hins.kids_other a ha had) fun c hc => nameOf_addNode_old (hold (ha.kid hc))
  · funext name'
    rw [entry, hins.kids_new]
    rfl

/-! ## One entry less -/

/-- The tree is without the nodes from `c` down, which was under `name` in `d`. -/
structure RemovesEntry (s t : Ramfs τ) (root : ℕ) (kids kids' : ℕ → List ℕ) (d : ℕ)
    (name : CString) (c : ℕ) : Prop where
  tree : RamfsTree t root kids'
  reach : ∀ a, Reach kids' root a ↔ Reach kids root a ∧ ¬ Reach kids c a
  entry_dir : entry t kids' d = Function.update (entry s kids d) name none
  entry_other : ∀ a, Reach kids' root a → a ≠ d → entry t kids' a = entry s kids a

/-- What is unlinked is removed, if no other child has its name. -/
theorem removesEntry_unlinked (h : RamfsInv blocks s root kids) {c : ℕ}
    (hunique : ∀ a ∈ kids d, s.nameOf a = s.nameOf c → a = c) (hd : Reach kids root d)
    {pre post : List ℕ} (hkids : kids d = pre ++ c :: post) :
    RemovesEntry s { unlinkChild s d (pre.getLast?.getD 0) c with heap := heap } root kids
      (removeKid kids d c) d (s.nameOf c) c := by
  have hmem : c ∈ kids d := by simp [hkids]
  have hrem := removed_removeKid hd hmem
  have hsame : ∀ a, ({ unlinkChild s d (pre.getLast?.getD 0) c with heap := heap } :
      Ramfs τ).nameOf a = s.nameOf a := nameOf_unlinkChild s d _ c
  refine ⟨?_, fun a => reach_remove h.tree.tree hrem, ?_, ?_⟩
  · exact (ramfsTree_unlinkChild h.tree hd hkids).congr (fun _ _ => SameShape.refl _) le_rfl
  · have hnodup := h.tree.tree.nodup d hd
    rw [hkids] at hunique hnodup
    have hlist : removeKid kids d c d = pre ++ post := by
      rw [hrem.kids_dir, hkids, erase_middle hnodup]
    funext name'
    rw [entry, hlist]
    simp only [hsame]
    by_cases hname : name' = s.nameOf c
    · -- `c` itself is not among the others
      rw [hname, Function.update_self, List.find?_eq_none]
      intro a ha
      rw [decide_eq_true_eq]
      intro heq
      have hmem : a ∈ pre ++ c :: post := by
        simp only [List.mem_append, List.mem_cons] at ha ⊢
        tauto
      rw [hunique a hmem heq] at ha
      exact (List.nodup_cons.mp (List.nodup_middle.mp hnodup)).1 ha
    · have hc : ¬ s.nameOf c = name' := Ne.symm hname
      rw [Function.update_of_ne hname, entry, hkids, List.find?_append, List.find?_append,
        List.find?_cons_of_neg (by simpa using hc)]
  · intro a ha had
    exact entry_congr (hrem.kids_other a (hrem.reach ha) had) fun e _ => hsame e

end

/-! ## Names stay different -/

/-- A node made has a name that fits its field. -/
def FitsIfMade (H : Heap τ) (s : Ramfs τ) : FsOp → Prop
  | .make d name op => (vfsMake H s d name op).1 = 0 → NameFits name
  | _ => True

theorem distinctNames_made (hnames : DistinctNames s root kids) {d x : ℕ} {name : CString}
    {file : ℕ} {op : MakeOp} {heap : τ} (hd : Reach kids root d) (hx : ¬ Reach kids root x)
    (habsent : entry s kids d name = none) (hfits : NameFits name) :
    DistinctNames (s.addNode d x (madeNode s d name file op) heap) root (insertKid kids d x) := by
  have hins := inserted_insertKid hd hx
  have hold : ∀ {a}, Reach kids root a → a ≠ x := by
    rintro a ha rfl
    exact hx ha
  have hmap : ∀ {a}, Reach kids root a →
      (kids a).map (s.addNode d x (madeNode s d name file op) heap).nameOf = (kids a).map s.nameOf :=
    fun ha => List.map_congr_left fun c hc => nameOf_addNode_old (hold (ha.kid hc))
  intro a hreach
  obtain ha | rfl := (reach_insert hins).mp hreach
  · by_cases had : a = d
    · subst had
      rw [hins.kids_dir, List.map_cons, hmap ha, nameOf_made (hold ha).symm, CString.take_of_le hfits]
      refine List.nodup_cons.mpr ⟨?_, hnames a ha⟩
      intro hmem
      obtain ⟨c, hc, hname⟩ := List.mem_map.mp hmem
      exact entry_eq_none_iff.mp habsent c hc hname
    · rw [hins.kids_other a ha had, hmap ha]
      exact hnames a ha
  · rw [hins.kids_new]
    exact List.nodup_nil

theorem distinctNames_unlinked (hnames : DistinctNames s root kids) {d c : ℕ} {prev : ℕ} {heap : τ}
    (hd : Reach kids root d) (hmem : c ∈ kids d) :
    DistinctNames { unlinkChild s d prev c with heap := heap } root (removeKid kids d c) := by
  have hrem := removed_removeKid hd hmem
  intro a ha
  have hsame : ({ unlinkChild s d prev c with heap := heap } : Ramfs τ).nameOf = s.nameOf :=
    funext (nameOf_unlinkChild s d prev c)
  rw [hsame]
  by_cases had : a = d
  · subst had
    rw [hrem.kids_dir]
    exact (hnames a hd).sublist (List.erase_sublist.map _)
  · rw [hrem.kids_other a (hrem.reach ha) had]
    exact hnames a (hrem.reach ha)

theorem distinctNames_of_effect (hnames : DistinctNames s root kids) {op : FsOp}
    (hfits : FitsIfMade H s op) (he : Effect H blocks root s kids op (fsCall H s op) kids') :
    DistinctNames (fsCall H s op).2 root kids' := by
  generalize hr : fsCall H s op = r at he
  cases he with
  | fail => exact hnames
  | made hd _ habsent hx _ _ =>
    exact distinctNames_made hnames hd hx habsent (hfits (congrArg Prod.fst hr))
  | unlinked hd _ hc _ _ => exact distinctNames_unlinked hnames hd (mem_of_entry hc).1
  | @wrote node offset size buffer f' heap =>
    have hsame : (written s node offset size buffer f' heap).nameOf = s.nameOf :=
      funext fun _ => nameOf_written
    intro a ha
    rw [hsame]
    exact hnames a ha

/-- The links represent a tree in which siblings have different names. -/
def DirInv (blocks : τ → ℕ → Option ℕ) (root : ℕ) (s : Ramfs τ) : Prop :=
  ∃ kids, RamfsInv blocks s root kids ∧ DistinctNames s root kids

theorem dirInv_step (hH : H.Lawful blocks) {op : FsOp} (hs : DirInv blocks root s)
    (hop : OnTree root s op) (hfits : FitsIfMade H s op) : DirInv blocks root (fsCall H s op).2 := by
  obtain ⟨kids, h, hnames⟩ := hs
  obtain ⟨kids', he⟩ := effect_fsCall hH h hop
  exact ⟨kids', ramfsInv_of_effect h he, distinctNames_of_effect hnames hfits he⟩

/-- A directory of the tree made by `ramfs_init` or `vfs_mkdir`. -/
def IsDirectory (root : ℕ) (s : Ramfs τ) (d : ℕ) : Prop := InTree s root d ∧ s.modifies d = true

theorem isDirectory_ramfsInit (hroot : (ramfsInit H s).1 ≠ 0) :
    IsDirectory (ramfsInit H s).1 (ramfsInit H s).2 (ramfsInit H s).1 := by
  refine ⟨Relation.ReflTransGen.refl, ?_⟩
  rw [ramfsInit_of_room (mt ramfsInit_eq_zero_iff.mpr hroot), Ramfs.modifies]
  simp [VfsOps.modifies]

theorem dirInv_ramfsInit (hH : H.Lawful blocks) (hroot : (ramfsInit H s).1 ≠ 0) :
    DirInv blocks (ramfsInit H s).1 (ramfsInit H s).2 :=
  ⟨_, ramfsInv_ramfsInit hH hroot, fun _ _ => List.nodup_nil⟩

/-! ## Directories refine finite maps -/

/-- The nodes are a tree of finite maps, and every call acts on it as on these. -/
structure RefinesMaps (H : Heap τ) (root : ℕ) (s : Ramfs τ) (kids : ℕ → List ℕ) : Prop where
  tree : RamfsTree s root kids
  distinct : DistinctNames s root kids
  finddir : ∀ d name, IsDirectory root s d → vfsFinddir s d name = (entry s kids d name).getD 0
  readdir : ∀ d i, IsDirectory root s d → i < 2 ^ 32 → vfsReaddir s d i = (kids d).getD i 0
  make_fails_iff : ∀ d name op, IsDirectory root s d →
    ((vfsMake H s d name op).1 = -1 ↔ entry s kids d name ≠ none ∨ (nodeBlock H s).1 = 0)
  make_fails : ∀ d name op t, IsDirectory root s d → vfsMake H s d name op = (-1, t) →
    t = { s with heap := t.heap }
  make : ∀ d name op result t, IsDirectory root s d → NameFits name →
    vfsMake H s d name op = (result, t) → result ≠ -1 →
      result = 0 ∧ ∃ kids', AddsEntry s t root kids kids' d name (nodeBlock H s).1
  unlink_fails_iff : ∀ d name, IsDirectory root s d →
    ((vfsUnlink H s d name).1 = -1 ↔ entry s kids d name = none)
  unlink_fails : ∀ d name t, IsDirectory root s d → vfsUnlink H s d name = (-1, t) → t = s
  unlink : ∀ d name result t, IsDirectory root s d → vfsUnlink H s d name = (result, t) →
    result ≠ -1 → result = 0 ∧ ∃ c kids', entry s kids d name = some c ∧
      RemovesEntry s t root kids kids' d name c

theorem refinesMaps (hH : H.Lawful blocks) (h : RamfsInv blocks s root kids)
    (hnames : DistinctNames s root kids) : RefinesMaps H root s kids where
  tree := h.tree
  distinct := hnames
  finddir := by
    rintro d name ⟨hd, hmod⟩
    have hd := (inTree_iff_reach h.tree).mp hd
    exact vfsFinddir_eq h.tree hd (h.tree.dir_type d hd hmod) name
  readdir := by
    rintro d i ⟨hd, hmod⟩ hi
    have hd := (inTree_iff_reach h.tree).mp hd
    exact vfsReaddir_eq h.tree hd (h.tree.dir_type d hd hmod) hi
  make_fails_iff := by
    rintro d name op ⟨hd, hmod⟩
    obtain ⟨hfail, heap, hmake, -⟩ | ⟨habsent, hroom, -, file, heap, hmake, -⟩ :=
      make_cases hH h ((inTree_iff_reach h.tree).mp hd) hmod name op
    · rw [hmake]
      exact iff_of_true rfl hfail
    · rw [hmake]
      exact iff_of_false (show ¬ (0 : ℤ) = -1 by decide) (not_or.mpr ⟨not_not.mpr habsent, hroom⟩)
  make_fails := by
    rintro d name op t ⟨hd, hmod⟩ ht
    obtain ⟨-, heap, hmake, -⟩ | ⟨-, -, -, file, heap, hmake, -⟩ :=
      make_cases hH h ((inTree_iff_reach h.tree).mp hd) hmod name op
    · obtain rfl := (Prod.mk.inj (hmake.symm.trans ht)).2
      rfl
    · exact absurd (Prod.mk.inj (hmake.symm.trans ht)).1 (by decide)
  make := by
    rintro d name op result t ⟨hd, hmod⟩ hfits ht hne
    have hd := (inTree_iff_reach h.tree).mp hd
    obtain ⟨-, heap, hmake, -⟩ | ⟨-, hroom, hx, file, heap, hmake, -⟩ :=
      make_cases hH h hd hmod name op
    · exact absurd (Prod.mk.inj (hmake.symm.trans ht)).1.symm hne
    · obtain ⟨rfl, rfl⟩ := Prod.mk.inj (hmake.symm.trans ht)
      have hadds := addsEntry_made name file op heap h hd hx hroom
      rw [CString.take_of_le hfits] at hadds
      exact ⟨rfl, _, hadds⟩
  unlink_fails_iff := by
    rintro d name ⟨hd, hmod⟩
    have hd := (inTree_iff_reach h.tree).mp hd
    rcases hentry : entry s kids d name with _ | c
    · rw [vfsUnlink_of_absent h.tree hd hmod hentry]
      exact iff_of_true rfl rfl
    · obtain ⟨pre, post, -, hunlink⟩ := vfsUnlink_of_present (H := H) h.tree hd hmod hentry
      rw [hunlink]
      exact iff_of_false (show ¬ (0 : ℤ) = -1 by decide) (Option.some_ne_none c)
  unlink_fails := by
    rintro d name t ⟨hd, hmod⟩ ht
    have hd := (inTree_iff_reach h.tree).mp hd
    rcases hentry : entry s kids d name with _ | c
    · rw [vfsUnlink_of_absent h.tree hd hmod hentry] at ht
      exact (Prod.mk.inj ht).2.symm
    · obtain ⟨pre, post, -, hunlink⟩ := vfsUnlink_of_present (H := H) h.tree hd hmod hentry
      exact absurd (Prod.mk.inj (hunlink.symm.trans ht)).1 (by decide)
  unlink := by
    rintro d name result t ⟨hd, hmod⟩ ht hne
    have hd := (inTree_iff_reach h.tree).mp hd
    rcases hentry : entry s kids d name with _ | c
    · rw [vfsUnlink_of_absent h.tree hd hmod hentry] at ht
      exact absurd (Prod.mk.inj ht).1.symm hne
    · obtain ⟨pre, post, hkids, hunlink⟩ := vfsUnlink_of_present (H := H) h.tree hd hmod hentry
      obtain ⟨rfl, rfl⟩ := Prod.mk.inj (hunlink.symm.trans ht)
      refine ⟨rfl, c, removeKid kids d c, rfl, ?_⟩
      rw [← (mem_of_entry hentry).2]
      exact removesEntry_unlinked h (hnames.unique hd (mem_of_entry hentry).1) hd hkids

/-- In every state of every run from `ramfs_init`, with names that fit the field of a
    node, the directories are a tree of finite maps. -/
theorem ramfs_directories_refine_maps (H : Heap τ) (blocks : τ → ℕ → Option ℕ)
    (hH : H.Lawful blocks) (s : Ramfs τ) (hroot : (ramfsInit H s).1 ≠ 0) (ops : List FsOp)
    (hops : Meets (fsStep H) (fun t op => OnTree (ramfsInit H s).1 t op ∧ FitsIfMade H t op)
      (ramfsInit H s).2 ops) :
    Along (fsStep H) (fun t => ∃ kids, RefinesMaps H (ramfsInit H s).1 t kids)
      (ramfsInit H s).2 ops := by
  have hstep : ∀ t op u, DirInv blocks (ramfsInit H s).1 t →
      OnTree (ramfsInit H s).1 t op ∧ FitsIfMade H t op → fsStep H t op = some u →
      DirInv blocks (ramfsInit H s).1 u := by
    intro t op u ht hop hstep
    obtain rfl := Option.some_inj.mp hstep
    exact dirInv_step hH ht hop.1 hop.2
  refine hops.along hstep ?_ (dirInv_ramfsInit hH hroot)
  rintro t ⟨kids, h, hnames⟩
  exact ⟨kids, refinesMaps hH h hnames⟩

theorem ramfs_directories_refine_maps_slots :
    Along (fsStep slotHeap)
      (fun t => ∃ kids, RefinesMaps slotHeap (ramfsInit slotHeap slotRamfs).1 t kids)
      (ramfsInit slotHeap slotRamfs).2
      [.make (ramfsInit slotHeap slotRamfs).1 (.lit "tmp") (.mkdir 0o755),
        .make (ramfsInit slotHeap slotRamfs).1 (.lit "a.txt") (.create vfsFile),
        .unlink (ramfsInit slotHeap slotRamfs).1 (.lit "tmp")] := by
  refine ramfs_directories_refine_maps slotHeap slotBlocks lawful_slotHeap slotRamfs
    ramfsInit_slotRamfs _ ?_
  have htmp : NameFits (.lit "tmp") := by decide
  have htxt : NameFits (.lit "a.txt") := by decide
  exact ⟨⟨Relation.ReflTransGen.refl, fun _ => htmp⟩, fun _ _ =>
    ⟨⟨Relation.ReflTransGen.refl, fun _ => htxt⟩, fun _ _ =>
      ⟨⟨Relation.ReflTransGen.refl, trivial⟩, fun _ _ => trivial⟩⟩⟩

/-! ## Names of any length -/

/-- Of the children of a directory, one at most has a given name of less than 127 characters:
    names that were cut off have 127. -/
def ShortDistinct (s : Ramfs τ) (root : ℕ) (kids : ℕ → List ℕ) : Prop :=
  ∀ d, Reach kids root d → ∀ c ∈ kids d, (s.nameOf c).strlen < vfsNameMax - 1 →
    ∀ a ∈ kids d, s.nameOf a = s.nameOf c → a = c

theorem take_of_short {name : CString}
    (h : (name.take (vfsNameMax - 1)).strlen < vfsNameMax - 1) : name.take (vfsNameMax - 1) = name := by
  apply CString.take_of_le
  rw [CString.strlen, CString.take, List.length_take] at h
  show name.chars.length ≤ _
  omega

theorem shortDistinct_made (hshort : ShortDistinct s root kids) {d x : ℕ} {name : CString}
    {file : ℕ} {op : MakeOp} {heap : τ} (hd : Reach kids root d) (hx : ¬ Reach kids root x)
    (habsent : entry s kids d name = none) :
    ShortDistinct (s.addNode d x (madeNode s d name file op) heap) root (insertKid kids d x) := by
  have hins := inserted_insertKid hd hx
  have hold : ∀ {a}, Reach kids root a →
      (s.addNode d x (madeNode s d name file op) heap).nameOf a = s.nameOf a := by
    intro a ha
    refine nameOf_addNode_old ?_
    rintro rfl
    exact hx ha
  have hnew : (s.addNode d x (madeNode s d name file op) heap).nameOf x =
      name.take (vfsNameMax - 1) := by
    refine nameOf_made ?_
    rintro rfl
    exact hx hd
  -- a name that is not cut off is the one asked for, which no child has
  have hother : ∀ a ∈ kids d, (name.take (vfsNameMax - 1)).strlen < vfsNameMax - 1 →
      s.nameOf a ≠ name.take (vfsNameMax - 1) := by
    intro a ha hlen
    rw [take_of_short hlen]
    exact entry_eq_none_iff.mp habsent a ha
  intro e he c hc hlen a ha heq
  obtain he | rfl := (reach_insert hins).mp he
  · by_cases hed : e = d
    · subst hed
      rw [hins.kids_dir] at hc ha
      obtain rfl | hc' := List.mem_cons.mp hc
      · obtain rfl | ha' := List.mem_cons.mp ha
        · rfl
        · rw [hnew] at hlen heq
          rw [hold (hd.kid ha')] at heq
          exact absurd heq (hother a ha' hlen)
      · rw [hold (hd.kid hc')] at hlen heq
        obtain rfl | ha' := List.mem_cons.mp ha
        · rw [hnew] at heq
          exact absurd heq.symm (hother c hc' (heq ▸ hlen))
        · rw [hold (hd.kid ha')] at heq
          exact hshort e hd c hc' hlen a ha' heq
    · rw [hins.kids_other e he hed] at hc ha
      rw [hold (he.kid hc)] at hlen heq
      rw [hold (he.kid ha)] at heq
      exact hshort e he c hc hlen a ha heq
  · rw [hins.kids_new] at hc
    exact absurd hc List.not_mem_nil

theorem shortDistinct_of_effect (hshort : ShortDistinct s root kids) {op : FsOp}
    {r : ℤ × Ramfs τ} (he : Effect H blocks root s kids op r kids') :
    ShortDistinct r.2 root kids' := by
  cases he with
  | fail => exact hshort
  | made hd _ habsent hx _ _ => exact shortDistinct_made hshort hd hx habsent
  | @unlinked d _ c pre _ heap hd _ hc _ _ =>
    have hrem := removed_removeKid hd (mem_of_entry hc).1
    have hsame : ({ unlinkChild s d (pre.getLast?.getD 0) c with heap := heap } :
        Ramfs τ).nameOf = s.nameOf := funext (nameOf_unlinkChild s d _ c)
    intro e he b hb hlen a ha heq
    rw [hsame] at hlen heq
    have he := hrem.reach he
    exact hshort e he b (hrem.subset he hb) hlen a (hrem.subset he ha) heq
  | @wrote node offset size buffer f' heap =>
    have hsame : (written s node offset size buffer f' heap).nameOf = s.nameOf :=
      funext fun _ => nameOf_written
    intro e he b hb hlen a ha heq
    rw [hsame] at hlen heq
    exact hshort e he b hb hlen a ha heq

/-- In the tree, no two children of a directory have the same stored name. -/
def DistinctAt (root : ℕ) (s : Ramfs τ) : Prop :=
  ∃ kids, RamfsTree s root kids ∧ DistinctNames s root kids

/-- A node that is made is found under its name, which cannot be made again; unlinking
    the name takes it out of the tree. -/
def Findable (H : Heap τ) (root : ℕ) (s : Ramfs τ) : FsOp → Prop
  | .make d name op => ∀ t, vfsMake H s d name op = (0, t) →
      vfsFinddir t d name = (nodeBlock H s).1 ∧
      (∀ op', (vfsMake H t d name op').1 = -1) ∧
      (vfsUnlink H t d name).1 = 0 ∧
      InTree t root (nodeBlock H s).1 ∧
      ¬ InTree (vfsUnlink H t d name).2 root (nodeBlock H s).1
  | _ => True

section

variable {d : ℕ} {name : CString} {op : MakeOp}

/-- The stored names are different after the call, and what was made is found. -/
def EntriesOk (H : Heap τ) (root : ℕ) (s : Ramfs τ) (op : FsOp) : Prop :=
  DistinctAt root (fsCall H s op).2 ∧ Findable H root s op

/-- What a call leaves behind that has made the node `x`, whatever its name. -/
structure MadeEntry (blocks : τ → ℕ → Option ℕ) (s t : Ramfs τ) (root : ℕ) (kids : ℕ → List ℕ)
    (d : ℕ) (name : CString) (x : ℕ) : Prop where
  inv : RamfsInv blocks t root (insertKid kids d x)
  absent : entry s kids d name = none
  adds : AddsEntry s t root kids (insertKid kids d x) d (name.take (vfsNameMax - 1)) x
  name_new : t.nameOf x = name.take (vfsNameMax - 1)
  name_old : ∀ a, Reach kids root a → t.nameOf a = s.nameOf a
  distinct : DistinctNames s root kids → NameFits name → DistinctNames t root (insertKid kids d x)
  directory : IsDirectory root t d
  ne_zero : x ≠ 0

theorem madeEntry (hH : H.Lawful blocks) (h : RamfsInv blocks s root kids)
    (hd : Reach kids root d) (hmake : vfsMake H s d name op = (0, t)) :
    MadeEntry blocks s t root kids d name (nodeBlock H s).1 := by
  by_cases hmod : s.modifies d = true
  · obtain ⟨-, heap, hfail, -⟩ | ⟨habsent, hroom, hx, file, heap, hmade, hnew⟩ :=
      make_cases hH h hd hmod name op
    · exact absurd (Prod.mk.inj (hfail.symm.trans hmake)).1 (by decide)
    · obtain rfl := (Prod.mk.inj (hmake.symm.trans hmade)).2
      have hdx : d ≠ (nodeBlock H s).1 := by
        intro hdx
        exact hx (hdx ▸ hd)
      have hadds := addsEntry_made name file op heap h hd hx hroom
      refine ⟨(ramfsInv_made h hd hx hroom hnew).1, habsent, hadds, nameOf_made hdx.symm, ?_, ?_,
        ⟨?_, ?_⟩, hroom⟩
      · intro a ha
        refine nameOf_addNode_old ?_
        rintro rfl
        exact hx ha
      · intro hnames hfits
        exact distinctNames_made hnames hd hx habsent hfits
      · exact (inTree_iff_reach hadds.tree).mpr ((hadds.reach d).mpr (Or.inl hd))
      · rw [Ramfs.modifies, addNode_nodes_old hdx]
        exact hmod
  · rw [make_of_not_modifies hmod] at hmake
    exact absurd (Prod.mk.inj hmake).1 (by decide)

/-- The new node is found under what is left of its name. -/
theorem MadeEntry.finddir {x : ℕ} (h : MadeEntry blocks s t root kids d name x) :
    vfsFinddir t d (name.take (vfsNameMax - 1)) = x := by
  have hd := (inTree_iff_reach h.inv.tree).mp h.directory.1
  refine vfsFinddir_of_entry h.inv hd h.directory.2 ?_
  rw [h.adds.entry_dir, Function.update_self]

/-- A short name is found again. -/
theorem findable_of_fits (hH : H.Lawful blocks) (h : RamfsInv blocks s root kids)
    (hnames : DistinctNames s root kids) (hd : Reach kids root d) (hfits : NameFits name) :
    Findable H root s (.make d name op) := by
  intro t hmake
  have hmade := madeEntry hH h hd hmake
  have hrefines := refinesMaps hH hmade.inv (hmade.distinct hnames hfits)
  have hentry : entry t (insertKid kids d (nodeBlock H s).1) d name = some (nodeBlock H s).1 := by
    rw [hmade.adds.entry_dir, CString.take_of_le hfits, Function.update_self]
  have hfound : entry t (insertKid kids d (nodeBlock H s).1) d name ≠ none := by
    rw [hentry]
    exact Option.some_ne_none _
  refine ⟨?_, ?_, ?_⟩
  · rw [hrefines.finddir d name hmade.directory, hentry]
    rfl
  · intro op'
    exact (hrefines.make_fails_iff d name op' hmade.directory).mpr (Or.inl hfound)
  · have hunlinks := mt (hrefines.unlink_fails_iff d name hmade.directory).mp hfound
    rcases hunlink : vfsUnlink H t d name with ⟨result, u⟩
    rw [hunlink] at hunlinks
    obtain ⟨hresult, c, kids', hc, hremoves⟩ :=
      hrefines.unlink d name result u hmade.directory hunlink hunlinks
    obtain rfl := Option.some_inj.mp (hentry.symm.trans hc)
    refine ⟨hresult, ?_, ?_⟩
    · exact (inTree_iff_reach hmade.inv.tree).mpr ((hmade.adds.reach _).mpr (Or.inr rfl))
    · rw [inTree_iff_reach hremoves.tree, hremoves.reach]
      exact fun hgone => hgone.2 Reach.root

/-- A longer name is not. -/
theorem not_found_of_long (hH : H.Lawful blocks) (h : RamfsInv blocks s root kids)
    (hd : Reach kids root d) (hlong : ¬ NameFits name) (hmake : vfsMake H s d name op = (0, t)) :
    (nodeBlock H s).1 ≠ 0 ∧ vfsFinddir t d name = 0 := by
  have hmade := madeEntry hH h hd hmake
  have hd' := (inTree_iff_reach hmade.inv.tree).mp hmade.directory.1
  have hdir := hmade.inv.tree.dir_type d hd' hmade.directory.2
  refine ⟨hmade.ne_zero, (vfsFinddir_eq_zero_iff hmade.inv.tree hd' hdir name).mpr ?_⟩
  rw [hmade.adds.entry_dir, Function.update_of_ne (take_ne_of_long hlong), hmade.absent]

end

/-- For every call on the tree the entries are as they should be iff what it makes has a
    short name. -/
theorem entriesOk_iff (hH : H.Lawful blocks) {op : FsOp} (hs : DirInv blocks root s)
    (hop : OnTree root s op) : EntriesOk H root s op ↔ FitsIfMade H s op := by
  obtain ⟨kids, h, hnames⟩ := hs
  constructor
  · intro hok
    cases op with
    | make d name op =>
      intro hmake
      by_contra hlong
      have hpair : vfsMake H s d name op = (0, (vfsMake H s d name op).2) := Prod.ext hmake rfl
      obtain ⟨hx0, hlost⟩ := not_found_of_long hH h ((inTree_iff_reach h.tree).mp hop) hlong hpair
      rw [(hok.2 _ hpair).1] at hlost
      exact hx0 hlost
    | unlink => trivial
    | write => trivial
  · intro hfits
    obtain ⟨kids', h', hnames'⟩ := dirInv_step hH ⟨kids, h, hnames⟩ hop hfits
    refine ⟨⟨kids', h'.tree, hnames'⟩, ?_⟩
    cases op with
    | make d name op =>
      intro t hmake
      exact findable_of_fits hH h hnames ((inTree_iff_reach h.tree).mp hop)
        (hfits (congrArg Prod.fst hmake)) t hmake
    | unlink => trivial
    | write => trivial

/-- The stored names of siblings are different and every node made is found under its
    name along a run iff no node is made with a name of more than 127 characters. -/
theorem names_findable_iff (H : Heap τ) (blocks : τ → ℕ → Option ℕ) (hH : H.Lawful blocks)
    (s : Ramfs τ) (hroot : (ramfsInit H s).1 ≠ 0) (ops : List FsOp)
    (hops : Meets (fsStep H) (OnTree (ramfsInit H s).1) (ramfsInit H s).2 ops) :
    Meets (fsStep H) (EntriesOk H (ramfsInit H s).1) (ramfsInit H s).2 ops ↔
      Meets (fsStep H) (FitsIfMade H) (ramfsInit H s).2 ops := by
  obtain ⟨u, hu⟩ := exists_run (fun t op => ⟨_, rfl⟩ : ∀ t op, ∃ v, fsStep H t op = some v)
    (ramfsInit H s).2 ops
  refine meets_congr_on (DirInv blocks (ramfsInit H s).1) ?_ ?_ (dirInv_ramfsInit hH hroot) hops hu
  · intro t op _ ht hop _
    exact entriesOk_iff hH ht hop
  · intro t op v ht hop hfits hstep
    obtain rfl := Option.some_inj.mp hstep
    exact dirInv_step hH ht hop hfits

theorem names_findable_iff_slots :
    Meets (fsStep slotHeap) (EntriesOk slotHeap (ramfsInit slotHeap slotRamfs).1)
        (ramfsInit slotHeap slotRamfs).2
        [.make (ramfsInit slotHeap slotRamfs).1 (.lit "a") (.create vfsFile),
          .make (ramfsInit slotHeap slotRamfs).1 (.lit "a") (.mkdir 0o755)] ↔
      Meets (fsStep slotHeap) (FitsIfMade slotHeap) (ramfsInit slotHeap slotRamfs).2
        [.make (ramfsInit slotHeap slotRamfs).1 (.lit "a") (.create vfsFile),
          .make (ramfsInit slotHeap slotRamfs).1 (.lit "a") (.mkdir 0o755)] :=
  names_findable_iff slotHeap slotBlocks lawful_slotHeap slotRamfs ramfsInit_slotRamfs _
    ⟨Relation.ReflTransGen.refl, fun _ _ => ⟨Relation.ReflTransGen.refl, fun _ _ => trivial⟩⟩

/-- A name of 128 characters. -/
def longName : CString := ⟨List.replicate 128 0x61, by decide⟩

/-- A name given twice is stored twice. -/
theorem not_distinctAt_of_twice (hH : H.Lawful blocks) (h : RamfsInv blocks s root kids) {d : ℕ}
    (hd : Reach kids root d) {name : CString} {op op' : MakeOp} {u : Ramfs τ}
    (hfirst : vfsMake H s d name op = (0, t)) (hsecond : vfsMake H t d name op' = (0, u)) :
    ¬ DistinctAt root u := by
  have hmade := madeEntry hH h hd hfirst
  have hd' := (hmade.adds.reach d).mpr (Or.inl hd)
  have hmade' := madeEntry hH hmade.inv hd' hsecond
  have hd'' := (hmade'.adds.reach d).mpr (Or.inl hd')
  rintro ⟨kids', htree, hnames⟩
  -- the children of `d` are those that the links say
  have hkids : kids' d = insertKid (insertKid kids d (nodeBlock H s).1) d (nodeBlock H t).1 d :=
    (htree.links d ((inTree_iff_reach htree).mp
      ((inTree_iff_reach hmade'.inv.tree).mpr hd''))).unique (hmade'.inv.tree.links d hd'')
  have hdup := hnames d ((inTree_iff_reach htree).mp ((inTree_iff_reach hmade'.inv.tree).mpr hd''))
  have hold : u.nameOf (nodeBlock H s).1 = name.take (vfsNameMax - 1) := by
    rw [hmade'.name_old _ ((hmade.adds.reach _).mpr (Or.inr rfl)), hmade.name_new]
  rw [hkids, insertKid, Function.update_self, insertKid, Function.update_self, List.map_cons,
    List.map_cons, hmade'.name_new, hold] at hdup
  exact (List.nodup_cons.mp hdup).1 List.mem_cons_self

theorem nodeBlock_slotHeap (s : Ramfs (ℕ × List ℕ)) : (nodeBlock slotHeap s).1 ≠ 0 := by
  show (s.heap.1 + 1) * 0x20000 ≠ 0
  positivity

/-- A name that is absent can be given. -/
theorem make_slotHeap {s : Ramfs (ℕ × List ℕ)} (h : RamfsInv slotBlocks s root kids) {d : ℕ}
    (hd : IsDirectory root s d) {name : CString} (habsent : vfsFinddir s d name = 0)
    (op : MakeOp) : ∃ t, vfsMake slotHeap s d name op = (0, t) := by
  have hreach := (inTree_iff_reach h.tree).mp hd.1
  have hdir := h.tree.dir_type d hreach hd.2
  have hentry := (vfsFinddir_eq_zero_iff h.tree hreach hdir name).mp habsent
  obtain ⟨hfail | hfail, -⟩ | ⟨-, -, -, file, heap, hmake, -⟩ :=
    make_cases lawful_slotHeap h hreach hd.2 name op
  · exact absurd hentry hfail
  · exact absurd hfail (nodeBlock_slotHeap s)
  · exact ⟨_, hmake⟩

/-- Such a name is given to a file in the empty root directory, is not found there, and
    is given to another file, which is stored under the same 127 characters. -/
theorem long_name_lost :
    ∃ t u : Ramfs (ℕ × List ℕ),
      vfsCreate slotHeap (ramfsInit slotHeap slotRamfs).2 (ramfsInit slotHeap slotRamfs).1 longName
        vfsFile = (0, t) ∧
      vfsFinddir t (ramfsInit slotHeap slotRamfs).1 longName = 0 ∧
      vfsCreate slotHeap t (ramfsInit slotHeap slotRamfs).1 longName vfsFile = (0, u) ∧
      ¬ DistinctAt (ramfsInit slotHeap slotRamfs).1 u := by
  have hlong : ¬ NameFits longName := by simp [NameFits, longName, CString.strlen, vfsNameMax]
  have h := ramfsInv_ramfsInit lawful_slotHeap ramfsInit_slotRamfs
  have hroot := isDirectory_ramfsInit ramfsInit_slotRamfs
  have hempty := (vfsFinddir_eq_zero_iff h.tree Reach.root
    (h.tree.dir_type _ Reach.root hroot.2) longName).mpr rfl
  obtain ⟨t, ht⟩ := make_slotHeap h hroot hempty (.create vfsFile)
  have hmade := madeEntry lawful_slotHeap h Reach.root ht
  have hlost := (not_found_of_long lawful_slotHeap h Reach.root hlong ht).2
  obtain ⟨u, hu⟩ := make_slotHeap hmade.inv hmade.directory hlost (.create vfsFile)
  exact ⟨t, u, ht, hlost, hu, not_distinctAt_of_twice lawful_slotHeap h Reach.root ht hu⟩

end NexusKernel.Fs
