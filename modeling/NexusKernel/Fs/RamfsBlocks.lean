import NexusKernel.Common.Ownership
import NexusKernel.Fs.FileData
import NexusKernel.Fs.RamfsCalls

/-!
# Runs of calls on a RAM file system

The state is what `ramfs_init` leaves and any sequence of `vfs_create`, `vfs_mkdir`,
`vfs_unlink` and `vfs_write` on nodes of the tree leads to. `RamfsInv` is what all such
states have in common: the links represent a tree, the nodes of the tree own their
blocks, and the records are in order.

`Effect` says once what a call can do. The invariant, and what else is proved of runs,
follows from that.

Results:
* `effect_fsCall`: every call on a node of the tree has one of these effects.
* `ramfsInv_of_effect`: all of them keep the invariant.
* `ramfsInv_ramfsInit`: it holds after `ramfs_init`.
-/

namespace NexusKernel.Fs

variable {τ : Type} {H : Heap τ} {blocks : τ → ℕ → Option ℕ} {s t : Ramfs τ} {root : ℕ}
  {kids kids' : ℕ → List ℕ}

/-! ## The invariant -/

/-- The links represent a tree, its nodes own their blocks, and their records are in
    order. -/
structure RamfsInv (blocks : τ → ℕ → Option ℕ) (s : Ramfs τ) (root : ℕ) (kids : ℕ → List ℕ) :
    Prop where
  tree : RamfsTree s root kids
  owns : Owns (blocks s.heap) (Reach kids root) (blocksOf s)
  file_ok : ∀ a, Reach kids root a → (s.nodes a).privateData ≠ 0 →
    FileOk (blocks s.heap) (s.fileOf a)
  node_size : ∀ a, Reach kids root a → (s.nodes a).privateData ≠ 0 →
    (s.nodes a).size = (s.fileOf a).size

theorem blocksOf_of_file {a : ℕ} (hfile : (s.nodes a).privateData ≠ 0) :
    blocksOf s a = [a, (s.nodes a).privateData] ++ dataBlocks (s.fileOf a) := by
  rw [blocksOf, if_neg hfile]
  rfl

theorem blocksOf_of_no_file {a : ℕ} (hfile : (s.nodes a).privateData = 0) : blocksOf s a = [a] := by
  rw [blocksOf, if_pos hfile]

/-- What a node owns depends on its record only. -/
theorem blocksOf_congr {a : ℕ} (hdata : (t.nodes a).privateData = (s.nodes a).privateData)
    (hfile : (s.nodes a).privateData ≠ 0 → t.fileOf a = s.fileOf a) :
    blocksOf t a = blocksOf s a := by
  by_cases h0 : (s.nodes a).privateData = 0
  · rw [blocksOf_of_no_file h0, blocksOf_of_no_file (hdata.trans h0)]
  · rw [blocksOf_of_file h0, blocksOf_of_file (hdata ▸ h0), hdata, hfile h0]

/-- A node of the tree with a record is a file. -/
theorem RamfsInv.isFile (h : RamfsInv blocks s root kids) {a : ℕ} (ha : Reach kids root a)
    (hfile : (s.nodes a).privateData ≠ 0) : IsFile s a :=
  ⟨h.tree.ne_zero ha, h.tree.ops_some a ha, hfile⟩

/-- A node whose block is not live is not in the tree. -/
theorem RamfsInv.not_reach (h : RamfsInv blocks s root kids) {x : ℕ}
    (hx : blocks s.heap x = none) : ¬ Reach kids root x := by
  intro hreach
  have hlive := h.owns.live x hreach x List.mem_cons_self
  rw [hx] at hlive
  exact Bool.noConfusion hlive

/-- The record of a node of the tree is live. -/
theorem RamfsInv.record_live (h : RamfsInv blocks s root kids) {a : ℕ} (ha : Reach kids root a)
    (hfile : (s.nodes a).privateData ≠ 0) : (blocks s.heap (s.nodes a).privateData).isSome := by
  apply h.owns.live a ha
  rw [blocksOf_of_file hfile]
  simp

/-- Different nodes of the tree have different records. -/
theorem RamfsInv.record_ne (h : RamfsInv blocks s root kids) {a b : ℕ} (ha : Reach kids root a)
    (hb : Reach kids root b) (hab : a ≠ b) (hfile : (s.nodes a).privateData ≠ 0) :
    (s.nodes a).privateData ≠ (s.nodes b).privateData := by
  intro heq
  refine hab (h.owns.disjoint a b ha hb (s.nodes a).privateData ?_ ?_)
  · rw [blocksOf_of_file hfile]
    simp
  · rw [blocksOf_of_file (heq ▸ hfile), heq]
    simp

/-- An entry is found under its name. -/
theorem vfsFinddir_of_entry (h : RamfsInv blocks s root kids) {d c : ℕ} {name : CString}
    (hd : Reach kids root d) (hmod : s.modifies d = true) (hc : entry s kids d name = some c) :
    vfsFinddir s d name = c := by
  rw [vfsFinddir_eq h.tree hd (h.tree.dir_type d hd hmod), hc]
  rfl

/-- One node `x` changes, with its blocks; the others keep their records. -/
theorem RamfsInv.change (h : RamfsInv blocks s root kids) (htree : RamfsTree t root kids') {x : ℕ}
    (hother : ∀ a, a ≠ x → Reach kids' root a → Reach kids root a ∧
      (t.nodes a).privateData = (s.nodes a).privateData ∧ (t.nodes a).size = (s.nodes a).size ∧
      ((s.nodes a).privateData ≠ 0 → t.fileOf a = s.fileOf a))
    (hexchange : ∃ old new, H.Exchange blocks s.heap t.heap old new ∧
      Holds (Reach kids root) (blocksOf s) x old ∧ Holds (Reach kids' root) (blocksOf t) x new)
    (hx : Reach kids' root x → (t.nodes x).privateData ≠ 0 →
      FileOk (blocks t.heap) (t.fileOf x) ∧ (t.nodes x).size = (t.fileOf x).size) :
    RamfsInv blocks t root kids' ∧
      OwnerChange H blocks s.heap t.heap (Reach kids root) (Reach kids' root) (blocksOf s)
        (blocksOf t) x := by
  have hchange : OwnerChange H blocks s.heap t.heap (Reach kids root) (Reach kids' root)
      (blocksOf s) (blocksOf t) x := by
    refine ⟨hexchange, ?_⟩
    intro a hax ha
    obtain ⟨ha, hdata, -, hfile⟩ := hother a hax ha
    exact ⟨ha, blocksOf_congr hdata hfile⟩
  refine ⟨⟨htree, h.owns.exchange hchange, ?_, ?_⟩, hchange⟩
  · intro a ha hfile
    by_cases hax : a = x
    · subst hax
      exact (hx ha hfile).1
    · obtain ⟨ha, hdata, -, hsame⟩ := hother a hax ha
      rw [hdata] at hfile
      rw [hsame hfile]
      refine (h.file_ok a ha hfile).mono ?_
      intro h0 m hm
      refine h.owns.keep hchange hax ha ?_ hm
      rw [blocksOf_of_file hfile, dataBlocks, if_neg h0]
      simp
  · intro a ha hfile
    by_cases hax : a = x
    · subst hax
      exact (hx ha hfile).2
    · obtain ⟨ha, hdata, hsize, hsame⟩ := hother a hax ha
      rw [hdata] at hfile
      rw [hsame hfile, hsize]
      exact h.node_size a ha hfile

/-! ## Calls and their effects -/

/-- A call that can change the file system. -/
inductive FsOp where
  | make (d : ℕ) (name : CString) (op : MakeOp)
  | unlink (d : ℕ) (name : CString)
  | write (node offset size : ℕ) (buffer : Option (ℕ → Byte))

def fsCall (H : Heap τ) (s : Ramfs τ) : FsOp → ℤ × Ramfs τ
  | .make d name op => vfsMake H s d name op
  | .unlink d name => vfsUnlink H s d name
  | .write node offset size buffer => vfsWrite H s node offset size buffer

def fsStep (H : Heap τ) (s : Ramfs τ) (op : FsOp) : Option (Ramfs τ) := some (fsCall H s op).2

/-- The call is on a node of the tree, and the end of a write does not wrap around. -/
def OnTree (root : ℕ) (s : Ramfs τ) : FsOp → Prop
  | .make d _ _ => InTree s root d
  | .unlink d _ => InTree s root d
  | .write node offset size _ => InTree s root node ∧ offset + size < 2 ^ 32

/-- The blocks of a new node. -/
def newBlocks (x file : ℕ) : List ℕ := x :: if file = 0 then [] else [file]

/-- What a call can do to the tree with the children `kids`: its result, the state and
    the children after it. -/
inductive Effect (H : Heap τ) (blocks : τ → ℕ → Option ℕ) (root : ℕ) (s : Ramfs τ)
    (kids : ℕ → List ℕ) : FsOp → ℤ × Ramfs τ → (ℕ → List ℕ) → Prop
  | fail {op : FsOp} {heap : τ} (hcalls : H.Calls blocks s.heap heap)
      (hblocks : blocks heap = blocks s.heap) :
      Effect H blocks root s kids op (-1, { s with heap := heap }) kids
  | made {d : ℕ} {name : CString} {op : MakeOp} {x file : ℕ} {heap : τ}
      (hd : Reach kids root d) (hmod : s.modifies d = true)
      (habsent : entry s kids d name = none) (hx : ¬ Reach kids root x) (hx0 : x ≠ 0)
      (hnew : H.Exchange blocks s.heap heap [] (newBlocks x file)) :
      Effect H blocks root s kids (.make d name op)
        (0, s.addNode d x (madeNode s d name file op) heap) (insertKid kids d x)
  | unlinked {d : ℕ} {name : CString} {c : ℕ} {pre post : List ℕ} {heap : τ}
      (hd : Reach kids root d) (hmod : s.modifies d = true)
      (hc : entry s kids d name = some c) (hkids : kids d = pre ++ c :: post)
      (hfreed : H.Exchange blocks s.heap heap (blocksOf s c) []) :
      Effect H blocks root s kids (.unlink d name)
        (0, { unlinkChild s d (pre.getLast?.getD 0) c with heap := heap }) (removeKid kids d c)
  | wrote {node offset size : ℕ} {buffer : ℕ → Byte} {f' : RamfsFile} {heap : τ}
      (hnode : Reach kids root node) (hfile : (s.nodes node).privateData ≠ 0)
      (hroom : ¬ NoRoom H s.heap (s.fileOf node) (offset + size))
      (hsize : f'.size = (s.fileOf node).size) (hfits : offset + size ≤ f'.capacity)
      (hok : FileOk (blocks heap) f')
      (hmoved : H.Exchange blocks s.heap heap (blocksOf s node)
        ([node, (s.nodes node).privateData] ++ dataBlocks f')) :
      Effect H blocks root s kids (.write node offset size (some buffer))
        ((size : ℤ), written s node offset size buffer f' heap) kids

/-- A call that fails before it does anything. -/
theorem Effect.unchanged (op : FsOp) : Effect H blocks root s kids op (-1, s) kids :=
  Effect.fail Relation.ReflTransGen.refl rfl

section

variable {d : ℕ} {name : CString}

/-- The blocks for a node and its record. -/
theorem exchange_newBlocks (hH : H.Lawful blocks) (hroom : (nodeBlock H s).1 ≠ 0) (type : ℕ) :
    H.Exchange blocks s.heap (recordBlock H (nodeBlock H s).2 type).2 []
      (newBlocks (nodeBlock H s).1 (recordBlock H (nodeBlock H s).2 type).1) := by
  have hstart : H.Exchange blocks s.heap s.heap [] [] :=
    .refl List.nodup_nil (fun _ => Iff.rfl) fun p hp => absurd hp List.not_mem_nil
  have hnode : H.Exchange blocks s.heap (nodeBlock H s).2 [] [(nodeBlock H s).1] :=
    hstart.kmalloc hH hroom
  unfold recordBlock newBlocks
  by_cases hfile : type &&& vfsFile ≠ 0
  · rw [if_pos hfile]
    by_cases h0 : (H.kmalloc (nodeBlock H s).2 sizeofRamfsFile).1 = 0
    · rw [if_pos h0]
      exact hnode.kmalloc_fail hH h0
    · rw [if_neg h0]
      exact hnode.kmalloc hH h0
  · rw [if_neg hfile]
    exact hnode

/-- The outcomes of making a node in a directory. -/
theorem make_cases (hH : H.Lawful blocks) (h : RamfsInv blocks s root kids) (hd : Reach kids root d)
    (hmod : s.modifies d = true) (name : CString) (op : MakeOp) :
    ((entry s kids d name ≠ none ∨ (nodeBlock H s).1 = 0) ∧
      ∃ heap, vfsMake H s d name op = (-1, { s with heap := heap }) ∧
        H.Calls blocks s.heap heap ∧ blocks heap = blocks s.heap) ∨
    (entry s kids d name = none ∧ (nodeBlock H s).1 ≠ 0 ∧ ¬ Reach kids root (nodeBlock H s).1 ∧
      ∃ file heap, vfsMake H s d name op =
        (0, s.addNode d (nodeBlock H s).1 (madeNode s d name file op) heap) ∧
        H.Exchange blocks s.heap heap [] (newBlocks (nodeBlock H s).1 file)) := by
  rcases hentry : entry s kids d name with _ | c
  · by_cases hroom : (nodeBlock H s).1 = 0
    · exact Or.inl ⟨Or.inr hroom, _, make_of_no_room h.tree hd hmod hentry hroom,
        .tail .refl (Or.inl ⟨_, rfl⟩), hH.kmalloc_fail _ _ hroom⟩
    · have hx := h.not_reach (hH.kmalloc_fresh s.heap sizeofVfsNode hroom)
      have hne : (nodeBlock H s).1 ≠ d := by
        rintro rfl
        exact hx hd
      exact Or.inr ⟨rfl, hroom, hx, _, _, make_of_room h.tree hd hmod hentry hroom hne,
        exchange_newBlocks hH hroom op.type⟩
  · exact Or.inl ⟨Or.inl (Option.some_ne_none c), s.heap, make_of_present h.tree hd hmod hentry,
      .refl, rfl⟩

/-- Without the operations the call fails. -/
theorem make_of_not_modifies {op : MakeOp} (hmod : ¬ s.modifies d = true) :
    vfsMake H s d name op = (-1, s) := by
  have hguard : d = 0 ∨ s.modifies d = false := Or.inr (Bool.not_eq_true _ ▸ hmod)
  cases op with
  | create type => exact if_pos hguard
  | mkdir mode => exact if_pos hguard

theorem effect_make (hH : H.Lawful blocks) (h : RamfsInv blocks s root kids)
    (hd : Reach kids root d) (op : MakeOp) :
    ∃ kids', Effect H blocks root s kids (.make d name op) (vfsMake H s d name op) kids' := by
  by_cases hmod : s.modifies d = true
  · obtain ⟨-, heap, hmake, hcalls, hblocks⟩ | ⟨habsent, hroom, hx, file, heap, hmake, hnew⟩ :=
      make_cases hH h hd hmod name op
    · rw [hmake]
      exact ⟨kids, .fail hcalls hblocks⟩
    · rw [hmake]
      exact ⟨_, .made hd hmod habsent hx hroom hnew⟩
  · rw [make_of_not_modifies hmod]
    exact ⟨kids, .unchanged _⟩

theorem effect_unlink (hH : H.Lawful blocks) (h : RamfsInv blocks s root kids)
    (hd : Reach kids root d) :
    ∃ kids', Effect H blocks root s kids (.unlink d name) (vfsUnlink H s d name) kids' := by
  by_cases hmod : s.modifies d = true
  · rcases hentry : entry s kids d name with _ | c
    · rw [vfsUnlink_of_absent h.tree hd hmod hentry]
      exact ⟨kids, .unchanged _⟩
    · obtain ⟨pre, post, hkids, hunlink⟩ := vfsUnlink_of_present (H := H) h.tree hd hmod hentry
      have hc : Reach kids root c := hd.kid (mem_of_entry hentry).1
      have hblocks : H.Exchange blocks s.heap s.heap (blocksOf s c) (blocksOf s c).reverse :=
        .refl (List.nodup_reverse.mpr (h.owns.nodup c hc)) (fun _ => List.mem_reverse)
          (h.owns.live c hc)
      rw [hunlink]
      exact ⟨_, .unlinked hd hmod hentry hkids (hblocks.kfree_all hH)⟩
  · rw [vfsUnlink, if_pos (Or.inr (Bool.not_eq_true _ ▸ hmod))]
    exact ⟨kids, .unchanged _⟩

end

/-- A write without a buffer or a record fails. -/
theorem vfsWrite_of_nothing {node offset size : ℕ} {buffer : Option (ℕ → Byte)}
    (h : buffer = none ∨ (s.nodes node).privateData = 0) :
    vfsWrite H s node offset size buffer = (-1, s) := by
  obtain rfl | hfile := h
  · simp [vfsWrite, ramfsWrite]
  · cases buffer <;> simp [vfsWrite, ramfsWrite, hfile]

theorem effect_write (hH : H.Lawful blocks) (h : RamfsInv blocks s root kids) {node : ℕ}
    (hnode : Reach kids root node) {offset size : ℕ} (hlt : offset + size < 2 ^ 32)
    (buffer : Option (ℕ → Byte)) :
    Effect H blocks root s kids (.write node offset size buffer)
      (vfsWrite H s node offset size buffer) kids := by
  by_cases hnothing : buffer = none ∨ (s.nodes node).privateData = 0
  · rw [vfsWrite_of_nothing hnothing]
    exact .unchanged _
  · obtain ⟨hbuffer, hfile⟩ := not_or.mp hnothing
    obtain ⟨buffer, rfl⟩ := Option.ne_none_iff_exists'.mp hbuffer
    have hok := h.file_ok node hnode hfile
    have hstart : H.Exchange blocks s.heap s.heap (blocksOf s node)
        ([node, (s.nodes node).privateData] ++ dataBlocks (s.fileOf node)) := by
      rw [← blocksOf_of_file hfile]
      exact .refl (h.owns.nodup node hnode) (fun _ => Iff.rfl) (h.owns.live node hnode)
    have hexchange := reserved_exchange hH hstart (offset + size)
    obtain ⟨heap, hres, -, hblocks, hwrite⟩ | ⟨f', heap, hres, hroom, hsize, hfits, hok', hwrite⟩ :=
      vfsWrite_cases hH (h.isFile hnode hfile) hok hlt buffer
    · rw [hres] at hexchange
      rw [hwrite]
      exact .fail hexchange.calls hblocks
    · rw [hres] at hexchange
      rw [hwrite]
      exact .wrote hnode hfile hroom hsize hfits hok' hexchange

/-- Every call on a node of the tree has one of the effects. -/
theorem effect_fsCall (hH : H.Lawful blocks) (h : RamfsInv blocks s root kids) {op : FsOp}
    (hop : OnTree root s op) :
    ∃ kids', Effect H blocks root s kids op (fsCall H s op) kids' := by
  cases op with
  | make d name op => exact effect_make hH h ((inTree_iff_reach h.tree).mp hop) op
  | unlink d name => exact effect_unlink hH h ((inTree_iff_reach h.tree).mp hop)
  | write node offset size buffer =>
    exact ⟨kids, effect_write hH h ((inTree_iff_reach h.tree).mp hop.1) hop.2 buffer⟩

/-! ## The invariant along effects -/

/-- The record of a node of the tree is not one of the new blocks. -/
theorem RamfsInv.record_ne_new (h : RamfsInv blocks s root kids) {a : ℕ} (ha : Reach kids root a)
    (hfile : (s.nodes a).privateData ≠ 0) {p : ℕ} (hp : blocks s.heap p = none) :
    (s.nodes a).privateData ≠ p := by
  intro heq
  have hlive := h.record_live ha hfile
  rw [heq, hp] at hlive
  exact Bool.noConfusion hlive

section

variable {d x : ℕ} {n : VfsNode} {heap : τ}

/-- The record of a new node is empty. -/
theorem fileOf_addNode_new (hxd : x ≠ d) (hfile : n.privateData ≠ 0) :
    (s.addNode d x n heap).fileOf x = ⟨0, 0, 0⟩ := by
  rw [Ramfs.fileOf, addNode_nodes_new hxd]
  refine (congrFun (if_neg hfile) _).trans ?_
  exact Function.update_self _ _ _

/-- The records of the others are as they were. -/
theorem fileOf_addNode_old {a : ℕ} (hax : a ≠ x)
    (hne : n.privateData ≠ 0 → (s.nodes a).privateData ≠ n.privateData) :
    (s.addNode d x n heap).fileOf a = s.fileOf a := by
  rw [Ramfs.fileOf, addNode_nodes_old hax]
  by_cases hfile : n.privateData = 0
  · exact congrFun (if_pos hfile) _
  · exact (congrFun (if_neg hfile) _).trans (Function.update_of_ne (hne hfile) _ _)

theorem blocksOf_addNode_new (hxd : x ≠ d) :
    blocksOf (s.addNode d x n heap) x = newBlocks x n.privateData := by
  have hnode : (s.addNode d x n heap).nodes x = n := addNode_nodes_new hxd
  by_cases hfile : n.privateData = 0
  · rw [blocksOf_of_no_file (by rw [hnode, hfile]), newBlocks, if_pos hfile]
  · rw [blocksOf_of_file (by rw [hnode]; exact hfile), fileOf_addNode_new hxd hfile, hnode,
      newBlocks, if_neg hfile]
    rfl

/-- The nodes of the tree keep their records, since those of the new node are new. -/
theorem RamfsInv.fileOf_addNode_other (h : RamfsInv blocks s root kids) {a : ℕ}
    (ha : Reach kids root a) (hax : a ≠ x)
    (hnew : H.Exchange blocks s.heap heap [] (newBlocks x n.privateData))
    (hfile : (s.nodes a).privateData ≠ 0) : (s.addNode d x n heap).fileOf a = s.fileOf a := by
  refine fileOf_addNode_old hax ?_
  intro hnfile
  refine h.record_ne_new ha hfile (hnew.fresh _ ?_ List.not_mem_nil)
  simp [newBlocks, hnfile]

/-- A new node. -/
theorem ramfsInv_addNode (h : RamfsInv blocks s root kids) (hd : Reach kids root d)
    (hx : ¬ Reach kids root x) (hx0 : x ≠ 0) (hn : FreshNode s d n)
    (hnew : H.Exchange blocks s.heap heap [] (newBlocks x n.privateData)) :
    RamfsInv blocks (s.addNode d x n heap) root (insertKid kids d x) ∧
      OwnerChange H blocks s.heap heap (Reach kids root) (Reach (insertKid kids d x) root)
        (blocksOf s) (blocksOf (s.addNode d x n heap)) x := by
  have hins := inserted_insertKid hd hx
  have hxd : x ≠ d := by
    rintro rfl
    exact hx hd
  refine h.change (ramfsTree_addNode h.tree hd hx hx0 hn) ?_ ?_ ?_
  · intro a hax ha
    obtain ha | rfl := (reach_insert hins).mp ha
    · rw [addNode_nodes_old hax]
      exact ⟨ha, rfl, rfl, h.fileOf_addNode_other ha hax hnew⟩
    · exact absurd rfl hax
  · refine ⟨[], _, hnew, Or.inr ⟨hx, rfl⟩, Or.inl ⟨(reach_insert hins).mpr (Or.inr rfl), ?_⟩⟩
    rw [blocksOf_addNode_new hxd]
  · intro _ hfile
    rw [addNode_nodes_new hxd] at hfile ⊢
    rw [fileOf_addNode_new hxd hfile]
    exact ⟨fileOk_empty _, hn.size⟩

end

theorem privateData_madeNode (s : Ramfs τ) (d : ℕ) (name : CString) (file : ℕ) (op : MakeOp) :
    (madeNode s d name file op).privateData = file := by
  cases op <;> rfl

theorem ramfsInv_made (h : RamfsInv blocks s root kids) {d x file : ℕ} {name : CString}
    {op : MakeOp} {heap : τ} (hd : Reach kids root d) (hx : ¬ Reach kids root x) (hx0 : x ≠ 0)
    (hnew : H.Exchange blocks s.heap heap [] (newBlocks x file)) :
    RamfsInv blocks (s.addNode d x (madeNode s d name file op) heap) root (insertKid kids d x) ∧
      OwnerChange H blocks s.heap heap (Reach kids root) (Reach (insertKid kids d x) root)
        (blocksOf s) (blocksOf (s.addNode d x (madeNode s d name file op) heap)) x := by
  refine ramfsInv_addNode h hd hx hx0 (freshNode_madeNode s d name file op) ?_
  rw [privateData_madeNode]
  exact hnew

/-- A child is unlinked and its blocks are freed. -/
theorem ramfsInv_unlinked (h : RamfsInv blocks s root kids) {d c : ℕ} {pre post : List ℕ} {heap : τ}
    (hd : Reach kids root d) (hkids : kids d = pre ++ c :: post)
    (hfreed : H.Exchange blocks s.heap heap (blocksOf s c) []) :
    RamfsInv blocks { unlinkChild s d (pre.getLast?.getD 0) c with heap := heap } root
        (removeKid kids d c) ∧
      OwnerChange H blocks s.heap heap (Reach kids root) (Reach (removeKid kids d c) root)
        (blocksOf s)
        (blocksOf { unlinkChild s d (pre.getLast?.getD 0) c with heap := heap }) c := by
  have hmem : c ∈ kids d := by simp [hkids]
  have hreach : ∀ {a}, Reach (removeKid kids d c) root a → Reach kids root a ∧ ¬ Reach kids c a :=
    (reach_remove h.tree.tree (removed_removeKid hd hmem)).mp
  have hgone : ¬ Reach (removeKid kids d c) root c := fun hc => (hreach hc).2 Reach.root
  refine h.change ?_ ?_ ⟨_, [], hfreed, Or.inl ⟨hd.kid hmem, rfl⟩, Or.inr ⟨hgone, rfl⟩⟩
    fun hc => absurd hc hgone
  · refine (ramfsTree_unlinkChild h.tree hd hkids).congr ?_ le_rfl
    intro a _
    exact SameShape.refl _
  · intro a _ ha
    have hsize : ((unlinkChild s d (pre.getLast?.getD 0) c).nodes a).size = (s.nodes a).size := by
      rw [unlinkChild_nodes]
    exact ⟨(hreach ha).1, privateData_unlinkChild s d _ c a, hsize,
      fun _ => fileOf_unlinkChild s d _ c a⟩

/-- The other files of the tree keep their records through a write. -/
theorem RamfsInv.fileOf_written_other (h : RamfsInv blocks s root kids) {node a : ℕ}
    (hnode : Reach kids root node) (ha : Reach kids root a) (hne : a ≠ node)
    (hfile : (s.nodes a).privateData ≠ 0) {offset size : ℕ} {buffer : ℕ → Byte} {f' : RamfsFile}
    {heap : τ} : (written s node offset size buffer f' heap).fileOf a = s.fileOf a := by
  rw [Ramfs.fileOf, written_nodes_other hne]
  exact Function.update_of_ne (h.record_ne ha hnode hne hfile) _ _

/-- A write. -/
theorem ramfsInv_wrote (h : RamfsInv blocks s root kids) {node offset size : ℕ}
    {buffer : ℕ → Byte} {f' : RamfsFile} {heap : τ} (hnode : Reach kids root node)
    (hfile : (s.nodes node).privateData ≠ 0) (hfits : offset + size ≤ f'.capacity)
    (hok : FileOk (blocks heap) f')
    (hmoved : H.Exchange blocks s.heap heap (blocksOf s node)
      ([node, (s.nodes node).privateData] ++ dataBlocks f')) :
    RamfsInv blocks (written s node offset size buffer f' heap) root kids ∧
      OwnerChange H blocks s.heap heap (Reach kids root) (Reach kids root) (blocksOf s)
        (blocksOf (written s node offset size buffer f' heap)) node := by
  refine h.change ?_ ?_ ⟨_, _, hmoved, Or.inl ⟨hnode, rfl⟩, Or.inl ⟨hnode, ?_⟩⟩ ?_
  · refine h.tree.congr ?_ le_rfl
    intro a _
    by_cases ha : a = node
    · rw [ha, written_nodes_self]
      exact ⟨rfl, rfl, rfl, rfl, rfl, rfl, rfl⟩
    · rw [written_nodes_other ha]
      exact SameShape.refl _
  · intro a hne ha
    rw [written_nodes_other hne]
    exact ⟨ha, rfl, rfl, fun hafile => h.fileOf_written_other hnode ha hne hafile⟩
  · rw [blocksOf_of_file (by rw [written_nodes_self]; exact hfile), fileOf_written,
      written_nodes_self]
    rfl
  · intro _ _
    rw [fileOf_written, written_nodes_self]
    exact ⟨hok.written hfits, rfl⟩

/-- The heap may change as long as the blocks of the tree stay live. -/
theorem RamfsInv.mono_heap (h : RamfsInv blocks s root kids) {heap : τ}
    (hkeep : ∀ a, Reach kids root a → ∀ p ∈ blocksOf s a, ∀ m, blocks s.heap p = some m →
      blocks heap p = some m) : RamfsInv blocks { s with heap := heap } root kids where
  tree := h.tree.congr (fun _ _ => SameShape.refl _) le_rfl
  owns := by
    refine ⟨?_, h.owns.nodup, h.owns.disjoint⟩
    intro a ha p hp
    obtain ⟨m, hm⟩ := Option.isSome_iff_exists.mp (h.owns.live a ha p hp)
    rw [hkeep a ha p hp m hm]
    rfl
  file_ok := by
    intro a ha (hfile : (s.nodes a).privateData ≠ 0)
    refine (h.file_ok a ha hfile).mono ?_
    intro h0 m hm
    refine hkeep a ha _ ?_ m hm
    rw [blocksOf_of_file hfile, dataBlocks, if_neg h0]
    simp
  node_size := h.node_size

theorem RamfsInv.congr_heap (h : RamfsInv blocks s root kids) {heap : τ}
    (hblocks : blocks heap = blocks s.heap) : RamfsInv blocks { s with heap := heap } root kids := by
  apply h.mono_heap
  intro a _ p _ m hm
  rw [hblocks, hm]

/-- Every effect keeps the invariant. -/
theorem ramfsInv_of_effect (h : RamfsInv blocks s root kids) {op : FsOp} {r : ℤ × Ramfs τ}
    (he : Effect H blocks root s kids op r kids') : RamfsInv blocks r.2 root kids' := by
  cases he with
  | fail _ hblocks => exact h.congr_heap hblocks
  | made hd _ _ hx hx0 hnew =>
    exact (ramfsInv_made h hd hx hx0 hnew).1
  | unlinked hd _ _ hkids hfreed => exact (ramfsInv_unlinked h hd hkids hfreed).1
  | wrote hnode hfile _ _ hfits hok hmoved =>
    exact (ramfsInv_wrote h hnode hfile hfits hok hmoved).1

/-- No call changes what the nodes of the tree can do. -/
theorem modifies_of_effect {op : FsOp} {r : ℤ × Ramfs τ}
    (he : Effect H blocks root s kids op r kids') {a : ℕ} (ha : Reach kids root a) :
    r.2.modifies a = s.modifies a := by
  cases he with
  | fail => rfl
  | @made _ _ _ x _ _ _ _ _ hx _ _ =>
    have hax : a ≠ x := fun hax => hx (hax ▸ ha)
    rw [Ramfs.modifies, addNode_nodes_old hax]
    rfl
  | @unlinked d _ c pre _ _ _ _ _ _ _ =>
    show ((unlinkChild s d (pre.getLast?.getD 0) c).nodes a).ops.any _ = _
    rw [unlinkChild_nodes]
    rfl
  | @wrote node _ _ _ _ _ _ _ _ _ _ _ _ =>
    by_cases han : a = node
    · rw [han, Ramfs.modifies, written_nodes_self]
      rfl
    · rw [Ramfs.modifies, written_nodes_other han]
      rfl

/-! ## After `ramfs_init` -/

/-- `ramfs_init` in closed form. -/
theorem ramfsInit_of_room (hroom : (nodeBlock H s).1 ≠ 0) :
    ramfsInit H s = ((nodeBlock H s).1,
      { nodes := Function.update s.nodes (nodeBlock H s).1
          { newNode (.lit "/") vfsDirectory s.nextInode with ops := some .ramfsRootOps },
        files := s.files, mem := s.mem, created := s.created + 1, heap := (nodeBlock H s).2 }) := by
  simp only [ramfsInit, ramfsCreateNode_of_room hroom, recordBlock_vfsDirectory, if_neg hroom,
    if_true, Ramfs.setNode, Function.update_idem, Function.update_self]
  rfl

theorem ramfsInit_eq_zero_iff : (ramfsInit H s).1 = 0 ↔ (nodeBlock H s).1 = 0 := by
  by_cases hroom : (nodeBlock H s).1 = 0
  · simp only [ramfsInit, ramfsCreateNode_of_no_room hroom, if_true, hroom]
  · rw [ramfsInit_of_room hroom]

/-- A node without links and record is a tree of its own. -/
theorem ramfsInv_of_node (hroot : root ≠ 0) {n : VfsNode} (hnode : t.nodes root = n)
    (hlinks : n.parent = 0 ∧ n.children = 0 ∧ n.nextSibling = 0) (hops : n.ops ≠ none)
    (htype : n.type &&& vfsDirectory ≠ 0) (hfile : n.privateData = 0)
    (hlive : (blocks t.heap root).isSome) : RamfsInv blocks t root fun _ => [] := by
  have hleaf : ∀ {a}, Reach (fun _ => []) root a → a = root := (reach_leaf_iff rfl).mp
  have hblocks : blocksOf t root = [root] := blocksOf_of_no_file (by rw [hnode, hfile])
  refine ⟨⟨isTree_singleton rfl, hroot, ?_, ?_, ?_, ?_, ?_, ?_, ?_⟩, ⟨?_, ?_, ?_⟩, ?_, ?_⟩
  · rw [hnode, hlinks.1]
  · rw [hnode, hlinks.2.2]
  · intro a ha
    rw [hleaf ha, hnode]
    exact hlinks.2.1
  · exact fun a _ c hc => absurd hc List.not_mem_nil
  · exact fun a _ => Nat.zero_le _
  · intro a ha
    rw [hleaf ha, hnode]
    exact hops
  · intro a ha _
    rw [hleaf ha, hnode]
    exact htype
  · intro a ha p hp
    rw [hleaf ha, hblocks, List.mem_singleton] at hp
    rw [hp]
    exact hlive
  · intro a ha
    rw [hleaf ha, hblocks]
    exact List.nodup_singleton _
  · intro a b ha hb _ _ _
    rw [hleaf ha, hleaf hb]
  · intro a ha hdata
    rw [hleaf ha, hnode] at hdata
    exact absurd hfile hdata
  · intro a ha hdata
    rw [hleaf ha, hnode] at hdata
    exact absurd hfile hdata

theorem ramfsInv_ramfsInit (hH : H.Lawful blocks) (hroot : (ramfsInit H s).1 ≠ 0) :
    RamfsInv blocks (ramfsInit H s).2 (ramfsInit H s).1 fun _ => [] := by
  have hroom := mt ramfsInit_eq_zero_iff.mpr hroot
  obtain ⟨m, -, hblocks⟩ := hH.kmalloc_blocks s.heap sizeofVfsNode hroom
  have hdir : vfsDirectory &&& vfsDirectory ≠ 0 := by decide
  rw [ramfsInit_of_room hroom]
  refine ramfsInv_of_node hroom (Function.update_self _ _ _) ⟨rfl, rfl, rfl⟩
    (Option.some_ne_none _) hdir rfl ?_
  show (blocks (H.kmalloc s.heap sizeofVfsNode).2 (nodeBlock H s).1).isSome
  rw [hblocks]
  simp [nodeBlock]

/-- The invariant in every state that calls on the tree lead to. -/
theorem ramfsInv_run (hH : H.Lawful blocks) (hroot : (ramfsInit H s).1 ≠ 0) {ops : List FsOp}
    (hops : Meets (fsStep H) (OnTree (ramfsInit H s).1) (ramfsInit H s).2 ops)
    (hrun : run (fsStep H) (ramfsInit H s).2 ops = some t) :
    ∃ kids, RamfsInv blocks t (ramfsInit H s).1 kids := by
  have hstep : ∀ u op v, (∃ kids, RamfsInv blocks u (ramfsInit H s).1 kids) →
      OnTree (ramfsInit H s).1 u op → fsStep H u op = some v →
      ∃ kids, RamfsInv blocks v (ramfsInit H s).1 kids := by
    rintro u op v ⟨kids, h⟩ hop hv
    obtain rfl := Option.some_inj.mp hv
    obtain ⟨kids', he⟩ := effect_fsCall hH h hop
    exact ⟨kids', ramfsInv_of_effect h he⟩
  exact Meets.invariant hstep ⟨_, ramfsInv_ramfsInit hH hroot⟩ hops hrun

/-- Memory before `ramfs_init`, with `slotHeap` as the heap. -/
def slotRamfs : Ramfs (ℕ × List ℕ) where
  nodes := fun _ => {}
  files := fun _ => ⟨0, 0, 0⟩
  mem := fun _ => 0
  created := 0
  heap := (0, [])

theorem ramfsInit_slotRamfs : (ramfsInit slotHeap slotRamfs).1 ≠ 0 := by
  have hroom : (nodeBlock slotHeap slotRamfs).1 ≠ 0 := by decide
  exact mt ramfsInit_eq_zero_iff.mp hroom

/-- The file system on `slotHeap` with one file, at `0x40000`. -/
def slotFile : Ramfs (ℕ × List ℕ) :=
  (fsCall slotHeap (ramfsInit slotHeap slotRamfs).2
    (.make (ramfsInit slotHeap slotRamfs).1 (.lit "a.txt") (.create vfsFile))).2

theorem inTree_slotFile : InTree slotFile (ramfsInit slotHeap slotRamfs).1 0x40000 := by
  have hchild : (slotFile.nodes (ramfsInit slotHeap slotRamfs).1).children = 0x40000 := by decide
  exact Relation.ReflTransGen.single ⟨by decide, Or.inl hchild.symm⟩

end NexusKernel.Fs
