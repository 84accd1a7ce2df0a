import NexusKernel.Common.Follow
import NexusKernel.Fs.Directories
import NexusKernel.Fs.FileBytes

/-!
# The file system as a map of paths

What the file system is for: a path, the names of directories and a last name, stands for
a file with its bytes or for a directory. `PathFs` is that map, and `PathFs.call` what the
calls are to do to it. `pathFs` reads the map off the nodes in memory.

What the heap grants, and the bytes of a gap before a write behind the end of a file, which
are whatever was in memory, are not for the map to decide: `Grants`.

Results:
* `uniquePaths_childOf`: no two paths lead to one node.
* `pathFs_made`, `pathFs_unlinked`, `pathFs_written`: what becomes of the map when the nodes
  change.
* `fsCall_refines`: a call on a node does to the map what it is to do.
-/

namespace NexusKernel.Fs

variable {τ : Type} {H : Heap τ} {blocks : τ → ℕ → Option ℕ} {s t : Ramfs τ} {root : ℕ}
  {kids kids' : ℕ → List ℕ}

/-! ## The map -/

/-- What a path stands for: whether names can be looked up behind it, whether names can be
    made and unlinked there, and the bytes, if it has a file record. -/
structure PathNode where
  directory : Bool
  modifies : Bool
  data : Option (List Byte)

abbrev PathFs := List CString → Option PathNode

/-- A call on the node of a path. -/
inductive PathOp where
  | make (name : CString) (op : MakeOp)
  | unlink (name : CString)
  | write (offset size : ℕ) (buffer : Option (ℕ → Byte))

/-- What the memory manager decides: the blocks of a new node and of its record, the room
    for a write, and the bytes it finds in a gap. -/
structure Grants where
  node : Bool
  record : Bool
  room : Bool
  stale : ℕ → Byte

/-- A new node. Only `vfs_mkdir` makes directories in which something can be made. -/
def PathNode.made (record : Bool) : MakeOp → PathNode
  | .create type =>
    ⟨type &&& vfsDirectory ≠ 0, false, if type &&& vfsFile ≠ 0 ∧ record then some [] else none⟩
  | .mkdir _ => ⟨true, true, none⟩

/-- The bytes of the buffer, and the older ones elsewhere. -/
def overwrite (bytes : List Byte) (offset size : ℕ) (buffer stale : ℕ → Byte) : List Byte :=
  (List.range (max bytes.length (offset + size))).map fun i =>
    if offset ≤ i ∧ i < offset + size then buffer (i - offset) else bytes.getD i (stale i)

/-- A write to the file at the path `p`. -/
def PathFs.write (A : PathFs) (g : Grants) (p : List CString) (offset size : ℕ) :
    Option (ℕ → Byte) → ℤ × PathFs
  | none => (-1, A)
  | some buffer =>
    if ((A p).bind PathNode.data).isSome ∧ g.room then
      (size, Function.update A p ((A p).map fun n =>
        { n with data := n.data.map (overwrite · offset size buffer g.stale) }))
    else (-1, A)

/-- What a call on the node of the path `p` returns and does. -/
def PathFs.call (A : PathFs) (g : Grants) (p : List CString) : PathOp → ℤ × PathFs
  | .make name op =>
    if (A p).any PathNode.modifies ∧ A (p ++ [name]) = none ∧ g.node then
      (0, Function.update A (p ++ [name]) (some (.made g.record op)))
    else (-1, A)
  | .unlink name =>
    if (A p).any PathNode.modifies ∧ A (p ++ [name]) ≠ none then
      (0, fun q => if p ++ [name] <+: q then none else A q)
    else (-1, A)
  | .write offset size buffer => A.write g p offset size buffer

/-- What a read of the node of the path `p` returns, and the buffer afterwards. -/
def PathFs.read (A : PathFs) (p : List CString) (offset size : ℕ) (buffer : ℕ → Byte) :
    ℤ × (ℕ → Byte) :=
  ((A p).bind PathNode.data).elim (-1, buffer) fun bytes =>
    (((bytes.drop offset).take size).length,
      fun i => ((bytes.drop offset).take size).getD i (buffer i))

/-! ## The map in memory -/

/-- The entry of `a` with the name. -/
def childOf (s : Ramfs τ) (a : ℕ) (name : CString) : Option ℕ :=
  if vfsFinddir s a name = 0 then none else some (vfsFinddir s a name)

/-- The bytes of the file at `a`. -/
def bytesOf (s : Ramfs τ) (a : ℕ) : List Byte :=
  (List.range (s.fileOf a).size).map fun i => s.mem ((s.fileOf a).data + i)

def pathNode (s : Ramfs τ) (a : ℕ) : PathNode where
  directory := (s.nodes a).type &&& vfsDirectory ≠ 0
  modifies := s.modifies a
  data := if (s.nodes a).privateData = 0 then none else some (bytesOf s a)

/-- The map that the nodes below the root are. -/
def pathFs (s : Ramfs τ) (root : ℕ) : PathFs := fun p => (follow (childOf s) root p).map (pathNode s)

theorem walk_eq_follow (s : Ramfs τ) {a : ℕ} (ha : a ≠ 0) (p : List CString) :
    walk s a p = (follow (childOf s) a p).getD 0 := by
  induction p generalizing a with
  | nil => rfl
  | cons name p ih =>
    show walk s (vfsFinddir s a name) p = ((childOf s a name).bind (follow (childOf s) · p)).getD 0
    unfold childOf
    split_ifs with hfind
    · rw [hfind, walk_zero]
      rfl
    · exact ih hfind

/-- Entries are those of the tree, unless the node is not a directory. -/
theorem childOf_eq (h : RamfsTree s root kids) {a : ℕ} (ha : Reach kids root a) :
    childOf s a = if (s.nodes a).type &&& vfsDirectory = 0 then fun _ => none else entry s kids a := by
  funext name
  unfold childOf
  by_cases hdir : (s.nodes a).type &&& vfsDirectory = 0
  · rw [if_pos hdir, vfsFinddir_of_not_dir hdir, if_pos rfl]
  rw [if_neg hdir, vfsFinddir_eq h ha hdir]
  cases hentry : entry s kids a name with
  | none => rfl
  | some c =>
    have hc : c ≠ 0 := h.ne_zero (ha.kid (mem_of_entry hentry).1)
    exact if_neg hc

theorem entry_of_childOf (h : RamfsTree s root kids) {a c : ℕ} {name : CString}
    (ha : Reach kids root a) (hc : childOf s a name = some c) : entry s kids a name = some c := by
  rw [childOf_eq h ha] at hc
  split_ifs at hc
  exact hc

theorem reach_of_follow (h : RamfsTree s root kids) {p : List CString} {a : ℕ}
    (hp : follow (childOf s) root p = some a) : Reach kids root a := by
  induction p using List.reverseRecOn generalizing a with
  | nil =>
    obtain rfl := Option.some_inj.mp hp
    exact .root
  | append_singleton p name ih =>
    obtain ⟨b, hb, hname⟩ := follow_snoc_eq_some.mp hp
    exact (ih hb).kid (mem_of_entry (entry_of_childOf h (ih hb) hname)).1

/-- A node knows its parent, and its name is the one it is found under. -/
theorem uniquePaths_childOf (h : RamfsTree s root kids) : UniquePaths (childOf s) root := by
  apply uniquePaths_of_back
  · intro p q a b c m n hp hq hm hn
    have ha := reach_of_follow h hp
    have hb := reach_of_follow h hq
    obtain ⟨hca, hnamea⟩ := mem_of_entry (entry_of_childOf h ha hm)
    obtain ⟨hcb, hnameb⟩ := mem_of_entry (entry_of_childOf h hb hn)
    exact ⟨h.tree.parent_unique a b c ha hb hca hcb, hnamea.symm.trans hnameb⟩
  · intro p a n hp hn
    have ha := reach_of_follow h hp
    exact h.tree.root_not_kid a ha (mem_of_entry (entry_of_childOf h ha hn)).1

/-! ## What the calls do to it -/

theorem pathNode_congr {a : ℕ} (htype : (t.nodes a).type = (s.nodes a).type)
    (hops : (t.nodes a).ops = (s.nodes a).ops)
    (hdata : (t.nodes a).privateData = (s.nodes a).privateData)
    (hbytes : (s.nodes a).privateData ≠ 0 → bytesOf t a = bytesOf s a) :
    pathNode t a = pathNode s a := by
  unfold pathNode Ramfs.modifies
  rw [htype, hops, hdata]
  by_cases hfile : (s.nodes a).privateData = 0
  · rw [if_pos hfile, if_pos hfile]
  · rw [if_neg hfile, if_neg hfile, hbytes hfile]

theorem bytesOf_congr {a : ℕ} (hfile : t.fileOf a = s.fileOf a)
    (hmem : ∀ i < (s.fileOf a).size, t.mem ((s.fileOf a).data + i) = s.mem ((s.fileOf a).data + i)) :
    bytesOf t a = bytesOf s a := by
  unfold bytesOf
  rw [hfile]
  exact List.map_congr_left fun i hi => hmem i (List.mem_range.mp hi)

/-- The map has the same nodes wherever the same node is found and is the same. -/
theorem map_pathNode_congr (h : RamfsTree s root kids) {q : List CString}
    (hsame : ∀ a, Reach kids root a → follow (childOf s) root q = some a →
      pathNode t a = pathNode s a) :
    (follow (childOf s) root q).map (pathNode t) = (follow (childOf s) root q).map (pathNode s) := by
  apply Option.map_congr
  intro a ha
  exact hsame a (reach_of_follow h ha) ha

/-- The heap is not part of the map. -/
theorem pathFs_setHeap (h : RamfsTree s root kids) (heap : τ) :
    pathFs { s with heap := heap } root = pathFs s root := by
  have ht : RamfsTree { s with heap := heap } root kids :=
    h.congr (fun _ _ => SameShape.refl _) le_rfl
  have hchild : ∀ q a, follow (childOf s) root q = some a →
      childOf { s with heap := heap } a = childOf s a := by
    intro q a hq
    have ha := reach_of_follow h hq
    rw [childOf_eq ht ha, childOf_eq h ha]
    rfl
  funext q
  rw [pathFs, follow_congr hchild q]
  rfl

section

variable {p : List CString} {d : ℕ} {name : CString}

theorem pathFs_of_follow (hp : follow (childOf s) root p = some d) :
    pathFs s root p = some (pathNode s d) := by
  rw [pathFs, hp, Option.map_some]

/-- A name is free in the map iff the directory has no such entry. -/
theorem pathFs_snoc_eq_none_iff (h : RamfsTree s root kids) (hmod : s.modifies d = true)
    (hp : follow (childOf s) root p = some d) :
    pathFs s root (p ++ [name]) = none ↔ entry s kids d name = none := by
  have hd := reach_of_follow h hp
  rw [pathFs, Option.map_eq_none_iff, follow_snoc, hp, Option.bind_some, childOf_eq h hd,
    if_neg (h.dir_type d hd hmod)]

section

variable {x file : ℕ} {op : MakeOp} {heap : τ}

theorem attaches_made (h : RamfsInv blocks s root kids) (hp : follow (childOf s) root p = some d)
    (hmod : s.modifies d = true) (habsent : entry s kids d name = none) (hfits : NameFits name)
    (hx : ¬ Reach kids root x) (hx0 : x ≠ 0) :
    Attaches (childOf s) (childOf (s.addNode d x (madeNode s d name file op) heap)) root d name
      x := by
  have hd := reach_of_follow h.tree hp
  have hadds := addsEntry_made name file op heap h hd hx hx0
  rw [CString.take_of_le hfits] at hadds
  have hold : ∀ {a}, Reach kids root a →
      ((s.addNode d x (madeNode s d name file op) heap).nodes a).type = (s.nodes a).type := by
    intro a ha
    rw [addNode_nodes_old (by rintro rfl; exact hx ha)]
  have hdir := h.tree.dir_type d hd hmod
  constructor
  · rw [childOf_eq h.tree hd, if_neg hdir, habsent]
  · rw [childOf_eq hadds.tree ((hadds.reach d).mpr (Or.inl hd)), childOf_eq h.tree hd, hold hd,
      if_neg hdir, if_neg hdir, hadds.entry_dir]
  · rw [childOf_eq hadds.tree ((hadds.reach x).mpr (Or.inr rfl)), hadds.entry_new, ite_self]
  · intro q a hq had
    have ha := reach_of_follow h.tree hq
    rw [childOf_eq hadds.tree ((hadds.reach a).mpr (Or.inl ha)), childOf_eq h.tree ha, hold ha,
      hadds.entry_other a ha had]

theorem pathNode_made (hxd : x ≠ d) (hfile : op.type &&& vfsFile = 0 → file = 0) :
    pathNode (s.addNode d x (madeNode s d name file op) heap) x = .made (file ≠ 0) op := by
  have hbytes : file ≠ 0 → bytesOf (s.addNode d x (madeNode s d name file op) heap) x = [] := by
    intro hne
    rw [bytesOf, fileOf_addNode_new hxd (by rwa [privateData_madeNode])]
    rfl
  unfold pathNode Ramfs.modifies
  rw [addNode_nodes_new hxd, privateData_madeNode]
  cases op with
  | create type =>
    refine congrArg (PathNode.mk _ _) ?_
    by_cases h0 : file = 0
    · rw [if_pos h0, if_neg (by simp [h0])]
    · have htype : type &&& vfsFile ≠ 0 := fun h => h0 (hfile h)
      rw [if_neg h0, hbytes h0, if_pos ⟨htype, decide_eq_true h0⟩]
  | mkdir mode =>
    have h0 : file = 0 := hfile (show vfsDirectory &&& vfsFile = 0 by decide)
    rw [if_pos h0]
    simp [madeNode, PathNode.made, newNode, VfsOps.modifies, vfsDirectory]

/-- A node made is at one new path. -/
theorem pathFs_made (h : RamfsInv blocks s root kids) (hp : follow (childOf s) root p = some d)
    (hmod : s.modifies d = true) (habsent : entry s kids d name = none) (hfits : NameFits name)
    (hx : ¬ Reach kids root x) (hx0 : x ≠ 0)
    (hnew : H.Exchange blocks s.heap heap [] (newBlocks x file))
    (hfile : op.type &&& vfsFile = 0 → file = 0) :
    pathFs (s.addNode d x (madeNode s d name file op) heap) root =
      Function.update (pathFs s root) (p ++ [name]) (some (.made (file ≠ 0) op)) := by
  have hd := reach_of_follow h.tree hp
  have hxd : x ≠ d := by
    rintro rfl
    exact hx hd
  funext q
  rw [pathFs, follow_attach (uniquePaths_childOf h.tree)
    (attaches_made h hp hmod habsent hfits hx hx0) hp q]
  by_cases hq : q = p ++ [name]
  · rw [if_pos hq, hq, Function.update_self, Option.map_some, pathNode_made hxd hfile]
  rw [if_neg hq, Function.update_of_ne hq]
  refine map_pathNode_congr h.tree ?_
  intro a ha _
  have hax : a ≠ x := by
    rintro rfl
    exact hx ha
  apply pathNode_congr
  · rw [addNode_nodes_old hax]
  · rw [addNode_nodes_old hax]
  · rw [addNode_nodes_old hax]
  · intro hrecord
    have hnew' : H.Exchange blocks s.heap heap []
        (newBlocks x (madeNode s d name file op).privateData) := by
      rwa [privateData_madeNode]
    exact bytesOf_congr (h.fileOf_addNode_other ha hax hnew' hrecord) fun _ _ => rfl

end

section

variable {c : ℕ} {pre post : List ℕ} {heap : τ}

/-- Unlinking takes away the path of the node and all paths behind it. -/
theorem pathFs_unlinked (h : RamfsInv blocks s root kids) (hnames : DistinctNames s root kids)
    (hp : follow (childOf s) root p = some d) (hmod : s.modifies d = true)
    (hc : entry s kids d name = some c) (hkids : kids d = pre ++ c :: post) :
    pathFs { unlinkChild s d (pre.getLast?.getD 0) c with heap := heap } root =
      fun q => if p ++ [name] <+: q then none else pathFs s root q := by
  have hd := reach_of_follow h.tree hp
  obtain ⟨hmem, hname⟩ := mem_of_entry hc
  set t : Ramfs τ := { unlinkChild s d (pre.getLast?.getD 0) c with heap := heap }
  have hremoves : RemovesEntry s t root kids (removeKid kids d c) d name c :=
    hname ▸ removesEntry_unlinked h (hnames.unique hd hmem) hd hkids
  have hnodes : ∀ a, t.nodes a = _ := unlinkChild_nodes s d (pre.getLast?.getD 0) c
  have hbytes : t.mem = s.mem := by
    show (unlinkChild s d (pre.getLast?.getD 0) c).mem = s.mem
    unfold unlinkChild
    split_ifs <;> rfl
  have hdir := h.tree.dir_type d hd hmod
  have hdt : Reach (removeKid kids d c) root d :=
    (hremoves.reach d).mpr ⟨hd, h.tree.tree.not_reach_kid hd hmem⟩
  have hdetach : Detaches (childOf s) (childOf t) root d name := by
    constructor
    · rw [childOf_eq hremoves.tree hdt, childOf_eq h.tree hd, hnodes, if_neg hdir, if_neg hdir,
        hremoves.entry_dir]
    · intro q a hq had
      have ha := reach_of_follow hremoves.tree hq
      rw [childOf_eq hremoves.tree ha, childOf_eq h.tree ((hremoves.reach a).mp ha).1, hnodes,
        hremoves.entry_other a ha had]
  funext q
  rw [pathFs, follow_detach (uniquePaths_childOf h.tree) hdetach hp q]
  split_ifs with hq
  · rfl
  refine map_pathNode_congr h.tree ?_
  intro a _ _
  apply pathNode_congr
  · rw [hnodes]
  · rw [hnodes]
  · rw [hnodes]
  · intro _
    exact bytesOf_congr (fileOf_unlinkChild s d _ c a) fun _ _ => congrFun hbytes _

end

section

variable {node offset size : ℕ} {buffer : ℕ → Byte} {f' : RamfsFile} {heap : τ}

/-- The bytes of the file after a write. -/
theorem bytesOf_written (hsize : f'.size = (s.fileOf node).size) :
    bytesOf (written s node offset size buffer f' heap) node =
      overwrite (bytesOf s node) offset size buffer fun i =>
        (written s node offset size buffer f' heap).mem (f'.data + i) := by
  have hlen : (bytesOf s node).length = f'.size := by simp [bytesOf, hsize]
  unfold overwrite
  rw [bytesOf, fileOf_written, hlen]
  refine List.map_congr_left fun i _ => ?_
  split_ifs with hin
  · obtain ⟨k, rfl⟩ := Nat.exists_eq_add_of_le hin.1
    rw [Nat.add_sub_cancel_left, ← Nat.add_assoc]
    exact written_new (by omega)
  · by_cases hi : i < (s.fileOf node).size
    · rw [List.getD_eq_getElem _ _ (by omega)]
      simp only [bytesOf, List.getElem_map, List.getElem_range]
      exact written_old hi (by omega)
    · rw [List.getD_eq_default _ _ (by omega)]

/-- The bytes of the other files stay as they were, since no two files share a block. -/
theorem bytesOf_written_other (hH : H.Lawful blocks) (h : RamfsInv blocks s root kids)
    (ht : RamfsInv blocks (written s node offset size buffer f' heap) root kids)
    (hsize : f'.size = (s.fileOf node).size) (hfits : offset + size ≤ f'.capacity)
    (hok : FileOk (blocks heap) f') (hnode : Reach kids root node)
    (hfile : (s.nodes node).privateData ≠ 0) {a : ℕ} (ha : Reach kids root a) (hne : a ≠ node)
    (hrecord : (s.nodes a).privateData ≠ 0) :
    bytesOf (written s node offset size buffer f' heap) a = bytesOf s a := by
  have hsame : (written s node offset size buffer f' heap).fileOf a = s.fileOf a :=
    h.fileOf_written_other hnode ha hne hrecord
  have hrecord' : ((written s node offset size buffer f' heap).nodes a).privateData ≠ 0 := by
    rwa [written_nodes_other hne]
  have hfile' : ((written s node offset size buffer f' heap).nodes node).privateData ≠ 0 := by
    rwa [written_nodes_self]
  have hok' := ht.file_ok a ha hrecord'
  rw [hsame] at hok'
  refine bytesOf_congr hsame fun i hi => ?_
  have hdata : (s.fileOf a).data ≠ 0 := by
    intro h0
    have hcap := hok'.no_data h0
    have := hok'.size_le
    omega
  have hsize' : (s.fileOf node).size ≤ f'.capacity := hsize ▸ hok.size_le
  by_cases hf0 : f'.data = 0
  · have hcap := hok.no_data hf0
    exact written_other hsize' hfits (by omega)
  have hdiff : (s.fileOf a).data ≠ f'.data := by
    intro heq
    refine hne (ht.owns.disjoint a node ha hnode f'.data ?_ ?_)
    · rw [blocksOf_of_file hrecord', hsame, dataBlocks, if_neg hdata, heq]
      simp
    · rw [blocksOf_of_file hfile', fileOf_written, dataBlocks, if_neg hf0]
      simp
  obtain ⟨m, hm, hlive⟩ := hok'.room hdata
  obtain ⟨n, hn, hlive'⟩ := hok.room hf0
  have hcap := hok'.size_le
  have hapart := hH.disjoint heap _ _ m n hlive hlive' hdiff
  exact written_other hsize' hfits (by omega)

/-- A write changes what is at one path. -/
theorem pathFs_written (hH : H.Lawful blocks) (h : RamfsInv blocks s root kids)
    (ht : RamfsInv blocks (written s node offset size buffer f' heap) root kids)
    (hp : follow (childOf s) root p = some node) (hfile : (s.nodes node).privateData ≠ 0)
    (hsize : f'.size = (s.fileOf node).size) (hfits : offset + size ≤ f'.capacity)
    (hok : FileOk (blocks heap) f') :
    pathFs (written s node offset size buffer f' heap) root =
      Function.update (pathFs s root) p (some { pathNode s node with
        data := some (overwrite (bytesOf s node) offset size buffer fun i =>
          (written s node offset size buffer f' heap).mem (f'.data + i)) }) := by
  have hnode := reach_of_follow h.tree hp
  have hshape : ∀ a, ((written s node offset size buffer f' heap).nodes a).type = (s.nodes a).type ∧
      ((written s node offset size buffer f' heap).nodes a).ops = (s.nodes a).ops ∧
      ((written s node offset size buffer f' heap).nodes a).privateData =
        (s.nodes a).privateData := by
    intro a
    by_cases hne : a = node
    · rw [hne, written_nodes_self]
      exact ⟨rfl, rfl, rfl⟩
    · rw [written_nodes_other hne]
      exact ⟨rfl, rfl, rfl⟩
  have hchild : ∀ q a, follow (childOf s) root q = some a →
      childOf (written s node offset size buffer f' heap) a = childOf s a := by
    intro q a hq
    have ha := reach_of_follow h.tree hq
    rw [childOf_eq ht.tree ha, childOf_eq h.tree ha, (hshape a).1,
      entry_congr rfl fun c _ => nameOf_written]
  funext q
  rw [pathFs, follow_congr hchild q]
  by_cases hq : q = p
  · rw [hq, hp, Function.update_self, Option.map_some]
    obtain ⟨htype, hops, hdata⟩ := hshape node
    unfold pathNode Ramfs.modifies
    rw [htype, hops, hdata, if_neg hfile, bytesOf_written hsize]
  rw [Function.update_of_ne hq]
  refine map_pathNode_congr h.tree ?_
  intro a ha hfollow
  have hne : a ≠ node := by
    rintro rfl
    exact hq (uniquePaths_childOf h.tree q p a hfollow hp)
  obtain ⟨htype, hops, hdata⟩ := hshape a
  exact pathNode_congr htype hops hdata
    (bytesOf_written_other hH h ht hsize hfits hok hnode hfile ha hne)

end

/-! ## One call -/

/-- The call on the node `d`. -/
def PathOp.on (d : ℕ) : PathOp → FsOp
  | .make name op => .make d name op
  | .unlink name => .unlink d name
  | .write offset size buffer => .write d offset size buffer

/-- A name to be made fits the field of a node; the end of a write does not wrap around. -/
def PathOp.Valid : PathOp → Prop
  | .make name _ => NameFits name
  | .unlink _ => True
  | .write offset size _ => offset + size < 2 ^ 32

instance (heap : τ) (f : RamfsFile) (n : ℕ) : Decidable (NoRoom H heap f n) :=
  inferInstanceAs (Decidable (_ ∧ _))

/-- What is granted to a call on the node `d`. -/
def grants (H : Heap τ) (s : Ramfs τ) (d : ℕ) (op : PathOp) : Grants where
  node := (nodeBlock H s).1 ≠ 0
  record := match op with
    | .make _ op => (recordBlock H (nodeBlock H s).2 op.type).1 ≠ 0
    | _ => false
  room := match op with
    | .write offset size _ => ¬ NoRoom H s.heap (s.fileOf d) (offset + size)
    | _ => false
  stale := fun i => (fsCall H s (op.on d)).2.mem (((fsCall H s (op.on d)).2.fileOf d).data + i)

theorem any_modifies (hp : follow (childOf s) root p = some d) :
    (pathFs s root p).any PathNode.modifies = s.modifies d := by
  rw [pathFs_of_follow hp]
  rfl

theorem recordBlock_of_no_file {op : MakeOp} (h : op.type &&& vfsFile = 0) :
    (recordBlock H (nodeBlock H s).2 op.type).1 = 0 := by
  rw [recordBlock, if_neg (not_not.mpr h)]

theorem make_refines (hH : H.Lawful blocks) (h : RamfsInv blocks s root kids)
    (hp : follow (childOf s) root p = some d) (hfits : NameFits name) (op : MakeOp) :
    ((vfsMake H s d name op).1, pathFs (vfsMake H s d name op).2 root) =
      (pathFs s root).call (grants H s d (.make name op)) p (.make name op) := by
  have hd := reach_of_follow h.tree hp
  rw [PathFs.call, any_modifies hp]
  by_cases hmod : s.modifies d = true
  swap
  · rw [make_of_not_modifies hmod, if_neg (fun hand => hmod hand.1)]
  have hfree : pathFs s root (p ++ [name]) = none ↔ entry s kids d name = none :=
    pathFs_snoc_eq_none_iff h.tree hmod hp
  cases hentry : entry s kids d name with
  | some c =>
    rw [make_of_present h.tree hd hmod hentry, if_neg (by simp [hfree, hentry])]
  | none =>
    by_cases hroom : (nodeBlock H s).1 = 0
    · rw [make_of_no_room h.tree hd hmod hentry hroom, if_neg (by simp [grants, hroom]),
        pathFs_setHeap h.tree]
    · have hx : ¬ Reach kids root (nodeBlock H s).1 :=
        h.not_reach (hH.kmalloc_fresh s.heap sizeofVfsNode hroom)
      have hne : (nodeBlock H s).1 ≠ d := by
        rintro rfl
        exact hx hd
      rw [make_of_room h.tree hd hmod hentry hroom hne,
        if_pos ⟨hmod, hfree.mpr hentry, decide_eq_true hroom⟩,
        pathFs_made h hp hmod hentry hfits hx hroom (exchange_newBlocks hH hroom op.type)
          recordBlock_of_no_file]
      rfl

theorem unlink_refines (h : RamfsInv blocks s root kids) (hnames : DistinctNames s root kids)
    (hp : follow (childOf s) root p = some d) :
    ((vfsUnlink H s d name).1, pathFs (vfsUnlink H s d name).2 root) =
      (pathFs s root).call (grants H s d (.unlink name)) p (.unlink name) := by
  have hd := reach_of_follow h.tree hp
  rw [PathFs.call, any_modifies hp]
  by_cases hmod : s.modifies d = true
  swap
  · have hfail : vfsUnlink H s d name = (-1, s) := if_pos (Or.inr (Bool.not_eq_true _ ▸ hmod))
    rw [hfail, if_neg (fun hand => hmod hand.1)]
  have hfree : pathFs s root (p ++ [name]) = none ↔ entry s kids d name = none :=
    pathFs_snoc_eq_none_iff h.tree hmod hp
  cases hentry : entry s kids d name with
  | none =>
    rw [vfsUnlink_of_absent h.tree hd hmod hentry, if_neg (by simp [hfree, hentry])]
  | some c =>
    obtain ⟨pre, post, hkids, hunlink⟩ := vfsUnlink_of_present h.tree hd hmod hentry
    rw [hunlink, if_pos ⟨hmod, by simp [hfree, hentry]⟩,
      pathFs_unlinked h hnames hp hmod hentry hkids]

theorem write_refines (hH : H.Lawful blocks) (h : RamfsInv blocks s root kids)
    (hp : follow (childOf s) root p = some d) {offset size : ℕ} (hlt : offset + size < 2 ^ 32)
    (buffer : Option (ℕ → Byte)) :
    ((vfsWrite H s d offset size buffer).1, pathFs (vfsWrite H s d offset size buffer).2 root) =
      (pathFs s root).call (grants H s d (.write offset size buffer)) p
        (.write offset size buffer) := by
  have hd := reach_of_follow h.tree hp
  rw [PathFs.call]
  cases buffer with
  | none => rw [vfsWrite_of_nothing (Or.inl rfl), PathFs.write]
  | some buffer =>
    rw [PathFs.write, pathFs_of_follow hp, Option.bind_some, Option.map_some]
    by_cases hfile : (s.nodes d).privateData = 0
    · rw [vfsWrite_of_nothing (Or.inr hfile), if_neg (by simp [pathNode, hfile])]
    have hdata : (pathNode s d).data = some (bytesOf s d) := if_neg hfile
    have ht := ramfsInv_of_effect h (effect_write hH h hd hlt (some buffer))
    obtain ⟨heap, -, hroom, -, hwrite⟩ | ⟨f', heap, -, hroom, hsize, hfits, hok, hwrite⟩ :=
      vfsWrite_cases hH (h.isFile hd hfile) (h.file_ok d hd hfile) hlt buffer
    · rw [hwrite, if_neg (by simp [grants, hroom]), pathFs_setHeap h.tree]
    · rw [hwrite] at ht
      have hstale : (grants H s d (.write offset size (some buffer))).stale =
          fun i => (written s d offset size buffer f' heap).mem (f'.data + i) := by
        funext i
        show (vfsWrite H s d offset size (some buffer)).2.mem
          (((vfsWrite H s d offset size (some buffer)).2.fileOf d).data + i) = _
        rw [hwrite, fileOf_written]
      rw [hwrite, if_pos ⟨by rw [hdata]; rfl, decide_eq_true hroom⟩, hstale, hdata,
        Option.map_some, pathFs_written hH h ht hp hfile hsize hfits hok]

theorem fsCall_refines (hH : H.Lawful blocks) (h : RamfsInv blocks s root kids)
    (hnames : DistinctNames s root kids) (hp : follow (childOf s) root p = some d) {op : PathOp}
    (hop : op.Valid) :
    ((fsCall H s (op.on d)).1, pathFs (fsCall H s (op.on d)).2 root) =
      (pathFs s root).call (grants H s d op) p op := by
  cases op with
  | make name op => exact make_refines hH h hp hop op
  | unlink name => exact unlink_refines h hnames hp
  | write offset size buffer => exact write_refines hH h hp hop buffer

end

end NexusKernel.Fs
