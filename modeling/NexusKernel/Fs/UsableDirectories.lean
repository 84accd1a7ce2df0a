import NexusKernel.Fs.Directories

/-!
# Directories that can be used

`ramfs_create_node` gives every node the table without `create`, `unlink` and `mkdir`.
`ramfs_do_mkdir` and `ramfs_init` replace it, `ramfs_do_create` does not: a directory made
by `vfs_create` looks like one made by `vfs_mkdir`, but nothing can be made in it.

Results:
* `makes_iff_modifies`: in which directories nodes can be made.
* `dirsModify_of_effect`: as long as directories are made by `vfs_mkdir` only, in all.
* `SameButOps.vfsResults`: a directory made by `vfs_create` and one made by `vfs_mkdir` are the same
  to every sequence of calls that makes and unlinks nothing in it.
* `directories_usable_iff`: the three together, for every run.
* `bare_directory`: a directory in which nothing can be made.
-/

namespace NexusKernel.Fs

variable {τ : Type} {H : Heap τ} {blocks : τ → ℕ → Option ℕ} {s t : Ramfs τ} {root d x : ℕ}
  {kids kids' : ℕ → List ℕ} {name : CString}

/-- A node of the tree with the `VFS_DIRECTORY` bit. -/
def IsDirNode (root : ℕ) (s : Ramfs τ) (d : ℕ) : Prop :=
  InTree s root d ∧ (s.nodes d).type &&& vfsDirectory ≠ 0

/-- A file and a directory can be made in `d`. -/
def Makes (H : Heap τ) (s : Ramfs τ) (d : ℕ) (name : CString) : Prop :=
  (vfsCreate H s d name vfsFile).1 = 0 ∧ ∀ mode, (vfsMkdir H s d name mode).1 = 0

/-- Under every name that fits and is absent, as long as the heap grants the block. -/
def DirsUsable (H : Heap τ) (root : ℕ) (s : Ramfs τ) : Prop :=
  ∀ d name, IsDirNode root s d → NameFits name → vfsFinddir s d name = 0 → (nodeBlock H s).1 ≠ 0 →
    Makes H s d name

/-- `vfs_create` makes no directory. -/
def NoBareDirectory (H : Heap τ) (s : Ramfs τ) : FsOp → Prop
  | .make d name (.create type) => (vfsCreate H s d name type).1 = 0 → type &&& vfsDirectory = 0
  | _ => True

/-! ## Where nodes can be made -/

theorem makes_iff_modifies (hH : H.Lawful blocks) (h : RamfsInv blocks s root kids)
    (hd : IsDirNode root s d) (habsent : vfsFinddir s d name = 0) (hroom : (nodeBlock H s).1 ≠ 0) :
    Makes H s d name ↔ s.modifies d = true := by
  have hreach := (inTree_iff_reach h.tree).mp hd.1
  have hentry := (vfsFinddir_eq_zero_iff h.tree hreach hd.2 name).mp habsent
  constructor
  · intro hmakes
    by_contra hmod
    have hfail : vfsMake H s d name (.create vfsFile) = (-1, s) := make_of_not_modifies hmod
    have hzero : (0 : ℤ) = -1 := hmakes.1.symm.trans (congrArg Prod.fst hfail)
    exact absurd hzero (by decide)
  · intro hmod
    have hmake : ∀ op, (vfsMake H s d name op).1 = 0 := by
      intro op
      obtain ⟨hfail | hfail, -⟩ | ⟨-, -, -, file, heap, hmake, -⟩ :=
        make_cases hH h hreach hmod name op
      · exact absurd hentry hfail
      · exact absurd hfail hroom
      · rw [hmake]
    exact ⟨hmake (.create vfsFile), fun mode => hmake (.mkdir mode)⟩

/-- Every directory of the tree has the operations. -/
def DirsModify (s : Ramfs τ) (root : ℕ) (kids : ℕ → List ℕ) : Prop :=
  ∀ a, Reach kids root a → (s.nodes a).type &&& vfsDirectory ≠ 0 → s.modifies a = true

/-- No call changes the type of a node of the tree. -/
theorem type_of_effect {op : FsOp} {r : ℤ × Ramfs τ} (he : Effect H blocks root s kids op r kids')
    {a : ℕ} (ha : Reach kids root a) : (r.2.nodes a).type = (s.nodes a).type := by
  cases he with
  | fail => rfl
  | @made _ _ _ x _ _ _ _ _ hx _ _ =>
    have hax : a ≠ x := fun hax => hx (hax ▸ ha)
    rw [addNode_nodes_old hax]
  | @unlinked d _ c pre _ _ _ _ _ _ _ =>
    show ((unlinkChild s d (pre.getLast?.getD 0) c).nodes a).type = _
    rw [unlinkChild_nodes]
  | @wrote node _ _ _ _ _ _ _ _ _ _ _ _ =>
    by_cases han : a = node
    · rw [han, written_nodes_self]
    · rw [written_nodes_other han]

theorem dirsModify_of_effect (hdirs : DirsModify s root kids) {op : FsOp}
    (hbare : NoBareDirectory H s op)
    (he : Effect H blocks root s kids op (fsCall H s op) kids') :
    DirsModify (fsCall H s op).2 root kids' := by
  have hold : ∀ a, Reach kids root a → ((fsCall H s op).2.nodes a).type &&& vfsDirectory ≠ 0 →
      (fsCall H s op).2.modifies a = true := by
    intro a ha hdir
    rw [type_of_effect he ha] at hdir
    rw [modifies_of_effect he ha]
    exact hdirs a ha hdir
  generalize hr : fsCall H s op = r at he hold
  cases he with
  | fail => exact hold
  | @made d name op x file heap hd _ _ hx _ _ =>
    intro a ha hdir
    obtain ha | rfl := (reach_insert (inserted_insertKid hd hx)).mp ha
    · exact hold a ha hdir
    · have hxd : a ≠ d := fun hxd => hx (hxd ▸ hd)
      rw [addNode_nodes_new hxd] at hdir
      rw [Ramfs.modifies, addNode_nodes_new hxd]
      cases op with
      | create type => exact absurd (hbare (congrArg Prod.fst hr)) hdir
      | mkdir mode => rfl
  | unlinked hd _ hc hkids _ =>
    intro a ha hdir
    exact hold a (removed_removeKid hd (mem_of_entry hc).1 |>.reach ha) hdir
  | wrote => exact hold

/-! ## Two nodes that differ in their table -/

/-- Making room for data neither reads nor changes a node. -/
theorem reserve_withNodes (H : Heap τ) (s : Ramfs τ) (nodes : ℕ → VfsNode) (file newSize : ℕ) :
    reserve H { s with nodes := nodes } file newSize =
      ((reserve H s file newSize).1, { (reserve H s file newSize).2 with nodes := nodes }) := by
  simp only [reserve, moveData, Ramfs.setFile, Ramfs.free]
  split_ifs <;> rfl

/-- A call on a node. -/
inductive VfsCall where
  | change (op : FsOp)
  | read (node offset size : ℕ) (buffer : Option (ℕ → Byte))
  | openNode (node flags : ℕ)
  | readdir (node index : ℕ)
  | finddir (node : ℕ) (name : CString)

/-- What the caller gets: a number, a number and its buffer, or a node. -/
inductive VfsResult where
  | code (result : ℤ)
  | bytes (result : ℤ) (buffer : Option (ℕ → Byte))
  | node (p : ℕ)

def vfsCall (H : Heap τ) (s : Ramfs τ) : VfsCall → VfsResult × Ramfs τ
  | .change op => (.code (fsCall H s op).1, (fsCall H s op).2)
  | .read node offset size buffer =>
    (.bytes (vfsRead s node offset size buffer).1 (vfsRead s node offset size buffer).2, s)
  | .openNode node flags => (.code (vfsOpen s node flags), s)
  | .readdir node index => (.node (vfsReaddir s node index), s)
  | .finddir node name => (.node (vfsFinddir s node name), s)

/-- The results of a sequence of calls. -/
def vfsResults (H : Heap τ) : Ramfs τ → List VfsCall → List VfsResult
  | _, [] => []
  | s, c :: cs => (vfsCall H s c).1 :: vfsResults H (vfsCall H s c).2 cs

/-- The call makes or unlinks something in `x`. -/
def VfsCall.ChangesIn (x : ℕ) : VfsCall → Prop
  | .change (.make d _ _) => d = x
  | .change (.unlink d _) => d = x
  | _ => False

/-- A node without its table. -/
def VfsNode.bare (n : VfsNode) : VfsNode := { n with ops := none }

/-- The states are the same but for the table of the node at `x`, which has one in both. -/
structure SameButOps (x : ℕ) (s t : Ramfs τ) : Prop where
  rest : t = { s with nodes := t.nodes }
  node : ∀ a, (t.nodes a).bare = (s.nodes a).bare
  ops : ∀ a, a ≠ x → (t.nodes a).ops = (s.nodes a).ops
  table : (s.nodes x).ops ≠ none ∧ (t.nodes x).ops ≠ none

namespace SameButOps

variable {a : ℕ}

theorem files (h : SameButOps x s t) : t.files = s.files := by
  rw [h.rest]

theorem mem (h : SameButOps x s t) : t.mem = s.mem := by
  rw [h.rest]

theorem created (h : SameButOps x s t) : t.created = s.created := by
  rw [h.rest]

theorem heap (h : SameButOps x s t) : t.heap = s.heap := by
  rw [h.rest]

/-- Whatever is read off a node without looking at its table is the same. -/
theorem field {α : Type} (h : SameButOps x s t) (f : VfsNode → α) (hf : ∀ n, f n.bare = f n)
    (a : ℕ) : f (t.nodes a) = f (s.nodes a) := by
  rw [← hf, h.node, hf]

theorem type (h : SameButOps x s t) (a : ℕ) : (t.nodes a).type = (s.nodes a).type :=
  h.field VfsNode.type (fun _ => rfl) a

theorem children (h : SameButOps x s t) (a : ℕ) : (t.nodes a).children = (s.nodes a).children :=
  h.field VfsNode.children (fun _ => rfl) a

theorem nextSibling (h : SameButOps x s t) (a : ℕ) :
    (t.nodes a).nextSibling = (s.nodes a).nextSibling :=
  h.field VfsNode.nextSibling (fun _ => rfl) a

theorem privateData (h : SameButOps x s t) (a : ℕ) :
    (t.nodes a).privateData = (s.nodes a).privateData :=
  h.field VfsNode.privateData (fun _ => rfl) a

theorem nameOf (h : SameButOps x s t) (a : ℕ) : t.nameOf a = s.nameOf a := by
  unfold Ramfs.nameOf
  rw [h.field VfsNode.name (fun _ => rfl) a]

theorem fileOf (h : SameButOps x s t) (a : ℕ) : t.fileOf a = s.fileOf a := by
  rw [Ramfs.fileOf, h.files, h.privateData]
  rfl

theorem ops_none_iff (h : SameButOps x s t) (a : ℕ) :
    (t.nodes a).ops = none ↔ (s.nodes a).ops = none := by
  by_cases hax : a = x
  · subst hax
    exact iff_of_false h.table.2 h.table.1
  · rw [h.ops a hax]

theorem modifies (h : SameButOps x s t) (hax : a ≠ x) : t.modifies a = s.modifies a := by
  rw [Ramfs.modifies, h.ops a hax]
  rfl

/-- A node and its counterpart are changed alike, and keep their tables or get the same. -/
theorem setNode (h : SameButOps x s t) (p : ℕ) {f : VfsNode → VfsNode}
    (hbare : ∀ n, (f n).bare = (f n.bare).bare)
    (hops : (∀ n, (f n).ops = n.ops) ∨ ∃ o, ∀ n, (f n).ops = some o) :
    SameButOps x (s.setNode p f) (t.setNode p f) := by
  refine ⟨?_, ?_, ?_, ?_⟩
  · rw [Ramfs.setNode, Ramfs.setNode, h.files, h.mem, h.created, h.heap]
  · intro a
    by_cases hap : a = p
    · have hnode : (f (t.nodes p)).bare = (f (s.nodes p)).bare := by rw [hbare, h.node, ← hbare]
      simpa [hap, Ramfs.setNode] using hnode
    · simpa [hap, Ramfs.setNode] using h.node a
  · intro a hax
    by_cases hap : a = p
    · subst hap
      obtain hops | ⟨o, ho⟩ := hops
      · simpa [Ramfs.setNode, hops] using h.ops a hax
      · simp [Ramfs.setNode, ho]
    · simpa [hap, Ramfs.setNode] using h.ops a hax
  · by_cases hxp : x = p
    · subst hxp
      obtain hops | ⟨o, ho⟩ := hops
      · simpa [Ramfs.setNode, hops] using h.table
      · simp [Ramfs.setNode, ho]
    · simpa [hxp, Ramfs.setNode] using h.table

/-- What else is in the state changes alike. -/
theorem congr (h : SameButOps x s t) {s' t' : Ramfs τ} (hrest : t' = { s' with nodes := t'.nodes })
    (hs : s'.nodes = s.nodes) (ht : t'.nodes = t.nodes) : SameButOps x s' t' :=
  ⟨hrest, by rw [hs, ht]; exact h.node, by rw [hs, ht]; exact h.ops, by rw [hs, ht]; exact h.table⟩

/-! ### Lookups -/

theorem finddirLoop (h : SameButOps x s t) (name : CString) (fuel child : ℕ) :
    Fs.finddirLoop t name fuel child = Fs.finddirLoop s name fuel child := by
  induction fuel generalizing child with
  | zero => rfl
  | succ fuel ih => rw [Fs.finddirLoop, Fs.finddirLoop, ih, h.nameOf, h.nextSibling]

theorem readdirLoop (h : SameButOps x s t) (index fuel child i : ℕ) :
    Fs.readdirLoop t index fuel child i = Fs.readdirLoop s index fuel child i := by
  induction fuel generalizing child i with
  | zero => rfl
  | succ fuel ih => rw [Fs.readdirLoop, Fs.readdirLoop, ih, h.nextSibling]

theorem unlinkLoop (h : SameButOps x s t) (name : CString) (fuel prev child : ℕ) :
    Fs.unlinkLoop t name fuel prev child = Fs.unlinkLoop s name fuel prev child := by
  induction fuel generalizing prev child with
  | zero => rfl
  | succ fuel ih => rw [Fs.unlinkLoop, Fs.unlinkLoop, ih, h.nameOf, h.nextSibling]

theorem ramfsFinddir (h : SameButOps x s t) (d : ℕ) (name : CString) :
    Fs.ramfsFinddir t d name = Fs.ramfsFinddir s d name := by
  unfold Fs.ramfsFinddir
  rw [h.type, h.finddirLoop, h.created, h.children]

theorem vfsFinddir (h : SameButOps x s t) (d : ℕ) (name : CString) :
    Fs.vfsFinddir t d name = Fs.vfsFinddir s d name := by
  simp only [Fs.vfsFinddir, h.ops_none_iff, h.ramfsFinddir]

theorem vfsReaddir (h : SameButOps x s t) (d index : ℕ) :
    Fs.vfsReaddir t d index = Fs.vfsReaddir s d index := by
  simp only [Fs.vfsReaddir, h.ops_none_iff, ramfsReaddir, h.type, h.readdirLoop, h.created,
    h.children]

theorem vfsOpen (h : SameButOps x s t) (node flags : ℕ) :
    Fs.vfsOpen t node flags = Fs.vfsOpen s node flags := by
  simp only [Fs.vfsOpen, h.ops_none_iff]

theorem vfsRead (h : SameButOps x s t) (node offset size : ℕ) (buffer : Option (ℕ → Byte)) :
    Fs.vfsRead t node offset size buffer = Fs.vfsRead s node offset size buffer := by
  simp only [Fs.vfsRead, h.ops_none_iff, ramfsRead, h.privateData, h.fileOf, h.mem]

/-! ### Calls that change the file system -/

theorem reserve (h : SameButOps x s t) (file newSize : ℕ) :
    (Fs.reserve H t file newSize).1 = (Fs.reserve H s file newSize).1 ∧
      SameButOps x (Fs.reserve H s file newSize).2 (Fs.reserve H t file newSize).2 := by
  have hres := reserve_withNodes H s t.nodes file newSize
  rw [← h.rest] at hres
  rw [hres]
  exact ⟨rfl, h.congr rfl (nodes_reserve H s file newSize) rfl⟩

theorem putData (h : SameButOps x s t) (node file offset size newSize : ℕ) (buffer : ℕ → Byte) :
    SameButOps x (Fs.putData s node file offset size newSize buffer)
      (Fs.putData t node file offset size newSize buffer) := by
  have hsize : SameButOps x
      (s.setNode node fun n => { n with size := max (s.files file).size newSize })
      (t.setNode node fun n => { n with size := max (s.files file).size newSize }) :=
    h.setNode node (fun _ => rfl) (Or.inl fun _ => rfl)
  rw [putData_eq, putData_eq]
  refine hsize.congr ?_ rfl ?_
  · rw [h.files, h.mem, h.created, h.heap]
  · rw [h.files]
    rfl

theorem vfsWrite (h : SameButOps x s t) (node offset size : ℕ) (buffer : Option (ℕ → Byte)) :
    (Fs.vfsWrite H t node offset size buffer).1 = (Fs.vfsWrite H s node offset size buffer).1 ∧
      SameButOps x (Fs.vfsWrite H s node offset size buffer).2
        (Fs.vfsWrite H t node offset size buffer).2 := by
  cases buffer with
  | none =>
    simp only [Fs.vfsWrite, ramfsWrite, ite_self]
    exact ⟨trivial, h⟩
  | some buffer =>
    obtain ⟨hok, hres⟩ := h.reserve (H := H) (s.nodes node).privateData (u32 (offset + size))
    simp only [Fs.vfsWrite, h.ops_none_iff, ramfsWrite, h.privateData, hok]
    split_ifs
    · exact ⟨rfl, h⟩
    · exact ⟨rfl, h⟩
    · exact ⟨rfl, hres.putData node _ offset size _ buffer⟩
    · exact ⟨rfl, hres⟩

theorem newFile (h : SameButOps x s t) (node : ℕ) :
    SameButOps x (Fs.newFile H s node) (Fs.newFile H t node) := by
  simp only [Fs.newFile, Ramfs.setFile, h.files, h.heap]
  split_ifs
  · apply setNode
    · exact h.congr (by rw [h.mem, h.created]) rfl rfl
    · exact fun _ => rfl
    · exact Or.inl fun _ => rfl
  · exact h.congr (by rw [h.mem, h.created]) rfl rfl

theorem ramfsCreateNode (h : SameButOps x s t) (name : CString) (type : ℕ) :
    (Fs.ramfsCreateNode H t name type).1 = (Fs.ramfsCreateNode H s name type).1 ∧
      SameButOps x (Fs.ramfsCreateNode H s name type).2 (Fs.ramfsCreateNode H t name type).2 := by
  have hnode : ∀ p heap, SameButOps x
      { ({ s with heap := heap } : Ramfs τ).setNode p fun _ => newNode name type s.nextInode with
        created := s.created + 1 }
      { ({ t with heap := heap } : Ramfs τ).setNode p fun _ => newNode name type s.nextInode with
        created := s.created + 1 } := by
    intro p heap
    have hset := h.setNode p (f := fun _ => newNode name type s.nextInode) (fun _ => rfl)
      (Or.inr ⟨_, fun _ => rfl⟩)
    refine hset.congr ?_ rfl rfl
    simp only [Ramfs.setNode, h.files, h.mem]
  simp only [Fs.ramfsCreateNode, h.heap, Ramfs.nextInode, h.created]
  split_ifs
  · exact ⟨rfl, h.congr (by rw [h.files, h.mem]) rfl rfl⟩
  · exact ⟨rfl, (hnode _ _).newFile _⟩
  · exact ⟨rfl, hnode _ _⟩

theorem linkChild (h : SameButOps x s t) (parent node : ℕ) :
    SameButOps x (Fs.linkChild s parent node) (Fs.linkChild t parent node) := by
  unfold Fs.linkChild
  rw [h.children]
  apply setNode
  · exact h.setNode node (fun _ => rfl) (Or.inl fun _ => rfl)
  · exact fun _ => rfl
  · exact Or.inl fun _ => rfl

theorem vfsMake (h : SameButOps x s t) (hd : d ≠ x) (name : CString) (op : MakeOp) :
    (Fs.vfsMake H t d name op).1 = (Fs.vfsMake H s d name op).1 ∧
      SameButOps x (Fs.vfsMake H s d name op).2 (Fs.vfsMake H t d name op).2 := by
  cases op with
  | create type =>
    obtain ⟨hnew, hcreated⟩ := h.ramfsCreateNode (H := H) name type
    simp only [Fs.vfsMake, vfsCreate, ramfsDoCreate, h.modifies hd, h.type, h.ramfsFinddir, hnew]
    split_ifs
    · exact ⟨rfl, h⟩
    · exact ⟨rfl, h⟩
    · exact ⟨rfl, h⟩
    · exact ⟨rfl, hcreated⟩
    · exact ⟨rfl, hcreated.linkChild d _⟩
  | mkdir mode =>
    obtain ⟨hnew, hcreated⟩ := h.ramfsCreateNode (H := H) name vfsDirectory
    simp only [Fs.vfsMake, vfsMkdir, ramfsDoMkdir, h.modifies hd, h.type, h.ramfsFinddir, hnew]
    split_ifs
    · exact ⟨rfl, h⟩
    · exact ⟨rfl, h⟩
    · exact ⟨rfl, h⟩
    · exact ⟨rfl, hcreated⟩
    · refine ⟨rfl, ?_⟩
      dsimp only
      apply setNode
      · apply linkChild
        exact hcreated.setNode _ (fun _ => rfl) (Or.inl fun _ => rfl)
      · exact fun _ => rfl
      · exact Or.inr ⟨_, fun _ => rfl⟩

theorem unlinkChild (h : SameButOps x s t) (d prev child : ℕ) :
    SameButOps x (Fs.unlinkChild s d prev child) (Fs.unlinkChild t d prev child) := by
  unfold Fs.unlinkChild
  rw [h.nextSibling]
  split_ifs
  · exact h.setNode prev (fun _ => rfl) (Or.inl fun _ => rfl)
  · exact h.setNode d (fun _ => rfl) (Or.inl fun _ => rfl)

theorem freeChild (h : SameButOps x s t) (c : ℕ) :
    SameButOps x (Fs.freeChild H s c) (Fs.freeChild H t c) := by
  have hblocks : blocksOf t c = blocksOf s c := by
    unfold blocksOf
    rw [h.privateData, h.fileOf]
  rw [freeChild_eq, freeChild_eq, hblocks, h.heap]
  exact h.congr (by rw [h.files, h.mem, h.created]) rfl rfl

theorem vfsUnlink (h : SameButOps x s t) (hd : d ≠ x) (name : CString) :
    (Fs.vfsUnlink H t d name).1 = (Fs.vfsUnlink H s d name).1 ∧
      SameButOps x (Fs.vfsUnlink H s d name).2 (Fs.vfsUnlink H t d name).2 := by
  simp only [Fs.vfsUnlink, ramfsDoUnlink, h.modifies hd, h.type, h.unlinkLoop, h.created, h.children]
  split_ifs
  · exact ⟨rfl, h⟩
  · exact ⟨rfl, h⟩
  · exact ⟨rfl, h⟩
  · exact ⟨rfl, (h.unlinkChild _ _ _).freeChild _⟩

/-- A call that makes and unlinks nothing in `x` gives the same result. -/
theorem vfsCall (h : SameButOps x s t) {c : VfsCall} (hc : ¬ c.ChangesIn x) :
    (Fs.vfsCall H t c).1 = (Fs.vfsCall H s c).1 ∧
      SameButOps x (Fs.vfsCall H s c).2 (Fs.vfsCall H t c).2 := by
  cases c with
  | change op =>
    cases op with
    | make d name op =>
      obtain ⟨hresult, hsame⟩ := h.vfsMake (H := H) hc name op
      exact ⟨congrArg VfsResult.code hresult, hsame⟩
    | unlink d name =>
      obtain ⟨hresult, hsame⟩ := h.vfsUnlink (H := H) hc name
      exact ⟨congrArg VfsResult.code hresult, hsame⟩
    | write node offset size buffer =>
      obtain ⟨hresult, hsame⟩ := h.vfsWrite (H := H) node offset size buffer
      exact ⟨congrArg VfsResult.code hresult, hsame⟩
  | read node offset size buffer =>
    simp only [Fs.vfsCall, h.vfsRead]
    exact ⟨trivial, h⟩
  | openNode node flags =>
    simp only [Fs.vfsCall, h.vfsOpen]
    exact ⟨trivial, h⟩
  | readdir node index =>
    simp only [Fs.vfsCall, h.vfsReaddir]
    exact ⟨trivial, h⟩
  | finddir node name =>
    simp only [Fs.vfsCall, h.vfsFinddir]
    exact ⟨trivial, h⟩

theorem vfsResults (h : SameButOps x s t) {cs : List VfsCall} (hcs : ∀ c ∈ cs, ¬ c.ChangesIn x) :
    Fs.vfsResults H t cs = Fs.vfsResults H s cs := by
  induction cs generalizing s t with
  | nil => rfl
  | cons c cs ih =>
    obtain ⟨hc, hcs⟩ := List.forall_mem_cons.mp hcs
    obtain ⟨hresult, hsame⟩ := h.vfsCall (H := H) hc
    rw [Fs.vfsResults, Fs.vfsResults, hresult, ih hsame hcs]

end SameButOps

/-! ## Both kinds of directories -/

/-- The two directories that can be made under a name: they differ in their table, and
    nothing can be made in the first. -/
structure TwoDirectories (H : Heap τ) (x : ℕ) (u v : Ramfs τ) : Prop where
  same : ∀ cs : List VfsCall, (∀ c ∈ cs, ¬ c.ChangesIn x) → vfsResults H v cs = vfsResults H u cs
  bare : ∀ name op, (vfsMake H u x name op).1 = -1
  modifies : v.modifies x = true

theorem twoDirectories (hH : H.Lawful blocks) (h : RamfsInv blocks s root kids)
    (hd : IsDirectory root s d) (habsent : vfsFinddir s d name = 0) (hroom : (nodeBlock H s).1 ≠ 0) :
    ∃ u v, vfsCreate H s d name vfsDirectory = (0, u) ∧ vfsMkdir H s d name 0o755 = (0, v) ∧
      TwoDirectories H (nodeBlock H s).1 u v := by
  have hreach := (inTree_iff_reach h.tree).mp hd.1
  have hdir := h.tree.dir_type d hreach hd.2
  have hentry := (vfsFinddir_eq_zero_iff h.tree hreach hdir name).mp habsent
  have hxd : (nodeBlock H s).1 ≠ d := by
    intro he
    exact h.not_reach (hH.kmalloc_fresh s.heap sizeofVfsNode hroom) (he ▸ hreach)
  have hrecord : ∀ op : MakeOp, op.type = vfsDirectory →
      recordBlock H (nodeBlock H s).2 op.type = (0, (nodeBlock H s).2) := by
    intro op hop
    rw [hop, recordBlock_vfsDirectory]
  have hmake : ∀ op : MakeOp, op.type = vfsDirectory → vfsMake H s d name op =
      (0, s.addNode d (nodeBlock H s).1 (madeNode s d name 0 op) (nodeBlock H s).2) := by
    intro op hop
    rw [make_of_room h.tree hreach hd.2 hentry hroom hxd, hrecord op hop]
  have hnew : ∀ op, (s.addNode d (nodeBlock H s).1 (madeNode s d name 0 op)
      (nodeBlock H s).2).nodes (nodeBlock H s).1 = madeNode s d name 0 op :=
    fun op => addNode_nodes_new hxd
  refine ⟨_, _, hmake (.create vfsDirectory) rfl, hmake (.mkdir 0o755) rfl, ?_, ?_, ?_⟩
  · have hsame : SameButOps (nodeBlock H s).1
        (s.addNode d (nodeBlock H s).1 (madeNode s d name 0 (.create vfsDirectory)) (nodeBlock H s).2)
        (s.addNode d (nodeBlock H s).1 (madeNode s d name 0 (.mkdir 0o755)) (nodeBlock H s).2) := by
      refine ⟨rfl, ?_, ?_, ?_⟩
      · intro a
        by_cases hax : a = (nodeBlock H s).1
        · rw [hax, hnew, hnew]
          rfl
        · rw [addNode_nodes_old hax, addNode_nodes_old hax]
      · intro a hax
        rw [addNode_nodes_old hax, addNode_nodes_old hax]
      · rw [hnew, hnew]
        exact ⟨Option.some_ne_none _, Option.some_ne_none _⟩
    exact fun cs hcs => hsame.vfsResults hcs
  · intro name' op
    rw [make_of_not_modifies]
    rw [Ramfs.modifies, hnew]
    exact Bool.false_ne_true
  · rw [Ramfs.modifies, hnew]
    rfl

/-- For every heap that keeps its law, in every state that calls on the tree lead to:
    * in a directory of the tree, under a name that is absent and with a block for the
      node, files and directories can be made iff it has the table of `ramfs_do_mkdir`
      or `ramfs_init`;
    * if no directory was made by `vfs_create`, that is all of them;
    * of a directory made by `vfs_create` and one made by `vfs_mkdir`, only the second
      has that table, and all calls that make and unlink nothing in it give the same. -/
theorem directories_usable_iff (H : Heap τ) (blocks : τ → ℕ → Option ℕ) (hH : H.Lawful blocks)
    (s : Ramfs τ) (hroot : (ramfsInit H s).1 ≠ 0) (ops : List FsOp)
    (hops : Meets (fsStep H) (OnTree (ramfsInit H s).1) (ramfsInit H s).2 ops) (t : Ramfs τ)
    (hrun : run (fsStep H) (ramfsInit H s).2 ops = some t) :
    (∀ d name, IsDirNode (ramfsInit H s).1 t d → vfsFinddir t d name = 0 → (nodeBlock H t).1 ≠ 0 →
      (Makes H t d name ↔ t.modifies d = true)) ∧
    (Meets (fsStep H) (NoBareDirectory H) (ramfsInit H s).2 ops →
      DirsUsable H (ramfsInit H s).1 t) ∧
    ∀ d name, IsDirectory (ramfsInit H s).1 t d → vfsFinddir t d name = 0 → (nodeBlock H t).1 ≠ 0 →
      ∃ u v, vfsCreate H t d name vfsDirectory = (0, u) ∧ vfsMkdir H t d name 0o755 = (0, v) ∧
        TwoDirectories H (nodeBlock H t).1 u v := by
  refine ⟨?_, ?_, ?_⟩
  · obtain ⟨kids, h⟩ := ramfsInv_run hH hroot hops hrun
    intro d name hd habsent hroom
    exact makes_iff_modifies hH h hd habsent hroom
  · intro hbare
    have hstep : ∀ u op v,
        (∃ kids, RamfsInv blocks u (ramfsInit H s).1 kids ∧ DirsModify u (ramfsInit H s).1 kids) →
        OnTree (ramfsInit H s).1 u op ∧ NoBareDirectory H u op → fsStep H u op = some v →
        ∃ kids, RamfsInv blocks v (ramfsInit H s).1 kids ∧ DirsModify v (ramfsInit H s).1 kids := by
      intro u op v ⟨kids, h, hdirs⟩ ⟨hop, hbare⟩ hv
      obtain rfl := Option.some_inj.mp hv
      obtain ⟨kids', he⟩ := effect_fsCall hH h hop
      exact ⟨kids', ramfsInv_of_effect h he, dirsModify_of_effect hdirs hbare he⟩
    have hinit : DirsModify (ramfsInit H s).2 (ramfsInit H s).1 fun _ => [] := by
      intro a ha _
      rw [(reach_leaf_iff rfl).mp ha]
      exact (isDirectory_ramfsInit hroot).2
    obtain ⟨kids, h, hdirs⟩ := Meets.invariant hstep ⟨_, ramfsInv_ramfsInit hH hroot, hinit⟩
      (hops.and hbare) hrun
    intro d name hd _ habsent hroom
    refine (makes_iff_modifies hH h hd habsent hroom).mpr ?_
    exact hdirs d ((inTree_iff_reach h.tree).mp hd.1) hd.2
  · obtain ⟨kids, h⟩ := ramfsInv_run hH hroot hops hrun
    intro d name hd habsent hroom
    exact twoDirectories hH h hd habsent hroom

/-- In a file system with one file, all directories can be used. -/
theorem directories_usable_iff_slots :
    DirsUsable slotHeap (ramfsInit slotHeap slotRamfs).1 slotFile := by
  have hops : Meets (fsStep slotHeap) (OnTree (ramfsInit slotHeap slotRamfs).1)
      (ramfsInit slotHeap slotRamfs).2
      [.make (ramfsInit slotHeap slotRamfs).1 (.lit "a.txt") (.create vfsFile)] :=
    ⟨Relation.ReflTransGen.refl, fun _ _ => trivial⟩
  refine (directories_usable_iff slotHeap slotBlocks lawful_slotHeap slotRamfs ramfsInit_slotRamfs
    _ hops slotFile rfl).2.1 ⟨?_, fun _ _ => trivial⟩
  intro _
  decide

/-- `vfs_create` makes a directory in the root directory of an empty file system. It is
    found there, and nothing can be made in it; in the one that `vfs_mkdir` makes, a file
    can. -/
theorem bare_directory :
    ∃ t u, run (fsStep slotHeap) (ramfsInit slotHeap slotRamfs).2
        [.make (ramfsInit slotHeap slotRamfs).1 (.lit "d") (.create vfsDirectory)] = some t ∧
      run (fsStep slotHeap) (ramfsInit slotHeap slotRamfs).2
        [.make (ramfsInit slotHeap slotRamfs).1 (.lit "d") (.mkdir 0o755)] = some u ∧
      vfsFinddir t (ramfsInit slotHeap slotRamfs).1 (.lit "d") = 0x40000 ∧
      vfsFinddir u (ramfsInit slotHeap slotRamfs).1 (.lit "d") = 0x40000 ∧
      (vfsCreate slotHeap t 0x40000 (.lit "x") vfsFile).1 = -1 ∧
      (vfsCreate slotHeap u 0x40000 (.lit "x") vfsFile).1 = 0 ∧
      ¬ DirsUsable slotHeap (ramfsInit slotHeap slotRamfs).1 t := by
  refine ⟨_, _, rfl, rfl, by decide, by decide, by decide, by decide, ?_⟩
  intro husable
  have hfits : NameFits (.lit "x") := by decide
  have hmakes := husable 0x40000 (.lit "x")
    ⟨Relation.ReflTransGen.single ⟨by decide, Or.inl (by decide)⟩, by decide⟩ hfits (by decide)
    (nodeBlock_slotHeap _)
  exact absurd hmakes.1 (by decide)

end NexusKernel.Fs
