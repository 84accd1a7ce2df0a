import NexusKernel.Fs.RamfsTree

/-!
# Calls on the directories of a tree

What `vfs_finddir`, `vfs_readdir`, `vfs_create`, `vfs_mkdir` and `vfs_unlink` return
and leave behind, for a directory of a `RamfsTree`. `vfs_create` and `vfs_mkdir` differ
in the node they make and in nothing else, so they are treated as one call.

Results:
* `vfsFinddir_eq`, `vfsReaddir_eq`: lookup and enumeration are those of the children.
* `make_of_present`, `make_of_no_room`, `make_of_room`: the outcomes of making a node.
* `vfsUnlink_of_absent`, `vfsUnlink_of_present`: the outcomes of unlinking.
-/

namespace NexusKernel.Fs

variable {τ : Type} {H : Heap τ} {s : Ramfs τ} {root d : ℕ} {kids : ℕ → List ℕ} {name : CString}

/-- The child of `d` with a given name, the first if there are several. -/
def entry (s : Ramfs τ) (kids : ℕ → List ℕ) (d : ℕ) (name : CString) : Option ℕ :=
  (kids d).find? fun c => s.nameOf c = name

theorem entry_eq_none_iff : entry s kids d name = none ↔ ∀ c ∈ kids d, s.nameOf c ≠ name := by
  simp [entry]

theorem mem_of_entry {c : ℕ} (h : entry s kids d name = some c) :
    c ∈ kids d ∧ s.nameOf c = name := by
  refine ⟨List.mem_of_find?_eq_some h, ?_⟩
  simpa using List.find?_some h

/-! ## Lookup and enumeration -/

/-- Lookup in a directory is lookup among its children. -/
theorem vfsFinddir_eq (h : RamfsTree s root kids) (hd : Reach kids root d)
    (hdir : (s.nodes d).type &&& vfsDirectory ≠ 0) (name : CString) :
    vfsFinddir s d name = (entry s kids d name).getD 0 := by
  have hguard : ¬ (d = 0 ∨ (s.nodes d).ops = none) := not_or.mpr ⟨h.ne_zero hd, h.ops_some d hd⟩
  rw [vfsFinddir, if_neg hguard, ramfsFinddir, if_neg hdir,
    finddirLoop_eq (h.links d hd) (h.count d hd)]
  rfl

theorem vfsFinddir_eq_zero_iff (h : RamfsTree s root kids) (hd : Reach kids root d)
    (hdir : (s.nodes d).type &&& vfsDirectory ≠ 0) (name : CString) :
    vfsFinddir s d name = 0 ↔ entry s kids d name = none := by
  rw [vfsFinddir_eq h hd hdir]
  rcases hentry : entry s kids d name with _ | c
  · simp
  · have hc0 : c ≠ 0 := h.ne_zero (hd.kid (mem_of_entry hentry).1)
    simp [hc0]

/-- A node that is not a directory has no entries. -/
theorem vfsFinddir_of_not_dir (hdir : (s.nodes d).type &&& vfsDirectory = 0) (name : CString) :
    vfsFinddir s d name = 0 := by
  rw [vfsFinddir, ramfsFinddir, if_pos hdir, ite_self]

/-- A name without an entry is not found, whatever the node is. -/
theorem vfsFinddir_of_no_entry (h : RamfsTree s root kids) (hd : Reach kids root d)
    (habsent : entry s kids d name = none) : vfsFinddir s d name = 0 := by
  by_cases hdir : (s.nodes d).type &&& vfsDirectory = 0
  · exact vfsFinddir_of_not_dir hdir name
  · exact (vfsFinddir_eq_zero_iff h hd hdir name).mpr habsent

/-- Enumeration of a directory is that of its children, in their order. -/
theorem vfsReaddir_eq (h : RamfsTree s root kids) (hd : Reach kids root d)
    (hdir : (s.nodes d).type &&& vfsDirectory ≠ 0) {index : ℕ} (hindex : index < 2 ^ 32) :
    vfsReaddir s d index = (kids d).getD index 0 := by
  have hguard : ¬ (d = 0 ∨ (s.nodes d).ops = none) := not_or.mpr ⟨h.ne_zero hd, h.ops_some d hd⟩
  rw [vfsReaddir, if_neg hguard, ramfsReaddir, if_neg hdir,
    readdirLoop_eq (h.links d hd) (h.count d hd) (Nat.zero_le _) hindex]
  rfl

/-! ## Making a node -/

/-- What is made: `vfs_create` with a type, or `vfs_mkdir` with a mode. -/
inductive MakeOp where
  | create (type : ℕ)
  | mkdir (mode : ℕ)

def vfsMake (H : Heap τ) (s : Ramfs τ) (d : ℕ) (name : CString) : MakeOp → ℤ × Ramfs τ
  | .create type => vfsCreate H s d name type
  | .mkdir mode => vfsMkdir H s d name mode

/-- The type of the node that is made. -/
def MakeOp.type : MakeOp → ℕ
  | .create type => type
  | .mkdir _ => vfsDirectory

/-- The block for a node. -/
def nodeBlock (H : Heap τ) (s : Ramfs τ) : ℕ × τ := H.kmalloc s.heap sizeofVfsNode

/-- The block for the record of a node of a given type, 0 if it has none. -/
def recordBlock (H : Heap τ) (heap : τ) (type : ℕ) : ℕ × τ :=
  if type &&& vfsFile ≠ 0 then H.kmalloc heap sizeofRamfsFile else (0, heap)

/-- A directory has no record. -/
theorem recordBlock_vfsDirectory (H : Heap τ) (heap : τ) :
    recordBlock H heap vfsDirectory = (0, heap) := if_neg (by decide)

/-- The node that is made in `d`, with its record. -/
def madeNode (s : Ramfs τ) (d : ℕ) (name : CString) (file : ℕ) : MakeOp → VfsNode
  | .create type => { newNode name type s.nextInode with
      parent := d, nextSibling := (s.nodes d).children, privateData := file }
  | .mkdir mode => { newNode name vfsDirectory s.nextInode with
      permissions := mode, parent := d, nextSibling := (s.nodes d).children,
      ops := some .ramfsDirOps, privateData := file }

theorem freshNode_madeNode (s : Ramfs τ) (d : ℕ) (name : CString) (file : ℕ) (op : MakeOp) :
    FreshNode s d (madeNode s d name file op) := by
  cases op with
  | create type => exact ⟨rfl, rfl, rfl, rfl, Option.some_ne_none _, fun h => Bool.noConfusion h⟩
  | mkdir mode =>
    have htype : vfsDirectory &&& vfsDirectory ≠ 0 := by decide
    exact ⟨rfl, rfl, rfl, rfl, Option.some_ne_none _, fun _ => htype⟩

theorem newFile_of_no_room {node : ℕ} (h : (H.kmalloc s.heap sizeofRamfsFile).1 = 0) :
    newFile H s node = { s with heap := (H.kmalloc s.heap sizeofRamfsFile).2 } :=
  if_neg (not_not.mpr h)

theorem newFile_of_room {node : ℕ} (h : (H.kmalloc s.heap sizeofRamfsFile).1 ≠ 0) :
    newFile H s node = { s with
      nodes := Function.update s.nodes node
        { s.nodes node with privateData := (H.kmalloc s.heap sizeofRamfsFile).1 },
      files := Function.update s.files (H.kmalloc s.heap sizeofRamfsFile).1 ⟨0, 0, 0⟩,
      heap := (H.kmalloc s.heap sizeofRamfsFile).2 } := if_pos h

theorem ramfsCreateNode_of_no_room {type : ℕ} (h : (nodeBlock H s).1 = 0) :
    ramfsCreateNode H s name type = (0, { s with heap := (nodeBlock H s).2 }) := if_pos h

/-- A new node that nothing points to yet. -/
theorem ramfsCreateNode_of_room {type : ℕ} (h : (nodeBlock H s).1 ≠ 0) :
    ramfsCreateNode H s name type = ((nodeBlock H s).1,
      { nodes := Function.update s.nodes (nodeBlock H s).1
          { newNode name type s.nextInode with
            privateData := (recordBlock H (nodeBlock H s).2 type).1 },
        files := if (recordBlock H (nodeBlock H s).2 type).1 = 0 then s.files
          else Function.update s.files (recordBlock H (nodeBlock H s).2 type).1 ⟨0, 0, 0⟩,
        mem := s.mem, created := s.created + 1,
        heap := (recordBlock H (nodeBlock H s).2 type).2 }) := by
  refine (if_neg h).trans (Prod.ext rfl ?_)
  show (if type &&& vfsFile ≠ 0 then newFile H
    { s with
      nodes := Function.update s.nodes (nodeBlock H s).1 (newNode name type s.nextInode),
      created := s.created + 1, heap := (nodeBlock H s).2 } (nodeBlock H s).1 else _) = _
  unfold recordBlock
  by_cases hfile : type &&& vfsFile ≠ 0
  · rw [if_pos hfile, if_pos hfile]
    by_cases h0 : (H.kmalloc (nodeBlock H s).2 sizeofRamfsFile).1 = 0
    · rw [newFile_of_no_room h0, if_pos h0, h0]
      rfl
    · rw [newFile_of_room h0, if_neg h0]
      simp only [Function.update_idem, Function.update_self]
  · rw [if_neg hfile, if_neg hfile]
    rfl

section

variable {op : MakeOp}

/-- The call fails on a name that is present. -/
theorem make_of_present (h : RamfsTree s root kids) (hd : Reach kids root d)
    (hmod : s.modifies d = true) {c : ℕ} (hc : entry s kids d name = some c) :
    vfsMake H s d name op = (-1, s) := by
  have hdir := h.dir_type d hd hmod
  have hguard : ¬ (d = 0 ∨ s.modifies d = false) := by simp [h.ne_zero hd, hmod]
  have hfound : ramfsFinddir s d name ≠ 0 := by
    have hne := mt (vfsFinddir_eq_zero_iff h hd hdir name).mp (by simp [hc])
    rwa [vfsFinddir, if_neg (not_or.mpr ⟨h.ne_zero hd, h.ops_some d hd⟩)] at hne
  cases op with
  | create type => exact (if_neg hguard).trans ((if_neg hdir).trans (if_pos hfound))
  | mkdir mode => exact (if_neg hguard).trans ((if_neg hdir).trans (if_pos hfound))

/-- What is left of the call when the name is absent. -/
theorem make_of_absent (h : RamfsTree s root kids) (hd : Reach kids root d)
    (hmod : s.modifies d = true) (habsent : entry s kids d name = none) :
    vfsMake H s d name op = (match op with
      | .create type =>
        let (node, s) := ramfsCreateNode H s name type
        if node = 0 then (-1, s) else (0, linkChild s d node)
      | .mkdir mode =>
        let (dir, s) := ramfsCreateNode H s name vfsDirectory
        if dir = 0 then (-1, s)
        else
          let s := s.setNode dir fun n => { n with permissions := mode }
          let s := linkChild s d dir
          (0, s.setNode dir fun n => { n with ops := some .ramfsDirOps })) := by
  have hdir := h.dir_type d hd hmod
  have hguard : ¬ (d = 0 ∨ s.modifies d = false) := by simp [h.ne_zero hd, hmod]
  have hfound : ¬ ramfsFinddir s d name ≠ 0 := by
    have heq := (vfsFinddir_eq_zero_iff h hd hdir name).mpr habsent
    rw [vfsFinddir, if_neg (not_or.mpr ⟨h.ne_zero hd, h.ops_some d hd⟩)] at heq
    exact not_not.mpr heq
  cases op with
  | create type => exact (if_neg hguard).trans ((if_neg hdir).trans (if_neg hfound))
  | mkdir mode => exact (if_neg hguard).trans ((if_neg hdir).trans (if_neg hfound))

/-- The call fails without a block for the node. -/
theorem make_of_no_room (h : RamfsTree s root kids) (hd : Reach kids root d)
    (hmod : s.modifies d = true) (habsent : entry s kids d name = none)
    (hroom : (nodeBlock H s).1 = 0) :
    vfsMake H s d name op = (-1, { s with heap := (nodeBlock H s).2 }) := by
  rw [make_of_absent h hd hmod habsent]
  cases op <;> simp only [ramfsCreateNode_of_no_room hroom, if_pos]

/-- Otherwise it adds the node. -/
theorem make_of_room (h : RamfsTree s root kids) (hd : Reach kids root d)
    (hmod : s.modifies d = true) (habsent : entry s kids d name = none)
    (hroom : (nodeBlock H s).1 ≠ 0) (hne : (nodeBlock H s).1 ≠ d) :
    vfsMake H s d name op = (0, s.addNode d (nodeBlock H s).1
      (madeNode s d name (recordBlock H (nodeBlock H s).2 op.type).1 op)
      (recordBlock H (nodeBlock H s).2 op.type).2) := by
  rw [make_of_absent h hd hmod habsent]
  cases op with
  | create type =>
    simp only [ramfsCreateNode_of_room hroom, if_neg hroom, linkChild, Ramfs.setNode,
      Function.update_idem, Function.update_self, Function.update_of_ne hne.symm]
    rfl
  | mkdir mode =>
    simp only [ramfsCreateNode_of_room hroom, if_neg hroom, linkChild, Ramfs.setNode,
      Function.update_idem, Function.update_self, Function.update_of_ne hne.symm,
      Function.update_comm hne, Ramfs.addNode, madeNode, MakeOp.type, recordBlock_vfsDirectory,
      if_true]

end

/-! ## Unlinking -/

/-- The blocks of the node at `a`: its own, that of its record and that of the data. -/
def blocksOf (s : Ramfs τ) (a : ℕ) : List ℕ :=
  a :: if (s.nodes a).privateData = 0 then []
    else (s.nodes a).privateData :: if (s.fileOf a).data = 0 then [] else [(s.fileOf a).data]

/-- The child's blocks are freed, the node last. -/
theorem freeChild_eq (H : Heap τ) (s : Ramfs τ) (c : ℕ) :
    freeChild H s c = { s with heap := (blocksOf s c).reverse.foldl H.kfree s.heap } := by
  simp only [freeChild, blocksOf, Ramfs.fileOf, Ramfs.free]
  by_cases hfile : (s.nodes c).privateData = 0
  · rw [if_neg (not_not.mpr hfile), if_pos hfile]
    rfl
  · rw [if_pos hfile, if_neg hfile]
    by_cases hdata : (s.files (s.nodes c).privateData).data = 0
    · simp only [hdata, ne_eq, not_true_eq_false, if_false, if_true]
      rfl
    · simp only [hdata, ne_eq, not_false_eq_true, if_false, if_true]
      rfl

theorem privateData_unlinkChild (s : Ramfs τ) (d prev c a : ℕ) :
    ((unlinkChild s d prev c).nodes a).privateData = (s.nodes a).privateData := by
  rw [unlinkChild_nodes]

theorem fileOf_unlinkChild (s : Ramfs τ) (d prev c a : ℕ) :
    (unlinkChild s d prev c).fileOf a = s.fileOf a := by
  have hfiles : (unlinkChild s d prev c).files = s.files := by
    unfold unlinkChild
    split_ifs <;> rfl
  rw [Ramfs.fileOf, hfiles, privateData_unlinkChild]
  rfl

theorem blocksOf_unlinkChild (s : Ramfs τ) (d prev c a : ℕ) :
    blocksOf (unlinkChild s d prev c) a = blocksOf s a := by
  rw [blocksOf, fileOf_unlinkChild, privateData_unlinkChild, blocksOf]

theorem vfsUnlink_of_absent (h : RamfsTree s root kids) (hd : Reach kids root d)
    (hmod : s.modifies d = true) (habsent : entry s kids d name = none) :
    vfsUnlink H s d name = (-1, s) := by
  have hguard : ¬ (d = 0 ∨ s.modifies d = false) := by simp [h.ne_zero hd, hmod]
  obtain ⟨p, hloop⟩ := unlinkLoop_of_find_none 0 (h.links d hd) (h.count d hd)
    (entry_eq_none_iff.mp habsent)
  rw [vfsUnlink, if_neg hguard, ramfsDoUnlink, if_neg (h.dir_type d hd hmod), hloop]
  rfl

/-- The child is taken out of the list and its blocks are freed. -/
theorem vfsUnlink_of_present (h : RamfsTree s root kids) (hd : Reach kids root d)
    (hmod : s.modifies d = true) {c : ℕ} (hc : entry s kids d name = some c) :
    ∃ pre post, kids d = pre ++ c :: post ∧
      vfsUnlink H s d name = (0, { unlinkChild s d (pre.getLast?.getD 0) c with
        heap := (blocksOf s c).reverse.foldl H.kfree s.heap }) := by
  have hguard : ¬ (d = 0 ∨ s.modifies d = false) := by simp [h.ne_zero hd, hmod]
  obtain ⟨hname, pre, post, hkids, hpre⟩ := List.find?_eq_some_iff_append.mp hc
  have hc0 : c ≠ 0 := h.ne_zero (hd.kid (mem_of_entry hc).1)
  have hlinks := h.links d hd
  have hcount := h.count d hd
  rw [hkids] at hlinks hcount
  have hloop := unlinkLoop_of_find 0 hlinks hcount
    (show ∀ a ∈ pre, s.nameOf a ≠ name by simpa using hpre) (by simpa using hname)
  have hheap : (unlinkChild s d (pre.getLast?.getD 0) c).heap = s.heap := by
    unfold unlinkChild
    split_ifs <;> rfl
  refine ⟨pre, post, hkids, ?_⟩
  rw [vfsUnlink, if_neg hguard, ramfsDoUnlink, if_neg (h.dir_type d hd hmod), hloop]
  refine (if_neg hc0).trans ?_
  rw [freeChild_eq, blocksOf_unlinkChild, hheap]

end NexusKernel.Fs
