import NexusKernel.Fs.Directories
import NexusKernel.Fs.FileBounds
import NexusKernel.Memory.KheapClient

/-!
# Creating a file when memory runs out

`ramfs_create_node` takes two blocks for a file, one for the node and one for its
record. If the second is not granted, it returns the node all the same, and
`ramfs_do_create` links it: `vfs_create` returns 0 and the new entry is a file that can
be neither read nor written.

Results:
* `FsReachable.ramfsInv`: the invariant also survives what the other clients of the heap
  do.
* `usableEmptyFile_of_record`: a file with an empty record can be read and written.
* `file_creation_all_or_nothing_iff`: creation is all or nothing iff not the second of
  the two blocks alone is refused.
* `file_without_record`: a heap in which it is.
-/

namespace NexusKernel.Fs

open Memory

variable {τ β : Type} {H : Heap τ} {blocks : τ → ℕ → Option ℕ} {s t : Ramfs τ} {root d x : ℕ}
  {kids : ℕ → List ℕ} {name : CString}

/-- What `ramfs_init`, calls on nodes of the tree and the rest of the kernel lead to. The
    rest of the kernel may do to memory and heap what it likes, but frees no block of the
    tree. -/
inductive FsReachable (H : Heap τ) (blocks : τ → ℕ → Option ℕ) (root : ℕ) : Ramfs τ → Prop
  | init (s : Ramfs τ) (hroot : (ramfsInit H s).1 = root) (h0 : root ≠ 0) :
      FsReachable H blocks root (ramfsInit H s).2
  | call {s : Ramfs τ} (hs : FsReachable H blocks root s) (op : FsOp) (hop : OnTree root s op) :
      FsReachable H blocks root (fsCall H s op).2
  | other {s : Ramfs τ} (hs : FsReachable H blocks root s) (mem : Mem) (heap : τ)
      (hkeep : ∀ a, InTree s root a → ∀ p ∈ blocksOf s a, ∀ m, blocks s.heap p = some m →
        blocks heap p = some m) :
      FsReachable H blocks root { s with mem := mem, heap := heap }

theorem FsReachable.ramfsInv (hH : H.Lawful blocks) (hs : FsReachable H blocks root s) :
    ∃ kids, RamfsInv blocks s root kids := by
  induction hs with
  | init s hroot h0 =>
    subst hroot
    exact ⟨_, ramfsInv_ramfsInit hH h0⟩
  | call _ op hop ih =>
    obtain ⟨kids, h⟩ := ih
    obtain ⟨kids', he⟩ := effect_fsCall hH h hop
    exact ⟨kids', ramfsInv_of_effect h he⟩
  | other _ mem heap hkeep ih =>
    obtain ⟨kids, h⟩ := ih
    have hheap := h.mono_heap fun a ha => hkeep a ((inTree_iff_reach h.tree).mpr ha)
    exact ⟨kids, hheap.congr_mem mem⟩

/-! ## Usable files -/

/-- Reading `x` gives nothing, and writing to it succeeds if the end is within the limit
    and the heap grants the block. -/
def UsableEmptyFile (H : Heap τ) (t : Ramfs τ) (x : ℕ) : Prop :=
  (∀ offset size buffer, vfsRead t x offset size (some buffer) = (0, some buffer)) ∧
  ∀ offset size buffer, 0 < size → offset + size ≤ ramfsMaxFileSize →
    (H.kmalloc t.heap (grownCapacity (offset + size))).1 ≠ 0 →
    (vfsWrite H t x offset size (some buffer)).1 = size

theorem usableEmptyFile_of_record (hH : H.Lawful blocks) (hx : IsFile t x)
    (hempty : t.fileOf x = ⟨0, 0, 0⟩) : UsableEmptyFile H t x := by
  refine ⟨?_, ?_⟩
  · intro offset size buffer
    simp [vfsRead_eq hx, hempty, copyIn_zero, toSsize]
  · intro offset size buffer _ hmax hroom
    have hok : FileOk (blocks t.heap) (t.fileOf x) := hempty ▸ fileOk_empty _
    have hlt : offset + size < 2 ^ 32 := by
      unfold ramfsMaxFileSize at hmax
      omega
    obtain ⟨heap, -, ⟨-, hlimit | hnone⟩, -⟩ | ⟨f', heap, -, -, -, -, -, hwrite⟩ :=
      vfsWrite_cases hH hx hok hlt buffer
    · omega
    · exact absurd hnone hroom
    · rw [hwrite]

/-- Without a record the file cannot be read. -/
theorem not_usableEmptyFile (hfile : (t.nodes x).privateData = 0) : ¬ UsableEmptyFile H t x := by
  intro husable
  have hread := congrArg Prod.fst (husable.1 0 1 fun _ => 0)
  simp [vfsRead, ramfsRead, hfile] at hread

/-! ## All or nothing -/

/-- `vfs_create` of a file returns 0, and the entry is there and can be used; or it
    returns -1, and all is as before. What is seen of the heap is `view`. -/
def AllOrNothing (H : Heap τ) (view : τ → β) (s : Ramfs τ) (d : ℕ) (name : CString) : Prop :=
  ∃ result t, vfsCreate H s d name vfsFile = (result, t) ∧
    ((result = 0 ∧ vfsFinddir t d name ≠ 0 ∧ UsableEmptyFile H t (vfsFinddir t d name)) ∨
      (result = -1 ∧ t = { s with heap := t.heap } ∧ view t.heap = view s.heap))

/-- No block is granted, or both are. -/
def BothBlocks (H : Heap τ) (s : Ramfs τ) : Prop :=
  (nodeBlock H s).1 = 0 ∨ (H.kmalloc (nodeBlock H s).2 sizeofRamfsFile).1 ≠ 0

theorem allOrNothing_iff {view : τ → β} (hview : ∀ a b, blocks a = blocks b → view a = view b)
    (hH : H.Lawful blocks) (h : RamfsInv blocks s root kids) (hd : Reach kids root d)
    (hmod : s.modifies d = true) (hfits : NameFits name) (hfresh : vfsFinddir s d name = 0) :
    AllOrNothing H view s d name ↔ BothBlocks H s := by
  have habsent := (vfsFinddir_eq_zero_iff h.tree hd (h.tree.dir_type d hd hmod) name).mp hfresh
  by_cases hroom : (nodeBlock H s).1 = 0
  · have hfail : vfsMake H s d name (.create vfsFile) = (-1, { s with heap := (nodeBlock H s).2 }) :=
      make_of_no_room h.tree hd hmod habsent hroom
    refine iff_of_true ⟨_, _, hfail, Or.inr ⟨rfl, rfl, ?_⟩⟩ (Or.inl hroom)
    exact hview _ _ (hH.kmalloc_fail _ _ hroom)
  · have hxd : (nodeBlock H s).1 ≠ d := by
      intro he
      exact h.not_reach (hH.kmalloc_fresh s.heap sizeofVfsNode hroom) (he ▸ hd)
    have hrecord : recordBlock H (nodeBlock H s).2 (MakeOp.create vfsFile).type =
        H.kmalloc (nodeBlock H s).2 sizeofRamfsFile := if_pos (by decide)
    obtain ⟨n, heap, hn, hmake⟩ : ∃ n heap,
        n.privateData = (H.kmalloc (nodeBlock H s).2 sizeofRamfsFile).1 ∧
        vfsMake H s d name (.create vfsFile) = (0, s.addNode d (nodeBlock H s).1 n heap) := by
      refine ⟨_, _, ?_, make_of_room h.tree hd hmod habsent hroom hxd⟩
      rw [hrecord]
      rfl
    have hmade := madeEntry hH h hd hmake
    have hnode : (s.addNode d (nodeBlock H s).1 n heap).nodes (nodeBlock H s).1 = n :=
      addNode_nodes_new hxd
    have hfound : vfsFinddir (s.addNode d (nodeBlock H s).1 n heap) d name = (nodeBlock H s).1 := by
      have hself := hmade.finddir
      rwa [CString.take_of_le hfits] at hself
    constructor
    · intro ⟨result, t, hcreate, hcase⟩
      obtain ⟨rfl, rfl⟩ := Prod.mk.inj (hmake.symm.trans hcreate)
      refine Or.inr fun h0 => ?_
      obtain ⟨-, -, husable⟩ | ⟨hfail, -⟩ := hcase
      · rw [hfound] at husable
        exact not_usableEmptyFile (by rw [hnode, hn, h0]) husable
      · exact absurd hfail (by decide)
    · intro hboth
      have hfile : n.privateData ≠ 0 := hn ▸ hboth.resolve_left hroom
      have hreach := (hmade.adds.reach (nodeBlock H s).1).mpr (Or.inr rfl)
      refine ⟨0, _, hmake, Or.inl ⟨rfl, ?_⟩⟩
      rw [hfound]
      refine ⟨hroom, usableEmptyFile_of_record hH ⟨hroom, ?_, ?_⟩ (fileOf_addNode_new hxd hfile)⟩
      · exact hmade.inv.tree.ops_some _ hreach
      · rw [hnode]
        exact hfile

/-- In every state of the file system and of the kernel heap, creating a file under a
    fresh name of at most 127 characters in a directory that can be written to is all or
    nothing, as for the entry, the tree and the block list of the heap, iff it is not the
    case that the heap grants the block of the node and refuses that of the record. -/
theorem file_creation_all_or_nothing_iff (A : HeapArea) (root : ℕ) (s : Ramfs (ClientHeap A))
    (hs : FsReachable (kheapClient A) clientBlocks root s) (d : ℕ) (hd : InTree s root d)
    (hmod : s.modifies d = true) (name : CString) (hfits : NameFits name)
    (hfresh : vfsFinddir s d name = 0) :
    AllOrNothing (kheapClient A) (fun c => blockList c.state.heap) s d name ↔
      BothBlocks (kheapClient A) s := by
  obtain ⟨kids, h⟩ := hs.ramfsInv (lawful_kheapClient A)
  exact allOrNothing_iff (fun _ _ => blockList_eq_of_clientBlocks) (lawful_kheapClient A) h
    ((inTree_iff_reach h.tree).mp hd) hmod hfits hfresh

/-- Memory before `ramfs_init`, with the kernel heap at 2 MiB. -/
def kheapRamfs : Ramfs (ClientHeap heapAreaAt2M) where
  nodes := fun _ => {}
  files := fun _ => ⟨0, 0, 0⟩
  mem := fun _ => 0
  created := 0
  heap := clientBoot heapAreaAt2M fun _ => 0

theorem ramfsInit_kheapRamfs : (ramfsInit (kheapClient heapAreaAt2M) kheapRamfs).1 = 0x200010 := by
  decide +kernel

/-- The first file of a new file system. -/
theorem file_creation_all_or_nothing_iff_at2M :
    AllOrNothing (kheapClient heapAreaAt2M) (fun c => blockList c.state.heap)
      (ramfsInit (kheapClient heapAreaAt2M) kheapRamfs).2 0x200010 (.lit "a.txt") := by
  have hfits : NameFits (.lit "a.txt") := by decide
  refine (file_creation_all_or_nothing_iff heapAreaAt2M 0x200010 _
    (.init kheapRamfs ramfsInit_kheapRamfs (by norm_num)) 0x200010 Relation.ReflTransGen.refl
    (by decide +kernel) (.lit "a.txt") hfits (by decide +kernel)).mpr (Or.inr ?_)
  decide +kernel

/-- After `ramfs_init` another client takes the heap but for a block of 184 bytes. -/
def fullRamfs : Ramfs (ClientHeap heapAreaAt2M) :=
  { (ramfsInit (kheapClient heapAreaAt2M) kheapRamfs).2 with
    heap := ((kheapClient heapAreaAt2M).kmalloc
      (ramfsInit (kheapClient heapAreaAt2M) kheapRamfs).2.heap 4193888).2 }

theorem fsReachable_fullRamfs :
    FsReachable (kheapClient heapAreaAt2M) clientBlocks 0x200010 fullRamfs := by
  refine .other (.init kheapRamfs ramfsInit_kheapRamfs (by norm_num)) _ _ ?_
  intro a _ p _ m hm
  exact (lawful_kheapClient heapAreaAt2M).kmalloc_live _ _ hm

/-- In this state `vfs_create` returns 0, and the new file can be neither read nor written. -/
theorem file_without_record :
    FsReachable (kheapClient heapAreaAt2M) clientBlocks 0x200010 fullRamfs ∧
      ∃ t, vfsCreate (kheapClient heapAreaAt2M) fullRamfs 0x200010 (.lit "a.txt") vfsFile = (0, t) ∧
        vfsFinddir t 0x200010 (.lit "a.txt") ≠ 0 ∧
        (vfsRead t (vfsFinddir t 0x200010 (.lit "a.txt")) 0 1 (some fun _ => 0)).1 = -1 ∧
        (vfsWrite (kheapClient heapAreaAt2M) t (vfsFinddir t 0x200010 (.lit "a.txt")) 0 1
          (some fun _ => 0)).1 = -1 ∧
        ¬ AllOrNothing (kheapClient heapAreaAt2M) (fun c => blockList c.state.heap) fullRamfs
          0x200010 (.lit "a.txt") := by
  have hread : (vfsRead (vfsCreate (kheapClient heapAreaAt2M) fullRamfs 0x200010 (.lit "a.txt")
      vfsFile).2 (vfsFinddir (vfsCreate (kheapClient heapAreaAt2M) fullRamfs 0x200010
        (.lit "a.txt") vfsFile).2 0x200010 (.lit "a.txt")) 0 1 (some fun _ => 0)).1 = -1 := by
    decide +kernel
  have hcreate : (vfsCreate (kheapClient heapAreaAt2M) fullRamfs 0x200010 (.lit "a.txt")
      vfsFile).1 = 0 := by
    decide +kernel
  refine ⟨fsReachable_fullRamfs, _, Prod.ext hcreate rfl, by decide +kernel, hread,
    by decide +kernel, ?_⟩
  intro ⟨result, t, heq, hcase⟩
  rw [heq] at hread hcreate
  obtain ⟨-, -, husable⟩ | ⟨hfail, -⟩ := hcase
  · rw [husable.1] at hread
    exact absurd hread (by decide)
  · exact absurd (hcreate.symm.trans hfail) (by decide)

end NexusKernel.Fs
