import NexusKernel.Fs.RamfsBlocks

/-!
# What the file system holds of the heap

With the log of its calls beside the heap (`Heap.logged`), what the file system holds
can be compared with what its tree uses: nodes, file records and data.

`vfs_unlink` frees the blocks of the node it takes out of the tree. If that is a
directory with children, they are out of the tree too, and their blocks stay held for
ever.

Results:
* `covers_of_effect`: every other call keeps all held blocks in the tree.
* `not_holdsTree_of_children`: unlinking a directory with children does not.
* `nothing_leaked_iff`: exactly which runs leak nothing.
-/

namespace NexusKernel.Fs

variable {τ : Type} {H : Heap τ} {blocks : τ → ℕ → Option ℕ} {root : ℕ} {kids kids' : ℕ → List ℕ}

/-- The blocks held are those of the nodes of the tree, each held once, and no block has
    been freed that was not held. -/
structure HoldsTree (root : ℕ) (s : Ramfs (τ × List HeapEvent)) : Prop where
  held_iff : ∀ p, p ∈ held s.heap.2 ↔ ∃ a, InTree s root a ∧ p ∈ blocksOf s a
  held_once : (held s.heap.2).Nodup
  nodup : ∀ a, InTree s root a → (blocksOf s a).Nodup
  disjoint : ∀ a b, InTree s root a → InTree s root b → ∀ p ∈ blocksOf s a, p ∈ blocksOf s b → a = b
  frees : FreesHeld s.heap.2

/-- What is unlinked has no children. -/
def UnlinksLeaf (H : Heap τ) (s : Ramfs τ) : FsOp → Prop
  | .unlink d name => (vfsUnlink H s d name).1 = 0 → (s.nodes (vfsFinddir s d name)).children = 0
  | _ => True

/-! ## Effects and the blocks in the tree -/

section

variable {s : Ramfs τ} {op : FsOp} {r : ℤ × Ramfs τ}

theorem effect_calls (he : Effect H blocks root s kids op r kids') :
    H.Calls blocks s.heap r.2.heap := by
  cases he with
  | fail hcalls _ => exact hcalls
  | made _ _ _ _ _ hnew => exact hnew.calls
  | unlinked _ _ _ _ hfreed => exact hfreed.calls
  | wrote _ _ _ _ _ _ hmoved => exact hmoved.calls

/-- All live blocks stay in the tree, unless a directory with children is unlinked. -/
theorem covers_of_effect (h : RamfsInv blocks s root kids)
    (hcovers : Covers (blocks s.heap) (Reach kids root) (blocksOf s))
    (hleaf : UnlinksLeaf H s op) (he : Effect H blocks root s kids op (fsCall H s op) kids') :
    Covers (blocks (fsCall H s op).2.heap) (Reach kids' root) (blocksOf (fsCall H s op).2) := by
  generalize hr : fsCall H s op = r at he
  cases he with
  | fail _ hblocks =>
    show Covers (blocks _) (Reach kids root) (blocksOf s)
    rw [hblocks]
    exact hcovers
  | made hd _ _ hx hx0 hnew =>
    refine hcovers.exchange (ramfsInv_made h hd hx hx0 hnew).2 ?_
    intro a _ ha
    exact (reach_insert (inserted_insertKid hd hx)).mpr (Or.inl ha)
  | @unlinked d name c pre post heap hd hmod hc hkids hfreed =>
    refine hcovers.exchange (ramfsInv_unlinked h hd hkids hfreed).2 ?_
    intro a hac ha
    have hzero : (s.nodes c).children = 0 := by
      rw [← vfsFinddir_of_entry h hd hmod hc]
      exact hleaf (congrArg Prod.fst hr)
    have hreach : Reach kids root c := hd.kid (mem_of_entry hc).1
    have hempty : kids c = [] := (h.tree.links c hreach).eq_nil_iff.mpr hzero
    refine (reach_remove h.tree.tree (removed_removeKid hd (mem_of_entry hc).1)).mpr ⟨ha, ?_⟩
    rw [reach_leaf_iff hempty]
    exact hac
  | wrote hnode hfile _ _ hfits hok hmoved =>
    exact hcovers.exchange (ramfsInv_wrote h hnode hfile hfits hok hmoved).2 fun a _ ha => ha

end

/-! ## Runs that leak nothing -/

section

variable {s t : Ramfs (τ × List HeapEvent)}

/-- The file system holds what is in its tree. -/
def HeldInv (blocks : τ → ℕ → Option ℕ) (root : ℕ) (s : Ramfs (τ × List HeapEvent)) : Prop :=
  LogOk blocks s.heap ∧ ∃ kids, RamfsInv (heldBlocks blocks) s root kids ∧
    Covers (heldBlocks blocks s.heap) (Reach kids root) (blocksOf s)

theorem HeldInv.holdsTree (hs : HeldInv blocks root s) : HoldsTree root s := by
  obtain ⟨hlog, kids, h, hcovers⟩ := hs
  have hreach : ∀ a, InTree s root a ↔ Reach kids root a := fun a => inTree_iff_reach h.tree
  refine ⟨?_, hlog.nodup, ?_, ?_, hlog.frees⟩
  · intro p
    simp only [hreach, ← hlog.isSome_iff]
    constructor
    · exact hcovers p
    · rintro ⟨a, ha, hp⟩
      exact h.owns.live a ha p hp
  · intro a ha
    exact h.owns.nodup a ((hreach a).mp ha)
  · intro a b ha hb
    exact h.owns.disjoint a b ((hreach a).mp ha) ((hreach b).mp hb)

theorem heldInv_step (hH : H.Lawful blocks) {op : FsOp} (hs : HeldInv blocks root s)
    (hop : OnTree root s op) (hleaf : UnlinksLeaf H.logged s op) :
    HeldInv blocks root (fsCall H.logged s op).2 := by
  obtain ⟨hlog, kids, h, hcovers⟩ := hs
  obtain ⟨kids', he⟩ := effect_fsCall hH.held h hop
  exact ⟨logOk_calls hH hlog (effect_calls he), kids', ramfsInv_of_effect h he,
    covers_of_effect h hcovers hleaf he⟩

/-- The children of an unlinked directory stay held and are not in the tree. -/
theorem not_holdsTree_of_children (h : RamfsInv (heldBlocks blocks) s root kids) {d c e : ℕ}
    {pre post : List ℕ} {heap : τ × List HeapEvent} (hd : Reach kids root d)
    (hkids : kids d = pre ++ c :: post)
    (hfreed : H.logged.Exchange (heldBlocks blocks) s.heap heap (blocksOf s c) [])
    (hlog : LogOk blocks heap) (he : e ∈ kids c) :
    ¬ HoldsTree root { unlinkChild s d (pre.getLast?.getD 0) c with heap := heap } := by
  obtain ⟨h', hchange⟩ := ramfsInv_unlinked h hd hkids hfreed
  have hmem : c ∈ kids d := by simp [hkids]
  have hc : Reach kids root c := hd.kid hmem
  have hec : e ≠ c := by
    rintro rfl
    exact h.tree.tree.not_mem_self hc he
  have hown : e ∈ blocksOf s e := List.mem_cons_self
  have hgone : ∀ {a}, Reach (removeKid kids d c) root a → ¬ Reach kids c a := fun ha =>
    ((reach_remove h.tree.tree (removed_removeKid hd hmem)).mp ha).2
  -- the block of the child is none of those freed
  have hheld : e ∈ held heap.2 := by
    rw [← hlog.isSome_iff, hfreed.live]
    refine Or.inl ⟨h.owns.live e (hc.kid he) e hown, ?_⟩
    intro hin
    exact hec (h.owns.disjoint e c (hc.kid he) hc e hown hin)
  intro hholds
  obtain ⟨a, ha, hea⟩ := (hholds.held_iff e).mp hheld
  have ha' := (inTree_iff_reach h'.tree).mp ha
  have hac : a ≠ c := by
    rintro rfl
    exact hgone ha' Reach.root
  obtain ⟨hreach, hsame⟩ := hchange.other a hac ha'
  rw [hsame] at hea
  obtain rfl := h.owns.disjoint e a (hc.kid he) hreach e hown hea
  exact hgone ha' (Reach.root.kid he)

/-- A call that unlinks a directory with children leaks them. -/
theorem not_holdsTree_step (hH : H.Lawful blocks) {op : FsOp} (hs : HeldInv blocks root s)
    (hop : OnTree root s op) (hleaf : ¬ UnlinksLeaf H.logged s op) :
    ¬ HoldsTree root (fsCall H.logged s op).2 := by
  obtain ⟨hlog, kids, h, hcovers⟩ := hs
  obtain ⟨kids', he⟩ := effect_fsCall hH.held h hop
  have hlog' := logOk_calls hH hlog (effect_calls he)
  generalize hr : fsCall H.logged s op = r at he hlog'
  cases he with
  | @fail _ heap _ _ =>
    -- an unlink that fails unlinks nothing
    refine absurd ?_ hleaf
    cases op with
    | make => trivial
    | write => trivial
    | unlink d name =>
      intro hzero
      have hfail : (vfsUnlink H.logged s d name).1 = -1 := congrArg Prod.fst hr
      rw [hzero] at hfail
      exact absurd hfail (by decide)
  | made => exact absurd trivial hleaf
  | @unlinked d name c pre post heap hd hmod hc hkids hfreed =>
    have hchildren : (s.nodes c).children ≠ 0 := by
      intro hzero
      refine hleaf fun _ => ?_
      rw [vfsFinddir_of_entry h hd hmod hc]
      exact hzero
    have hreach : Reach kids root c := hd.kid (mem_of_entry hc).1
    have hne : kids c ≠ [] := mt (h.tree.links c hreach).eq_nil_iff.mp hchildren
    obtain ⟨e, hmem⟩ := List.exists_mem_of_ne_nil _ hne
    exact not_holdsTree_of_children h hd hkids hfreed hlog' hmem
  | wrote => exact absurd trivial hleaf

theorem heldInv_ramfsInit (hH : H.Lawful blocks) (hlog : s.heap.2 = [])
    (hroot : (ramfsInit H.logged s).1 ≠ 0) :
    HeldInv blocks (ramfsInit H.logged s).1 (ramfsInit H.logged s).2 := by
  have h := ramfsInv_ramfsInit hH.held hroot
  have hroom := mt ramfsInit_eq_zero_iff.mpr hroot
  have hstart : LogOk blocks s.heap := by
    refine ⟨?_, ?_, ?_⟩
    · rw [hlog]
      exact List.nodup_nil
    · rw [hlog]
      trivial
    · rw [hlog]
      exact fun p hp => absurd hp List.not_mem_nil
  have hheap : (ramfsInit H.logged s).2.heap = (nodeBlock H.logged s).2 := by
    rw [ramfsInit_of_room hroom]
  have hlog' : LogOk blocks (ramfsInit H.logged s).2.heap := by
    rw [hheap]
    exact logOk_call hH hstart (Or.inl ⟨sizeofVfsNode, rfl⟩)
  refine ⟨hlog', _, h, ?_⟩
  intro p hp
  refine ⟨(ramfsInit H.logged s).1, Reach.root, ?_⟩
  rw [hlog'.isSome_iff, hheap, nodeBlock, logged_of_success hroom] at hp
  have hroot' : (ramfsInit H.logged s).1 = (nodeBlock H.logged s).1 := by
    rw [ramfsInit_of_room hroom]
  obtain rfl : p = (ramfsInit H.logged s).1 := by
    rw [hlog] at hp
    rw [hroot']
    exact List.mem_singleton.mp hp
  exact List.mem_cons_self

end

/-- Along a run from `ramfs_init` the file system holds exactly the blocks of its tree, in
    every state, iff no directory with children is unlinked. -/
theorem nothing_leaked_iff (H : Heap τ) (blocks : τ → ℕ → Option ℕ) (hH : H.Lawful blocks)
    (s : Ramfs (τ × List HeapEvent)) (hlog : s.heap.2 = []) (hroot : (ramfsInit H.logged s).1 ≠ 0)
    (ops : List FsOp)
    (hops : Meets (fsStep H.logged) (OnTree (ramfsInit H.logged s).1) (ramfsInit H.logged s).2 ops) :
    Along (fsStep H.logged) (HoldsTree (ramfsInit H.logged s).1) (ramfsInit H.logged s).2 ops ↔
      Meets (fsStep H.logged) (UnlinksLeaf H.logged) (ramfsInit H.logged s).2 ops := by
  obtain ⟨u, hu⟩ := exists_run (fun t op => ⟨_, rfl⟩ : ∀ t op, ∃ v, fsStep H.logged t op = some v)
    (ramfsInit H.logged s).2 ops
  refine along_iff_meets_on (HeldInv blocks (ramfsInit H.logged s).1) (fun t ht => ht.holdsTree)
    ?_ ?_ (heldInv_ramfsInit hH hlog hroot) hops hu
  · intro t op v ht hop hleaf hstep
    obtain rfl := Option.some_inj.mp hstep
    exact heldInv_step hH ht hop hleaf
  · intro t op v ht hop hleaf hstep
    obtain rfl := Option.some_inj.mp hstep
    exact not_holdsTree_step hH ht hop hleaf

/-- Memory before `ramfs_init`, with `slotHeap` and an empty log. -/
def loggedRamfs : Ramfs ((ℕ × List ℕ) × List HeapEvent) := { slotRamfs with heap := ((0, []), []) }

theorem ramfsInit_loggedRamfs : (ramfsInit slotHeap.logged loggedRamfs).1 ≠ 0 := by
  have hroom : (nodeBlock slotHeap.logged loggedRamfs).1 ≠ 0 := by decide
  exact mt ramfsInit_eq_zero_iff.mp hroom

theorem nothing_leaked_iff_slots :
    Along (fsStep slotHeap.logged) (HoldsTree (ramfsInit slotHeap.logged loggedRamfs).1)
        (ramfsInit slotHeap.logged loggedRamfs).2
        [.make (ramfsInit slotHeap.logged loggedRamfs).1 (.lit "d") (.mkdir 0o755),
          .unlink (ramfsInit slotHeap.logged loggedRamfs).1 (.lit "d")] ↔
      Meets (fsStep slotHeap.logged) (UnlinksLeaf slotHeap.logged)
        (ramfsInit slotHeap.logged loggedRamfs).2
        [.make (ramfsInit slotHeap.logged loggedRamfs).1 (.lit "d") (.mkdir 0o755),
          .unlink (ramfsInit slotHeap.logged loggedRamfs).1 (.lit "d")] :=
  nothing_leaked_iff slotHeap slotBlocks lawful_slotHeap loggedRamfs rfl ramfsInit_loggedRamfs _
    ⟨Relation.ReflTransGen.refl, fun _ _ => ⟨Relation.ReflTransGen.refl, fun _ _ => trivial⟩⟩

/-- The state after `mkdir` of `d` at `0x40000`, the creation of a file in it at `0x60000`
    and the unlinking of `d`. -/
def leakyRamfs : Ramfs ((ℕ × List ℕ) × List HeapEvent) :=
  [.make 0x20000 (.lit "d") (.mkdir 0o755), .make 0x40000 (.lit "f") (.create vfsFile),
    .unlink 0x20000 (.lit "d")].foldl (fun t op => (fsCall slotHeap.logged t op).2)
      (ramfsInit slotHeap.logged loggedRamfs).2

/-- The file is no longer in the tree, and its node is still held. -/
theorem unlinked_directory_leaks :
    (ramfsInit slotHeap.logged loggedRamfs).1 = 0x20000 ∧
      run (fsStep slotHeap.logged) (ramfsInit slotHeap.logged loggedRamfs).2
        [.make 0x20000 (.lit "d") (.mkdir 0o755), .make 0x40000 (.lit "f") (.create vfsFile),
          .unlink 0x20000 (.lit "d")] = some leakyRamfs ∧
      0x60000 ∈ held leakyRamfs.heap.2 ∧ ¬ InTree leakyRamfs 0x20000 0x60000 ∧
      ¬ HoldsTree 0x20000 leakyRamfs := by
  have hchildren : (leakyRamfs.nodes 0x20000).children = 0 := by decide
  have hsibling : (leakyRamfs.nodes 0x20000).nextSibling = 0 := by decide
  have hheld : 0x60000 ∈ held leakyRamfs.heap.2 := by decide
  have hblocks : blocksOf leakyRamfs 0x20000 = [0x20000] := by decide
  have halone : ∀ a, InTree leakyRamfs 0x20000 a → a = 0x20000 := by
    intro a ha
    obtain rfl | ⟨b, ⟨hb0, hb⟩, -⟩ := Relation.ReflTransGen.cases_head ha
    · rfl
    · rw [hchildren, hsibling, or_self] at hb
      exact absurd hb hb0
  refine ⟨by decide, rfl, hheld, fun h => absurd (halone _ h) (by decide), ?_⟩
  intro hholds
  obtain ⟨a, ha, hmem⟩ := (hholds.held_iff 0x60000).mp hheld
  rw [halone a ha, hblocks] at hmem
  exact absurd hmem (by decide)

end NexusKernel.Fs
