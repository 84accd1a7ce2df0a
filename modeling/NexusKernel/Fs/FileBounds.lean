import NexusKernel.Fs.RamfsBlocks

/-!
# Writes within the buffer of a file

`ramfs_write` computes the end of a write in 32 bits before it compares it with the
capacity, and copies `size` bytes to `data + offset` whatever the sum was. A write whose
end wraps around passes for a short one.

Results:
* `vfsWrite_snd_eq`: but for the bytes, a write leaves what a write of its wrapped end
  at offset 0 leaves; so the invariant of the file system survives every write.
* `writeInBuffer_iff`: which writes stay in the buffer.
* `readsInFile`: a read never leaves the file.
* `file_writes_in_buffer_iff`: the same along every run.
* `wrapped_write_leaves_buffer`: a write of two bytes that does not.
-/

namespace NexusKernel.Fs

variable {τ : Type} {H : Heap τ} {blocks : τ → ℕ → Option ℕ} {s : Ramfs τ} {root node : ℕ}
  {kids : ℕ → List ℕ} {offset size : ℕ} {buffer : ℕ → Byte}

/-- The call is on a node of the tree, and the arguments of a write are 32-bit words. -/
def OnNodes (root : ℕ) (s : Ramfs τ) : FsOp → Prop
  | .make d _ _ => InTree s root d
  | .unlink d _ => InTree s root d
  | .write node offset size _ => InTree s root node ∧ offset < 2 ^ 32 ∧ size < 2 ^ 32

/-- The write gets past the checks of `vfs_write` and `ramfs_write` to the `memcpy` of
    line 55: the node is a file, and there is room for the 32-bit sum or it can be made. -/
def Stores (H : Heap τ) (s : Ramfs τ) (node offset size : ℕ) : Prop :=
  IsFile s node ∧ (reserve H s (s.nodes node).privateData (u32 (offset + size))).1 = true

/-- A write that does not return -1, or that gets to its `memcpy` and returns the size
    `0xFFFFFFFF`, which is -1 too, ends within the capacity of the file, and changes no byte
    outside its block. -/
def WriteInBuffer (H : Heap τ) (s : Ramfs τ) : FsOp → Prop
  | .write node offset size (some buffer) =>
    ∀ (result : ℤ) (t : Ramfs τ), vfsWrite H s node offset size (some buffer) = (result, t) →
      result ≠ -1 ∨ Stores H s node offset size → offset + size ≤ (t.fileOf node).capacity ∧
        ∀ x, t.mem x ≠ s.mem x →
          (t.fileOf node).data ≤ x ∧ x < (t.fileOf node).data + (t.fileOf node).capacity
  | _ => True

/-- A read copies bytes of the file only, if any. -/
def ReadsInFile (s : Ramfs τ) : Prop :=
  ∀ node offset size buffer, ∃ k,
    (vfsRead s node offset size (some buffer)).2 =
      some (copyIn buffer 0 k fun i => s.mem ((s.fileOf node).data + (offset + i))) ∧
    ∀ i < k, offset + i < (s.fileOf node).size

/-- The write stays in the buffer, and so does every read after the call. -/
def InBuffer (H : Heap τ) (s : Ramfs τ) (op : FsOp) : Prop :=
  WriteInBuffer H s op ∧ ReadsInFile (fsCall H s op).2

/-- The end of a write that gets past the checks does not wrap around. -/
def EndFits (H : Heap τ) (s : Ramfs τ) : FsOp → Prop
  | .write node offset size (some _) => Stores H s node offset size → offset + size < 2 ^ 32
  | _ => True

/-! ## Writes that wrap around -/

/-- Nodes, records and heap after a write depend on its wrapped end only. -/
theorem vfsWrite_snd_eq (H : Heap τ) (s : Ramfs τ) (node offset size : ℕ) (buffer : ℕ → Byte) :
    (vfsWrite H s node offset size (some buffer)).2 =
      { (vfsWrite H s node 0 (u32 (offset + size)) (some buffer)).2 with
        mem := (vfsWrite H s node offset size (some buffer)).2.mem } := by
  have hend : u32 (0 + u32 (offset + size)) = u32 (offset + size) := by
    rw [Nat.zero_add, u32_of_lt (u32_lt _)]
  simp only [vfsWrite, ramfsWrite, hend]
  split_ifs
  · rfl
  · rfl
  · simp only [putData_eq]
  · rfl

theorem RamfsInv.congr_mem (h : RamfsInv blocks s root kids) (m : Mem) :
    RamfsInv blocks { s with mem := m } root kids where
  tree := h.tree.congr (fun _ _ => SameShape.refl _) le_rfl
  owns := h.owns
  file_ok := h.file_ok
  node_size := h.node_size

/-- Every write on the tree keeps the invariant. -/
theorem ramfsInv_write (hH : H.Lawful blocks) (h : RamfsInv blocks s root kids)
    (hnode : Reach kids root node) (offset size : ℕ) (buffer : ℕ → Byte) :
    RamfsInv blocks (vfsWrite H s node offset size (some buffer)).2 root kids := by
  have hlt : 0 + u32 (offset + size) < 2 ^ 32 := by
    rw [Nat.zero_add]
    exact u32_lt _
  rw [vfsWrite_snd_eq]
  apply RamfsInv.congr_mem
  exact ramfsInv_of_effect h (effect_write hH h hnode hlt (some buffer))

theorem privateData_vfsWrite (H : Heap τ) (s : Ramfs τ) (node offset size : ℕ)
    (buffer : ℕ → Byte) (a : ℕ) :
    ((vfsWrite H s node offset size (some buffer)).2.nodes a).privateData =
      (s.nodes a).privateData := by
  simp only [vfsWrite, ramfsWrite]
  split_ifs
  · rfl
  · rfl
  · simp only [putData_eq, nodes_reserve]
    by_cases ha : a = node
    · simp [ha]
    · simp [ha]
  · simp only [nodes_reserve]

/-! ## Which writes stay in the buffer -/

theorem not_isFile_iff : ¬ IsFile s node ↔
    (node = 0 ∨ (s.nodes node).ops = none) ∨ (s.nodes node).privateData = 0 := by
  constructor
  · intro hnot
    by_contra hall
    obtain ⟨hguard, hfile⟩ := not_or.mp hall
    obtain ⟨h0, hops⟩ := not_or.mp hguard
    exact hnot ⟨h0, hops, hfile⟩
  · rintro ((h0 | hops) | hfile) h
    · exact h.ne_zero h0
    · exact h.ops_some hops
    · exact h.record hfile

/-- A write that does not get past the checks returns -1. -/
theorem vfsWrite_of_not_stores (h : ¬ Stores H s node offset size) :
    (vfsWrite H s node offset size (some buffer)).1 = -1 := by
  by_cases hfile : IsFile s node
  · have hreserve : ¬ (reserve H s (s.nodes node).privateData (u32 (offset + size))).1 = true :=
      fun hok => h ⟨hfile, hok⟩
    have hguard : ¬ (node = 0 ∨ (s.nodes node).ops = none) :=
      not_or.mpr ⟨hfile.ne_zero, hfile.ops_some⟩
    simp only [vfsWrite, if_neg hguard, ramfsWrite, if_neg hfile.record, if_neg hreserve]
  · obtain hguard | h0 := not_isFile_iff.mp hfile
    · rw [vfsWrite, if_pos hguard]
    · rw [vfsWrite_of_nothing (Or.inr h0)]

theorem stores_of_ne (h : (vfsWrite H s node offset size (some buffer)).1 ≠ -1) :
    Stores H s node offset size := by
  by_contra hnot
  exact h (vfsWrite_of_not_stores hnot)

/-- A write whose end does not wrap around stays in the buffer. -/
theorem writeInBuffer_of_lt (hH : H.Lawful blocks) (h : RamfsInv blocks s root kids)
    (hnode : Reach kids root node) (hlt : offset + size < 2 ^ 32)
    (hstores : Stores H s node offset size) :
    WriteInBuffer H s (.write node offset size (some buffer)) := by
  intro result t hwrite _
  obtain ⟨hfile, hroom⟩ := hstores
  have hok := h.file_ok node hnode hfile.record
  obtain ⟨heap, hres, -, -, hcase⟩ | ⟨f', heap, -, -, hsize, hfits, hok', hcase⟩ :=
    vfsWrite_cases hH hfile hok hlt buffer
  · -- without room the code does not get past its checks
    rw [u32_of_lt hlt, reserve_eq hH hok hlt] at hroom
    rw [show reserved H s.heap (s.files (s.nodes node).privateData) (offset + size) = (none, heap)
      from hres] at hroom
    exact absurd hroom Bool.false_ne_true
  · obtain ⟨-, rfl⟩ := Prod.mk.inj (hcase.symm.trans hwrite)
    rw [fileOf_written]
    refine ⟨hfits, ?_⟩
    intro x hx
    by_contra hout
    simp only at hout
    have hsize' : (s.fileOf node).size ≤ f'.capacity := hsize ▸ hok'.size_le
    exact hx (written_other hsize' hfits (by omega))

theorem writeInBuffer_iff (hH : H.Lawful blocks) (h : RamfsInv blocks s root kids)
    (hnode : Reach kids root node) :
    WriteInBuffer H s (.write node offset size (some buffer)) ↔
      EndFits H s (.write node offset size (some buffer)) := by
  constructor
  · intro hbuffer hstores
    by_contra hwrap
    have hend := (hbuffer (vfsWrite H s node offset size (some buffer)).1
      (vfsWrite H s node offset size (some buffer)).2 rfl (Or.inr hstores)).1
    have hfile := hstores.1.record
    rw [← privateData_vfsWrite H s node offset size buffer] at hfile
    have hcap := ((ramfsInv_write hH h hnode offset size buffer).file_ok node hnode hfile).capacity_le
    unfold ramfsMaxFileSize at hcap
    omega
  · intro hfits result t hwrite hdone
    have hstores : Stores H s node offset size := by
      obtain hne | hstores := hdone
      · have hok : (vfsWrite H s node offset size (some buffer)).1 ≠ -1 := by rwa [hwrite]
        exact stores_of_ne hok
      · exact hstores
    exact writeInBuffer_of_lt hH h hnode (hfits hstores) hstores result t hwrite (Or.inr hstores)

/-- A read never leaves the file. -/
theorem readsInFile (s : Ramfs τ) : ReadsInFile s := by
  intro node offset size buffer
  have hnothing : some buffer =
      some (copyIn buffer 0 0 fun i => s.mem ((s.fileOf node).data + (offset + i))) := by
    rw [copyIn_zero]
  by_cases hguard : node = 0 ∨ (s.nodes node).ops = none
  · exact ⟨0, by rw [vfsRead, if_pos hguard]; exact hnothing, nofun⟩
  · by_cases hfile : (s.nodes node).privateData = 0
    · refine ⟨0, ?_, nofun⟩
      simp only [vfsRead, if_neg hguard, ramfsRead, if_pos hfile]
      exact hnothing
    · obtain ⟨h0, hops⟩ := not_or.mp hguard
      refine ⟨min size ((s.fileOf node).size - offset), ?_, ?_⟩
      · rw [vfsRead_eq ⟨h0, hops, hfile⟩]
        simp only [Nat.add_assoc]
      · intro i hi
        omega

/-! ## Every run -/

theorem ramfsInv_onNodes (hH : H.Lawful blocks) (h : RamfsInv blocks s root kids) {op : FsOp}
    (hop : OnNodes root s op) : ∃ kids', RamfsInv blocks (fsCall H s op).2 root kids' := by
  cases op with
  | make d name op =>
    obtain ⟨kids', he⟩ := effect_fsCall hH h (show OnTree root s (.make d name op) from hop)
    exact ⟨kids', ramfsInv_of_effect h he⟩
  | unlink d name =>
    obtain ⟨kids', he⟩ := effect_fsCall hH h (show OnTree root s (.unlink d name) from hop)
    exact ⟨kids', ramfsInv_of_effect h he⟩
  | write node offset size buffer =>
    refine ⟨kids, ?_⟩
    cases buffer with
    | none =>
      have hnone : vfsWrite H s node offset size none = (-1, s) := vfsWrite_of_nothing (Or.inl rfl)
      rw [fsCall, hnone]
      exact h
    | some buffer =>
      exact ramfsInv_write hH h ((inTree_iff_reach h.tree).mp hop.1) offset size buffer

theorem inBuffer_iff (hH : H.Lawful blocks) (h : RamfsInv blocks s root kids) {op : FsOp}
    (hop : OnNodes root s op) : InBuffer H s op ↔ EndFits H s op := by
  unfold InBuffer
  rw [and_iff_left (readsInFile _)]
  cases op with
  | make d name op => exact Iff.rfl
  | unlink d name => exact Iff.rfl
  | write node offset size buffer =>
    cases buffer with
    | none => exact Iff.rfl
    | some buffer => exact writeInBuffer_iff hH h ((inTree_iff_reach h.tree).mp hop.1)

/-- For every heap that keeps its law and every sequence of calls on nodes of the tree,
    with any 32-bit offsets and sizes: every write that stores bytes stores them below the
    capacity of its file only, and every read copies bytes below the size only, iff the end of
    no write that gets past the checks of the code wraps around. -/
theorem file_writes_in_buffer_iff (H : Heap τ) (blocks : τ → ℕ → Option ℕ) (hH : H.Lawful blocks)
    (s : Ramfs τ) (hroot : (ramfsInit H s).1 ≠ 0) (ops : List FsOp)
    (hops : Meets (fsStep H) (OnNodes (ramfsInit H s).1) (ramfsInit H s).2 ops) (t : Ramfs τ)
    (hrun : run (fsStep H) (ramfsInit H s).2 ops = some t) :
    Meets (fsStep H) (InBuffer H) (ramfsInit H s).2 ops ↔
      Meets (fsStep H) (EndFits H) (ramfsInit H s).2 ops := by
  refine meets_congr_on (fun u => ∃ kids, RamfsInv blocks u (ramfsInit H s).1 kids) ?_ ?_
    ⟨_, ramfsInv_ramfsInit hH hroot⟩ hops hrun
  · intro u op v ⟨kids, h⟩ hop _
    exact inBuffer_iff hH h hop
  · intro u op v ⟨kids, h⟩ hop _ hstep
    obtain rfl := Option.some_inj.mp hstep
    exact ramfsInv_onNodes hH h hop

/-- A file of one byte, and a write that does not fit. -/
theorem file_writes_in_buffer_iff_slots :
    Meets (fsStep slotHeap) (InBuffer slotHeap) (ramfsInit slotHeap slotRamfs).2
      [.make (ramfsInit slotHeap slotRamfs).1 (.lit "a.txt") (.create vfsFile),
        .write 0x40000 0 1 (some fun _ => 65), .write 0x40000 70000 1 (some fun _ => 66)] := by
  have hops : Meets (fsStep slotHeap) (OnNodes (ramfsInit slotHeap slotRamfs).1)
      (ramfsInit slotHeap slotRamfs).2
      [.make (ramfsInit slotHeap slotRamfs).1 (.lit "a.txt") (.create vfsFile),
        .write 0x40000 0 1 (some fun _ => 65), .write 0x40000 70000 1 (some fun _ => 66)] := by
    refine ⟨Relation.ReflTransGen.refl, ?_⟩
    intro t ht
    obtain rfl := Option.some_inj.mp ht
    refine ⟨⟨inTree_slotFile, by norm_num, by norm_num⟩, ?_⟩
    intro u hu
    obtain rfl := Option.some_inj.mp hu
    refine ⟨⟨Relation.ReflTransGen.single ⟨by decide, Or.inl ?_⟩, by norm_num, by norm_num⟩,
      fun _ _ => trivial⟩
    decide
  exact (file_writes_in_buffer_iff slotHeap slotBlocks lawful_slotHeap slotRamfs
    ramfsInit_slotRamfs _ hops _ rfl).mpr ⟨trivial, fun _ _ => ⟨fun _ => by norm_num,
      fun _ _ => ⟨fun _ => by norm_num, fun _ _ => trivial⟩⟩⟩

/-- In a file with room for two bytes, a write of two bytes at offset `0xFFFFFFFF` ends at
    1 by the 32-bit sum, and is carried out: the first byte goes in front of the block, the
    second to its start. -/
theorem wrapped_write_leaves_buffer :
    ∃ t, run (fsStep slotHeap) (ramfsInit slotHeap slotRamfs).2
        [.make (ramfsInit slotHeap slotRamfs).1 (.lit "a.txt") (.create vfsFile),
          .write 0x40000 0 1 (some fun _ => 65)] = some t ∧
      (t.fileOf 0x40000).capacity = 2 ∧
      (vfsWrite slotHeap t 0x40000 0xFFFFFFFF 2 (some fun _ => 66)).1 = 2 ∧
      ((vfsWrite slotHeap t 0x40000 0xFFFFFFFF 2 (some fun _ => 66)).2.fileOf 0x40000).capacity = 2 ∧
      (vfsWrite slotHeap t 0x40000 0xFFFFFFFF 2 (some fun _ => 66)).2.mem
        ((t.fileOf 0x40000).data - 1) = 66 ∧
      (vfsWrite slotHeap t 0x40000 0xFFFFFFFF 2 (some fun _ => 66)).2.mem
        (t.fileOf 0x40000).data = 66 ∧
      ¬ InBuffer slotHeap t (.write 0x40000 0xFFFFFFFF 2 (some fun _ => 66)) := by
  refine ⟨_, rfl, by decide, by decide, by decide, by decide, by decide, ?_⟩
  intro hbuffer
  have hend := (hbuffer.1 _ _ rfl (Or.inl (by decide))).1
  exact absurd hend (by decide)

end NexusKernel.Fs
