import NexusKernel.Fs.RamfsBlocks

/-!
# Leftover bytes of the heap

A new block has whatever bytes were left in it. Two runs of the same calls, from memories
that differ in bytes that no block holds, keep the same nodes and records: only bytes of
memory can differ (`fsCall_withMem`). What a read returns is the same as long as the
bytes of the files are (`SameBytes`).

`vfs_write` beyond the end of a file makes the bytes in between part of the file without
writing them, and a read then returns what was left there.

Results:
* `sameBytes_step`: calls without such a gap keep the bytes of all files the same.
* `reads_independent_of_leftovers`: along a run without gaps every read returns the same.
* `gap_reveals_leftovers`: a read that does not.
-/

namespace NexusKernel.Fs

variable {τ : Type} {H : Heap τ} {blocks : τ → ℕ → Option ℕ} {s : Ramfs τ} {root : ℕ}
  {kids kids' : ℕ → List ℕ} {m : Mem}

/-- The same file system with other bytes in memory. -/
def Ramfs.withMem (s : Ramfs τ) (m : Mem) : Ramfs τ := { s with mem := m }

/-! ## Calls that read no byte -/

theorem finddirLoop_withMem (name : CString) (fuel child : ℕ) :
    finddirLoop (s.withMem m) name fuel child = finddirLoop s name fuel child := by
  induction fuel generalizing child with
  | zero => rfl
  | succ fuel ih =>
    rw [finddirLoop, finddirLoop, ih]
    rfl

theorem unlinkLoop_withMem (name : CString) (fuel prev child : ℕ) :
    unlinkLoop (s.withMem m) name fuel prev child = unlinkLoop s name fuel prev child := by
  induction fuel generalizing prev child with
  | zero => rfl
  | succ fuel ih =>
    rw [unlinkLoop, unlinkLoop, ih]
    rfl

theorem ramfsFinddir_withMem (d : ℕ) (name : CString) :
    ramfsFinddir (s.withMem m) d name = ramfsFinddir s d name := by
  rw [ramfsFinddir, finddirLoop_withMem]
  rfl

theorem ramfsCreateNode_withMem (name : CString) (type : ℕ) :
    ramfsCreateNode H (s.withMem m) name type =
      ((ramfsCreateNode H s name type).1, (ramfsCreateNode H s name type).2.withMem m) := by
  by_cases hroom : (nodeBlock H s).1 = 0
  · rw [ramfsCreateNode_of_no_room hroom]
    exact ramfsCreateNode_of_no_room hroom
  · rw [ramfsCreateNode_of_room hroom]
    exact ramfsCreateNode_of_room hroom

@[simp] theorem withMem_modifies (d : ℕ) : (s.withMem m).modifies d = s.modifies d := rfl

@[simp] theorem withMem_nodes : (s.withMem m).nodes = s.nodes := rfl

theorem vfsMake_withMem (d : ℕ) (name : CString) (op : MakeOp) :
    vfsMake H (s.withMem m) d name op =
      ((vfsMake H s d name op).1, (vfsMake H s d name op).2.withMem m) := by
  cases op with
  | create type =>
    simp only [vfsMake, vfsCreate, ramfsDoCreate, ramfsFinddir_withMem, ramfsCreateNode_withMem,
      withMem_modifies, withMem_nodes]
    split_ifs <;> rfl
  | mkdir mode =>
    simp only [vfsMake, vfsMkdir, ramfsDoMkdir, ramfsFinddir_withMem, ramfsCreateNode_withMem,
      withMem_modifies, withMem_nodes]
    split_ifs <;> rfl

theorem unlinkChild_withMem (d prev c : ℕ) :
    unlinkChild (s.withMem m) d prev c = (unlinkChild s d prev c).withMem m := by
  unfold unlinkChild
  split_ifs <;> rfl

theorem freeChild_withMem (c : ℕ) :
    freeChild H (s.withMem m) c = (freeChild H s c).withMem m := by
  rw [freeChild_eq, freeChild_eq]
  rfl

theorem vfsUnlink_withMem (d : ℕ) (name : CString) :
    vfsUnlink H (s.withMem m) d name =
      ((vfsUnlink H s d name).1, (vfsUnlink H s d name).2.withMem m) := by
  have hcreated : (s.withMem m).created = s.created := rfl
  simp only [vfsUnlink, ramfsDoUnlink, unlinkLoop_withMem, unlinkChild_withMem, freeChild_withMem,
    withMem_modifies, withMem_nodes, hcreated]
  split_ifs <;> rfl

/-! ## The bytes of the files -/

/-- Memory `m` has the same bytes in all files of the tree. -/
def SameBytes (s : Ramfs τ) (root : ℕ) (kids : ℕ → List ℕ) (m : Mem) : Prop :=
  ∀ a, Reach kids root a → (s.nodes a).privateData ≠ 0 → ∀ i < (s.fileOf a).size,
    m ((s.fileOf a).data + i) = s.mem ((s.fileOf a).data + i)

/-- A write that succeeds begins within the file or at its end. -/
def NoGap (H : Heap τ) (s : Ramfs τ) : FsOp → Prop
  | .write node offset size buffer =>
    (vfsWrite H s node offset size buffer).1 ≠ -1 → offset ≤ (s.fileOf node).size
  | _ => True

/-- The data of another file are not in the block a write goes to. -/
theorem outside_block (hH : H.Lawful blocks) (h : RamfsInv blocks s root kids) {a b : ℕ}
    (ha : Reach kids root a) (hb : Reach kids root b) (hab : a ≠ b)
    (hafile : (s.nodes a).privateData ≠ 0) (hbfile : (s.nodes b).privateData ≠ 0) {i : ℕ}
    (hi : i < (s.fileOf a).size) :
    (s.fileOf a).data + i < (s.fileOf b).data ∨
      (s.fileOf b).data + (s.fileOf b).capacity ≤ (s.fileOf a).data + i := by
  have hokA := h.file_ok a ha hafile
  have hokB := h.file_ok b hb hbfile
  have hsize := hokA.size_le
  by_cases hb0 : (s.fileOf b).data = 0
  · have hcap := hokB.no_data hb0
    omega
  · have ha0 : (s.fileOf a).data ≠ 0 := by
      intro ha0
      have hcap := hokA.no_data ha0
      omega
    obtain ⟨k, hk, hblockA⟩ := hokA.room ha0
    obtain ⟨l, hl, hblockB⟩ := hokB.room hb0
    have hne : (s.fileOf a).data ≠ (s.fileOf b).data := by
      intro heq
      refine hab (h.owns.disjoint a b ha hb (s.fileOf a).data ?_ ?_)
      · rw [blocksOf_of_file hafile, dataBlocks, if_neg ha0]
        simp
      · rw [blocksOf_of_file hbfile, dataBlocks, if_neg hb0, heq]
        simp
    have hdisjoint := hH.disjoint s.heap _ _ k l hblockA hblockB hne
    omega

/-- A write without a gap writes the same bytes into both memories and leaves the others
    as they were. -/
theorem sameBytes_written (hH : H.Lawful blocks) (h : RamfsInv blocks s root kids)
    (hsame : SameBytes s root kids m) {node offset size : ℕ} {buffer : ℕ → Byte} {f' : RamfsFile}
    {heap : τ} (h' : RamfsInv blocks (written s node offset size buffer f' heap) root kids)
    (hnode : Reach kids root node) (hfile : (s.nodes node).privateData ≠ 0)
    (hsize : f'.size = (s.fileOf node).size) (hfits : offset + size ≤ f'.capacity)
    (hcap : (s.fileOf node).size ≤ f'.capacity) (hle : offset ≤ (s.fileOf node).size) :
    SameBytes (written s node offset size buffer f' heap) root kids
      (written (s.withMem m) node offset size buffer f' heap).mem := by
  intro a ha hafile i hi
  by_cases han : a = node
  · subst han
    rw [fileOf_written] at hi ⊢
    have hlt : i < max f'.size (offset + size) := hi
    show (written (s.withMem m) a offset size buffer f' heap).mem (f'.data + i) =
      (written s a offset size buffer f' heap).mem (f'.data + i)
    by_cases hin : offset ≤ i ∧ i < offset + size
    · have hat : f'.data + i = f'.data + offset + (i - offset) := by omega
      rw [hat, written_new (by omega), written_new (by omega)]
    · have hold : i < (s.fileOf a).size := by omega
      rw [written_old (s := s.withMem m) hold (by omega), written_old hold (by omega)]
      exact hsame a ha hfile i hold
  · have hdata : (s.nodes a).privateData ≠ 0 := by rwa [written_nodes_other han] at hafile
    have hother : (written s node offset size buffer f' heap).fileOf a = s.fileOf a :=
      h.fileOf_written_other hnode ha han hdata
    have hout := outside_block hH h' ha hnode han hafile
      (by rw [written_nodes_self]; exact hfile) hi
    rw [fileOf_written, hother] at hout
    rw [hother] at hi ⊢
    rw [written_other (s := s.withMem m) hcap hfits hout, written_other hcap hfits hout]
    exact hsame a ha hdata i hi

/-- A call other than a write: the same nodes and records, and the bytes stay. -/
theorem sameBytes_of_effect (h : RamfsInv blocks s root kids) (hsame : SameBytes s root kids m)
    {op : FsOp} {r : ℤ × Ramfs τ} (he : Effect H blocks root s kids op r kids')
    (hwrite : ∀ node offset size buffer, op ≠ .write node offset size buffer) :
    SameBytes r.2 root kids' m := by
  cases he with
  | fail => exact hsame
  | @made d name op x file heap hd hmod habsent hx hx0 hnew =>
    have hins := inserted_insertKid hd hx
    have hxd : x ≠ d := fun hxd => hx (hxd ▸ hd)
    intro a hreach hafile i hi
    obtain ha | rfl := (reach_insert hins).mp hreach
    · have hax : a ≠ x := fun hax => hx (hax ▸ ha)
      have hdata : (s.nodes a).privateData ≠ 0 := by rwa [addNode_nodes_old hax] at hafile
      have hother : (s.addNode d x (madeNode s d name file op) heap).fileOf a = s.fileOf a :=
        h.fileOf_addNode_other ha hax (by rwa [privateData_madeNode]) hdata
      rw [hother] at hi ⊢
      exact hsame a ha hdata i hi
    · rw [fileOf_addNode_new hxd (by rwa [addNode_nodes_new hxd] at hafile)] at hi
      exact absurd hi (Nat.not_lt_zero i)
  | @unlinked d name c pre post heap hd _ hc hkids _ =>
    intro a ha hafile i hi
    have hreach := (removed_removeKid hd (mem_of_entry hc).1).reach ha
    have hdata : (s.nodes a).privateData ≠ 0 := by
      rwa [← privateData_unlinkChild s d (pre.getLast?.getD 0) c a]
    have hother : ({ unlinkChild s d (pre.getLast?.getD 0) c with heap := heap } :
        Ramfs τ).fileOf a = s.fileOf a := fileOf_unlinkChild s d _ c a
    rw [hother] at hi ⊢
    refine (hsame a hreach hdata i hi).trans ?_
    show s.mem _ = (unlinkChild s d (pre.getLast?.getD 0) c).mem _
    unfold unlinkChild
    split_ifs <;> rfl
  | wrote => exact absurd rfl (hwrite _ _ _ _)

theorem sameBytes_write (hH : H.Lawful blocks) (h : RamfsInv blocks s root kids)
    (hsame : SameBytes s root kids m) {node offset size : ℕ} {buffer : Option (ℕ → Byte)}
    (hnode : Reach kids root node) (hlt : offset + size < 2 ^ 32)
    (hgap : NoGap H s (.write node offset size buffer)) :
    ∃ m', RamfsInv blocks (vfsWrite H s node offset size buffer).2 root kids ∧
      SameBytes (vfsWrite H s node offset size buffer).2 root kids m' ∧
      (vfsWrite H (s.withMem m) node offset size buffer).2 =
        (vfsWrite H s node offset size buffer).2.withMem m' := by
  by_cases hnothing : buffer = none ∨ (s.nodes node).privateData = 0
  · rw [vfsWrite_of_nothing hnothing, vfsWrite_of_nothing (s := s.withMem m) hnothing]
    exact ⟨m, h, hsame, rfl⟩
  · obtain ⟨hbuffer, hfile⟩ := not_or.mp hnothing
    obtain ⟨buffer, rfl⟩ := Option.ne_none_iff_exists'.mp hbuffer
    have hok := h.file_ok node hnode hfile
    have hisFile := h.isFile hnode hfile
    have hisFile' : IsFile (s.withMem m) node :=
      ⟨hisFile.ne_zero, hisFile.ops_some, hisFile.record⟩
    have hwrite' := vfsWrite_eq (s := s.withMem m) buffer hH hisFile' hok hlt
    have h' := ramfsInv_of_effect h (effect_write hH h hnode hlt (some buffer))
    obtain ⟨heap, hres, -, -, hwrite⟩ | ⟨f', heap, hres, -, hsize, hfits, hok', hwrite⟩ :=
      vfsWrite_cases hH hisFile hok hlt buffer
    · rw [show reserved H (s.withMem m).heap ((s.withMem m).fileOf node) (offset + size) =
        (none, heap) from hres] at hwrite'
      rw [hwrite] at h' ⊢
      rw [hwrite']
      exact ⟨m, h', hsame, rfl⟩
    · rw [show reserved H (s.withMem m).heap ((s.withMem m).fileOf node) (offset + size) =
        (some f', heap) from hres] at hwrite'
      have hcap := hok'.capacity_le
      have hle : offset ≤ (s.fileOf node).size := by
        refine hgap ?_
        rw [hwrite]
        show ((size : ℕ) : ℤ) ≠ -1
        omega
      rw [toSsize_of_le (by omega)] at hwrite'
      rw [hwrite] at h' ⊢
      rw [hwrite']
      exact ⟨_, h', sameBytes_written hH h hsame h' hnode hfile hsize hfits
        (hsize ▸ hok'.size_le) hle, rfl⟩

/-- One call: both memories get to the same nodes and records, and the bytes of the files
    stay the same. -/
theorem sameBytes_step (hH : H.Lawful blocks) (h : RamfsInv blocks s root kids)
    (hsame : SameBytes s root kids m) {op : FsOp} (hop : OnTree root s op) (hgap : NoGap H s op) :
    ∃ kids' m', RamfsInv blocks (fsCall H s op).2 root kids' ∧
      SameBytes (fsCall H s op).2 root kids' m' ∧
      (fsCall H (s.withMem m) op).2 = (fsCall H s op).2.withMem m' := by
  cases op with
  | make d name op =>
    obtain ⟨kids', he⟩ := effect_fsCall hH h hop
    exact ⟨kids', m, ramfsInv_of_effect h he,
      sameBytes_of_effect h hsame he (fun _ _ _ _ h => nomatch h),
      congrArg Prod.snd (vfsMake_withMem d name op)⟩
  | unlink d name =>
    obtain ⟨kids', he⟩ := effect_fsCall hH h hop
    exact ⟨kids', m, ramfsInv_of_effect h he,
      sameBytes_of_effect h hsame he (fun _ _ _ _ h => nomatch h),
      congrArg Prod.snd (vfsUnlink_withMem d name)⟩
  | write node offset size buffer =>
    exact ⟨kids, sameBytes_write hH h hsame ((inTree_iff_reach h.tree).mp hop.1) hop.2 hgap⟩

/-! ## Reads -/

theorem copyIn_congr {n : ℕ} {src src' : ℕ → Byte} (h : ∀ i < n, src i = src' i) (buffer : Mem) :
    copyIn buffer 0 n src = copyIn buffer 0 n src' := by
  funext x
  unfold copyIn
  split_ifs with hx
  · exact h _ (by omega)
  · rfl

/-- A read returns the same from both memories. -/
theorem vfsRead_withMem (h : RamfsInv blocks s root kids) (hsame : SameBytes s root kids m)
    {node : ℕ} (hnode : Reach kids root node) (offset size : ℕ) (buffer : Option (ℕ → Byte)) :
    vfsRead (s.withMem m) node offset size buffer = vfsRead s node offset size buffer := by
  cases buffer with
  | none => rfl
  | some buffer =>
    by_cases hfile : (s.nodes node).privateData = 0
    · have hfail : ∀ t : Ramfs τ, (t.nodes node).privateData = 0 →
          vfsRead t node offset size (some buffer) = (-1, some buffer) := by
        intro t ht
        simp [vfsRead, ramfsRead, ht]
      rw [hfail s hfile, hfail (s.withMem m) hfile]
    · have hisFile := h.isFile hnode hfile
      have hisFile' : IsFile (s.withMem m) node :=
        ⟨hisFile.ne_zero, hisFile.ops_some, hisFile.record⟩
      rw [vfsRead_eq hisFile, vfsRead_eq hisFile']
      refine Prod.ext rfl (congrArg some (copyIn_congr ?_ buffer))
      intro i hi
      have hbyte := hsame node hnode hfile (offset + i)
        (by change i < min size ((s.fileOf node).size - offset) at hi; omega)
      rw [← Nat.add_assoc] at hbyte
      exact hbyte

/-- A call that can change the file system, or a read. -/
inductive IoOp where
  | call (op : FsOp)
  | read (node offset size : ℕ) (buffer : Option (ℕ → Byte))

def ioStep (H : Heap τ) (s : Ramfs τ) : IoOp → Option (Ramfs τ)
  | .call op => fsStep H s op
  | .read _ _ _ _ => some s

/-- What the reads return, in their order: the count and the buffer. -/
def reads (H : Heap τ) : Ramfs τ → List IoOp → List (ℤ × Option (ℕ → Byte))
  | _, [] => []
  | s, .call op :: ops => reads H (fsCall H s op).2 ops
  | s, .read node offset size buffer :: ops => vfsRead s node offset size buffer :: reads H s ops

/-- The call is on a node of the tree. -/
def OnTreeIo (root : ℕ) (s : Ramfs τ) : IoOp → Prop
  | .call op => OnTree root s op
  | .read node _ _ _ => InTree s root node

/-- If it writes, the call leaves no gap. -/
def NoGapIo (H : Heap τ) (s : Ramfs τ) : IoOp → Prop
  | .call op => NoGap H s op
  | .read _ _ _ _ => True

theorem reads_withMem (hH : H.Lawful blocks) (h : RamfsInv blocks s root kids)
    (hsame : SameBytes s root kids m) {ops : List IoOp}
    (hops : Meets (ioStep H) (fun t op => OnTreeIo root t op ∧ NoGapIo H t op) s ops) :
    reads H (s.withMem m) ops = reads H s ops := by
  induction ops generalizing s kids m with
  | nil => rfl
  | cons op ops ih =>
    obtain ⟨⟨hop, hgap⟩, hrest⟩ := hops
    cases op with
    | call op =>
      obtain ⟨kids', m', h', hsame', hmem⟩ := sameBytes_step hH h hsame hop hgap
      rw [reads, reads, hmem]
      exact ih h' hsame' (hrest _ rfl)
    | read node offset size buffer =>
      have hnode := (inTree_iff_reach h.tree).mp hop
      rw [reads, reads, vfsRead_withMem h hsame hnode, ih h hsame (hrest s rfl)]

/-- From every state that calls on the tree lead to, along a run whose writes leave no
    gap, the reads return the same whatever bytes are left outside the live blocks. -/
theorem reads_independent_of_leftovers (H : Heap τ) (blocks : τ → ℕ → Option ℕ)
    (hH : H.Lawful blocks) (s : Ramfs τ) (hroot : (ramfsInit H s).1 ≠ 0) (calls : List FsOp)
    (hcalls : Meets (fsStep H) (OnTree (ramfsInit H s).1) (ramfsInit H s).2 calls) (fs : Ramfs τ)
    (hrun : run (fsStep H) (ramfsInit H s).2 calls = some fs) (m : Mem)
    (hleft : ∀ p n, blocks fs.heap p = some n → ∀ i < n, m (p + i) = fs.mem (p + i))
    (ops : List IoOp)
    (hops : Meets (ioStep H) (fun t op => OnTreeIo (ramfsInit H s).1 t op ∧ NoGapIo H t op) fs ops) :
    reads H (fs.withMem m) ops = reads H fs ops := by
  obtain ⟨kids, h⟩ := ramfsInv_run hH hroot hcalls hrun
  refine reads_withMem hH h ?_ hops
  intro a ha hfile i hi
  have hok := h.file_ok a ha hfile
  have hsize := hok.size_le
  have hdata : (fs.fileOf a).data ≠ 0 := by
    intro hdata
    have hcap := hok.no_data hdata
    omega
  obtain ⟨n, hn, hlive⟩ := hok.room hdata
  exact hleft _ n hlive i (by omega)

/-- Ones where no block of `slotFile` is. -/
def leftovers : Mem := fun x => if 0x80000 ≤ x then 1 else 0

theorem leftovers_outside {p n : ℕ} (hp : slotBlocks slotFile.heap p = some n) {i : ℕ} (hi : i < n) :
    leftovers (p + i) = slotFile.mem (p + i) := by
  have hheap : slotFile.heap = (3, []) := by decide
  rw [hheap, slotBlocks] at hp
  split_ifs at hp with hlive
  obtain rfl := Option.some_inj.mp hp
  exact if_neg (by omega)

theorem reads_independent_of_leftovers_slots :
    reads slotHeap (slotFile.withMem leftovers)
        [.call (.write 0x40000 0 2 (some fun _ => 7)), .read 0x40000 0 10 (some fun _ => 0)] =
      reads slotHeap slotFile
        [.call (.write 0x40000 0 2 (some fun _ => 7)), .read 0x40000 0 10 (some fun _ => 0)] := by
  refine reads_independent_of_leftovers slotHeap slotBlocks lawful_slotHeap slotRamfs
    ramfsInit_slotRamfs [.make (ramfsInit slotHeap slotRamfs).1 (.lit "a.txt") (.create vfsFile)]
    ⟨Relation.ReflTransGen.refl, fun _ _ => trivial⟩ slotFile rfl leftovers
    (fun p n hp i hi => leftovers_outside hp hi) _ ?_
  refine ⟨⟨⟨inTree_slotFile, by decide⟩, fun _ => Nat.zero_le _⟩, ?_⟩
  intro t ht
  obtain rfl := Option.some_inj.mp ht
  refine ⟨⟨?_, trivial⟩, fun _ _ => trivial⟩
  have hchild : ((fsCall slotHeap slotFile (.write 0x40000 0 2 (some fun _ => 7))).2.nodes
      (ramfsInit slotHeap slotRamfs).1).children = 0x40000 := by decide
  exact Relation.ReflTransGen.single ⟨by decide, Or.inl hchild.symm⟩

/-- A byte written behind the end of an empty file: the byte before it is then read from
    what was left in the block. -/
theorem gap_reveals_leftovers :
    (∀ p n, slotBlocks slotFile.heap p = some n → ∀ i < n,
      leftovers (p + i) = slotFile.mem (p + i)) ∧
    (reads slotHeap slotFile
      [.call (.write 0x40000 1 1 (some fun _ => 7)), .read 0x40000 0 1 (some fun _ => 9)]).map
        (fun r => (r.1, r.2.map fun out => out 0)) = [(1, some 0)] ∧
    (reads slotHeap (slotFile.withMem leftovers)
      [.call (.write 0x40000 1 1 (some fun _ => 7)), .read 0x40000 0 1 (some fun _ => 9)]).map
        (fun r => (r.1, r.2.map fun out => out 0)) = [(1, some 1)] :=
  ⟨fun p n hp i hi => leftovers_outside hp hi, by decide, by decide⟩

end NexusKernel.Fs
