import NexusKernel.Fs.RamfsBlocks

/-!
# A file as an array of bytes

`OpenFile` keeps, beside the file system, the byte last written to each position of one
file. Along every sequence of reads and writes, the file holds these bytes, its size is
the end of the furthest write, and a write fails exactly for lack of room.

Results:
* `OpenFileInv.refines`: what the invariant says of every read and write.
* `openFileInv_step`: the calls keep it.
* `ramfs_file_refines_bytes`: a file is a growable array of bytes.
-/

namespace NexusKernel.Fs

variable {τ : Type} {H : Heap τ} {blocks : τ → ℕ → Option ℕ}

/-! ## Calls on one file -/

/-- A file and, for each position, the byte last written to it, if any was. -/
structure OpenFile (τ : Type) where
  fs : Ramfs τ
  latest : ℕ → Option Byte

inductive FileOp where
  | write (offset size : ℕ) (buffer : ℕ → Byte)
  | read (offset size : ℕ) (buffer : ℕ → Byte)

/-- The positions `offset, …, offset + size - 1` take the bytes of the buffer. -/
def storeLatest (latest : ℕ → Option Byte) (offset size : ℕ) (buffer : ℕ → Byte) :
    ℕ → Option Byte :=
  fun i => if offset ≤ i ∧ i < offset + size then some (buffer (i - offset)) else latest i

/-- One call on the file at `node`, with a buffer that is not `NULL`. -/
def fileStep (H : Heap τ) (node : ℕ) (s : OpenFile τ) : FileOp → Option (OpenFile τ)
  | .write offset size buffer =>
    if offset + size < 2 ^ 32 then
      let (result, fs) := vfsWrite H s.fs node offset size (some buffer)
      if result = -1 then some { s with fs := fs }
      else some ⟨fs, storeLatest s.latest offset size buffer⟩
    else none
  | .read _ _ _ => some s

/-- What the file at `node` shows of itself, and what a call on it does. -/
structure RefinesBytes (H : Heap τ) (node : ℕ) (s : OpenFile τ) : Prop where
  size_le : (s.fs.fileOf node).size ≤ (s.fs.fileOf node).capacity
  capacity_le : (s.fs.fileOf node).capacity ≤ ramfsMaxFileSize
  node_size : (s.fs.nodes node).size = (s.fs.fileOf node).size
  write_fails_iff : ∀ offset size buffer, offset + size < 2 ^ 32 →
    ((vfsWrite H s.fs node offset size (some buffer)).1 = -1 ↔
      NoRoom H s.fs.heap (s.fs.fileOf node) (offset + size))
  write_fails : ∀ offset size buffer, offset + size < 2 ^ 32 → ∀ t : Ramfs τ,
    vfsWrite H s.fs node offset size (some buffer) = (-1, t) → t = { s.fs with heap := t.heap }
  write : ∀ offset size buffer, offset + size < 2 ^ 32 → ∀ (result : ℤ) (t : Ramfs τ),
    vfsWrite H s.fs node offset size (some buffer) = (result, t) → result ≠ -1 →
      result = size ∧
      (t.fileOf node).size = max (s.fs.fileOf node).size (offset + size) ∧
      (∀ i < size, t.mem ((t.fileOf node).data + offset + i) = buffer i) ∧
      ∀ i < (s.fs.fileOf node).size, i < offset ∨ offset + size ≤ i →
        t.mem ((t.fileOf node).data + i) = s.fs.mem ((s.fs.fileOf node).data + i)
  read : ∀ offset size buffer, ∃ out,
    vfsRead s.fs node offset size (some buffer) =
      (((min size ((s.fs.fileOf node).size - offset) : ℕ) : ℤ), some out) ∧
      ∀ i < min size ((s.fs.fileOf node).size - offset), ∀ b,
        s.latest (offset + i) = some b → out i = b
  in_file : ∀ i b, s.latest i = some b → i < (s.fs.fileOf node).size

/-- The record is in order, and the file holds the byte last written to each position. -/
structure OpenFileInv (blocks : τ → ℕ → Option ℕ) (node : ℕ) (s : OpenFile τ) : Prop where
  isFile : IsFile s.fs node
  file_ok : FileOk (blocks s.fs.heap) (s.fs.fileOf node)
  node_size : (s.fs.nodes node).size = (s.fs.fileOf node).size
  bytes : ∀ i b, s.latest i = some b →
    i < (s.fs.fileOf node).size ∧ s.fs.mem ((s.fs.fileOf node).data + i) = b

section

variable {node : ℕ} {s : OpenFile τ}

theorem OpenFileInv.refines (hH : H.Lawful blocks) (hs : OpenFileInv blocks node s) :
    RefinesBytes H node s where
  size_le := hs.file_ok.size_le
  capacity_le := hs.file_ok.capacity_le
  node_size := hs.node_size
  write_fails_iff := by
    intro offset size buffer hlt
    obtain ⟨heap, -, hroom, -, hwrite⟩ | ⟨f', heap, -, hroom, -, -, -, hwrite⟩ :=
      vfsWrite_cases hH hs.isFile hs.file_ok hlt buffer
    · rw [hwrite]
      exact iff_of_true rfl hroom
    · rw [hwrite]
      exact iff_of_false (by omega) hroom
  write_fails := by
    intro offset size buffer hlt t ht
    obtain ⟨heap, -, -, -, hwrite⟩ | ⟨f', heap, -, -, -, -, -, hwrite⟩ :=
      vfsWrite_cases hH hs.isFile hs.file_ok hlt buffer
    · obtain rfl := (Prod.mk.inj (hwrite.symm.trans ht)).2
      rfl
    · have hret := (Prod.mk.inj (hwrite.symm.trans ht)).1
      omega
  write := by
    intro offset size buffer hlt result t ht hne
    obtain ⟨heap, -, -, -, hwrite⟩ | ⟨f', heap, -, -, hsize, -, -, hwrite⟩ :=
      vfsWrite_cases hH hs.isFile hs.file_ok hlt buffer
    · exact absurd (Prod.mk.inj (hwrite.symm.trans ht)).1.symm hne
    · obtain ⟨rfl, rfl⟩ := Prod.mk.inj (hwrite.symm.trans ht)
      rw [fileOf_written]
      refine ⟨rfl, by rw [hsize], fun i hi => written_new hi, fun i hi hout => written_old hi hout⟩
  read := by
    intro offset size buffer
    have hsize := hs.file_ok.size_le
    have hcap := hs.file_ok.capacity_le
    refine ⟨_, by rw [vfsRead_eq hs.isFile, toSsize_of_le (by omega)], ?_⟩
    intro i hi b hb
    obtain ⟨-, hbyte⟩ := hs.bytes _ b hb
    refine (if_pos (by omega)).trans ?_
    show s.fs.mem ((s.fs.fileOf node).data + offset + i) = b
    rw [Nat.add_assoc, hbyte]
  in_file := fun i b hb => (hs.bytes i b hb).1

/-- After a write the file holds the bytes written, and the older ones elsewhere. -/
theorem OpenFileInv.bytes_written (hs : OpenFileInv blocks node s) {offset size : ℕ}
    {buffer : ℕ → Byte} {f' : RamfsFile} {heap : τ} (hsize : f'.size = (s.fs.fileOf node).size)
    {i : ℕ} {b : Byte} (hb : storeLatest s.latest offset size buffer i = some b) :
    i < max f'.size (offset + size) ∧
      (written s.fs node offset size buffer f' heap).mem (f'.data + i) = b := by
  unfold storeLatest at hb
  split_ifs at hb with hin
  · obtain rfl := Option.some_inj.mp hb
    have hat : f'.data + i = f'.data + offset + (i - offset) := by omega
    rw [hat, written_new (by omega)]
    exact ⟨lt_max_of_lt_right hin.2, rfl⟩
  · obtain ⟨hi, hbyte⟩ := hs.bytes i b hb
    rw [written_old hi (by omega), hsize]
    exact ⟨lt_max_of_lt_left hi, hbyte⟩

/-- One call keeps the invariant. -/
theorem openFileInv_step (hH : H.Lawful blocks) {op : FileOp} {t : OpenFile τ}
    (hs : OpenFileInv blocks node s) (hstep : fileStep H node s op = some t) :
    OpenFileInv blocks node t := by
  cases op with
  | read offset size buffer =>
    obtain rfl := Option.some_inj.mp hstep
    exact hs
  | write offset size buffer =>
    simp only [fileStep] at hstep
    split_ifs at hstep with hlt hret
    · -- a write that fails
      obtain ⟨heap, -, -, hblocks, hwrite⟩ | ⟨f', heap, -, -, -, -, -, hwrite⟩ :=
        vfsWrite_cases hH hs.isFile hs.file_ok hlt buffer
      · obtain rfl := Option.some_inj.mp hstep
        rw [hwrite]
        exact ⟨⟨hs.isFile.ne_zero, hs.isFile.ops_some, hs.isFile.record⟩,
          hs.file_ok.mono (fun _ m hm => by rw [hblocks]; exact hm), hs.node_size, hs.bytes⟩
      · rw [hwrite] at hret
        omega
    · -- a write that succeeds
      obtain ⟨heap, -, -, -, hwrite⟩ | ⟨f', heap, -, -, hsize, hfits, hok, hwrite⟩ :=
        vfsWrite_cases hH hs.isFile hs.file_ok hlt buffer
      · rw [hwrite] at hret
        exact absurd rfl hret
      · obtain rfl := Option.some_inj.mp hstep
        rw [hwrite]
        refine ⟨⟨hs.isFile.ne_zero, ?_, ?_⟩, ?_, ?_, ?_⟩
        · rw [written_nodes_self]
          exact hs.isFile.ops_some
        · rw [written_nodes_self]
          exact hs.isFile.record
        · rw [fileOf_written]
          exact hok.written hfits
        · rw [fileOf_written, written_nodes_self]
        · intro i b hb
          rw [fileOf_written]
          exact hs.bytes_written hsize hb

end

/-- A file of the tree about which nothing is known yet. -/
theorem openFileInv_of_reach {fs : Ramfs τ} {root node : ℕ} {kids : ℕ → List ℕ}
    (h : RamfsInv blocks fs root kids) (hnode : Reach kids root node)
    (hfile : (fs.nodes node).privateData ≠ 0) : OpenFileInv blocks node ⟨fs, fun _ => none⟩ where
  isFile := h.isFile hnode hfile
  file_ok := h.file_ok node hnode hfile
  node_size := h.node_size node hnode hfile
  bytes := fun _ _ hb => nomatch hb

/-- In every state that calls on the tree lead to, every file with a record is a growable
    array of bytes, for every heap that keeps its law and every sequence of writes and
    reads. -/
theorem ramfs_file_refines_bytes (H : Heap τ) (blocks : τ → ℕ → Option ℕ) (hH : H.Lawful blocks)
    (s : Ramfs τ) (hroot : (ramfsInit H s).1 ≠ 0) (calls : List FsOp)
    (hcalls : Meets (fsStep H) (OnTree (ramfsInit H s).1) (ramfsInit H s).2 calls) (fs : Ramfs τ)
    (hrun : run (fsStep H) (ramfsInit H s).2 calls = some fs) (node : ℕ)
    (hnode : InTree fs (ramfsInit H s).1 node) (hfile : (fs.nodes node).privateData ≠ 0)
    (ops : List FileOp) :
    Along (fileStep H node) (RefinesBytes H node) ⟨fs, fun _ => none⟩ ops := by
  obtain ⟨kids, h⟩ := ramfsInv_run hH hroot hcalls hrun
  have hs := openFileInv_of_reach h ((inTree_iff_reach h.tree).mp hnode) hfile
  exact along_of_invariant (OpenFileInv blocks node)
    (fun _ _ _ hs hstep => openFileInv_step hH hs hstep) (fun _ hs => hs.refines hH) hs ops

theorem ramfs_file_refines_bytes_slots :
    Along (fileStep slotHeap 0x40000) (RefinesBytes slotHeap 0x40000) ⟨slotFile, fun _ => none⟩
      [.write 3 2 (fun _ => 7), .read 0 10 (fun _ => 0), .write 70000 1 (fun _ => 7)] := by
  exact ramfs_file_refines_bytes slotHeap slotBlocks lawful_slotHeap slotRamfs
    ramfsInit_slotRamfs [.make (ramfsInit slotHeap slotRamfs).1 (.lit "a.txt") (.create vfsFile)]
    ⟨Relation.ReflTransGen.refl, fun _ _ => trivial⟩ slotFile rfl 0x40000 inTree_slotFile
    (by decide) _

end NexusKernel.Fs
