import NexusKernel.Common.Chain
import NexusKernel.Common.Run
import NexusKernel.Fs.Vfs

/-!
# The data of a file

A file record holds a block of `capacity` bytes, of which the first `size` are the
file. A write past the capacity moves the file to a larger block; `reserved` is that
decision, which depends on the record and the heap and not on any byte.

Results:
* `vfsWrite_eq`: a write in closed form; `vfsWrite_cases`: its two outcomes.
* `reserved_spec`: when it fails, and what it does to the record and the heap.
* `written_new`, `written_old`, `written_other`: the bytes after a write.
* `vfsRead_eq`: a read in closed form.
-/

namespace NexusKernel.Fs

variable {τ : Type} {H : Heap τ} {blocks : τ → ℕ → Option ℕ}

/-! ## Records -/

/-- A record and its block: the file fits the capacity, which is within the limit, and
    the block is live and has room for it. -/
structure FileOk (live : ℕ → Option ℕ) (f : RamfsFile) : Prop where
  size_le : f.size ≤ f.capacity
  capacity_le : f.capacity ≤ ramfsMaxFileSize
  no_data : f.data = 0 → f.capacity = 0
  room : f.data ≠ 0 → ∃ m, f.capacity ≤ m ∧ live f.data = some m

theorem fileOk_empty (live : ℕ → Option ℕ) : FileOk live ⟨0, 0, 0⟩ :=
  ⟨le_rfl, Nat.zero_le _, fun _ => rfl, fun h => absurd rfl h⟩

theorem FileOk.mono {live live' : ℕ → Option ℕ} {f : RamfsFile} (h : FileOk live f)
    (hlive : f.data ≠ 0 → ∀ m, live f.data = some m → live' f.data = some m) : FileOk live' f := by
  refine ⟨h.size_le, h.capacity_le, h.no_data, ?_⟩
  intro hdata
  obtain ⟨m, hm, hblock⟩ := h.room hdata
  exact ⟨m, hm, hlive hdata m hblock⟩

/-- The record and the heap once there is room for `n` bytes, or `none` if there is not. -/
def reserved (H : Heap τ) (heap : τ) (f : RamfsFile) (n : ℕ) : Option RamfsFile × τ :=
  if n ≤ f.capacity then (some f, heap)
  else if ramfsMaxFileSize < n then (none, heap)
  else if (H.kmalloc heap (grownCapacity n)).1 = 0 then
    (none, (H.kmalloc heap (grownCapacity n)).2)
  else (some ⟨(H.kmalloc heap (grownCapacity n)).1, f.size, grownCapacity n⟩,
    if f.data ≠ 0 then H.kfree (H.kmalloc heap (grownCapacity n)).2 f.data
    else (H.kmalloc heap (grownCapacity n)).2)

/-- The file does not fit and cannot grow. -/
def NoRoom (H : Heap τ) (heap : τ) (f : RamfsFile) (n : ℕ) : Prop :=
  f.capacity < n ∧ (ramfsMaxFileSize < n ∨ (H.kmalloc heap (grownCapacity n)).1 = 0)

theorem grownCapacity_lt {n : ℕ} (hn : n < 2 ^ 32) (hmax : ramfsMaxFileSize < n) :
    grownCapacity n < n := by
  unfold grownCapacity u32
  unfold ramfsMaxFileSize at *
  split_ifs <;> omega

theorem le_grownCapacity {n : ℕ} (hmax : n ≤ ramfsMaxFileSize) :
    n ≤ grownCapacity n ∧ grownCapacity n ≤ ramfsMaxFileSize := by
  unfold grownCapacity u32
  unfold ramfsMaxFileSize at *
  split_ifs <;> omega

/-- The heap after a file has moved from its old block to a new one. -/
theorem blocks_move (hH : H.Lawful blocks) {heap : τ} {f : RamfsFile}
    (hf : FileOk (blocks heap) f) {n : ℕ} (h0 : (H.kmalloc heap n).1 ≠ 0) :
    ∃ m, n ≤ m ∧ blocks (if f.data ≠ 0 then H.kfree (H.kmalloc heap n).2 f.data
        else (H.kmalloc heap n).2) = Function.update
      (if f.data = 0 then blocks heap else Function.update (blocks heap) f.data none)
      (H.kmalloc heap n).1 (some m) := by
  obtain ⟨m, hm, hblocks⟩ := hH.kmalloc_blocks heap n h0
  refine ⟨m, hm, ?_⟩
  by_cases hdata : f.data = 0
  · rw [if_neg (not_not.mpr hdata), if_pos hdata, hblocks]
  · obtain ⟨k, -, hk⟩ := hf.room hdata
    have hlive : (blocks (H.kmalloc heap n).2 f.data).isSome := by
      rw [hH.kmalloc_live heap n hk]
      rfl
    rw [if_pos hdata, if_neg hdata, hH.kfree_blocks _ _ hlive, hblocks,
      Function.update_comm (hH.kmalloc_ne h0 hk)]

/-- What becomes of the record and the heap. -/
theorem reserved_spec (hH : H.Lawful blocks) {heap : τ} {f : RamfsFile}
    (hf : FileOk (blocks heap) f) (n : ℕ) :
    match reserved H heap f n with
    | (none, heap') => NoRoom H heap f n ∧ blocks heap' = blocks heap
    | (some f', heap') => ¬ NoRoom H heap f n ∧ n ≤ f'.capacity ∧ f'.size = f.size ∧
        FileOk (blocks heap') f' := by
  unfold reserved NoRoom
  by_cases hfits : n ≤ f.capacity
  · rw [if_pos hfits]
    exact ⟨by omega, hfits, rfl, hf⟩
  · rw [if_neg hfits]
    by_cases hmax : ramfsMaxFileSize < n
    · rw [if_pos hmax]
      exact ⟨⟨by omega, Or.inl hmax⟩, rfl⟩
    · rw [if_neg hmax]
      by_cases h0 : (H.kmalloc heap (grownCapacity n)).1 = 0
      · rw [if_pos h0]
        exact ⟨⟨by omega, Or.inr h0⟩, hH.kmalloc_fail _ _ h0⟩
      · rw [if_neg h0]
        obtain ⟨hle, hcap⟩ := le_grownCapacity (not_lt.mp hmax)
        obtain ⟨m, hm, hblocks⟩ := blocks_move hH hf h0
        have hlive : blocks (if f.data ≠ 0 then
            H.kfree (H.kmalloc heap (grownCapacity n)).2 f.data
            else (H.kmalloc heap (grownCapacity n)).2) (H.kmalloc heap (grownCapacity n)).1 =
            some m := by
          rw [hblocks, Function.update_self]
        have hsize := hf.size_le
        exact ⟨by tauto, hle, rfl, ⟨by show f.size ≤ grownCapacity n; omega, hcap,
          fun h => absurd h h0, fun _ => ⟨m, hm, hlive⟩⟩⟩

/-- The block of the data, if there is one. -/
def dataBlocks (f : RamfsFile) : List ℕ := if f.data = 0 then [] else [f.data]

/-- A file that moves exchanges its block for the new one. -/
theorem reserved_exchange (hH : H.Lawful blocks) {t heap : τ} {f : RamfsFile} {old l : List ℕ}
    (hx : H.Exchange blocks t heap old (l ++ dataBlocks f)) (n : ℕ) :
    H.Exchange blocks t (reserved H heap f n).2 old
      (l ++ dataBlocks ((reserved H heap f n).1.getD f)) := by
  unfold reserved
  by_cases hfits : n ≤ f.capacity
  · rw [if_pos hfits]
    exact hx
  · rw [if_neg hfits]
    by_cases hmax : ramfsMaxFileSize < n
    · rw [if_pos hmax]
      exact hx
    · rw [if_neg hmax]
      by_cases h0 : (H.kmalloc heap (grownCapacity n)).1 = 0
      · rw [if_pos h0]
        exact hx.kmalloc_fail hH h0
      · have hnew := hx.kmalloc hH h0
        simp only [if_neg h0, Option.getD_some, dataBlocks] at hnew ⊢
        by_cases hdata : f.data = 0
        · simp only [hdata, if_true, List.append_nil, ne_eq, not_true_eq_false, if_false] at hnew ⊢
          exact hnew
        · simp only [hdata, if_false, ne_eq, not_false_eq_true, if_true, List.append_assoc,
            List.singleton_append] at hnew ⊢
          have hmem : f.data ∈ l ++ [f.data, (H.kmalloc heap (grownCapacity n)).1] := by simp
          have hfree := hnew.kfree hH hmem
          rwa [erase_middle hnew.nodup] at hfree

/-! ## A write in closed form -/

section

variable {s : Ramfs τ} {node offset size : ℕ} {buffer : ℕ → Byte}

theorem copyIn_zero (m : Mem) (dest : ℕ) (src : ℕ → Byte) : copyIn m dest 0 src = m := by
  funext x
  exact if_neg (by omega)

theorem copyIn_self (m : Mem) (dest n : ℕ) : copyIn m dest n (fun i => m (dest + i)) = m := by
  funext x
  unfold copyIn
  split_ifs with hx
  · show m (dest + (x - dest)) = m x
    rw [Nat.add_sub_cancel' hx.1]
  · rfl

/-- The memory once the file is where `f'` says. -/
def movedMem (s : Ramfs τ) (f f' : RamfsFile) : Mem :=
  copyIn s.mem f'.data f.size fun i => s.mem (f.data + i)

/-- The old block and the new one do not overlap. -/
theorem disjoint_new (hH : H.Lawful blocks) {heap : τ} {f : RamfsFile}
    (hf : FileOk (blocks heap) f) (hdata : f.data ≠ 0) {n : ℕ} (h0 : (H.kmalloc heap n).1 ≠ 0)
    (hn : f.size ≤ n) : (H.kmalloc heap n).1 + f.size ≤ f.data ∨
      f.data + f.size ≤ (H.kmalloc heap n).1 := by
  obtain ⟨k, hk, hlive⟩ := hf.room hdata
  obtain ⟨m, hm, hblocks⟩ := hH.kmalloc_blocks heap n h0
  have hsize := hf.size_le
  have hnew : blocks (H.kmalloc heap n).2 (H.kmalloc heap n).1 = some m := by
    rw [hblocks, Function.update_self]
  have h := hH.disjoint _ _ _ _ _ hnew (hH.kmalloc_live heap n hlive) (hH.kmalloc_ne h0 hlive)
  omega

/-- Moving a file, in closed form. -/
theorem moveData_eq {file p cap : ℕ} (hnone : (s.files file).data = 0 → (s.files file).size = 0)
    (hapart : (s.files file).data ≠ 0 → p + (s.files file).size ≤ (s.files file).data ∨
      (s.files file).data + (s.files file).size ≤ p) :
    moveData H s file p cap = { s with
      files := Function.update s.files file ⟨p, (s.files file).size, cap⟩,
      mem := movedMem s (s.files file) ⟨p, (s.files file).size, cap⟩,
      heap := if (s.files file).data ≠ 0 then H.kfree s.heap (s.files file).data
        else s.heap } := by
  simp only [moveData, movedMem]
  by_cases hcopy : (s.files file).data ≠ 0 ∧ 0 < (s.files file).size
  · simp only [if_pos hcopy, if_pos hcopy.1, memcpy_eq ((hapart hcopy.1).imp_left (Nat.le_of_add_right_le ·))]
    rfl
  · -- nothing to copy: the file is empty
    have hzero : (s.files file).size = 0 := by
      by_contra hne
      exact hcopy ⟨fun hdata => hne (hnone hdata), by omega⟩
    have hmem : copyIn s.mem p (s.files file).size (fun i => s.mem ((s.files file).data + i)) =
        s.mem := by rw [hzero, copyIn_zero]
    simp only [if_neg hcopy, hmem]
    by_cases hdata : (s.files file).data ≠ 0
    · simp only [if_pos hdata]
      rfl
    · simp only [if_neg hdata]
      rfl

theorem nodes_reserve (H : Heap τ) (s : Ramfs τ) (file newSize : ℕ) :
    (reserve H s file newSize).2.nodes = s.nodes := by
  simp only [reserve, moveData, Ramfs.setFile, Ramfs.free]
  split_ifs <;> rfl

/-- Making room, in closed form. -/
theorem reserve_eq (hH : H.Lawful blocks) {file n : ℕ} (hf : FileOk (blocks s.heap) (s.files file))
    (hn : n < 2 ^ 32) :
    reserve H s file n = match reserved H s.heap (s.files file) n with
      | (none, heap) => (false, { s with heap := heap })
      | (some f', heap) => (true, { s with
          files := Function.update s.files file f', mem := movedMem s (s.files file) f',
          heap := heap }) := by
  unfold reserve reserved
  by_cases hfits : n ≤ (s.files file).capacity
  · rw [if_neg (not_lt.mpr hfits), if_pos hfits]
    simp only [movedMem, copyIn_self, Function.update_eq_self]
  · rw [if_pos (not_le.mp hfits), if_neg hfits]
    by_cases hmax : ramfsMaxFileSize < n
    · rw [if_pos (grownCapacity_lt hn hmax), if_pos hmax]
    · obtain ⟨hle, -⟩ := le_grownCapacity (not_lt.mp hmax)
      rw [if_neg (not_lt.mpr hle), if_neg hmax]
      by_cases h0 : (H.kmalloc s.heap (grownCapacity n)).1 = 0
      · rw [if_pos h0]
        exact if_pos h0
      · rw [if_neg h0]
        refine (if_neg h0).trans (Prod.ext rfl ?_)
        have hsize := hf.size_le
        refine moveData_eq ?_ ?_
        · intro hdata
          have hcap := hf.no_data hdata
          show (s.files file).size = 0
          omega
        · intro hdata
          exact disjoint_new hH hf hdata h0 (by omega)

/-- Storing the bytes, in closed form. -/
theorem putData_eq {file newSize : ℕ} :
    putData s node file offset size newSize buffer = { s with
      nodes := Function.update s.nodes node
        { s.nodes node with size := max (s.files file).size newSize },
      files := Function.update s.files file
        { s.files file with size := max (s.files file).size newSize },
      mem := storeData s.mem (s.files file).data offset size buffer } := by
  simp only [putData, Ramfs.setNode, Ramfs.setFile]
  by_cases hlt : (s.files file).size < newSize
  · simp only [if_pos hlt, Function.update_self, max_eq_right hlt.le]
  · simp only [if_neg hlt, max_eq_left (not_lt.mp hlt), Function.update_eq_self]

/-- The state after a write that found room: the record is `f'` but for its size. -/
def written (s : Ramfs τ) (node offset size : ℕ) (buffer : ℕ → Byte) (f' : RamfsFile) (heap : τ) :
    Ramfs τ where
  nodes := Function.update s.nodes node
    { s.nodes node with size := max f'.size (offset + size) }
  files := Function.update s.files (s.nodes node).privateData
    { f' with size := max f'.size (offset + size) }
  mem := copyIn (movedMem s (s.fileOf node) f') (f'.data + offset) size buffer
  created := s.created
  heap := heap

/-- A node with operations and a file record. -/
structure IsFile (s : Ramfs τ) (node : ℕ) : Prop where
  ne_zero : node ≠ 0
  ops_some : (s.nodes node).ops ≠ none
  record : (s.nodes node).privateData ≠ 0

/-- A write in closed form: `reserved` decides, and the bytes follow. -/
theorem vfsWrite_eq (buffer : ℕ → Byte) (hH : H.Lawful blocks) (hnode : IsFile s node)
    (hf : FileOk (blocks s.heap) (s.fileOf node)) (hlt : offset + size < 2 ^ 32) :
    vfsWrite H s node offset size (some buffer) =
      match reserved H s.heap (s.fileOf node) (offset + size) with
      | (none, heap) => (-1, { s with heap := heap })
      | (some f', heap) => (toSsize size, written s node offset size buffer f' heap) := by
  have hguard : ¬ (node = 0 ∨ (s.nodes node).ops = none) :=
    not_or.mpr ⟨hnode.ne_zero, hnode.ops_some⟩
  have hfile : FileOk (blocks s.heap) (s.files (s.nodes node).privateData) := hf
  simp only [vfsWrite, if_neg hguard, ramfsWrite, if_neg hnode.record, u32_of_lt hlt,
    reserve_eq hH hfile hlt, Ramfs.fileOf]
  rcases reserved H s.heap (s.files (s.nodes node).privateData) (offset + size) with ⟨_ | f', heap⟩
  · rfl
  · simp only [if_true, putData_eq, storeData, if_pos hlt, Function.update_self,
      Function.update_idem]
    rfl

theorem toSsize_of_le {n : ℕ} (h : n ≤ ramfsMaxFileSize) : toSsize n = n :=
  if_pos (by unfold ramfsMaxFileSize at h; omega)

/-- The two outcomes of a write. -/
theorem vfsWrite_cases (hH : H.Lawful blocks) (hnode : IsFile s node)
    (hf : FileOk (blocks s.heap) (s.fileOf node)) (hlt : offset + size < 2 ^ 32)
    (buffer : ℕ → Byte) :
    (∃ heap, reserved H s.heap (s.fileOf node) (offset + size) = (none, heap) ∧
      NoRoom H s.heap (s.fileOf node) (offset + size) ∧ blocks heap = blocks s.heap ∧
      vfsWrite H s node offset size (some buffer) = (-1, { s with heap := heap })) ∨
    ∃ f' heap, reserved H s.heap (s.fileOf node) (offset + size) = (some f', heap) ∧
      ¬ NoRoom H s.heap (s.fileOf node) (offset + size) ∧ f'.size = (s.fileOf node).size ∧
      offset + size ≤ f'.capacity ∧ FileOk (blocks heap) f' ∧
      vfsWrite H s node offset size (some buffer) =
        ((size : ℤ), written s node offset size buffer f' heap) := by
  have hwrite := vfsWrite_eq buffer hH hnode hf hlt
  have hspec := reserved_spec hH hf (offset + size)
  rcases hres : reserved H s.heap (s.fileOf node) (offset + size) with ⟨_ | f', heap⟩
  · rw [hres] at hwrite hspec
    exact Or.inl ⟨heap, rfl, hspec.1, hspec.2, hwrite⟩
  · rw [hres] at hwrite hspec
    obtain ⟨hroom, hfits, hsize, hok⟩ := hspec
    have hcap := hok.capacity_le
    refine Or.inr ⟨f', heap, rfl, hroom, hsize, hfits, hok, ?_⟩
    rw [hwrite, toSsize_of_le (by omega)]

end

/-! ## The bytes after a write -/

section

variable {s : Ramfs τ} {node offset size : ℕ} {buffer : ℕ → Byte} {f' : RamfsFile} {heap : τ}

theorem written_nodes_self : (written s node offset size buffer f' heap).nodes node =
    { s.nodes node with size := max f'.size (offset + size) } := Function.update_self _ _ _

theorem written_nodes_other {a : ℕ} (ha : a ≠ node) :
    (written s node offset size buffer f' heap).nodes a = s.nodes a := Function.update_of_ne ha _ _

theorem fileOf_written : (written s node offset size buffer f' heap).fileOf node =
    { f' with size := max f'.size (offset + size) } := by
  simp only [written, Ramfs.fileOf, Function.update_self]

/-- The bytes written are those of the buffer. -/
theorem written_new {i : ℕ} (hi : i < size) :
    (written s node offset size buffer f' heap).mem (f'.data + offset + i) = buffer i := by
  refine (if_pos (by omega)).trans ?_
  rw [Nat.add_sub_cancel_left]

/-- The other bytes of the file are kept, wherever it is now. -/
theorem written_old {i : ℕ} (hi : i < (s.fileOf node).size)
    (hout : i < offset ∨ offset + size ≤ i) :
    (written s node offset size buffer f' heap).mem (f'.data + i) =
      s.mem ((s.fileOf node).data + i) := by
  refine (if_neg (by omega)).trans ((if_pos (by omega)).trans ?_)
  rw [Nat.add_sub_cancel_left]

/-- No byte outside the file's block changes. -/
theorem written_other (hsize : (s.fileOf node).size ≤ f'.capacity)
    (hfits : offset + size ≤ f'.capacity) {x : ℕ}
    (hx : x < f'.data ∨ f'.data + f'.capacity ≤ x) :
    (written s node offset size buffer f' heap).mem x = s.mem x :=
  (if_neg (by omega)).trans (if_neg (by omega))

theorem FileOk.written {live : ℕ → Option ℕ} (hf : FileOk live f')
    (hfits : offset + size ≤ f'.capacity) :
    FileOk live { f' with size := max f'.size (offset + size) } :=
  ⟨max_le hf.size_le hfits, hf.capacity_le, hf.no_data, hf.room⟩

/-- A read in closed form. -/
theorem vfsRead_eq (hnode : IsFile s node) (offset size : ℕ) (buffer : ℕ → Byte) :
    vfsRead s node offset size (some buffer) =
      (toSsize (min size ((s.fileOf node).size - offset)),
        some (copyIn buffer 0 (min size ((s.fileOf node).size - offset)) fun i =>
          s.mem ((s.fileOf node).data + offset + i))) := by
  have hguard : ¬ (node = 0 ∨ (s.nodes node).ops = none) :=
    not_or.mpr ⟨hnode.ne_zero, hnode.ops_some⟩
  simp only [vfsRead, if_neg hguard, ramfsRead, if_neg hnode.record]
  by_cases hend : (s.fileOf node).size ≤ offset
  · rw [if_pos hend, Nat.sub_eq_zero_of_le hend, Nat.min_zero, copyIn_zero]
    rfl
  · have hmin : (if (s.fileOf node).size - offset < size then (s.fileOf node).size - offset
        else size) = min size ((s.fileOf node).size - offset) := by
      split_ifs <;> omega
    rw [if_neg hend, hmin]

end

end NexusKernel.Fs
