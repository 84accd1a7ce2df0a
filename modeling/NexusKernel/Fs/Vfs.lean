import NexusKernel.Fs.Ramfs

/-!
# The virtual file system (`kernel/fs/vfs.c`)

The functions of a node go through its operation table. All tables are those of
`ramfs.c`, so a call reaches the function of `ramfs.c` or, for a table without it,
fails.

Results:
* `resolveLoop_eq`: the loop of `vfs_resolve_path` looks up the components of the
  path one after the other.
* `vfsResolvePath_eq`: so does the function, for every path that fits its buffer.
-/

namespace NexusKernel.Fs

variable {τ : Type}

/-! ## Calls on a node -/

/-- `node->ops` has `create`, `unlink` and `mkdir`. -/
def Ramfs.modifies (s : Ramfs τ) (node : ℕ) : Bool := (s.nodes node).ops.any VfsOps.modifies

/-- `vfs_read` (lines 27–32). -/
def vfsRead (s : Ramfs τ) (node offset size : ℕ) (buffer : Option (ℕ → Byte)) :
    ℤ × Option (ℕ → Byte) :=
  if node = 0 ∨ (s.nodes node).ops = none then (-1, buffer)
  else ramfsRead s node offset size buffer

/-- `vfs_write` (lines 34–39). -/
def vfsWrite (H : Heap τ) (s : Ramfs τ) (node offset size : ℕ) (buffer : Option (ℕ → Byte)) :
    ℤ × Ramfs τ :=
  if node = 0 ∨ (s.nodes node).ops = none then (-1, s) else ramfsWrite H s node offset size buffer

/-- `vfs_open` (lines 41–46). -/
def vfsOpen (s : Ramfs τ) (node flags : ℕ) : ℤ :=
  if node = 0 ∨ (s.nodes node).ops = none then -1 else ramfsOpen node flags

/-- `vfs_readdir` (lines 55–60). -/
def vfsReaddir (s : Ramfs τ) (node index : ℕ) : ℕ :=
  if node = 0 ∨ (s.nodes node).ops = none then 0 else ramfsReaddir s node index

/-- `vfs_finddir` (lines 62–67). -/
def vfsFinddir (s : Ramfs τ) (node : ℕ) (name : CString) : ℕ :=
  if node = 0 ∨ (s.nodes node).ops = none then 0 else ramfsFinddir s node name

/-- `vfs_create` (lines 69–74). -/
def vfsCreate (H : Heap τ) (s : Ramfs τ) (parent : ℕ) (name : CString) (type : ℕ) : ℤ × Ramfs τ :=
  if parent = 0 ∨ s.modifies parent = false then (-1, s) else ramfsDoCreate H s parent name type

/-- `vfs_unlink` (lines 76–81). -/
def vfsUnlink (H : Heap τ) (s : Ramfs τ) (parent : ℕ) (name : CString) : ℤ × Ramfs τ :=
  if parent = 0 ∨ s.modifies parent = false then (-1, s) else ramfsDoUnlink H s parent name

/-- `vfs_mkdir` (lines 83–88). -/
def vfsMkdir (H : Heap τ) (s : Ramfs τ) (parent : ℕ) (name : CString) (mode : ℕ) : ℤ × Ramfs τ :=
  if parent = 0 ∨ s.modifies parent = false then (-1, s) else ramfsDoMkdir H s parent name mode

/-! ## Mounts -/

/-- `VFS_PATH_MAX` (`vfs.h`, line 15). -/
def vfsPathMax : ℕ := 1024

/-- `MAX_MOUNTS` (line 7). -/
def maxMounts : ℕ := 16

/-- `sizeof(vfs_mount_t)`. -/
def sizeofVfsMount : ℕ := 1064

/-- `vfs_mount_t` (`vfs.h`, lines 59–64). -/
structure VfsMount where
  path : ℕ → Byte
  fsType : ℕ → Byte
  root : ℕ
  next : ℕ

/-- The static variables of `vfs.c`, the mount records and the file system. -/
structure Vfs (τ : Type) where
  fs : Ramfs τ
  vfsRoot : ℕ
  mountList : ℕ
  mountCount : ℕ
  mounts : ℕ → VfsMount

/-- `vfs_init` (lines 13–20). -/
def vfsInit (v : Vfs τ) : Vfs τ := { v with vfsRoot := 0, mountList := 0, mountCount := 0 }

/-- `vfs_get_root` (lines 22–25). -/
def vfsGetRoot (v : Vfs τ) : ℕ := v.vfsRoot

/-- The new record at `mount` becomes the first of `mount_list` (lines 104–109). The
    block is not cleared before. -/
def pushMount (v : Vfs τ) (mount : ℕ) (path fsType : CString) (root : ℕ) : Vfs τ :=
  { v with
    mounts := Function.update v.mounts mount
      { path := strncpy (v.mounts mount).path path.bytes (vfsPathMax - 1),
        fsType := strncpy (v.mounts mount).fsType fsType.bytes 31,
        root := root, next := v.mountList },
    mountList := mount,
    mountCount := u32 (v.mountCount + 1) }

/-- `vfs_mount` (lines 90–116). -/
def vfsMount (H : Heap τ) (v : Vfs τ) (path fsType : Option CString) (root : ℕ) : ℤ × Vfs τ :=
  match path, fsType with
  | some path, some fsType =>
    if root = 0 then (-1, v)
    else if maxMounts ≤ v.mountCount then (-1, v)
    else
      let (mount, heap) := H.kmalloc v.fs.heap sizeofVfsMount
      let v := { v with fs := { v.fs with heap := heap } }
      if mount = 0 then (-1, v)
      else
        let v := pushMount v mount path fsType root
        (0, if strcmp path (.lit "/") = 0 then { v with vfsRoot := root } else v)
  | _, _ => (-1, v)

/-! ## Paths -/

/-- The character `/`. -/
def slash : Byte := 0x2F

theorem strlen_after {c : Byte} {s t : CString} (h : s.after c = some t) : t.strlen < s.strlen := by
  unfold CString.strlen
  rw [CString.chars_of_after h, List.length_append, List.length_cons]
  omega

/-- The loop of `vfs_resolve_path` (lines 134–149). -/
def resolveLoop (s : Ramfs τ) (token : CString) (current : ℕ) : ℕ :=
  if token.chars = [] ∨ current = 0 then current
  else
    let current :=
      if 0 < (token.upTo slash).strlen then vfsFinddir s current (token.upTo slash) else current
    match _h : token.after slash with
    | none => current
    | some rest => if current = 0 then 0 else resolveLoop s rest current
termination_by token.strlen
decreasing_by exact strlen_after _h

/-- The string without the `/` it starts with (lines 131–132). -/
def skipSlash (token : CString) : CString :=
  if token.chars.head? = some slash then
    ⟨token.chars.tail, fun h => token.zero_not_mem (List.mem_of_mem_tail h)⟩
  else token

/-- `vfs_resolve_path` (lines 118–152); `pathbuf` is what the buffer held before. A path
    of `VFS_PATH_MAX - 1` characters or more leaves it without a terminator of its own;
    the model then reads no further than its end. -/
def vfsResolvePath (v : Vfs τ) (pathbuf : ℕ → Byte) (path : Option CString) : ℕ :=
  match path with
  | none => 0
  | some path =>
    if v.vfsRoot = 0 then 0
    else if strcmp path (.lit "/") = 0 then v.vfsRoot
    else
      let pathbuf := strncpy pathbuf path.bytes (vfsPathMax - 1)
      resolveLoop v.fs (skipSlash (stringAt pathbuf vfsPathMax)) v.vfsRoot

/-- The components of a path: what stands between slashes, if anything does. -/
def components (path : CString) : List CString :=
  ((path.chars.splitOn slash).filter (· ≠ [])).map .ofList

/-- From `node`, the components are looked up one after the other. -/
def walk (s : Ramfs τ) (node : ℕ) (names : List CString) : ℕ := names.foldl (vfsFinddir s) node

theorem walk_zero (s : Ramfs τ) (names : List CString) : walk s 0 names = 0 := by
  induction names with
  | nil => rfl
  | cons name names ih => exact ih

theorem walk_append (s : Ramfs τ) (node : ℕ) (l m : List CString) :
    walk s node (l ++ m) = walk s (walk s node l) m := List.foldl_append

/-- The first component, if it is not empty, and the others. -/
theorem components_eq (path : CString) :
    components path = (if 0 < (path.upTo slash).strlen then [path.upTo slash] else []) ++
      (path.after slash).elim [] components := by
  have hupTo : ∀ x ∈ (path.upTo slash).chars, (x == slash) = false := by
    intro x hx
    rw [beq_eq_false_iff_ne]
    rintro rfl
    exact CString.not_mem_upTo _ _ hx
  have hfirst : ∀ l : List (List Byte),
      (((path.upTo slash).chars :: l).filter (· ≠ [])).map CString.ofList =
        (if 0 < (path.upTo slash).strlen then [path.upTo slash] else []) ++
          (l.filter (· ≠ [])).map CString.ofList := by
    intro l
    by_cases hempty : (path.upTo slash).chars = []
    · simp [hempty, CString.strlen]
    · have hpos : 0 < (path.upTo slash).strlen := List.length_pos_iff.mpr hempty
      rw [List.filter_cons_of_pos (by simpa using hempty), List.map_cons, CString.ofList_chars,
        if_pos hpos]
      rfl
  rcases hafter : path.after slash with _ | rest
  · have hsingle : path.chars.splitOn slash = [(path.upTo slash).chars] := by
      rw [CString.upTo_of_after hafter] at hupTo ⊢
      exact List.splitOnP_eq_singleton hupTo
    rw [components, hsingle, hfirst]
    rfl
  · have hsplit : path.chars.splitOn slash =
        (path.upTo slash).chars :: rest.chars.splitOn slash := by
      rw [CString.chars_of_after hafter]
      exact List.splitOnP_append_cons_of_forall_mem hupTo _ (beq_self_eq_true _) _
    rw [components, hsplit, hfirst]
    rfl

theorem components_of_chars_nil {path : CString} (h : path.chars = []) : components path = [] := by
  unfold components
  rw [h]
  rfl

/-- Looking up the first component, if it is not empty. -/
theorem walk_first (s : Ramfs τ) (token : CString) (current : ℕ) :
    walk s current (if 0 < (token.upTo slash).strlen then [token.upTo slash] else []) =
      if 0 < (token.upTo slash).strlen then vfsFinddir s current (token.upTo slash)
      else current := by
  split_ifs <;> rfl

/-- The loop looks up the components one after the other. -/
theorem resolveLoop_eq (s : Ramfs τ) (token : CString) (current : ℕ) :
    resolveLoop s token current = walk s current (components token) := by
  fun_induction resolveLoop s token current with
  | case1 token current hend =>
    obtain hnil | rfl := hend
    · rw [components_of_chars_nil hnil]
      rfl
    · exact (walk_zero s _).symm
  | case2 token current hgo next hafter =>
    rw [components_eq, hafter, walk_append, walk_first]
    rfl
  | case3 token current hgo next rest hafter hnull =>
    rw [components_eq, hafter, walk_append, walk_first]
    exact (walk_zero s _).symm.trans (congrArg (walk s · _) hnull.symm)
  | case4 token current hgo next rest hafter hnext ih =>
    rw [ih, components_eq token, hafter, walk_append, walk_first]
    rfl

theorem components_skipSlash (path : CString) : components (skipSlash path) = components path := by
  unfold skipSlash
  split_ifs with hhead
  · have hsplit : path.chars.splitOn slash = [] :: path.chars.tail.splitOn slash := by
      conv_lhs => rw [← List.cons_head?_tail (Option.mem_def.mpr hhead)]
      have hself : (slash == slash) = true := beq_self_eq_true slash
      have hnil : ∀ x ∈ ([] : List Byte), (x == slash) = false := by simp
      exact List.splitOnP_append_cons_of_forall_mem hnil _ hself _
    unfold components
    rw [hsplit]
    rfl
  · rfl

theorem components_slash : components (.lit "/") = [] := by decide +kernel

/-- The path is looked up component by component from the root. -/
theorem vfsResolvePath_eq (v : Vfs τ) (pathbuf : ℕ → Byte) {path : CString}
    (hlen : path.strlen < vfsPathMax - 1) :
    vfsResolvePath v pathbuf (some path) = walk v.fs v.vfsRoot (components path) := by
  have hcopy : stringAt (strncpy pathbuf path.bytes (vfsPathMax - 1)) vfsPathMax = path :=
    (stringAt_strncpy (Or.inl hlen)).trans (CString.take_of_le hlen.le)
  rw [vfsResolvePath]
  split_ifs with hroot hslash
  · rw [hroot, walk_zero]
  · rw [strcmp_eq_zero_iff.mp hslash, components_slash]
    rfl
  · show resolveLoop v.fs (skipSlash (stringAt (strncpy pathbuf path.bytes _) _)) v.vfsRoot = _
    rw [hcopy, resolveLoop_eq, components_skipSlash]

end NexusKernel.Fs
