import NexusKernel.Common.Heap
import NexusKernel.Lib.String

/-!
# The RAM file system (`kernel/fs/ramfs.c`)

Nodes and file records live at addresses; 0 is the null pointer. The data of files
are bytes of memory. Blocks come from any `Heap`; that blocks do not overlap is a
law of the heap, so nodes, records and data are kept in maps of their own.

A buffer of the caller is the array of its bytes, and `none` is `NULL`.

Every loop over `next_sibling` is cut off after as many iterations as nodes have
been made. A list of different nodes is never longer (`RamfsTree.count`), so the
value a cut-off loop is given does not matter.

The fields `uid`, `gid`, `flags` and `mount_point`, which nothing but `memset`
writes and nothing reads, and the console output are left out.
-/

namespace NexusKernel.Fs

/-! ## Records -/

/-- `VFS_FILE` (`vfs.h`, line 6). -/
def vfsFile : ℕ := 0x01

/-- `VFS_DIRECTORY` (`vfs.h`, line 7). -/
def vfsDirectory : ℕ := 0x02

/-- `VFS_NAME_MAX` (`vfs.h`, line 14). -/
def vfsNameMax : ℕ := 128

/-- `RAMFS_MAX_FILE_SIZE` (`ramfs.h`, line 7). -/
def ramfsMaxFileSize : ℕ := 64 * 1024

/-- `sizeof(vfs_node_t)`. -/
def sizeofVfsNode : ℕ := 180

/-- `sizeof(ramfs_file_t)`. -/
def sizeofRamfsFile : ℕ := 12

/-- The operation tables of `ramfs.c`. -/
inductive VfsOps where
  | ramfsOps
  | ramfsDirOps
  | ramfsRootOps
deriving DecidableEq

/-- The table has `create`, `unlink` and `mkdir` (lines 118–128, 212–222 and 234–244);
    the other functions are the same in all three. -/
def VfsOps.modifies : VfsOps → Bool
  | .ramfsOps => false
  | .ramfsDirOps => true
  | .ramfsRootOps => true

/-- `vfs_node_t` (`vfs.h`, lines 42–56); the default is what `memset` leaves. -/
structure VfsNode where
  name : ℕ → Byte := fun _ => 0
  type : ℕ := 0
  permissions : ℕ := 0
  inode : ℕ := 0
  size : ℕ := 0
  parent : ℕ := 0
  children : ℕ := 0
  nextSibling : ℕ := 0
  ops : Option VfsOps := none
  privateData : ℕ := 0

/-- `ramfs_file_t` (`ramfs.h`, lines 10–14). -/
structure RamfsFile where
  data : ℕ
  size : ℕ
  capacity : ℕ

/-- Nodes, file records, the bytes of memory, the number of nodes made so far and the
    heap. -/
structure Ramfs (τ : Type) where
  nodes : ℕ → VfsNode
  files : ℕ → RamfsFile
  mem : Mem
  created : ℕ
  heap : τ

variable {τ : Type}

/-- `next_inode` (line 8). -/
def Ramfs.nextInode (s : Ramfs τ) : ℕ := u32 (s.created + 1)

/-- Change the node at `p`. -/
def Ramfs.setNode (s : Ramfs τ) (p : ℕ) (f : VfsNode → VfsNode) : Ramfs τ :=
  { s with nodes := Function.update s.nodes p (f (s.nodes p)) }

/-- Change the file record at `p`. -/
def Ramfs.setFile (s : Ramfs τ) (p : ℕ) (f : RamfsFile → RamfsFile) : Ramfs τ :=
  { s with files := Function.update s.files p (f (s.files p)) }

/-- `kfree(p)`. -/
def Ramfs.free (H : Heap τ) (s : Ramfs τ) (p : ℕ) : Ramfs τ := { s with heap := H.kfree s.heap p }

/-- `p->name` as a string. -/
def Ramfs.nameOf (s : Ramfs τ) (p : ℕ) : CString := stringAt (s.nodes p).name vfsNameMax

/-- The record of the file at `p`. -/
def Ramfs.fileOf (s : Ramfs τ) (p : ℕ) : RamfsFile := s.files (s.nodes p).privateData

/-- The conversion of a `size_t` to `ssize_t`. -/
def toSsize (n : ℕ) : ℤ := if n < 2 ^ 31 then n else (n : ℤ) - 2 ^ 32

/-! ## Reading and writing -/

/-- `ramfs_read` (lines 10–25): the result and the buffer afterwards. -/
def ramfsRead (s : Ramfs τ) (node offset size : ℕ) (buffer : Option (ℕ → Byte)) :
    ℤ × Option (ℕ → Byte) :=
  match buffer with
  | none => (-1, none)
  | some buffer =>
    if (s.nodes node).privateData = 0 then (-1, some buffer)
    else if (s.fileOf node).size ≤ offset then (0, some buffer)
    else
      let available := (s.fileOf node).size - offset
      let size := if available < size then available else size
      (toSsize size, some (copyIn buffer 0 size fun i => s.mem ((s.fileOf node).data + offset + i)))

/-- The capacity `ramfs_write` grows a file to (lines 35–37). -/
def grownCapacity (newSize : ℕ) : ℕ :=
  if ramfsMaxFileSize < u32 (newSize * 2) then ramfsMaxFileSize else u32 (newSize * 2)

/-- The file moves to a block at `newData` of `newCap` bytes (lines 45–52). -/
def moveData (H : Heap τ) (s : Ramfs τ) (file newData newCap : ℕ) : Ramfs τ :=
  let data := (s.files file).data
  let size := (s.files file).size
  let s := if data ≠ 0 ∧ 0 < size then { s with mem := memcpy s.mem newData data size } else s
  let s := if data ≠ 0 then s.free H data else s
  s.setFile file fun f => { f with data := newData, capacity := newCap }

/-- Lines 34–53 of `ramfs_write`: make room for `newSize` bytes, or fail. -/
def reserve (H : Heap τ) (s : Ramfs τ) (file newSize : ℕ) : Bool × Ramfs τ :=
  if (s.files file).capacity < newSize then
    if grownCapacity newSize < newSize then (false, s)
    else
      let (newData, heap) := H.kmalloc s.heap (grownCapacity newSize)
      let s := { s with heap := heap }
      if newData = 0 then (false, s)
      else (true, moveData H s file newData (grownCapacity newSize))
  else (true, s)

/-- `memcpy(data + offset, buffer, size)` (line 55). If `offset + size` fits 32 bits, the
    checks before have made sure that the bytes go into the block at `data`; if not, they have
    not, and the pointer wraps around. -/
def storeData (m : Mem) (data offset size : ℕ) (buffer : ℕ → Byte) : Mem :=
  if offset + size < 2 ^ 32 then copyIn m (data + offset) size buffer
  else copyInWrapped m (data + offset) size buffer

/-- Lines 55–59 of `ramfs_write`. -/
def putData (s : Ramfs τ) (node file offset size newSize : ℕ) (buffer : ℕ → Byte) : Ramfs τ :=
  let s := { s with mem := storeData s.mem (s.files file).data offset size buffer }
  let s := if (s.files file).size < newSize then
    s.setFile file fun f => { f with size := newSize } else s
  s.setNode node fun n => { n with size := (s.files file).size }

/-- `ramfs_write` (lines 27–61). -/
def ramfsWrite (H : Heap τ) (s : Ramfs τ) (node offset size : ℕ) (buffer : Option (ℕ → Byte)) :
    ℤ × Ramfs τ :=
  match buffer with
  | none => (-1, s)
  | some buffer =>
    let file := (s.nodes node).privateData
    if file = 0 then (-1, s)
    else
      let newSize := u32 (offset + size)
      let (ok, s) := reserve H s file newSize
      if ok then (toSsize size, putData s node file offset size newSize buffer) else (-1, s)

/-- `ramfs_open` (lines 63–68). -/
def ramfsOpen (_node _flags : ℕ) : ℤ := 0

/-! ## Directories -/

/-- The loop of `ramfs_readdir` (lines 83–88); `i` counts in 32 bits. -/
def readdirLoop (s : Ramfs τ) (index : ℕ) : (fuel child i : ℕ) → Option ℕ
  | 0, child, _ => if child = 0 then some 0 else none
  | fuel + 1, child, i =>
    if child = 0 then some 0
    else if i = index then some child
    else readdirLoop s index fuel (s.nodes child).nextSibling (u32 (i + 1))

/-- `ramfs_readdir` (lines 76–90). -/
def ramfsReaddir (s : Ramfs τ) (node index : ℕ) : ℕ :=
  if (s.nodes node).type &&& vfsDirectory = 0 then 0
  else (readdirLoop s index s.created (s.nodes node).children 0).getD 0

/-- The loop of `ramfs_finddir` (lines 98–102). -/
def finddirLoop (s : Ramfs τ) (name : CString) : (fuel child : ℕ) → Option ℕ
  | 0, child => if child = 0 then some 0 else none
  | fuel + 1, child =>
    if child = 0 then some 0
    else if strcmp (s.nameOf child) name = 0 then some child
    else finddirLoop s name fuel (s.nodes child).nextSibling

/-- `ramfs_finddir` (lines 92–104). -/
def ramfsFinddir (s : Ramfs τ) (node : ℕ) (name : CString) : ℕ :=
  if (s.nodes node).type &&& vfsDirectory = 0 then 0
  else (finddirLoop s name s.created (s.nodes node).children).getD 0

/-- A node as lines 112–129 of `ramfs_create_node` leave it. -/
def newNode (name : CString) (type inode : ℕ) : VfsNode where
  name := strncpy (fun _ => 0) name.bytes (vfsNameMax - 1)
  type := type
  inode := inode
  permissions := 0o755
  ops := some .ramfsOps

/-- Lines 131–139 of `ramfs_create_node`: the record of a new file. If the block is
    not granted, the node has none. -/
def newFile (H : Heap τ) (s : Ramfs τ) (node : ℕ) : Ramfs τ :=
  let (file, heap) := H.kmalloc s.heap sizeofRamfsFile
  let s := { s with heap := heap }
  if file ≠ 0 then
    (s.setFile file fun _ => ⟨0, 0, 0⟩).setNode node fun n => { n with privateData := file }
  else s

/-- `ramfs_create_node` (lines 106–142); `0` is `NULL`. -/
def ramfsCreateNode (H : Heap τ) (s : Ramfs τ) (name : CString) (type : ℕ) : ℕ × Ramfs τ :=
  let (node, heap) := H.kmalloc s.heap sizeofVfsNode
  let s := { s with heap := heap }
  if node = 0 then (0, s)
  else
    let s := { s.setNode node fun _ => newNode name type s.nextInode with created := s.created + 1 }
    (node, if type &&& vfsFile ≠ 0 then newFile H s node else s)

/-- The new node becomes the first child (lines 156–158 and 207–209). -/
def linkChild (s : Ramfs τ) (parent node : ℕ) : Ramfs τ :=
  (s.setNode node fun n =>
    { n with parent := parent, nextSibling := (s.nodes parent).children }).setNode parent
      fun n => { n with children := node }

/-- `ramfs_do_create` (lines 144–161). -/
def ramfsDoCreate (H : Heap τ) (s : Ramfs τ) (parent : ℕ) (name : CString) (type : ℕ) : ℤ × Ramfs τ :=
  if (s.nodes parent).type &&& vfsDirectory = 0 then (-1, s)
  else if ramfsFinddir s parent name ≠ 0 then (-1, s)
  else
    let (node, s) := ramfsCreateNode H s name type
    if node = 0 then (-1, s) else (0, linkChild s parent node)

/-- The loop of `ramfs_do_unlink` (lines 171–189): `prev` and the child found, or 0. -/
def unlinkLoop (s : Ramfs τ) (name : CString) : (fuel prev child : ℕ) → Option (ℕ × ℕ)
  | 0, prev, child => if child = 0 then some (prev, 0) else none
  | fuel + 1, prev, child =>
    if child = 0 then some (prev, 0)
    else if strcmp (s.nameOf child) name = 0 then some (prev, child)
    else unlinkLoop s name fuel child (s.nodes child).nextSibling

/-- Lines 173–176 of `ramfs_do_unlink`. -/
def unlinkChild (s : Ramfs τ) (parent prev child : ℕ) : Ramfs τ :=
  if prev ≠ 0 then s.setNode prev fun n => { n with nextSibling := (s.nodes child).nextSibling }
  else s.setNode parent fun n => { n with children := (s.nodes child).nextSibling }

/-- Lines 178–184 of `ramfs_do_unlink`: the blocks of the child. -/
def freeChild (H : Heap τ) (s : Ramfs τ) (child : ℕ) : Ramfs τ :=
  let file := (s.nodes child).privateData
  let s :=
    if file ≠ 0 then (if (s.files file).data ≠ 0 then s.free H (s.files file).data else s).free H file
    else s
  s.free H child

/-- `ramfs_do_unlink` (lines 163–192). -/
def ramfsDoUnlink (H : Heap τ) (s : Ramfs τ) (parent : ℕ) (name : CString) : ℤ × Ramfs τ :=
  if (s.nodes parent).type &&& vfsDirectory = 0 then (-1, s)
  else
    let (prev, child) := (unlinkLoop s name s.created 0 (s.nodes parent).children).getD (0, 0)
    if child = 0 then (-1, s) else (0, freeChild H (unlinkChild s parent prev child) child)

/-- `ramfs_do_mkdir` (lines 194–226). -/
def ramfsDoMkdir (H : Heap τ) (s : Ramfs τ) (parent : ℕ) (name : CString) (mode : ℕ) : ℤ × Ramfs τ :=
  if (s.nodes parent).type &&& vfsDirectory = 0 then (-1, s)
  else if ramfsFinddir s parent name ≠ 0 then (-1, s)
  else
    let (dir, s) := ramfsCreateNode H s name vfsDirectory
    if dir = 0 then (-1, s)
    else
      let s := s.setNode dir fun n => { n with permissions := mode }
      let s := linkChild s parent dir
      (0, s.setNode dir fun n => { n with ops := some .ramfsDirOps })

/-- `ramfs_init` (lines 228–249); `0` is `NULL`. -/
def ramfsInit (H : Heap τ) (s : Ramfs τ) : ℕ × Ramfs τ :=
  let (root, s) := ramfsCreateNode H s (.lit "/") vfsDirectory
  if root = 0 then (0, s)
  else (root, s.setNode root fun n => { n with ops := some .ramfsRootOps })

end NexusKernel.Fs
