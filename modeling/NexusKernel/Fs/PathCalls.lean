import NexusKernel.Fs.PathMap

/-!
# Calls by path

A call is made as the kernel makes it: `vfs_resolve_path` finds the node of a path, and the
`vfs_` function is called on it. The results are about every run of such calls from the
state in which `kernel_main` leaves the file system.

Results:
* `vfs_refines_path_map`: along every run of calls the file system is the map of paths.
* `written_bytes_persist`: what was written to a file is read again, whatever happens to the
  other paths.
-/

namespace NexusKernel.Fs

variable {τ : Type} {H : Heap τ} {blocks : τ → ℕ → Option ℕ} {s t : Ramfs τ} {root : ℕ}
  {kids kids' : ℕ → List ℕ}

/-! ## Calls by path -/

/-- A call on the node that `vfs_resolve_path` finds; `pathbuf` is what its buffer held
    before. -/
structure PathCall where
  path : CString
  pathbuf : ℕ → Byte
  op : PathOp

/-- The path fits the buffer. -/
def PathCall.Valid (c : PathCall) : Prop := c.path.strlen < vfsPathMax - 1 ∧ c.op.Valid

/-- The node of the path. -/
def PathCall.node (v : Vfs τ) (c : PathCall) : ℕ := vfsResolvePath v c.pathbuf (some c.path)

def pathCall (H : Heap τ) (v : Vfs τ) (c : PathCall) : ℤ × Vfs τ :=
  ((fsCall H v.fs (c.op.on (c.node v))).1, { v with fs := (fsCall H v.fs (c.op.on (c.node v))).2 })

def pathStep (H : Heap τ) (v : Vfs τ) (c : PathCall) : Option (Vfs τ) := some (pathCall H v c).2

/-- The map below `vfs_root`. -/
def Vfs.paths (v : Vfs τ) : PathFs := pathFs v.fs v.vfsRoot

/-- Every lookup, read and call by path is that of the map. -/
structure RefinesPathMap (H : Heap τ) (v : Vfs τ) : Prop where
  resolve : ∀ pathbuf path, path.strlen < vfsPathMax - 1 →
    (vfsResolvePath v pathbuf (some path) ≠ 0 ↔ v.paths (components path) ≠ none)
  read : ∀ pathbuf path offset size buffer, path.strlen < vfsPathMax - 1 →
    vfsRead v.fs (vfsResolvePath v pathbuf (some path)) offset size (some buffer) =
      (v.paths.read (components path) offset size buffer).map id some
  call : ∀ c : PathCall, c.Valid →
    ((pathCall H v c).1, (pathCall H v c).2.paths) =
      v.paths.call (grants H v.fs (c.node v) c.op) (components c.path) c.op

/-- No call on `NULL` does anything. -/
theorem fsCall_zero (op : PathOp) : fsCall H s (op.on 0) = (-1, s) := by
  cases op with
  | make name op => cases op <;> simp [PathOp.on, fsCall, vfsMake, vfsCreate, vfsMkdir]
  | unlink name => simp [PathOp.on, fsCall, vfsUnlink]
  | write offset size buffer => simp [PathOp.on, fsCall, vfsWrite]

theorem PathFs.call_of_none {A : PathFs} {p : List CString} (h : A p = none) (g : Grants)
    (op : PathOp) : A.call g p op = (-1, A) := by
  cases op with
  | make name op => simp [PathFs.call, h]
  | unlink name => simp [PathFs.call, h]
  | write offset size buffer => cases buffer <;> simp [PathFs.call, PathFs.write, h]

section

variable {v : Vfs τ} {path : CString} {pathbuf : ℕ → Byte}

theorem vfsResolvePath_eq_follow (hroot : v.vfsRoot ≠ 0) (hlen : path.strlen < vfsPathMax - 1) :
    vfsResolvePath v pathbuf (some path) =
      (follow (childOf v.fs) v.vfsRoot (components path)).getD 0 := by
  rw [vfsResolvePath_eq v pathbuf hlen, walk_eq_follow v.fs hroot]

/-- The node of a path, and what the map says of it. -/
theorem resolve_cases (h : RamfsTree v.fs v.vfsRoot kids) (hlen : path.strlen < vfsPathMax - 1) :
    (vfsResolvePath v pathbuf (some path) = 0 ∧ v.paths (components path) = none) ∨
    ∃ d, vfsResolvePath v pathbuf (some path) = d ∧ d ≠ 0 ∧
      follow (childOf v.fs) v.vfsRoot (components path) = some d := by
  rw [vfsResolvePath_eq_follow h.root_ne_zero hlen]
  cases hfollow : follow (childOf v.fs) v.vfsRoot (components path) with
  | none =>
    refine Or.inl ⟨rfl, ?_⟩
    rw [Vfs.paths, pathFs, hfollow, Option.map_none]
  | some d => exact Or.inr ⟨d, rfl, h.ne_zero (reach_of_follow h hfollow), rfl⟩

theorem read_refines (h : RamfsInv blocks s root kids) {p : List CString} {d : ℕ}
    (hp : follow (childOf s) root p = some d) (offset size : ℕ) (buffer : ℕ → Byte) :
    vfsRead s d offset size (some buffer) =
      ((pathFs s root).read p offset size buffer).map id some := by
  have hd := reach_of_follow h.tree hp
  rw [PathFs.read, pathFs_of_follow hp, Option.bind_some]
  by_cases hfile : (s.nodes d).privateData = 0
  · have hdata : (pathNode s d).data = none := if_pos hfile
    rw [hdata, vfsRead, if_neg (by simp [h.tree.ne_zero hd, h.tree.ops_some d hd]), ramfsRead,
      if_pos hfile]
    rfl
  have hdata : (pathNode s d).data = some (bytesOf s d) := if_neg hfile
  have hok := h.file_ok d hd hfile
  have hsize := hok.size_le
  have hcap := hok.capacity_le
  have hlen : (((bytesOf s d).drop offset).take size).length = min size ((s.fileOf d).size - offset) := by
    simp [bytesOf]
  rw [hdata, vfsRead_eq (h.isFile hd hfile), toSsize_of_le (by omega), Option.elim_some, Prod.map_apply,
    hlen]
  refine congrArg (Prod.mk _) (congrArg some (funext fun i => ?_))
  unfold copyIn
  by_cases hi : i < min size ((s.fileOf d).size - offset)
  · rw [if_pos (by omega), List.getD_eq_getElem _ _ (by omega)]
    simp [bytesOf, Nat.add_assoc]
  · rw [if_neg (by omega), List.getD_eq_default _ _ (by omega)]

/-- The file system is the map as long as its directories are in order. -/
theorem refinesPathMap (hH : H.Lawful blocks) (h : DirInv blocks v.vfsRoot v.fs) :
    RefinesPathMap H v := by
  obtain ⟨kids, h, hnames⟩ := h
  constructor
  · intro pathbuf path hlen
    obtain ⟨hnode, hpath⟩ | ⟨d, hnode, hd, hfollow⟩ := resolve_cases h.tree hlen
    · rw [hnode, hpath]
      simp
    · rw [hnode, Vfs.paths, pathFs_of_follow hfollow]
      simp [hd]
  · intro pathbuf path offset size buffer hlen
    obtain ⟨hnode, hpath⟩ | ⟨d, hnode, -, hfollow⟩ := resolve_cases h.tree hlen
    · rw [hnode, PathFs.read, hpath, vfsRead, if_pos (Or.inl rfl)]
      rfl
    · rw [hnode]
      exact read_refines h hfollow offset size buffer
  · intro c hc
    obtain ⟨hnode, hpath⟩ | ⟨d, hnode, -, hfollow⟩ := resolve_cases h.tree hc.1
    · rw [PathFs.call_of_none hpath, pathCall, PathCall.node, hnode, fsCall_zero]
    · have hcall := fsCall_refines hH h hnames hfollow hc.2
      rw [pathCall, PathCall.node, hnode]
      exact hcall

/-- A valid call on a node of the tree. -/
theorem onTree_of_valid {d : ℕ} (hd : InTree v.fs v.vfsRoot d) {op : PathOp} (hop : op.Valid) :
    OnTree v.vfsRoot v.fs (op.on d) := by
  cases op with
  | make name op => exact hd
  | unlink name => exact hd
  | write offset size buffer => exact ⟨hd, hop⟩

/-- A call keeps the directories in order. -/
theorem dirInv_pathCall (hH : H.Lawful blocks) (h : DirInv blocks v.vfsRoot v.fs) {c : PathCall}
    (hc : c.Valid) : DirInv blocks v.vfsRoot (pathCall H v c).2.fs := by
  obtain ⟨kids, hinv, hnames⟩ := h
  obtain ⟨hnode, -⟩ | ⟨d, hnode, -, hfollow⟩ := resolve_cases hinv.tree hc.1
  · rw [pathCall, PathCall.node, hnode, fsCall_zero]
    exact ⟨kids, hinv, hnames⟩
  · have hd : InTree v.fs v.vfsRoot d :=
      (inTree_iff_reach hinv.tree).mpr (reach_of_follow hinv.tree hfollow)
    rw [pathCall, PathCall.node, hnode]
    refine dirInv_step hH ⟨kids, hinv, hnames⟩ (onTree_of_valid hd hc.2) ?_
    cases hop : c.op with
    | make name op =>
      have hvalid := hc.2
      rw [hop] at hvalid
      exact fun _ => hvalid
    | unlink name => trivial
    | write offset size buffer => trivial

theorem dirInv_pathStep (hH : H.Lawful blocks) {u : Vfs τ} {c : PathCall}
    (h : DirInv blocks v.vfsRoot v.fs) (hc : c.Valid) (hu : pathStep H v c = some u) :
    DirInv blocks u.vfsRoot u.fs := by
  obtain rfl := Option.some_inj.mp hu
  exact dirInv_pathCall hH h hc

end

/-! ## From boot on -/

/-- The file system as `kernel_main` leaves it: a new RAM file system mounted at `/`. -/
def vfsBoot (H : Heap τ) (v : Vfs τ) (s : Ramfs τ) : ℤ × Vfs τ :=
  vfsMount H { vfsInit v with fs := (ramfsInit H s).2 } (some (.lit "/")) (some (.lit "ramfs"))
    (ramfsInit H s).1

/-- A mount that succeeds takes one more block and sets `vfs_root`. -/
theorem vfsBoot_of_success {v : Vfs τ} (hboot : (vfsBoot H v s).1 = 0) :
    (ramfsInit H s).1 ≠ 0 ∧ (vfsBoot H v s).2.vfsRoot = (ramfsInit H s).1 ∧
      (vfsBoot H v s).2.fs = { (ramfsInit H s).2 with
        heap := (H.kmalloc (ramfsInit H s).2.heap sizeofVfsMount).2 } := by
  have hslash : strcmp (.lit "/") (.lit "/") = 0 := strcmp_eq_zero_iff.mpr rfl
  have hcount : ¬ maxMounts ≤ (vfsInit v).mountCount := show ¬ 16 ≤ 0 by decide
  simp only [vfsBoot, vfsMount, hslash, if_true, if_neg hcount] at hboot ⊢
  by_cases hroot : (ramfsInit H s).1 = 0
  · rw [if_pos hroot] at hboot
    exact absurd hboot (by simp)
  rw [if_neg hroot] at hboot ⊢
  by_cases hmount : (H.kmalloc (ramfsInit H s).2.heap sizeofVfsMount).1 = 0
  · rw [if_pos hmount] at hboot
    exact absurd hboot (by simp)
  rw [if_neg hmount]
  exact ⟨hroot, rfl, rfl⟩

theorem ramfsInv_vfsBoot (hH : H.Lawful blocks) {v : Vfs τ} (hboot : (vfsBoot H v s).1 = 0) :
    RamfsInv blocks (vfsBoot H v s).2.fs (vfsBoot H v s).2.vfsRoot fun _ => [] := by
  obtain ⟨hroot, hvfs, hfs⟩ := vfsBoot_of_success hboot
  rw [hvfs, hfs]
  refine (ramfsInv_ramfsInit hH hroot).mono_heap ?_
  intro a _ p _ m hm
  exact hH.kmalloc_live _ _ hm

/-- At first there is the root, and nothing in it. -/
theorem paths_vfsBoot (hH : H.Lawful blocks) {v : Vfs τ} (hboot : (vfsBoot H v s).1 = 0) :
    (vfsBoot H v s).2.paths = Function.update (fun _ => none) [] (some ⟨true, true, none⟩) := by
  have h := ramfsInv_vfsBoot hH hboot
  obtain ⟨hroot, hvfs, hfs⟩ := vfsBoot_of_success hboot
  have hnode : (vfsBoot H v s).2.fs.nodes (vfsBoot H v s).2.vfsRoot =
      { newNode (.lit "/") vfsDirectory s.nextInode with ops := some .ramfsRootOps } := by
    rw [hvfs, hfs, ramfsInit_of_room (mt ramfsInit_eq_zero_iff.mpr hroot)]
    exact Function.update_self ..
  funext p
  cases p with
  | nil =>
    rw [Function.update_self, Vfs.paths, pathFs_of_follow (follow_nil _ _), pathNode, Ramfs.modifies,
      hnode]
    simp [newNode, VfsOps.modifies, vfsDirectory]
  | cons name p =>
    have hnone : childOf (vfsBoot H v s).2.fs (vfsBoot H v s).2.vfsRoot name = none := by
      rw [childOf_eq h.tree .root]
      split_ifs <;> rfl
    rw [Function.update_of_ne (List.cons_ne_nil _ _), Vfs.paths, pathFs, follow, List.foldlM_cons,
      hnone]
    rfl

/-- **The file system is a map of paths.** From a RAM file system mounted at `/` on, along
    every sequence of calls by path, every lookup, read, creation, removal and write returns
    and does what it returns and does on the map. -/
theorem vfs_refines_path_map (H : Heap τ) (blocks : τ → ℕ → Option ℕ) (hH : H.Lawful blocks)
    (v : Vfs τ) (s : Ramfs τ) (hboot : (vfsBoot H v s).1 = 0) (calls : List PathCall)
    (hcalls : ∀ c ∈ calls, c.Valid) :
    (vfsBoot H v s).2.paths = Function.update (fun _ => none) [] (some ⟨true, true, none⟩) ∧
      Along (pathStep H) (RefinesPathMap H) (vfsBoot H v s).2 calls := by
  have hfirst : DirInv blocks (vfsBoot H v s).2.vfsRoot (vfsBoot H v s).2.fs :=
    ⟨_, ramfsInv_vfsBoot hH hboot, fun _ _ => List.nodup_nil⟩
  exact ⟨paths_vfsBoot hH hboot,
    Meets.along (fun v c t hv hc ht => dirInv_pathStep hH hv hc ht)
      (fun v hv => refinesPathMap hH hv) hfirst
      (meets_of_forall_mem (fun c hc _ => hcalls c hc) _)⟩

/-- The file system on `slotHeap` after boot. -/
def mountedSlots : Vfs (ℕ × List ℕ) :=
  (vfsBoot slotHeap ⟨slotRamfs, 0, 0, 0, fun _ => ⟨fun _ => 0, fun _ => 0, 0, 0⟩⟩ slotRamfs).2

/-- A directory is made, a file in it, some bytes are written to the file, and the directory
    is unlinked with the file in it. -/
theorem vfs_refines_path_map_slots :
    Along (pathStep slotHeap) (RefinesPathMap slotHeap) mountedSlots
      [⟨.lit "/", fun _ => 0, .make (.lit "tmp") (.mkdir 0o755)⟩,
        ⟨.lit "/tmp", fun _ => 0, .make (.lit "a") (.create vfsFile)⟩,
        ⟨.lit "/tmp/a", fun _ => 0, .write 3 2 (some fun _ => 7)⟩,
        ⟨.lit "/", fun _ => 0, .unlink (.lit "tmp")⟩] := by
  refine (vfs_refines_path_map slotHeap slotBlocks lawful_slotHeap _ slotRamfs (by decide +kernel) _
    ?_).2
  simp only [List.forall_mem_cons, List.not_mem_nil, false_imp_iff, implies_true, PathCall.Valid,
    PathOp.Valid]
  decide +kernel

/-! ## What was written stays -/

/-- A call on the path `q` leaves what is at the path `p` alone: it does not write to it, and
    unlinks neither it nor a directory on the way to it. -/
def PathOp.Spares (q p : List CString) : PathOp → Prop
  | .make _ _ => True
  | .unlink name => ¬ q ++ [name] <+: p
  | .write _ _ _ => q ≠ p

section

variable {A : PathFs} {p q : List CString} {g : Grants} {offset size : ℕ} {buffer : ℕ → Byte}

theorem PathFs.call_of_spares (hp : A p ≠ none) {op : PathOp} (hop : op.Spares q p) :
    (A.call g q op).2 p = A p := by
  cases op with
  | make name op =>
    rw [PathFs.call]
    split_ifs with hmake
    · -- nothing is made at a path that is taken
      have hne : p ≠ q ++ [name] := by
        rintro rfl
        exact hp hmake.2.1
      exact Function.update_of_ne hne _ _
    · rfl
  | unlink name =>
    rw [PathFs.call]
    split_ifs
    · exact if_neg hop
    · rfl
  | write offset size buffer =>
    cases buffer with
    | none => rfl
    | some buffer =>
      rw [PathFs.call, PathFs.write]
      split_ifs
      · exact Function.update_of_ne (Ne.symm hop) _ _
      · rfl

/-- The file at the path holds the bytes of the buffer from `offset` on. -/
def Stored (A : PathFs) (p : List CString) (offset size : ℕ) (buffer : ℕ → Byte) : Prop :=
  ∃ n bytes, A p = some n ∧ n.data = some bytes ∧ ∀ i < size, bytes[offset + i]? = some (buffer i)

theorem stored_write (h : (A.call g p (.write offset size (some buffer))).1 ≠ -1) :
    Stored (A.call g p (.write offset size (some buffer))).2 p offset size buffer := by
  rw [PathFs.call, PathFs.write] at h ⊢
  split_ifs at h ⊢ with hroom
  · obtain ⟨bytes, hbytes⟩ := Option.isSome_iff_exists.mp hroom.1
    obtain ⟨n, hn, hdata⟩ := Option.bind_eq_some_iff.mp hbytes
    refine ⟨{ n with data := some (overwrite bytes offset size buffer g.stale) }, _, ?_, rfl, ?_⟩
    · show Function.update A p _ p = _
      rw [Function.update_self, hn, Option.map_some, hdata, Option.map_some]
    · intro i hi
      rw [overwrite, List.getElem?_map, List.getElem?_range (by omega), Option.map_some,
        if_pos (by omega), Nat.add_sub_cancel_left]
  · exact absurd rfl h

theorem read_of_stored (h : Stored A p offset size buffer) (buf : ℕ → Byte) :
    (A.read p offset size buf).1 = size ∧ ∀ i < size, (A.read p offset size buf).2 i = buffer i := by
  obtain ⟨n, bytes, hn, hdata, hbytes⟩ := h
  have hslice : ∀ i < size, ((bytes.drop offset).take size)[i]? = some (buffer i) := by
    intro i hi
    rw [List.getElem?_take_of_lt hi, List.getElem?_drop, hbytes i hi]
  have hlen : ((bytes.drop offset).take size).length = size := by
    refine le_antisymm (List.length_take_le _ _) ?_
    by_contra hlt
    have hnone := List.getElem?_eq_none (Nat.le_refl ((bytes.drop offset).take size).length)
    rw [hslice _ (by omega)] at hnone
    exact Option.some_ne_none _ hnone
  rw [PathFs.read, hn, Option.bind_some, hdata, Option.elim_some]
  refine ⟨by rw [hlen], fun i hi => ?_⟩
  show ((bytes.drop offset).take size).getD i (buf i) = buffer i
  rw [List.getD_eq_getElem?_getD, hslice i hi, Option.getD_some]

end

/-- The map after a call. -/
theorem paths_pathCall (hH : H.Lawful blocks) {v : Vfs τ} (h : DirInv blocks v.vfsRoot v.fs)
    {c : PathCall} (hc : c.Valid) : (pathCall H v c).2.paths =
      (v.paths.call (grants H v.fs (c.node v) c.op) (components c.path) c.op).2 :=
  congrArg Prod.snd ((refinesPathMap hH h).call c hc)

theorem dirInv_run (hH : H.Lawful blocks) {v u : Vfs τ} (h : DirInv blocks v.vfsRoot v.fs)
    {calls : List PathCall} (hcalls : ∀ c ∈ calls, c.Valid)
    (hrun : run (pathStep H) v calls = some u) : DirInv blocks u.vfsRoot u.fs := by
  exact Meets.invariant (fun v c t hv hc ht => dirInv_pathStep hH hv hc ht) h
    (meets_of_forall_mem (fun c hc _ => hcalls c hc) v) hrun

/-- **What was written stays.** A write by path that succeeds, at any time after boot, stores
    its bytes; whatever calls follow, as long as none writes to the same path or unlinks it or
    a directory on the way to it, a read by the path returns them. -/
theorem written_bytes_persist (hH : H.Lawful blocks) (v : Vfs τ) (s : Ramfs τ)
    (hboot : (vfsBoot H v s).1 = 0) {before after : List PathCall}
    (hbefore : ∀ c ∈ before, c.Valid) (hafter : ∀ c ∈ after, c.Valid) {path : CString}
    (hpath : path.strlen < vfsPathMax - 1) {offset size : ℕ} (hlt : offset + size < 2 ^ 32)
    (pathbuf buffer : ℕ → Byte) {a b : Vfs τ}
    (ha : run (pathStep H) (vfsBoot H v s).2 before = some a)
    (hwrite : (pathCall H a ⟨path, pathbuf, .write offset size (some buffer)⟩).1 ≠ -1)
    (hspare : ∀ c ∈ after, c.op.Spares (components c.path) (components path))
    (hb : run (pathStep H) (pathCall H a ⟨path, pathbuf, .write offset size (some buffer)⟩).2 after =
      some b) (pathbuf' buf : ℕ → Byte) :
    ∃ out, vfsRead b.fs (vfsResolvePath b pathbuf' (some path)) offset size (some buf) =
      ((size : ℤ), some out) ∧ ∀ i < size, out i = buffer i := by
  have hinv : DirInv blocks a.vfsRoot a.fs := dirInv_run hH
    ⟨_, ramfsInv_vfsBoot hH hboot, fun _ _ => List.nodup_nil⟩ hbefore ha
  have hc : (⟨path, pathbuf, .write offset size (some buffer)⟩ : PathCall).Valid := ⟨hpath, hlt⟩
  have hstored : Stored (pathCall H a ⟨path, pathbuf, .write offset size (some buffer)⟩).2.paths
      (components path) offset size buffer := by
    have hcall := (refinesPathMap hH hinv).call _ hc
    rw [paths_pathCall hH hinv hc]
    apply stored_write
    rw [← congrArg Prod.fst hcall]
    exact hwrite
  have hstep : ∀ (v : Vfs τ) (c : PathCall) (t : Vfs τ),
      (DirInv blocks v.vfsRoot v.fs ∧ Stored v.paths (components path) offset size buffer) →
      (c.Valid ∧ c.op.Spares (components c.path) (components path)) → pathStep H v c = some t →
      DirInv blocks t.vfsRoot t.fs ∧ Stored t.paths (components path) offset size buffer := by
    rintro v c t ⟨hv, hst⟩ ⟨hc, hsp⟩ ht
    refine ⟨dirInv_pathStep hH hv hc ht, ?_⟩
    obtain rfl := Option.some_inj.mp ht
    obtain ⟨n, bytes, hn, hrest⟩ := hst
    refine ⟨n, bytes, ?_, hrest⟩
    rw [paths_pathCall hH hv hc, PathFs.call_of_spares (by rw [hn]; exact Option.some_ne_none n) hsp,
      hn]
  obtain ⟨hinv', hstored'⟩ := Meets.invariant hstep ⟨dirInv_pathCall hH hinv hc, hstored⟩
    (meets_of_forall_mem (fun c hc _ => ⟨hafter c hc, hspare c hc⟩) _) hb
  obtain ⟨hread, hout⟩ := read_of_stored hstored' buf
  refine ⟨_, ?_, hout⟩
  rw [(refinesPathMap hH hinv').read pathbuf' path offset size buf hpath, Prod.map_apply, hread]
  rfl

/-- A file `a` in the root directory. -/
def makeA : PathCall := ⟨.lit "/", fun _ => 0, .make (.lit "a") (.create vfsFile)⟩

/-- Two bytes into it, three bytes behind its start. -/
def writeA : PathCall := ⟨.lit "/a", fun _ => 0, .write 3 2 (some fun _ => 7)⟩

/-- A directory made afterwards. -/
def makeTmp : PathCall := ⟨.lit "/", fun _ => 0, .make (.lit "tmp") (.mkdir 0o755)⟩

theorem writeA_succeeds :
    (pathCall slotHeap (pathCall slotHeap mountedSlots makeA).2 writeA).1 ≠ -1 := by
  have hboot : (vfsBoot slotHeap ⟨slotRamfs, 0, 0, 0, fun _ => ⟨fun _ => 0, fun _ => 0, 0, 0⟩⟩
      slotRamfs).1 = 0 := by decide +kernel
  have hdir : DirInv slotBlocks mountedSlots.vfsRoot mountedSlots.fs :=
    ⟨_, ramfsInv_vfsBoot lawful_slotHeap hboot, fun _ _ => List.nodup_nil⟩
  have hmake : makeA.Valid := ⟨by decide +kernel, show NameFits (.lit "a") by decide +kernel⟩
  have hwrite : writeA.Valid := ⟨by decide +kernel, show 3 + 2 < 2 ^ 32 by norm_num⟩
  have hdir' : DirInv slotBlocks (pathCall slotHeap mountedSlots makeA).2.vfsRoot
      (pathCall slotHeap mountedSlots makeA).2.fs := dirInv_pathStep lawful_slotHeap hdir hmake rfl
  have hcall := (refinesPathMap lawful_slotHeap hdir').call writeA hwrite
  have hpath : components writeA.path = [.lit "a"] := by decide +kernel
  have hnode : (grants slotHeap mountedSlots.fs (makeA.node mountedSlots) makeA.op).node = true :=
    decide_eq_true (nodeBlock_slotHeap mountedSlots.fs)
  have hblock : (recordBlock slotHeap (nodeBlock slotHeap mountedSlots.fs).2 vfsFile).1 ≠ 0 := by
    rw [recordBlock, if_pos (by decide)]
    exact (slotHeap_kmalloc_ne_zero_iff _).mpr (by decide)
  have hrecord : (grants slotHeap mountedSlots.fs (makeA.node mountedSlots) makeA.op).record = true :=
    decide_eq_true hblock
  have hfits : ∀ heap f, ¬ NoRoom slotHeap heap f (3 + 2) := by
    rintro heap f ⟨-, hmax | hnull⟩
    · exact absurd hmax (by decide)
    · exact (slotHeap_kmalloc_ne_zero_iff heap).mpr (by decide) hnull
  have hroom : (grants slotHeap (pathCall slotHeap mountedSlots makeA).2.fs
      (writeA.node (pathCall slotHeap mountedSlots makeA).2) writeA.op).room = true :=
    decide_eq_true (hfits _ _)
  rw [congrArg Prod.fst hcall, paths_pathCall lawful_slotHeap hdir hmake,
    show mountedSlots.paths = _ from paths_vfsBoot lawful_slotHeap hboot, hpath,
    show components makeA.path = [] from components_slash]
  generalize grants slotHeap mountedSlots.fs (makeA.node mountedSlots) makeA.op = g at hnode hrecord
  generalize grants slotHeap (pathCall slotHeap mountedSlots makeA).2.fs
    (writeA.node (pathCall slotHeap mountedSlots makeA).2) writeA.op = g' at hroom
  simp [makeA, writeA, PathFs.call, PathFs.write, PathNode.made, hnode, hrecord, hroom, vfsFile]

/-- The bytes are read again after the directory has been made. -/
theorem written_bytes_persist_slots :
    ∃ b out, run (pathStep slotHeap) (pathCall slotHeap (pathCall slotHeap mountedSlots makeA).2 writeA).2
        [makeTmp] = some b ∧
      vfsRead b.fs (vfsResolvePath b (fun _ => 0) (some (.lit "/a"))) 3 2 (some fun _ => 0) =
        (2, some out) ∧ ∀ i < 2, out i = 7 := by
  have hboot : (vfsBoot slotHeap ⟨slotRamfs, 0, 0, 0, fun _ => ⟨fun _ => 0, fun _ => 0, 0, 0⟩⟩
      slotRamfs).1 = 0 := by decide +kernel
  have hmake : makeA.Valid := ⟨by decide +kernel, show NameFits (.lit "a") by decide +kernel⟩
  have htmp : makeTmp.Valid := ⟨by decide +kernel, show NameFits (.lit "tmp") by decide +kernel⟩
  have hmade : run (pathStep slotHeap) mountedSlots [makeA] = some (pathCall slotHeap mountedSlots makeA).2 :=
    rfl
  obtain ⟨out, hread, hout⟩ := written_bytes_persist lawful_slotHeap _ slotRamfs hboot
    (by simpa using hmake) (by simpa using htmp) (show (CString.lit "/a").strlen < vfsPathMax - 1 by
      decide +kernel) (show 3 + 2 < 2 ^ 32 by norm_num) (fun _ => 0) (fun _ => 7) hmade writeA_succeeds
    (List.forall_mem_singleton.mpr (show makeTmp.op.Spares _ _ from trivial)) rfl (fun _ => 0)
    (fun _ => 0)
  exact ⟨_, out, rfl, hread, hout⟩

end NexusKernel.Fs
