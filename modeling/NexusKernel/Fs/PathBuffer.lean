import NexusKernel.Fs.RamfsBlocks
import NexusKernel.Lib.FixedBuffers

/-!
# Path resolution in its buffer

`vfs_resolve_path` copies the path into `pathbuf` and cuts it up there: `strchr` looks for
the next separator, a zero byte is written over it, and `vfs_finddir` is given the address
of the token. Here the function runs on the bytes of `pathbuf`. It has no result if it
reads outside the array, or if the loop takes more steps than the array has bytes.

Results:
* `resolveBytes_eq`: the loop does what `resolveLoop` does with the string in the buffer.
* `vfsResolvePathBytes_eq`: so the function always ends with its result, and reads only
  its buffer, if the copy is terminated.
* `components_of_slashInserted`: slashes at the ends and next to slashes do not matter.
* `path_resolution_is_walk`: what `vfs_resolve_path` returns in a tree of the RAM file
  system.
-/

namespace NexusKernel.Fs

variable {τ : Type} {s : Ramfs τ} {v : Vfs τ} {pathbuf : ℕ → Byte} {token current root : ℕ}
  {path path' t : CString} {kids : ℕ → List ℕ}

/-- The loop of `vfs_resolve_path` (lines 134–149) on the bytes of `pathbuf`. -/
def resolveBytes (s : Ramfs τ) : (fuel : ℕ) → (pathbuf : ℕ → Byte) → (token current : ℕ) → Option ℕ
  | 0, _, _, _ => none
  | fuel + 1, pathbuf, token, current =>
    if vfsPathMax ≤ token then none
    else if pathbuf token = 0 ∨ current = 0 then some current
    else
      (strchrIn pathbuf vfsPathMax slash token).bind fun nextSep =>
        let pathbuf := nextSep.elim pathbuf fun i => Function.update pathbuf i 0
        (strlenIn pathbuf vfsPathMax token).bind fun len =>
          let found :=
            if 0 < len then
              vfsFinddir s current (stringAt (fun i => pathbuf (token + i)) (vfsPathMax - token))
            else current
          if 0 < len ∧ found = 0 then some 0
          else
            match nextSep with
            | none => some found
            | some i => resolveBytes s fuel pathbuf (i + 1) found

/-- `vfs_resolve_path` (lines 118–152) on the bytes of `pathbuf`, which holds anything
    before. -/
def vfsResolvePathBytes (v : Vfs τ) (pathbuf : ℕ → Byte) (path : Option CString) : Option ℕ :=
  match path with
  | none => some 0
  | some path =>
    if v.vfsRoot = 0 then some 0
    else if strcmp path (.lit "/") = 0 then some v.vfsRoot
    else
      let pathbuf := strncpy pathbuf path.bytes (vfsPathMax - 1)
      resolveBytes v.fs (vfsPathMax + 1) pathbuf (if pathbuf 0 = slash then 1 else 0) v.vfsRoot

/-! ## The loop and the strings in the buffer -/

/-- What one turn of the loop looks up: the first component, if it is not empty. -/
def lookUp (s : Ramfs τ) (t : CString) (current : ℕ) : ℕ :=
  if 0 < (t.upTo slash).strlen then vfsFinddir s current (t.upTo slash) else current

theorem walk_components (s : Ramfs τ) (t : CString) (current : ℕ) :
    walk s current (components t) =
      walk s (lookUp s t current) ((t.after slash).elim [] components) := by
  rw [components_eq, walk_append, walk_first]
  rfl

/-- With the string `t` at `token`, the loop looks up the components of `t`. -/
theorem resolveBytes_eq {fuel : ℕ} (h : HoldsAt pathbuf vfsPathMax token t) (hfuel : t.strlen < fuel) :
    resolveBytes s fuel pathbuf token current = some (walk s current (components t)) := by
  induction fuel generalizing pathbuf token t current with
  | zero => exact absurd hfuel (Nat.not_lt_zero _)
  | succ fuel ih =>
    have hin : ¬ vfsPathMax ≤ token := by
      have hfits := h.fits
      omega
    have hslash : slash ≠ 0 := by decide
    rw [resolveBytes, if_neg hin]
    by_cases hend : t.chars = [] ∨ current = 0
    · rw [if_pos (hend.imp_left h.zero_iff.mpr)]
      obtain hnil | rfl := hend
      · rw [components_of_chars_nil hnil]
        rfl
      · rw [walk_zero]
    · rw [if_neg (mt (Or.imp_left h.zero_iff.mp) hend), h.strchrIn hslash, walk_components]
      -- an empty component leaves the node as it was, which is not null
      have hnull : lookUp s t current = 0 → 0 < (t.upTo slash).strlen := by
        intro h0
        by_contra hpos
        rw [lookUp, if_neg hpos] at h0
        exact hend (Or.inr h0)
      rcases hafter : t.after slash with _ | rest
      · have hwhole := CString.upTo_of_after hafter
        simp only [Option.map_none, Option.bind_some, Option.elim_none, h.strlenIn, h.stringAt]
        have hlook : (if 0 < t.strlen then vfsFinddir s current t else current) =
            lookUp s t current := by
          rw [lookUp, hwhole]
        rw [hwhole] at hnull
        rw [hlook]
        by_cases h0 : lookUp s t current = 0
        · rw [if_pos ⟨hnull h0, h0⟩, h0]
          rfl
        · rw [if_neg (fun hand => h0 hand.2)]
          rfl
      · obtain ⟨hfirst, hrest⟩ := h.split hafter
        have hlen := strlen_after hafter
        simp only [Option.map_some, Option.bind_some, Option.elim_some, hfirst.strlenIn,
          hfirst.stringAt]
        rw [ih hrest (by omega)]
        show (if 0 < (t.upTo slash).strlen ∧ lookUp s t current = 0 then some 0
          else some (walk s (lookUp s t current) (components rest))) = _
        by_cases h0 : lookUp s t current = 0
        · rw [if_pos ⟨hnull h0, h0⟩, h0, walk_zero]
        · rw [if_neg (fun hand => h0 hand.2)]

theorem holdsAt_skipSlash (h : HoldsAt pathbuf vfsPathMax 0 t) :
    HoldsAt pathbuf vfsPathMax (if pathbuf 0 = slash then 1 else 0) (skipSlash t) := by
  obtain ⟨fits, bytes⟩ := h
  have hfirst := bytes 0 (Nat.zero_le _)
  rw [Nat.add_zero] at hfirst
  obtain ⟨_ | ⟨b, l⟩, hz⟩ := t
  · have hne : pathbuf 0 ≠ slash := by
      rw [hfirst]
      show (0 : Byte) ≠ slash
      decide
    rw [if_neg hne]
    exact ⟨fits, bytes⟩
  · have hb : pathbuf 0 = b := hfirst
    by_cases hslash : b = slash
    · rw [hb, if_pos hslash, skipSlash, if_pos (by simp [hslash])]
      refine ⟨by simp only [CString.strlen, List.length_cons, List.tail_cons] at fits ⊢; omega, ?_⟩
      intro j hj
      simp only [CString.strlen, List.tail_cons] at hj
      have hbyte := bytes (1 + j) (by simp only [CString.strlen, List.length_cons]; omega)
      rw [Nat.zero_add] at hbyte
      rw [hbyte, Nat.add_comm 1 j]
      rfl
    · rw [hb, if_neg hslash, skipSlash, if_neg (by simpa using hslash)]
      exact ⟨fits, bytes⟩

/-- If the copy of the path ends in the buffer, the function returns, has read nothing
    outside, and its result is that of `vfsResolvePath`. -/
theorem vfsResolvePathBytes_eq
    (hterm : Terminated (strncpy pathbuf path.bytes (vfsPathMax - 1)) vfsPathMax) :
    vfsResolvePathBytes v pathbuf (some path) = some (vfsResolvePath v pathbuf (some path)) := by
  have hskip := holdsAt_skipSlash hterm.holdsAt
  have hlen := hskip.fits
  rw [vfsResolvePathBytes, vfsResolvePath]
  by_cases hroot : v.vfsRoot = 0
  · rw [if_pos hroot, if_pos hroot]
  · rw [if_neg hroot, if_neg hroot]
    by_cases hslash : strcmp path (.lit "/") = 0
    · rw [if_pos hslash, if_pos hslash]
    · rw [if_neg hslash, if_neg hslash]
      refine (resolveBytes_eq hskip (by omega)).trans ?_
      rw [resolveLoop_eq]

/-! ## Slashes that do not matter -/

/-- `path'` has one slash more: at the beginning, at the end or next to another. -/
def SlashInserted (path path' : CString) : Prop :=
  ∃ l r, path.chars = l ++ r ∧ path'.chars = l ++ slash :: r ∧
    (l = [] ∨ r = [] ∨ l.getLast? = some slash ∨ r.head? = some slash)

/-- What stands between slashes, if anything does. -/
def parts (l : List Byte) : List (List Byte) := (l.splitOn slash).filter (· ≠ [])

theorem parts_append (l r : List Byte) : parts (l ++ slash :: r) = parts l ++ parts r := by
  have hself : (slash == slash) = true := beq_self_eq_true slash
  have hsplit : (l ++ slash :: r).splitOn slash = l.splitOn slash ++ r.splitOn slash :=
    List.splitOnP_append_cons l r hself
  rw [parts, hsplit, List.filter_append]
  rfl

theorem parts_nil : parts [] = [] := rfl

theorem parts_cons_slash (r : List Byte) : parts (slash :: r) = parts r := parts_append [] r

theorem components_of_slashInserted (h : SlashInserted path path') :
    components path' = components path := by
  obtain ⟨l, r, hpath, hpath', hplace⟩ := h
  have hparts : parts (l ++ slash :: r) = parts (l ++ r) := by
    obtain rfl | rfl | hlast | hhead := hplace
    · exact parts_cons_slash r
    · rw [parts_append, parts_nil, List.append_nil, List.append_nil]
    · obtain ⟨l', rfl⟩ := List.getLast?_eq_some_iff.mp hlast
      rw [List.append_assoc, List.append_assoc, List.singleton_append, List.singleton_append,
        parts_append, parts_append, parts_cons_slash]
    · obtain ⟨r', rfl⟩ := List.head?_eq_some_iff.mp hhead
      rw [parts_append, parts_append, parts_cons_slash]
  show (parts path'.chars).map CString.ofList = (parts path.chars).map CString.ofList
  rw [hpath, hpath', hparts]

/-! ## Resolution in a tree -/

/-- Every node that is looked up in is one of the tree, until there is none. -/
theorem walk_reach (h : RamfsTree s root kids) (names : List CString) :
    walk s root names = 0 ∨ Reach kids root (walk s root names) := by
  induction names using List.reverseRecOn with
  | nil => exact Or.inr Reach.root
  | append_singleton names name ih =>
    rw [walk_append]
    show vfsFinddir s (walk s root names) name = 0 ∨ _
    obtain h0 | hreach := ih
    · left
      rw [h0]
      rfl
    · by_cases hdir : (s.nodes (walk s root names)).type &&& vfsDirectory = 0
      · exact Or.inl (vfsFinddir_of_not_dir hdir name)
      · rcases hentry : entry s kids (walk s root names) name with _ | c
        · exact Or.inl ((vfsFinddir_eq_zero_iff h hreach hdir name).mpr hentry)
        · right
          have hfound : walk s (walk s root names) [name] = c := by
            refine (vfsFinddir_eq h hreach hdir name).trans ?_
            rw [hentry]
            rfl
          rw [hfound]
          exact hreach.kid (mem_of_entry hentry).1

/-- The lookup among the children of a node of the tree ends. -/
theorem finddirLoop_isSome (h : RamfsTree s root kids) {d : ℕ} (hd : Reach kids root d)
    (name : CString) : (finddirLoop s name s.created (s.nodes d).children).isSome := by
  rw [finddirLoop_eq (h.links d hd) (h.count d hd)]
  rfl

/-- For every tree of the RAM file system mounted at `/`, every path of at most
    `VFS_PATH_MAX - 2` characters and whatever `pathbuf` held before:
    * `vfs_resolve_path` ends, and returns what looking up the components of the path one
      after the other from the root gives;
    * that is `NULL` if one of them is not found or is looked up in a node that is not a
      directory;
    * a slash more, at the ends of the path or next to another, changes nothing;
    * the lookups on the way end, too. -/
theorem path_resolution_is_walk (v : Vfs τ) (kids : ℕ → List ℕ)
    (htree : RamfsTree v.fs v.vfsRoot kids) (pathbuf : ℕ → Byte) (path : CString)
    (hlen : path.strlen ≤ vfsPathMax - 2) :
    vfsResolvePathBytes v pathbuf (some path) = some (walk v.fs v.vfsRoot (components path)) ∧
    (∀ before name rest, components path = before ++ name :: rest →
      vfsFinddir v.fs (walk v.fs v.vfsRoot before) name = 0 ∨
        (v.fs.nodes (walk v.fs v.vfsRoot before)).type &&& vfsDirectory = 0 →
      vfsResolvePathBytes v pathbuf (some path) = some 0) ∧
    (∀ path', SlashInserted path path' → path'.strlen ≤ vfsPathMax - 2 → ∀ pathbuf',
      vfsResolvePathBytes v pathbuf' (some path') = vfsResolvePathBytes v pathbuf (some path)) ∧
    ∀ before, walk v.fs v.vfsRoot before = 0 ∨ ∀ name, (finddirLoop v.fs name v.fs.created
      (v.fs.nodes (walk v.fs v.vfsRoot before)).children).isSome := by
  have hwalk : ∀ pathbuf path, CString.strlen path ≤ vfsPathMax - 2 →
      vfsResolvePathBytes v pathbuf (some path) = some (walk v.fs v.vfsRoot (components path)) := by
    intro pathbuf path hlen
    have hlt : path.strlen < vfsPathMax - 1 := by
      unfold vfsPathMax at hlen ⊢
      omega
    rw [vfsResolvePathBytes_eq (terminated_strncpy_iff.mpr (Or.inl hlt)), vfsResolvePath_eq v _ hlt]
  refine ⟨hwalk pathbuf path hlen, ?_, ?_, ?_⟩
  · intro before name rest hsplit hfail
    have hnull : vfsFinddir v.fs (walk v.fs v.vfsRoot before) name = 0 :=
      hfail.elim id fun hdir => vfsFinddir_of_not_dir hdir name
    have hstep : walk v.fs v.vfsRoot (before ++ name :: rest) =
        walk v.fs (vfsFinddir v.fs (walk v.fs v.vfsRoot before) name) rest := walk_append _ _ _ _
    rw [hwalk pathbuf path hlen, hsplit, hstep, hnull, walk_zero]
  · intro path' hinserted hlen' pathbuf'
    rw [hwalk pathbuf path hlen, hwalk pathbuf' path' hlen', components_of_slashInserted hinserted]
  · intro before
    refine (walk_reach htree before).imp_right ?_
    intro hreach name
    exact finddirLoop_isSome htree hreach name

/-- The file system with one file, mounted at `/`. -/
def slotVfs : Vfs (ℕ × List ℕ) where
  fs := slotFile
  vfsRoot := (ramfsInit slotHeap slotRamfs).1
  mountList := 0
  mountCount := 0
  mounts := fun _ => ⟨fun _ => 0, fun _ => 0, 0, 0⟩

/-- The file is found under `//a.txt`. -/
theorem path_resolution_is_walk_slots :
    vfsResolvePathBytes slotVfs (fun _ => 7) (some (.lit "//a.txt")) = some 0x40000 := by
  have hops : Meets (fsStep slotHeap) (OnTree (ramfsInit slotHeap slotRamfs).1)
      (ramfsInit slotHeap slotRamfs).2
      [.make (ramfsInit slotHeap slotRamfs).1 (.lit "a.txt") (.create vfsFile)] :=
    ⟨Relation.ReflTransGen.refl, fun _ _ => trivial⟩
  have hrun : run (fsStep slotHeap) (ramfsInit slotHeap slotRamfs).2
      [.make (ramfsInit slotHeap slotRamfs).1 (.lit "a.txt") (.create vfsFile)] = some slotVfs.fs := rfl
  obtain ⟨kids, h⟩ := ramfsInv_run lawful_slotHeap ramfsInit_slotRamfs hops hrun
  have hlen : (CString.lit "//a.txt").strlen ≤ vfsPathMax - 2 := by decide
  rw [(path_resolution_is_walk slotVfs kids h.tree (fun _ => 7) (.lit "//a.txt") hlen).1]
  decide +kernel

end NexusKernel.Fs
