import NexusKernel.Fs.PathBuffer
import NexusKernel.Process.Process

/-!
# Strings copied into fields of fixed size

Five places copy a caller's string with `strncpy`, giving it the size of the field less
one: the name in `ramfs_create_node`, the name in `process_create`, the path and the type
in `vfs_mount`, and `pathbuf` in `vfs_resolve_path`. The first two have cleared the record
before. The others have not, and a string that fills the field leaves its last byte as
the heap or the stack had it.

Results:
* `bufferSafe_strncpy_iff`: when a copy can be read safely afterwards.
* `string_fields_terminated_iff`: that for the five places.
* `unterminated_fields`: a mount and a lookup of a path of 1023 characters.
-/

namespace NexusKernel

open Fs Process

variable {a dest : ℕ → Byte} {size n : ℕ} {s : CString}

/-- After a copy the array of `size` bytes ends in a zero, no byte outside has changed, and
    `strlen`, `strchr` and `strcmp` stay inside. -/
structure BufferSafe (before after : ℕ → Byte) (size : ℕ) : Prop where
  terminated : Terminated after size
  outside : ∀ x, size ≤ x → after x = before x
  strlen : (strlenIn after size 0).isSome
  strchr : ∀ c, (strchrIn after size c 0).isSome
  strcmp : ∀ t, (strcmpIn after size t).isSome

theorem strchrFrom_isSome {c : Byte} {room i : ℕ} (h : ∃ k < room, a (i + k) = 0) :
    (strchrFrom a c room i).isSome := by
  induction room generalizing i with
  | zero =>
    obtain ⟨k, hk, -⟩ := h
    exact absurd hk (Nat.not_lt_zero k)
  | succ room ih =>
    rw [strchrFrom]
    split_ifs with hzero
    · rfl
    · rfl
    · rfl
    · obtain ⟨k, hk, hk0⟩ := h
      have hpos : k ≠ 0 := by
        rintro rfl
        exact hzero hk0
      refine ih ⟨k - 1, by omega, ?_⟩
      have hshift : i + 1 + (k - 1) = i + k := by omega
      rw [hshift, hk0]

/-- A search that meets neither the character nor a zero leaves the array. -/
theorem strchrFrom_eq_none {c : Byte} {room i : ℕ}
    (h : ∀ k < room, a (i + k) ≠ 0 ∧ a (i + k) ≠ c) : strchrFrom a c room i = none := by
  induction room generalizing i with
  | zero => rfl
  | succ room ih =>
    have hfirst : a i ≠ 0 ∧ a i ≠ c := h 0 (Nat.succ_pos _)
    rw [strchrFrom, if_neg hfirst.1, if_neg hfirst.2]
    apply ih
    intro k hk
    rw [Nat.add_assoc, Nat.add_comm 1 k]
    exact h (k + 1) (by omega)

theorem bufferSafe_strncpy_iff :
    BufferSafe dest (strncpy dest s.bytes n) (n + 1) ↔ s.strlen < n ∨ dest n = 0 := by
  rw [← terminated_strncpy_iff]
  refine ⟨fun h => h.terminated, ?_⟩
  intro hterm
  refine ⟨hterm, fun x hx => strncpy_outside hx, ?_, ?_, ?_⟩
  · rw [hterm.holdsAt.strlenIn]
    rfl
  · intro c
    obtain ⟨k, hk, hk0⟩ := hterm
    refine strchrFrom_isSome ⟨k, hk, ?_⟩
    rw [Nat.zero_add]
    exact hk0
  · intro t
    rw [hterm.holdsAt.strcmpIn]
    rfl

/-- For strings of every length and whatever was in memory: the names of nodes and
    processes are safe to read after the copy; the path and the type of a mount and the
    buffer of `vfs_resolve_path` are iff the string is shorter than the field less one or
    the last byte of the field was zero. The lookup then stays in its buffer. -/
theorem string_fields_terminated_iff (τ σ : Type) :
    (∀ name type inode, BufferSafe (fun _ => 0) (newNode name type inode).name vfsNameMax) ∧
    (∀ (sys : Sys σ) pid (name : CString) priority,
      BufferSafe (fun _ => 0) (newProc sys pid name.bytes priority).name processNameMax) ∧
    (∀ (v : Vfs τ) mount path fsType root,
      (BufferSafe (v.mounts mount).path ((pushMount v mount path fsType root).mounts mount).path
        vfsPathMax ↔ path.strlen < vfsPathMax - 1 ∨ (v.mounts mount).path (vfsPathMax - 1) = 0) ∧
      (BufferSafe (v.mounts mount).fsType ((pushMount v mount path fsType root).mounts mount).fsType
        32 ↔ fsType.strlen < 31 ∨ (v.mounts mount).fsType 31 = 0)) ∧
    ∀ (v : Vfs τ) pathbuf path,
      (BufferSafe pathbuf (strncpy pathbuf path.bytes (vfsPathMax - 1)) vfsPathMax ↔
        path.strlen < vfsPathMax - 1 ∨ pathbuf (vfsPathMax - 1) = 0) ∧
      (path.strlen < vfsPathMax - 1 ∨ pathbuf (vfsPathMax - 1) = 0 →
        (vfsResolvePathBytes v pathbuf (some path)).isSome) := by
  refine ⟨?_, ?_, ?_, ?_⟩
  · intro name type inode
    exact bufferSafe_strncpy_iff.mpr (Or.inr rfl)
  · intro sys pid name priority
    exact bufferSafe_strncpy_iff.mpr (Or.inr rfl)
  · intro v mount path fsType root
    simp only [pushMount, Function.update_self]
    exact ⟨bufferSafe_strncpy_iff, bufferSafe_strncpy_iff⟩
  · intro v pathbuf path
    refine ⟨bufferSafe_strncpy_iff, ?_⟩
    intro hsafe
    rw [vfsResolvePathBytes_eq (terminated_strncpy_iff.mpr hsafe)]
    rfl

/-- A path of 1023 characters. -/
def longPath : CString :=
  ⟨List.replicate 1023 0x61, fun h => absurd (List.eq_of_mem_replicate h) (by decide)⟩

theorem strlen_longPath : longPath.strlen = 1023 := List.length_replicate

/-- Mounting under this path in a block that held other characters leaves `mount->path`
    without a terminator; looking it up with a `pathbuf` that held other characters
    reads beyond the buffer. -/
theorem unterminated_fields :
    (∀ v : Vfs (ℕ × List ℕ), (v.mounts 0x1000).path 1023 = 0x62 →
      ¬ Terminated ((pushMount v 0x1000 longPath (.lit "ramfs") 0x2000).mounts 0x1000).path
        vfsPathMax) ∧
    vfsResolvePathBytes slotVfs (fun _ => 0x62) (some longPath) = none := by
  refine ⟨?_, ?_⟩
  · intro v hlast
    simp only [pushMount, Function.update_self]
    refine mt terminated_strncpy_iff.mp ?_
    rw [strlen_longPath, vfsPathMax, hlast]
    decide
  · have hbyte : ∀ k < vfsPathMax, strncpy (fun _ => 0x62) longPath.bytes (vfsPathMax - 1) k ≠ 0 ∧
        strncpy (fun _ => 0x62) longPath.bytes (vfsPathMax - 1) k ≠ slash := by
      intro k hk
      rw [strncpy, strncpyFrom_apply (Nat.zero_le _), strlen_longPath]
      unfold vfsPathMax at hk ⊢
      split_ifs with hin
      · have hlt : k < longPath.strlen := by
          rw [strlen_longPath]
          omega
        have hchar : longPath.bytes k = 0x61 := by
          rw [CString.bytes_of_lt hlt, List.get_eq_getElem]
          exact List.getElem_replicate _
        rw [hchar]
        decide
      · decide
    have hroot : slotVfs.vfsRoot ≠ 0 := ramfsInit_slotRamfs
    have hslash : strcmp longPath (.lit "/") ≠ 0 := by
      rw [ne_eq, strcmp_eq_zero_iff]
      intro he
      have hlen := congrArg CString.strlen he
      rw [strlen_longPath] at hlen
      exact absurd hlen (by decide)
    have hfirst := hbyte 0 (by decide)
    rw [vfsResolvePathBytes, if_neg hroot, if_neg hslash]
    simp only [if_neg hfirst.2]
    rw [resolveBytes, if_neg (by decide), if_neg (not_or.mpr ⟨hfirst.1, hroot⟩)]
    have hsearch : strchrIn (strncpy (fun _ => 0x62) longPath.bytes (vfsPathMax - 1)) vfsPathMax
        slash 0 = none := by
      refine strchrFrom_eq_none ?_
      intro k hk
      rw [Nat.zero_add]
      exact hbyte k hk
    rw [hsearch]
    rfl

end NexusKernel
