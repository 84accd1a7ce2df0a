import NexusKernel.Fs.HeldBlocks
import NexusKernel.Fs.PathCalls

/-!
# Where the file system writes

A call writes to nodes, file records and file data, and all of them are in blocks that were
live before the call or are live after it.

Results:
* `effect_outside`: what is at any other address is as before.
* `pathCall_calls`, `pathCall_outside`: the same for a call by path.
-/

namespace NexusKernel.Fs

variable {τ : Type} {H : Heap τ} {blocks : τ → ℕ → Option ℕ} {s : Ramfs τ} {root : ℕ}
  {kids kids' : ℕ → List ℕ} {a : ℕ}

/-- The address is in no block that is live at `t` or at `u`, and not the start of one. -/
def Outside (blocks : τ → ℕ → Option ℕ) (t u : τ) (a : ℕ) : Prop :=
  ∀ p n, blocks t p = some n ∨ blocks u p = some n → a ≠ p ∧ (a < p ∨ p + n ≤ a)

/-- What is at the address: the node, the file record and the byte. -/
structure SameAt (s t : Ramfs τ) (a : ℕ) : Prop where
  nodes : t.nodes a = s.nodes a
  files : t.files a = s.files a
  mem : t.mem a = s.mem a

theorem SameAt.setHeap (s : Ramfs τ) (heap : τ) (a : ℕ) : SameAt s { s with heap := heap } a :=
  ⟨rfl, rfl, rfl⟩

section

variable {t u : τ} {p : ℕ}

theorem Outside.ne_before (ha : Outside blocks t u a) (hp : (blocks t p).isSome) : a ≠ p := by
  obtain ⟨n, hn⟩ := Option.isSome_iff_exists.mp hp
  exact (ha p n (Or.inl hn)).1

theorem Outside.ne_after (ha : Outside blocks t u a) (hp : (blocks u p).isSome) : a ≠ p := by
  obtain ⟨n, hn⟩ := Option.isSome_iff_exists.mp hp
  exact (ha p n (Or.inr hn)).1

end

theorem RamfsInv.node_live (h : RamfsInv blocks s root kids) {p : ℕ} (hp : Reach kids root p) :
    (blocks s.heap p).isSome := h.owns.live p hp p List.mem_cons_self

theorem sameAt_addNode {d x : ℕ} {n : VfsNode} {heap : τ} (had : a ≠ d) (hax : a ≠ x)
    (hfile : n.privateData ≠ 0 → a ≠ n.privateData) : SameAt s (s.addNode d x n heap) a := by
  refine ⟨addNode_nodes_other had hax, ?_, rfl⟩
  by_cases h0 : n.privateData = 0
  · exact congrFun (if_pos h0) a
  · exact (congrFun (if_neg h0) a).trans (Function.update_of_ne (hfile h0) _ _)

theorem sameAt_unlinkChild {d prev c : ℕ} (had : a ≠ d) (hprev : prev ≠ 0 → a ≠ prev) :
    SameAt s (unlinkChild s d prev c) a := by
  unfold unlinkChild
  split_ifs with h0
  · exact ⟨Function.update_of_ne (hprev h0) _ _, rfl, rfl⟩
  · exact ⟨Function.update_of_ne had _ _, rfl, rfl⟩

theorem effect_outside {op : FsOp} {r : ℤ × Ramfs τ} (h : RamfsInv blocks s root kids)
    (he : Effect H blocks root s kids op r kids') (ha : Outside blocks s.heap r.2.heap a) :
    SameAt s r.2 a := by
  cases he with
  | fail _ _ => exact SameAt.setHeap s _ a
  | @made d name op x file heap hd hmod habsent hx hx0 hnew =>
    have hlive : ∀ p ∈ newBlocks x file, (blocks heap p).isSome :=
      fun p hp => (hnew.live p).mpr (Or.inr hp)
    refine sameAt_addNode (ha.ne_before (h.node_live hd)) (ha.ne_after (hlive x ?_)) ?_
    · unfold newBlocks
      split_ifs <;> exact List.mem_cons_self
    · rw [privateData_madeNode]
      intro hfile
      refine ha.ne_after (hlive file ?_)
      simp [newBlocks, hfile]
  | @unlinked d name c pre post heap hd hmod hc hkids hfreed =>
    have hsame : SameAt s (unlinkChild s d (pre.getLast?.getD 0) c) a := by
      refine sameAt_unlinkChild (ha.ne_before (h.node_live hd)) ?_
      intro hprev
      -- the sibling before the child is a child of `d`, too
      have hmem : pre.getLast?.getD 0 ∈ pre := by
        cases hlast : pre.getLast? with
        | none =>
          rw [hlast] at hprev
          exact absurd rfl hprev
        | some b => exact List.mem_of_getLast? hlast
      have hkid : pre.getLast?.getD 0 ∈ kids d := by
        rw [hkids]
        exact List.mem_append_left _ hmem
      exact ha.ne_before (h.node_live (hd.kid hkid))
    exact ⟨hsame.nodes, hsame.files, hsame.mem⟩
  | @wrote node offset size buffer f' heap hnode hfile hroom hsize hfits hok hmoved =>
    have hold : (s.fileOf node).size ≤ f'.capacity := hsize ▸ hok.size_le
    refine ⟨written_nodes_other (ha.ne_before (h.node_live hnode)),
      Function.update_of_ne (ha.ne_before (h.record_live hnode hfile)) _ _, ?_⟩
    refine written_other hold hfits ?_
    by_cases hdata : f'.data = 0
    · have hcap := hok.no_data hdata
      omega
    · obtain ⟨n, hn, hlive⟩ := hok.room hdata
      have hapart := (ha f'.data n (Or.inr hlive)).2
      omega

section

variable {v : Vfs τ} {c : PathCall}

/-- A call by path does nothing, or has the effect of a call on a node. -/
theorem pathCall_effect (hH : H.Lawful blocks) (h : DirInv blocks v.vfsRoot v.fs) (hc : c.Valid) :
    (pathCall H v c).2 = v ∨ ∃ kids kids' op r, RamfsInv blocks v.fs v.vfsRoot kids ∧
      Effect H blocks v.vfsRoot v.fs kids op r kids' ∧ (pathCall H v c).2 = { v with fs := r.2 } := by
  obtain ⟨kids, hinv, -⟩ := h
  obtain ⟨hnode, -⟩ | ⟨d, hnode, -, hfollow⟩ := resolve_cases hinv.tree hc.1
  · left
    rw [pathCall, PathCall.node, hnode, fsCall_zero]
  · right
    have hd : InTree v.fs v.vfsRoot d :=
      (inTree_iff_reach hinv.tree).mpr (reach_of_follow hinv.tree hfollow)
    obtain ⟨kids', he⟩ := effect_fsCall hH hinv (onTree_of_valid hd hc.2)
    refine ⟨kids, kids', _, _, hinv, he, ?_⟩
    rw [pathCall, PathCall.node, hnode]

theorem pathCall_calls (hH : H.Lawful blocks) (h : DirInv blocks v.vfsRoot v.fs) (hc : c.Valid) :
    H.Calls blocks v.fs.heap (pathCall H v c).2.fs.heap := by
  obtain hsame | ⟨kids, kids', op, r, -, he, hr⟩ := pathCall_effect hH h hc
  · rw [hsame]
    exact .refl
  · rw [hr]
    exact effect_calls he

theorem pathCall_outside (hH : H.Lawful blocks) (h : DirInv blocks v.vfsRoot v.fs) (hc : c.Valid)
    (ha : Outside blocks v.fs.heap (pathCall H v c).2.fs.heap a) :
    SameAt v.fs (pathCall H v c).2.fs a := by
  obtain hsame | ⟨kids, kids', op, r, hinv, he, hr⟩ := pathCall_effect hH h hc
  · rw [hsame]
    exact ⟨rfl, rfl, rfl⟩
  · rw [hr] at ha ⊢
    exact effect_outside hinv he ha

end

/-- The file system boots with two allocations. -/
theorem vfsBoot_calls {v : Vfs τ} (hboot : (vfsBoot H v s).1 = 0) :
    H.Calls blocks s.heap (vfsBoot H v s).2.fs.heap := by
  obtain ⟨hroot, -, hfs⟩ := vfsBoot_of_success hboot
  rw [hfs, ramfsInit_of_room (mt ramfsInit_eq_zero_iff.mpr hroot)]
  exact .tail (.tail .refl (Or.inl ⟨_, rfl⟩)) (Or.inl ⟨_, rfl⟩)

end NexusKernel.Fs
