import NexusKernel.Common.Chain
import NexusKernel.Common.Tree
import NexusKernel.Fs.Vfs

/-!
# The directory tree in the links of the nodes

`children` and `next_sibling` of the nodes below the root represent a tree: the
children of a node are the list that starts at `children`, and `parent` leads back.

Results:
* `inTree_iff_reach`: the nodes that the pointers lead to are those of the tree.
* `finddirLoop_eq`, `readdirLoop_eq`, `unlinkLoop_of_find`, `unlinkLoop_of_find_none`:
  what the loops over a list of children return.
* `ramfsTree_addNode`, `ramfsTree_unlinkChild`: a node linked as first child, and a
  child unlinked.
-/

namespace NexusKernel.Fs

variable {τ : Type} {s t : Ramfs τ} {root : ℕ} {kids : ℕ → List ℕ}

/-! ## Nodes that the pointers lead to -/

/-- `b` is the first child or the next sibling of `a`. -/
def PointsTo (s : Ramfs τ) (a b : ℕ) : Prop :=
  b ≠ 0 ∧ (b = (s.nodes a).children ∨ b = (s.nodes a).nextSibling)

/-- The pointers `children` and `next_sibling` lead from the root to `a`. -/
def InTree (s : Ramfs τ) (root a : ℕ) : Prop := Relation.ReflTransGen (PointsTo s) root a

/-! ## The tree they represent -/

/-- Two nodes are the same as far as the tree goes: in what is not changed by writing
    to a file. -/
structure SameShape (m n : VfsNode) : Prop where
  name : m.name = n.name
  type : m.type = n.type
  parent : m.parent = n.parent
  children : m.children = n.children
  nextSibling : m.nextSibling = n.nextSibling
  ops : m.ops = n.ops
  privateData : m.privateData = n.privateData

theorem SameShape.refl (n : VfsNode) : SameShape n n := ⟨rfl, rfl, rfl, rfl, rfl, rfl, rfl⟩

/-- The nodes below the root represent the tree with the children `kids`. -/
structure RamfsTree (s : Ramfs τ) (root : ℕ) (kids : ℕ → List ℕ) : Prop where
  tree : IsTree kids root
  root_ne_zero : root ≠ 0
  root_parent : (s.nodes root).parent = 0
  root_sibling : (s.nodes root).nextSibling = 0
  links : ∀ a, Reach kids root a →
    Links (fun p => (s.nodes p).nextSibling) (s.nodes a).children (kids a) 0
  parent_eq : ∀ a, Reach kids root a → ∀ c ∈ kids a, (s.nodes c).parent = a
  count : ∀ a, Reach kids root a → (kids a).length ≤ s.created
  ops_some : ∀ a, Reach kids root a → (s.nodes a).ops ≠ none
  dir_type : ∀ a, Reach kids root a → s.modifies a = true →
    (s.nodes a).type &&& vfsDirectory ≠ 0

theorem RamfsTree.ne_zero (h : RamfsTree s root kids) {a : ℕ} (ha : Reach kids root a) :
    a ≠ 0 := by
  cases ha with
  | root => exact h.root_ne_zero
  | kid hb hmem => exact (h.links _ hb).ne_zero a hmem

/-- Only the shape of the nodes below the root matters. -/
theorem RamfsTree.congr (h : RamfsTree s root kids)
    (hshape : ∀ a, Reach kids root a → SameShape (t.nodes a) (s.nodes a))
    (hcount : s.created ≤ t.created) : RamfsTree t root kids where
  tree := h.tree
  root_ne_zero := h.root_ne_zero
  root_parent := (hshape root Reach.root).parent.trans h.root_parent
  root_sibling := (hshape root Reach.root).nextSibling.trans h.root_sibling
  links := by
    intro a ha
    rw [(hshape a ha).children]
    apply (h.links a ha).congr
    intro c hc
    exact (hshape c (ha.kid hc)).nextSibling
  parent_eq := by
    intro a ha c hc
    exact (hshape c (ha.kid hc)).parent.trans (h.parent_eq a ha c hc)
  count := fun a ha => (h.count a ha).trans hcount
  ops_some := by
    intro a ha
    rw [(hshape a ha).ops]
    exact h.ops_some a ha
  dir_type := by
    intro a ha hmod
    rw [(hshape a ha).type]
    refine h.dir_type a ha ?_
    rwa [Ramfs.modifies, (hshape a ha).ops] at hmod

/-! ## Pointers and tree -/

/-- Every node of a list is led to if its start is. -/
theorem inTree_of_links {h : ℕ} {l : List ℕ}
    (hl : Links (fun p => (s.nodes p).nextSibling) h l 0) (hh : h ≠ 0 → InTree s root h) :
    ∀ c ∈ l, InTree s root c := by
  induction l generalizing h with
  | nil => exact fun c hc => absurd hc List.not_mem_nil
  | cons a l ih =>
    obtain ⟨rfl, h0, hl⟩ := hl
    refine List.forall_mem_cons.mpr ⟨hh h0, ih hl ?_⟩
    intro hnext
    exact (hh h0).tail ⟨hnext, Or.inr rfl⟩

/-- The next sibling of a node of a list is on the list. -/
theorem mem_of_links_next {h : ℕ} {l : List ℕ}
    (hl : Links (fun p => (s.nodes p).nextSibling) h l 0) {a : ℕ} (ha : a ∈ l)
    (hnext : (s.nodes a).nextSibling ≠ 0) : (s.nodes a).nextSibling ∈ l := by
  obtain ⟨pre, post, rfl⟩ := List.append_of_mem ha
  obtain ⟨m, -, -, -, hpost⟩ := links_append.mp hl
  cases post with
  | nil => exact absurd hpost hnext
  | cons b post =>
    have hb : (s.nodes a).nextSibling = b := hpost.1
    rw [hb]
    simp

/-- The pointers lead to exactly the nodes of the tree. -/
theorem inTree_iff_reach (h : RamfsTree s root kids) {a : ℕ} :
    InTree s root a ↔ Reach kids root a := by
  constructor
  · intro ha
    induction ha with
    | refl => exact Reach.root
    | @tail b c _ hbc ih =>
      obtain ⟨h0, rfl | rfl⟩ := hbc
      · -- the first child
        have hl := h.links b ih
        rcases hkids : kids b with _ | ⟨c, l⟩
        · rw [hkids] at hl
          exact absurd hl h0
        · rw [hkids] at hl
          refine ih.kid ?_
          rw [hkids, hl.1]
          exact List.mem_cons_self
      · -- the next sibling of a child
        cases ih with
        | root => exact absurd h.root_sibling h0
        | kid hp hmem => exact hp.kid (mem_of_links_next (h.links _ hp) hmem h0)
  · intro ha
    induction ha with
    | root => exact Relation.ReflTransGen.refl
    | kid hb hc ih =>
      refine inTree_of_links (h.links _ hb) ?_ _ hc
      intro h0
      exact ih.tail ⟨h0, Or.inl rfl⟩

/-! ## Loops over the children -/

section

variable {h fuel : ℕ} {l : List ℕ} {name : CString}

theorem finddirLoop_eq_search (prev : ℕ) : finddirLoop s name fuel h =
    (search (fun p => (s.nodes p).nextSibling) (fun c => strcmp (s.nameOf c) name = 0) fuel prev
      h).map Prod.snd := by
  induction fuel generalizing prev h with
  | zero => simp only [finddirLoop, search]; split_ifs <;> rfl
  | succ fuel ih =>
    simp only [finddirLoop, search, decide_eq_true_eq]
    split_ifs
    · rfl
    · rfl
    · exact ih h

/-- The lookup loop ends, with the first child of that name. -/
theorem finddirLoop_eq (hl : Links (fun p => (s.nodes p).nextSibling) h l 0)
    (hfuel : l.length ≤ fuel) :
    finddirLoop s name fuel h = some ((l.find? fun c => s.nameOf c = name).getD 0) := by
  rw [finddirLoop_eq_search 0, search_snd 0 hl hfuel]
  simp only [strcmp_eq_zero_iff]

/-- The loop of `ramfs_readdir` ends, with the child of that index. -/
theorem readdirLoop_eq {index i : ℕ} (hl : Links (fun p => (s.nodes p).nextSibling) h l 0)
    (hfuel : l.length ≤ fuel) (hi : i ≤ index) (hindex : index < 2 ^ 32) :
    readdirLoop s index fuel h i = some (l.getD (index - i) 0) := by
  induction l generalizing h fuel i with
  | nil =>
    obtain rfl : h = 0 := hl
    cases fuel <;> simp [readdirLoop]
  | cons c l ih =>
    obtain ⟨rfl, h0, hl⟩ := hl
    obtain ⟨fuel, rfl⟩ : ∃ n, fuel = n + 1 := ⟨fuel - 1, by simp at hfuel; omega⟩
    rw [readdirLoop, if_neg h0]
    by_cases hat : i = index
    · rw [if_pos hat, hat, Nat.sub_self, List.getD_cons_zero]
    · -- the count has not reached the index, so it does not wrap around
      rw [if_neg hat, u32_of_lt (by omega), ih hl (by simpa using hfuel) (by omega),
        show index - i = index - (i + 1) + 1 by omega, List.getD_cons_succ]

theorem unlinkLoop_eq_search (prev : ℕ) : unlinkLoop s name fuel prev h =
    search (fun p => (s.nodes p).nextSibling) (fun c => strcmp (s.nameOf c) name = 0) fuel prev
      h := by
  induction fuel generalizing prev h with
  | zero => rfl
  | succ fuel ih => simp only [unlinkLoop, search, ih, decide_eq_true_eq]

/-- The loop of `ramfs_do_unlink` stops at the first child of that name, with the
    child before it. -/
theorem unlinkLoop_of_find (prev : ℕ) {c : ℕ} {pre post : List ℕ}
    (hl : Links (fun p => (s.nodes p).nextSibling) h (pre ++ c :: post) 0)
    (hfuel : (pre ++ c :: post).length ≤ fuel) (hpre : ∀ a ∈ pre, s.nameOf a ≠ name)
    (hc : s.nameOf c = name) :
    unlinkLoop s name fuel prev h = some (pre.getLast?.getD prev, c) := by
  rw [unlinkLoop_eq_search]
  apply search_of_split prev hl hfuel
  · simpa only [strcmp_eq_zero_iff, decide_eq_false_iff_not] using hpre
  · simpa only [strcmp_eq_zero_iff, decide_eq_true_eq] using hc

/-- Without such a child the loop runs to the end of the list. -/
theorem unlinkLoop_of_find_none (prev : ℕ)
    (hl : Links (fun p => (s.nodes p).nextSibling) h l 0) (hfuel : l.length ≤ fuel)
    (hnone : ∀ a ∈ l, s.nameOf a ≠ name) : ∃ p, unlinkLoop s name fuel prev h = some (p, 0) := by
  rw [unlinkLoop_eq_search]
  apply search_of_none prev hl hfuel
  simpa only [strcmp_eq_zero_iff, decide_eq_false_iff_not] using hnone

end

/-! ## A new node -/

/-- The node `n` at `x`, first among the children of `d`; if it has a file record, that
    is empty. -/
def Ramfs.addNode (s : Ramfs τ) (d x : ℕ) (n : VfsNode) (heap : τ) : Ramfs τ where
  nodes := Function.update (Function.update s.nodes x n) d { s.nodes d with children := x }
  files := if n.privateData = 0 then s.files else Function.update s.files n.privateData ⟨0, 0, 0⟩
  mem := s.mem
  created := s.created + 1
  heap := heap

section

variable {d x : ℕ} {n : VfsNode} {heap : τ}

theorem addNode_nodes_dir :
    (s.addNode d x n heap).nodes d = { s.nodes d with children := x } := Function.update_self _ _ _

theorem addNode_nodes_new (hxd : x ≠ d) : (s.addNode d x n heap).nodes x = n :=
  (Function.update_of_ne hxd _ _).trans (Function.update_self _ _ _)

theorem addNode_nodes_other {a : ℕ} (had : a ≠ d) (hax : a ≠ x) :
    (s.addNode d x n heap).nodes a = s.nodes a :=
  (Function.update_of_ne had _ _).trans (Function.update_of_ne hax _ _)

/-- The other nodes change at most in their first child. -/
theorem addNode_nodes_old {a : ℕ} (hax : a ≠ x) :
    (s.addNode d x n heap).nodes a =
      { s.nodes a with children := if a = d then x else (s.nodes a).children } := by
  by_cases had : a = d
  · rw [had, addNode_nodes_dir, if_pos rfl]
  · rw [addNode_nodes_other had hax, if_neg had]

/-- What the new node has to say for itself. -/
structure FreshNode (s : Ramfs τ) (d : ℕ) (n : VfsNode) : Prop where
  size : n.size = 0
  parent : n.parent = d
  children : n.children = 0
  nextSibling : n.nextSibling = (s.nodes d).children
  ops_some : n.ops ≠ none
  dir_type : n.ops.any VfsOps.modifies = true → n.type &&& vfsDirectory ≠ 0

/-- The lists of children once `x` is the first child of `d`. -/
theorem links_addNode (h : RamfsTree s root kids) (hd : Reach kids root d)
    (hx : ¬ Reach kids root x) (hx0 : x ≠ 0) (hn : FreshNode s d n) {a : ℕ}
    (ha : Reach (insertKid kids d x) root a) :
    Links (fun p => ((s.addNode d x n heap).nodes p).nextSibling)
      ((s.addNode d x n heap).nodes a).children (insertKid kids d x a) 0 := by
  have hins := inserted_insertKid hd hx
  have hne : ∀ {b}, Reach kids root b → b ≠ x := by
    rintro b hb rfl
    exact hx hb
  have hxd : x ≠ d := (hne hd).symm
  obtain ha | rfl := (reach_insert hins).mp ha
  · have hlinks : Links (fun p => ((s.addNode d x n heap).nodes p).nextSibling)
        (s.nodes a).children (kids a) 0 := by
      apply (h.links a ha).congr
      intro c hc
      rw [addNode_nodes_old (hne (ha.kid hc))]
    by_cases had : a = d
    · subst had
      rw [hins.kids_dir, addNode_nodes_dir]
      refine ⟨rfl, hx0, ?_⟩
      show Links _ ((s.addNode a x n heap).nodes x).nextSibling (kids a) 0
      rw [addNode_nodes_new hxd, hn.nextSibling]
      exact hlinks
    · rw [hins.kids_other a ha had, addNode_nodes_other had (hne ha)]
      exact hlinks
  · rw [hins.kids_new, addNode_nodes_new hxd]
    exact hn.children

theorem ramfsTree_addNode (h : RamfsTree s root kids) (hd : Reach kids root d)
    (hx : ¬ Reach kids root x) (hx0 : x ≠ 0) (hn : FreshNode s d n) :
    RamfsTree (s.addNode d x n heap) root (insertKid kids d x) := by
  have hins := inserted_insertKid hd hx
  have hne : ∀ {a}, Reach kids root a → a ≠ x := by
    rintro a ha rfl
    exact hx ha
  have hxd : x ≠ d := (hne hd).symm
  refine ⟨isTree_insert h.tree hins, h.root_ne_zero, ?_, ?_,
    fun a ha => links_addNode h hd hx hx0 hn ha, ?_, ?_, ?_, ?_⟩
  · rw [addNode_nodes_old (hne Reach.root)]
    exact h.root_parent
  · rw [addNode_nodes_old (hne Reach.root)]
    exact h.root_sibling
  · intro a ha c hc
    obtain ⟨rfl, rfl⟩ | ⟨ha, hc⟩ := hins.mem_kids ha hc
    · rw [addNode_nodes_new hxd, hn.parent]
    · rw [addNode_nodes_old (hne (ha.kid hc))]
      exact h.parent_eq a ha c hc
  · intro a ha
    show _ ≤ s.created + 1
    obtain ha | rfl := (reach_insert hins).mp ha
    · have hcount := h.count a ha
      by_cases had : a = d
      · subst had
        rw [hins.kids_dir, List.length_cons]
        omega
      · rw [hins.kids_other a ha had]
        omega
    · rw [hins.kids_new]
      exact Nat.zero_le _
  · intro a ha
    obtain ha | rfl := (reach_insert hins).mp ha
    · rw [addNode_nodes_old (hne ha)]
      exact h.ops_some a ha
    · rw [addNode_nodes_new hxd]
      exact hn.ops_some
  · intro a ha hmod
    obtain ha | rfl := (reach_insert hins).mp ha
    · rw [Ramfs.modifies, addNode_nodes_old (hne ha)] at hmod
      rw [addNode_nodes_old (hne ha)]
      exact h.dir_type a ha hmod
    · rw [Ramfs.modifies, addNode_nodes_new hxd] at hmod
      rw [addNode_nodes_new hxd]
      exact hn.dir_type hmod

end

/-! ## A child unlinked -/

section

variable {d c : ℕ} {pre post : List ℕ}

/-- Unlinking changes a first child or a next sibling and nothing else. -/
theorem unlinkChild_nodes (s : Ramfs τ) (d prev c a : ℕ) :
    (unlinkChild s d prev c).nodes a = { s.nodes a with
      children := if prev = 0 ∧ a = d then (s.nodes c).nextSibling else (s.nodes a).children,
      nextSibling :=
        if prev ≠ 0 ∧ a = prev then (s.nodes c).nextSibling else (s.nodes a).nextSibling } := by
  unfold unlinkChild
  by_cases hprev : prev = 0
  · rw [if_neg (not_not.mpr hprev)]
    by_cases had : a = d
    · subst had
      simp [Ramfs.setNode, hprev]
    · simp [Ramfs.setNode, hprev, had]
  · rw [if_pos hprev]
    by_cases hap : a = prev
    · subst hap
      simp [Ramfs.setNode, hprev]
    · simp [Ramfs.setNode, hprev, hap]

/-- The lists of children after the unlinking. -/
theorem links_unlinkChild (h : RamfsTree s root kids) (hd : Reach kids root d)
    (hkids : kids d = pre ++ c :: post) {a : ℕ} (ha : Reach kids root a) :
    Links (fun p => ((unlinkChild s d (pre.getLast?.getD 0) c).nodes p).nextSibling)
      ((unlinkChild s d (pre.getLast?.getD 0) c).nodes a).children (removeKid kids d c a) 0 := by
  have hnodup := h.tree.nodup d hd
  have hlinks := h.links d hd
  rw [hkids] at hnodup hlinks
  have hkeep : a ≠ d → removeKid kids d c a = kids a := fun had => Function.update_of_ne had _ _
  have herase : removeKid kids d c d = pre ++ post := by
    rw [removeKid, Function.update_self, hkids, erase_middle hnodup]
  obtain rfl | ⟨l, p, rfl⟩ := List.eq_nil_or_concat' pre
  · -- the first child: only `children` of `d` changes
    have hnext : (fun p => ((unlinkChild s d 0 c).nodes p).nextSibling) =
        fun p => (s.nodes p).nextSibling := by
      funext p
      simp [unlinkChild_nodes]
    rw [List.getLast?_nil, Option.getD_none, hnext, unlinkChild_nodes]
    by_cases had : a = d
    · subst had
      rw [herase]
      simpa using hlinks.2.2
    · rw [hkeep had]
      simpa [had] using h.links a ha
  · -- a later one: only `next_sibling` of the child before it changes
    have hp0 : p ≠ 0 := hlinks.ne_zero p (by simp)
    have hpd : p ∈ kids d := by simp [hkids]
    have hnext : (fun q => ((unlinkChild s d p c).nodes q).nextSibling) =
        Function.update (fun q => (s.nodes q).nextSibling) p (s.nodes c).nextSibling := by
      funext q
      simp [unlinkChild_nodes, hp0, Function.update_apply]
    have hchildren : ((unlinkChild s d p c).nodes a).children = (s.nodes a).children := by
      simp [unlinkChild_nodes, hp0]
    rw [List.getLast?_concat, Option.getD_some, hnext, hchildren]
    by_cases had : a = d
    · subst had
      rw [herase, List.append_assoc]
      rw [List.append_assoc] at hlinks hnodup
      have hp := List.nodup_append.mp hnodup
      refine links_remove hlinks ?_ ?_
      · intro hpl
        exact List.disjoint_of_nodup_append hnodup hpl (by simp)
      · intro hpp
        exact (List.nodup_cons.mp hp.2.1).1 (List.mem_cons_of_mem _ hpp)
    · rw [hkeep had]
      refine (h.links a ha).update ?_
      intro hpa
      exact had (h.tree.parent_unique a d p ha hd hpa hpd)

theorem ramfsTree_unlinkChild (h : RamfsTree s root kids) (hd : Reach kids root d)
    (hkids : kids d = pre ++ c :: post) :
    RamfsTree (unlinkChild s d (pre.getLast?.getD 0) c) root (removeKid kids d c) := by
  have hmem : c ∈ kids d := by simp [hkids]
  have hrem := removed_removeKid hd hmem
  refine ⟨isTree_remove h.tree hrem, h.root_ne_zero, ?_, ?_, ?_, ?_, ?_, ?_, ?_⟩
  · rw [unlinkChild_nodes]
    exact h.root_parent
  · -- the root is nobody's child, so it is not the one before `c`
    rw [unlinkChild_nodes]
    refine (if_neg ?_).trans h.root_sibling
    rintro ⟨hprev, hroot⟩
    refine h.tree.root_not_kid d hd ?_
    rcases hlast : pre.getLast? with _ | p
    · rw [hlast] at hprev
      exact absurd rfl hprev
    · rw [hroot, hlast, hkids]
      exact List.mem_append_left _ (List.mem_of_getLast? hlast)
  · intro a ha
    exact links_unlinkChild h hd hkids (hrem.reach ha)
  · intro a ha e he
    rw [unlinkChild_nodes]
    exact h.parent_eq a (hrem.reach ha) e (hrem.subset (hrem.reach ha) he)
  · intro a ha
    have hlength : (removeKid kids d c a).length ≤ (kids a).length := by
      by_cases had : a = d
      · subst had
        rw [hrem.kids_dir]
        exact List.length_erase_le
      · rw [hrem.kids_other a (hrem.reach ha) had]
    have hcreated : (unlinkChild s d (pre.getLast?.getD 0) c).created = s.created := by
      unfold unlinkChild
      split_ifs <;> rfl
    rw [hcreated]
    exact hlength.trans (h.count a (hrem.reach ha))
  · intro a ha
    rw [unlinkChild_nodes]
    exact h.ops_some a (hrem.reach ha)
  · intro a ha hmod
    rw [Ramfs.modifies, unlinkChild_nodes] at hmod
    rw [unlinkChild_nodes]
    exact h.dir_type a (hrem.reach ha) hmod

end

end NexusKernel.Fs
