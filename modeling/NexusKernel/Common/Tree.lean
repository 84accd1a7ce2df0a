import Mathlib

/-!
# Trees given by their lists of children

`kids a` lists the children of the node `a`. Only the nodes below the root matter:
whatever `kids` says of others is not part of the tree.

* `reach_insert`, `isTree_insert`: a node that is not in the tree becomes a child.
* `reach_remove`, `isTree_remove`: a child is taken out, and with it exactly the
  nodes below it.
-/

namespace NexusKernel

variable {α : Type} {kids kids' : α → List α} {root : α}

/-- `a` is the root or below it. -/
inductive Reach (kids : α → List α) (root : α) : α → Prop
  | root : Reach kids root root
  | kid {a c : α} : Reach kids root a → c ∈ kids a → Reach kids root c

/-- The nodes below the root are finitely many, and each but the root, which has
    none, has one parent and one place among its children. -/
structure IsTree (kids : α → List α) (root : α) : Prop where
  finite : { a | Reach kids root a }.Finite
  nodup : ∀ a, Reach kids root a → (kids a).Nodup
  parent_unique : ∀ a b c, Reach kids root a → Reach kids root b → c ∈ kids a → c ∈ kids b → a = b
  root_not_kid : ∀ a, Reach kids root a → root ∉ kids a

theorem Reach.trans {a b : α} (ha : Reach kids root a) (hb : Reach kids a b) :
    Reach kids root b := by
  induction hb with
  | root => exact ha
  | kid _ hc ih => exact ih.kid hc

/-- A node without children has nothing below it. -/
theorem reach_leaf_iff {c a : α} (hc : kids c = []) : Reach kids c a ↔ a = c := by
  constructor
  · intro h
    induction h with
    | root => rfl
    | kid _ hmem ih =>
      rw [ih, hc] at hmem
      exact absurd hmem List.not_mem_nil
  · intro h
    rw [h]
    exact Reach.root

/-- The root alone. -/
theorem isTree_singleton (hroot : kids root = []) : IsTree kids root where
  finite := by
    refine (Set.finite_singleton root).subset ?_
    intro a ha
    exact (reach_leaf_iff hroot).mp ha
  nodup := by
    intro a ha
    rw [(reach_leaf_iff hroot).mp ha, hroot]
    exact List.nodup_nil
  parent_unique := by
    intro a b c ha hb _ _
    rw [(reach_leaf_iff hroot).mp ha, (reach_leaf_iff hroot).mp hb]
  root_not_kid := by
    intro a ha
    rw [(reach_leaf_iff hroot).mp ha, hroot]
    exact List.not_mem_nil

/-- Nothing above a child is below it. -/
theorem IsTree.not_reach_root (ht : IsTree kids root) {c d : α} (hd : Reach kids root d)
    (hc : c ∈ kids d) :
    ¬ Reach kids c root := by
  intro h
  obtain hroot | ⟨hb, hmem⟩ := h
  · exact ht.root_not_kid d hd hc
  · exact ht.root_not_kid _ ((hd.kid hc).trans hb) hmem

/-- No node is its own child. -/
theorem IsTree.not_mem_self (ht : IsTree kids root) {a : α} (ha : Reach kids root a) : a ∉ kids a := by
  induction ha with
  | root => exact ht.root_not_kid root Reach.root
  | @kid b c hb hc ih =>
    intro hmem
    obtain rfl := ht.parent_unique b c c hb (hb.kid hc) hc hmem
    exact ih hc

/-- No node is below its child. -/
theorem IsTree.not_reach_kid (ht : IsTree kids root) {c d : α} (hd : Reach kids root d)
    (hc : c ∈ kids d) : ¬ Reach kids c d := by
  induction hd generalizing c with
  | root => exact ht.not_reach_root Reach.root hc
  | @kid a d ha hda ih =>
    intro hbelow
    have hd := ha.kid hda
    cases hbelow with
    | root => exact ht.not_mem_self hd hc
    | @kid b _ hb hdb =>
      -- the parent of `d` is below `c`, and so below `d`
      obtain rfl := ht.parent_unique a b d ha ((hd.kid hc).trans hb) hda hdb
      exact ih hda ((Reach.root.kid hc).trans hb)

/-! ## A new child -/

section

variable {d x : α}

/-- `kids'` is `kids` with the new node `x`, which has no children, first among the
    children of `d`. -/
structure Inserted (kids kids' : α → List α) (root d x : α) : Prop where
  dir : Reach kids root d
  fresh : ¬ Reach kids root x
  kids_dir : kids' d = x :: kids d
  kids_new : kids' x = []
  kids_other : ∀ a, Reach kids root a → a ≠ d → kids' a = kids a

/-- `x` first among the children of `d`, with none of its own. -/
def insertKid [DecidableEq α] (kids : α → List α) (d x : α) : α → List α :=
  Function.update (Function.update kids x []) d (x :: kids d)

theorem inserted_insertKid [DecidableEq α] (hd : Reach kids root d) (hx : ¬ Reach kids root x) :
    Inserted kids (insertKid kids d x) root d x where
  dir := hd
  fresh := hx
  kids_dir := Function.update_self _ _ _
  kids_new := by
    have hxd : x ≠ d := by
      rintro rfl
      exact hx hd
    rw [insertKid, Function.update_of_ne hxd, Function.update_self]
  kids_other := by
    intro a ha had
    have hax : a ≠ x := by
      rintro rfl
      exact hx ha
    rw [insertKid, Function.update_of_ne had, Function.update_of_ne hax]

theorem Inserted.subset (h : Inserted kids kids' root d x) {a : α} (ha : Reach kids root a) :
    kids a ⊆ kids' a := by
  intro c hc
  by_cases had : a = d
  · subst had
    rw [h.kids_dir]
    exact List.mem_cons_of_mem _ hc
  · rwa [h.kids_other a ha had]

theorem reach_insert (h : Inserted kids kids' root d x) {a : α} :
    Reach kids' root a ↔ Reach kids root a ∨ a = x := by
  have hmono : ∀ {a}, Reach kids root a → Reach kids' root a := by
    intro a ha
    induction ha with
    | root => exact Reach.root
    | kid hb hc ih => exact ih.kid (h.subset hb hc)
  constructor
  · intro ha
    induction ha with
    | root => exact Or.inl Reach.root
    | @kid a c _ hc ih =>
      obtain ha | rfl := ih
      · by_cases had : a = d
        · subst had
          rw [h.kids_dir, List.mem_cons] at hc
          obtain rfl | hc := hc
          · exact Or.inr rfl
          · exact Or.inl (ha.kid hc)
        · rw [h.kids_other a ha had] at hc
          exact Or.inl (ha.kid hc)
      · rw [h.kids_new] at hc
        exact absurd hc List.not_mem_nil
  · rintro (ha | rfl)
    · exact hmono ha
    · refine (hmono h.dir).kid ?_
      rw [h.kids_dir]
      exact List.mem_cons_self

/-- Where a child of the new tree comes from. -/
theorem Inserted.mem_kids (h : Inserted kids kids' root d x) {a c : α} (ha : Reach kids' root a)
    (hc : c ∈ kids' a) : (a = d ∧ c = x) ∨ (Reach kids root a ∧ c ∈ kids a) := by
  obtain ha | rfl := (reach_insert h).mp ha
  · by_cases had : a = d
    · subst had
      rw [h.kids_dir, List.mem_cons] at hc
      exact hc.imp (fun hc => ⟨rfl, hc⟩) fun hc => ⟨ha, hc⟩
    · rw [h.kids_other a ha had] at hc
      exact Or.inr ⟨ha, hc⟩
  · rw [h.kids_new] at hc
    exact absurd hc List.not_mem_nil

theorem isTree_insert (ht : IsTree kids root) (h : Inserted kids kids' root d x) :
    IsTree kids' root where
  finite := by
    refine (ht.finite.insert x).subset ?_
    intro a ha
    exact ((reach_insert h).mp ha).symm
  nodup := by
    intro a ha
    obtain ha | rfl := (reach_insert h).mp ha
    · by_cases had : a = d
      · subst had
        rw [h.kids_dir]
        exact List.nodup_cons.mpr ⟨fun hx => h.fresh (ha.kid hx), ht.nodup a ha⟩
      · rw [h.kids_other a ha had]
        exact ht.nodup a ha
    · rw [h.kids_new]
      exact List.nodup_nil
  parent_unique := by
    intro a b c ha hb hca hcb
    obtain ⟨rfl, rfl⟩ | ⟨ha, hca⟩ := h.mem_kids ha hca
    · obtain ⟨rfl, -⟩ | ⟨hb, hcb⟩ := h.mem_kids hb hcb
      · rfl
      · exact absurd (hb.kid hcb) h.fresh
    · obtain ⟨-, rfl⟩ | ⟨hb, hcb⟩ := h.mem_kids hb hcb
      · exact absurd (ha.kid hca) h.fresh
      · exact ht.parent_unique a b c ha hb hca hcb
  root_not_kid := by
    intro a ha hc
    obtain ⟨-, rfl⟩ | ⟨ha, hc⟩ := h.mem_kids ha hc
    · exact h.fresh Reach.root
    · exact ht.root_not_kid a ha hc

end

/-! ## A child taken out -/

section

variable [DecidableEq α] {d c : α}

/-- `kids'` is `kids` without the child `c` of `d`. -/
structure Removed (kids kids' : α → List α) (root d c : α) : Prop where
  dir : Reach kids root d
  kid : c ∈ kids d
  kids_dir : kids' d = (kids d).erase c
  kids_other : ∀ a, Reach kids root a → a ≠ d → kids' a = kids a

/-- `c` no longer among the children of `d`. -/
def removeKid (kids : α → List α) (d c : α) : α → List α :=
  Function.update kids d ((kids d).erase c)

theorem removed_removeKid (hd : Reach kids root d) (hc : c ∈ kids d) :
    Removed kids (removeKid kids d c) root d c where
  dir := hd
  kid := hc
  kids_dir := Function.update_self _ _ _
  kids_other := fun _ _ had => Function.update_of_ne had _ _

theorem Removed.subset (h : Removed kids kids' root d c) {a : α} (ha : Reach kids root a) :
    kids' a ⊆ kids a := by
  intro e he
  by_cases had : a = d
  · subst had
    rw [h.kids_dir] at he
    exact List.mem_of_mem_erase he
  · rwa [h.kids_other a ha had] at he

theorem Removed.reach (h : Removed kids kids' root d c) {a : α} (ha : Reach kids' root a) :
    Reach kids root a := by
  induction ha with
  | root => exact Reach.root
  | kid _ he ih => exact ih.kid (h.subset ih he)

theorem reach_remove (ht : IsTree kids root) (h : Removed kids kids' root d c) {a : α} :
    Reach kids' root a ↔ Reach kids root a ∧ ¬ Reach kids c a := by
  constructor
  · intro ha
    refine ⟨h.reach ha, ?_⟩
    induction ha with
    | root => exact ht.not_reach_root h.dir h.kid
    | @kid a e ha he ih =>
      have hreach := h.reach ha
      intro hbelow
      cases hbelow with
      | root =>
        have had := ht.parent_unique a d c hreach h.dir (h.subset hreach he) h.kid
        subst had
        rw [h.kids_dir] at he
        exact (ht.nodup a hreach).not_mem_erase he
      | kid hb hmem =>
        have hab := ht.parent_unique a _ e hreach ((h.dir.kid h.kid).trans hb)
          (h.subset hreach he) hmem
        exact ih (hab ▸ hb)
  · rintro ⟨ha, hout⟩
    induction ha with
    | root => exact Reach.root
    | @kid a e ha he ih =>
      refine (ih fun hbelow => hout (hbelow.kid he)).kid ?_
      by_cases had : a = d
      · subst had
        rw [h.kids_dir]
        exact (List.mem_erase_of_ne (by rintro rfl; exact hout Reach.root)).mpr he
      · rwa [h.kids_other a ha had]

theorem isTree_remove (ht : IsTree kids root) (h : Removed kids kids' root d c) :
    IsTree kids' root where
  finite := ht.finite.subset fun _ ha => h.reach ha
  nodup := by
    intro a ha
    by_cases had : a = d
    · subst had
      rw [h.kids_dir]
      exact (ht.nodup a h.dir).erase c
    · rw [h.kids_other a (h.reach ha) had]
      exact ht.nodup a (h.reach ha)
  parent_unique := by
    intro a b e ha hb hea heb
    exact ht.parent_unique a b e (h.reach ha) (h.reach hb) (h.subset (h.reach ha) hea)
      (h.subset (h.reach hb) heb)
  root_not_kid := by
    intro a ha hc
    exact ht.root_not_kid a (h.reach ha) (h.subset (h.reach ha) hc)

end

end NexusKernel
