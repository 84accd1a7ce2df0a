import Mathlib

/-!
# Paths of names

`child a n` is the node that the name `n` leads to from `a`, if it leads anywhere.
`follow` goes along the names of a path.

* `uniquePaths_of_back`: no two paths lead to one node if every node knows where it was
  reached from.
* `follow_attach`: a name that leads to a new leaf changes one path.
* `follow_detach`: a name that leads nowhere any more takes away the paths through it.
-/

namespace NexusKernel

variable {α β : Type} {child child' : β → α → Option β} {root d x : β} {name : α}

/-- The node at the end of the path from `a`. -/
def follow (child : β → α → Option β) (a : β) (path : List α) : Option β := path.foldlM child a

@[simp] theorem follow_nil (child : β → α → Option β) (a : β) : follow child a [] = some a := rfl

theorem follow_snoc (child : β → α → Option β) (a : β) (path : List α) (n : α) :
    follow child a (path ++ [n]) = (follow child a path).bind (child · n) := by
  simp [follow, List.foldlM_append, Option.bind_eq_bind]

/-- The last step to a node that is not at the end of the empty path. -/
theorem follow_snoc_eq_some {a b : β} {path : List α} {n : α} :
    follow child a (path ++ [n]) = some b ↔
      ∃ c, follow child a path = some c ∧ child c n = some b := by
  rw [follow_snoc, Option.bind_eq_some_iff]

/-- Nodes on the way are the only ones that matter. -/
theorem follow_congr (h : ∀ p a, follow child root p = some a → child' a = child a) (q : List α) :
    follow child' root q = follow child root q := by
  induction q using List.reverseRecOn with
  | nil => rfl
  | append_singleton q n ih =>
    rw [follow_snoc, follow_snoc, ih]
    cases hq : follow child root q with
    | none => rfl
    | some a => exact congrFun (h q a hq) n

/-- No node is at the end of two paths. -/
def UniquePaths (child : β → α → Option β) (root : β) : Prop :=
  ∀ p q a, follow child root p = some a → follow child root q = some a → p = q

theorem uniquePaths_of_back
    (hback : ∀ p q a b c m n, follow child root p = some a → follow child root q = some b →
      child a m = some c → child b n = some c → a = b ∧ m = n)
    (hroot : ∀ p a n, follow child root p = some a → child a n ≠ some root) :
    UniquePaths child root := by
  intro p
  induction p using List.reverseRecOn with
  | nil =>
    intro q a hp hq
    obtain rfl := Option.some_inj.mp hp
    cases q using List.reverseRecOn with
    | nil => rfl
    | append_singleton q n =>
      obtain ⟨b, hb, hn⟩ := follow_snoc_eq_some.mp hq
      exact absurd hn (hroot q b n hb)
  | append_singleton p m ih =>
    intro q c hp hq
    obtain ⟨a, ha, hm⟩ := follow_snoc_eq_some.mp hp
    cases q using List.reverseRecOn with
    | nil =>
      obtain rfl := Option.some_inj.mp hq
      exact absurd hm (hroot p a m ha)
    | append_singleton q n =>
      obtain ⟨b, hb, hn⟩ := follow_snoc_eq_some.mp hq
      obtain ⟨rfl, rfl⟩ := hback p q a b c m n ha hb hm hn
      rw [ih q a ha hb]

section

variable [DecidableEq α]

/-- From `d`, where the name led nowhere, it leads to the leaf `x`. -/
structure Attaches (child child' : β → α → Option β) (root d : β) (name : α) (x : β) : Prop where
  absent : child d name = none
  at_dir : child' d = Function.update (child d) name (some x)
  leaf : child' x = fun _ => none
  other : ∀ p a, follow child root p = some a → a ≠ d → child' a = child a

/-- From `d`, the name leads nowhere any more. -/
structure Detaches (child child' : β → α → Option β) (root d : β) (name : α) : Prop where
  at_dir : child' d = Function.update (child d) name none
  other : ∀ p a, follow child' root p = some a → a ≠ d → child' a = child a

variable {p : List α}

theorem follow_attach (hu : UniquePaths child root) (h : Attaches child child' root d name x)
    (hp : follow child root p = some d) (q : List α) :
    follow child' root q = if q = p ++ [name] then some x else follow child root q := by
  induction q using List.reverseRecOn with
  | nil => rw [if_neg (by simp)]; rfl
  | append_singleton q n ih =>
    rw [follow_snoc, ih]
    by_cases hq : q = p ++ [name]
    · -- behind the leaf there was nothing, and there is nothing
      rw [if_pos hq, if_neg (by simp [hq]), follow_snoc, hq, follow_snoc, hp, Option.bind_some,
        Option.bind_some, h.absent, h.leaf]
      rfl
    rw [if_neg hq, follow_snoc]
    cases hfollow : follow child root q with
    | none =>
      rw [if_neg ?_]
      · rfl
      intro heq
      obtain rfl := List.append_inj_left' heq rfl
      exact Option.some_ne_none d (hp.symm.trans hfollow)
    | some a =>
      rw [Option.bind_some, Option.bind_some]
      by_cases had : a = d
      · subst had
        rw [hu q p a hfollow hp, h.at_dir]
        by_cases hn : n = name
        · rw [hn, Function.update_self, if_pos rfl]
        · rw [Function.update_of_ne hn, if_neg (by simpa using hn)]
      · rw [h.other q a hfollow had, if_neg ?_]
        intro heq
        obtain rfl := List.append_inj_left' heq rfl
        exact had (Option.some_inj.mp (hfollow.symm.trans hp))

theorem follow_detach (hu : UniquePaths child root) (h : Detaches child child' root d name)
    (hp : follow child root p = some d) (q : List α) :
    follow child' root q = if p ++ [name] <+: q then none else follow child root q := by
  induction q using List.reverseRecOn with
  | nil => rw [if_neg (by simp)]; rfl
  | append_singleton q n ih =>
    rw [follow_snoc]
    by_cases hq : p ++ [name] <+: q
    · rw [ih, if_pos hq, if_pos (hq.trans (List.prefix_append q [n]))]
      rfl
    have hsnoc : p ++ [name] <+: q ++ [n] ↔ q = p ∧ n = name := by
      rw [List.prefix_concat_iff, or_iff_left hq]
      constructor
      · intro heq
        exact ⟨(List.append_inj_left' heq rfl).symm, by simpa using (List.append_inj_right' heq rfl).symm⟩
      · rintro ⟨rfl, rfl⟩
        rfl
    rw [if_neg hq] at ih
    rw [follow_snoc, if_congr hsnoc rfl rfl]
    cases hfollow : follow child root q with
    | none =>
      rw [ih, hfollow]
      simp
    | some a =>
      rw [ih, hfollow, Option.bind_some, Option.bind_some]
      by_cases had : a = d
      · subst had
        rw [h.at_dir]
        by_cases hn : n = name
        · rw [hn, Function.update_self, if_pos ⟨hu q p a hfollow hp, rfl⟩]
        · rw [Function.update_of_ne hn, if_neg (fun hand => hn hand.2)]
      · rw [h.other q a (ih.trans hfollow) had, if_neg ?_]
        rintro ⟨rfl, -⟩
        exact had (Option.some_inj.mp (hfollow.symm.trans hp))

end

end NexusKernel
