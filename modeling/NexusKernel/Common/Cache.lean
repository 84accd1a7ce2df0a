import NexusKernel.Common.Run

/-!
# A cache in front of a table

A system whose states each hold a table `look s : κ → Option ν`, and a cache that
answers for the table. The cache takes entries from the table when it likes and drops
them when it likes; the system's calls change the table, and each call drops the cached
entries of the keys it names. The cache itself is never told of a change.

* `coherent_interleavings_iff`: a sequence of calls is safe among all fills and
  evictions iff each call drops every key whose entry it changes.
-/

namespace NexusKernel

variable {σ ε κ ν : Type}

/-- A state of the system and the entries in the cache. -/
structure Cached (σ κ ν : Type) where
  backing : σ
  lines : κ → Option ν

/-- A call of the system, or something the cache does by itself. -/
inductive CacheEvent (ε κ : Type) where
  | call (e : ε)
  | fill (k : κ)
  | evict (k : κ)
  | flush

section

variable (step : σ → ε → Option σ) (look : σ → κ → Option ν) (drops : σ → ε → κ → Bool)

/-- The entry the cache answers with: the cached one, if there is one. -/
def Cached.answer (m : Cached σ κ ν) (k : κ) : Option ν := (m.lines k).or (look m.backing k)

/-- Every answer is that of the table. -/
def Coherent (m : Cached σ κ ν) : Prop := ∀ k, m.answer look k = look m.backing k

def cachedStep [DecidableEq κ] (m : Cached σ κ ν) : CacheEvent ε κ → Option (Cached σ κ ν)
  | .call e =>
    (step m.backing e).map fun t =>
      ⟨t, fun k => if drops m.backing e k then none else m.lines k⟩
  | .fill k => some { m with lines := Function.update m.lines k (m.answer look k) }
  | .evict k => some { m with lines := Function.update m.lines k none }
  | .flush => some { m with lines := fun _ => none }

/-- The call drops every key whose entry it changes. -/
def DropsChanged (s : σ) (e : ε) : Prop :=
  ∀ t, step s e = some t → ∀ k v, look s k = some v → look t k = some v ∨ drops s e k = true

end

/-- The calls among the events. -/
def CacheEvent.calls (es : List (CacheEvent ε κ)) : List ε :=
  es.filterMap fun
    | .call e => some e
    | _ => none

theorem calls_map_call (cs : List ε) :
    CacheEvent.calls (cs.map fun e => (.call e : CacheEvent ε κ)) = cs := by
  rw [CacheEvent.calls, List.filterMap_map]
  exact List.filterMap_some

section

variable {step : σ → ε → Option σ} {look : σ → κ → Option ν} {drops : σ → ε → κ → Bool}

theorem coherent_iff {m : Cached σ κ ν} :
    Coherent look m ↔ ∀ k v, m.lines k = some v → look m.backing k = some v := by
  constructor
  · intro hm k v hline
    rw [← hm k, Cached.answer, hline, Option.some_or]
  · intro hm k
    cases hline : m.lines k with
    | none => rw [Cached.answer, hline, Option.none_or]
    | some v => rw [Cached.answer, hline, Option.some_or, hm k v hline]

theorem coherent_empty (look : σ → κ → Option ν) (s : σ) : Coherent look ⟨s, fun _ => none⟩ :=
  coherent_iff.mpr fun _ _ h => absurd h (Option.some_ne_none _).symm

theorem Coherent.call {m : Cached σ κ ν} (hm : Coherent look m) {e : ε} {t : σ}
    (he : DropsChanged step look drops m.backing e) (ht : step m.backing e = some t) :
    Coherent look ⟨t, fun k => if drops m.backing e k then none else m.lines k⟩ := by
  rw [coherent_iff] at hm ⊢
  intro k v hline
  obtain ⟨hdrop, hline⟩ := (Option.ite_none_left_eq_some).mp hline
  exact (he t ht k v (hm k v hline)).resolve_right hdrop

variable [DecidableEq κ]

/-- What the cache does by itself keeps it coherent. -/
theorem Coherent.update {m : Cached σ κ ν} (hm : Coherent look m) (k : κ) {o : Option ν}
    (ho : ∀ v, o = some v → look m.backing k = some v) :
    Coherent look { m with lines := Function.update m.lines k o } := by
  rw [coherent_iff] at hm ⊢
  intro j v (hline : Function.update m.lines k o j = some v)
  by_cases hj : j = k
  · subst hj
    rw [Function.update_self] at hline
    exact ho v hline
  · rw [Function.update_of_ne hj] at hline
    exact hm j v hline

theorem along_of_meets {m : Cached σ κ ν} (hm : Coherent look m) {es : List (CacheEvent ε κ)}
    (hcs : Meets step (DropsChanged step look drops) m.backing (CacheEvent.calls es)) :
    Along (cachedStep step look drops) (Coherent look) m es := by
  induction es generalizing m with
  | nil => exact hm
  | cons e es ih =>
    refine ⟨hm, ?_⟩
    intro m' hm'
    cases e with
    | call e =>
      obtain ⟨t, ht, rfl⟩ := Option.map_eq_some_iff.mp hm'
      exact ih (hm.call hcs.1 ht) (hcs.2 t ht)
    | fill k =>
      cases hm'
      exact ih (hm.update k fun v hv => (hm k).symm.trans hv) hcs
    | evict k =>
      cases hm'
      exact ih (hm.update k fun v hv => absurd hv (Option.some_ne_none v).symm) hcs
    | flush =>
      cases hm'
      exact ih (coherent_empty look m.backing) hcs

/-- A call that changes an entry without dropping its key leaves the old entry in the
    cache, if the cache took it just before. -/
theorem dropsChanged_of_along {m : Cached σ κ ν} {e : ε} {es : List (CacheEvent ε κ)}
    (h : ∀ k, Along (cachedStep step look drops) (Coherent look) m (.fill k :: .call e :: es)) :
    DropsChanged step look drops m.backing e := by
  intro t ht k v hv
  have hm : Coherent look m := (h k).head
  obtain ⟨-, hcall⟩ := (h k).2 _ rfl
  have hafter := (hcall _ (by rw [cachedStep, ht, Option.map_some])).head
  by_cases hdrop : drops m.backing e k = true
  · exact Or.inr hdrop
  · refine Or.inl (coherent_iff.mp hafter k v ?_)
    show (if drops m.backing e k = true then none else Function.update m.lines k _ k) = some v
    rw [if_neg hdrop, Function.update_self, hm k, hv]

/-- A sequence of calls keeps the cache coherent, whatever the cache takes and drops
    in between, iff each call drops every key whose entry it changes. -/
theorem coherent_interleavings_iff {m : Cached σ κ ν} (hm : Coherent look m) (cs : List ε) :
    (∀ es : List (CacheEvent ε κ), CacheEvent.calls es = cs →
      Along (cachedStep step look drops) (Coherent look) m es) ↔
    Meets step (DropsChanged step look drops) m.backing cs := by
  constructor
  · intro h
    induction cs generalizing m with
    | nil => trivial
    | cons e cs ih =>
      have he : DropsChanged step look drops m.backing e := by
        apply dropsChanged_of_along
        intro k
        exact h (.fill k :: .call e :: cs.map .call) (congrArg (e :: ·) (calls_map_call cs))
      refine ⟨he, ?_⟩
      intro t ht
      refine ih (m := ⟨t, _⟩) (hm.call he ht) ?_
      intro es hes
      refine (h (.call e :: es) (congrArg (e :: ·) hes)).2 _ ?_
      rw [cachedStep, ht, Option.map_some]
  · intro h es hes
    exact along_of_meets hm (hes ▸ h)

end

end NexusKernel
