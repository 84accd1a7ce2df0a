import Mathlib

/-!
# Runs of a transition function

A system is a function `step : σ → ε → Option σ`; `none` means that the event is
not one the system can take in that state. An event carries every answer the
environment gives (the result of an allocation, for example), so that quantifying
over event lists quantifies over the environment too.

* `run_invariant`: what holds initially and is kept by every step holds in every
  state reached.
* `along_iff_meets`: exactly which runs stay inside a property `P`, for a system
  that keeps an invariant as long as each step meets a condition `C` and leaves
  `P` as soon as one step does not.
* `meets_congr`: exactly which runs take only steps with a property.
* `along_iff_meets_on`, `meets_congr_on`: the same among the runs that keep to a rule.
-/

namespace NexusKernel

variable {σ ε : Type}

/-- The state reached from `s` by the events `es`, if all of them can be taken. -/
def run (step : σ → ε → Option σ) : σ → List ε → Option σ
  | s, [] => some s
  | s, e :: es => (step s e).bind fun t => run step t es

section

variable {step : σ → ε → Option σ}

theorem run_cons_eq_some {s u : σ} {e : ε} {es : List ε} :
    run step s (e :: es) = some u ↔ ∃ t, step s e = some t ∧ run step t es = some u := by
  rw [run, Option.bind_eq_some_iff]

theorem run_append_eq_some {s u : σ} {es es' : List ε} :
    run step s (es ++ es') = some u ↔ ∃ t, run step s es = some t ∧ run step t es' = some u := by
  induction es generalizing s with
  | nil => simp [run]
  | cons e es ih =>
    rw [List.cons_append, run_cons_eq_some]
    constructor
    · rintro ⟨t, ht, hu⟩
      obtain ⟨v, hv, hu⟩ := ih.mp hu
      exact ⟨v, run_cons_eq_some.mpr ⟨t, ht, hv⟩, hu⟩
    · rintro ⟨v, hv, hu⟩
      obtain ⟨t, ht, hv⟩ := run_cons_eq_some.mp hv
      exact ⟨t, ht, ih.mpr ⟨v, hv, hu⟩⟩

/-- A system that takes every event has every run. -/
theorem exists_run (htotal : ∀ s e, ∃ t, step s e = some t) (s : σ) (es : List ε) :
    ∃ u, run step s es = some u := by
  induction es generalizing s with
  | nil => exact ⟨s, rfl⟩
  | cons e es ih =>
    obtain ⟨t, ht⟩ := htotal s e
    obtain ⟨u, hu⟩ := ih t
    exact ⟨u, run_cons_eq_some.mpr ⟨t, ht, hu⟩⟩

/-- Invariant rule: a property kept by every step is kept by every run. -/
theorem run_invariant (Inv : σ → Prop)
    (hstep : ∀ s e t, Inv s → step s e = some t → Inv t) {s t : σ} {es : List ε}
    (hs : Inv s) (hrun : run step s es = some t) : Inv t := by
  induction es generalizing s with
  | nil => cases hrun; exact hs
  | cons e es ih =>
    obtain ⟨u, hu, hrun⟩ := run_cons_eq_some.mp hrun
    exact ih (hstep s e u hs hu) hrun

end

/-! ## Properties of whole runs -/

/-- `P` holds in every state met from `s` along `es`, `s` included. -/
def Along (step : σ → ε → Option σ) (P : σ → Prop) : σ → List ε → Prop
  | s, [] => P s
  | s, e :: es => P s ∧ ∀ t, step s e = some t → Along step P t es

/-- Every step taken from `s` along `es` meets the condition `C` in the state it
    is taken from. -/
def Meets (step : σ → ε → Option σ) (C : σ → ε → Prop) : σ → List ε → Prop
  | _, [] => True
  | s, e :: es => C s e ∧ ∀ t, step s e = some t → Meets step C t es

variable {step : σ → ε → Option σ} {P Inv : σ → Prop} {C : σ → ε → Prop}

theorem Along.head {s : σ} {es : List ε} (h : Along step P s es) : P s := by
  cases es with
  | nil => exact h
  | cons e es => exact h.1

/-- What an invariant implies holds in every state met. -/
theorem along_of_invariant (Inv : σ → Prop)
    (hstep : ∀ s e t, Inv s → step s e = some t → Inv t) (hP : ∀ s, Inv s → P s) {s : σ}
    (hs : Inv s) (es : List ε) : Along step P s es := by
  induction es generalizing s with
  | nil => exact hP s hs
  | cons e es ih => exact ⟨hP s hs, fun t ht => ih (hstep s e t hs ht)⟩

/-- If every step of the run meets `C`, the invariant reaches its end. -/
theorem Meets.invariant (hstep : ∀ s e t, Inv s → C s e → step s e = some t → Inv t)
    {s t : σ} {es : List ε} (hs : Inv s) (hC : Meets step C s es) (hrun : run step s es = some t) :
    Inv t := by
  induction es generalizing s with
  | nil => cases hrun; exact hs
  | cons e es ih =>
    obtain ⟨u, hu, hrun⟩ := run_cons_eq_some.mp hrun
    exact ih (hstep s e u hs hC.1 hu) (hC.2 u hu) hrun

/-- If every step of the run meets `C`, every step has what `C` and the invariant
    imply. -/
theorem Meets.imp {D : σ → ε → Prop} (hstep : ∀ s e t, Inv s → C s e → step s e = some t → Inv t)
    (hD : ∀ s e, Inv s → C s e → D s e) {s : σ} {es : List ε} (hs : Inv s)
    (hC : Meets step C s es) : Meets step D s es := by
  induction es generalizing s with
  | nil => trivial
  | cons e es ih =>
    exact ⟨hD s e hs hC.1, fun t ht => ih (hstep s e t hs hC.1 ht) (hC.2 t ht)⟩

/-- If every step of the run meets `C`, what the invariant implies holds in every state
    met. -/
theorem Meets.along (hstep : ∀ s e t, Inv s → C s e → step s e = some t → Inv t)
    (hP : ∀ s, Inv s → P s) {s : σ} {es : List ε} (hs : Inv s) (hC : Meets step C s es) :
    Along step P s es := by
  induction es generalizing s with
  | nil => exact hP s hs
  | cons e es ih =>
    exact ⟨hP s hs, fun t ht => ih (hstep s e t hs hC.1 ht) (hC.2 t ht)⟩

theorem Meets.and {D : σ → ε → Prop} {s : σ} {es : List ε} (hC : Meets step C s es)
    (hD : Meets step D s es) : Meets step (fun s e => C s e ∧ D s e) s es := by
  induction es generalizing s with
  | nil => trivial
  | cons e es ih => exact ⟨⟨hC.1, hD.1⟩, fun t ht => ih (hC.2 t ht) (hD.2 t ht)⟩

/-- What holds of every step is met by every run. -/
theorem meets_of_forall (hC : ∀ s e, C s e) (s : σ) (es : List ε) : Meets step C s es := by
  induction es generalizing s with
  | nil => trivial
  | cons e es ih => exact ⟨hC s e, fun t _ => ih t⟩

/-- What holds of every event of the run, in any state, is met by the run. -/
theorem meets_of_forall_mem {es : List ε} (hC : ∀ e ∈ es, ∀ s, C s e) (s : σ) :
    Meets step C s es := by
  induction es generalizing s with
  | nil => trivial
  | cons e es ih =>
    rw [List.forall_mem_cons] at hC
    exact ⟨hC.1 s, fun t _ => ih hC.2 t⟩

/-- A run that can be taken and whose steps all meet `A` stays inside `P` iff they all
    meet `C`. -/
theorem along_iff_meets_on (Inv : σ → Prop) {A : σ → ε → Prop} (hP : ∀ s, Inv s → P s)
    (hgood : ∀ s e t, Inv s → A s e → C s e → step s e = some t → Inv t)
    (hbad : ∀ s e t, Inv s → A s e → ¬ C s e → step s e = some t → ¬ P t)
    {s u : σ} {es : List ε} (hs : Inv s) (hA : Meets step A s es) (hrun : run step s es = some u) :
    Along step P s es ↔ Meets step C s es := by
  induction es generalizing s with
  | nil => exact ⟨fun _ => trivial, fun _ => hP s hs⟩
  | cons e es ih =>
    obtain ⟨t, ht, hrun⟩ := run_cons_eq_some.mp hrun
    obtain ⟨hA, hAt⟩ := hA
    have htail : C s e → (Along step P t es ↔ Meets step C t es) := by
      intro hC
      exact ih (hgood s e t hs hA hC ht) (hAt t ht) hrun
    show (P s ∧ ∀ t, step s e = some t → Along step P t es) ↔
      (C s e ∧ ∀ t, step s e = some t → Meets step C t es)
    simp only [ht, Option.some.injEq, forall_eq', hP s hs, true_and]
    constructor
    · intro hP
      have hC : C s e := by
        by_contra hC
        exact hbad s e t hs hA hC ht hP.head
      exact ⟨hC, (htail hC).mp hP⟩
    · intro hC
      exact (htail hC.1).mpr hC.2

/-- A run that can be taken stays inside `P` iff all its steps meet `C`. -/
theorem along_iff_meets (Inv : σ → Prop) (hP : ∀ s, Inv s → P s)
    (hgood : ∀ s e t, Inv s → C s e → step s e = some t → Inv t)
    (hbad : ∀ s e t, Inv s → ¬ C s e → step s e = some t → ¬ P t)
    {s u : σ} {es : List ε} (hs : Inv s) (hrun : run step s es = some u) :
    Along step P s es ↔ Meets step C s es :=
  along_iff_meets_on Inv hP (fun s e t hs _ => hgood s e t hs) (fun s e t hs _ => hbad s e t hs) hs
    (meets_of_forall (fun _ _ => trivial) s es) hrun

/-- Two conditions on steps that agree on the invariant's states, the second of
    which keeps the invariant, are met by the same runs among those that meet `A`. -/
theorem meets_congr_on (Inv : σ → Prop) {A D : σ → ε → Prop}
    (hiff : ∀ s e t, Inv s → A s e → step s e = some t → (D s e ↔ C s e))
    (hgood : ∀ s e t, Inv s → A s e → C s e → step s e = some t → Inv t)
    {s u : σ} {es : List ε} (hs : Inv s) (hA : Meets step A s es) (hrun : run step s es = some u) :
    Meets step D s es ↔ Meets step C s es := by
  induction es generalizing s with
  | nil => exact Iff.rfl
  | cons e es ih =>
    obtain ⟨t, ht, hrun⟩ := run_cons_eq_some.mp hrun
    obtain ⟨hA, hAt⟩ := hA
    have htail : C s e → (Meets step D t es ↔ Meets step C t es) := by
      intro hC
      exact ih (hgood s e t hs hA hC ht) (hAt t ht) hrun
    show (D s e ∧ ∀ t, step s e = some t → Meets step D t es) ↔
      (C s e ∧ ∀ t, step s e = some t → Meets step C t es)
    simp only [ht, Option.some.injEq, forall_eq', hiff s e t hs hA ht]
    exact and_congr_right htail

/-- Two conditions on steps that agree on the invariant's states, the second of
    which keeps the invariant, are met by the same runs. -/
theorem meets_congr (Inv : σ → Prop) {D : σ → ε → Prop}
    (hiff : ∀ s e t, Inv s → step s e = some t → (D s e ↔ C s e))
    (hgood : ∀ s e t, Inv s → C s e → step s e = some t → Inv t)
    {s u : σ} {es : List ε} (hs : Inv s) (hrun : run step s es = some u) :
    Meets step D s es ↔ Meets step C s es :=
  meets_congr_on Inv (fun s e t hs _ => hiff s e t hs) (fun s e t hs _ => hgood s e t hs) hs
    (meets_of_forall (fun _ _ => trivial) s es) hrun

end NexusKernel
