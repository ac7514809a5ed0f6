import Mathlib.Data.List.Basic

/-!
# Runs of a step function

A system that is driven by inputs is a step function `σ → ι → σ`, and a run is
a fold of it. `Meets C s inputs` says that every step of the run satisfies a
condition `C` on the state before it and the input. With it go the invariant
rule, for invariants that only hold under a condition on the steps, and a rule
to exchange one condition for another. A list that is only ever appended to
grows along a run (`foldl_grows`). Steps that may fail take the same run while
they do not (`foldl_of_foldlM`).

Many systems that take their steps in any order are one system again
(`stepAt`). Each of them runs as it would alone, on its own inputs
(`foldl_stepAt`).
-/

namespace Lib

variable {σ ι : Type} {step : σ → ι → σ}

/-- Every step of the run from `s` satisfies `C`. -/
def Meets (step : σ → ι → σ) (C : σ → ι → Prop) : σ → List ι → Prop
  | _, [] => True
  | s, i :: is => C s i ∧ Meets step C (step s i) is

instance Meets.decidable {C : σ → ι → Prop} [∀ s i, Decidable (C s i)] :
    ∀ (s : σ) (is : List ι), Decidable (Meets step C s is)
  | _, [] => isTrue trivial
  | s, i :: is =>
    have : Decidable (Meets step C (step s i) is) := Meets.decidable (step s i) is
    inferInstanceAs (Decidable (C s i ∧ Meets step C (step s i) is))

/-- What every step that meets the condition keeps, a run of such steps keeps. -/
theorem Meets.invariant {I : σ → Prop} {C : σ → ι → Prop}
    (hstep : ∀ s i, I s → C s i → I (step s i)) {is : List ι} {s : σ} (hs : I s)
    (h : Meets step C s is) : I (is.foldl step s) := by
  induction is generalizing s with
  | nil => exact hs
  | cons i is ih => exact ih (hstep s i hs h.1) h.2

theorem run_invariant {I : σ → Prop} (hstep : ∀ s i, I s → I (step s i)) {s : σ} (hs : I s)
    (is : List ι) : I (is.foldl step s) := by
  induction is generalizing s with
  | nil => exact hs
  | cons i is ih => exact ih (hstep s i hs)

/-- Conditions that agree where the invariant holds are met by the same runs;
the invariant need only survive the steps that meet them. -/
theorem meets_congr {I : σ → Prop} {C D : σ → ι → Prop}
    (hstep : ∀ s i, I s → C s i → I (step s i)) (hCD : ∀ s i, I s → (C s i ↔ D s i)) :
    ∀ {is : List ι} {s : σ}, I s → (Meets step C s is ↔ Meets step D s is)
  | [], _, _ => Iff.rfl
  | i :: is, s, hs => by
    have hrest : C s i → (Meets step C (step s i) is ↔ Meets step D (step s i) is) :=
      fun hC => meets_congr hstep hCD (hstep s i hs hC)
    exact (and_congr_right hrest).trans (and_congr_left' (hCD s i hs))

/-- A list that every step extends is extended by the longer of two runs. -/
theorem foldl_grows {γ : Type} (g : σ → List γ) (hstep : ∀ s i, g s <+: g (step s i))
    {is js : List ι} (h : is <+: js) (s : σ) : g (is.foldl step s) <+: g (js.foldl step s) := by
  obtain ⟨ks, rfl⟩ := h
  rw [List.foldl_append]
  exact run_invariant (I := fun s' => g (is.foldl step s) <+: g s')
    (fun s' i hs => hs.trans (hstep s' i)) (List.prefix_refl _) ks

/-- A run of steps that may fail, and of which none does. -/
theorem foldl_of_foldlM {step? : σ → ι → Option σ}
    (hstep : ∀ s i s', step? s i = some s' → step s i = s') {is : List ι} {s s' : σ}
    (h : is.foldlM step? s = some s') : is.foldl step s = s' := by
  induction is generalizing s with
  | nil => exact Option.some.inj h
  | cons i is ih =>
    rw [List.foldlM_cons] at h
    obtain ⟨s₁, hfirst, hrest⟩ := Option.bind_eq_some_iff.mp h
    rw [List.foldl_cons, hstep s i s₁ hfirst]
    exact ih hrest

/-! ## Many systems -/

section
variable {κ : Type} [DecidableEq κ] {steps : κ → σ → ι → σ}

/-- One of many systems takes a step, on an input of its own. -/
def stepAt (steps : κ → σ → ι → σ) (s : κ → σ) (i : κ × ι) : κ → σ :=
  Function.update s i.1 (steps i.1 (s i.1) i.2)

/-- The inputs of the system `k`. -/
def inputsOf (k : κ) (is : List (κ × ι)) : List ι :=
  is.filterMap fun i => if i.1 = k then some i.2 else none

theorem inputsOf_cons_self (k : κ) (i : ι) (is : List (κ × ι)) :
    inputsOf k ((k, i) :: is) = i :: inputsOf k is := by
  simp [inputsOf]

theorem inputsOf_cons_ne {k j : κ} (h : j ≠ k) (i : ι) (is : List (κ × ι)) :
    inputsOf k ((j, i) :: is) = inputsOf k is := by
  simp [inputsOf, h]

theorem foldl_stepAt (k : κ) (is : List (κ × ι)) (s : κ → σ) :
    is.foldl (stepAt steps) s k = (inputsOf k is).foldl (steps k) (s k) := by
  induction is generalizing s with
  | nil => rfl
  | cons i is ih =>
    obtain ⟨j, i⟩ := i
    rw [List.foldl_cons, ih]
    by_cases h : j = k
    · subst h
      rw [inputsOf_cons_self, List.foldl_cons, stepAt, Function.update_self]
    · rw [inputsOf_cons_ne h, stepAt, Function.update_of_ne (Ne.symm h)]

/-- A condition on each of the systems is met by the run of each. -/
theorem Meets.single {C : κ → σ → ι → Prop} (k : κ) {is : List (κ × ι)} {s : κ → σ}
    (h : Meets (stepAt steps) (fun s i => C i.1 (s i.1) i.2) s is) :
    Meets (steps k) (C k) (s k) (inputsOf k is) := by
  induction is generalizing s with
  | nil => trivial
  | cons i is ih =>
    obtain ⟨j, i⟩ := i
    have hrest := ih h.2
    by_cases hj : j = k
    · subst hj
      rw [inputsOf_cons_self]
      rw [stepAt, Function.update_self] at hrest
      exact ⟨h.1, hrest⟩
    · rw [inputsOf_cons_ne hj]
      rwa [stepAt, Function.update_of_ne (Ne.symm hj)] at hrest

end

end Lib
