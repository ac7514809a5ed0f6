import Mathlib.Data.List.Basic

/-!
# Pre- and postconditions for code that can stop in the middle

`EStateM ε σ` is the monad of a procedure that updates a state `σ` and may
stop with an `ε`, *keeping* whatever it had done to the state by then: a panic
half-way through a handler, or an I/O error after the third of five file
writes. This file gives it the usual rules of pre- and postconditions, with
one twist that crash reasoning needs: the second postcondition `E` speaks
about the state in which the procedure stopped.

`Triple P m Q E` reads: started in a state satisfying `P`, `m` either returns
some `a` in a state satisfying `Q a`, or stops with some `e` in a state
satisfying `E e`. There is no third case, the procedures here being total.
-/

namespace Lib

universe u

variable {ε σ α β : Type u}

/-! ## Running a sequence -/

theorem bind_of_ok {m : EStateM ε σ α} {f : α → EStateM ε σ β} {s s' : σ} {a : α}
    (h : m s = .ok a s') : (m >>= f) s = f a s' := by
  show EStateM.bind m f s = f a s'
  unfold EStateM.bind
  rw [h]

theorem bind_of_error {m : EStateM ε σ α} {f : α → EStateM ε σ β} {s s' : σ} {e : ε}
    (h : m s = .error e s') : (m >>= f) s = .error e s' := by
  show EStateM.bind m f s = .error e s'
  unfold EStateM.bind
  rw [h]

/-! ## Triples -/

/-- From `P`, the procedure `m` returns under `Q` or stops under `E`. -/
def Triple (P : σ → Prop) (m : EStateM ε σ α) (Q : α → σ → Prop) (E : ε → σ → Prop) : Prop :=
  ∀ s, P s → match m s with
    | .ok a s' => Q a s'
    | .error e s' => E e s'

theorem Triple.conseq {P P' : σ → Prop} {m : EStateM ε σ α} {Q Q' : α → σ → Prop}
    {E E' : ε → σ → Prop} (h : Triple P m Q E) (hP : ∀ s, P' s → P s)
    (hQ : ∀ a s, Q a s → Q' a s) (hE : ∀ e s, E e s → E' e s) : Triple P' m Q' E' := by
  intro s hs
  have := h s (hP s hs)
  cases hm : m s with
  | ok a s' => rw [hm] at this; exact hQ a s' this
  | error e s' => rw [hm] at this; exact hE e s' this

theorem Triple.pre {P P' : σ → Prop} {m : EStateM ε σ α} {Q : α → σ → Prop}
    {E : ε → σ → Prop} (h : Triple P m Q E) (hP : ∀ s, P' s → P s) : Triple P' m Q E :=
  h.conseq hP (fun _ _ h => h) (fun _ _ h => h)

theorem Triple.pure {P : σ → Prop} {a : α} {Q : α → σ → Prop} {E : ε → σ → Prop}
    (h : ∀ s, P s → Q a s) : Triple P (Pure.pure a : EStateM ε σ α) Q E :=
  fun s hs => h s hs

theorem Triple.throw {P : σ → Prop} {e : ε} {Q : α → σ → Prop} {E : ε → σ → Prop}
    (h : ∀ s, P s → E e s) :
    Triple P (MonadExcept.throw e : EStateM ε σ α) Q E :=
  fun s hs => h s hs

/-- Sequencing: what the first part leaves is what the second starts from, and
a stop in either part is a stop of the whole. -/
theorem Triple.bind {P : σ → Prop} {m : EStateM ε σ α} {f : α → EStateM ε σ β}
    {R : α → σ → Prop} {Q : β → σ → Prop} {E : ε → σ → Prop}
    (hm : Triple P m R E) (hf : ∀ a, Triple (R a) (f a) Q E) : Triple P (m >>= f) Q E := by
  intro s hs
  have h := hm s hs
  cases hr : m s with
  | ok a s' =>
    rw [hr] at h
    rw [bind_of_ok hr]
    exact hf a s' h
  | error e s' =>
    rw [hr] at h
    rw [bind_of_error hr]
    exact h

theorem Triple.get {P : σ → Prop} {Q : σ → σ → Prop} {E : ε → σ → Prop}
    (h : ∀ s, P s → Q s s) : Triple P (MonadState.get : EStateM ε σ σ) Q E :=
  fun s hs => h s hs

/-- Reading the state: the rest is started with the state that was read. -/
theorem Triple.read {P : σ → Prop} {f : σ → EStateM ε σ α} {Q : α → σ → Prop} {E : ε → σ → Prop}
    (h : ∀ n, P n → Triple (fun s => s = n) (f n) Q E) :
    Triple P (MonadState.get >>= f) Q E :=
  fun s hs => h s hs s rfl

/-- A precondition may be opened up into its cases. -/
theorem Triple.intro {ι : Sort*} {P : ι → σ → Prop} {m : EStateM ε σ α} {Q : α → σ → Prop}
    {E : ε → σ → Prop} (h : ∀ i, Triple (P i) m Q E) : Triple (fun s => ∃ i, P i s) m Q E :=
  fun s ⟨i, hi⟩ => h i s hi

theorem Triple.or {P P' : σ → Prop} {m : EStateM ε σ α} {Q : α → σ → Prop} {E : ε → σ → Prop}
    (h : Triple P m Q E) (h' : Triple P' m Q E) : Triple (fun s => P s ∨ P' s) m Q E :=
  fun s hs => hs.elim (h s) (h' s)

/-- Two descriptions of one procedure hold together. -/
theorem Triple.and {P P' : σ → Prop} {m : EStateM ε σ α} {Q Q' : α → σ → Prop}
    {E E' : ε → σ → Prop} (h : Triple P m Q E) (h' : Triple P' m Q' E') :
    Triple (fun s => P s ∧ P' s) m (fun a s => Q a s ∧ Q' a s) (fun e s => E e s ∧ E' e s) := by
  intro s hs
  have h₁ := h s hs.1
  have h₂ := h' s hs.2
  cases hm : m s with
  | ok a s' => rw [hm] at h₁ h₂; exact ⟨h₁, h₂⟩
  | error e s' => rw [hm] at h₁ h₂; exact ⟨h₁, h₂⟩

theorem Triple.update {P : σ → Prop} {f : σ → σ} {Q : PUnit → σ → Prop} {E : ε → σ → Prop}
    (h : ∀ s, P s → Q ⟨⟩ (f s)) : Triple P (modify f : EStateM ε σ PUnit) Q E :=
  fun s hs => h s hs

theorem Triple.ite {c : Prop} [Decidable c] {P : σ → Prop} {m m' : EStateM ε σ α}
    {Q : α → σ → Prop} {E : ε → σ → Prop}
    (ht : c → Triple P m Q E) (hf : ¬c → Triple P m' Q E) :
    Triple P (if c then m else m') Q E := by
  by_cases hc : c
  · rw [if_pos hc]; exact ht hc
  · rw [if_neg hc]; exact hf hc

/-- A loop over a list keeps what every turn keeps. -/
theorem Triple.forM {γ : Type u} {I : σ → Prop} {E : ε → σ → Prop}
    {f : γ → EStateM ε σ PUnit} :
    ∀ l : List γ, (∀ x ∈ l, Triple I (f x) (fun _ => I) E) →
      Triple I (l.forM f) (fun _ => I) E
  | [], _ => Triple.pure fun _ hs => hs
  | x :: l, h =>
    Triple.bind (h x (List.mem_cons_self ..))
      fun _ => Triple.forM l fun y hy => h y (List.mem_cons_of_mem _ hy)

/-- A sequence of checks succeeds when each of them does. -/
theorem bind_eq_ok {x : Except ε α} {f : α → Except ε β} {b : β} :
    x >>= f = .ok b ↔ ∃ a, x = .ok a ∧ f a = .ok b := by
  cases x with
  | ok a =>
    constructor
    · exact fun h => ⟨a, rfl, h⟩
    · intro ⟨a', ha, h⟩
      rw [Except.ok.inj ha]
      exact h
  | error e =>
    constructor
    · exact fun h => nomatch h
    · exact fun ⟨_, ha, _⟩ => nomatch ha

/-- A function that may fail, on a list on which it does not. -/
theorem mapM_eq_ok {f : α → Except ε β} {g : α → β} (hf : ∀ a b, f a = .ok b → b = g a)
    {as : List α} {bs : List β} (h : as.mapM f = .ok bs) : bs = as.map g := by
  induction as generalizing bs with
  | nil =>
    obtain rfl := Except.ok.inj h
    rfl
  | cons a as ih =>
    rw [List.mapM_cons] at h
    obtain ⟨b, hb, h⟩ := bind_eq_ok.mp h
    obtain ⟨bs, hbs, h⟩ := bind_eq_ok.mp h
    obtain rfl := Except.ok.inj h
    rw [List.map_cons, ← hf a b hb, ← ih hbs]

theorem ok_of_mapM_eq_ok {f : α → Except ε β} {as : List α} {bs : List β}
    (h : as.mapM f = .ok bs) : ∀ a ∈ as, ∃ b, f a = .ok b := by
  induction as generalizing bs with
  | nil => exact fun _ ha => nomatch ha
  | cons a as ih =>
    rw [List.mapM_cons] at h
    obtain ⟨b, hb, h⟩ := bind_eq_ok.mp h
    obtain ⟨bs, hbs, -⟩ := bind_eq_ok.mp h
    intro a' ha'
    rcases List.mem_cons.mp ha' with rfl | ha'
    · exact ⟨b, hb⟩
    · exact ih hbs a' ha'

end Lib
