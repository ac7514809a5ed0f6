import SawtoothRaft.Lib.Exec

/-!
# Two procedures in lockstep

The same code may run over two kinds of state, say with two implementations of
an interface underneath. `Lockstep R m m'` says that from states related by `R`
the two procedures do the same: both return, with the same value, or both stop,
with the same error, and they end in states that are related again. The rules
follow the code, one for each way of putting procedures together, so that a
relation needs an argument of its own only where the two sides really differ.
-/

namespace Lib

universe u

variable {ε σ τ α β : Type u}

/-- The same outcome, in related states. -/
inductive SameOutcome (R : σ → τ → Prop) :
    EStateM.Result ε σ α → EStateM.Result ε τ α → Prop
  | ok (a : α) {s : σ} {t : τ} (h : R s t) : SameOutcome R (.ok a s) (.ok a t)
  | error (e : ε) {s : σ} {t : τ} (h : R s t) : SameOutcome R (.error e s) (.error e t)

def Lockstep (R : σ → τ → Prop) (m : EStateM ε σ α) (m' : EStateM ε τ α) : Prop :=
  ∀ s t, R s t → SameOutcome R (m s) (m' t)

variable {R : σ → τ → Prop}

theorem Lockstep.pure (a : α) :
    Lockstep R (Pure.pure a : EStateM ε σ α) (Pure.pure a : EStateM ε τ α) :=
  fun _ _ h => .ok a h

theorem Lockstep.throw (e : ε) :
    Lockstep R (MonadExcept.throw e : EStateM ε σ α) (MonadExcept.throw e : EStateM ε τ α) :=
  fun _ _ h => .error e h

theorem Lockstep.bind {m : EStateM ε σ α} {m' : EStateM ε τ α} {f : α → EStateM ε σ β}
    {f' : α → EStateM ε τ β} (hm : Lockstep R m m') (hf : ∀ a, Lockstep R (f a) (f' a)) :
    Lockstep R (m >>= f) (m' >>= f') := by
  intro s t h
  have hfirst := hm s t h
  cases hr : m s with
  | ok a s' =>
    cases hr' : m' t with
    | ok a' t' =>
      rw [hr, hr'] at hfirst
      cases hfirst with
      | ok _ h' =>
        rw [bind_of_ok hr, bind_of_ok hr']
        exact hf a s' t' h'
    | error e' t' =>
      rw [hr, hr'] at hfirst
      cases hfirst
  | error e s' =>
    cases hr' : m' t with
    | ok a' t' =>
      rw [hr, hr'] at hfirst
      cases hfirst
    | error e' t' =>
      rw [hr, hr'] at hfirst
      rw [bind_of_error hr, bind_of_error hr']
      cases hfirst with
      | error _ h' => exact .error e h'

/-- Each side goes on with the state that it has read. -/
theorem Lockstep.read {f : σ → EStateM ε σ α} {f' : τ → EStateM ε τ α}
    (h : ∀ s t, R s t → SameOutcome R (f s s) (f' t t)) :
    Lockstep R (MonadState.get >>= f) (MonadState.get >>= f') :=
  fun s t hst => h s t hst

theorem Lockstep.update {f : σ → σ} {f' : τ → τ} (h : ∀ s t, R s t → R (f s) (f' t)) :
    Lockstep R (modify f : EStateM ε σ PUnit) (modify f' : EStateM ε τ PUnit) :=
  fun s t hst => .ok _ (h s t hst)

theorem Lockstep.ite {c : Prop} [Decidable c] {m₁ m₂ : EStateM ε σ α} {m₁' m₂' : EStateM ε τ α}
    (h₁ : Lockstep R m₁ m₁') (h₂ : Lockstep R m₂ m₂') :
    Lockstep R (if c then m₁ else m₂) (if c then m₁' else m₂') := by
  by_cases hc : c
  · rw [if_pos hc, if_pos hc]
    exact h₁
  · rw [if_neg hc, if_neg hc]
    exact h₂

theorem Lockstep.forM {γ : Type u} {f : γ → EStateM ε σ PUnit} {f' : γ → EStateM ε τ PUnit} :
    ∀ l : List γ, (∀ x ∈ l, Lockstep R (f x) (f' x)) → Lockstep R (l.forM f) (l.forM f')
  | [], _ => .pure _
  | x :: l, h =>
    .bind (h x (List.mem_cons_self ..)) fun _ =>
      Lockstep.forM l fun y hy => h y (List.mem_cons_of_mem _ hy)

end Lib
