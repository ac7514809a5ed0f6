import Mathlib.Order.Nat

/-!
# What happens sooner or later

The moments of an endless run are the natural numbers, and what holds at a moment
is a predicate on them. `LeadsTo k P Q` says that from the moment `k` on `Q`
comes whenever `P` has come, at once or later.

The rule that steps come in by is `leadsTo_of_step`: nothing but `Q` puts an end
to `P`, and there is a moment ahead at which it is bound to. The rest is
composition.
-/

namespace Lib

/-- From `k` on, `P` is followed by `Q`. -/
def LeadsTo (k : Nat) (P Q : Nat → Prop) : Prop := ∀ i, k ≤ i → P i → ∃ j, i ≤ j ∧ Q j

section
variable {k : Nat} {P P' Q R : Nat → Prop}

theorem LeadsTo.of_imp (h : ∀ i, k ≤ i → P i → Q i) : LeadsTo k P Q :=
  fun i hi hP => ⟨i, le_refl i, h i hi hP⟩

theorem LeadsTo.trans (hPQ : LeadsTo k P Q) (hQR : LeadsTo k Q R) : LeadsTo k P R := by
  intro i hi hP
  obtain ⟨j, hij, hQ⟩ := hPQ i hi hP
  obtain ⟨l, hjl, hR⟩ := hQR j (hi.trans hij) hQ
  exact ⟨l, hij.trans hjl, hR⟩

theorem LeadsTo.or (h : LeadsTo k P Q) (h' : LeadsTo k P' Q) :
    LeadsTo k (fun i => P i ∨ P' i) Q :=
  fun i hi hP => hP.elim (h i hi) (h' i hi)

theorem LeadsTo.intro {α : Type} {P : α → Nat → Prop} (h : ∀ a, LeadsTo k (P a) Q) :
    LeadsTo k (fun i => ∃ a, P a i) Q := by
  intro i hi hP
  obtain ⟨a, hP⟩ := hP
  exact h a i hi hP

/-- As long as `Q` has not come, `P` stays, and it is bound to be over in the step
from some moment `j` on. -/
theorem leadsTo_of_step (hstay : ∀ i, k ≤ i → P i → P (i + 1) ∨ Q (i + 1))
    (hgoes : ∀ i, k ≤ i → P i → ∃ j, i ≤ j ∧ (P j → Q (j + 1))) : LeadsTo k P Q := by
  intro i hi hP
  obtain ⟨j, hij, hj⟩ := hgoes i hi hP
  obtain ⟨d, rfl⟩ := Nat.exists_eq_add_of_le hij
  -- up to that moment `P` has stayed, or `Q` has come before
  have hupto : ∀ m, P (i + m) ∨ ∃ j, i ≤ j ∧ Q j := by
    intro m
    induction m with
    | zero => exact Or.inl hP
    | succ m ih =>
      rcases ih with hP | hQ
      · rcases hstay (i + m) (hi.trans (Nat.le_add_right i m)) hP with hP | hQ
        · exact Or.inl hP
        · exact Or.inr ⟨i + m + 1, by omega, hQ⟩
      · exact Or.inr hQ
  rcases hupto d with hP | hQ
  · exact ⟨i + d + 1, by omega, hj hP⟩
  · exact hQ

end

end Lib
