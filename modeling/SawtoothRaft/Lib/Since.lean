import Mathlib.Data.List.Basic

/-!
# What has happened since

A trace is a list of observations that grows at its end. `Since ok x Q t` is
the one temporal notion needed here: whenever `x` has happened in `t`, and
nothing but `ok` observations since, `Q` holds of what has happened since. The
rules say how it survives one more observation, and how it is established by
the last few.
-/

namespace Lib

variable {α : Type} {ok : α → Prop} {x o : α} {Q Q' : List α → Prop} {t : List α}

def Since (ok : α → Prop) (x : α) (Q : List α → Prop) (t : List α) : Prop :=
  ∀ u v, t = u ++ x :: v → (∀ o ∈ v, ok o) → Q v

theorem Since.imp (h : Since ok x Q t) (hQ : ∀ v, Q v → Q' v) : Since ok x Q' t :=
  fun u v ht hv => hQ v (h u v ht hv)

/-- What follows `x` ends as the trace does, if `x` is not in that end. -/
theorem suffix_of_not_mem {u v w s : List α} (h : w ++ s = u ++ x :: v) (hx : x ∉ s) :
    ∃ v', v = v' ++ s := by
  rcases List.append_eq_append_iff.mp h with ⟨a, rfl, rfl⟩ | ⟨a, rfl, ha⟩
  · exact absurd (List.mem_append_right _ (List.mem_cons_self ..)) hx
  · cases a with
    | nil =>
      rw [List.nil_append] at ha
      exact absurd (ha ▸ List.mem_cons_self ..) hx
    | cons y a =>
      injection ha with _ ha
      exact ⟨a, ha⟩

/-- The last few observations may settle it for good. -/
theorem since_of_suffix {w s : List α} (hx : x ∉ s) (hQ : ∀ v, Q (v ++ s)) :
    Since ok x Q (w ++ s) := by
  intro u v ht _
  obtain ⟨v', rfl⟩ := suffix_of_not_mem ht hx
  exact hQ v'

theorem Since.snoc (h : Since ok x Q t) (ho : o ≠ x) (hQ : ∀ v, Q v → Q (v ++ [o])) :
    Since ok x Q (t ++ [o]) := by
  intro u v ht hv
  obtain ⟨v', rfl⟩ := suffix_of_not_mem ht (by simpa using ho.symm)
  have ht' : t = u ++ x :: v' := by
    rw [← List.cons_append, ← List.append_assoc] at ht
    exact List.append_cancel_right ht
  exact hQ v' (h u v' ht' fun o ho => hv o (List.mem_append_left _ ho))

end Lib
