import Mathlib.Data.List.Induction
import Mathlib.Data.List.Infix

/-!
# What comes before

A trace grows at its end, and what may be added depends on what is there.
`Justified R t` says that for each of the elements of `t`: `R` holds of what comes
before the element and of the element itself. A property of such traces is proved
by adding one element at a time (`Justified.induct`).
-/

namespace Lib

variable {α : Type} {R : List α → α → Prop} {t u : List α} {a : α}

def Justified (R : List α → α → Prop) (t : List α) : Prop := ∀ u a v, t = u ++ a :: v → R u a

theorem Justified.nil : Justified R [] := by
  intro u a v h
  exact absurd h (by simp)

theorem Justified.snoc (h : Justified R t) (ha : R t a) : Justified R (t ++ [a]) := by
  intro u b v ht
  rcases List.eq_nil_or_concat v with rfl | ⟨v', c, rfl⟩
  · obtain ⟨rfl, hb⟩ := List.append_inj' ht rfl
    obtain rfl := List.singleton_inj.mp hb
    exact ha
  · rw [List.concat_eq_append, ← List.cons_append, ← List.append_assoc] at ht
    exact h u b v' (List.append_inj' ht rfl).1

theorem Justified.of_prefix (h : Justified R t) (hu : u <+: t) : Justified R u := by
  obtain ⟨w, rfl⟩ := hu
  intro u' a v hu'
  exact h u' a (v ++ w) (by rw [hu', List.append_assoc, List.cons_append])

/-- The element that comes after `u`. -/
theorem Justified.of_concat_prefix (h : Justified R t) (hu : u ++ [a] <+: t) : R u a := by
  obtain ⟨v, hv⟩ := hu
  exact h u a v (by rw [← hv, List.append_assoc, List.singleton_append])

theorem Justified.append_map {β : Type} {f : β → α} (h : Justified R t)
    (hf : ∀ (bs : List β) b, R (t ++ bs.map f) (f b)) (bs : List β) :
    Justified R (t ++ bs.map f) := by
  induction bs using List.reverseRecOn with
  | nil => rwa [List.map_nil, List.append_nil]
  | append_singleton bs b ih =>
    rw [List.map_append, ← List.append_assoc]
    exact ih.snoc (hf bs b)

theorem Justified.induct {P : List α → Prop} (h : Justified R t) (hnil : P [])
    (hsnoc : ∀ t a, P t → R t a → P (t ++ [a])) : P t := by
  induction t using List.reverseRecOn with
  | nil => exact hnil
  | append_singleton t a ih =>
    exact hsnoc t a (ih (h.of_prefix (List.prefix_append t [a]))) (h t a [] rfl)

end Lib
