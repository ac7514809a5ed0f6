import Mathlib.Data.List.Induction

/-!
# Least-recently-used caches

`LruCache cap C` is a cache of capacity `cap` that is searched by predicate:
`find` hands out a stored element matching the predicate and moves it to the
front, `insert` puts an element at the front and, when the cache is full,
drops the one at the back. Nothing is said about duplicates, which such a
cache keeps. `contents` lists what is stored, most recently used first; the
operations are specified by what they do to that list.

`listLru` is the obvious implementation.
-/

namespace Lib

/-- An LRU cache of capacity `cap`, for elements of any type. -/
class LruCache (cap : Nat) (C : Type → Type) where
  empty {α : Type} : C α
  find {α : Type} : (α → Bool) → C α → Option α × C α
  insert {α : Type} : α → C α → C α
  evictAll {α : Type} : C α → C α
  /-- What is stored, most recently used first. -/
  contents {α : Type} : C α → List α
  contents_empty {α : Type} : contents (empty : C α) = []
  contents_evictAll {α : Type} (c : C α) : contents (evictAll c) = []
  contents_insert {α : Type} (a : α) (c : C α) :
    contents (insert a c) = a :: (contents c).take (cap - 1)
  find_none {α : Type} {p : α → Bool} {c : C α} (h : (find p c).1 = none) :
    (∀ a ∈ contents c, p a = false) ∧ contents (find p c).2 = contents c
  find_some {α : Type} {p : α → Bool} {c : C α} {a : α} (h : (find p c).1 = some a) :
    p a = true ∧ ∃ l₁ l₂, contents c = l₁ ++ a :: l₂ ∧ contents (find p c).2 = a :: (l₁ ++ l₂)

namespace LruCache

variable {cap : Nat} {C : Type → Type} [L : LruCache cap C] {α : Type}

/-- What is handed out was stored. -/
theorem mem_of_find {p : α → Bool} {c : C α} {a : α} (h : (L.find p c).1 = some a) :
    a ∈ L.contents c ∧ p a = true := by
  obtain ⟨hp, l₁, l₂, hc, -⟩ := L.find_some h
  exact ⟨by rw [hc]; simp, hp⟩

/-- Looking something up only moves it. -/
theorem perm_find (p : α → Bool) (c : C α) : (L.contents (L.find p c).2).Perm (L.contents c) := by
  cases hf : (L.find p c).1 with
  | none => rw [(L.find_none hf).2]
  | some a =>
    obtain ⟨-, l₁, l₂, hc, hc'⟩ := L.find_some hf
    rw [hc, hc']
    exact List.perm_middle.symm

/-- Looking something up stores nothing new. -/
theorem mem_find {p : α → Bool} {c : C α} {a : α} (h : a ∈ L.contents (L.find p c).2) :
    a ∈ L.contents c :=
  (perm_find p c).mem_iff.mp h

/-- Inserting stores at most the inserted element. -/
theorem mem_insert {c : C α} {a b : α} (h : b ∈ L.contents (L.insert a c)) :
    b = a ∨ b ∈ L.contents c := by
  rw [L.contents_insert, List.mem_cons] at h
  rcases h with rfl | h
  · exact Or.inl rfl
  · exact Or.inr (List.mem_of_mem_take h)

/-- Of several elements inserted one after the other the last is at the front. -/
theorem contents_foldl_insert (hcap : 0 < cap) (as : List α) (c : C α) (hne : as ≠ []) :
    L.contents (as.foldl (fun c a => L.insert a c) c) = (as.reverse ++ L.contents c).take cap := by
  obtain ⟨k, rfl⟩ : ∃ k, cap = k + 1 := ⟨cap - 1, by omega⟩
  induction as using List.reverseRecOn with
  | nil => exact absurd rfl hne
  | append_singleton as a ih =>
    rw [List.foldl_append, List.foldl_cons, List.foldl_nil, L.contents_insert,
      List.reverse_append, List.reverse_cons, List.reverse_nil, List.nil_append,
      List.singleton_append, List.cons_append, List.take_succ_cons]
    by_cases has : as = []
    · rw [has]
      rfl
    · rw [ih has, Nat.add_sub_cancel, List.take_take, Nat.min_eq_left (Nat.le_succ k)]

end LruCache

/-- The list implementation: most recently used first. -/
@[reducible] def listLru (cap : Nat) : LruCache cap List where
  empty := []
  find p l :=
    match l.find? p with
    | some a => (some a, a :: l.eraseP p)
    | none => (none, l)
  insert a l := a :: l.take (cap - 1)
  evictAll _ := []
  contents l := l
  contents_empty := rfl
  contents_evictAll _ := rfl
  contents_insert _ _ := rfl
  find_none {α p l} h := by
    cases hf : l.find? p with
    | some a => rw [hf] at h; simp at h
    | none =>
      refine ⟨fun a ha => ?_, rfl⟩
      simpa using List.find?_eq_none.mp hf a ha
  find_some {α p l a} h := by
    cases hf : l.find? p with
    | none => rw [hf] at h; simp at h
    | some b =>
      rw [hf] at h
      obtain rfl : b = a := by simpa using h
      obtain ⟨hb, l₁, l₂, hl, hne⟩ := List.find?_eq_some_iff_append.mp hf
      refine ⟨hb, l₁, l₂, hl, ?_⟩
      have herase : l.eraseP p = l₁ ++ l₂ := by
        rw [hl, List.eraseP_append_right _ (by simpa using hne), List.eraseP_cons_of_pos hb]
      show b :: l.eraseP p = b :: (l₁ ++ l₂)
      rw [herase]

end Lib
