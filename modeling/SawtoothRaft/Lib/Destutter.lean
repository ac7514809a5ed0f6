import Mathlib.Data.List.Destutter
import Mathlib.Data.List.Nodup

/-!
# Reading a log in attempts

A reader goes through a log without repetitions and is interrupted. It starts
again where it has been, or one element before that, since it may have been
interrupted between an element and the note that it is done with it. What it
has read is the log up to a point, with repetitions that stand next to each
other: `List.destutter` takes them away. `destutter_attempt` is the step for
one more attempt.
-/

namespace Lib

variable {α : Type}

private theorem getLast?_take_ne {l : List α} (hl : l.Nodup) {n : Nat} (hn : n < l.length) :
    (l.take n).getLast? ≠ some l[n] := by
  intro h
  obtain ⟨j, hj, hjn⟩ := List.mem_take_iff_getElem.mp (List.mem_of_getLast? h)
  have := (hl.getElem_inj_iff).mp hjn
  omega

variable [DecidableEq α]

private theorem destutter'_snoc (a x : α) (as : List α) :
    (as ++ [x]).destutter' (· ≠ ·) a
      = if (as.destutter' (· ≠ ·) a).getLast? = some x then as.destutter' (· ≠ ·) a
        else as.destutter' (· ≠ ·) a ++ [x] := by
  induction as generalizing a with
  | nil => by_cases h : a = x <;> simp [List.destutter', h]
  | cons b as ih =>
    by_cases h : a = b
    · have hneg : ¬ (a ≠ b) := fun hne => hne h
      rw [List.cons_append, List.destutter'_cons_neg _ hneg, List.destutter'_cons_neg _ hneg, ih]
    · rw [List.cons_append, List.destutter'_cons_pos _ h, List.destutter'_cons_pos _ h, ih]
      have hlast : (a :: as.destutter' (· ≠ ·) b).getLast?
          = (as.destutter' (· ≠ ·) b).getLast? := by
        rw [List.getLast?_cons, List.getLast?_eq_some_getLast (List.destutter'_ne_nil _ _)]
        rfl
      rw [hlast]
      split <;> rfl

/-- One more element repeats the last one or is a new one. -/
theorem destutter_snoc (as : List α) (x : α) :
    (as ++ [x]).destutter (· ≠ ·)
      = if (as.destutter (· ≠ ·)).getLast? = some x then as.destutter (· ≠ ·)
        else as.destutter (· ≠ ·) ++ [x] := by
  cases as with
  | nil => rfl
  | cons a as => exact destutter'_snoc a x as

/-- **Step**: `m` elements of the log have been read, and the next attempt
starts behind the first `i` of them, one less than all at most. -/
theorem destutter_attempt {l as bs : List α} (hl : l.Nodup) {m i : Nat}
    (has : as.destutter (· ≠ ·) = l.take m) (hbs : bs <+: l.drop i) (him : i ≤ m)
    (hmi : m ≤ i + 1) :
    (as ++ bs).destutter (· ≠ ·) = l.take (max m (i + bs.length)) := by
  induction bs using List.reverseRecOn with
  | nil => rw [List.append_nil, has, List.length_nil, Nat.add_zero, Nat.max_eq_left him]
  | append_singleton bs x ih =>
    -- the element of the log that is read
    obtain ⟨hlt, hx⟩ : ∃ h : i + bs.length < l.length, x = l[i + bs.length] := by
      obtain ⟨v, hv⟩ := hbs
      have hget : l[i + bs.length]? = some x := by
        rw [← List.getElem?_drop, ← hv]
        simp
      obtain ⟨hlt, hget⟩ := List.getElem?_eq_some_iff.mp hget
      exact ⟨hlt, hget.symm⟩
    rw [← List.append_assoc, destutter_snoc, ih ((List.prefix_append ..).trans hbs),
      List.length_append, List.length_singleton]
    rcases Nat.lt_or_ge (i + bs.length) m with hold | hnew
    · -- the first one of the attempt has been read before
      have hmax : m = i + bs.length + 1 := by omega
      have hlast : (l.take (max m (i + bs.length))).getLast? = some x := by
        rw [Nat.max_eq_left (Nat.le_of_lt hold), hmax, List.take_succ_eq_append_getElem hlt, hx]
        exact List.getLast?_concat ..
      rw [if_pos hlast, Nat.max_eq_left (Nat.le_of_lt hold), ← Nat.add_assoc, ← hmax, Nat.max_self]
    · rw [Nat.max_eq_right hnew, hx, if_neg (getLast?_take_ne hl hlt),
        ← List.take_succ_eq_append_getElem hlt, ← Nat.add_assoc,
        Nat.max_eq_right (Nat.le_succ_of_le hnew)]

end Lib
