import Mathlib.Data.List.Basic

/-!
# `Ticker`

The engine calls `Ticker::tick` once in every turn of its loop, with `node.tick`
as the callback, and waits for the next update no longer than it returns. Time
is an argument here, in any unit, and the callback takes none of it.

A call that does not fire takes the time since the last firing off `remaining`,
but leaves `last` where it is, so the next call takes the same stretch of time
off once more. The ticker keeps its promise (`Punctual`) as long as this cannot
be seen, and `punctual_iff_sparse` says exactly when that is: in each period at
most one call may come after its beginning and before its end.
-/

namespace SawtoothRaft

structure Ticker where
  last : Nat
  timeout : Nat
  remaining : Nat
  deriving DecidableEq, Repr

namespace Ticker

/-- `Ticker::new` at time `now`. -/
def new (period now : Nat) : Ticker := { last := now, timeout := period, remaining := period }

/-- A call to `tick`: when it was made, whether it fired and what it returned. -/
structure Call where
  time : Nat
  fired : Bool
  left : Nat
  deriving DecidableEq, Repr

def tick (t : Ticker) (now : Nat) : Call × Ticker :=
  let elapsed := now - t.last
  if elapsed ≥ t.remaining then
    let t := { t with last := now, remaining := t.timeout }
    ({ time := now, fired := true, left := t.remaining }, t)
  else
    let t := { t with remaining := t.remaining - elapsed }
    ({ time := now, fired := false, left := t.remaining }, t)

/-- One call after the other. -/
def calls (t : Ticker) : List Nat → List Call
  | [] => []
  | now :: times => (t.tick now).1 :: calls (t.tick now).2 times

/-! ## What a ticker is for -/

/-- What a call has to do in a period that began at `since`. -/
structure OnTime (timeout since : Nat) (c : Call) : Prop where
  notEarly : c.fired = true → timeout ≤ c.time - since
  notLate : timeout ≤ c.time - since → c.fired = true
  left : c.fired = false → c.left = timeout - (c.time - since)

instance (timeout since : Nat) (c : Call) : Decidable (OnTime timeout since c) :=
  decidable_of_iff ((c.fired = true → timeout ≤ c.time - since) ∧
      (timeout ≤ c.time - since → c.fired = true) ∧
      (c.fired = false → c.left = timeout - (c.time - since)))
    ⟨fun h => ⟨h.1, h.2.1, h.2.2⟩, fun h => ⟨h.notEarly, h.notLate, h.left⟩⟩

/-- Every call is on time. A period begins at the creation, and with each
firing. -/
def Punctual (timeout : Nat) : Nat → List Call → Prop
  | _, [] => True
  | since, c :: cs =>
    OnTime timeout since c ∧ Punctual timeout (if c.fired then c.time else since) cs

instance Punctual.decidable (timeout : Nat) :
    ∀ (since : Nat) (cs : List Call), Decidable (Punctual timeout since cs)
  | _, [] => isTrue trivial
  | since, c :: cs =>
    have : Decidable (Punctual timeout (if c.fired then c.time else since) cs) :=
      Punctual.decidable timeout _ cs
    inferInstanceAs (Decidable (_ ∧ _))

/-! ## When it keeps its promise -/

/-- No period has two calls of which the first comes after its beginning and
the second before its end. -/
def Sparse (timeout : Nat) : Nat → List Nat → Prop
  | _, [] => True
  | since, now :: times =>
    if timeout ≤ now - since then Sparse timeout now times
    else (0 < now - since → ∀ next ∈ times.head?, timeout ≤ next - since) ∧
      Sparse timeout since times

variable {timeout since : Nat}

/-- A call that comes when the period is over begins the next one. -/
theorem tick_over {remaining now : Nat} (hle : remaining ≤ timeout)
    (h : timeout ≤ now - since) :
    tick ⟨since, timeout, remaining⟩ now
      = ({ time := now, fired := true, left := timeout }, ⟨now, timeout, timeout⟩) :=
  if_pos (Nat.le_trans hle h)

theorem tick_within {remaining now : Nat} (h : now - since < remaining) :
    tick ⟨since, timeout, remaining⟩ now
      = ({ time := now, fired := false, left := remaining - (now - since) },
          ⟨since, timeout, remaining - (now - since)⟩) :=
  if_neg (Nat.not_le.mpr h)

/-- A firing is on time exactly if the period is over. -/
theorem onTime_fired {now left : Nat} :
    OnTime timeout since { time := now, fired := true, left } ↔ timeout ≤ now - since :=
  ⟨fun h => h.notEarly rfl, fun h => ⟨fun _ => h, fun _ => rfl, by simp⟩⟩

/-- Any other call, if it is not over and what is left is returned. -/
theorem onTime_not_fired {now left : Nat} :
    OnTime timeout since { time := now, fired := false, left } ↔
      now - since < timeout ∧ left = timeout - (now - since) := by
  constructor
  · intro h
    refine ⟨?_, h.left rfl⟩
    by_contra hover
    exact absurd (h.notLate (Nat.not_lt.mp hover)) (by simp)
  · intro h
    refine ⟨by simp, fun hover => ?_, fun _ => h.2⟩
    exact absurd hover (Nat.not_le.mpr h.1)

/-- After a call that has taken something off, the next one is on time exactly
if the period is over by then. -/
theorem onTime_tick_spent {taken now : Nat} (hpos : 0 < taken) (hlt : taken < timeout) :
    OnTime timeout since (tick ⟨since, timeout, timeout - taken⟩ now).1 ↔
      timeout ≤ now - since := by
  rcases Nat.lt_or_ge (now - since) (timeout - taken) with h | h
  · rw [tick_within h, onTime_not_fired]
    omega
  · have hfired : (tick ⟨since, timeout, timeout - taken⟩ now).1
        = { time := now, fired := true, left := timeout } := by
      unfold tick
      rw [if_pos h]
    rw [hfired, onTime_fired]

/-- Both kinds of period at once: one in which nothing has been taken off, and
one that has been spent in part and must see no other call before its end. -/
theorem punctual_calls (times : List Nat) : ∀ since,
    (Punctual timeout since (calls ⟨since, timeout, timeout⟩ times) ↔ Sparse timeout since times) ∧
    ∀ taken, 0 < taken → taken < timeout →
      (Punctual timeout since (calls ⟨since, timeout, timeout - taken⟩ times) ↔
        (∀ next ∈ times.head?, timeout ≤ next - since) ∧ Sparse timeout since times) := by
  induction times with
  | nil =>
    intro since
    exact ⟨Iff.rfl, fun _ _ _ => ⟨fun _ => ⟨by simp, trivial⟩, fun _ => trivial⟩⟩
  | cons now times ih =>
    intro since
    have hover : ∀ {remaining}, remaining ≤ timeout → timeout ≤ now - since →
        (Punctual timeout since (calls ⟨since, timeout, remaining⟩ (now :: times)) ↔
          Sparse timeout since (now :: times)) := by
      intro remaining hle h
      rw [calls, tick_over hle h, Punctual, onTime_fired, Sparse, if_pos h]
      exact ⟨fun h' => (ih now).1.mp h'.2, fun h' => ⟨h, (ih now).1.mpr h'⟩⟩
    refine ⟨?_, fun taken hpos hlt => ?_⟩
    · rcases Nat.lt_or_ge (now - since) timeout with h | h
      · rw [calls, tick_within h, Punctual, onTime_not_fired, Sparse, if_neg (Nat.not_le.mpr h)]
        -- a call at the very beginning takes nothing off
        rcases Nat.eq_zero_or_pos (now - since) with hzero | hpos
        · rw [hzero, Nat.sub_zero]
          exact ⟨fun h' => ⟨fun h => absurd h (by omega), (ih since).1.mp h'.2⟩,
            fun h' => ⟨⟨by omega, rfl⟩, (ih since).1.mpr h'.2⟩⟩
        · have hspent := (ih since).2 _ hpos h
          exact ⟨fun h' => ⟨fun _ => (hspent.mp h'.2).1, (hspent.mp h'.2).2⟩,
            fun h' => ⟨⟨h, rfl⟩, hspent.mpr ⟨h'.1 hpos, h'.2⟩⟩⟩
      · exact hover (Nat.le_refl _) h
    · have hhead : (∀ next ∈ (now :: times).head?, timeout ≤ next - since) ↔
          timeout ≤ now - since := by simp
      rw [hhead]
      constructor
      · intro h
        have hend := (onTime_tick_spent hpos hlt).mp h.1
        exact ⟨hend, (hover (Nat.sub_le ..) hend).mp h⟩
      · intro h
        exact (hover (Nat.sub_le ..) h.1).mpr h.2

/-- **A ticker is punctual, exactly if it is not called too often**: any two
consecutive firings are a timeout apart, the first call after that fires and
every other returns the time that is left, if and only if no period has a call
after its beginning that is followed by one before its end. -/
theorem punctual_iff_sparse (timeout created : Nat) (times : List Nat) :
    Punctual timeout created (calls (new timeout created) times) ↔ Sparse timeout created times :=
  (punctual_calls times created).1

/-- With a timeout of 100, calls at 40 and 70: the second one fires, 30 units
early. -/
theorem fires_early :
    List.Pairwise (· ≤ ·) [0, 40, 70] ∧
    calls (new 100 0) [40, 70]
      = [{ time := 40, fired := false, left := 60 }, { time := 70, fired := true, left := 100 }] ∧
    ¬ Punctual 100 0 (calls (new 100 0) [40, 70]) := by
  decide

end Ticker

end SawtoothRaft
