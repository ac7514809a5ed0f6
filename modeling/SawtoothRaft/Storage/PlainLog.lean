import Mathlib.Algebra.Group.Nat.Defs
import SawtoothRaft.Storage.Message

/-!
# A plain log: what the storage is for

A Raft storage is a log with its beginning cut off, plus three things kept
beside it. `PlainLog` says so without files: a boundary index with its term
(everything up to the boundary has been compacted away), the entries after it,
the hard state, the snapshot and the applied index. What makes such a value
sensible travels with it as fields: the entries are contiguous from the
boundary on, terms are positive, and everything fits a `u64` with one to
spare, so that the index after the last one still does.

`PlainLog.step?` is a language of operations on a storage, each defined only
where it makes sense: appending a contiguous batch that starts inside the log
or right after it (and then replaces everything from there on), compacting up
to an index in the log, taking a newer snapshot at an index in the log, the
setters, and reopening, which must change nothing. Missing is `apply_snapshot`,
which `process_ready` calls as well: what `FsStorage` does there is not what
its trait asks for (`Storage/Overwrite.lean`).
-/

namespace SawtoothRaft

open Lib

/-! ## Contiguous entries -/

/-- The entries carry the indices `s`, `s + 1`, and so on. -/
def Contiguous : Nat → List Entry → Prop
  | _, [] => True
  | s, e :: es => e.index = s ∧ Contiguous (s + 1) es

instance : ∀ (s : Nat) (es : List Entry), Decidable (Contiguous s es)
  | _, [] => inferInstanceAs (Decidable True)
  | s, _ :: es => @instDecidableAnd _ _ _ (instDecidableContiguous (s + 1) es)

theorem Contiguous.index {s : Nat} {es : List Entry} (h : Contiguous s es) {k : Nat} {e : Entry}
    (he : es[k]? = some e) : e.index = s + k := by
  induction es generalizing s k with
  | nil => simp at he
  | cons x es ih =>
    obtain ⟨hx, htail⟩ := h
    cases k with
    | zero => simp at he; rw [← he, hx]; rfl
    | succ k =>
      rw [List.getElem?_cons_succ] at he
      rw [ih htail he]
      omega

theorem contiguous_of_index {s : Nat} {es : List Entry}
    (h : ∀ k e, es[k]? = some e → e.index = s + k) : Contiguous s es := by
  induction es generalizing s with
  | nil => trivial
  | cons x es ih =>
    refine ⟨h 0 x rfl, ih fun k e he => ?_⟩
    rw [h (k + 1) e he]
    omega

theorem contiguous_append {s : Nat} {es es' : List Entry} :
    Contiguous s (es ++ es') ↔ Contiguous s es ∧ Contiguous (s + es.length) es' := by
  induction es generalizing s with
  | nil => simp [Contiguous]
  | cons e es ih =>
    simp only [List.cons_append, Contiguous, ih, List.length_cons, and_assoc]
    have : s + 1 + es.length = s + (es.length + 1) := by omega
    rw [this]

theorem Contiguous.take {s : Nat} {es : List Entry} (h : Contiguous s es) (n : Nat) :
    Contiguous s (es.take n) := by
  rw [← List.take_append_drop n es, contiguous_append] at h
  exact h.1

theorem Contiguous.drop {s : Nat} {es : List Entry} (h : Contiguous s es) {n : Nat}
    (hn : n ≤ es.length) : Contiguous (s + n) (es.drop n) := by
  rw [← List.take_append_drop n es, contiguous_append, List.length_take,
    Nat.min_eq_left hn] at h
  exact h.2

theorem Contiguous.index_mem {s : Nat} {es : List Entry} (h : Contiguous s es) {e : Entry}
    (he : e ∈ es) : s ≤ e.index ∧ e.index < s + es.length := by
  obtain ⟨k, hk, hke⟩ := List.getElem_of_mem he
  have hidx := h.index (List.getElem?_eq_some_iff.mpr ⟨hk, hke⟩)
  omega

/-- The last entry of a contiguous list carries the last index. -/
theorem Contiguous.index_getLast {s : Nat} {es : List Entry} (h : Contiguous s es) {e : Entry}
    (he : es.getLast? = some e) : e.index + 1 = s + es.length := by
  rw [List.getLast?_eq_getElem?] at he
  have hidx := h.index he
  have hpos : 0 < es.length := by
    rcases es with _ | ⟨x, es⟩
    · simp at he
    · simp
  omega

/-- The indices of a contiguous list, from its first to its last. -/
theorem Contiguous.mem_iff {s : Nat} {es : List Entry} (h : Contiguous s es) {last : Entry}
    (hlast : es.getLast? = some last) {i : Nat} :
    (∃ e ∈ es, e.index = i) ↔ s ≤ i ∧ i ≤ last.index := by
  have hend := h.index_getLast hlast
  constructor
  · intro ⟨e, he, hi⟩
    have := h.index_mem he
    omega
  · intro ⟨hs, hi⟩
    have hk : i - s < es.length := by omega
    refine ⟨es.get ⟨i - s, hk⟩, List.get_mem _ _, ?_⟩
    have := h.index (List.getElem?_eq_getElem hk)
    rw [List.get_eq_getElem, this]
    omega

theorem Contiguous.map_index {s : Nat} {es : List Entry} (h : Contiguous s es) :
    es.map (·.index) = List.range' s es.length := by
  induction es generalizing s with
  | nil => rfl
  | cons e es ih =>
    obtain ⟨he, htail⟩ := h
    rw [List.map_cons, List.length_cons, List.range'_succ, ih htail, he]

/-! ## The log -/

structure PlainLog where
  boundary : Nat
  boundaryTerm : Nat
  entries : List Entry
  hardState : HardState
  snapshot : Snapshot
  applied : Nat
  contiguous : Contiguous (boundary + 1) entries
  terms : ∀ e ∈ entries, 0 < e.term ∧ e.term < 2 ^ 64
  boundaryTerm_zero : boundary = 0 → boundaryTerm = 0
  boundaryTerm_pos : 0 < boundary → 0 < boundaryTerm
  boundaryTerm_lt : boundaryTerm < 2 ^ 64
  limit : boundary + entries.length + 1 < 2 ^ 64
  applied_lt : applied < 2 ^ 64

namespace PlainLog

def initial : PlainLog where
  boundary := 0
  boundaryTerm := 0
  entries := []
  hardState := default
  snapshot := default
  applied := 0
  contiguous := trivial
  terms := by simp
  boundaryTerm_zero := fun _ => rfl
  boundaryTerm_pos := by simp
  boundaryTerm_lt := by omega
  limit := by simp
  applied_lt := by omega

def firstIndex (l : PlainLog) : Nat := l.boundary + 1

def lastIndex (l : PlainLog) : Nat := l.boundary + l.entries.length

/-- The term at an index, known from the boundary to the last index. -/
def termAt (l : PlainLog) (i : Nat) : Option Nat :=
  if i = l.boundary then some l.boundaryTerm
  else if i < l.boundary then none
  else (l.entries[i - l.boundary - 1]?).map (·.term)

/-- The entries `low`, …, `high - 1`. -/
def slice (l : PlainLog) (low high : Nat) : List Entry :=
  (l.entries.drop (low - l.firstIndex)).take (high - low)

/-! ## Appending -/

/-- A contiguous batch that starts in the log or right after it. -/
def Appendable (l : PlainLog) (s : Nat) (batch : List Entry) : Prop :=
  l.firstIndex ≤ s ∧ s ≤ l.lastIndex + 1 ∧ Contiguous s batch ∧
    (∀ e ∈ batch, 0 < e.term ∧ e.term < 2 ^ 64) ∧ s + batch.length < 2 ^ 64

instance (l : PlainLog) (s : Nat) (batch : List Entry) : Decidable (l.Appendable s batch) :=
  inferInstanceAs (Decidable (_ ∧ _))

/-- The log with everything from `s` on replaced by the batch. -/
def append (l : PlainLog) (s : Nat) (batch : List Entry) (h : l.Appendable s batch) : PlainLog :=
  { l with
    entries := l.entries.take (s - l.firstIndex) ++ batch
    contiguous := by
      obtain ⟨hfirst, hlast, hc, -⟩ := h
      simp only [firstIndex, lastIndex] at hfirst hlast ⊢
      rw [contiguous_append]
      refine ⟨l.contiguous.take _, ?_⟩
      rw [List.length_take, Nat.min_eq_left (by omega)]
      rwa [show l.boundary + 1 + (s - (l.boundary + 1)) = s by omega]
    terms := by
      intro e he
      rcases List.mem_append.mp he with he | he
      · exact l.terms e (List.mem_of_mem_take he)
      · exact h.2.2.2.1 e he
    limit := by
      obtain ⟨hfirst, hlast, -, -, hlim⟩ := h
      simp only [firstIndex, lastIndex] at hfirst hlast ⊢
      rw [List.length_append, List.length_take, Nat.min_eq_left (by omega)]
      omega }

/-! ## Compacting -/

/-- An index in the log. -/
def Has (l : PlainLog) (i : Nat) : Prop := l.firstIndex ≤ i ∧ i ≤ l.lastIndex

instance (l : PlainLog) (i : Nat) : Decidable (l.Has i) := inferInstanceAs (Decidable (_ ∧ _))

theorem Has.lt {l : PlainLog} {i : Nat} (h : l.Has i) : i - l.firstIndex < l.entries.length := by
  obtain ⟨hlo, hhi⟩ := h
  simp only [firstIndex, lastIndex] at hlo hhi ⊢
  omega

/-- The entry at an index in the log. -/
def entryAt (l : PlainLog) (i : Nat) (h : l.Has i) : Entry := l.entries.get ⟨i - l.firstIndex, h.lt⟩

theorem entryAt_mem (l : PlainLog) (i : Nat) (h : l.Has i) : l.entryAt i h ∈ l.entries :=
  List.get_mem _ _

theorem getElem?_entryAt (l : PlainLog) (i : Nat) (h : l.Has i) :
    l.entries[i - l.firstIndex]? = some (l.entryAt i h) :=
  List.getElem?_eq_getElem h.lt

/-- The log without its entries up to `c`. -/
def compact (l : PlainLog) (c : Nat) (h : l.Has c) : PlainLog :=
  { l with
    boundary := c
    boundaryTerm := (l.entryAt c h).term
    entries := l.entries.drop (c + 1 - l.firstIndex)
    contiguous := by
      have hlt := h.lt
      obtain ⟨hlo, -⟩ := h
      simp only [firstIndex] at hlo hlt ⊢
      have := l.contiguous.drop (n := c + 1 - (l.boundary + 1)) (by omega)
      rwa [show l.boundary + 1 + (c + 1 - (l.boundary + 1)) = c + 1 by omega] at this
    terms := fun e he => l.terms e (List.mem_of_mem_drop he)
    boundaryTerm_zero := by
      obtain ⟨hlo, -⟩ := h
      simp only [firstIndex] at hlo
      omega
    boundaryTerm_pos := fun _ => (l.terms _ (l.entryAt_mem c h)).1
    boundaryTerm_lt := (l.terms _ (l.entryAt_mem c h)).2
    limit := by
      have hlim := l.limit
      obtain ⟨hlo, hhi⟩ := h
      simp only [firstIndex, lastIndex] at hlo hhi ⊢
      rw [List.length_drop]
      omega }

/-! ## Operations -/

/-- What is done to a storage. -/
inductive Op where
  | append (s : Nat) (batch : List Entry)
  | compact (c : Nat)
  | createSnapshot (index : Nat) (confState : Option ConfState) (data : Bytes)
  | setHardstate (hardState : HardState)
  | setApplied (applied : Nat)
  | reopen
  deriving Repr

/-- The metadata of a snapshot taken at `index`. -/
def snapshotAt (l : PlainLog) (index term : Nat) (confState : Option ConfState) (data : Bytes) :
    Snapshot :=
  { data, metadata := some { index, term, confState := confState.or l.snapshot.getMetadata.confState } }

/-- The log after an operation, for the operations that make sense. Appending
nothing changes nothing. -/
def step? (l : PlainLog) : Op → Option PlainLog
  | .append _ [] => some l
  | .append s (e :: es) => if h : l.Appendable s (e :: es) then some (l.append s (e :: es) h) else none
  | .compact c => if h : l.Has c then some (l.compact c h) else none
  | .createSnapshot index confState data =>
    if h : l.Has index ∧ l.snapshot.getMetadata.index < index then
      some { l with snapshot := l.snapshotAt index (l.entryAt index h.1).term confState data }
    else none
  | .setHardstate hardState => some { l with hardState }
  | .setApplied applied => if h : applied < 2 ^ 64 then some { l with applied, applied_lt := h } else none
  | .reopen => some l

/-- An operation that made sense, by its kind. -/
inductive Took (l : PlainLog) : Op → PlainLog → Prop
  | nothing (s : Nat) : Took l (.append s []) l
  | append (s : Nat) (e : Entry) (es : List Entry) (h : l.Appendable s (e :: es)) :
      Took l (.append s (e :: es)) (l.append s (e :: es) h)
  | compact (c : Nat) (h : l.Has c) : Took l (.compact c) (l.compact c h)
  | createSnapshot (index : Nat) (confState : Option ConfState) (data : Bytes)
      (h : l.Has index) (hnew : l.snapshot.getMetadata.index < index) :
      Took l (.createSnapshot index confState data)
        { l with snapshot := l.snapshotAt index (l.entryAt index h).term confState data }
  | setHardstate (hardState : HardState) : Took l (.setHardstate hardState) { l with hardState }
  | setApplied (applied : Nat) (h : applied < 2 ^ 64) :
      Took l (.setApplied applied) { l with applied, applied_lt := h }
  | reopen : Took l .reopen l

theorem took_of_step {l l' : PlainLog} {op : Op} (h : l.step? op = some l') : l.Took op l' := by
  cases op with
  | append s batch =>
    cases batch with
    | nil =>
      obtain rfl := Option.some.inj h
      exact .nothing s
    | cons e es =>
      simp only [step?] at h
      split at h
      next ha =>
        obtain rfl := Option.some.inj h
        exact .append s e es ha
      next => cases h
  | compact c =>
    simp only [step?] at h
    split at h
    next hc =>
      obtain rfl := Option.some.inj h
      exact .compact c hc
    next => cases h
  | createSnapshot index cs data =>
    simp only [step?] at h
    split at h
    next hi =>
      obtain rfl := Option.some.inj h
      exact .createSnapshot index cs data hi.1 hi.2
    next => cases h
  | setHardstate hs =>
    obtain rfl := Option.some.inj h
    exact .setHardstate hs
  | setApplied a =>
    simp only [step?] at h
    split at h
    next ha =>
      obtain rfl := Option.some.inj h
      exact .setApplied a ha
    next => cases h
  | reopen =>
    obtain rfl := Option.some.inj h
    exact .reopen

end PlainLog

end SawtoothRaft
