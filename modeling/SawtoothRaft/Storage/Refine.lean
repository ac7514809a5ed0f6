import SawtoothRaft.Storage.FsSpec

/-!
# `FsStorage` refines a plain log

The log of an `FsStorage` is spread over one file per index and the files
`first`, `last` and `term`; the entry files of a replaced suffix stay behind,
past `last`. `Holds d first es` says which log a directory holds, by what its
readers return and without a word about files outside it, and `Rel d l` adds
the boundary and what is kept beside the log.

> `fsStorage_refines_plainLog`: from an empty directory, any sequence of
> operations that makes sense on a plain log succeeds on the directory, and
> then every in-range query answers as the plain log does.

One lemma per operation re-establishes `Rel`; leftovers never matter because
`Rel` does not mention them, and re-extension overwrites before it publishes.
Below the boundary the opposite is needed, that *no* file is left:
`FsStorage::term` asks the entry file before it thinks of the boundary.
-/

namespace SawtoothRaft

open Lib

namespace FsStorage

variable [Protobuf]

/-! ## The log a directory holds -/

/-- The directory holds the log `es` from index `first` on. -/
structure Holds (d : Dir) (first : Nat) (es : List Entry) : Prop where
  readFirst : readFirstIndex d = .ok first
  readLast : readLastIndex d = .ok (first + es.length - 1)
  pos : 1 ≤ first
  contiguous : Contiguous first es
  files : ∀ k e, es[k]? = some e → readEntry d (first + k) = .ok e

theorem Holds.firstIndex_eq {d : Dir} {first : Nat} {es : List Entry} (h : Holds d first es) :
    FsStorage.firstIndex d = .ok first :=
  ioQuery_eq_ok.mpr h.readFirst

theorem Holds.lastIndex_eq {d : Dir} {first : Nat} {es : List Entry} (h : Holds d first es) :
    FsStorage.lastIndex d = .ok (first + es.length - 1) :=
  ioQuery_eq_ok.mpr h.readLast

/-- Any non-empty range inside the log is answered from it. -/
theorem Holds.entries_eq {d : Dir} {first : Nat} {es : List Entry} (h : Holds d first es)
    {low high : Nat} (m : Nat) (hlow : first ≤ low) (hlt : low < high)
    (hhigh : high ≤ first + es.length) :
    FsStorage.entries d low high m = .ok ((es.drop (low - first)).take (high - low)) := by
  have hread : readEntries d low (high - low) = .ok ((es.drop (low - first)).take (high - low)) := by
    rw [readEntries_eq_ok]
    refine ⟨by rw [List.length_take, List.length_drop]; omega, ?_⟩
    intro k e he
    have hk : k < high - low := by
      by_contra hge
      rw [List.getElem?_eq_none (by rw [List.length_take]; omega)] at he
      simp at he
    rw [List.getElem?_take_of_lt hk, List.getElem?_drop] at he
    have := h.files _ e he
    rwa [show first + (low - first + k) = low + k by omega] at this
  refine (entries_eq_ok hlt).mpr ⟨_, _, h.readFirst, h.readLast, hlow, ?_, hread⟩
  have := h.pos
  omega

theorem Holds.term_eq {d : Dir} {first : Nat} {es : List Entry} (h : Holds d first es)
    {k : Nat} {e : Entry} (he : es[k]? = some e) : FsStorage.term d (first + k) = .ok e.term :=
  term_of_readEntry (h.files k e he)

/-! ## The simulation relation -/

/-- The directory represents the plain log. -/
structure Rel (d : Dir) (l : PlainLog) : Prop where
  holds : Holds d l.firstIndex l.entries
  below : ∀ i, i ≤ l.boundary → d (.entry i) = none
  compacted : readCompactedTerm d = .ok l.boundaryTerm
  hardState : readHardState d = .ok l.hardState
  snapshot : readSnapshot d = .ok l.snapshot
  applied : readApplied d = .ok l.applied

/-- What a plain log lets one ask of a storage. -/
structure Answers (d : Dir) (l : PlainLog) : Prop where
  firstIndex : FsStorage.firstIndex d = .ok (l.boundary + 1)
  lastIndex : FsStorage.lastIndex d = .ok (l.boundary + l.entries.length)
  entries : ∀ low high m, l.boundary + 1 ≤ low → low < high → high ≤ l.lastIndex + 1 →
    FsStorage.entries d low high m = .ok (l.slice low high)
  term : ∀ i, l.boundary ≤ i → i ≤ l.lastIndex →
    ∃ t, l.termAt i = some t ∧ FsStorage.term d i = .ok t
  initialState : FsStorage.initialState d
    = .ok { hardState := l.hardState, confState := confStateOf l.snapshot }
  snapshot : FsStorage.snapshot d = .ok l.snapshot
  applied : FsStorage.applied d = .ok l.applied

theorem Rel.raftState {d : Dir} {l : PlainLog} (h : Rel d l) :
    readRaftState d = .ok { hardState := l.hardState, confState := confStateOf l.snapshot } :=
  readRaftState_eq_ok.mpr ⟨h.hardState, l.snapshot, h.snapshot, rfl⟩

/-- The boundary term is found although its entry is gone. -/
theorem Rel.term_boundary {d : Dir} {l : PlainLog} (h : Rel d l) :
    FsStorage.term d l.boundary = .ok l.boundaryTerm := by
  have hnone := h.below l.boundary (Nat.le_refl _)
  by_cases hz : l.boundary = 0
  · rw [l.boundaryTerm_zero hz, hz]
    exact term_zero (hz ▸ hnone)
  · have hpos : 0 < l.boundary := by omega
    exact (term_at_boundary hnone hpos h.holds.readFirst h.compacted _).mpr
      ⟨rfl, l.boundaryTerm_pos hpos⟩

theorem Rel.answers {d : Dir} {l : PlainLog} (h : Rel d l) : Answers d l where
  firstIndex := h.holds.firstIndex_eq
  lastIndex := by
    rw [h.holds.lastIndex_eq]
    simp only [PlainLog.firstIndex]
    congr 1
    omega
  entries := by
    intro low high m hlow hlt hhigh
    simp only [PlainLog.lastIndex] at hhigh
    exact h.holds.entries_eq m hlow hlt (by simp only [PlainLog.firstIndex]; omega)
  term := by
    intro i hlo hhi
    simp only [PlainLog.lastIndex] at hhi
    unfold PlainLog.termAt
    -- the boundary has no file: its term is the compacted one
    by_cases hi : i = l.boundary
    · rw [if_pos hi, hi]
      exact ⟨_, rfl, h.term_boundary⟩
    · have hget : l.entries[i - l.boundary - 1]? = some (l.entries.get ⟨i - l.boundary - 1, by omega⟩) :=
        List.getElem?_eq_getElem (by omega)
      rw [if_neg hi, if_neg (by omega), hget]
      refine ⟨_, rfl, ?_⟩
      have := h.holds.term_eq hget
      rwa [show l.firstIndex + (i - l.boundary - 1) = i by
        simp only [PlainLog.firstIndex]; omega] at this
  initialState := ioQuery_eq_ok.mpr h.raftState
  snapshot := ioQuery_eq_ok.mpr h.snapshot
  applied := ioQuery_eq_ok.mpr h.applied

/-! ## `append` -/

/-- The directory `d'` is what appending a batch from index `s` on makes of
`d`. -/
structure Appended (d d' : Dir) (s : Nat) (batch : List Entry) : Prop where
  other : ∀ name, name ≠ .last → (∀ i, name ≠ .entry i) → d' name = d name
  lastFile : ∀ e, batch.getLast? = some e → d' .last = some (u64ToBytes e.index)
  written : ∀ k e, batch[k]? = some e →
    d' (.entry (s + k)) = some (Protobuf.entry.writeToBytes e)
  kept : ∀ i, i < s ∨ s + batch.length ≤ i → d' (.entry i) = d (.entry i)

theorem appended (d : Dir) {s : Nat} {batch : List Entry} (hc : Contiguous s batch) :
    Appended d (replay d (appendOps batch)) s batch := by
  have hfile : ∀ i, replay d (appendOps batch) (.entry i)
      = replay d (batch.map writeEntryOp) (.entry i) := by
    intro i
    rw [appendOps, replay_append, replay_of_ne]
    intro op hop
    rw [lastOps_name hop]
    simp
  refine ⟨?_, ?_, ?_, ?_⟩
  · intro name hn hi
    apply replay_of_ne
    intro op hop
    rcases appendOps_name hop with hop | ⟨i, hop⟩
    · rw [hop]; exact hn.symm
    · rw [hop]; exact (hi i).symm
  · intro e he
    unfold appendOps lastOps
    rw [he, replay_append]
    exact replay_write_self ..
  · intro k e he
    rw [hfile]
    exact replay_writeEntries_of_get hc he
  · intro i hi
    rw [hfile, writeEntries_outside hc (by omega)]

theorem Appended.readEntry_eq {d d' : Dir} {s k : Nat} {batch : List Entry} {e : Entry}
    (h : Appended d d' s batch) (he : batch[k]? = some e) : readEntry d' (s + k) = .ok e :=
  readPb_of_eq (h.written k e he)

/-- The batch determines the last index. -/
theorem Appended.readLast {d d' : Dir} {s : Nat} {batch : List Entry} (h : Appended d d' s batch)
    (hc : Contiguous s batch) (hne : batch ≠ []) (hlim : s + batch.length < 2 ^ 64) :
    readLastIndex d' = .ok (s + batch.length - 1) := by
  obtain ⟨e, he⟩ : ∃ e, batch.getLast? = some e := ⟨_, List.getLast?_eq_some_getLast hne⟩
  have hidx := hc.index_getLast he
  rw [show s + batch.length - 1 = e.index by omega]
  exact readU64_of_eq (h.lastFile e he) (by omega)

/-- Appending a batch replaces the log from its start on. -/
theorem Holds.append {d : Dir} {first s : Nat} {es batch : List Entry} (h : Holds d first es)
    (hc : Contiguous s batch) (hne : batch ≠ []) (hfirst : first ≤ s)
    (hlast : s ≤ first + es.length) (hlim : s + batch.length < 2 ^ 64) :
    Holds (replay d (appendOps batch)) first (es.take (s - first) ++ batch) := by
  have hcut : (es.take (s - first)).length = s - first := by
    rw [List.length_take, Nat.min_eq_left (by omega)]
  have happ := appended d hc
  refine ⟨?_, ?_, h.pos, ?_, ?_⟩
  · exact (readU64_congr (happ.other .first (by simp) (by simp))).trans h.readFirst
  · rw [happ.readLast hc hne hlim, List.length_append, hcut]
    congr 1
    omega
  -- the cut lies where the batch begins
  · rw [contiguous_append, hcut]
    refine ⟨h.contiguous.take _, ?_⟩
    rwa [show first + (s - first) = s by omega]
  · intro k x hx
    rcases Nat.lt_or_ge k (s - first) with hk | hk
    · -- below the batch: the file was not touched
      rw [List.getElem?_append_left (by omega), List.getElem?_take_of_lt hk] at hx
      exact (readPb_congr (happ.kept _ (by omega))).trans (h.files k x hx)
    · rw [List.getElem?_append_right (by omega), hcut] at hx
      have := happ.readEntry_eq hx
      rwa [show s + (k - (s - first)) = first + k by omega] at this

theorem rel_append {d : Dir} {l : PlainLog} {s : Nat} {batch : List Entry} (h : Rel d l)
    (ha : l.Appendable s batch) (hne : batch ≠ []) :
    Rel (replay d (appendOps batch)) (l.append s batch ha) := by
  obtain ⟨hfirst, hlast, hc, -, hlim⟩ := id ha
  have happ := appended d hc
  have hholds := h.holds.append hc hne hfirst
    (by simp only [PlainLog.lastIndex, PlainLog.firstIndex] at hlast ⊢; omega) hlim
  simp only [PlainLog.firstIndex] at hfirst
  refine ⟨hholds, fun i (hi : i ≤ l.boundary) => ?_, ?_, ?_, ?_, ?_⟩
  · exact (happ.kept i (by omega)).trans (h.below i hi)
  · exact (readU64_congr (happ.other .term (by simp) (by simp))).trans h.compacted
  · exact (readPb_congr (happ.other .hardstate (by simp) (by simp))).trans h.hardState
  · exact (readPb_congr (happ.other .snapshot (by simp) (by simp))).trans h.snapshot
  · exact (readU64_congr (happ.other .applied (by simp) (by simp))).trans h.applied

/-! ## `compact` -/

/-- The entries that `compact` reads, and deletes. -/
theorem Holds.readEntries_eq {d : Dir} {first c : Nat} {es : List Entry} (h : Holds d first es)
    (hlo : first ≤ c) (hhi : c < first + es.length) :
    readEntries d first (c + 1 - first) = .ok (es.take (c + 1 - first)) := by
  rw [readEntries_eq_ok]
  refine ⟨by rw [List.length_take, Nat.min_eq_left (by omega)], ?_⟩
  intro k e he
  rcases Nat.lt_or_ge k (c + 1 - first) with hk | hk
  · rw [List.getElem?_take_of_lt hk] at he
    exact h.files k e he
  · rw [List.getElem?_eq_none (by rw [List.length_take]; omega)] at he
    exact absurd he (by simp)

omit [Protobuf] in
/-- A removed file is gone, and so is one that was never there. -/
theorem replay_removes {d : Dir} {delete : List Entry} {i : Nat}
    (h : d (.entry i) = none ∨ ∃ e ∈ delete, e.index = i) :
    replay d (delete.map fun e => .remove (.entry e.index)) (.entry i) = none := by
  induction delete generalizing d with
  | nil =>
    rcases h with h | ⟨e, he, -⟩
    · exact h
    · exact absurd he (by simp)
  | cons x delete ih =>
    rw [List.map_cons, replay_cons]
    apply ih
    by_cases hx : x.index = i
    · left
      rw [hx]
      exact apply_remove_self ..
    · rcases h with h | ⟨e, he, hei⟩
      · left
        exact (apply_of_ne (by simpa [FileOp.name] using hx)).trans h
      · rcases List.mem_cons.mp he with rfl | he
        · exact absurd hei hx
        · exact Or.inr ⟨e, he, hei⟩

omit [Protobuf] in
/-- What is not removed stays. -/
theorem replay_removes_of_ne {d : Dir} {delete : List Entry} {name : FileName}
    (h : ∀ e ∈ delete, name ≠ .entry e.index) :
    replay d (delete.map fun e => .remove (.entry e.index)) name = d name := by
  apply replay_of_ne
  intro op hop
  obtain ⟨e, he, rfl⟩ := List.mem_map.mp hop
  exact (h e he).symm

omit [Protobuf] in
/-- The directory `d'` is what compacting the entries from `first` to `last`
makes of `d`. -/
structure Compacted (d d' : Dir) (first : Nat) (last : Entry) : Prop where
  termFile : d' .term = some (u64ToBytes last.term)
  firstFile : d' .first = some (u64ToBytes (last.index + 1))
  other : ∀ name, name ≠ .term → name ≠ .first → (∀ i, name ≠ .entry i) → d' name = d name
  gone : ∀ i, i ≤ last.index → first ≤ i ∨ d (.entry i) = none → d' (.entry i) = none
  kept : ∀ i, last.index < i → d' (.entry i) = d (.entry i)

omit [Protobuf] in
theorem compacted (d : Dir) {first : Nat} {delete : List Entry} {last : Entry}
    (hc : Contiguous first delete) (hlast : delete.getLast? = some last) :
    Compacted d (replay d (compactOps delete)) first last := by
  -- the boundary files come first, and the removals touch entries only
  have hops : ∀ name, replay d (compactOps delete) name
      = replay (replay d [.write .term (u64ToBytes last.term),
          .write .first (u64ToBytes (last.index + 1))])
        (delete.map fun e => .remove (.entry e.index)) name := by
    intro name
    unfold compactOps boundaryOps
    rw [hlast, replay_append]
  have hboundary : ∀ name, name ≠ .term → name ≠ .first →
      replay d [.write .term (u64ToBytes last.term),
        .write .first (u64ToBytes (last.index + 1))] name = d name := by
    intro name hterm hfirst
    apply replay_of_ne
    intro op hop
    simp only [List.mem_cons, List.not_mem_nil, or_false] at hop
    rcases hop with rfl | rfl
    · exact hterm.symm
    · exact hfirst.symm
  refine ⟨?_, ?_, ?_, ?_, ?_⟩
  · rw [hops, replay_removes_of_ne (by simp), replay_cons, replay_cons, replay_nil]
    exact (apply_of_ne (by simp [FileOp.name])).trans (apply_write_self ..)
  · rw [hops, replay_removes_of_ne (by simp), replay_cons, replay_cons, replay_nil]
    exact apply_write_self ..
  · intro name hterm hfirst hentry
    rw [hops, replay_removes_of_ne fun e _ => hentry e.index]
    exact hboundary name hterm hfirst
  · intro i hi h
    rw [hops]
    apply replay_removes
    rw [hboundary _ (by simp) (by simp)]
    rcases h with h | h
    · exact Or.inr ((hc.mem_iff hlast).mpr ⟨h, hi⟩)
    · exact Or.inl h
  · intro i hi
    rw [hops, replay_removes_of_ne, hboundary _ (by simp) (by simp)]
    intro e he hname
    injection hname with hname
    have := (hc.mem_iff hlast).mp ⟨e, he, rfl⟩
    omega

/-- The entries that compaction deletes end with the new boundary. -/
theorem getLast?_delete {d : Dir} {l : PlainLog} {c : Nat} (h : Rel d l) (hc : l.Has c) :
    (l.entries.take (c + 1 - l.firstIndex)).getLast? = some (l.entryAt c hc) ∧
      (l.entryAt c hc).index = c := by
  obtain ⟨hlo, hhi⟩ := id hc
  have hlt := hc.lt
  have hget := l.getElem?_entryAt c hc
  have hlen : (l.entries.take (c + 1 - l.firstIndex)).length = c + 1 - l.firstIndex := by
    rw [List.length_take, Nat.min_eq_left (by omega)]
  refine ⟨?_, ?_⟩
  · rw [List.getLast?_eq_getElem?, hlen, List.getElem?_take_of_lt (by omega), ← hget]
    congr 1
    omega
  · have := h.holds.contiguous.index hget
    omega

/-- A log that begins later, in a directory with the same files from there on. -/
theorem Holds.drop {d d' : Dir} {first n : Nat} {es : List Entry} (h : Holds d first es)
    (hn : n ≤ es.length) (hfirst : readFirstIndex d' = .ok (first + n)) (hlast : d' .last = d .last)
    (hent : ∀ i, first + n ≤ i → d' (.entry i) = d (.entry i)) :
    Holds d' (first + n) (es.drop n) where
  readFirst := hfirst
  readLast := by
    refine (readU64_congr hlast).trans ?_
    show readLastIndex d = _
    rw [h.readLast, List.length_drop]
    congr 1
    omega
  pos := by
    have := h.pos
    omega
  contiguous := h.contiguous.drop hn
  files := by
    intro k e he
    rw [List.getElem?_drop] at he
    have := h.files _ e he
    rw [show first + (n + k) = first + n + k by omega] at this
    exact (readPb_congr (hent _ (by omega))).trans this

theorem rel_compact {d : Dir} {l : PlainLog} {c : Nat} (h : Rel d l) (hc : l.Has c) :
    Rel (replay d (compactOps (l.entries.take (c + 1 - l.firstIndex)))) (l.compact c hc) := by
  obtain ⟨hlast, hidx⟩ := getLast?_delete h hc
  have hcomp := compacted d (h.holds.contiguous.take _) hlast
  generalize replay d (compactOps (l.entries.take (c + 1 - l.firstIndex))) = d' at hcomp
  obtain ⟨hlo, hhi⟩ := id hc
  have hlt := hc.lt
  have hlim := l.limit
  simp only [PlainLog.lastIndex] at hhi
  have hstart : l.firstIndex + (c + 1 - l.firstIndex) = c + 1 := by omega
  have hholds : Holds d' (c + 1) (l.entries.drop (c + 1 - l.firstIndex)) := by
    have hfirst : readFirstIndex d' = .ok (c + 1) := by
      refine readU64_of_eq (n := c + 1) ?_ (by omega)
      rw [hcomp.firstFile, hidx]
    have hdrop : Holds d' (l.firstIndex + (c + 1 - l.firstIndex))
        (l.entries.drop (c + 1 - l.firstIndex)) :=
      h.holds.drop (by omega) (by rw [hstart]; exact hfirst)
        (hcomp.other .last (by simp) (by simp) (by simp)) fun i hi => hcomp.kept i (by omega)
    rwa [hstart] at hdrop
  refine ⟨hholds, ?_, ?_, ?_, ?_, ?_⟩
  · -- up to `c` nothing is left: it was below the old boundary, or removed
    intro i hi
    refine hcomp.gone i (by rw [hidx]; exact hi) ?_
    rcases Nat.lt_or_ge l.boundary i with hb | hb
    · exact Or.inl hb
    · exact Or.inr (h.below i hb)
  · exact readU64_of_eq hcomp.termFile (l.terms _ (l.entryAt_mem c hc)).2
  · exact (readPb_congr (hcomp.other .hardstate (by simp) (by simp) (by simp))).trans h.hardState
  · exact (readPb_congr (hcomp.other .snapshot (by simp) (by simp) (by simp))).trans h.snapshot
  · exact (readU64_congr (hcomp.other .applied (by simp) (by simp) (by simp))).trans h.applied

/-! ## The setters, snapshots and reopening -/

/-- The log lives in `first`, `last` and the entry files. -/
theorem Holds.congr {d d' : Dir} {first : Nat} {es : List Entry} (h : Holds d first es)
    (hfirst : d' .first = d .first) (hlast : d' .last = d .last)
    (hent : ∀ i, d' (.entry i) = d (.entry i)) : Holds d' first es where
  readFirst := (readU64_congr hfirst).trans h.readFirst
  readLast := (readU64_congr hlast).trans h.readLast
  pos := h.pos
  contiguous := h.contiguous
  files := fun k e he => (readPb_congr (hent _)).trans (h.files k e he)

theorem rel_setHardstate {d : Dir} {l : PlainLog} (h : Rel d l) (hs : HardState) :
    Rel (replay d [.write .hardstate (Protobuf.hardState.writeToBytes hs)])
      { l with hardState := hs } := by
  have hne : ∀ name, name ≠ .hardstate →
      replay d [.write .hardstate (Protobuf.hardState.writeToBytes hs)] name = d name :=
    fun name hn => replay_write_of_ne hn
  exact
    { holds := h.holds.congr (hne _ (by simp)) (hne _ (by simp)) fun i => hne _ (by simp)
      below := fun i hi => (hne _ (by simp)).trans (h.below i hi)
      compacted := (readU64_congr (hne _ (by simp))).trans h.compacted
      hardState := readPb_of_eq (replay_write_self ..)
      snapshot := (readPb_congr (hne _ (by simp))).trans h.snapshot
      applied := (readU64_congr (hne _ (by simp))).trans h.applied }

theorem rel_setSnapshot {d : Dir} {l : PlainLog} (h : Rel d l) (s : Snapshot) :
    Rel (replay d [.write .snapshot (Protobuf.snapshot.writeToBytes s)])
      { l with snapshot := s } := by
  have hne : ∀ name, name ≠ .snapshot →
      replay d [.write .snapshot (Protobuf.snapshot.writeToBytes s)] name = d name :=
    fun name hn => replay_write_of_ne hn
  exact
    { holds := h.holds.congr (hne _ (by simp)) (hne _ (by simp)) fun i => hne _ (by simp)
      below := fun i hi => (hne _ (by simp)).trans (h.below i hi)
      compacted := (readU64_congr (hne _ (by simp))).trans h.compacted
      hardState := (readPb_congr (hne _ (by simp))).trans h.hardState
      snapshot := readPb_of_eq (replay_write_self ..)
      applied := (readU64_congr (hne _ (by simp))).trans h.applied }

theorem rel_setApplied {d : Dir} {l : PlainLog} (h : Rel d l) {a : Nat} (ha : a < 2 ^ 64) :
    Rel (replay d [.write .applied (u64ToBytes a)]) { l with applied := a, applied_lt := ha } := by
  have hne : ∀ name, name ≠ .applied →
      replay d [.write .applied (u64ToBytes a)] name = d name :=
    fun name hn => replay_write_of_ne hn
  exact
    { holds := h.holds.congr (hne _ (by simp)) (hne _ (by simp)) fun i => hne _ (by simp)
      below := fun i hi => (hne _ (by simp)).trans (h.below i hi)
      compacted := (readU64_congr (hne _ (by simp))).trans h.compacted
      hardState := (readPb_congr (hne _ (by simp))).trans h.hardState
      snapshot := (readPb_congr (hne _ (by simp))).trans h.snapshot
      applied := readU64_of_eq (replay_write_self ..) ha }

theorem rel_init : Rel (replay emptyDir initOps) PlainLog.initial := by
  have hget : ∀ name, replay emptyDir initOps name = match name with
      | .term => some (u64ToBytes 0)
      | .first => some (u64ToBytes 1)
      | .last => some (u64ToBytes 0)
      | .applied => some (u64ToBytes 0)
      | .hardstate => some (Protobuf.hardState.writeToBytes default)
      | .snapshot => some (Protobuf.snapshot.writeToBytes default)
      | .entry _ => none := by
    intro name
    simp only [initOps, replay_cons, replay_nil]
    cases name <;> simp [FileOp.apply, Function.update, emptyDir]
  exact
    { holds :=
        { readFirst := readU64_of_eq (hget .first) (by decide)
          readLast := readU64_of_eq (hget .last) (by decide)
          pos := Nat.le_refl 1
          contiguous := trivial
          files := fun k e he => by simp [PlainLog.initial] at he }
      below := fun i _ => hget (.entry i)
      compacted := readU64_of_eq (hget .term) (by decide)
      hardState := readPb_of_eq (hget .hardstate)
      snapshot := readPb_of_eq (hget .snapshot)
      applied := readU64_of_eq (hget .applied) (by decide) }

/-! ## Whole runs -/

/-- The storage call behind an operation. -/
def exec : PlainLog.Op → FsM Fault Unit
  | .append _ batch => append batch
  | .compact c => compact c
  | .createSnapshot index confState data => do
    let _ ← createSnapshot index confState data
    pure ()
  | .setHardstate hardState => setHardstate hardState
  | .setApplied a => setApplied a
  | .reopen => ioResult withDataDir

theorem Rel.compact_run {fs : Fs} {l : PlainLog} {c : Nat} (h : Rel fs.dir l) (hc : l.Has c) :
    compact c fs = .ok () (fs.after (compactOps (l.entries.take (c + 1 - l.firstIndex)))) := by
  have hlt := hc.lt
  have hle := hc.1
  exact compact_eq h.holds.readFirst hle (h.holds.readEntries_eq hle (by omega))
    (h.holds.contiguous.take _)

/-- One operation that makes sense succeeds and keeps the relation. -/
theorem exec_rel {fs : Fs} {l l' : PlainLog} {op : PlainLog.Op} (h : Rel fs.dir l)
    (hop : l.step? op = some l') : ∃ fs', exec op fs = .ok () fs' ∧ Rel fs'.dir l' := by
  cases PlainLog.took_of_step hop with
  -- an empty batch writes nothing, whatever index goes with it
  | nothing s => exact ⟨_, append_eq [] fs, h⟩
  | append s e es ha => exact ⟨_, append_eq (e :: es) fs, rel_append h ha (by simp)⟩
  | compact c hc => exact ⟨_, h.compact_run hc, rel_compact h hc⟩
  | createSnapshot index cs data hi hnew =>
    -- the snapshot takes its term from the file of its entry
    have hidx : l.firstIndex + (index - l.firstIndex) = index := by
      have := hi.1
      omega
    have hfile := h.holds.files _ _ (l.getElem?_entryAt index hi)
    rw [hidx] at hfile
    have hlast : index ≤ l.firstIndex + l.entries.length - 1 := by
      have := hi.lt
      omega
    refine ⟨fs.after [.write .snapshot (Protobuf.snapshot.writeToBytes
      (l.snapshotAt index (l.entryAt index hi).term cs data))], ?_, rel_setSnapshot h _⟩
    show (createSnapshot index cs data >>= fun _ => pure ()) fs = _
    rw [bind_of_ok (createSnapshot_eq h.snapshot hnew h.holds.readLast hlast hfile)]
    rfl
  | setHardstate hs => exact ⟨_, setHardstate_eq hs fs, rel_setHardstate h hs⟩
  | setApplied a ha => exact ⟨_, setApplied_eq a fs, rel_setApplied h ha⟩
  | reopen =>
    exact ⟨fs, ioResult_of_ok (withDataDir_of_not_missing (by rw [h.raftState]; simp)), h⟩

theorem run_rel : ∀ (ops : List PlainLog.Op) {fs : Fs} {l l' : PlainLog}, Rel fs.dir l →
    ops.foldlM PlainLog.step? l = some l' → ∃ fs', ops.forM exec fs = .ok () fs' ∧ Rel fs'.dir l' := by
  intro ops
  induction ops with
  | nil =>
    intro fs l l' h hrun
    obtain rfl := Option.some.inj hrun
    exact ⟨fs, rfl, h⟩
  | cons op ops ih =>
    intro fs l l' h hrun
    rw [List.foldlM_cons] at hrun
    obtain ⟨l₁, hop, hrest⟩ := Option.bind_eq_some_iff.mp hrun
    obtain ⟨fs₁, hexec, h₁⟩ := exec_rel h hop
    obtain ⟨fs', hrun', h'⟩ := ih h₁ hrest
    refine ⟨fs', ?_, h'⟩
    show (exec op >>= fun _ => ops.forM exec) fs = _
    rw [bind_of_ok hexec, hrun']

/-- **`FsStorage` refines a plain log**: opened on an empty directory, it
carries out every sequence of operations that makes sense without an error,
and the directory then answers as the plain log does. -/
theorem fsStorage_refines_plainLog (ops : List PlainLog.Op) (l : PlainLog)
    (h : ops.foldlM PlainLog.step? PlainLog.initial = some l) :
    ∃ fs, (do ioResult withDataDir; ops.forM exec : FsM Fault Unit) { dir := emptyDir, ops := [] }
        = .ok () fs ∧ Answers fs.dir l := by
  have hmiss : readRaftState emptyDir = .error .NotFound := rfl
  have hopen := ioResult_of_ok (@withDataDir_of_missing _ { dir := emptyDir, ops := [] } hmiss)
  have hinit : Rel (Fs.after { dir := emptyDir, ops := [] } initOps).dir PlainLog.initial := rel_init
  obtain ⟨fs, hrun, hrel⟩ := run_rel ops hinit h
  exact ⟨fs, by rw [bind_of_ok hopen, hrun], hrel.answers⟩

end FsStorage

/-! ## A run -/

namespace FsStorage

open scoped Proto3

/-- A suffix is replaced by a shorter one, the log is compacted to its end and
grows again over what the replacement left behind. -/
def sampleOps : List PlainLog.Op :=
  [.append 1 [{ term := 1, index := 1 }, { term := 1, index := 2 }, { term := 1, index := 3 }],
    .setHardstate { term := 2, vote := 7, commit := 1 },
    .append 2 [{ term := 2, index := 2 }],
    .createSnapshot 2 (some { nodes := [7] }) [1],
    .setApplied 2,
    .compact 2,
    .append 3 [{ term := 2, index := 3 }],
    .reopen]

theorem fsStorage_refines_plainLog_sample :
    ∃ l fs, sampleOps.foldlM PlainLog.step? PlainLog.initial = some l ∧ l.boundary = 2 ∧
      (do ioResult withDataDir; sampleOps.forM exec : FsM Fault Unit)
        { dir := emptyDir, ops := [] } = .ok () fs ∧ Answers fs.dir l := by
  obtain ⟨l, hl⟩ : ∃ l, sampleOps.foldlM PlainLog.step? PlainLog.initial = some l :=
    Option.isSome_iff_exists.mp (by decide)
  have hb : (sampleOps.foldlM PlainLog.step? PlainLog.initial).map (·.boundary) = some 2 := by
    decide
  obtain ⟨fs, hrun, hans⟩ := fsStorage_refines_plainLog sampleOps l hl
  rw [hl] at hb
  exact ⟨l, fs, hl, by simpa using hb, hrun, hans⟩

end FsStorage

end SawtoothRaft
