import SawtoothRaft.Storage.Crash
import SawtoothRaft.Storage.Terms

/-!
# `compact` cut off

`compact` writes the new boundary term, then the new first index, and then
removes the entries one by one. Between the two writes an old boundary has the
term of the new one. And from the second write on, until the removals are
done, entries below the boundary are still found by `term`, which looks for
the file first.

So a crash can go unnoticed only if there is nothing to be seen in between:
one entry is compacted, and its term is that of the boundary before it, or
there is no entry before it (`compact_crash_iff`).
-/

namespace SawtoothRaft

open Lib

namespace FsStorage

variable [Protobuf]

/-! ## The log seen, with its boundary -/

/-- The directory shows the log, and the term of its boundary. -/
structure Shows (d : Dir) (l : PlainLog) : Prop where
  log : Sees d l.firstIndex l.entries
  boundary : FsStorage.term d (l.firstIndex - 1) = .ok l.boundaryTerm

/-- Before the boundary no term is known, index 0 apart. -/
def NothingOlder (d : Dir) : Prop :=
  ∀ first i t, FsStorage.firstIndex d = .ok first → 0 < i → i < first - 1 →
    FsStorage.term d i ≠ .ok t

/-- Whatever the crash point, the reopened directory shows the log as it was,
or compacted at `c`, and nothing older. -/
def CrashConsistentCompact (d : Dir) (l : PlainLog) (c : Nat) (hc : l.Has c) : Prop :=
  ∀ k, (Shows (reopened (crashed (compact c) d k)) l ∨
      Shows (reopened (crashed (compact c) d k)) (l.compact c hc)) ∧
    NothingOlder (reopened (crashed (compact c) d k))

section
variable {d d' : Dir} {l : PlainLog} {c : Nat}

theorem Rel.shows (h : Rel d l) : Shows d l := ⟨h.holds.sees, h.term_boundary⟩

/-- No term is known where there is no file. -/
theorem nothingOlder_of_none {first compacted : Nat} (hfirst : readFirstIndex d = .ok first)
    (hterm : readCompactedTerm d = .ok compacted)
    (hnone : ∀ i, i < first - 1 → d (.entry i) = none) : NothingOlder d := by
  intro first' i t hfirst' hpos hi
  obtain rfl := Except.ok.inj ((ioQuery_eq_ok.mp hfirst').symm.trans hfirst)
  exact term_off_boundary (hnone i hi) hpos hfirst (by omega) hterm t

theorem Rel.nothingOlder (h : Rel d l) : NothingOlder d := by
  refine nothingOlder_of_none h.holds.readFirst h.compacted fun i hi => h.below i ?_
  simp only [PlainLog.firstIndex] at hi
  omega

/-! ## The crash points -/

theorem compact_call_ops (h : Rel d l) (hc : l.Has c) :
    (call (compact c) ⟨d⟩).ops = compactOps (l.entries.take (c + 1 - l.firstIndex)) := by
  have hrun : compact c { dir := d, ops := [] } = _ := Rel.compact_run h hc
  exact call_ops hrun

/-- The file operations of `compact c`: two writes, and the removals. -/
theorem compactOps_eq (h : Rel d l) (hc : l.Has c) :
    compactOps (l.entries.take (c + 1 - l.firstIndex))
      = .write .term (u64ToBytes (l.entryAt c hc).term) :: .write .first (u64ToBytes (c + 1)) ::
        (l.entries.take (c + 1 - l.firstIndex)).map fun e => .remove (.entry e.index) := by
  obtain ⟨hlast, hidx⟩ := getLast?_delete h hc
  unfold compactOps boundaryOps
  rw [hlast]
  dsimp only
  rw [hidx]
  rfl

/-- The directory is not initialised again. -/
theorem reopened_crashed (h : Rel d l) (hc : l.Has c) (k : Nat) :
    reopened (crashed (compact c) d k) = crashed (compact c) d k := by
  have hother : ∀ name, name ≠ .term → name ≠ .first → (∀ i, name ≠ .entry i) →
      crashed (compact c) d k name = d name := by
    intro name hterm hfirst hentry
    unfold crashed
    rw [compact_call_ops h hc, compactOps_eq h hc]
    refine replay_of_ne fun op hop => ?_
    have hop := List.mem_of_mem_take hop
    simp only [List.mem_cons, List.mem_map] at hop
    rcases hop with rfl | rfl | ⟨e, -, rfl⟩
    · exact hterm.symm
    · exact hfirst.symm
    · exact (hentry e.index).symm
  obtain ⟨hhs, s, hsnap, hcs⟩ := readRaftState_eq_ok.mp h.raftState
  refine reopened_of_ok (readRaftState_eq_ok.mpr ⟨?_, s, ?_, hcs⟩)
  · exact (readPb_congr (hother .hardstate (by simp) (by simp) (by simp))).trans hhs
  · exact (readPb_congr (hother .snapshot (by simp) (by simp) (by simp))).trans hsnap

/-- The boundary term is written: the log is the old one. -/
theorem crashed_one (h : Rel d l) (hc : l.Has c) :
    Holds (crashed (compact c) d 1) l.firstIndex l.entries ∧
      readCompactedTerm (crashed (compact c) d 1) = .ok (l.entryAt c hc).term ∧
      ∀ i, crashed (compact c) d 1 (.entry i) = d (.entry i) := by
  have hcut : crashed (compact c) d 1
      = replay d [.write .term (u64ToBytes (l.entryAt c hc).term)] := by
    unfold crashed
    rw [compact_call_ops h hc, compactOps_eq h hc]
    rfl
  rw [hcut]
  refine ⟨h.holds.congr ?_ ?_ ?_, ?_, ?_⟩
  · exact replay_write_of_ne (by simp)
  · exact replay_write_of_ne (by simp)
  · exact fun i => replay_write_of_ne (by simp)
  · exact readU64_of_eq (replay_write_self ..) (l.terms _ (l.entryAt_mem c hc)).2
  · exact fun i => replay_write_of_ne (by simp)

/-- The first index is written, too: the log is the new one, and all entries
are still there. -/
theorem crashed_two (h : Rel d l) (hc : l.Has c) :
    Holds (crashed (compact c) d 2) (c + 1) (l.compact c hc).entries ∧
      readCompactedTerm (crashed (compact c) d 2) = .ok (l.entryAt c hc).term ∧
      ∀ i, crashed (compact c) d 2 (.entry i) = d (.entry i) := by
  have hcut : crashed (compact c) d 2
      = replay d [.write .term (u64ToBytes (l.entryAt c hc).term),
          .write .first (u64ToBytes (c + 1))] := by
    unfold crashed
    rw [compact_call_ops h hc, compactOps_eq h hc]
    rfl
  rw [hcut]
  have hlim := l.limit
  obtain ⟨hlo, hhi⟩ := id hc
  simp only [PlainLog.lastIndex] at hhi
  have hlt := hc.lt
  have hstart : l.firstIndex + (c + 1 - l.firstIndex) = c + 1 := by omega
  have hentry : ∀ i, replay d [.write .term (u64ToBytes (l.entryAt c hc).term),
      .write .first (u64ToBytes (c + 1))] (.entry i) = d (.entry i) :=
    fun i => replay_of_ne (by simp [FileOp.name])
  refine ⟨?_, ?_, hentry⟩
  · have := h.holds.drop (n := c + 1 - l.firstIndex) (by omega) ?_
      (replay_of_ne (by simp [FileOp.name])) fun i _ => hentry i
    · rwa [hstart] at this
    · rw [hstart]
      refine readU64_of_eq ?_ (by omega)
      rw [replay_cons]
      exact replay_write_self ..
  · refine readU64_of_eq ?_ (l.terms _ (l.entryAt_mem c hc)).2
    rw [replay_cons, replay_write_of_ne (by simp)]
    exact apply_write_self ..

/-- All that is compacted is one entry, and the boundary term stays. -/
def Unnoticed (l : PlainLog) (c : Nat) (hc : l.Has c) : Prop :=
  c = l.firstIndex ∧ (l.firstIndex = 1 ∨ (l.entryAt c hc).term = l.boundaryTerm)

/-- The entry at `c` has its file. -/
theorem Rel.readEntry_entryAt (h : Rel d l) (hc : l.Has c) :
    readEntry d c = .ok (l.entryAt c hc) := by
  have hfile := h.holds.files _ _ (l.getElem?_entryAt c hc)
  rwa [show l.firstIndex + (c - l.firstIndex) = c by
    have := hc.1
    omega] at hfile

theorem unnoticed_of_consistent (h : Rel d l) (hc : l.Has c)
    (hcons : CrashConsistentCompact d l c hc) : Unnoticed l c hc := by
  unfold CrashConsistentCompact at hcons
  simp only [reopened_crashed h hc] at hcons
  have hle := hc.1
  constructor
  · -- otherwise the first entry is found below the new boundary
    by_contra hne
    obtain ⟨hholds, -, hentry⟩ := crashed_two h hc
    have hhas : l.Has l.firstIndex := ⟨Nat.le_refl _, by have := hc.2; omega⟩
    have hfile := (readPb_congr (hentry _)).trans (h.readEntry_entryAt hhas)
    exact (hcons 2).2 (c + 1) l.firstIndex _ hholds.firstIndex_eq h.holds.pos (by omega)
      (term_of_readEntry hfile)
  · by_cases hone : l.firstIndex = 1
    · exact Or.inl hone
    right
    obtain ⟨hholds, hterm, hentry⟩ := crashed_one h hc
    rcases (hcons 1).1 with hold | hnew
    · have hb : l.firstIndex - 1 = l.boundary := rfl
      have hnone := (hentry l.boundary).trans (h.below l.boundary (Nat.le_refl _))
      have hpos : 0 < l.boundary := by
        simp only [PlainLog.firstIndex] at hone
        omega
      have hboundary := hold.boundary
      rw [hb] at hboundary
      exact ((term_at_boundary hnone hpos hholds.readFirst hterm _).mp hboundary).1
    · -- the new log begins elsewhere
      have hfirst := hnew.log.firstIndex.symm.trans hholds.firstIndex_eq
      injection hfirst with hfirst
      have : c + 1 = l.firstIndex := hfirst
      omega

/-- All the crash points of a compaction of one entry. -/
theorem consistent_of_unnoticed (h : Rel d l) (hc : l.Has c) (hun : Unnoticed l c hc) :
    CrashConsistentCompact d l c hc := by
  obtain ⟨rfl, hboundary⟩ := hun
  intro k
  rw [reopened_crashed h hc]
  rcases k with _ | _ | _ | k
  · exact ⟨Or.inl h.shows, h.nothingOlder⟩
  · -- the boundary has the new term, which is the old one
    obtain ⟨hholds, hterm, hentry⟩ := crashed_one h hc
    have hnone : ∀ i, i ≤ l.boundary → crashed (compact l.firstIndex) d 1 (.entry i) = none :=
      fun i hi => (hentry i).trans (h.below i hi)
    refine ⟨Or.inl ⟨hholds.sees, ?_⟩, nothingOlder_of_none hholds.readFirst hterm fun i hi => ?_⟩
    · show FsStorage.term _ l.boundary = _
      by_cases hb : l.boundary = 0
      · rw [hb, l.boundaryTerm_zero hb]
        exact term_zero (hnone 0 (by omega))
      · have hpos : 0 < l.boundary := by omega
        rcases hboundary with hone | hsame
        · simp only [PlainLog.firstIndex] at hone
          omega
        · refine (term_at_boundary (hnone _ (Nat.le_refl _)) hpos hholds.readFirst hterm _).mpr ?_
          exact ⟨hsame, hsame ▸ l.boundaryTerm_pos hpos⟩
    · exact hnone i (by simp only [PlainLog.firstIndex] at hi; omega)
  · -- the one entry is still there, and is the new boundary
    obtain ⟨hholds, hterm, hentry⟩ := crashed_two h hc
    refine ⟨Or.inr ⟨hholds.sees, ?_⟩, nothingOlder_of_none hholds.readFirst hterm fun i hi => ?_⟩
    · exact term_of_readEntry ((readPb_congr (hentry _)).trans (h.readEntry_entryAt hc))
    · refine (hentry i).trans (h.below i ?_)
      simp only [PlainLog.firstIndex] at hi
      omega
  · have hrel := rel_compact h hc
    have hall : crashed (compact l.firstIndex) d (k + 3)
        = replay d (compactOps (l.entries.take (l.firstIndex + 1 - l.firstIndex))) := by
      unfold crashed
      rw [compact_call_ops h hc, List.take_of_length_le]
      rw [compactOps_eq h hc, List.length_cons, List.length_cons, List.length_map,
        List.length_take]
      omega
    rw [hall]
    exact ⟨Or.inr hrel.shows, hrel.nothingOlder⟩

end

/-- **A crash inside `compact` goes unnoticed exactly if** one entry is
compacted, and it is the first of all or has the term of the entry before
it. -/
theorem compact_crash_iff (ops : List PlainLog.Op) (l : PlainLog)
    (h : ops.foldlM PlainLog.step? PlainLog.initial = some l) :
    ∃ fs, Reaches ops fs ∧ ∀ c (hc : l.Has c), CrashConsistentCompact fs.dir l c hc ↔
      c = l.firstIndex ∧ (l.firstIndex = 1 ∨
        FsStorage.term fs.dir c = FsStorage.term fs.dir (l.firstIndex - 1)) := by
  obtain ⟨fs, hrun, -⟩ := fsStorage_refines_plainLog ops l h
  have hrel := (Reaches.accounted hrun h).rel
  refine ⟨fs, hrun, fun c hc => ?_⟩
  have hterm : FsStorage.term fs.dir c = FsStorage.term fs.dir (l.firstIndex - 1) ↔
      (l.entryAt c hc).term = l.boundaryTerm := by
    rw [term_of_readEntry (hrel.readEntry_entryAt hc), hrel.shows.boundary, Except.ok.injEq]
  rw [hterm]
  exact ⟨unnoticed_of_consistent hrel hc, consistent_of_unnoticed hrel hc⟩

end FsStorage

namespace FsStorage

open scoped Proto3

/-- Three entries of one term, the first of which is compacted away. -/
def oneGone : List PlainLog.Op := [.append 1 replacedEntries, .compact 1]

/-- The next compaction is of one entry of the same term. -/
theorem compact_crash_iff_same_term :
    ∃ l fs, ∃ hc : l.Has 2, oneGone.foldlM PlainLog.step? PlainLog.initial = some l ∧
      Reaches oneGone fs ∧ CrashConsistentCompact fs.dir l 2 hc := by
  obtain ⟨l, hl⟩ : ∃ l, oneGone.foldlM PlainLog.step? PlainLog.initial = some l :=
    Option.isSome_iff_exists.mp (by decide)
  have hbounds : (oneGone.foldlM PlainLog.step? PlainLog.initial).map
      (fun l => (l.firstIndex, l.lastIndex, l.termAt 1, l.termAt 2))
      = some (2, 3, some 1, some 1) := by
    decide
  rw [hl] at hbounds
  simp only [Option.map_some, Option.some.injEq, Prod.mk.injEq] at hbounds
  obtain ⟨hfirst, hlast, hone, htwo⟩ := hbounds
  have hc : l.Has 2 := ⟨by omega, by omega⟩
  obtain ⟨fs, hrun, hiff⟩ := compact_crash_iff _ l hl
  refine ⟨l, fs, hc, hl, hrun, (hiff 2 hc).mpr ⟨hfirst.symm, Or.inr ?_⟩⟩
  have hrel := (Reaches.accounted hrun hl).rel
  have hb : l.boundary = 1 := by
    simp only [PlainLog.firstIndex] at hfirst
    omega
  obtain ⟨t, ht, hterm⟩ := hrel.answers.term 1 (by omega) (by omega)
  obtain ⟨t', ht', hterm'⟩ := hrel.answers.term 2 (by omega) (by omega)
  rw [hfirst, hterm, hterm', ← Option.some.inj (hone.symm.trans ht),
    ← Option.some.inj (htwo.symm.trans ht')]

/-- The same, with terms that rise. -/
def risingEntries : List Entry :=
  [{ term := 1, index := 1 }, { term := 2, index := 2 }, { term := 3, index := 3 }]

def risingGone : List PlainLog.Op := [.append 1 risingEntries, .compact 1]

def risingFs : Fs :=
  ((Fs.after { dir := emptyDir, ops := [] } initOps).after (appendOps risingEntries)).after
    (compactOps (risingEntries.take 1))

theorem risingGone_reaches : Reaches risingGone risingFs :=
  reaches_compact rfl (by decide +kernel) (by decide) (by decide +kernel) (by decide +kernel)

/-- A crash after the first write of `compact(2)`: the log begins at index 2 as
before, and the entry before it has changed its term from 1 to 2. A crash
after the second write of `compact(3)`: the log begins at index 4, and the
term of entry 2 is still to be had. -/
theorem compact_crash_noticed :
    Reaches risingGone risingFs ∧ FsStorage.term risingFs.dir 1 = .ok 1 ∧
      FsStorage.firstIndex (reopened (crashed (compact 2) risingFs.dir 1)) = .ok 2 ∧
      FsStorage.term (reopened (crashed (compact 2) risingFs.dir 1)) 1 = .ok 2 ∧
      FsStorage.firstIndex (reopened (crashed (compact 3) risingFs.dir 2)) = .ok 4 ∧
      FsStorage.term (reopened (crashed (compact 3) risingFs.dir 2)) 2 = .ok 2 ∧
      ∃ l, ∃ hc : l.Has 3, risingGone.foldlM PlainLog.step? PlainLog.initial = some l ∧
        ¬ CrashConsistentCompact risingFs.dir l 3 hc := by
  have hfirst : FsStorage.firstIndex (reopened (crashed (compact 3) risingFs.dir 2)) = .ok 4 := by
    decide +kernel
  have hterm : FsStorage.term (reopened (crashed (compact 3) risingFs.dir 2)) 2 = .ok 2 := by
    decide +kernel
  refine ⟨risingGone_reaches, by decide +kernel, by decide +kernel, by decide +kernel, hfirst,
    hterm, ?_⟩
  obtain ⟨l, hl⟩ : ∃ l, risingGone.foldlM PlainLog.step? PlainLog.initial = some l :=
    Option.isSome_iff_exists.mp (by decide)
  have hbounds : (risingGone.foldlM PlainLog.step? PlainLog.initial).map
      (fun l => (l.firstIndex, l.lastIndex)) = some (2, 3) := by
    decide
  rw [hl] at hbounds
  simp only [Option.map_some, Option.some.injEq, Prod.mk.injEq] at hbounds
  refine ⟨l, ⟨by omega, by omega⟩, hl, fun hcons => ?_⟩
  exact (hcons 2).2 4 2 2 hfirst (by decide) (by decide) hterm

end FsStorage

end SawtoothRaft
