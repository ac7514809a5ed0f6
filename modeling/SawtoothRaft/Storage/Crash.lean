import SawtoothRaft.Storage.Refine

/-!
# What a crash leaves of `append` and `set_hardstate`

A crash keeps a prefix of the file operations of the interrupted call
(`crashed`), and the engine then reopens the directory (`reopened`).

`append` writes the entry files in place, in order, and publishes the new last
index at the very end. When the batch only extends the log this is a commit
point: nothing is visible before it. When the batch replaces a suffix, the old
`last` still covers the files being overwritten, and the log seen in between
is `mix`: the first `k` entries of the batch, then what is left of the old
suffix. `append_crash_iff` says exactly when no such mixture shows: the batch
changes at most one of the entries it overlaps and reaches the old end, or it
changes none.

`set_hardstate` is a single `fs::write`, which truncates before it fills. The
truncated file is a valid message, the default one, so `setHardstate_crash_iff`:
a crash inside the call can yield a third hard state unless the old or the new
one is the default. The `u64` files are better off, eight bytes or an error.
-/

namespace SawtoothRaft

open Lib

namespace FsStorage

variable [Protobuf]

/-- The directory after `with_data_dir`. -/
def reopened (d : Dir) : Dir :=
  match withDataDir { dir := d, ops := [] } with
  | .ok _ fs => fs.dir
  | .error _ fs => fs.dir

omit [Protobuf] in
/-- What is left when a call is cut off after `k` of its file operations. -/
def crashed {α : Type} (m : FsM Fault α) (d : Dir) (k : Nat) : Dir :=
  replay d ((call m ⟨d⟩).ops.take k)

theorem reopened_of_ok {d : Dir} {rs : RaftState} (h : readRaftState d = .ok rs) :
    reopened d = d := by
  unfold reopened
  rw [@withDataDir_of_not_missing _ { dir := d, ops := [] } (by rw [h]; simp)]

omit [Protobuf] in
theorem call_ops {α : Type} {m : FsM Fault α} {d : Dir} {a : α} {ops : List FileOp}
    (h : m { dir := d, ops := [] } = .ok a (Fs.after { dir := d, ops := [] } ops)) :
    (call m ⟨d⟩).ops = ops := by
  unfold call
  rw [h]
  exact List.nil_append ops

/-! ## The log seen -/

/-- The log that a directory shows: its bounds, all its entries at once, and
their terms. Asking an empty log for its entries is an error. -/
structure Sees (d : Dir) (first : Nat) (es : List Entry) : Prop where
  firstIndex : FsStorage.firstIndex d = .ok first
  lastIndex : FsStorage.lastIndex d = .ok (first + es.length - 1)
  entries : ∀ m, FsStorage.entries d first (first + es.length) m
    = if es = [] then errCompacted else .ok es
  term : ∀ k e, es[k]? = some e → FsStorage.term d (first + k) = .ok e.term

theorem Holds.sees {d : Dir} {first : Nat} {es : List Entry} (h : Holds d first es) :
    Sees d first es where
  firstIndex := h.firstIndex_eq
  lastIndex := h.lastIndex_eq
  entries := by
    intro m
    split
    next hnil =>
      subst hnil
      have hpos := h.pos
      unfold FsStorage.entries
      rw [if_neg (by simp), ioQuery_eq_ok.mpr h.readFirst, ioQuery_eq_ok.mpr h.readLast]
      show (if first > first + 0 - 1 then errCompacted else _) = _
      rw [if_pos (by omega)]
    next hne =>
      have hlen : 0 < es.length := List.length_pos_iff.mpr hne
      rw [h.entries_eq m (Nat.le_refl _) (by omega) (Nat.le_refl _), Nat.sub_self, List.drop_zero,
        Nat.add_sub_cancel_left, List.take_length]
  term := fun _ _ he => h.term_eq he

/-- A directory shows one log only. -/
theorem Sees.unique {d : Dir} {first : Nat} {es es' : List Entry} (hpos : 1 ≤ first)
    (h : Sees d first es) (h' : Sees d first es') : es = es' := by
  have hlast := h.lastIndex.symm.trans h'.lastIndex
  injection hlast with hlast
  have hlen : es.length = es'.length := by omega
  have he := (h.entries 0).symm.trans (hlen ▸ h'.entries 0)
  by_cases hnil : es = []
  · subst hnil
    exact (List.length_eq_zero_iff.mp hlen.symm).symm
  · have hnil' : es' ≠ [] := fun hn => hnil (List.length_eq_zero_iff.mp (by rw [hlen, hn]; rfl))
    rw [if_neg hnil, if_neg hnil'] at he
    injection he

/-! ## Overwriting in place -/

/-- The old suffix `old` when the first `k` entries of `batch` have been
written over it and the last index is still the old one. -/
def mix (old batch : List Entry) (k : Nat) : List Entry :=
  (batch.take k ++ old.drop k).take old.length

omit [Protobuf] in
theorem mix_length {old batch : List Entry} {k : Nat} (hk : k ≤ batch.length) :
    (mix old batch k).length = old.length := by
  unfold mix
  rw [List.length_take, List.length_append, List.length_take, List.length_drop]
  omega

omit [Protobuf] in
theorem mix_get {old batch : List Entry} {k i : Nat} (hk : k ≤ batch.length)
    (hi : i < old.length) : (mix old batch k)[i]? = if i < k then batch[i]? else old[i]? := by
  unfold mix
  have hlen : (batch.take k).length = k := by rw [List.length_take, Nat.min_eq_left hk]
  rw [List.getElem?_take_of_lt hi]
  split
  next hik => rw [List.getElem?_append_left (by omega), List.getElem?_take_of_lt hik]
  next hik =>
    rw [List.getElem?_append_right (by omega), hlen, List.getElem?_drop]
    congr 1
    omega

/-- Cut off before the last index is published, `append` shows the mixture. -/
theorem Holds.overwrite {d : Dir} {first s : Nat} {es batch : List Entry} (h : Holds d first es)
    (hc : Contiguous s batch) (hfirst : first ≤ s) (hlast : s ≤ first + es.length) {k : Nat}
    (hk : k ≤ batch.length) :
    Holds (replay d ((batch.take k).map writeEntryOp)) first
      (es.take (s - first) ++ mix (es.drop (s - first)) batch k) := by
  have hcut : (es.take (s - first)).length = s - first := by
    rw [List.length_take, Nat.min_eq_left (by omega)]
  have hold : (es.drop (s - first)).length = es.length - (s - first) := List.length_drop
  have hck : Contiguous s (batch.take k) := hc.take k
  have hlen : (batch.take k).length = k := by rw [List.length_take, Nat.min_eq_left hk]
  have hname : ∀ name, (∀ i, name ≠ .entry i) →
      replay d ((batch.take k).map writeEntryOp) name = d name := by
    intro name hn
    apply replay_writeEntries_of_ne
    intro e _ he
    exact hn _ he.symm
  -- the entry at each place, and with it its index
  have hfile : ∀ j e, (es.take (s - first) ++ mix (es.drop (s - first)) batch k)[j]? = some e →
      readEntry (replay d ((batch.take k).map writeEntryOp)) (first + j) = .ok e ∧
        e.index = first + j := by
    intro j e he
    -- before the batch nothing is written; behind it, only below `k`
    rcases Nat.lt_or_ge j (s - first) with hj | hj
    · rw [List.getElem?_append_left (by omega), List.getElem?_take_of_lt hj] at he
      refine ⟨(readPb_congr ?_).trans (h.files j e he), h.contiguous.index he⟩
      exact writeEntries_outside hck (by omega)
    · rw [List.getElem?_append_right (by omega), hcut] at he
      have hj' : j - (s - first) < (es.drop (s - first)).length := by
        have hmix : (mix (es.drop (s - first)) batch k).length = (es.drop (s - first)).length :=
          mix_length hk
        rw [← hmix]
        exact (List.getElem?_eq_some_iff.mp he).1
      rw [mix_get hk hj'] at he
      have hplace : s + (j - (s - first)) = first + j := by omega
      split at he
      next hjk =>
        rw [← hplace]
        refine ⟨readEntry_writeEntries hck ?_, hc.index he⟩
        rw [List.getElem?_take_of_lt hjk]
        exact he
      next hjk =>
        rw [List.getElem?_drop, show s - first + (j - (s - first)) = j by omega] at he
        refine ⟨(readPb_congr ?_).trans (h.files j e he), h.contiguous.index he⟩
        exact writeEntries_outside hck (by omega)
  refine ⟨?_, ?_, h.pos, ?_, fun j e he => (hfile j e he).1⟩
  · exact (readU64_congr (hname .first (by simp))).trans h.readFirst
  · refine (readU64_congr (hname .last (by simp))).trans ?_
    show readLastIndex d = _
    rw [h.readLast, List.length_append, mix_length hk, hcut, hold]
    congr 1
    omega
  · exact contiguous_of_index fun j e he => (hfile j e he).2

/-! ## `append` cut off -/

theorem append_ops (batch : List Entry) (d : Dir) :
    (call (append batch) ⟨d⟩).ops = appendOps batch :=
  call_ops (append_eq batch _)

/-- Before the last index is published, only entry files have been written. -/
theorem appendOps_take {batch : List Entry} {k : Nat} (hk : k ≤ batch.length) :
    (appendOps batch).take k = (batch.take k).map writeEntryOp := by
  unfold appendOps
  rw [List.take_append_of_le_length (by rw [List.length_map]; exact hk), List.map_take]

/-- Past the entry files there is at most one operation. -/
theorem appendOps_take_all {batch : List Entry} {k : Nat} (hk : batch.length < k) :
    (appendOps batch).take k = appendOps batch := by
  apply List.take_of_length_le
  unfold appendOps lastOps
  rw [List.length_append, List.length_map]
  split
  · rw [List.length_singleton]; omega
  · rw [List.length_nil]; omega

/-- `append` does not touch what decides whether a directory is initialised. -/
theorem readRaftState_append {d : Dir} {rs : RaftState} (h : readRaftState d = .ok rs)
    (batch : List Entry) (k : Nat) : readRaftState (crashed (append batch) d k) = .ok rs := by
  have hname : ∀ name, name ≠ .last → (∀ i, name ≠ .entry i) →
      crashed (append batch) d k name = d name := by
    intro name hl hi
    unfold crashed
    rw [append_ops]
    apply replay_of_ne
    intro op hop
    rcases appendOps_name (List.mem_of_mem_take hop) with hop | ⟨i, hop⟩
    · rw [hop]; exact hl.symm
    · rw [hop]; exact (hi i).symm
  obtain ⟨hhs, s, hsnap, hcs⟩ := readRaftState_eq_ok.mp h
  refine readRaftState_eq_ok.mpr ⟨?_, s, ?_, hcs⟩
  · exact (readPb_congr (hname .hardstate (by simp) (by simp))).trans hhs
  · exact (readPb_congr (hname .snapshot (by simp) (by simp))).trans hsnap

/-- Whatever the crash point, the reopened directory shows the old log, or the
old log cut before `s` and followed by a prefix of the batch. -/
def CrashConsistentAppend (d : Dir) (first : Nat) (es : List Entry) (s : Nat)
    (batch : List Entry) : Prop :=
  ∀ k, Sees (reopened (crashed (append batch) d k)) first es ∨
    ∃ j, j ≤ batch.length ∧
      Sees (reopened (crashed (append batch) d k)) first (es.take (s - first) ++ batch.take j)

omit [Protobuf] in
/-- The batch reaches the old end and changes at most one entry on the way, or
it changes none. -/
def Harmless (old batch : List Entry) : Prop :=
  (old.length ≤ batch.length ∧ ∀ i j, i < j → j < old.length →
    old[i]? = batch[i]? ∨ old[j]? = batch[j]?) ∨ batch <+: old

omit [Protobuf] in
/-- A mixture is the old suffix, or a prefix of the batch, exactly when the
batch is harmless. -/
theorem mix_iff (old batch : List Entry) :
    (∀ k, k ≤ batch.length → mix old batch k = old ∨
      (old.length ≤ batch.length ∧ mix old batch k = batch.take old.length)) ↔
    Harmless old batch := by
  constructor
  · intro h
    rcases Nat.lt_or_ge batch.length old.length with hlt | hge
    · -- a shorter batch: all of it written, the old end still published
      right
      rcases h batch.length (Nat.le_refl _) with hm | ⟨hle, -⟩
      · have hpre : batch <+: mix old batch batch.length := by
          unfold mix
          rw [List.take_length, List.take_append, List.take_of_length_le (by omega)]
          exact List.prefix_append ..
        rwa [hm] at hpre
      · omega
    · left
      refine ⟨hge, fun i j hij hj => ?_⟩
      -- between the two places the mixture has the new one and the old other
      rcases h j (by omega) with hm | ⟨-, hm⟩
      · left
        have := mix_get (k := j) (i := i) (by omega : j ≤ batch.length) (by omega : i < old.length)
        rw [hm, if_pos hij] at this
        exact this
      · right
        have := mix_get (k := j) (i := j) (by omega : j ≤ batch.length) hj
        rw [hm, if_neg (Nat.lt_irrefl j), List.getElem?_take_of_lt hj] at this
        exact this.symm
  · intro h k hk
    have hext : ∀ l : List Entry, l.length = old.length →
        (∀ i, i < old.length → l[i]? = if i < k then batch[i]? else old[i]?) →
        mix old batch k = l := by
      intro l hlen hl
      apply List.ext_getElem?
      intro i
      rcases Nat.lt_or_ge i old.length with hi | hi
      · rw [mix_get hk hi, hl i hi]
      · rw [List.getElem?_eq_none (by rw [mix_length hk]; exact hi),
          List.getElem?_eq_none (by rw [hlen]; exact hi)]
    rcases h with ⟨hle, hone⟩ | hpre
    · by_cases hbefore : ∀ i, i < k → i < old.length → old[i]? = batch[i]?
      · left
        apply hext old rfl
        intro i hi
        split
        next hik => exact hbefore i hik hi
        next => rfl
      · -- some place before `k` changes, so none from `k` on does
        right
        push Not at hbefore
        obtain ⟨i, hik, hi, hne⟩ := hbefore
        refine ⟨hle, hext _ (by rw [List.length_take, Nat.min_eq_left hle]) ?_⟩
        intro j hj
        rw [List.getElem?_take_of_lt hj]
        split
        next => rfl
        next hjk =>
          rcases hone i j (by omega) hj with heq | heq
          · exact absurd heq hne
          · exact heq.symm
    · left
      apply hext old rfl
      intro i hi
      split
      next hik =>
        obtain ⟨rest, hrest⟩ := hpre
        rw [← hrest, List.getElem?_append_left (by omega)]
      next => rfl

/-- **A crash inside `append`** shows the old log or a cleanly cut one exactly
when the batch is harmless to the suffix it replaces; in particular whenever
it only extends the log. -/
theorem append_crash_iff {d : Dir} {first s : Nat} {es batch : List Entry} {rs : RaftState}
    (h : Holds d first es) (hopen : readRaftState d = .ok rs) (hc : Contiguous s batch)
    (hfirst : first ≤ s) (hlast : s ≤ first + es.length) (hlim : s + batch.length < 2 ^ 64) :
    CrashConsistentAppend d first es s batch ↔ Harmless (es.drop (s - first)) batch := by
  have hre : ∀ k, reopened (crashed (append batch) d k) = crashed (append batch) d k :=
    fun k => reopened_of_ok (readRaftState_append hopen batch k)
  -- short of the last operation the old end is published, over a mixture
  have hpartial : ∀ k, k ≤ batch.length → Sees (crashed (append batch) d k) first
      (es.take (s - first) ++ mix (es.drop (s - first)) batch k) := by
    intro k hk
    unfold crashed
    rw [append_ops, appendOps_take hk]
    exact (h.overwrite hc hfirst hlast hk).sees
  have hsplit : es = es.take (s - first) ++ es.drop (s - first) :=
    (List.take_append_drop _ _).symm
  rw [← mix_iff]
  constructor
  -- both readings start with what was below the batch, so the mixture is compared alone
  · intro hsafe k hk
    have hmix := hpartial k hk
    rcases hsafe k with hold | ⟨j, hj, hnew⟩
    · left
      rw [hre] at hold
      exact List.append_cancel_left ((Sees.unique h.pos hmix hold).trans hsplit)
    · right
      rw [hre] at hnew
      have heq := List.append_cancel_left (Sees.unique h.pos hmix hnew)
      have hlen := congrArg List.length heq
      rw [mix_length hk, List.length_take, Nat.min_eq_left hj] at hlen
      rw [heq, hlen]
      exact ⟨hj, rfl⟩
  · intro hmix k
    rw [hre]
    rcases Nat.lt_or_ge batch.length k with hk | hk
    · -- the call was complete
      unfold crashed
      rw [append_ops, appendOps_take_all hk]
      by_cases hne : batch = []
      · subst hne
        exact Or.inl h.sees
      · refine Or.inr ⟨batch.length, Nat.le_refl _, ?_⟩
        rw [List.take_length]
        exact (h.append hc hne hfirst hlast hlim).sees
    · rcases hmix k hk with hm | ⟨hle, hm⟩
      · left
        have := hpartial k hk
        rwa [hm, ← hsplit] at this
      · right
        refine ⟨(es.drop (s - first)).length, hle, ?_⟩
        have := hpartial k hk
        rwa [hm] at this

end FsStorage

namespace FsStorage

open scoped Proto3

/-- A new directory after an `append` of three entries of term 1. -/
def threeEntries : List Entry :=
  [{ term := 1, index := 1 }, { term := 1, index := 2 }, { term := 1, index := 3 }]

def threeEntriesDir : Dir := replay (replay emptyDir initOps) (appendOps threeEntries)

theorem threeEntries_holds : Holds threeEntriesDir 1 threeEntries :=
  rel_init.holds.append (s := 1) (by decide) (by decide) (by decide) (by decide) (by decide)

theorem threeEntries_opened : readRaftState threeEntriesDir
    = .ok { hardState := default, confState := default } := by
  decide +kernel

/-- An extension by a fourth entry is safe at every crash point. -/
theorem append_crash_iff_extension :
    CrashConsistentAppend threeEntriesDir 1 threeEntries 4 [{ term := 2, index := 4 }] := by
  refine (append_crash_iff threeEntries_holds threeEntries_opened (by decide)
    (by decide) (by decide) (by decide)).mpr (Or.inl ⟨by decide, ?_⟩)
  intro i j _ hj
  exact absurd hj (by simp [threeEntries])

/-- Two entries of term 1 are replaced by two of term 2, and the crash comes
after the first file: the reopened log has terms 1, 2, 1. -/
theorem append_crash_mixture :
    Holds threeEntriesDir 1 threeEntries ∧
      Contiguous 2 [{ term := 2, index := 2 }, { term := 2, index := 3 }] ∧
      ¬ CrashConsistentAppend threeEntriesDir 1 threeEntries 2
        [{ term := 2, index := 2 }, { term := 2, index := 3 }] := by
  refine ⟨threeEntries_holds, by decide, ?_⟩
  intro h
  -- the directory is kept abstract, so that only the two queries are evaluated
  generalize hd : reopened (crashed (append
    [{ term := 2, index := 2 }, { term := 2, index := 3 }]) threeEntriesDir 1) = d at *
  have hentries : FsStorage.entries d 1 4 0
      = .ok [{ term := 1, index := 1 }, { term := 2, index := 2 }, { term := 1, index := 3 }] := by
    rw [← hd]
    decide +kernel
  rcases h 1 with hold | ⟨j, hj, hnew⟩
  · rw [hd] at hold
    have := (hold.entries 0).symm.trans hentries
    simp [threeEntries] at this
  · rw [hd] at hnew
    have hlast : FsStorage.lastIndex d = .ok 3 := by
      rw [← hd]
      decide +kernel
    have hlen := hlast.symm.trans hnew.lastIndex
    injection hlen with hlen
    simp [threeEntries] at hlen
    have hj2 : j = 2 := by simp at hj; omega
    subst hj2
    have := (hnew.entries 0).symm.trans hentries
    simp [threeEntries] at this

end FsStorage

namespace FsStorage

variable [Protobuf]

/-! ## `set_hardstate` cut off -/

/-- What is left when a call is cut off inside its file operations, a write
being the truncation of the file and then the filling of it. -/
def crashedInside {α : Type} (m : FsM Fault α) (d : Dir) (k : Nat) : Dir :=
  replay d (((call m ⟨d⟩).ops.flatMap FileOp.steps).take k)

/-- A crash inside `set_hardstate new` is seen as `hs` by `initial_state`. -/
def HardStateAfterCrash (d : Dir) (new hs : HardState) : Prop :=
  ∃ k rs, initialState (reopened (crashedInside (setHardstate new) d k)) = .ok rs ∧
    rs.hardState = hs

theorem setHardstate_steps (new : HardState) (d : Dir) :
    (call (setHardstate new) ⟨d⟩).ops.flatMap FileOp.steps
      = [.write .hardstate [], .write .hardstate (Protobuf.hardState.writeToBytes new)] := by
  rw [call_ops (setHardstate_eq new _)]
  rfl

/-- Replacing the hard state file leaves the rest of the raft state. -/
theorem readRaftState_write {d d' : Dir} {rs : RaftState} {hs : HardState}
    (h : readRaftState d = .ok rs) (hhs : readHardState d' = .ok hs)
    (hrest : d' .snapshot = d .snapshot) :
    readRaftState d' = .ok { rs with hardState := hs } := by
  obtain ⟨-, s, hsnap, hcs⟩ := readRaftState_eq_ok.mp h
  exact readRaftState_eq_ok.mpr ⟨hhs, s, (readPb_congr hrest).trans hsnap, hcs⟩

/-- Each crash point shows one hard state: the old one before the call has
done anything, the default one on the truncated file, then the new one. -/
theorem crashedInside_setHardstate {d : Dir} {rs : RaftState} (h : readRaftState d = .ok rs)
    (new : HardState) (k : Nat) :
    readRaftState (crashedInside (setHardstate new) d k)
      = .ok { rs with hardState := if k = 0 then rs.hardState else if k = 1 then default else new } := by
  unfold crashedInside
  rw [setHardstate_steps]
  rcases k with _ | _ | k
  · exact h
  · show readRaftState (replay d [.write .hardstate []]) = _
    apply readRaftState_write h
    · exact readPb_truncated (replay_write_self ..)
    · exact replay_write_of_ne (by simp)
  · rw [List.take_of_length_le (by simp), if_neg (by omega), if_neg (by omega)]
    apply readRaftState_write h
    · exact readPb_of_eq (replay_write_self ..)
    · exact replay_of_ne (by simp [FileOp.name])

/-- **A crash inside `set_hardstate`** shows nothing but the old and the new
hard state exactly when one of them is the default, which the truncated file
reads as. -/
theorem setHardstate_crash_iff {d : Dir} {rs : RaftState} (new : HardState)
    (h : initialState d = .ok rs) :
    (∀ hs, HardStateAfterCrash d new hs → hs = rs.hardState ∨ hs = new) ↔
      rs.hardState = default ∨ new = default := by
  have hopen := ioQuery_eq_ok.mp h
  have hseen : ∀ k, initialState (reopened (crashedInside (setHardstate new) d k))
      = .ok { rs with hardState :=
          if k = 0 then rs.hardState else if k = 1 then default else new } := by
    intro k
    have hk := crashedInside_setHardstate hopen new k
    rw [reopened_of_ok hk]
    exact ioQuery_eq_ok.mpr hk
  constructor
  · intro hsafe
    -- the second crash point is the truncated file
    rcases hsafe default ⟨1, _, hseen 1, rfl⟩ with hold | hnew
    · exact Or.inl hold.symm
    · exact Or.inr hnew.symm
  · intro hdef hs h
    obtain ⟨k, rs', hrs', rfl⟩ := h
    obtain rfl := Except.ok.inj ((hseen k).symm.trans hrs')
    show (if k = 0 then rs.hardState else if k = 1 then default else new) = _ ∨ _ = new
    rcases k with _ | _ | k
    · exact Or.inl rfl
    · rcases hdef with hdef | hdef
      · exact Or.inl hdef.symm
      · exact Or.inr hdef.symm
    · right
      rw [if_neg (by omega), if_neg (by omega)]

end FsStorage

namespace FsStorage

open scoped Proto3

/-- A store whose hard state has term 5, a vote for node 1 and commit index 3. -/
def votedDir : Dir :=
  replay threeEntriesDir [.write .hardstate
    (Protobuf.hardState.writeToBytes { term := 5, vote := 1, commit := 3 })]

/-- The first hard state of a new store is written safely. -/
theorem setHardstate_crash_iff_first :
    initialState threeEntriesDir = .ok { hardState := default, confState := default } ∧
    ∀ hs, HardStateAfterCrash threeEntriesDir { term := 1, vote := 2, commit := 0 } hs →
      hs = default ∨ hs = { term := 1, vote := 2, commit := 0 } := by
  have hopen : initialState threeEntriesDir
      = .ok { hardState := default, confState := default } :=
    ioQuery_eq_ok.mpr threeEntries_opened
  exact ⟨hopen, (setHardstate_crash_iff _ hopen).mpr (Or.inl rfl)⟩

/-- With a vote on disk, a crash while the commit index moves on gives a
successful `initial_state` of term 0 and no vote. -/
theorem setHardstate_crash_forgets_vote :
    (∃ cs, initialState votedDir
      = .ok { hardState := { term := 5, vote := 1, commit := 3 }, confState := cs }) ∧
    ¬ ∀ hs, HardStateAfterCrash votedDir { term := 5, vote := 1, commit := 4 } hs →
      hs = { term := 5, vote := 1, commit := 3 } ∨ hs = { term := 5, vote := 1, commit := 4 } := by
  refine ⟨⟨default, by decide +kernel⟩, ?_⟩
  intro hsafe
  have hseen : initialState (reopened (crashedInside
      (setHardstate { term := 5, vote := 1, commit := 4 }) votedDir 1))
        = .ok { hardState := { term := 0, vote := 0, commit := 0 }, confState := default } := by
    decide +kernel
  rcases hsafe _ ⟨1, _, hseen, rfl⟩ with h | h
  · exact absurd h (by decide)
  · exact absurd h (by decide)

end FsStorage

end SawtoothRaft
