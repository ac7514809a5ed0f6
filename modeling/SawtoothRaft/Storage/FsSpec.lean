import SawtoothRaft.Storage.FsStorage
import SawtoothRaft.Storage.PlainLog

/-!
# What the mutators of `FsStorage` do to the directory

One lemma per function, so that nothing further up unfolds a `do` block.

`append` and the setters never fail here, and their file operations depend on
their arguments alone: `append_eq`. `compact` deletes what it can read;
`compact_eq` gives its operations when the range is readable and every entry
file holds the entry of its own index.

For the rest it is enough to know *which* files a mutator may touch:
`Traced Q` says that a run only performed operations satisfying `Q`, and that
the directory is what those operations make of the old one, also when the run
stopped half-way. Every mutator but `set_applied` is `Traced StoreOp`.
-/

namespace SawtoothRaft

open Lib

/-! ## Runs of operations -/

/-- A file system after some more operations. -/
def Fs.after (fs : Fs) (ops : List FileOp) : Fs :=
  { dir := replay fs.dir ops, ops := fs.ops ++ ops }

@[simp] theorem Fs.after_nil (fs : Fs) : fs.after [] = fs := by simp [Fs.after]

@[simp] theorem Fs.after_dir (fs : Fs) (ops : List FileOp) :
    (fs.after ops).dir = replay fs.dir ops := rfl

@[simp] theorem Fs.after_ops (fs : Fs) (ops : List FileOp) :
    (fs.after ops).ops = fs.ops ++ ops := rfl

theorem Fs.after_after (fs : Fs) (ops ops' : List FileOp) :
    (fs.after ops).after ops' = fs.after (ops ++ ops') := by
  simp only [Fs.after, replay_append, List.append_assoc]

theorem get_eq {ε : Type} (fs : Fs) : (get : FsM ε Fs) fs = .ok fs fs := rfl

theorem perform_eq {ε : Type} (op : FileOp) (fs : Fs) :
    (perform op : FsM ε Unit) fs = .ok () (fs.after [op]) := rfl

theorem reading_of_ok {ε α : Type} {f : Dir → Except ε α} {fs : Fs} {a : α}
    (h : f fs.dir = .ok a) : (reading f : FsM ε α) fs = .ok a fs := by
  unfold reading
  rw [h]

theorem reading_of_error {ε α : Type} {f : Dir → Except ε α} {fs : Fs} {e : ε}
    (h : f fs.dir = .error e) : (reading f : FsM ε α) fs = .error e fs := by
  unfold reading
  rw [h]

/-- A loop whose turns each perform one operation performs them all. -/
theorem forM_perform {ε γ : Type} {f : γ → FsM ε Unit} {g : γ → FileOp} :
    ∀ (l : List γ) (fs : Fs),
      (∀ l₁ x l₂, l = l₁ ++ x :: l₂ →
        f x (fs.after (l₁.map g)) = .ok () ((fs.after (l₁.map g)).after [g x])) →
      l.forM f fs = .ok () (fs.after (l.map g))
  | [], fs, _ => by rw [List.map_nil, Fs.after_nil]; rfl
  | x :: l, fs, h => by
    have hx : f x fs = .ok () (fs.after [g x]) := by
      have := h [] x l rfl
      rwa [List.map_nil, Fs.after_nil] at this
    have htail : l.forM f (fs.after [g x]) = .ok () ((fs.after [g x]).after (l.map g)) := by
      apply forM_perform l
      intro l₁ y l₂ hl
      have := h (x :: l₁) y l₂ (by rw [hl]; rfl)
      rwa [List.map_cons, ← List.singleton_append, ← Fs.after_after] at this
    show (f x >>= fun _ => l.forM f) fs = _
    rw [bind_of_ok hx, htail, Fs.after_after]
    rfl

namespace FsStorage

variable [Protobuf]

/-! ## Reading a range -/

theorem readEntries_eq_ok {d : Dir} {low count : Nat} {es : List Entry} :
    readEntries d low count = .ok es ↔
      es.length = count ∧ ∀ k e, es[k]? = some e → readEntry d (low + k) = .ok e := by
  induction count generalizing low es with
  | zero =>
    constructor
    · intro h
      obtain rfl : es = [] := by simpa [readEntries, pure, Except.pure] using h.symm
      simp
    · intro h
      obtain ⟨hlen, -⟩ := h
      obtain rfl : es = [] := List.length_eq_zero_iff.mp hlen
      rfl
  | succ n ih =>
    -- the range is read front first, and a failure stops it
    have hcons : readEntries d low (n + 1) = (do
        let e ← readEntry d low
        let rest ← readEntries d (low + 1) n
        pure (e :: rest)) := by
      rw [readEntries, List.range'_succ, List.mapM_cons]
      rfl
    rw [hcons]
    constructor
    · intro h
      obtain ⟨e, he, h⟩ := bind_eq_ok.mp h
      obtain ⟨rest, hr, h⟩ := bind_eq_ok.mp h
      obtain rfl : e :: rest = es := Except.ok.inj h
      obtain ⟨hlen, hget⟩ := ih.mp hr
      refine ⟨by rw [List.length_cons, hlen], ?_⟩
      intro k x hx
      cases k with
      | zero =>
        obtain rfl : e = x := Option.some.inj hx
        exact he
      | succ k =>
        rw [List.getElem?_cons_succ] at hx
        rw [show low + (k + 1) = low + 1 + k by omega]
        exact hget k x hx
    · intro h
      obtain ⟨hlen, hget⟩ := h
      obtain ⟨e, rest, rfl⟩ : ∃ e rest, es = e :: rest := by
        rcases es with _ | ⟨e, rest⟩
        · simp at hlen
        · exact ⟨e, rest, rfl⟩
      have hr : readEntries d (low + 1) n = .ok rest := by
        apply ih.mpr
        refine ⟨by simpa using hlen, ?_⟩
        intro k x hx
        rw [show low + 1 + k = low + (k + 1) by omega]
        exact hget (k + 1) x hx
      exact bind_eq_ok.mpr ⟨e, hget 0 e rfl, bind_eq_ok.mpr ⟨rest, hr, rfl⟩⟩

omit [Protobuf] in
theorem ioQuery_eq_ok {α : Type} {r : Except ErrorKind α} {a : α} :
    ioQuery r = .ok a ↔ r = .ok a := by
  unfold ioQuery
  cases r with
  | ok b => simp [Except.mapError]
  | error k => simp [Except.mapError]

omit [Protobuf] in
theorem ask_eq_ok {α : Type} {s : FsStorage} {r : Except RaftError α} {a : α} :
    (ask s r).result = .ok a ↔ r = .ok a := by
  unfold ask
  cases r with
  | ok b => simp [Except.mapError]
  | error k => simp [Except.mapError]

/-- A range that is not empty is answered if it lies within the bounds and all
of its files can be read. -/
theorem entries_eq_ok {d : Dir} {low high m : Nat} {es : List Entry} (hlt : low < high) :
    FsStorage.entries d low high m = .ok es ↔
      ∃ first last, readFirstIndex d = .ok first ∧ readLastIndex d = .ok last ∧
        first ≤ low ∧ high ≤ last + 1 ∧ readEntries d low (high - low) = .ok es := by
  unfold FsStorage.entries errCompacted errUnavailable
  rw [if_neg (by omega)]
  constructor
  · intro h
    obtain ⟨first, hfirst, h⟩ := bind_eq_ok.mp h
    obtain ⟨last, hlast, h⟩ := bind_eq_ok.mp h
    refine ⟨first, last, ioQuery_eq_ok.mp hfirst, ioQuery_eq_ok.mp hlast, ?_⟩
    split at h
    next => cases h
    next =>
      rw [if_neg (by omega)] at h
      split at h
      next => cases h
      next hlow =>
        split at h
        next => cases h
        next hhigh => exact ⟨by omega, by omega, ioQuery_eq_ok.mp h⟩
  · intro h
    obtain ⟨first, last, hfirst, hlast, hlow, hhigh, hread⟩ := h
    refine bind_eq_ok.mpr ⟨first, ioQuery_eq_ok.mpr hfirst, ?_⟩
    refine bind_eq_ok.mpr ⟨last, ioQuery_eq_ok.mpr hlast, ?_⟩
    rw [if_neg (by omega), if_neg (by omega), if_neg (by omega), if_neg (by omega)]
    exact ioQuery_eq_ok.mpr hread

/-! ## `term` -/

section
variable {d : Dir} {i first compacted : Nat}

theorem readEntry_of_none (h : d (.entry i) = none) : readEntry d i = .error .NotFound := by
  unfold readEntry readPbFromFile fsRead
  rw [h]
  rfl

theorem term_of_readEntry {e : Entry} (h : readEntry d i = .ok e) :
    FsStorage.term d i = .ok e.term := by
  unfold FsStorage.term
  rw [h]

theorem term_zero (h : d (.entry 0) = none) : FsStorage.term d 0 = .ok 0 := by
  unfold FsStorage.term
  rw [readEntry_of_none h]
  rfl

/-- Where there is no file, the compacted term decides: it is the term at the
boundary, and whether it is zero tells the two errors apart. -/
theorem term_of_none (hnone : d (.entry i) = none) (hi : 0 < i)
    (hfirst : readFirstIndex d = .ok first) (hterm : readCompactedTerm d = .ok compacted) :
    FsStorage.term d i = if compacted = 0 then errUnavailable
      else if i + 1 = first then .ok compacted else errCompacted := by
  unfold FsStorage.term FsStorage.firstIndex
  rw [readEntry_of_none hnone, ioQuery_eq_ok.mpr hfirst, ioQuery_eq_ok.mpr hterm]
  dsimp only [bind, Except.bind, pure, Except.pure]
  rw [if_neg (by omega)]
  by_cases hb : i + 1 = first
  · rw [if_pos hb, if_pos hb]
  · rw [if_neg hb, if_neg hb]

theorem term_at_boundary (hnone : d (.entry i) = none) (hi : 0 < i)
    (hfirst : readFirstIndex d = .ok (i + 1)) (hterm : readCompactedTerm d = .ok compacted)
    (t : Nat) : FsStorage.term d i = .ok t ↔ compacted = t ∧ 0 < compacted := by
  rw [term_of_none hnone hi hfirst hterm, if_pos rfl]
  by_cases hz : compacted = 0
  · rw [if_pos hz]
    refine ⟨fun h => by simp [errUnavailable] at h, fun h => ?_⟩
    omega
  · rw [if_neg hz]
    refine ⟨fun h => ⟨Except.ok.inj h, by omega⟩, fun h => ?_⟩
    rw [h.1]

/-- Anywhere else there is no term. -/
theorem term_off_boundary (hnone : d (.entry i) = none) (hi : 0 < i)
    (hfirst : readFirstIndex d = .ok first) (hne : i + 1 ≠ first)
    (hterm : readCompactedTerm d = .ok compacted) (t : Nat) : FsStorage.term d i ≠ .ok t := by
  rw [term_of_none hnone hi hfirst hterm, if_neg hne]
  by_cases hz : compacted = 0
  · simp [hz, errUnavailable]
  · simp [hz, errCompacted]

end

/-! ## `append` and the setters -/

def writeEntryOp (e : Entry) : FileOp :=
  .write (.entry e.index) (Protobuf.entry.writeToBytes e)

omit [Protobuf] in
/-- The write that publishes the new end of the log. -/
def lastOps (es : List Entry) : List FileOp :=
  match es.getLast? with
  | some e => [.write .last (u64ToBytes e.index)]
  | none => []

/-- The file operations of `append`: the entries in order, the last index at
the very end. -/
def appendOps (es : List Entry) : List FileOp := es.map writeEntryOp ++ lastOps es

theorem append_eq (es : List Entry) (fs : Fs) :
    append es fs = .ok () (fs.after (appendOps es)) := by
  have hloop : es.forM (writeEntry : Entry → FsM Fault Unit) fs
      = .ok () (fs.after (es.map writeEntryOp)) :=
    forM_perform es fs fun _ _ _ _ => rfl
  unfold append
  rw [bind_of_ok hloop]
  unfold publishLast appendOps lastOps
  split
  next e he =>
    rw [he, ← Fs.after_after]
    rfl
  next hnone => rw [hnone, List.append_nil]; rfl

theorem setHardstate_eq (hs : HardState) (fs : Fs) :
    setHardstate hs fs
      = .ok () (fs.after [.write .hardstate (Protobuf.hardState.writeToBytes hs)]) := rfl

omit [Protobuf] in
theorem setApplied_eq (a : Nat) (fs : Fs) :
    setApplied a fs = .ok () (fs.after [.write .applied (u64ToBytes a)]) := rfl

omit [Protobuf] in
/-- A call whose file operations do not depend on the directory. -/
theorem call_eq {m : FsM Fault Unit} {ops : List FileOp} (h : ∀ fs, m fs = .ok () (fs.after ops))
    (s : FsStorage) :
    call m s = { result := .ok (), store := ⟨replay s.dir ops⟩, ops := ops } := by
  unfold call
  rw [h]
  rfl

/-- Files of entries that `append` does not name stay as they are. -/
theorem replay_writeEntries_of_ne {d : Dir} {es : List Entry} {name : FileName}
    (h : ∀ e ∈ es, FileName.entry e.index ≠ name) :
    replay d (es.map writeEntryOp) name = d name := by
  apply replay_of_ne
  intro op hop
  obtain ⟨e, he, rfl⟩ := List.mem_map.mp hop
  exact h e he

/-- After a contiguous batch has been written, file `s + k` holds its `k`-th
entry. -/
theorem replay_writeEntries_of_get {d : Dir} {es : List Entry} {s k : Nat} {e : Entry}
    (hc : Contiguous s es) (he : es[k]? = some e) :
    replay d (es.map writeEntryOp) (.entry (s + k))
      = some (Protobuf.entry.writeToBytes e) := by
  induction es generalizing d s k with
  | nil => simp at he
  | cons x es ih =>
    obtain ⟨hx, htail⟩ := hc
    rw [List.map_cons, replay_cons]
    cases k with
    | zero =>
      obtain rfl : x = e := by simpa using he
      -- the later writes have larger indices
      rw [replay_writeEntries_of_ne]
      · rw [Nat.add_zero, ← hx]
        exact apply_write_self ..
      · intro y hy hname
        have := htail.index_mem hy
        injection hname with hname
        omega
    | succ k =>
      rw [List.getElem?_cons_succ] at he
      rw [show s + (k + 1) = s + 1 + k by omega]
      exact ih htail he

/-- Reading back what a batch wrote. -/
theorem readEntry_writeEntries {d : Dir} {es : List Entry} {s k : Nat} {e : Entry}
    (hc : Contiguous s es) (he : es[k]? = some e) :
    readEntry (replay d (es.map writeEntryOp)) (s + k) = .ok e :=
  readPb_of_eq (replay_writeEntries_of_get hc he)

/-- Entry files outside the batch keep their contents. -/
theorem writeEntries_outside {d : Dir} {es : List Entry} {s i : Nat} (hc : Contiguous s es)
    (hi : i < s ∨ s + es.length ≤ i) :
    replay d (es.map writeEntryOp) (.entry i) = d (.entry i) := by
  apply replay_writeEntries_of_ne
  intro e he hname
  have := hc.index_mem he
  injection hname with hname
  omega

omit [Protobuf] in
theorem lastOps_name {es : List Entry} {op : FileOp} (h : op ∈ lastOps es) : op.name = .last := by
  unfold lastOps at h
  split at h
  next e he => rw [List.mem_singleton.mp h]; rfl
  next => exact absurd h (by simp)

/-- `append` touches entry files and `last`, nothing else. -/
theorem appendOps_name {es : List Entry} {op : FileOp} (h : op ∈ appendOps es) :
    op.name = .last ∨ ∃ i, op.name = .entry i := by
  rcases List.mem_append.mp h with h | h
  · obtain ⟨e, -, rfl⟩ := List.mem_map.mp h
    exact Or.inr ⟨e.index, rfl⟩
  · exact Or.inl (lastOps_name h)

/-! ## `compact` -/

omit [Protobuf] in
/-- The boundary writes of `compact`. -/
def boundaryOps (delete : List Entry) : List FileOp :=
  match delete.getLast? with
  | some last => [.write .term (u64ToBytes last.term), .write .first (u64ToBytes (last.index + 1))]
  | none => []

omit [Protobuf] in
/-- The file operations of `compact`: boundary term, first index, then the
removals. -/
def compactOps (delete : List Entry) : List FileOp :=
  boundaryOps delete ++ delete.map fun e => .remove (.entry e.index)

omit [Protobuf] in
theorem writeBoundary_eq (delete : List Entry) (fs : Fs) :
    writeBoundary delete fs = .ok () (fs.after (boundaryOps delete)) := by
  unfold writeBoundary boundaryOps
  cases delete.getLast? with
  | some last =>
    have hterm : (writeCompactedTerm last.term : FsM Fault Unit) fs
        = .ok () (fs.after [.write .term (u64ToBytes last.term)]) := rfl
    show (writeCompactedTerm last.term >>= fun _ => writeFirstIndex (last.index + 1)) fs
      = .ok () (fs.after ([.write .term _] ++ [.write .first _]))
    rw [bind_of_ok hterm, ← Fs.after_after]
    rfl
  | none => rw [Fs.after_nil]; rfl

omit [Protobuf] in
theorem ioResult_of_ok {α : Type} {m : FsM ErrorKind α} {fs fs' : Fs} {a : α}
    (h : m fs = .ok a fs') : ioResult m fs = .ok a fs' := by
  unfold ioResult EStateM.adaptExcept
  rw [h]

omit [Protobuf] in
theorem ioResult_of_error {α : Type} {m : FsM ErrorKind α} {fs fs' : Fs} {k : ErrorKind}
    (h : m fs = .error k fs') : ioResult m fs = .error (.err (.Io k)) fs' := by
  unfold ioResult EStateM.adaptExcept
  rw [h]

omit [Protobuf] in
theorem query_of_ok {α : Type} {f : Dir → Except RaftError α} {fs : Fs} {a : α}
    (h : f fs.dir = .ok a) : query f fs = .ok a fs := by
  unfold query EStateM.adaptExcept
  rw [reading_of_ok h]

/-- A file that can be read exists. -/
theorem isSome_of_readEntry {d : Dir} {i : Nat} {e : Entry} (h : readEntry d i = .ok e) :
    (d (.entry i)).isSome :=
  isSome_of_readPb h

omit [Protobuf] in
theorem removeEntry_eq {i : Nat} {fs : Fs} (h : (fs.dir (.entry i)).isSome) :
    removeEntry i fs = .ok () (fs.after [.remove (.entry i)]) := by
  obtain ⟨b, hb⟩ := Option.isSome_iff_exists.mp h
  unfold removeEntry fsRemoveFile
  rw [bind_of_ok (get_eq fs), hb]
  rfl

omit [Protobuf] in
/-- Removing a contiguous run of existing entry files goes through. -/
theorem removeEntries_eq {delete : List Entry} {s : Nat} {fs : Fs} (hc : Contiguous s delete)
    (hex : ∀ e ∈ delete, (fs.dir (.entry e.index)).isSome) :
    delete.forM (fun e => removeEntry e.index) fs
      = .ok () (fs.after (delete.map fun e => .remove (.entry e.index))) := by
  apply forM_perform
  intro l₁ x l₂ hl
  apply removeEntry_eq
  rw [Fs.after_dir, replay_of_ne]
  · exact hex x (by rw [hl]; simp)
  · -- what was removed before has smaller indices
    intro op hop hname
    obtain ⟨y, hy, rfl⟩ := List.mem_map.mp hop
    rw [hl, contiguous_append] at hc
    have hyi := hc.1.index_mem hy
    have hxi : x.index = s + l₁.length := hc.2.1
    simp only [FileOp.name, FileName.entry.injEq] at hname
    omega

/-- `compact` on a readable range whose files hold the entries of their own
indices. -/
theorem compact_eq {c first : Nat} {delete : List Entry} {fs : Fs}
    (hfirst : readFirstIndex fs.dir = .ok first) (hle : first ≤ c)
    (hread : readEntries fs.dir first (c + 1 - first) = .ok delete)
    (hc : Contiguous first delete) :
    compact c fs = .ok () (fs.after (compactOps delete)) := by
  have hex : ∀ e ∈ delete, ((fs.after (boundaryOps delete)).dir (.entry e.index)).isSome := by
    intro e he
    obtain ⟨k, hk, hke⟩ := List.getElem_of_mem he
    have hget : delete[k]? = some e := List.getElem?_eq_some_iff.mpr ⟨hk, hke⟩
    rw [Fs.after_dir, replay_of_ne]
    · rw [hc.index hget]
      exact isSome_of_readEntry ((readEntries_eq_ok.mp hread).2 k e hget)
    · unfold boundaryOps
      split <;> simp [FileOp.name]
  unfold compact
  rw [bind_of_ok (ioResult_of_ok (reading_of_ok hfirst)), if_neg (by omega),
    bind_of_ok (ioResult_of_ok (reading_of_ok hread)), bind_of_ok (writeBoundary_eq delete fs),
    ioResult_of_ok (removeEntries_eq hc hex), Fs.after_after]
  rfl

/-! ## `create_snapshot` -/

theorem createSnapshot_eq {index last : Nat} {cs : Option ConfState} {data : Bytes}
    {current : Snapshot} {e : Entry} {fs : Fs} (hsnap : readSnapshot fs.dir = .ok current)
    (hnew : current.getMetadata.index < index) (hlast : readLastIndex fs.dir = .ok last)
    (hle : index ≤ last) (hentry : readEntry fs.dir index = .ok e) :
    createSnapshot index cs data fs
      = .ok (nextSnapshot current index e.term cs data)
          (fs.after [.write .snapshot
            (Protobuf.snapshot.writeToBytes (nextSnapshot current index e.term cs data))]) := by
  have hq : query snapshot fs = .ok current fs := query_of_ok (ioQuery_eq_ok.mpr hsnap)
  have he : expectEntry index fs = .ok e fs := by
    unfold expectEntry EStateM.adaptExcept
    rw [reading_of_ok hentry]
  unfold createSnapshot
  rw [bind_of_ok hq, if_neg (by omega), bind_of_ok (ioResult_of_ok (reading_of_ok hlast)),
    if_neg (by omega), bind_of_ok he]
  rfl

/-! ## Opening -/

/-- A directory from which nothing is missing is opened without a write. -/
theorem withDataDir_of_not_missing {fs : Fs} (h : readRaftState fs.dir ≠ .error .NotFound) :
    withDataDir fs = .ok () fs := by
  unfold withDataDir initRaftStateIfMissing
  rw [bind_of_ok (get_eq fs)]
  cases hr : readRaftState fs.dir with
  | ok rs => rfl
  | error k =>
    cases k with
    | NotFound => exact absurd hr h
    | InvalidData => rfl

/-- The files of a new store. -/
def initOps : List FileOp :=
  [.write .term (u64ToBytes 0), .write .first (u64ToBytes 1), .write .last (u64ToBytes 0),
    .write .applied (u64ToBytes 0), .write .hardstate (Protobuf.hardState.writeToBytes default),
    .write .snapshot (Protobuf.snapshot.writeToBytes default)]

theorem initRaftState_eq (fs : Fs) : initRaftState fs = .ok () (fs.after initOps) := by
  unfold initRaftState writeCompactedTerm writeFirstIndex writeLastIndex writeApplied
    writeHardState writeSnapshot writeU64ToFile writePbToFile fsWrite
  rw [bind_of_ok (perform_eq ..), bind_of_ok (perform_eq ..), bind_of_ok (perform_eq ..),
    bind_of_ok (perform_eq ..), bind_of_ok (perform_eq ..), perform_eq]
  simp only [Fs.after_after]
  rfl

/-- A directory in which the state is missing is initialised. -/
theorem withDataDir_of_missing {fs : Fs} (h : readRaftState fs.dir = .error .NotFound) :
    withDataDir fs = .ok () (fs.after initOps) := by
  unfold withDataDir initRaftStateIfMissing
  rw [bind_of_ok (get_eq fs), h]
  exact initRaftState_eq fs

/-- `FsStorage::with_data_dir` on an empty directory. -/
def newStore : FsStorage := ⟨replay emptyDir initOps⟩

theorem newStore_entry (i : Nat) : newStore.dir (.entry i) = none :=
  replay_of_ne (by simp [initOps, FileOp.name])

theorem readRaftState_eq_ok {d : Dir} {rs : RaftState} :
    readRaftState d = .ok rs ↔ readHardState d = .ok rs.hardState ∧
      ∃ s, readSnapshot d = .ok s ∧ rs.confState = confStateOf s := by
  obtain ⟨hs, cs⟩ := rs
  unfold readRaftState readConfState
  cases hh : readHardState d with
  | error k => simp [bind, Except.bind]
  | ok h =>
    cases hsn : readSnapshot d with
    | error k => simp [bind, Except.bind]
    | ok s => simp [bind, Except.bind, pure, Except.pure, eq_comm]

/-! ## Which files a mutator may touch -/

omit [Protobuf] in
/-- `fs'` is `fs` after some more operations, all of kind `Q`. -/
def Extends (Q : FileOp → Prop) (fs fs' : Fs) : Prop :=
  ∃ ops, (∀ op ∈ ops, Q op) ∧ fs' = fs.after ops

omit [Protobuf] in
/-- Returned or stopped, a run of `m` has performed operations of kind `Q` and
nothing else. -/
def Traced {ε α : Type} (Q : FileOp → Prop) (m : FsM ε α) : Prop :=
  ∀ fs, Triple (Extends Q fs) m (fun _ => Extends Q fs) (fun _ => Extends Q fs)

section
variable {ε α β γ : Type} {Q : FileOp → Prop}

omit [Protobuf]

theorem Traced.pure (a : α) : Traced Q (Pure.pure a : FsM ε α) :=
  fun _ => Triple.pure fun _ h => h

theorem Traced.throw (e : ε) : Traced Q (MonadExcept.throw e : FsM ε α) :=
  fun _ => Triple.throw fun _ h => h

theorem Traced.bind {m : FsM ε α} {f : α → FsM ε β} (hm : Traced Q m)
    (hf : ∀ a, Traced Q (f a)) : Traced Q (m >>= f) :=
  fun fs => Triple.bind (hm fs) fun a => hf a fs

theorem Traced.forM {f : γ → FsM ε Unit} (l : List γ) (h : ∀ x ∈ l, Traced Q (f x)) :
    Traced Q (l.forM f) :=
  fun fs => Triple.forM l fun x hx => h x hx fs

theorem Traced.perform {op : FileOp} (h : Q op) : Traced Q (SawtoothRaft.perform op : FsM ε Unit) := by
  intro fs _ h
  obtain ⟨ops, hops, rfl⟩ := h
  refine ⟨ops ++ [op], ?_, Fs.after_after fs ops [op]⟩
  intro op' hop
  rcases List.mem_append.mp hop with hop | hop
  · exact hops op' hop
  · rw [List.mem_singleton.mp hop]
    exact h

theorem Traced.reading (f : Dir → Except ε α) : Traced Q (SawtoothRaft.reading f) := by
  intro fs fs' h
  unfold SawtoothRaft.reading
  cases f fs'.dir with
  | ok a => exact h
  | error e => exact h

theorem Traced.adapt {ε' : Type} {m : FsM ε α} (g : ε → ε') (h : Traced Q m) :
    Traced Q (EStateM.adaptExcept g m) := by
  intro fs fs' hfs
  have := h fs fs' hfs
  unfold EStateM.adaptExcept
  cases hm : m fs' with
  | ok a s => rw [hm] at this; exact this
  | error e s => rw [hm] at this; exact this

/-- The two halves of `Traced`, for a call on the directory. -/
theorem Traced.call {m : FsM Fault α} (h : Traced Q m) (s : FsStorage) :
    (∀ op ∈ (FsStorage.call m s).ops, Q op) ∧
      (FsStorage.call m s).store.dir = replay s.dir (FsStorage.call m s).ops := by
  have hrun := h { dir := s.dir, ops := [] } { dir := s.dir, ops := [] }
    ⟨[], by simp, (Fs.after_nil _).symm⟩
  unfold FsStorage.call
  cases hm : m { dir := s.dir, ops := [] } with
  | ok a fs =>
    rw [hm] at hrun
    obtain ⟨ops, hops, rfl⟩ := hrun
    exact ⟨by simpa using hops, by simp⟩
  | error e fs =>
    rw [hm] at hrun
    obtain ⟨ops, hops, rfl⟩ := hrun
    exact ⟨by simpa using hops, by simp⟩

end

/-- Every operation that compacting the log or applying a snapshot may perform
is of kind `Q`. -/
structure AdmitsSnapshot (Q : FileOp → Prop) : Prop where
  term : ∀ n, Q (.write .term (u64ToBytes n))
  first : ∀ n, Q (.write .first (u64ToBytes n))
  snapshot : ∀ s, Q (.write .snapshot (Protobuf.snapshot.writeToBytes s))
  removal : ∀ i, Q (.remove (.entry i))

/-- And so is every operation of the other mutators but `set_applied`, as long
as the entries they are given satisfy `P`. -/
structure Admits (Q : FileOp → Prop) (P : Entry → Prop) : Prop extends AdmitsSnapshot Q where
  last : ∀ n, Q (.write .last (u64ToBytes n))
  hardState : ∀ hs, Q (.write .hardstate (Protobuf.hardState.writeToBytes hs))
  entry : ∀ e, P e → Q (writeEntryOp e)

section
variable {Q : FileOp → Prop} {P : Entry → Prop}

theorem setHardstate_traced (h : ∀ hs, Q (.write .hardstate (Protobuf.hardState.writeToBytes hs)))
    (hs : HardState) : Traced Q (setHardstate hs) :=
  Traced.perform (h hs)

theorem append_traced (h : Admits Q P) {es : List Entry} (hes : ∀ e ∈ es, P e) :
    Traced Q (append es) := by
  refine Traced.bind (Traced.forM es fun e he => Traced.perform (h.entry e (hes e he))) fun _ => ?_
  unfold publishLast
  split
  · exact Traced.perform (h.last _)
  · exact Traced.pure _

theorem createSnapshot_traced (h : ∀ s, Q (.write .snapshot (Protobuf.snapshot.writeToBytes s)))
    (index : Nat) (cs : Option ConfState) (data : Bytes) :
    Traced Q (createSnapshot index cs data) := by
  refine Traced.bind (Traced.adapt _ (Traced.reading _)) fun current => ?_
  split
  · exact Traced.throw _
  · refine Traced.bind (Traced.adapt _ (Traced.reading _)) fun lastIndex => ?_
    split
    · exact Traced.throw _
    · refine Traced.bind (Traced.adapt _ (Traced.reading _)) fun entry => ?_
      exact Traced.bind (Traced.perform (h _)) fun _ => Traced.pure _

omit [Protobuf] in
theorem removeEntry_traced (i : Nat) (h : Q (.remove (.entry i))) :
    Traced Q (removeEntry i) := by
  unfold removeEntry fsRemoveFile
  refine Traced.bind (fun _ => Triple.get fun _ h => h) fun fs => ?_
  split
  · exact Traced.perform h
  · exact Traced.throw _

theorem compact_traced (h : AdmitsSnapshot Q) (c : Nat) : Traced Q (compact c) := by
  refine Traced.bind (Traced.adapt _ (Traced.reading _)) fun first => ?_
  split
  · exact Traced.throw _
  · refine Traced.bind (Traced.adapt _ (Traced.reading _)) fun delete => ?_
    refine Traced.bind ?_ fun _ => ?_
    · unfold writeBoundary
      split
      · exact Traced.bind (Traced.perform (h.term _)) fun _ => Traced.perform (h.first _)
      · exact Traced.pure _
    · exact Traced.adapt _ (Traced.forM _ fun e _ => removeEntry_traced _ (h.removal _))

theorem applySnapshot_traced (h : AdmitsSnapshot Q) (s : Snapshot) :
    Traced Q (applySnapshot s) := by
  refine Traced.bind (Traced.adapt _ (Traced.reading _)) fun current => ?_
  split
  · exact Traced.throw _
  · exact Traced.bind (compact_traced h _) fun _ => Traced.perform (h.snapshot s)

end

/-- What the mutators other than `set_applied` do: they never touch `applied`,
into an entry file they only write an entry of that index, and they remove no
other files. -/
structure StoreOp (op : FileOp) : Prop where
  name : op.name ≠ .applied
  entry : ∀ i b, op = .write (.entry i) b →
    ∃ e : Entry, e.index = i ∧ b = Protobuf.entry.writeToBytes e
  removal : ∀ name, op = .remove name → ∃ i, name = .entry i

theorem storeOp_admits : Admits StoreOp fun _ => True where
  term _ := ⟨by simp [FileOp.name], by simp, by simp⟩
  first _ := ⟨by simp [FileOp.name], by simp, by simp⟩
  last _ := ⟨by simp [FileOp.name], by simp, by simp⟩
  hardState _ := ⟨by simp [FileOp.name], by simp, by simp⟩
  snapshot _ := ⟨by simp [FileOp.name], by simp, by simp⟩
  entry e _ := by
    refine ⟨by simp [FileOp.name, writeEntryOp], ?_, by simp [writeEntryOp]⟩
    intro i b hop
    injection hop with hname hb
    injection hname with hname
    exact ⟨e, hname, hb.symm⟩
  removal _ := ⟨by simp [FileOp.name], by simp, by simp⟩

end FsStorage

end SawtoothRaft
