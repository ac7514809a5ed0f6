import SawtoothRaft.Storage.Intact

/-!
# What `apply_snapshot` makes of a store

A snapshot that is newer than the stored one is to overwrite the contents of
the store: the log is the snapshot's boundary and nothing else
(`Overwritten`). `FsStorage::apply_snapshot` leaves this to `compact`, which
deletes what it can read from the first index up to the snapshot's and takes
the boundary term from the last entry it deleted. It moves `last` nowhere.

So a snapshot beyond the log is refused, since its entries cannot be read; one
inside the log leaves the entries after it; and only one that lies at the end
of the log, where nothing of a replaced suffix is left behind, does what it is
for. `applySnapshot_overwrites_iff` says that this is exactly so, for every
store that calls can lead to.
-/

namespace SawtoothRaft

open Lib

namespace FsStorage

variable [Protobuf]

/-- The contents of the store are those of the snapshot. -/
structure Overwritten (d : Dir) (snap : Snapshot) : Prop where
  firstIndex : FsStorage.firstIndex d = .ok (snap.getMetadata.index + 1)
  lastIndex : FsStorage.lastIndex d = .ok snap.getMetadata.index
  term : FsStorage.term d snap.getMetadata.index = .ok snap.getMetadata.term
  above : ∀ i, snap.getMetadata.index < i → ∀ t, FsStorage.term d i ≠ .ok t
  snapshot : FsStorage.snapshot d = .ok snap
  confState : ∃ rs, FsStorage.initialState d = .ok rs ∧ rs.confState = confStateOf snap

/-- `apply_snapshot` returns `Ok` and has overwritten the store. -/
def Overwrites (s : FsStorage) (snap : Snapshot) : Prop :=
  (StorageExt.applySnapshot s snap).result = .ok () ∧
    Overwritten (StorageExt.applySnapshot s snap).store.dir snap

/-- The log ends at the snapshot: its files are there up to the snapshot's
index, the last of them has the snapshot's term, and there are no others
behind it. -/
structure EndsAt (d : Dir) (snap : Snapshot) : Prop where
  last : readLastIndex d = .ok snap.getMetadata.index
  files : ∃ first, readFirstIndex d = .ok first ∧ first ≤ snap.getMetadata.index ∧
    ∀ i, first ≤ i → i ≤ snap.getMetadata.index → (d (.entry i)).isSome
  term : ∃ e, readEntry d snap.getMetadata.index = .ok e ∧ e.term = snap.getMetadata.term ∧
    0 < e.term
  above : ∀ i, snap.getMetadata.index < i → d (.entry i) = none

/-! ## What the call does -/

section
variable {snap current : Snapshot} {fs : Fs} {first : Nat}

/-- A range that can be read is compacted away before the snapshot is
written. -/
theorem applySnapshot_eq {delete : List Entry} (hsnap : readSnapshot fs.dir = .ok current)
    (hnew : current.getMetadata.index < snap.getMetadata.index)
    (hfirst : readFirstIndex fs.dir = .ok first) (hle : first ≤ snap.getMetadata.index)
    (hread : readEntries fs.dir first (snap.getMetadata.index + 1 - first) = .ok delete)
    (hc : Contiguous first delete) :
    applySnapshot snap fs = .ok () ((fs.after (compactOps delete)).after
      [.write .snapshot (Protobuf.snapshot.writeToBytes snap)]) := by
  unfold applySnapshot
  rw [bind_of_ok (query_of_ok (ioQuery_eq_ok.mpr hsnap)), if_neg (by omega),
    bind_of_ok (compact_eq hfirst hle hread hc)]
  rfl

/-- A failed compaction is passed on. -/
theorem applySnapshot_of_compact {e : Fault} (hsnap : readSnapshot fs.dir = .ok current)
    (hnew : current.getMetadata.index < snap.getMetadata.index)
    (hcompact : compact snap.getMetadata.index fs = .error e fs) :
    applySnapshot snap fs = .error e fs := by
  unfold applySnapshot
  rw [bind_of_ok (query_of_ok (ioQuery_eq_ok.mpr hsnap)), if_neg (by omega)]
  exact bind_of_error hcompact

theorem compact_of_gt {c : Nat} (hfirst : readFirstIndex fs.dir = .ok first) (hgt : c < first) :
    compact c fs = .error (.err (.Store .Compacted)) fs := by
  unfold compact
  rw [bind_of_ok (ioResult_of_ok (reading_of_ok hfirst)), if_pos hgt]
  rfl

end

/-- The call succeeds only if the files from the first index up to the
snapshot's are all there. -/
theorem files_of_applySnapshot_ok {P : Entry → Prop} {s : FsStorage} {snap current : Snapshot}
    (h : Intact P s.dir) (hsnap : readSnapshot s.dir = .ok current)
    (hnew : current.getMetadata.index < snap.getMetadata.index)
    (hok : (StorageExt.applySnapshot s snap).result = .ok ()) :
    ∃ first, readFirstIndex s.dir = .ok first ∧ first ≤ snap.getMetadata.index ∧
      ∀ i, first ≤ i → i ≤ snap.getMetadata.index → (s.dir (.entry i)).isSome := by
  obtain ⟨first, -, hfirst⟩ := h.readNumber .first trivial
  have hfail : ∀ e, compact snap.getMetadata.index { dir := s.dir, ops := [] }
      ≠ .error e { dir := s.dir, ops := [] } := by
    intro e he
    have hcall : (StorageExt.applySnapshot s snap).result = .error e := by
      show (call (applySnapshot snap) s).result = _
      unfold call
      rw [applySnapshot_of_compact hsnap hnew he]
    rw [hcall] at hok
    cases hok
  have hle : first ≤ snap.getMetadata.index := by
    by_contra hgt
    exact hfail _ (compact_of_gt hfirst (by omega))
  refine ⟨first, hfirst, hle, fun i hlo hhi => ?_⟩
  by_contra hmissing
  obtain ⟨k, hk⟩ := readEntries_of_none first (snap.getMetadata.index + 1 - first) hlo (by omega)
    (Option.not_isSome_iff_eq_none.mp hmissing)
  exact hfail _ (compact_of_error hfirst hle hk)

/-- And then it does what compaction does, and writes the snapshot. -/
theorem applySnapshot_of_files {P : Entry → Prop} {s : FsStorage} {snap current : Snapshot}
    {first : Nat} (h : Intact P s.dir) (hsnap : readSnapshot s.dir = .ok current)
    (hnew : current.getMetadata.index < snap.getMetadata.index)
    (hfirst : readFirstIndex s.dir = .ok first) (hle : first ≤ snap.getMetadata.index)
    (hfiles : ∀ i, first ≤ i → i ≤ snap.getMetadata.index → (s.dir (.entry i)).isSome) :
    (StorageExt.applySnapshot s snap).result = .ok () ∧
      ∃ e d, readEntry s.dir snap.getMetadata.index = .ok e ∧
        e.index = snap.getMetadata.index ∧ P e ∧ Compacted s.dir d first e ∧
        (StorageExt.applySnapshot s snap).store.dir
          = replay d [.write .snapshot (Protobuf.snapshot.writeToBytes snap)] := by
  obtain ⟨delete, hread, hc⟩ := h.readEntries first
    (snap.getMetadata.index + 1 - first) fun i hlo hhi => hfiles i hlo (by omega)
  have hrun : StorageExt.applySnapshot s snap = call (applySnapshot snap) s := rfl
  have heq : applySnapshot snap { dir := s.dir, ops := [] } = _ :=
    applySnapshot_eq hsnap hnew hfirst hle hread hc
  unfold call at hrun
  rw [heq] at hrun
  rw [hrun]
  obtain ⟨hlen, hget⟩ := readEntries_eq_ok.mp hread
  obtain ⟨e, he, hidx, hP⟩ := h.readEntry (hfiles snap.getMetadata.index hle (Nat.le_refl _))
  -- the range ends with the entry at the snapshot's index
  have hlast : delete.getLast? = some e := by
    have hk : delete.length - 1 < delete.length := by omega
    have hx := hget (delete.length - 1) _ (List.getElem?_eq_getElem hk)
    rw [show first + (delete.length - 1) = snap.getMetadata.index by omega, he] at hx
    rw [List.getLast?_eq_getElem?, List.getElem?_eq_getElem hk, Except.ok.inj hx]
  exact ⟨rfl, e, _, he, hidx, hP, compacted s.dir hc hlast, rfl⟩

/-- What can be asked of the store then. -/
theorem overwritten_iff {d d' : Dir} {snap : Snapshot} {first : Nat} {e : Entry}
    (h : Intact (fun e => e.term < 2 ^ 64) d) (hlimit : snap.getMetadata.index + 1 < 2 ^ 64)
    (hpos : 0 < snap.getMetadata.index) (hidx : e.index = snap.getMetadata.index)
    (hterm : e.term < 2 ^ 64) (hle : first ≤ snap.getMetadata.index)
    (hcomp : Compacted d d' first e) :
    Overwritten (replay d' [.write .snapshot (Protobuf.snapshot.writeToBytes snap)]) snap ↔
      readLastIndex d = .ok snap.getMetadata.index ∧
        (e.term = snap.getMetadata.term ∧ 0 < e.term) ∧
        ∀ i, snap.getMetadata.index < i → d (.entry i) = none := by
  have hne : ∀ name, name ≠ .snapshot → replay d' [.write .snapshot
      (Protobuf.snapshot.writeToBytes snap)] name = d' name := fun name hn => replay_write_of_ne hn
  have hself : readSnapshot (replay d' [.write .snapshot (Protobuf.snapshot.writeToBytes snap)])
      = .ok snap := readPb_of_eq (replay_write_self ..)
  generalize replay d' [.write .snapshot (Protobuf.snapshot.writeToBytes snap)] = d'' at *
  have hkept : ∀ i, snap.getMetadata.index < i → d'' (.entry i) = d (.entry i) := fun i hi =>
    (hne _ (by simp)).trans (hcomp.kept i (by omega))
  have hother : ∀ name, name ≠ .snapshot → name ≠ .term → name ≠ .first →
      (∀ i, name ≠ .entry i) → d'' name = d name := fun name hs ht hf he =>
    (hne name hs).trans (hcomp.other name ht hf he)
  have hfirst : readFirstIndex d'' = .ok (snap.getMetadata.index + 1) := by
    refine readU64_of_eq ?_ hlimit
    rw [hne _ (by simp), hcomp.firstFile, hidx]
  have hlast : readLastIndex d'' = readLastIndex d :=
    readU64_congr (hother .last (by simp) (by simp) (by simp) (by simp))
  have hcompacted : readCompactedTerm d'' = .ok e.term := by
    refine readU64_of_eq ?_ hterm
    rw [hne _ (by simp), hcomp.termFile]
  have hgone : d'' (.entry snap.getMetadata.index) = none :=
    (hne _ (by simp)).trans (hcomp.gone _ (by omega) (Or.inl hle))
  constructor
  · intro ho
    refine ⟨hlast.symm.trans (ioQuery_eq_ok.mp ho.lastIndex),
      (term_at_boundary hgone hpos hfirst hcompacted _).mp ho.term, fun i hi => ?_⟩
    -- a file behind the snapshot would be asked for its term
    by_contra hsome
    obtain ⟨x, hx, -⟩ := h.readEntry (Option.isSome_iff_ne_none.mpr hsome)
    exact ho.above i hi x.term (term_of_readEntry ((readPb_congr (hkept i hi)).trans hx))
  · intro hc
    obtain ⟨hl, ht, habove⟩ := hc
    obtain ⟨hs, hhs⟩ := h.readHardState
    exact
      { firstIndex := ioQuery_eq_ok.mpr hfirst
        lastIndex := ioQuery_eq_ok.mpr (hlast.trans hl)
        term := (term_at_boundary hgone hpos hfirst hcompacted _).mpr ht
        above := fun i hi => term_off_boundary ((hkept i hi).trans (habove i hi)) (by omega)
          hfirst (by omega) hcompacted
        snapshot := ioQuery_eq_ok.mpr hself
        confState := by
          refine ⟨⟨hs, confStateOf snap⟩, ioQuery_eq_ok.mpr (readRaftState_eq_ok.mpr
            ⟨(readPb_congr ?_).trans hhs, snap, hself, rfl⟩), rfl⟩
          exact hother .hardstate (by simp) (by simp) (by simp) (by simp) }

/-- **A snapshot overwrites the store exactly if the log ends at it**: in every
store reached by calls of any kind, and for every snapshot newer than the
stored one. -/
theorem applySnapshot_overwrites_iff (calls : List Call)
    (hcalls : ∀ c ∈ calls, c.Carries fun e => e.term < 2 ^ 64) (snap current : Snapshot)
    (hlimit : snap.getMetadata.index + 1 < 2 ^ 64)
    (hcurrent : FsStorage.snapshot (StorageExt.after newStore calls).dir
      = .ok current)
    (hnew : current.getMetadata.index < snap.getMetadata.index) :
    Overwrites (StorageExt.after newStore calls) snap ↔
      EndsAt (StorageExt.after newStore calls).dir snap := by
  have hintact := Intact.after calls intact_newStore hcalls
  have hsnap := ioQuery_eq_ok.mp hcurrent
  generalize StorageExt.after newStore calls = s at *
  constructor
  · intro ho
    obtain ⟨hok, ho⟩ := ho
    obtain ⟨first, hfirst, hle, hfiles⟩ := files_of_applySnapshot_ok hintact hsnap hnew hok
    obtain ⟨-, e, d, he, hidx, hterm, hcomp, hdir⟩ :=
      applySnapshot_of_files hintact hsnap hnew hfirst hle hfiles
    rw [hdir, overwritten_iff hintact hlimit (by omega) hidx hterm hle hcomp] at ho
    exact ⟨ho.1, ⟨first, hfirst, hle, hfiles⟩, ⟨e, he, ho.2.1⟩, ho.2.2⟩
  · intro h
    obtain ⟨first, hfirst, hle, hfiles⟩ := h.files
    obtain ⟨hok, e, d, he, hidx, hterm, hcomp, hdir⟩ :=
      applySnapshot_of_files hintact hsnap hnew hfirst hle hfiles
    refine ⟨hok, ?_⟩
    rw [hdir, overwritten_iff hintact hlimit (by omega) hidx hterm hle hcomp]
    obtain ⟨x, hx, ht⟩ := h.term
    obtain rfl := Except.ok.inj (he.symm.trans hx)
    exact ⟨h.last, ht, h.above⟩

end FsStorage

namespace FsStorage

open scoped Proto3

/-- Two entries of the first term. -/
def twoEntries : List Call :=
  [.append [{ term := 1, index := 1 }, { term := 1, index := 2 }]]

/-- A snapshot taken elsewhere. -/
def snapshotOf (index term : Nat) : Snapshot :=
  { metadata := some { index, term, confState := some { nodes := [7] } } }

/-- A snapshot of the two entries overwrites them. -/
theorem applySnapshot_overwrites_iff_at_end :
    Overwrites (StorageExt.after newStore twoEntries)
      (snapshotOf 2 1) := by
  refine (applySnapshot_overwrites_iff twoEntries (by simp [twoEntries, Call.Carries]) _ default
    (by decide) (by decide +kernel) (by decide)).mpr
      ⟨by decide +kernel, ⟨1, by decide +kernel, by decide, ?_⟩,
      ⟨{ term := 1, index := 2 }, by decide +kernel, by decide, by decide⟩, ?_⟩
  · intro i hlo hhi
    have hi : i = 1 ∨ i = 2 := by
      have : i ≤ 2 := hhi
      omega
    rcases hi with rfl | rfl
    · decide +kernel
    · decide +kernel
  · intro i hi
    have hi : 2 < i := hi
    show (StorageExt.append newStore _).store.dir (.entry i) = none
    rw [append_dir, appendOps, replay_append, replay_of_ne (by simp [lastOps, FileOp.name]),
      writeEntries_outside (s := 1) (by decide) (Or.inr ?_)]
    · exact newStore_entry i
    · simp only [List.length_cons, List.length_nil]
      omega

/-- A follower that has fallen behind cannot take a snapshot, and one inside
the log leaves the log as long as it was. -/
theorem applySnapshot_refuses_beyond_last :
    FsStorage.snapshot (StorageExt.after newStore twoEntries).dir = .ok default ∧
      (StorageExt.applySnapshot (StorageExt.after newStore twoEntries)
        (snapshotOf 5 1)).result = .error (.err (.Io .NotFound)) ∧
      ¬ Overwrites (StorageExt.after newStore twoEntries)
        (snapshotOf 5 1) ∧
      ¬ Overwrites (StorageExt.after newStore twoEntries)
        (snapshotOf 1 1) := by
  refine ⟨by decide +kernel, by decide +kernel, fun h => ?_, fun h => ?_⟩
  · exact absurd h.1 (by decide +kernel)
  · exact absurd h.2.lastIndex (by decide +kernel)

end FsStorage

end SawtoothRaft
