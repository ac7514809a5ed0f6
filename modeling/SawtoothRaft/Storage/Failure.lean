import SawtoothRaft.Storage.Intact

/-!
# A call that fails has done nothing

`compact` reads all that it is going to delete before it writes the first
file, and what it has read it can remove: the files are there, and each of
them holds the entry of its own index, so that no two removals meet.
`apply_snapshot` compacts first and then writes one file. So a failure always
comes before the first write, whatever else is wrong with the directory:
bounds that make no sense, gaps, leftovers (`failed_call_changes_nothing`).
-/

namespace SawtoothRaft

open Lib

namespace FsStorage

variable [Protobuf]

open CachedStorage (WellIndexed)

/-! ## Ranges of well-indexed files -/

/-- Entries that were read from files of their own indices are contiguous. -/
theorem contiguous_of_readEntries {d : Dir} {low count : Nat} {es : List Entry}
    (h : WellIndexed d) (hread : readEntries d low count = .ok es) : Contiguous low es := by
  obtain ⟨-, hget⟩ := readEntries_eq_ok.mp hread
  exact contiguous_of_index fun k e he => h _ e (hget k e he)

/-! ## Stopping early -/

omit [Protobuf] in
theorem query_of_error {α : Type} {f : Dir → Except RaftError α} {fs : Fs} {e : RaftError}
    (h : f fs.dir = .error e) : query f fs = .error (.err e) fs := by
  unfold query EStateM.adaptExcept
  rw [reading_of_error h]

/-- A procedure that stops only before its first write. -/
def AllOrNothing {α : Type} (m : FsM Fault α) (fs : Fs) : Prop :=
  ∀ fault fs', m fs = .error fault fs' → fs' = fs

section
variable {α β : Type} {m : FsM Fault α} {fs fs₁ : Fs}

omit [Protobuf]

theorem allOrNothing_of_ok {a : α} (h : m fs = .ok a fs₁) : AllOrNothing m fs := by
  intro fault fs' hm
  rw [h] at hm
  cases hm

theorem allOrNothing_of_error {fault : Fault} (h : m fs = .error fault fs) : AllOrNothing m fs := by
  intro fault' fs' hm
  rw [h] at hm
  cases hm
  rfl

/-- What only looks at the directory can be followed by something that stops
in time. -/
theorem AllOrNothing.query {f : Dir → Except RaftError α} {g : α → FsM Fault β}
    (h : ∀ a, AllOrNothing (g a) fs) : AllOrNothing (FsStorage.query f >>= g) fs := by
  cases hf : f fs.dir with
  | error e => exact allOrNothing_of_error (bind_of_error (query_of_error hf))
  | ok a =>
    intro fault fs' hm
    rw [bind_of_ok (query_of_ok hf)] at hm
    exact h a fault fs' hm

theorem AllOrNothing.ioResult {f : Dir → Except ErrorKind α} {g : α → FsM Fault β}
    (h : ∀ a, f fs.dir = .ok a → AllOrNothing (g a) fs) :
    AllOrNothing (FsStorage.ioResult (reading f) >>= g) fs := by
  cases hf : f fs.dir with
  | error k => exact allOrNothing_of_error (bind_of_error (ioResult_of_error (reading_of_error hf)))
  | ok a =>
    intro fault fs' hm
    rw [bind_of_ok (ioResult_of_ok (reading_of_ok hf))] at hm
    exact h a hf fault fs' hm

end

/-! ## The three mutators -/

/-- A readable range can be deleted, so `compact` stops before that or not at
all. -/
theorem compact_allOrNothing {fs : Fs} (h : WellIndexed fs.dir) (c : Nat) :
    AllOrNothing (compact c) fs := by
  cases hfirst : readFirstIndex fs.dir with
  | error k =>
    exact allOrNothing_of_error (bind_of_error (ioResult_of_error (reading_of_error hfirst)))
  | ok first =>
    by_cases hle : first ≤ c
    · cases hread : readEntries fs.dir first (c + 1 - first) with
      | error k => exact allOrNothing_of_error (compact_of_error hfirst hle hread)
      | ok delete =>
        exact allOrNothing_of_ok
          (compact_eq hfirst hle hread (contiguous_of_readEntries h hread))
    · have hrun : compact c fs = .error (.err (.Store .Compacted)) fs := by
        unfold compact
        rw [bind_of_ok (ioResult_of_ok (reading_of_ok hfirst)), if_pos (by omega)]
        rfl
      exact allOrNothing_of_error hrun

theorem createSnapshot_allOrNothing (fs : Fs) (index : Nat) (cs : Option ConfState) (data : Bytes) :
    AllOrNothing (createSnapshot index cs data) fs := by
  refine AllOrNothing.query fun current => ?_
  by_cases hnew : index ≤ current.getMetadata.index
  · rw [if_pos hnew]
    exact allOrNothing_of_error rfl
  rw [if_neg hnew]
  refine AllOrNothing.ioResult fun last _ => ?_
  by_cases hlast : index > last
  · rw [if_pos hlast]
    exact allOrNothing_of_error rfl
  rw [if_neg hlast]
  -- the entry is read before the one file is written
  cases hentry : readEntry fs.dir index with
  | error k =>
    have hnone : expectEntry index fs = .error (.panic .entryNotFound) fs := by
      unfold expectEntry EStateM.adaptExcept
      rw [reading_of_error hentry]
    exact allOrNothing_of_error (bind_of_error hnone)
  | ok e =>
    have he : expectEntry index fs = .ok e fs := by
      unfold expectEntry EStateM.adaptExcept
      rw [reading_of_ok hentry]
    exact allOrNothing_of_ok (bind_of_ok he)

theorem applySnapshot_allOrNothing {fs : Fs} (h : WellIndexed fs.dir) (snap : Snapshot) :
    AllOrNothing (applySnapshot snap) fs := by
  refine AllOrNothing.query fun current => ?_
  by_cases hold : current.getMetadata.index ≥ snap.getMetadata.index
  · rw [if_pos hold]
    exact allOrNothing_of_error rfl
  rw [if_neg hold]
  -- once the log is compacted, nothing can fail
  cases hcompact : compact snap.getMetadata.index fs with
  | error fault fs' =>
    obtain rfl := compact_allOrNothing h _ fault fs' hcompact
    exact allOrNothing_of_error (bind_of_error hcompact)
  | ok a fs' => exact allOrNothing_of_ok (bind_of_ok hcompact)

omit [Protobuf] in
theorem AllOrNothing.call {α : Type} {m : FsM Fault α} {d : Dir}
    (h : AllOrNothing m { dir := d, ops := [] }) {fault : Fault}
    (hfault : (FsStorage.call m ⟨d⟩).result = .error fault) :
    (FsStorage.call m ⟨d⟩).store.dir = d := by
  unfold FsStorage.call at hfault ⊢
  cases hm : m { dir := d, ops := [] } with
  | ok a fs => rw [hm] at hfault; cases hfault
  | error e fs => rw [h e fs hm]

/-- **A failed call changes nothing**: on any directory whose entry files hold
entries of their own indices, a `compact`, `create_snapshot` or
`apply_snapshot` that returns an error, or panics, leaves every file as it
was. -/
theorem failed_call_changes_nothing (d : Dir) (h : WellIndexed d) :
    (∀ c fault, (StorageExt.compact (⟨d⟩ : FsStorage) c).result = .error fault →
      (StorageExt.compact (⟨d⟩ : FsStorage) c).store.dir = d) ∧
    (∀ index cs data fault,
      (StorageExt.createSnapshot (⟨d⟩ : FsStorage) index cs data).result = .error fault →
      (StorageExt.createSnapshot (⟨d⟩ : FsStorage) index cs data).store.dir = d) ∧
    ∀ snap fault, (StorageExt.applySnapshot (⟨d⟩ : FsStorage) snap).result = .error fault →
      (StorageExt.applySnapshot (⟨d⟩ : FsStorage) snap).store.dir = d := by
  refine ⟨fun c fault hfault => ?_, fun index cs data fault hfault => ?_,
    fun snap fault hfault => ?_⟩
  · exact (compact_allOrNothing h c).call hfault
  · exact (createSnapshot_allOrNothing _ index cs data).call hfault
  · exact (applySnapshot_allOrNothing h snap).call hfault

/-- Directories that a storage has written are of that kind. -/
theorem Intact.wellIndexed {P : Entry → Prop} {d : Dir} (h : Intact P d) : WellIndexed d := by
  intro i e he
  obtain ⟨e', he', hidx, -⟩ := h.readEntry (isSome_of_readEntry he)
  rw [Except.ok.inj (he.symm.trans he')]
  exact hidx

end FsStorage

namespace FsStorage

open scoped Proto3

open CachedStorage (WellIndexed)

/-- A log with a gap at index 2. -/
def gappedLog : List Call :=
  [.append [{ term := 1, index := 1 }], .append [{ term := 1, index := 3 }]]

/-- The gap stops `compact` after it has read entry 1, and before it writes. -/
theorem failed_call_changes_nothing_gap :
    let d := (StorageExt.after newStore gappedLog).dir
    WellIndexed d ∧
    (StorageExt.compact (⟨d⟩ : FsStorage) 3).result = .error (.err (.Io .NotFound)) ∧
    (StorageExt.compact (⟨d⟩ : FsStorage) 3).store.dir = d := by
  have hintact : Intact (fun _ => True) (StorageExt.after newStore gappedLog).dir :=
    Intact.after gappedLog intact_newStore fun c hc => by
      simp only [gappedLog, List.mem_cons, List.not_mem_nil, or_false] at hc
      rcases hc with rfl | rfl
      · exact fun _ _ => trivial
      · exact fun _ _ => trivial
  have hresult : (StorageExt.compact (StorageExt.after newStore gappedLog) 3).result
      = .error (.err (.Io .NotFound)) := by
    decide +kernel
  refine ⟨hintact.wellIndexed, hresult, ?_⟩
  exact (failed_call_changes_nothing _ hintact.wellIndexed).1 3 _ hresult

end FsStorage

end SawtoothRaft
