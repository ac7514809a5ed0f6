import SawtoothRaft.Storage.Files

/-!
# `FsStorage`, and the storage traits it implements

`StorageExt` is the trait of `storage.rs` together with `raft::Storage`, which
it extends. A method of a storage `S` takes the storage and gives an
`Outcome`: what the call answers, the storage afterwards, and the file
operations performed on the way. Queries are methods like the others because
a cache in front of a storage changes on a query.

An answer is a value, a `raft::Error`, or a panic. The mutators of `FsStorage`
are written in `FsM`, so that an early return leaves behind exactly the file
operations done before it; the queries are functions of the directory.

Index arithmetic is on natural numbers: `+ 1` does not wrap.
-/

namespace SawtoothRaft

open Lib

/-- `raft::StorageError` -/
inductive StorageError where
  | Compacted
  | Unavailable
  | SnapshotOutOfDate
  deriving DecidableEq, Repr

/-- `raft::Error`, the variants a storage returns. -/
inductive RaftError where
  | Store (err : StorageError)
  | Io (kind : ErrorKind)
  deriving DecidableEq, Repr

/-- The panics of `FsStorage`. Both mirror `MemStorage` or guard the log's
integrity; `set_hardstate` panics only when a write fails. -/
inductive StoragePanic where
  /-- "Tried to create snapshot with index {}, but last index is {}" -/
  | snapshotBeyondLast (index lastIndex : Nat)
  /-- "Entry log integrity error: Entry not found, but already checked bounds." -/
  | entryNotFound
  deriving DecidableEq, Repr

/-- Why a call did not return a value. -/
inductive Fault where
  | err (e : RaftError)
  | panic (p : StoragePanic)
  deriving DecidableEq, Repr

structure Outcome (S α : Type) where
  result : Except Fault α
  store : S
  ops : List FileOp

/-- `storage::StorageExt` and its super-trait `raft::Storage`. -/
class StorageExt (S : Type) where
  initialState : S → Outcome S RaftState
  entries : S → (low high maxSize : Nat) → Outcome S (List Entry)
  term : S → (idx : Nat) → Outcome S Nat
  firstIndex : S → Outcome S Nat
  lastIndex : S → Outcome S Nat
  snapshot : S → Outcome S Snapshot
  setHardstate : S → HardState → Outcome S Unit
  applySnapshot : S → Snapshot → Outcome S Unit
  createSnapshot : S → (index : Nat) → (confState : Option ConfState) → (data : Bytes) →
    Outcome S Snapshot
  compact : S → (compactIndex : Nat) → Outcome S Unit
  append : S → (entries : List Entry) → Outcome S Unit
  applied : S → Outcome S Nat
  setApplied : S → (applied : Nat) → Outcome S Unit

namespace FsStorage

/-! ## Readers -/

def readCompactedTerm (d : Dir) : Except ErrorKind Nat := readU64FromFile d .term

def readFirstIndex (d : Dir) : Except ErrorKind Nat := readU64FromFile d .first

def readLastIndex (d : Dir) : Except ErrorKind Nat := readU64FromFile d .last

def readApplied (d : Dir) : Except ErrorKind Nat := readU64FromFile d .applied

variable [Protobuf]

def readHardState (d : Dir) : Except ErrorKind HardState :=
  readPbFromFile Protobuf.hardState d .hardstate

def readSnapshot (d : Dir) : Except ErrorKind Snapshot :=
  readPbFromFile Protobuf.snapshot d .snapshot

/-- The conf state of a snapshot, default when either level is absent. -/
def confStateOf (s : Snapshot) : ConfState :=
  match s.metadata with
  | some metadata => metadata.confState.getD default
  | none => default

def readConfState (d : Dir) : Except ErrorKind ConfState := do
  let snapshot ← readSnapshot d
  pure (confStateOf snapshot)

def readRaftState (d : Dir) : Except ErrorKind RaftState := do
  let hardState ← readHardState d
  let confState ← readConfState d
  pure { hardState, confState }

def readEntry (d : Dir) (index : Nat) : Except ErrorKind Entry :=
  readPbFromFile Protobuf.entry d (.entry index)

/-- `read_entries` with a range: `count` files from `low` on, in order. -/
def readEntries (d : Dir) (low count : Nat) : Except ErrorKind (List Entry) :=
  (List.range' low count).mapM (readEntry d)

/-! ## Writers -/

section
variable {ε : Type}

def writeHardState (hardState : HardState) : FsM ε Unit :=
  writePbToFile Protobuf.hardState .hardstate hardState

def writeSnapshot (snapshot : Snapshot) : FsM ε Unit :=
  writePbToFile Protobuf.snapshot .snapshot snapshot

def writeEntry (entry : Entry) : FsM ε Unit :=
  writePbToFile Protobuf.entry (.entry entry.index) entry

def writeCompactedTerm (term : Nat) : FsM ε Unit := writeU64ToFile .term term

def writeFirstIndex (first : Nat) : FsM ε Unit := writeU64ToFile .first first

def writeLastIndex (last : Nat) : FsM ε Unit := writeU64ToFile .last last

def writeApplied (applied : Nat) : FsM ε Unit := writeU64ToFile .applied applied

def removeEntry (index : Nat) : FsM ErrorKind Unit := fsRemoveFile (.entry index)

end

/-! ## Opening a directory -/

def initRaftState : FsM ErrorKind Unit := do
  writeCompactedTerm 0
  writeFirstIndex 1
  writeLastIndex 0
  writeApplied 0
  writeHardState default
  writeSnapshot default

/-- Anything but a missing file is left for the first query to find. -/
def initRaftStateIfMissing : FsM ErrorKind Unit := do
  let fs ← get
  match readRaftState fs.dir with
  | .error .NotFound => initRaftState
  | _ => pure ()

/-- `FsStorage::with_data_dir`. The directories exist once it has run. -/
def withDataDir : FsM ErrorKind Unit := initRaftStateIfMissing

/-! ## `impl Storage for FsStorage` -/

section
variable {α : Type}
/-- `?` on an `io::Result` in a method that returns a `raft::Error`. -/
def ioQuery (r : Except ErrorKind α) : Except RaftError α := r.mapError .Io

def errCompacted : Except RaftError α := .error (.Store .Compacted)

def errUnavailable : Except RaftError α := .error (.Store .Unavailable)

end

def initialState (d : Dir) : Except RaftError RaftState := ioQuery (readRaftState d)

def firstIndex (d : Dir) : Except RaftError Nat := ioQuery (readFirstIndex d)

def lastIndex (d : Dir) : Except RaftError Nat := ioQuery (readLastIndex d)

def snapshot (d : Dir) : Except RaftError Snapshot := ioQuery (readSnapshot d)

def applied (d : Dir) : Except RaftError Nat := ioQuery (readApplied d)

def entries (d : Dir) (low high _maxSize : Nat) : Except RaftError (List Entry) :=
  if low > high then errCompacted
  else do
    let firstEntryIndex ← ioQuery (readFirstIndex d)
    let lastEntryIndex ← ioQuery (readLastIndex d)
    if firstEntryIndex > lastEntryIndex then errCompacted
    else if low = high then pure []
    else if low < firstEntryIndex then errCompacted
    else if high > lastEntryIndex + 1 then errUnavailable
    else ioQuery (readEntries d low (high - low))

def term (d : Dir) (idx : Nat) : Except RaftError Nat :=
  match readEntry d idx with
  | .ok entry => .ok entry.term
  | .error .NotFound =>
    -- no file: index 0, the boundary of the log, or an index outside of it
    if idx = 0 then .ok 0
    else do
      let first ← firstIndex d
      if idx + 1 = first then do
        let compacted ← ioQuery (readCompactedTerm d)
        if compacted = 0 then errUnavailable else pure compacted
      else do
        let compacted ← ioQuery (readCompactedTerm d)
        if compacted = 0 then errUnavailable else errCompacted
  | .error err => .error (.Io err)

/-! ## `impl StorageExt for FsStorage` -/

section
variable {α : Type}
/-- `?` on the result of file operations. -/
def ioResult (m : FsM ErrorKind α) : FsM Fault α := EStateM.adaptExcept (fun k => .err (.Io k)) m

/-- `?` on the answer of another method. -/
def query (f : Dir → Except RaftError α) : FsM Fault α := EStateM.adaptExcept .err (reading f)

/-- Leave with a storage error. -/
def fail (e : StorageError) : FsM Fault α := throw (.err (.Store e))

end

def setHardstate (hardState : HardState) : FsM Fault Unit := writeHardState hardState

/-- The entry whose term a new snapshot takes over. -/
def expectEntry (index : Nat) : FsM Fault Entry :=
  EStateM.adaptExcept (fun _ => .panic .entryNotFound) (reading fun d => readEntry d index)

/-- The new snapshot: the metadata of the current one with index and term set,
and the conf state replaced when one is given. -/
def nextSnapshot (current : Snapshot) (index term : Nat) (confState : Option ConfState)
    (data : Bytes) : Snapshot :=
  { data, metadata := some
      { index, term, confState := confState.or current.getMetadata.confState } }

def createSnapshot (index : Nat) (confState : Option ConfState) (data : Bytes) :
    FsM Fault Snapshot := do
  let current ← query snapshot
  if index ≤ current.getMetadata.index then fail .SnapshotOutOfDate
  else do
    let lastIndex ← ioResult (reading readLastIndex)
    if index > lastIndex then throw (.panic (.snapshotBeyondLast index lastIndex))
    else do
      let entry ← expectEntry index
      let snapshot := nextSnapshot current index entry.term confState data
      writeSnapshot snapshot
      pure snapshot

/-- Record the new boundary of the log, if anything is to be deleted. -/
def writeBoundary (delete : List Entry) : FsM Fault Unit :=
  match delete.getLast? with
  | some last => do
    writeCompactedTerm last.term
    writeFirstIndex (last.index + 1)
  | none => pure ()

def compact (compactIndex : Nat) : FsM Fault Unit := do
  let firstEntryIndex ← ioResult (reading readFirstIndex)
  if firstEntryIndex > compactIndex then fail .Compacted
  else do
    let delete ← ioResult
      (reading fun d => readEntries d firstEntryIndex (compactIndex + 1 - firstEntryIndex))
    -- the boundary is on disk before the first file goes
    writeBoundary delete
    ioResult (delete.forM fun entry => removeEntry entry.index)

def applySnapshot (snap : Snapshot) : FsM Fault Unit := do
  let current ← query snapshot
  if current.getMetadata.index ≥ snap.getMetadata.index then fail .SnapshotOutOfDate
  else do
    compact snap.getMetadata.index
    writeSnapshot snap

/-- Publish the new end of the log. -/
def publishLast (entries : List Entry) : FsM Fault Unit :=
  match entries.getLast? with
  | some lastEntry => writeLastIndex lastEntry.index
  | none => pure ()

def append (entries : List Entry) : FsM Fault Unit := do
  entries.forM writeEntry
  publishLast entries

def setApplied (applied : Nat) : FsM Fault Unit := writeApplied applied

end FsStorage

/-! ## The directory as a storage -/

/-- `FsStorage`: the two paths it holds stand for the directory behind them. -/
structure FsStorage where
  dir : Dir

namespace FsStorage

variable {α : Type}

/-- Run a mutator on the directory. -/
def call (m : FsM Fault α) (s : FsStorage) : Outcome FsStorage α :=
  match m { dir := s.dir, ops := [] } with
  | .ok a fs => { result := .ok a, store := ⟨fs.dir⟩, ops := fs.ops }
  | .error e fs => { result := .error e, store := ⟨fs.dir⟩, ops := fs.ops }

/-- A query leaves the directory alone. -/
def ask (s : FsStorage) (r : Except RaftError α) : Outcome FsStorage α :=
  { result := r.mapError .err, store := s, ops := [] }

instance [Protobuf] : StorageExt FsStorage where
  initialState s := ask s (initialState s.dir)
  entries s low high maxSize := ask s (entries s.dir low high maxSize)
  term s idx := ask s (term s.dir idx)
  firstIndex s := ask s (firstIndex s.dir)
  lastIndex s := ask s (lastIndex s.dir)
  snapshot s := ask s (snapshot s.dir)
  setHardstate s hs := call (setHardstate hs) s
  applySnapshot s snap := call (applySnapshot snap) s
  createSnapshot s index cs data := call (createSnapshot index cs data) s
  compact s c := call (compact c) s
  append s es := call (append es) s
  applied s := ask s (applied s.dir)
  setApplied s a := call (setApplied a) s

end FsStorage

end SawtoothRaft
