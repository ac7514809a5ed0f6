import SawtoothRaft.Lib.Wire

/-!
# The Raft messages that the engine stores and reads

`raft::eraftpb` messages as far as the engine looks at them: log entries, the
hard state, snapshots and configuration changes. A `u64` is a natural number
here; where a value passes through a `u64` file the bound reappears
(`Storage/Files.lean`). An entry's `context` and `sync_log` and a
configuration change's `id` are read by nothing in the engine and left out.

The `protobuf` crate is not part of the repository. `Protobuf` is what the
engine needs of it, one `Codec` per message type; everything downstream is
parametric over it. `Proto3.proto3` writes the fields that are modelled as the crate
does, with the numbers of `eraftpb.proto`, and shows that the laws can be met. It
reads less than the crate: a field it does not know and a nested message that is cut
short are refused.
-/

namespace SawtoothRaft

open Lib

inductive EntryType where
  | EntryNormal
  | EntryConfChange
  deriving DecidableEq, Repr

structure Entry where
  entryType : EntryType := .EntryNormal
  term : Nat := 0
  index : Nat := 0
  data : Bytes := []
  deriving DecidableEq, Repr

structure HardState where
  term : Nat := 0
  vote : Nat := 0
  commit : Nat := 0
  deriving DecidableEq, Repr

structure ConfState where
  nodes : List Nat := []
  learners : List Nat := []
  deriving DecidableEq, Repr

structure SnapshotMetadata where
  confState : Option ConfState := none
  index : Nat := 0
  term : Nat := 0
  deriving DecidableEq, Repr

structure Snapshot where
  data : Bytes := []
  metadata : Option SnapshotMetadata := none
  deriving DecidableEq, Repr

instance : Inhabited Entry := ⟨{}⟩
instance : Inhabited HardState := ⟨{}⟩
instance : Inhabited ConfState := ⟨{}⟩
instance : Inhabited SnapshotMetadata := ⟨{}⟩
instance : Inhabited Snapshot := ⟨{}⟩

/-- `get_metadata()`: an absent sub-message reads as its default. -/
def Snapshot.getMetadata (s : Snapshot) : SnapshotMetadata := s.metadata.getD default

/-- `raft::RaftState`, what a restarted Raft instance asks its storage for. -/
structure RaftState where
  hardState : HardState
  confState : ConfState
  deriving DecidableEq, Repr

inductive ConfChangeType where
  | AddNode
  | RemoveNode
  | AddLearnerNode
  deriving DecidableEq, Repr

structure ConfChange where
  changeType : ConfChangeType := .AddNode
  nodeId : Nat := 0
  context : Bytes := []
  deriving DecidableEq, Repr

instance : Inhabited ConfChange := ⟨{}⟩

/-- What the engine needs of the `protobuf` crate. -/
class Protobuf where
  entry : Codec Entry
  hardState : Codec HardState
  snapshot : Codec Snapshot
  confChange : Codec ConfChange

/-! ## The proto3 codecs -/

namespace Proto3

/-- Fields are applied one after another to the default message; a field that
the message does not have, or of the wrong wire type, is refused. -/
def readFields {α : Type} [Inhabited α] (set : α → Nat × WireValue → Option α)
    (fs : List (Nat × WireValue)) : Option α :=
  fs.foldlM set default

def entryFields (e : Entry) : List (Nat × WireValue) :=
  intField 1 (match e.entryType with | .EntryNormal => 0 | .EntryConfChange => 1)
    ++ intField 2 e.term ++ intField 3 e.index ++ bytesField 4 e.data

def setEntryField (e : Entry) : Nat × WireValue → Option Entry
  | (1, .int n) => some { e with entryType := if n = 0 then .EntryNormal else .EntryConfChange }
  | (2, .int n) => some { e with term := n }
  | (3, .int n) => some { e with index := n }
  | (4, .bytes b) => some { e with data := b }
  | _ => none

theorem entry_roundTrip (e : Entry) : readFields setEntryField (entryFields e) = some e := by
  obtain ⟨ty, term, index, data⟩ := e
  show List.foldlM setEntryField {} _ = _
  cases ty <;> by_cases ht : term = 0 <;> by_cases hi : index = 0 <;> by_cases hd : data = [] <;>
    simp_all [entryFields, intField, bytesField, setEntryField]

def hardStateFields (h : HardState) : List (Nat × WireValue) :=
  intField 1 h.term ++ intField 2 h.vote ++ intField 3 h.commit

def setHardStateField (h : HardState) : Nat × WireValue → Option HardState
  | (1, .int n) => some { h with term := n }
  | (2, .int n) => some { h with vote := n }
  | (3, .int n) => some { h with commit := n }
  | _ => none

theorem hardState_roundTrip (h : HardState) :
    readFields setHardStateField (hardStateFields h) = some h := by
  obtain ⟨term, vote, commit⟩ := h
  show List.foldlM setHardStateField {} _ = _
  by_cases ht : term = 0 <;> by_cases hv : vote = 0 <;> by_cases hc : commit = 0 <;>
    simp_all [hardStateFields, intField, setHardStateField]

def confStateFields (c : ConfState) : List (Nat × WireValue) :=
  c.nodes.map (fun n => (1, .int n)) ++ c.learners.map (fun n => (2, .int n))

def setConfStateField (c : ConfState) : Nat × WireValue → Option ConfState
  | (1, .int n) => some { c with nodes := c.nodes ++ [n] }
  | (2, .int n) => some { c with learners := c.learners ++ [n] }
  | _ => none

theorem foldlM_nodes (ns : List Nat) :
    ∀ c : ConfState, List.foldlM setConfStateField c (ns.map fun n => (1, WireValue.int n))
      = some { c with nodes := c.nodes ++ ns } := by
  induction ns with
  | nil => intro c; simp
  | cons n ns ih =>
    intro c
    simp only [List.map_cons, List.foldlM_cons, setConfStateField, Option.bind_eq_bind,
      Option.bind_some]
    rw [ih]
    simp

theorem foldlM_learners (ns : List Nat) :
    ∀ c : ConfState, List.foldlM setConfStateField c (ns.map fun n => (2, WireValue.int n))
      = some { c with learners := c.learners ++ ns } := by
  induction ns with
  | nil => intro c; simp
  | cons n ns ih =>
    intro c
    simp only [List.map_cons, List.foldlM_cons, setConfStateField, Option.bind_eq_bind,
      Option.bind_some]
    rw [ih]
    simp

theorem confState_roundTrip (c : ConfState) :
    readFields setConfStateField (confStateFields c) = some c := by
  show List.foldlM setConfStateField {} _ = _
  rw [confStateFields, List.foldlM_append, foldlM_nodes]
  simp only [Option.bind_eq_bind, Option.bind_some, foldlM_learners, List.nil_append]

def confState : Codec ConfState :=
  Codec.ofFields confStateFields (readFields setConfStateField) confState_roundTrip rfl

/-- An optional sub-message, present even when it is the default one. -/
def messageField {α : Type} [Inhabited α] (c : Codec α) (num : Nat) :
    Option α → List (Nat × WireValue)
  | none => []
  | some m => [(num, .bytes (c.writeToBytes m))]

def metadataFields (m : SnapshotMetadata) : List (Nat × WireValue) :=
  messageField confState 1 m.confState ++ intField 2 m.index ++ intField 3 m.term

def setMetadataField (m : SnapshotMetadata) : Nat × WireValue → Option SnapshotMetadata
  | (1, .bytes b) => (confState.parseFromBytes b).map fun c => { m with confState := some c }
  | (2, .int n) => some { m with index := n }
  | (3, .int n) => some { m with term := n }
  | _ => none

theorem metadata_roundTrip (m : SnapshotMetadata) :
    readFields setMetadataField (metadataFields m) = some m := by
  obtain ⟨cs, index, term⟩ := m
  show List.foldlM setMetadataField {} _ = _
  cases cs <;> by_cases hi : index = 0 <;> by_cases ht : term = 0 <;>
    simp_all [metadataFields, messageField, intField, setMetadataField, Codec.parse_write]

def metadata : Codec SnapshotMetadata :=
  Codec.ofFields metadataFields (readFields setMetadataField) metadata_roundTrip rfl

def snapshotFields (s : Snapshot) : List (Nat × WireValue) :=
  bytesField 1 s.data ++ messageField metadata 2 s.metadata

def setSnapshotField (s : Snapshot) : Nat × WireValue → Option Snapshot
  | (1, .bytes b) => some { s with data := b }
  | (2, .bytes b) => (metadata.parseFromBytes b).map fun m => { s with metadata := some m }
  | _ => none

theorem snapshot_roundTrip (s : Snapshot) :
    readFields setSnapshotField (snapshotFields s) = some s := by
  obtain ⟨data, md⟩ := s
  show List.foldlM setSnapshotField {} _ = _
  cases md <;> by_cases hd : data = [] <;>
    simp_all [snapshotFields, messageField, bytesField, setSnapshotField, Codec.parse_write]

def changeTypeCode : ConfChangeType → Nat
  | .AddNode => 0
  | .RemoveNode => 1
  | .AddLearnerNode => 2

def confChangeFields (c : ConfChange) : List (Nat × WireValue) :=
  intField 2 (changeTypeCode c.changeType) ++ intField 3 c.nodeId ++ bytesField 4 c.context

def setConfChangeField (c : ConfChange) : Nat × WireValue → Option ConfChange
  | (2, .int 0) => some { c with changeType := .AddNode }
  | (2, .int 1) => some { c with changeType := .RemoveNode }
  | (2, .int 2) => some { c with changeType := .AddLearnerNode }
  | (3, .int n) => some { c with nodeId := n }
  | (4, .bytes b) => some { c with context := b }
  | _ => none

theorem confChange_roundTrip (c : ConfChange) :
    readFields setConfChangeField (confChangeFields c) = some c := by
  obtain ⟨ty, node, ctx⟩ := c
  show List.foldlM setConfChangeField {} _ = _
  cases ty <;> by_cases hn : node = 0 <;> by_cases hc : ctx = [] <;>
    simp_all [confChangeFields, changeTypeCode, intField, bytesField, setConfChangeField]

/-- The wire format of the fields that are modelled. -/
scoped instance proto3 : Protobuf where
  entry := Codec.ofFields entryFields (readFields setEntryField) entry_roundTrip rfl
  hardState := Codec.ofFields hardStateFields (readFields setHardStateField)
    hardState_roundTrip rfl
  snapshot := Codec.ofFields snapshotFields (readFields setSnapshotField) snapshot_roundTrip rfl
  confChange := Codec.ofFields confChangeFields (readFields setConfChangeField)
    confChange_roundTrip rfl

end Proto3

end SawtoothRaft
