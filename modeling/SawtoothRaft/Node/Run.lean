import SawtoothRaft.Lib.Run
import SawtoothRaft.Node.Round

/-!
# Runs of a node

`engine.rs` feeds the node with updates, ticks and rounds of `process_ready`.
Here they come in any order, as `Input`s; a run stops for good when a round
returns `Shutdown` or a handler panics.
-/

namespace SawtoothRaft

open Lib

inductive Input where
  | blockNew (block : Block)
  | blockValid (blockId : BlockId)
  | blockCommit (blockId : BlockId)
  | peerMessage (message : Bytes)
  | tick
  | processReady (round : Option Round)
  deriving DecidableEq, Repr

inductive Status where
  | running
  | shutdown
  | panicked (p : Panic)
  deriving DecidableEq, Repr

/-- A node and whether it is still running. -/
structure Sys (S : Type) where
  node : Node S
  status : Status

variable {S : Type} [StorageExt S] [Protobuf] [Formats] (env : Env)

namespace Node

/-- Only `process_ready` has something to return. -/
def handle : Input → NodeM S ReadyStatus
  | .blockNew block => do
    onBlockNew env block
    pure .Continue
  | .blockValid blockId => do
    onBlockValid env blockId
    pure .Continue
  | .blockCommit blockId => do
    onBlockCommit env blockId
    pure .Continue
  | .peerMessage message => do
    onPeerMessage env message
    pure .Continue
  | .tick => do
    tick env
    pure .Continue
  | .processReady round => processReady env round

end Node

namespace Sys

/-- The outcome of a handler. -/
def after : EStateM.Result Panic (Node S) ReadyStatus → Sys S
  | .ok .Continue node => { node, status := .running }
  | .ok .Shutdown node => { node, status := .shutdown }
  | .error p node => { node, status := .panicked p }

def step (s : Sys S) (i : Input) : Sys S :=
  match s.status with
  | .running => after (Node.handle env i s.node)
  | _ => s

def run (s : Sys S) (inputs : List Input) : Sys S := inputs.foldl (step env) s

omit [StorageExt S] [Protobuf] [Formats] in
/-- `I` while the node runs, `K` once it has stopped. -/
def Sat (I : Node S → Prop) (K : Status → Node S → Prop) (s : Sys S) : Prop :=
  match s.status with
  | .running => I s.node
  | st => K st s.node

omit [StorageExt S] [Protobuf] [Formats] in
theorem Sat.imp {I J : Node S → Prop} {K L : Status → Node S → Prop} {s : Sys S}
    (hs : s.Sat I K) (hI : ∀ n, I n → J n) (hK : ∀ st n, K st n → L st n) : s.Sat J L := by
  obtain ⟨n, status⟩ := s
  cases status with
  | running => exact hI n hs
  | shutdown => exact hK _ n hs
  | panicked p => exact hK _ n hs

/-- What a handler leaves, as a property of the system. -/
def Leaves (I : Node S → Prop) (K : Status → Node S → Prop) : ReadyStatus → Node S → Prop
  | .Continue => I
  | .Shutdown => K .shutdown

variable {env}

theorem sat_step {I J P : Node S → Prop} {K : Status → Node S → Prop} {s : Sys S} {i : Input}
    (h : Triple P (Node.handle env i) (Leaves J K) (fun p => K (.panicked p)))
    (hP : s.status = .running → I s.node → P s.node) (hs : s.Sat I K) :
    (s.step env i).Sat J K := by
  obtain ⟨n, status⟩ := s
  cases status with
  | running =>
    have := h n (hP rfl hs)
    show (after (Node.handle env i n)).Sat J K
    cases hr : Node.handle env i n with
    | ok st n' =>
      rw [hr] at this
      cases st with
      | Continue => exact this
      | Shutdown => exact this
    | error p n' => rw [hr] at this; exact this
  | shutdown => exact hs
  | panicked p => exact hs

/-- The invariant rule for runs: one triple per input. -/
theorem sat_run {I : Node S → Prop} {K : Status → Node S → Prop} {s : Sys S}
    (h : ∀ i, Triple I (Node.handle env i) (Leaves I K) (fun p => K (.panicked p)))
    (hs : s.Sat I K) (inputs : List Input) : (s.run env inputs).Sat I K :=
  run_invariant (fun _ i => sat_step (h i) fun _ hn => hn) hs inputs

omit [StorageExt S] [Protobuf] [Formats] in
def start (node : Node S) : Sys S := { node, status := .running }

omit [StorageExt S] [Protobuf] [Formats] in
/-- The node is what `SawtoothRaftNode::new` returns, and nothing has happened
so far but the opening of its store. -/
def IsNew (node : Node S) : Prop :=
  ∃ peerId store peers period ops, Node.new peerId store peers period (List.map Obs.file ops)
    = .ok node

/-- Some run from a new node leads here. -/
def Reachable (s : Sys S) : Prop :=
  ∃ env inputs node, IsNew node ∧ s = (start node).run env inputs

end Sys

/-- `RaftEngine::start` up to its loop, on the data directory `d` and the
answer of `get_settings` at the chain head: the store is opened, the
configuration is loaded and the node is made. The number is the applied index
that Raft is told. -/
def startEngine (C : Type → Type) [LruCache cacheSize C] (raftDefault : RaftConfig) (d : Dir)
    (peerId : PeerId) (settings : Except ServiceError Settings) :
    Except Panic (Node (CachedStorage C FsStorage) × Nat) := do
  let cfg ← loadRaftConfig raftDefault (createStorage d).store peerId settings
  let node ← Node.new peerId cfg.storage cfg.peers cfg.period []
  pure (node, cfg.raft.applied)

/-- An environment in which every call succeeds: blocks are ready at once,
with the id given, and the settings are those of the block. -/
def Env.obliging (blockId : BlockId) (settings : BlockId → Settings) : Env where
  now t := t.length
  checkBlocks _ := .ok ()
  initializeBlock _ := .ok ()
  summarizeBlock _ := .ok []
  finalizeBlock _ := .ok blockId
  cancelBlock _ := .ok ()
  commitBlock _ := .ok ()
  sendTo _ := .ok ()
  getSettings _ b := .ok (settings b)
  propose _ := true
  proposeConfChange _ := true
  parseMessage _ := none
  isEmptySnap s := s.getMetadata.index == 0

/-- Settings with nothing but the given peers. -/
def peersSetting (json : String) : Settings := fun key => if key = peersKey then some json else none

/-- The setting of a network of two. -/
def twoPeersSetting : Settings := peersSetting "[\"0000000000000001\",\"0000000000000002\"]"

end SawtoothRaft
