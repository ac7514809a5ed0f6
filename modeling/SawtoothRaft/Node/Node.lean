import Mathlib.Data.List.AList
import SawtoothRaft.Node.Config

/-!
# `SawtoothRaftNode`

The node stands between the validator and Raft. Validator updates and Raft's
`Ready`s come in; service calls, proposals and store operations go out. Each
method of the node is a procedure in `NodeM`: it changes the node, and it may
panic, leaving behind whatever it had done by then.

Everything that happens is recorded in the node's `trace`, in order: the
updates that come in, every call to the service, to the `raft` crate and to
the store, and every single file operation. A crash is then a point of the
trace, and a property of runs is a property of traces. The trace is not part
of the program; nothing reads it but the `Env`.

The `Env` answers the calls. The validator, the `raft` crate and the clock are
outside this development, so an answer may depend on all that has happened so
far, in any way. What Raft hands to a round of `process_ready` is an input,
`Round`; the questions Raft puts to the store are left out, since no question
changes the directory.
-/

namespace SawtoothRaft

open Lib

/-- Possible states a leader node can be in; `building` has the time at which
it began. -/
inductive LeaderState where
  | building (since : Nat)
  | publishing (blockId : BlockId)
  | validating (blockId : BlockId)
  | proposing (blockId : BlockId)
  | committing (blockId : BlockId)
  | changingConfig
  deriving DecidableEq, Repr

inductive FollowerState where
  | idle
  | committing (blockId : BlockId)
  deriving DecidableEq, Repr

inductive ReadyStatus where
  | Continue
  | Shutdown
  deriving DecidableEq, Repr

/-- A message of the `raft` crate: its addressee and its serialised form. -/
structure RaftMessage where
  toId : Nat
  bytes : Bytes
  deriving DecidableEq, Repr

/-- `raft::Ready` -/
structure Ready where
  messages : List RaftMessage := []
  snapshot : Snapshot := {}
  entries : List Entry := []
  hs : Option HardState := none
  committedEntries : Option (List Entry) := none
  deriving DecidableEq, Repr

/-- What Raft shows to one round of `process_ready`: its role and its `Ready`. -/
structure Round where
  isLeader : Bool
  ready : Ready := {}
  deriving DecidableEq, Repr

/-- The entries that Raft hands over to be applied in this round. -/
def Round.committed (round : Round) : List Entry := round.ready.committedEntries.getD []

/-- One thing that happened. -/
inductive Obs where
  -- updates
  | blockNew (block : Block)
  | blockValid (blockId : BlockId)
  | blockCommit (blockId : BlockId)
  | peerMessage (message : Bytes)
  | tick
  | ready (round : Round)
  /-- The next committed entry of the round is taken up. -/
  | entry (e : Entry)
  -- calls to the service
  | checkBlocks (blockIds : List BlockId)
  /-- With the commit queue as it is at the call. -/
  | initializeBlock (queue : List (BlockId × Nat))
  | summarizeBlock
  | finalizeBlock
  | cancelBlock
  | commitBlock (blockId : BlockId)
  | sendTo (peerId : PeerId) (message : Bytes)
  | getSettings (blockId : BlockId) (keys : List String)
  -- calls to the `raft` crate
  | propose (blockId : BlockId)
  | proposeConfChange (change : ConfChange)
  | applyConfChange (change : ConfChange)
  | step (message : RaftMessage)
  | advance
  -- the store
  | setApplied (applied : Nat)
  | file (op : FileOp)
  deriving DecidableEq, Repr

def isReady : Obs → Bool
  | .ready _ => true
  | _ => false

/-- The answers of what is outside, given everything up to the call. -/
structure Env where
  now : List Obs → Nat
  checkBlocks : List Obs → Except ServiceError Unit
  initializeBlock : List Obs → Except ServiceError Unit
  summarizeBlock : List Obs → Except ServiceError Bytes
  finalizeBlock : List Obs → Except ServiceError BlockId
  cancelBlock : List Obs → Except ServiceError Unit
  commitBlock : List Obs → Except ServiceError Unit
  sendTo : List Obs → Except ServiceError Unit
  /-- The settings at a block. -/
  getSettings : List Obs → BlockId → Except ServiceError Settings
  /-- Whether `propose` succeeds. -/
  propose : List Obs → Bool
  proposeConfChange : List Obs → Bool
  /-- `parse_from_bytes::<RaftMessage>` -/
  parseMessage : Bytes → Option RaftMessage
  /-- `raft::is_empty_snap` -/
  isEmptySnap : Snapshot → Bool

/-- `SawtoothRaftNode`, with the store that its `raw_node` owns. -/
structure Node (S : Type) where
  peerId : PeerId
  store : S
  leaderState : Option LeaderState
  followerState : Option FollowerState
  blockQueue : BlockQueue
  raftIdToPeerId : AList (fun _ : Nat => PeerId)
  period : Nat
  trace : List Obs

abbrev NodeM (S : Type) := EStateM Panic (Node S)

namespace Node

variable {S α : Type}

/-- `SawtoothRaftNode::new`. The trace holds what was done to open the store. -/
def new (peerId : PeerId) (store : S) (peers : List PeerId) (period : Nat) (trace : List Obs) :
    Except Panic (Node S) := do
  let pairs ← peers.mapM fun peerId => do
    let raftId ← peerIdToRaftId peerId
    pure (raftId, peerId)
  pure {
    peerId, store, period, trace
    leaderState := none
    followerState := some .idle
    blockQueue := BlockQueue.new
    raftIdToPeerId := pairs.foldl (fun m p => m.insert p.1 p.2) ∅ }

/-! ## Acting on the node and on the outside -/

def emit (o : Obs) : NodeM S Unit := modify fun n => { n with trace := n.trace ++ [o] }

def setLeaderState (st : Option LeaderState) : NodeM S Unit :=
  modify fun n => { n with leaderState := st }

def setFollowerState (st : Option FollowerState) : NodeM S Unit :=
  modify fun n => { n with followerState := st }

def updateQueue (f : BlockQueue → BlockQueue) : NodeM S Unit :=
  modify fun n => { n with blockQueue := f n.blockQueue }

/-- Make a call and look at the answer. -/
def tryCall (o : Obs) (answer : List Obs → α) : NodeM S α := do
  emit o
  let n ← get
  pure (answer n.trace)

/-- Make a call to the service and insist on success. -/
def expectCall (call : ServiceCall) (o : Obs) (answer : List Obs → Except ServiceError α) :
    NodeM S α := do
  match ← tryCall o answer with
  | .ok a => pure a
  | .error err => throw (.service call err)

/-- A panic, if there is one. -/
def expect (r : Except Panic α) : NodeM S α :=
  match r with
  | .ok a => pure a
  | .error p => throw p

/-- Call the store and insist on success. The file operations done by a
failing call stay done. -/
def storeCall (f : S → Outcome S α) : NodeM S α := do
  let n ← get
  let o := f n.store
  set { n with store := o.store, trace := n.trace ++ o.ops.map Obs.file }
  match o.result with
  | .ok a => pure a
  | .error fault => throw (.store fault)

variable (env : Env)

/-- Begin a new block on top of the chain head. -/
def startBuilding : NodeM S Unit := do
  let n ← get
  setLeaderState (some (.building (env.now n.trace)))
  expectCall .initializeBlock (.initializeBlock n.blockQueue.commitQueue) env.initializeBlock

/-! ## Updates from the validator -/

/-- The block that is being published has come back. -/
def noteReceived (blockId : BlockId) : NodeM S Unit := do
  let n ← get
  if n.leaderState = some (.publishing blockId) then setLeaderState (some (.validating blockId))
  else pure ()

def onBlockNew (block : Block) : NodeM S Unit := do
  emit (.blockNew block)
  noteReceived block.blockId
  updateQueue (·.blockNew block)
  expectCall .checkBlocks (.checkBlocks [block.blockId]) env.checkBlocks

/-- The leader proposes the block it has published, once it is valid. -/
def proposeBlock (blockId : BlockId) : NodeM S Unit := do
  let n ← get
  if n.leaderState = some (.publishing blockId) ∨ n.leaderState = some (.validating blockId) then do
    if ← tryCall (.propose blockId) env.propose then
      setLeaderState (some (.proposing blockId))
    else throw .proposeBlock
  else pure ()

def onBlockValid (blockId : BlockId) : NodeM S Unit := do
  emit (.blockValid blockId)
  updateQueue (·.blockValid blockId)
  proposeBlock env blockId

/-- `block_committed` on the node's queue. -/
def popFront : NodeM S Nat := do
  let n ← get
  match n.blockQueue.blockCommitted with
  | some (entry, q) => do
    updateQueue fun _ => q
    pure entry
  | none => throw .noBlocksInQueue

/-- Pop the front of the queue and record its index as applied. -/
def confirmFront [StorageExt S] : NodeM S Unit := do
  let entry ← popFront
  emit (.setApplied entry)
  storeCall (StorageExt.setApplied · entry)

/-- The one change that leads from the old peers to the new ones; the leader
cannot deal with more than one at a time. -/
def confChangeBetween (peers oldPeers : List PeerId) : Except Panic (Option ConfChange) :=
  -- the source compares two sets: a peer that is listed twice counts once
  let peers := peers.dedup
  let oldPeers := oldPeers.dedup
  let difference := peers.filter (· ∉ oldPeers) ++ oldPeers.filter (· ∉ peers)
  match difference with
  | [] => .ok none
  | [peerId] => do
    let nodeId ← peerIdToRaftId peerId
    if peers.length > oldPeers.length then
      pure (some { changeType := .AddNode, nodeId, context := peerId })
    else if peers.length < oldPeers.length then
      pure (some { changeType := .RemoveNode, nodeId })
    -- not reached: sets that differ by one peer differ in size
    else pure (some { nodeId })
  | _ :: _ :: _ => .error .manyMembershipChanges

variable [Formats]

def checkForConfChange (blockId : BlockId) : NodeM S (Option ConfChange) := do
  let settings ← expectCall .getSettings (.getSettings blockId [peersKey])
    fun t => env.getSettings t blockId
  let peers ← expect (getPeersFromSettings settings)
  let n ← get
  expect (confChangeBetween peers (n.raftIdToPeerId.entries.map (·.2)))

/-- What a leader does next once its block is committed. -/
def afterCommit (blockId : BlockId) : NodeM S Unit := do
  match ← checkForConfChange env blockId with
  | some change => do
    setLeaderState (some .changingConfig)
    if ← tryCall (.proposeConfChange change) env.proposeConfChange then pure ()
    else throw .proposeConfChange
  | none => startBuilding env

variable [StorageExt S]

def leaderBlockCommit (blockId : BlockId) : NodeM S Unit := do
  let n ← get
  if n.leaderState = some (.committing blockId) then do
    confirmFront
    afterCommit env blockId
  else pure ()

def followerBlockCommit (blockId : BlockId) : NodeM S Unit := do
  let n ← get
  if n.followerState = some (.committing blockId) then do
    confirmFront
    setFollowerState (some .idle)
  else pure ()

def onBlockCommit (blockId : BlockId) : NodeM S Unit := do
  emit (.blockCommit blockId)
  leaderBlockCommit env blockId
  followerBlockCommit blockId

/-! ## Messages and time -/

def onPeerMessage (message : Bytes) : NodeM S Unit := do
  emit (.peerMessage message)
  match env.parseMessage message with
  | some raftMessage => emit (.step raftMessage)
  | none => throw .invalidRaftMessage

/-- A block that is not ready is tried again at a later tick. -/
def publish : NodeM S Unit := do
  match ← tryCall .summarizeBlock env.summarizeBlock with
  | .error .BlockNotReady => pure ()
  | .error err => throw (.service .summarizeBlock err)
  | .ok _ =>
    -- the summary is not looked at: `finalize_block` is given no data
    match ← tryCall .finalizeBlock env.finalizeBlock with
    | .ok blockId => setLeaderState (some (.publishing blockId))
    | .error .BlockNotReady => pure ()
    | .error err => throw (.service .finalizeBlock err)

def checkPublish : NodeM S Unit := do
  let n ← get
  match n.leaderState with
  | some (.building since) =>
    if env.now n.trace - since ≥ n.period then publish env else pure ()
  | _ => pure ()

def tick : NodeM S Unit := do
  emit .tick
  checkPublish env

/-! ## `process_ready` -/

/-- A message to a peer that is unknown or not connected is dropped. -/
def sendMsg (msg : RaftMessage) : NodeM S Unit := do
  let n ← get
  match n.raftIdToPeerId.lookup msg.toId with
  | some peerId =>
    match ← tryCall (.sendTo peerId msg.bytes) env.sendTo with
    | .ok _ => pure ()
    | .error .UnknownPeer => pure ()
    | .error err => throw (.service .sendTo err)
  | none => pure ()

/-- What a new leader begins with: a block that is being committed goes on
being committed, otherwise a new one is built. -/
def takeOver : Option FollowerState → NodeM S Unit
  | some (.committing blockId) => setLeaderState (some (.committing blockId))
  | _ => startBuilding env

/-- The first round as leader. -/
def stepUp : NodeM S Unit := do
  let n ← get
  if n.leaderState = none then do
    takeOver env n.followerState
    setFollowerState none
  else pure ()

def persistSnapshot (snapshot : Snapshot) : NodeM S Unit :=
  if env.isEmptySnap snapshot then pure ()
  else storeCall (StorageExt.applySnapshot · snapshot)

def persistEntries (entries : List Entry) : NodeM S Unit :=
  if entries = [] then pure ()
  else storeCall (StorageExt.append · entries)

def persistHardState : Option HardState → NodeM S Unit
  | some hs => storeCall (StorageExt.setHardstate · hs)
  | none => pure ()

/-- Snapshot, entries and hard state go to the store, in this order. -/
def persist (ready : Ready) : NodeM S Unit := do
  persistSnapshot env ready.snapshot
  persistEntries ready.entries
  persistHardState ready.hs

/-- What becomes of the leader's work when it steps down. -/
def abandon : Option LeaderState → NodeM S Unit
  | some (.building _) => expectCall .cancelBlock .cancelBlock env.cancelBlock
  | some (.committing blockId) => setFollowerState (some (.committing blockId))
  | _ => pure ()

/-- The first round after losing leadership. -/
def stepDown : NodeM S Unit := do
  let n ← get
  if n.leaderState = none then pure ()
  else do
    abandon env n.leaderState
    setLeaderState none
    -- read again: `abandon` may have set it
    let n ← get
    if n.followerState = none then setFollowerState (some .idle) else pure ()

/-- The map of peers follows the change, and the node goes down when it is
itself removed. -/
def updatePeers (change : ConfChange) : NodeM S ReadyStatus := do
  let n ← get
  match change.changeType with
  | .RemoveNode => do
    let own ← expect (peerIdToRaftId n.peerId)
    if change.nodeId = own then pure .Shutdown
    else
      match n.raftIdToPeerId.lookup change.nodeId with
      | some _ => do
        modify fun n => { n with raftIdToPeerId := n.raftIdToPeerId.erase change.nodeId }
        pure .Continue
      | none => throw .unknownPeerRemoved
  | .AddNode => do
    modify fun n =>
      { n with raftIdToPeerId := n.raftIdToPeerId.insert change.nodeId change.context }
    pure .Continue
  | .AddLearnerNode => pure .Continue

def applyConfChange (change : ConfChange) : NodeM S ReadyStatus := do
  match ← updatePeers change with
  | .Shutdown => pure .Shutdown
  | .Continue => do
    emit (.applyConfChange change)
    pure .Continue

variable [Protobuf]

/-- A leader that waited for the change starts building again. -/
def deliverConfChange (e : Entry) : NodeM S ReadyStatus := do
  match Protobuf.confChange.parseFromBytes e.data with
  | none => throw .invalidConfChange
  | some change =>
    match ← applyConfChange change with
    | .Shutdown => pure .Shutdown
    | .Continue => do
      let n ← get
      if n.leaderState = some .changingConfig then do
        startBuilding env
        pure .Continue
      else pure .Continue

/-- One turn of the loop over the committed entries. Entries without data come
from elections, and configuration changes of term 1 from the start of the
network. -/
def deliverEntry (e : Entry) : NodeM S ReadyStatus := do
  emit (.entry e)
  if e.data = [] then pure .Continue
  else
    match e.entryType with
    | .EntryNormal => do
      updateQueue (·.addBlockCommit e.data e.index)
      pure .Continue
    | .EntryConfChange =>
      if e.term = 1 then pure .Continue else deliverConfChange env e

def deliver : List Entry → NodeM S ReadyStatus
  | [] => pure .Continue
  | e :: es => do
    match ← deliverEntry env e with
    | .Shutdown => pure .Shutdown
    | .Continue => deliver es

/-- The leader commits the block it proposed. -/
def leaderCommit (blockId : BlockId) : NodeM S Unit := do
  let n ← get
  if n.leaderState = some (.proposing blockId) then do
    setLeaderState (some (.committing blockId))
    expectCall .commitBlock (.commitBlock blockId) env.commitBlock
  else pure ()

/-- A follower commits whatever comes next. -/
def followerCommit (blockId : BlockId) : NodeM S Unit := do
  let n ← get
  if n.followerState = some .idle then do
    setFollowerState (some (.committing blockId))
    expectCall .commitBlock (.commitBlock blockId) env.commitBlock
  else pure ()

def commitBlock (blockId : BlockId) : NodeM S Unit := do
  leaderCommit env blockId
  followerCommit env blockId

/-- Commit next committable block from backlog (if there is one). -/
def commitNext : NodeM S Unit := do
  let n ← get
  match n.blockQueue.getNextCommittable with
  | some blockId => commitBlock env blockId
  | none => pure ()

/-- The leader sends its messages as soon as possible. -/
def leaderPart (round : Round) : NodeM S Unit :=
  if round.isLeader then do
    stepUp env
    round.ready.messages.forM (sendMsg env)
  else pure ()

/-- A follower answers after its entries are in the store. -/
def followerPart (round : Round) : NodeM S Unit :=
  if round.isLeader then pure ()
  else do
    stepDown env
    round.ready.messages.forM (sendMsg env)

/-- The end of a round, unless the node has been removed. -/
def afterEntries : ReadyStatus → NodeM S ReadyStatus
  | .Shutdown => pure .Shutdown
  | .Continue => do
    commitNext env
    emit .advance
    pure .Continue

/-- `process_ready`; `none` stands for `has_ready() == false`. -/
def processReady : Option Round → NodeM S ReadyStatus
  | none => pure .Continue
  | some round => do
    emit (.ready round)
    leaderPart env round
    persist env round.ready
    followerPart env round
    let status ← deliver env round.committed
    afterEntries env status

end Node

end SawtoothRaft
