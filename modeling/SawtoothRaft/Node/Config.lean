import SawtoothRaft.Node.BlockQueue
import SawtoothRaft.Storage.CachedStorage

/-!
# Configuration: the store, the settings and the peers

When the engine starts it opens the store, reads the applied index from it,
and takes the membership of the network from the settings on the chain, as of
the validator's chain head (`loadRaftConfig`). Peers are known to Raft by a
number made of the last eight bytes of their id.

JSON and hexadecimal are decoded by library code; the two decoders are the
class `Formats`.
-/

namespace SawtoothRaft

open Lib

abbrev PeerId := Bytes

/-- `HashMap<String, String>` -/
abbrev Settings := String → Option String

/-- The errors of the validator's service that the engine tells apart. -/
inductive ServiceError where
  | BlockNotReady
  | UnknownPeer
  | Other
  deriving DecidableEq, Repr

/-- The service calls that are unwrapped with `expect` or end in `panic!`. -/
inductive ServiceCall where
  | getSettings
  | checkBlocks
  | initializeBlock
  | summarizeBlock
  | finalizeBlock
  | cancelBlock
  | commitBlock
  | sendTo
  deriving DecidableEq, Repr

/-- What the engine dies of. -/
inductive Panic where
  /-- "Failed to ..." a call to the validator -/
  | service (call : ServiceCall) (err : ServiceError)
  /-- A store operation was unwrapped. -/
  | store (fault : Fault)
  /-- "'sawtooth.consensus.raft.peers' must be set to use Raft" -/
  | peersNotSet
  /-- "Invalid value at 'sawtooth.consensus.raft.peers'" -/
  | invalidPeers
  /-- "Peer id not valid hex" -/
  | peerIdNotHex
  /-- `assert!(bytes.len() >= 8)` -/
  | peerIdTooShort
  /-- "Failed to propose block to Raft" -/
  | proposeBlock
  /-- `propose_conf_change(..).unwrap()` -/
  | proposeConfChange
  /-- "Failed to interpret bytes as Raft message" -/
  | invalidRaftMessage
  /-- "Failed to parse ConfChange" -/
  | invalidConfChange
  /-- "No blocks in queue." -/
  | noBlocksInQueue
  /-- "More than one node's membership has changed; ..." -/
  | manyMembershipChanges
  /-- `raft_id_to_peer_id.remove(..).unwrap()` -/
  | unknownPeerRemoved
  deriving DecidableEq, Repr

/-- The decoders the engine takes from `serde_json` and `hex`. -/
class Formats where
  /-- `serde_json::from_str::<Vec<String>>` -/
  fromJson : String → Option (List String)
  /-- `hex::decode` -/
  hexDecode : String → Option Bytes

namespace PlainFormats

/-- The strings after the first one, up to the closing bracket; the pieces are
what lies between quotation marks. -/
def moreStrings : List (List Char) → Option (List String)
  | [[']']] => some []
  | [','] :: str :: rest => (moreStrings rest).map (String.ofList str :: ·)
  | _ => none

/-- An array of strings, without blanks and escapes. -/
def fromJson (s : String) : Option (List String) :=
  match s.toList.splitOn '"' with
  | [['[', ']']] => some []
  | ['['] :: str :: rest => (moreStrings rest).map (String.ofList str :: ·)
  | _ => none

def hexDigit (c : Char) : Option Nat :=
  if '0' ≤ c ∧ c ≤ '9' then some (c.toNat - '0'.toNat)
  else if 'a' ≤ c ∧ c ≤ 'f' then some (c.toNat - 'a'.toNat + 10)
  else if 'A' ≤ c ∧ c ≤ 'F' then some (c.toNat - 'A'.toNat + 10)
  else none

def hexBytes : List Char → Option Bytes
  | [] => some []
  | [_] => none
  | hi :: lo :: rest => do
    let hi ← hexDigit hi
    let lo ← hexDigit lo
    let rest ← hexBytes rest
    pure (UInt8.ofNat (16 * hi + lo) :: rest)

/-- Decoders for settings in their plainest form. -/
scoped instance plainFormats : Formats where
  fromJson := fromJson
  hexDecode s := hexBytes s.toList

example : fromJson "[\"0a\",\"ff\"]" = some ["0a", "ff"] := by decide +kernel

end PlainFormats

/-! ## Peers -/

/-- The loop of `peer_id_to_raft_id`: byte `i` from the end, shifted by `8 * i`. -/
def raftIdOf (peerId : PeerId) : Nat :=
  (List.range 8).foldl
    (fun u i => u + (peerId.getD (peerId.length - 1 - i) 0).toNat <<< (i * 8)) 0

/-- `peer_id_to_raft_id` -/
def peerIdToRaftId (peerId : PeerId) : Except Panic Nat :=
  if peerId.length ≥ 8 then .ok (raftIdOf peerId) else .error .peerIdTooShort

theorem peerIdToRaftId_eq {peerId : PeerId} (h : 8 ≤ peerId.length) :
    peerIdToRaftId peerId = .ok (raftIdOf peerId) :=
  if_pos h

def peersKey : String := "sawtooth.consensus.raft.peers"

/-- `get_peers_from_settings` -/
def getPeersFromSettings [Formats] (settings : Settings) : Except Panic (List PeerId) :=
  match settings peersKey with
  | none => .error .peersNotSet
  | some value =>
    match Formats.fromJson value with
    | none => .error .invalidPeers
    | some peers => peers.mapM fun s =>
      match Formats.hexDecode s with
      | some peerId => .ok peerId
      | none => .error .peerIdNotHex

/-! ## Loading -/

/-- `raft::Config`, the part that is set here. -/
structure RaftConfig where
  id : Nat := 0
  peers : List Nat := []
  electionTick : Nat := 0
  heartbeatTick : Nat := 0
  applied : Nat := 0
  maxSizePerMsg : Nat := 0
  tag : String := ""
  deriving DecidableEq, Repr

/-- `RaftEngineConfig`; the period is in milliseconds. -/
structure RaftEngineConfig (S : Type) where
  peers : List PeerId
  period : Nat
  raft : RaftConfig
  storage : S

/-- `RaftEngineConfig::new`, with the defaults of the `raft` crate. -/
def RaftEngineConfig.new {S : Type} [StorageExt S] (raftDefault : RaftConfig) (storage : S) :
    Except Panic (RaftEngineConfig S) :=
  let o := StorageExt.applied storage
  match o.result with
  | .ok applied => .ok
      { peers := [], period := 3000, storage := o.store,
        raft := { raftDefault with maxSizePerMsg := 1024 * 1024 * 1024, applied } }
  | .error fault => .error (.store fault)

/-- `str::parse` for `u64` and for a 64-bit `usize`. -/
def parseU64 (s : String) : Option Nat :=
  let digits := match s.toList with
    | '+' :: digits => digits
    | digits => digits
  if digits ≠ [] ∧ digits.all Char.isDigit then
    let n := digits.foldl (fun n c => 10 * n + (c.toNat - '0'.toNat)) 0
    if n < 2 ^ 64 then some n else none
  else none

/-- A setting that is used when it is there and is a number. -/
def numericSetting (settings : Settings) (key : String) (dflt : Nat) : Nat :=
  ((settings key).bind parseU64).getD dflt

/-- `load_raft_config`, on a storage already opened and the answer of
`get_settings` at the chain head. -/
def loadRaftConfig [Formats] {S : Type} [StorageExt S] (raftDefault : RaftConfig) (storage : S)
    (peerId : PeerId) (getSettings : Except ServiceError Settings) :
    Except Panic (RaftEngineConfig S) := do
  -- the applied index is read here, before the settings
  let config ← RaftEngineConfig.new raftDefault storage
  let id ← peerIdToRaftId peerId
  match getSettings with
  | .error err => .error (.service .getSettings err)
  | .ok settings =>
    let peers ← getPeersFromSettings settings
    let ids ← peers.mapM peerIdToRaftId
    pure { config with
      peers
      period := numericSetting settings "sawtooth.consensus.raft.period" config.period
      raft := { config.raft with
        id
        tag := "[" ++ toString id ++ "]"
        peers := ids
        heartbeatTick := numericSetting settings "sawtooth.consensus.raft.heartbeat_tick"
          config.raft.heartbeatTick
        electionTick := numericSetting settings "sawtooth.consensus.raft.election_tick"
          config.raft.electionTick } }

/-- `create_storage`: the store in the data directory, behind a new cache. -/
def createStorage [Protobuf] {C : Type → Type} [LruCache cacheSize C] (d : Dir) :
    Outcome (CachedStorage C FsStorage) Unit :=
  let o := FsStorage.call (FsStorage.ioResult FsStorage.withDataDir) ⟨d⟩
  { result := o.result, store := CachedStorage.new o.store, ops := o.ops }

end SawtoothRaft
