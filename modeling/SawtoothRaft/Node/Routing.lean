import SawtoothRaft.Node.Contract
import SawtoothRaft.Node.ConfChange
import SawtoothRaft.Node.Provenance

/-!
# Who gets a message

Raft addresses a message by a number, and the validator sends it to a peer. The
map from the one to the other is the node's own: it starts with the peers of the
setting and changes with each configuration change that is carried out
(`membersAt`). So a node can be told anything about the numbers of the peers, and
what it is told comes from other nodes.

A node proposes no change that misnames a peer (`confChangeBetween_named`). If Raft
has only such changes carried out as some node of the group has proposed, every
message gets to the peer whose number it bears (`messages_reach_addressee`).
-/

namespace SawtoothRaft

open Lib

/-- A peer is added under its own Raft id. -/
def ConfChange.Named (change : ConfChange) : Prop :=
  change.changeType = .AddNode → change.nodeId = raftIdOf change.context

/-- The map of peers after a change. -/
def changed (m : AList fun _ : Nat => PeerId) (change : ConfChange) : AList fun _ : Nat => PeerId :=
  match change.changeType with
  | .AddNode => m.insert change.nodeId change.context
  | .RemoveNode => m.erase change.nodeId
  | .AddLearnerNode => m

def changedBy (m : AList fun _ : Nat => PeerId) : Obs → AList fun _ : Nat => PeerId
  | .applyConfChange change => changed m change
  | _ => m

/-- The map of peers that a trace makes of the map at the start. -/
def membersAt (m : AList fun _ : Nat => PeerId) (t : List Obs) : AList fun _ : Nat => PeerId :=
  t.foldl changedBy m

section
variable {m : AList fun _ : Nat => PeerId} {t : List Obs} {o : Obs} {change : ConfChange}

theorem membersAt_snoc : membersAt m (t ++ [o]) = changedBy (membersAt m t) o := by
  simp only [membersAt, List.foldl_append, List.foldl_cons, List.foldl_nil]

theorem membersAt_snoc_of_ne (ho : ∀ change, o ≠ .applyConfChange change) :
    membersAt m (t ++ [o]) = membersAt m t := by
  rw [membersAt_snoc]
  cases o with
  | applyConfChange change => exact absurd rfl (ho change)
  | _ => rfl

theorem keyed_changed (h : Keyed m) (hchange : change.Named) : Keyed (changed m change) := by
  unfold changed
  split
  next hty =>
    rw [hchange hty]
    exact keyed_insert h _
  next => exact keyed_erase h _
  next => exact h

/-- As long as no change misnames a peer, each one stands under its Raft id. -/
theorem keyed_membersAt (h : Keyed m)
    (hnamed : ∀ change, .applyConfChange change ∈ t → change.Named) : Keyed (membersAt m t) := by
  induction t using List.reverseRecOn with
  | nil => exact h
  | append_singleton t o ih =>
    rw [membersAt_snoc]
    have hbefore := ih fun change hc => hnamed change (List.mem_append_left _ hc)
    cases o with
    | applyConfChange change => exact keyed_changed hbefore (hnamed change (by simp))
    | _ => exact hbefore

end

/-- The message is one of the round's, and goes to the peer that stands for its
addressee at that time. -/
def Routed (m : AList fun _ : Nat => PeerId) (u : List Obs) (peerId : PeerId) (message : Bytes) :
    Prop :=
  ∃ msg, Node.MaySend msg u ∧ msg.bytes = message ∧ (membersAt m u).lookup msg.toId = some peerId

/-- What a node that started with the map `m₀` has sent and proposed, and the map
it has now. -/
structure Addresses (m₀ m : AList fun _ : Nat => PeerId) (t : List Obs) : Prop where
  members : m = membersAt m₀ t
  sent : Justified (fun u o => ∀ peerId message, o = .sendTo peerId message →
    Routed m₀ u peerId message) t
  proposed : ∀ change, .proposeConfChange change ∈ t → change.Named

/-- Observations that have nothing to do with the peers. -/
def Impersonal : Obs → Prop
  | .sendTo _ _ | .proposeConfChange _ | .applyConfChange _ => False
  | _ => True

section
variable {m₀ m : AList fun _ : Nat => PeerId} {t : List Obs} {o : Obs}

theorem Addresses.proposed_snoc (h : Addresses m₀ m t)
    (ho : ∀ change, o = .proposeConfChange change → change.Named) (change : ConfChange)
    (hc : .proposeConfChange change ∈ t ++ [o]) : change.Named := by
  rcases List.mem_append.mp hc with hc | hc
  · exact h.proposed change hc
  · exact ho change (List.mem_singleton.mp hc).symm

theorem Addresses.snoc (h : Addresses m₀ m t) (ho : Impersonal o) : Addresses m₀ m (t ++ [o]) := by
  refine ⟨?_, h.sent.snoc ?_, h.proposed_snoc ?_⟩
  · rw [membersAt_snoc_of_ne, h.members]
    intro change heq
    subst heq
    exact ho
  · intro peerId message heq
    subst heq
    exact ho.elim
  · intro change heq
    subst heq
    exact ho.elim

theorem Addresses.files (h : Addresses m₀ m t) (ops : List FileOp) :
    Addresses m₀ m (t ++ ops.map Obs.file) := by
  induction ops using List.reverseRecOn with
  | nil => rwa [List.map_nil, List.append_nil]
  | append_singleton ops op ih =>
    rw [List.map_append, ← List.append_assoc]
    exact ih.snoc trivial

theorem Addresses.send (h : Addresses m₀ m t) {msg : RaftMessage} {peerId : PeerId}
    (hmsg : Node.MaySend msg t) (hpeer : m.lookup msg.toId = some peerId) :
    Addresses m₀ m (t ++ [.sendTo peerId msg.bytes]) := by
  refine ⟨?_, h.sent.snoc ?_, h.proposed_snoc (by simp)⟩
  · rw [membersAt_snoc_of_ne (by simp), h.members]
  · intro peerId' message heq
    cases heq
    exact ⟨msg, hmsg, rfl, h.members ▸ hpeer⟩

theorem Addresses.propose (h : Addresses m₀ m t) {change : ConfChange} (hchange : change.Named) :
    Addresses m₀ m (t ++ [.proposeConfChange change]) := by
  refine ⟨?_, h.sent.snoc (by simp), h.proposed_snoc ?_⟩
  · rw [membersAt_snoc_of_ne (by simp), h.members]
  · intro change' heq
    cases heq
    exact hchange

theorem Addresses.apply (h : Addresses m₀ m t) (change : ConfChange) :
    Addresses m₀ (changed m change) (t ++ [.applyConfChange change]) := by
  refine ⟨?_, h.sent.snoc (by simp), h.proposed_snoc (by simp)⟩
  rw [membersAt_snoc, ← h.members]
  rfl

end

namespace Node

/-- A leader that finds a peer to be added asks for it under its own Raft id. -/
theorem confChangeBetween_named {peers oldPeers : List PeerId} {change : ConfChange}
    (h : confChangeBetween peers oldPeers = .ok (some change)) : change.Named := by
  obtain ⟨hset, -⟩ := difference_spec peers oldPeers
  unfold confChangeBetween at h
  dsimp only at h
  split at h
  next => cases h
  next p hone =>
    rw [hone] at hset
    obtain ⟨nodeId, hid, h⟩ := bind_eq_ok.mp h
    obtain ⟨-, rfl⟩ := length_of_peerIdToRaftId hid
    rw [← List.card_toFinset, ← List.card_toFinset] at h
    split at h
    next =>
      cases h
      exact fun _ => rfl
    next hge =>
      split at h
      next =>
        cases h
        intro hty
        cases hty
      next hle =>
        -- sets that differ by one peer differ in size
        rcases insert_of_symmDiff_eq_singleton hset.symm with ⟨hnot, hins⟩ | ⟨hnot, hins⟩
        · rw [hins, Finset.card_insert_of_notMem hnot] at hge
          omega
        · rw [hins, Finset.card_insert_of_notMem hnot] at hle
          omega
  next => cases h

theorem PeersChanged.map_eq {S : Type} {n n' : Node S} {change : ConfChange}
    (h : PeersChanged n change n') :
    n'.raftIdToPeerId = changed n.raftIdToPeerId change := by
  unfold changed
  cases h with
  | add hty => simp [hty]
  | remove hty => simp [hty]
  | learner hty => simp [hty]

theorem Routine.impersonal {o : Obs} (h : Routine o) : Impersonal o := by
  cases o with
  | sendTo => exact h
  | proposeConfChange => exact h
  | applyConfChange => exact h
  | _ => trivial

/-- The peers of a new node are under their Raft ids. -/
theorem keyed_of_isNew {S : Type} {node : Node S} (hnew : Sys.IsNew node) :
    Keyed node.raftIdToPeerId := by
  obtain ⟨_, _, peers, _, _, hnew⟩ := hnew
  rw [new_map hnew]
  exact keyed_mapOf peers

section
variable {S : Type} [StorageExt S] [Protobuf] {env : Env} {m₀ : AList fun _ : Nat => PeerId}

theorem addresses_stable :
    Stable env (fun n : Node S => Addresses m₀ n.raftIdToPeerId n.trace) := by
  intro n n' hact hn
  cases hact with
  | note o ho hp => exact hn.snoc ho.impersonal
  | roles => exact hn
  | announce block hp => exact hn.snoc trivial
  | validate b hp => exact hn.snoc trivial
  | confirm b i q u ht hb hq hp =>
    have happlied : Addresses m₀ n.raftIdToPeerId (n.trace ++ [.setApplied i]) := hn.snoc trivial
    exact happlied.files _
  | build hp => exact hn.snoc trivial
  | summarize since hl hdue hp => exact hn.snoc trivial
  | finalize since u hl ht hdue hp => exact hn.snoc trivial
  | persist o ho round phase rest hp hphase => exact hn.files _
  | send msg peerId hmsg hpeer => exact hn.send hmsg hpeer
  | skip e he hp => exact hn.snoc trivial
  | take e he hp => exact hn.snoc trivial
  | reconfigure peers change hchange hp => exact hn.propose (confChangeBetween_named hchange)
  | peers n' change e u ht he hparse h hp =>
    rw [add_trace, h.trace_eq]
    show Addresses m₀ n'.raftIdToPeerId _
    rw [h.map_eq]
    exact hn.apply change
  | commit b hb hp => exact hn.snoc trivial

variable [Formats]

/-- **Run**: the map of peers is the first one with the changes made so far, and every
message went where the map of the time said. -/
theorem run_addresses {node : Node S} (hnew : Sys.IsNew node) (inputs : List Input) :
    Addresses node.raftIdToPeerId ((Sys.start node).run env inputs).node.raftIdToPeerId
      ((Sys.start node).run env inputs).node.trace := by
  refine run_stable_node (I := fun n : Node S =>
    Addresses node.raftIdToPeerId n.raftIdToPeerId n.trace) addresses_stable hnew ?_ inputs
  obtain ⟨_, _, _, _, ops, hnew⟩ := hnew
  obtain ⟨_, rfl⟩ := new_eq hnew
  have hnil : ∀ m, Addresses m m [] := fun m =>
    ⟨rfl, .nil, fun change hc => by simp at hc⟩
  exact (hnil _).files ops

end

/-- **Every message gets to its addressee.** The nodes take their steps in any
order, and carry out no configuration change but those that the group has
proposed. Then what a node hands to `send_to` is one of the messages of its round,
and the peer it is for is a member at that time, and the one whose Raft id the
message bears. -/
theorem messages_reach_addressee {κ S : Type} [DecidableEq κ] [StorageExt S] [Protobuf] [Formats]
    (g : Group κ S) (inputs : List (κ × Input))
    (hraft : ∀ k change, .applyConfChange change ∈ g.traceOf inputs k →
      ∃ k', .proposeConfChange change ∈ g.traceOf inputs k')
    (k : κ) (u : List Obs) (peerId : PeerId) (message : Bytes)
    (hu : u ++ [.sendTo peerId message] <+: g.traceOf inputs k) :
    ∃ round phase rest msg, place u = .inside round phase rest ∧ msg ∈ round.ready.messages ∧
      msg.bytes = message ∧ msg.toId = raftIdOf peerId ∧
      peerId ∈ peersIn (membersAt (g.node k).raftIdToPeerId u) := by
  have haddresses : ∀ k, Addresses (g.node k).raftIdToPeerId
      (g.run inputs k).node.raftIdToPeerId (g.traceOf inputs k) := by
    intro k
    rw [Group.traceOf, Group.run_eq]
    exact run_addresses (g.isNew k) _
  -- what is carried out has been proposed, and what is proposed is well named
  have hnamed : ∀ change, .applyConfChange change ∈ u → change.Named := by
    intro change hc
    have hsub : u ⊆ g.traceOf inputs k := fun o ho => hu.subset (List.mem_append_left _ ho)
    obtain ⟨k', hk'⟩ := hraft k change (hsub hc)
    exact (haddresses k').proposed change hk'
  obtain ⟨msg, hsend, hbytes, hpeer⟩ := (haddresses k).sent.of_concat_prefix hu _ _ rfl
  obtain ⟨round, phase, rest, hp, hmsg, -⟩ := hsend
  have hkeyed := keyed_membersAt (keyed_of_isNew (g.isNew k)) hnamed
  exact ⟨round, phase, rest, msg, hp, hmsg, hbytes, hkeyed _ _ hpeer, mem_peersIn.mpr ⟨_, hpeer⟩⟩

section

open scoped Proto3 PlainFormats

/-- The two peers with which the chain begins. -/
def growingGroup : Group Bool FsStorage where
  env := twoNodes.env
  node := twoNodes.node
  isNew := twoNodes.isNew

/-- Peer 1 confirms block 7, has peer 3 added, and sends it a message. -/
def peerThreeAdded : List (Bool × Input) :=
  leadersInTurn.take 6 ++
    [(false, .processReady (some { isLeader := true, ready :=
        { committedEntries := some (additionLog.entries.drop 1) } })),
      (false, .processReady (some { isLeader := true, ready :=
        { messages := [{ toId := 3, bytes := [9] }] } }))]

/-- Peer 3 was no member at the start, and gets the message. -/
theorem messages_reach_addressee_third :
    peerOf 3 ∉ peersIn (growingGroup.node false).raftIdToPeerId ∧
    ∃ u, u ++ [.sendTo (peerOf 3) [9]] <+: growingGroup.traceOf peerThreeAdded false ∧
      peerOf 3 ∈ peersIn (membersAt (growingGroup.node false).raftIdToPeerId u) := by
  have hmade : ∀ k, changesMade (growingGroup.traceOf peerThreeAdded k)
      = bif k then [] else [addition] := by
    decide +kernel
  have hproposed : .proposeConfChange addition ∈ growingGroup.traceOf peerThreeAdded false := by
    decide +kernel
  have hraft : ∀ k change, .applyConfChange change ∈ growingGroup.traceOf peerThreeAdded k →
      ∃ k', .proposeConfChange change ∈ growingGroup.traceOf peerThreeAdded k' := by
    intro k change hc
    have hmem : change ∈ changesMade (growingGroup.traceOf peerThreeAdded k) :=
      List.mem_filterMap.mpr ⟨_, hc, rfl⟩
    rw [hmade] at hmem
    cases k with
    | true => simp at hmem
    | false =>
      obtain rfl : change = addition := by simpa using hmem
      exact ⟨false, hproposed⟩
  have hsent : .sendTo (peerOf 3) [9] ∈ growingGroup.traceOf peerThreeAdded false := by
    decide +kernel
  obtain ⟨u, w, hu⟩ := List.append_of_mem hsent
  have hprefix : u ++ [.sendTo (peerOf 3) [9]] <+: growingGroup.traceOf peerThreeAdded false :=
    ⟨w, by rw [hu, List.append_assoc]; rfl⟩
  obtain ⟨_, _, _, _, -, -, -, -, hmember⟩ :=
    messages_reach_addressee growingGroup peerThreeAdded hraft false u (peerOf 3) [9] hprefix
  exact ⟨by decide +kernel, u, hprefix, hmember⟩

end

end Node

end SawtoothRaft
