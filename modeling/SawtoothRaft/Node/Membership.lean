import Mathlib.Data.Finset.Basic
import SawtoothRaft.Node.Life

/-!
# Membership changes that are delivered again

The applied index moves with block entries only, while configuration changes
take effect on delivery. After a restart Raft therefore delivers changes again
that have been carried out before, and the map of peers they meet is that of
the setting at the chain head. To add a peer again does no harm. To remove
one that is gone is fatal: `apply_conf_change` unwraps the answer of
`HashMap::remove`.

`ReplayOk` says of a list of entries that each removal finds its node. It is
exactly what a restarted node needs (`replay_survives_iff`), and
`restart_kills_leader` is a run that breaks it: the leader commits a block that
takes a peer off the setting, carries out the change, and cannot be restarted.
-/

namespace SawtoothRaft

open Lib

/-- Each removal among the entries finds its node among the members, as the
entries before it have left them. For the node `own` the entries end with its
own removal, and with a change that cannot be read. -/
def ReplayOk [Protobuf] (own : Nat) : Finset Nat → List Entry → Prop
  | _, [] => True
  | members, e :: es =>
    if Node.IsChange e then
      match Protobuf.confChange.parseFromBytes e.data with
      | none => True
      | some change =>
        match change.changeType with
        | .AddNode => ReplayOk own (insert change.nodeId members) es
        | .RemoveNode => change.nodeId = own ∨
            change.nodeId ∈ members ∧ ReplayOk own (members.erase change.nodeId) es
        | .AddLearnerNode => ReplayOk own members es
    else ReplayOk own members es

namespace Node

variable {S : Type}

/-- The Raft ids in the map of peers. -/
def members (n : Node S) : Finset Nat := n.raftIdToPeerId.keys.toFinset

theorem mem_members {n : Node S} {r : Nat} : r ∈ n.members ↔ r ∈ n.raftIdToPeerId :=
  List.mem_toFinset

/-! ## What a change does to the members -/

theorem members_insert (n : Node S) (r : Nat) (p : PeerId) :
    members { n with raftIdToPeerId := n.raftIdToPeerId.insert r p } = insert r n.members := by
  ext r'
  rw [mem_members, Finset.mem_insert, mem_members]
  exact AList.mem_insert _

theorem members_erase (n : Node S) (r : Nat) :
    members { n with raftIdToPeerId := n.raftIdToPeerId.erase r } = n.members.erase r := by
  ext r'
  rw [mem_members, Finset.mem_erase, mem_members]
  exact AList.mem_erase

/-- The map of peers that `SawtoothRaftNode::new` makes of a list of them. -/
def mapOf (peers : List PeerId) : AList fun _ : Nat => PeerId :=
  peers.foldl (fun m peerId => m.insert (raftIdOf peerId) peerId) ∅

theorem new_map {peerId : PeerId} {store : S} {peers : List PeerId} {period : Nat}
    {trace : List Obs} {n : Node S} (h : Node.new peerId store peers period trace = .ok n) :
    n.raftIdToPeerId = mapOf peers := by
  obtain ⟨pairs, hpairs, h⟩ := bind_eq_ok.mp h
  obtain rfl := Except.ok.inj h
  have hpair : ∀ peerId p, (do
      let raftId ← peerIdToRaftId peerId
      pure (raftId, peerId) : Except Panic (Nat × PeerId)) = .ok p →
      p = (raftIdOf peerId, peerId) := by
    intro peerId p hp
    obtain ⟨raftId, hid, hp⟩ := bind_eq_ok.mp hp
    obtain rfl := Except.ok.inj hp
    rw [(length_of_peerIdToRaftId hid).2]
  obtain rfl := mapM_eq_ok hpair hpairs
  exact List.foldl_map

theorem mem_foldl_insert (r : Nat) (peers : List PeerId) (m : AList fun _ : Nat => PeerId) :
    r ∈ peers.foldl (fun m peerId => m.insert (raftIdOf peerId) peerId) m ↔
      r ∈ peers.map raftIdOf ∨ r ∈ m := by
  induction peers generalizing m with
  | nil => simp
  | cons peerId peers ih =>
    rw [List.foldl_cons, ih, AList.mem_insert, List.map_cons, List.mem_cons, or_assoc,
      or_left_comm]

theorem mem_mapOf (r : Nat) (peers : List PeerId) : r ∈ mapOf peers ↔ r ∈ peers.map raftIdOf :=
  (mem_foldl_insert r peers ∅).trans (or_iff_left (AList.notMem_empty r))

/-- The members of a new node are the peers it is given. -/
theorem new_members {peerId : PeerId} {store : S} {peers : List PeerId} {period : Nat}
    {trace : List Obs} {n : Node S} (h : Node.new peerId store peers period trace = .ok n) :
    n.members = (peers.map raftIdOf).toFinset := by
  ext r
  rw [mem_members, List.mem_toFinset, new_map h]
  exact mem_mapOf r peers

section
variable [Protobuf] {own : Nat} {ids : Finset Nat} {e : Entry} {es : List Entry}
  {change : ConfChange}

theorem replayOk_skip (h : ¬ IsChange e) : ReplayOk own ids (e :: es) ↔ ReplayOk own ids es := by
  rw [ReplayOk, if_neg h]

theorem replayOk_add (h : IsChange e)
    (hparse : Protobuf.confChange.parseFromBytes e.data = some change)
    (hty : change.changeType = .AddNode) :
    ReplayOk own ids (e :: es) ↔ ReplayOk own (insert change.nodeId ids) es := by
  rw [ReplayOk, if_pos h, hparse]
  dsimp only
  rw [hty]

theorem replayOk_remove (h : IsChange e)
    (hparse : Protobuf.confChange.parseFromBytes e.data = some change)
    (hty : change.changeType = .RemoveNode) :
    ReplayOk own ids (e :: es) ↔
      change.nodeId = own ∨ change.nodeId ∈ ids ∧ ReplayOk own (ids.erase change.nodeId) es := by
  rw [ReplayOk, if_pos h, hparse]
  dsimp only
  rw [hty]

theorem replayOk_learner (h : IsChange e)
    (hparse : Protobuf.confChange.parseFromBytes e.data = some change)
    (hty : change.changeType = .AddLearnerNode) :
    ReplayOk own ids (e :: es) ↔ ReplayOk own ids es := by
  rw [ReplayOk, if_pos h, hparse]
  dsimp only
  rw [hty]

theorem replayOk_malformed (h : IsChange e)
    (hparse : Protobuf.confChange.parseFromBytes e.data = none) :
    ReplayOk own ids (e :: es) := by
  rw [ReplayOk, if_pos h, hparse]
  trivial

end

/-! ## The condition is enough -/

/-- Whatever is still to come of `es` can be taken up. -/
def Replaying [Protobuf] (es : List Entry) (n : Node S) : Prop :=
  ∀ rest, es = (books n.trace).entries ++ rest → ReplayOk (raftIdOf n.peerId) n.members rest

section
variable [StorageExt S] [Protobuf] {es : List Entry}

omit [Protobuf] in
/-- Observations other than entries change nothing. -/
theorem entries_of_plain {o : Obs} (h : ∀ e, o ≠ .entry e) (t : List Obs) :
    (books (t ++ [o])).entries = (books t).entries := by
  rw [books_snoc]
  cases o with
  | entry e => exact absurd rfl (h e)
  | _ => rfl

theorem replaying_steady (es : List Entry) : Steady (Replaying es : Node S → Prop) where
  leader _ _ h := h
  follower _ _ h := h
  queue _ _ h := h
  stored n o _ h := by
    intro rest hes
    rw [stored_trace, books_files] at hes
    exact h rest hes
  record n o ho h := by
    intro rest hes
    rw [add_trace, entries_of_plain ho.ne_entry] at hes
    exact h rest hes
  confirmed n i q h := by
    intro rest hes
    refine h rest (hes.trans ?_)
    show (books (n.trace ++ [.setApplied i] ++ _)).entries ++ rest = _
    rw [books_files, entries_of_plain (by simp)]

/-- How an unknown peer can be removed: not while following `es`. -/
def Strayed (es : List Entry) (p : Panic) (n : Node S) : Prop :=
  p = .unknownPeerRemoved → ¬ (books n.trace).entries <+: es

omit [StorageExt S] in
theorem replaying_fails (es : List Entry) : Fails (Strayed es) (Replaying es : Node S → Prop) := by
  intro p n hp _ h
  obtain rfl := h
  exact absurd trivial hp

omit [StorageExt S] in
/-- The next entry, if it is that of `es`. -/
theorem Replaying.next {n : Node S} (h : Replaying es n) {e : Entry} {rest : List Entry}
    (hes : es = (books (n.add (.entry e)).trace).entries ++ rest) :
    ReplayOk (raftIdOf n.peerId) n.members (e :: rest) := by
  refine h (e :: rest) (hes.trans ?_)
  rw [add_trace, books_snoc]
  exact List.append_assoc ..

theorem replaying_takes (es : List Entry) :
    Takes (S := S) (fun _ => Replaying es) (fun _ => Replaying es) (fun _ => True) (Strayed es) where
  tame _ := (replaying_steady es).tame
  fails _ := replaying_fails es
  skip e _ n _ hc h rest hes := (replayOk_skip hc).mp (h.next hes)
  block e _ n hb h rest hes :=
    (replayOk_skip (e := e) fun hc => isChange_not_isBlock hc hb).mp (h.next hes)
  change e _ n change n' hc hparse hp h := by
    intro rest hes
    cases hp with
    | add hty =>
      rw [members_insert]
      exact (replayOk_add hc hparse hty).mp (h.next hes)
    | remove hty hown peerId hp =>
      rw [members_erase]
      -- a removal of its own would have ended the replay
      rcases (replayOk_remove hc hparse hty).mp (h.next hes) with hself | ⟨-, hrest⟩
      · exact absurd hself hown
      · exact hrest
    | learner hty => exact (replayOk_learner hc hparse hty).mp (h.next hes)
  shutdown _ _ _ _ _ _ _ _ := trivial
  unknown e _ n change hc hparse hu h := by
    intro _ h
    obtain ⟨rest, hes⟩ := h
    obtain ⟨hty, hown, hnone⟩ := hu
    rcases (replayOk_remove hc hparse hty).mp (h.next hes.symm) with hself | ⟨hmem, -⟩
    · exact hown hself
    · exact AList.lookup_eq_none.mp hnone (mem_members.mp hmem)
  malformed e _ n p _ hp h := by
    intro h
    obtain rfl := h
    exact absurd trivial hp

end

/-! ## The condition is necessary -/

section
variable [Protobuf] {env : Env} {n : Node S} {e : Entry} {es : List Entry} {change : ConfChange}

/-- A follower that goes on after the entry `e`. -/
structure GoesOn (env : Env) (n : Node S) (e : Entry) (n' : Node S) : Prop where
  result : deliverEntry env e n = .ok .Continue n'
  leader : n'.leaderState = none
  peerId : n'.peerId = n.peerId
  entries : (books n'.trace).entries = (books n.trace).entries ++ [e]

theorem goesOn_skip (hl : n.leaderState = none) (hb : ¬ IsBlock e) (hc : ¬ IsChange e) :
    GoesOn env n e (n.add (.entry e)) := by
  refine ⟨?_, hl, rfl, by rw [add_trace, books_snoc]; rfl⟩
  unfold deliverEntry
  by_cases hdata : e.data = []
  · rw [if_pos hdata]
    rfl
  · rw [if_neg hdata]
    cases hty : e.entryType with
    | EntryNormal => exact absurd ⟨hdata, hty⟩ hb
    | EntryConfChange =>
      have hterm : e.term = 1 := by
        by_contra hterm
        exact hc ⟨hdata, hty, hterm⟩
      dsimp only
      rw [if_pos hterm]
      rfl

theorem goesOn_block (hl : n.leaderState = none) (hb : IsBlock e) :
    GoesOn env n e ((n.add (.entry e)).enqueue e) := by
  refine ⟨?_, hl, rfl, ?_⟩
  · unfold deliverEntry
    rw [if_neg hb.1, hb.2]
    rfl
  · show (books (n.trace ++ [.entry e])).entries = _
    rw [books_snoc]
    rfl

theorem deliverEntry_change (hc : IsChange e) :
    deliverEntry env e n = deliverConfChange env e (n.add (.entry e)) := by
  unfold deliverEntry
  rw [if_neg hc.1, hc.2.1]
  dsimp only
  rw [if_neg hc.2.2]
  rfl

omit [Protobuf] in
theorem updatePeers_add (hty : change.changeType = .AddNode) :
    updatePeers change n = .ok .Continue
      { n with raftIdToPeerId := n.raftIdToPeerId.insert change.nodeId change.context } := by
  unfold updatePeers
  rw [hty]
  rfl

omit [Protobuf] in
/-- A removal, by whether it is that of the node itself, and else by whether
the peer is known. -/
theorem updatePeers_remove (hty : change.changeType = .RemoveNode) (hlen : 8 ≤ n.peerId.length) :
    updatePeers change n = if change.nodeId = raftIdOf n.peerId then .ok .Shutdown n
      else match n.raftIdToPeerId.lookup change.nodeId with
        | some _ => .ok .Continue
            { n with raftIdToPeerId := n.raftIdToPeerId.erase change.nodeId }
        | none => .error .unknownPeerRemoved n := by
  have hid : peerIdToRaftId n.peerId = .ok (raftIdOf n.peerId) := peerIdToRaftId_eq hlen
  have hread : updatePeers change n = (do
      let own ← expect (peerIdToRaftId n.peerId)
      if change.nodeId = own then pure .Shutdown
      else
        match n.raftIdToPeerId.lookup change.nodeId with
        | some _ => do
          modify fun n => { n with raftIdToPeerId := n.raftIdToPeerId.erase change.nodeId }
          pure .Continue
        | none => throw .unknownPeerRemoved : NodeM S ReadyStatus) n := by
    unfold updatePeers
    rw [hty]
    rfl
  rw [hread, hid, show expect (.ok (raftIdOf n.peerId)) = (pure (raftIdOf n.peerId) : NodeM S Nat)
    from rfl, pure_bind]
  by_cases hown : change.nodeId = raftIdOf n.peerId
  · rw [if_pos hown, if_pos hown]
    rfl
  · rw [if_neg hown, if_neg hown]
    cases n.raftIdToPeerId.lookup change.nodeId with
    | some p => rfl
    | none => rfl

omit [Protobuf] in
/-- Raft is told of a change that the map has followed. -/
theorem applyConfChange_eq : applyConfChange change n = match updatePeers change n with
    | .ok .Continue n' => .ok .Continue (n'.add (.applyConfChange change))
    | .ok .Shutdown n' => .ok .Shutdown n'
    | .error p n' => .error p n' := by
  unfold applyConfChange
  cases h : updatePeers change n with
  | ok status n' =>
    rw [bind_of_ok h]
    cases status with
    | Continue => rfl
    | Shutdown => rfl
  | error p n' => exact bind_of_error h

theorem goesOn_change {n' : Node S} (hl : n.leaderState = none) (hc : IsChange e)
    (hparse : Protobuf.confChange.parseFromBytes e.data = some change)
    (hupdate : updatePeers change (n.add (.entry e)) = .ok .Continue n')
    (hp : PeersChanged (n.add (.entry e)) change n') :
    GoesOn env n e (n'.add (.applyConfChange change)) := by
  have hn' : n'.leaderState = none ∧ n'.peerId = n.peerId ∧ n'.trace = n.trace ++ [.entry e] := by
    cases hp with
    | add => exact ⟨hl, rfl, rfl⟩
    | remove => exact ⟨hl, rfl, rfl⟩
    | learner => exact ⟨hl, rfl, rfl⟩
  have happly : applyConfChange change (n.add (.entry e))
      = .ok .Continue (n'.add (.applyConfChange change)) := by
    rw [applyConfChange_eq, hupdate]
  refine ⟨?_, hn'.1, hn'.2.1, ?_⟩
  · rw [deliverEntry_change hc]
    unfold deliverConfChange
    rw [hparse]
    refine (bind_of_ok happly).trans ?_
    show (if n'.leaderState = some .changingConfig then _ else _ : NodeM S ReadyStatus) _ = _
    rw [if_neg (by rw [hn'.1]; simp)]
    rfl
  · rw [add_trace, entries_of_plain (by simp), hn'.2.2, books_snoc]
    rfl

/-- Unless the next entries can be taken up, a follower goes on or dies of an
unknown peer. -/
theorem deliverEntry_of_not_ok (hl : n.leaderState = none) (hlen : 8 ≤ n.peerId.length)
    (h : ¬ ReplayOk (raftIdOf n.peerId) n.members (e :: es)) :
    deliverEntry env e n = .error .unknownPeerRemoved (n.add (.entry e)) ∨
      ∃ n', GoesOn env n e n' ∧ ¬ ReplayOk (raftIdOf n.peerId) n'.members es := by
  by_cases hc : IsChange e
  · cases hparse : Protobuf.confChange.parseFromBytes e.data with
    | none => exact absurd (replayOk_malformed hc hparse) h
    | some change =>
      cases hty : change.changeType with
      | AddNode =>
        rw [replayOk_add hc hparse hty, ← members_insert n _ change.context] at h
        exact Or.inr ⟨_, goesOn_change hl hc hparse (updatePeers_add hty) (.add hty), h⟩
      | AddLearnerNode =>
        rw [replayOk_learner hc hparse hty] at h
        refine Or.inr ⟨_, goesOn_change hl hc hparse ?_ (.learner hty), h⟩
        unfold updatePeers
        rw [hty]
        rfl
      -- the removal of the node itself is fine, so it is another's
      | RemoveNode =>
        rw [replayOk_remove hc hparse hty] at h
        obtain ⟨hown, h⟩ := not_or.mp h
        have hupdate := (updatePeers_remove (n := n.add (.entry e)) hty hlen).trans (if_neg hown)
        cases hp : n.raftIdToPeerId.lookup change.nodeId with
        | some peerId =>
          rw [show (n.add (.entry e)).raftIdToPeerId = n.raftIdToPeerId from rfl, hp] at hupdate
          have hmem : change.nodeId ∈ n.members := by
            rw [mem_members, ← AList.lookup_isSome, hp]
            rfl
          refine Or.inr ⟨_, goesOn_change hl hc hparse hupdate (.remove hty hown peerId hp), ?_⟩
          intro hok
          rw [← members_erase] at h
          exact h ⟨hmem, hok⟩
        -- nobody of that id: this is where it dies
        | none =>
          rw [show (n.add (.entry e)).raftIdToPeerId = n.raftIdToPeerId from rfl, hp] at hupdate
          left
          rw [deliverEntry_change hc]
          unfold deliverConfChange
          rw [hparse]
          refine bind_of_error ?_
          rw [applyConfChange_eq, hupdate]
  · rw [replayOk_skip hc] at h
    by_cases hb : IsBlock e
    · exact Or.inr ⟨_, goesOn_block hl hb, h⟩
    · exact Or.inr ⟨_, goesOn_skip hl hb hc, h⟩

theorem deliver_cons {n' : Node S} (h : deliverEntry env e n = .ok .Continue n') :
    deliver env (e :: es) n = deliver env es n' :=
  bind_of_ok h

/-- Unless the entries can be taken up, a follower dies of an unknown peer on
the way. -/
theorem deliver_of_not_ok (hl : n.leaderState = none) (hlen : 8 ≤ n.peerId.length)
    (h : ¬ ReplayOk (raftIdOf n.peerId) n.members es) :
    ∃ n' pre, deliver env es n = .error .unknownPeerRemoved n' ∧ pre <+: es ∧
      (books n'.trace).entries = (books n.trace).entries ++ pre := by
  induction es generalizing n with
  | nil => exact absurd trivial h
  | cons e es ih =>
    rcases deliverEntry_of_not_ok hl hlen h with herror | ⟨n', hgoes, hnot⟩
    · exact ⟨n.add (.entry e), [e], bind_of_error herror, ⟨es, rfl⟩,
        by rw [add_trace, books_snoc]; rfl⟩
    · rw [deliver_cons hgoes.result]
      obtain ⟨n'', pre, hdeliver, hpre, hentries⟩ :=
        ih hgoes.leader (hgoes.peerId ▸ hlen) (hgoes.peerId ▸ hnot)
      refine ⟨n'', e :: pre, hdeliver, List.cons_prefix_cons.mpr ⟨rfl, hpre⟩, ?_⟩
      rw [hentries, hgoes.entries, List.append_assoc]
      rfl

end

/-- A round in which a follower is given entries and nothing else. -/
def redelivery (es : List Entry) : Round :=
  { isLeader := false, ready := { committedEntries := some es } }

section
variable [StorageExt S] [Protobuf] [Formats]

omit [Formats] in
/-- An idle follower takes up the entries at once. -/
theorem processReady_redelivery {n : Node S} (hl : n.leaderState = none) (es : List Entry) :
    processReady (Env.obliging [] fun _ _ => none) (some (redelivery es)) n
      = (deliver (Env.obliging [] fun _ _ => none) es
          >>= afterEntries (Env.obliging [] fun _ _ => none)) (n.add (.ready (redelivery es))) := by
  obtain ⟨peerId, store, l, f, q, m, period, t⟩ := n
  obtain rfl : l = none := hl
  rfl

/-- The only thing that can happen to a new node in such a round is that an
entry kills it. -/
theorem run_redelivery_of_not_ok {n : Node S} (hl : n.leaderState = none)
    (hlen : 8 ≤ n.peerId.length) (htrace : n.trace = []) {es : List Entry}
    (h : ¬ ReplayOk (raftIdOf n.peerId) n.members es) :
    ∃ env inputs, (books ((Sys.start n).run env inputs).node.trace).entries <+: es ∧
      ((Sys.start n).run env inputs).status = .panicked .unknownPeerRemoved := by
  obtain ⟨n', pre, hdeliver, hpre, hentries⟩ :=
    deliver_of_not_ok (n := n.add (.ready (redelivery es))) hl hlen h
  have hround : processReady (Env.obliging [] fun _ _ => none) (some (redelivery es)) n
      = .error .unknownPeerRemoved n' := by
    rw [processReady_redelivery hl]
    exact bind_of_error hdeliver
  have hrun : (Sys.start n).run (Env.obliging [] fun _ _ => none)
      [.processReady (some (redelivery es))] = ⟨n', .panicked .unknownPeerRemoved⟩ := by
    show Sys.after (processReady (Env.obliging [] fun _ _ => none) (some (redelivery es)) n) = _
    rw [hround]
    rfl
  refine ⟨Env.obliging [] fun _ _ => none, [.processReady (some (redelivery es))], ?_, ?_⟩
  · rw [hrun, hentries, add_trace, entries_of_plain (by simp), htrace]
    exact hpre
  · rw [hrun]

end

/-! ## Restarts -/

/-- **A restarted node survives, exactly if each removal finds its node.** The
node is started on any directory, with the peers of the setting at the chain
head; the entries beyond the applied index are delivered to it, in any way.
It never dies of the removal of an unknown peer if and only if each removal
among these entries, up to its own, finds its node among those peers, as the
entries before it have changed them. -/
theorem replay_survives_iff [Protobuf] [Formats] {C : Type → Type} [LruCache cacheSize C]
    {raftDefault : RaftConfig} {d : Dir} {peerId : PeerId} {settings : Settings}
    {peers : List PeerId} {node : Node (CachedStorage C FsStorage)} {applied : Nat}
    (log : CommittedLog)
    (hstart : startEngine C raftDefault d peerId (.ok settings) = .ok (node, applied))
    (hpeers : getPeersFromSettings settings = .ok peers) :
    (∀ env inputs,
      (books ((Sys.start node).run env inputs).node.trace).entries <+: log.after applied →
      ((Sys.start node).run env inputs).status ≠ .panicked .unknownPeerRemoved) ↔
    ReplayOk (raftIdOf peerId) (peers.map raftIdOf).toFinset (log.after applied) := by
  obtain ⟨s, peers', hs, hpeers', hstarted⟩ := startEngine_eq_ok hstart
  obtain rfl := Except.ok.inj hs
  obtain rfl := Except.ok.inj (hpeers.symm.trans hpeers')
  obtain ⟨hnew, htrace⟩ := hstarted.isNew
  obtain ⟨period, hnode⟩ := hstarted.new
  rw [← new_members hnode]
  obtain ⟨hl, hid⟩ : node.leaderState = none ∧ node.peerId = peerId := by
    obtain ⟨_, hnode⟩ := new_eq hnode
    rw [hnode]
    exact ⟨rfl, rfl⟩
  constructor
  · intro hsafe
    -- otherwise one round that delivers all of them kills it
    by_contra hnot
    rw [← hid] at hnot
    obtain ⟨env, inputs, hentries, hstatus⟩ :=
      run_redelivery_of_not_ok hl (hid ▸ hstarted.length) htrace hnot
    exact hsafe env inputs hentries hstatus
  · intro hok env inputs hentries hstatus
    -- nothing has been taken up yet, so all of the entries are still to come
    have hreplaying : Replaying (log.after applied) node := by
      intro rest hrest
      rw [htrace] at hrest
      rw [hid, ← show log.after applied = rest from hrest]
      exact hok
    have hrun : ((Sys.start node).run env inputs).Sat (Replaying (log.after applied))
        (Halted (fun _ => True) (Strayed (log.after applied))) :=
      run_steady (replaying_steady _) (replaying_takes _) (fun _ _ => nofun) hnew
        hreplaying inputs
    unfold Sys.Sat at hrun
    rw [hstatus] at hrun
    exact hrun rfl hentries

section

open scoped Proto3 PlainFormats

/-- Block 7 takes the third of three peers off the network. -/
def settingsAt (blockId : BlockId) : Settings := fun key =>
  if key = peersKey then
    some (if blockId = [7] then "[\"0000000000000001\",\"0000000000000002\"]"
      else "[\"0000000000000001\",\"0000000000000002\",\"0000000000000003\"]")
  else if key = "sawtooth.consensus.raft.period" then some "0"
  else none

def removal : ConfChange := { changeType := .RemoveNode, nodeId := 3 }

/-- The block, and the change that follows from it. -/
def removalLog : CommittedLog where
  entries := [{ term := 2, index := 3, data := [7] },
    { entryType := .EntryConfChange, term := 2, index := 4,
      data := Protobuf.confChange.writeToBytes removal }]
  increasing := by decide
  positive := by decide
  u64 := by decide

/-- While the setting still has the peer, the change can be delivered. -/
theorem replay_survives_beforehand :
    letI := listLru cacheSize
    ∃ node, startEngine List {} emptyDir (peerOf 1) (.ok (settingsAt [])) = .ok (node, 0) ∧
      ∀ env inputs,
        (books ((Sys.start node).run env inputs).node.trace).entries <+: removalLog.after 0 →
        ((Sys.start node).run env inputs).status ≠ .panicked .unknownPeerRemoved := by
  let _ := listLru cacheSize
  have hpeers : getPeersFromSettings (settingsAt []) = .ok [peerOf 1, peerOf 2, peerOf 3] := by
    decide +kernel
  have happlied : (startEngine List {} emptyDir (peerOf 1) (.ok (settingsAt []))).map (·.2) = .ok 0 := by
    decide +kernel
  cases hstart : startEngine List {} emptyDir (peerOf 1) (.ok (settingsAt [])) with
  | error p => rw [hstart] at happlied; exact nomatch happlied
  | ok p =>
    obtain ⟨node, applied⟩ := p
    rw [hstart] at happlied
    obtain rfl : applied = 0 := Except.ok.inj happlied
    refine ⟨node, rfl, (replay_survives_iff removalLog hstart hpeers).mpr ?_⟩
    have hparse : Protobuf.confChange.parseFromBytes (Protobuf.confChange.writeToBytes removal)
        = some removal := Protobuf.confChange.parse_write removal
    refine (replayOk_skip (by decide)).mpr ((replayOk_remove (by decide) hparse rfl).mpr ?_)
    exact Or.inr ⟨by decide +kernel, trivial⟩

/-- The leader builds and commits block 7, proposes the removal that follows
from it, and carries it out. -/
def leaderSession : List Input :=
  [.processReady (some { isLeader := true }), .tick, .blockNew { blockId := [7] },
    .blockValid [7],
    .processReady (some { isLeader := true, ready :=
      { committedEntries := some (removalLog.entries.take 1) } }),
    .blockCommit [7],
    .processReady (some { isLeader := true, ready :=
      { committedEntries := some (removalLog.entries.drop 1) } })]

def leaderTrace : List Obs := traceOf (sessionOn settingsAt [] emptyDir leaderSession)

/-- The same session again, on the directory it has left and with the settings
of block 7: the one entry to be delivered again kills the node, which is not
the one removed. -/
theorem restart_kills_leader :
    letI := listLru cacheSize
    Life List removalLog [leaderTrace] ∧
    sessionOn settingsAt [] emptyDir leaderSession = .ok (leaderTrace, 0, .running) ∧
    .proposeConfChange removal ∈ leaderTrace ∧ .applyConfChange removal ∈ leaderTrace ∧
    settled leaderTrace = [([7], 3)] ∧ removal.nodeId ≠ raftIdOf (peerOf 1) ∧
    ∃ t, sessionOn settingsAt [7] (dirAt leaderTrace)
        [.processReady (some (redelivery (removalLog.after 3)))]
      = .ok (t, 3, .panicked .unknownPeerRemoved) := by
  let _ := listLru cacheSize
  have hsession : sessionOn settingsAt [] emptyDir leaderSession = .ok (leaderTrace, 0, .running) := by
    decide +kernel
  have hlife : Life List removalLog ([] ++ [leaderTrace.take leaderTrace.length]) :=
    Life.nil.crash (session_of_sessionOn hsession (by decide +kernel)) _
  rw [List.take_length, List.nil_append] at hlife
  have hdone : .proposeConfChange removal ∈ leaderTrace ∧ .applyConfChange removal ∈ leaderTrace ∧
      settled leaderTrace = [([7], 3)] := by
    decide +kernel
  refine ⟨hlife, hsession, hdone.1, hdone.2.1, hdone.2.2, by decide +kernel, ?_⟩
  exact ⟨traceOf (sessionOn settingsAt [7] (dirAt leaderTrace)
    [.processReady (some (redelivery (removalLog.after 3)))]), by decide +kernel⟩

end

end Node

end SawtoothRaft
