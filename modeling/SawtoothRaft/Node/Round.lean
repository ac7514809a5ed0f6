import SawtoothRaft.Node.Spec

/-!
# What the phases of a round do

`process_ready` goes through the same phases every time: step up or down,
store what Raft wants stored, take up the committed entries one by one, commit
the next block. As in `Spec`, each phase is described by what it does to the
roles, for any assertion about the rest of the node. The loop over the entries
has an assertion for each list of entries still to come (`Takes`).
-/

namespace SawtoothRaft

open Lib

namespace Node

variable {S : Type} [StorageExt S] {l : Option LeaderState} {f : Option FollowerState}
  {G : Node S → Prop} {E : Panic → Node S → Prop}

/-! ## Stepping up and down, sending, storing -/

theorem sendMsg_at {env : Env} (tame : Tame G) (hE : Fails E G) (msg : RaftMessage) :
    Triple (At l f G) (sendMsg env msg) (fun _ => At l f G) E := by
  refine Triple.read fun n hn => ?_
  refine Triple.pre ?_ (fun s (hs : s = n) => hs ▸ hn)
  split
  · refine Triple.bind (tryCall_at fun n hn => tame.silent n _ trivial hn) fun r => ?_
    split
    · exact Triple.pure fun _ hn => hn
    · exact Triple.pure fun _ hn => hn
    · exact Triple.throw fun n hn => hE _ n (by simp [Panic.Avoidable]) hn.rest
  · exact Triple.pure fun _ hn => hn

theorem persist_at {env : Env} (tame : Tame G) (hE : Fails E G) (ready : Ready) :
    Triple (At l f G) (persist env ready) (fun _ => At l f G) E := by
  refine Triple.bind (R := fun _ => At l f G) ?_ fun _ =>
    Triple.bind (R := fun _ => At l f G) ?_ fun _ => ?_
  · unfold persistSnapshot
    split
    · exact Triple.pure fun _ hn => hn
    · exact storeCall_at (fun n hn => tame.stored n _ (.applySnapshot _) hn) hE
  · unfold persistEntries
    split
    · exact Triple.pure fun _ hn => hn
    · exact storeCall_at (fun n hn => tame.stored n _ (.append _) hn) hE
  · unfold persistHardState
    split
    · exact storeCall_at (fun n hn => tame.stored n _ (.setHardstate _) hn) hE
    · exact Triple.pure fun _ hn => hn

/-- The roles after the step up of a leader. -/
inductive Promoted : Option LeaderState → Option FollowerState →
    Option LeaderState → Option FollowerState → Prop
  | already (st : LeaderState) (f : Option FollowerState) : Promoted (some st) f (some st) f
  | committing (b : BlockId) : Promoted none (some (.committing b)) (some (.committing b)) none
  | building (f : Option FollowerState) (hf : ∀ b, f ≠ some (.committing b)) (since : Nat) :
    Promoted none f (some (.building since)) none

/-- The roles after the step down of a leader. -/
inductive Demoted : Option LeaderState → Option FollowerState → Option FollowerState → Prop
  | already (f : Option FollowerState) : Demoted none f f
  | committing (b : BlockId) (f : Option FollowerState) :
    Demoted (some (.committing b)) f (some (.committing b))
  | idle (st : LeaderState) (hst : ∀ b, st ≠ .committing b) : Demoted (some st) none (some .idle)
  | keeps (st : LeaderState) (hst : ∀ b, st ≠ .committing b) (f : FollowerState) :
    Demoted (some st) (some f) (some f)

/-- The follower state that `abandon` leaves behind. -/
def handedOver (st : LeaderState) (f : Option FollowerState) : Option FollowerState :=
  match st with
  | .committing b => some (.committing b)
  | _ => f

/-- A follower that is not committing has to be allowed to start building. -/
theorem stepUp_at {env : Env} (tame : Tame G) (hE : Fails E G)
    (h : l = none → (∀ b, f ≠ some (.committing b)) →
      ∀ n, G n → G (n.add (.initializeBlock n.blockQueue.commitQueue))) :
    Triple (At l f G) (stepUp env) (fun _ n => ∃ l' f', Promoted l f l' f' ∧ At l' f' G n) E := by
  refine Triple.read fun n hn => ?_
  refine Triple.pre ?_ (fun s (hs : s = n) => hs ▸ hn)
  rw [hn.leader, hn.follower]
  cases l with
  | some st =>
    rw [if_neg (by simp)]
    exact Triple.pure fun n hn => ⟨some st, f, .already st f, hn⟩
  | none =>
    rw [if_pos rfl]
    -- a follower that is committing takes its block along
    by_cases hf : ∃ b, f = some (.committing b)
    · obtain ⟨b, rfl⟩ := hf
      refine Triple.bind (setLeaderState_at tame _) fun _ => ?_
      exact (setFollowerState_at tame none).conseq (fun _ h => h)
        (fun _ n hn => ⟨_, _, .committing b, hn⟩) (fun _ _ h => h)
    · have hf' : ∀ b, f ≠ some (.committing b) := fun b hb => hf ⟨b, hb⟩
      have htake : takeOver env f = (startBuilding env : NodeM S Unit) := by
        unfold takeOver
        split
        next b => exact absurd rfl (hf' b)
        next => rfl
      rw [htake]
      refine Triple.bind (startBuilding_at tame (h rfl hf') hE) fun _ => ?_
      refine Triple.intro fun since => ?_
      exact (setFollowerState_at tame none).conseq (fun _ h => h)
        (fun _ n hn => ⟨_, _, .building f hf' since, hn⟩) (fun _ _ h => h)

theorem stepDown_at {env : Env} (tame : Tame G) (hE : Fails E G) :
    Triple (At l f G) (stepDown env) (fun _ n => ∃ f', Demoted l f f' ∧ At none f' G n) E := by
  refine Triple.read fun n hn => ?_
  refine Triple.pre ?_ (fun s (hs : s = n) => hs ▸ hn)
  rw [hn.leader]
  cases l with
  | none =>
    rw [if_pos rfl]
    exact Triple.pure fun n hn => ⟨f, .already f, hn⟩
  | some st =>
    rw [if_neg (by simp)]
    -- the follower state left by `abandon`, and then the one left at the end
    have habandon : Triple (At (some st) f G) (abandon env (some st))
        (fun _ => At (some st) (handedOver st f) G) E := by
      cases st with
      | building since => exact expectCall_at (fun n hn => tame.silent n _ trivial hn) hE
      | committing b => exact setFollowerState_at tame _
      | _ => exact Triple.pure fun _ hn => hn
    refine Triple.bind habandon fun _ => Triple.bind (setLeaderState_at tame none) fun _ => ?_
    refine Triple.read fun n hn => ?_
    refine Triple.pre ?_ (fun s (hs : s = n) => hs ▸ hn)
    rw [hn.follower]
    by_cases hst : ∃ b, st = .committing b
    · obtain ⟨b, rfl⟩ := hst
      rw [if_neg (by simp [handedOver])]
      exact Triple.pure fun n hn => ⟨_, .committing b f, hn⟩
    · have hst' : ∀ b, st ≠ .committing b := fun b hb => hst ⟨b, hb⟩
      have hkeep : handedOver st f = f := by
        cases st with
        | committing b => exact absurd rfl (hst' b)
        | _ => rfl
      rw [hkeep]
      cases f with
      | none =>
        rw [if_pos rfl]
        exact (setFollowerState_at tame _).conseq (fun _ h => h)
          (fun _ n hn => ⟨_, .idle st hst', hn⟩) (fun _ _ h => h)
      | some f =>
        rw [if_neg (by simp)]
        exact Triple.pure fun n hn => ⟨_, .keeps st hst' f, hn⟩

/-- The roles after the parts of a round that come before the entries. -/
def RoleChange (round : Round) (l : Option LeaderState) (f : Option FollowerState)
    (l' : Option LeaderState) (f' : Option FollowerState) : Prop :=
  if round.isLeader then Promoted l f l' f' else l' = none ∧ Demoted l f f'

/-- Everything in a round that comes before the committed entries. -/
theorem beforeEntries_at {env : Env} {round : Round} (tame : Tame G) (hE : Fails E G)
    (h : round.isLeader = true → l = none → (∀ b, f ≠ some (.committing b)) →
      ∀ n, G n → G (n.add (.initializeBlock n.blockQueue.commitQueue))) :
    Triple (At l f G) (do leaderPart env round; persist env round.ready; followerPart env round)
      (fun _ n => ∃ l' f', RoleChange round l f l' f' ∧ At l' f' G n) E := by
  have hsends : ∀ {l f}, Triple (At l f G) (round.ready.messages.forM (sendMsg env))
      (fun _ => At l f G) E := Triple.forM _ fun msg _ => sendMsg_at tame hE msg
  unfold leaderPart followerPart RoleChange
  cases hr : round.isLeader with
  -- a leader sends before it persists, a follower afterwards
  | true =>
    rw [if_pos rfl, if_pos rfl]
    refine Triple.bind (R := fun _ n => ∃ l' f', Promoted l f l' f' ∧ At l' f' G n) ?_ fun _ => ?_
    · refine Triple.bind (stepUp_at tame hE (h hr)) fun _ => ?_
      refine Triple.intro fun l' => Triple.intro fun f' => ?_
      intro n ⟨hp, hn⟩
      exact (hsends.conseq (fun _ h => h) (fun _ _ h => ⟨l', f', hp, h⟩) (fun _ _ h => h)) n hn
    · refine Triple.intro fun l' => Triple.intro fun f' => ?_
      intro n ⟨hp, hn⟩
      refine (Triple.bind (persist_at tame hE _) fun _ => ?_) n hn
      exact Triple.pure fun n hn => ⟨l', f', hp, hn⟩
  | false =>
    rw [if_neg (by simp), if_neg (by simp)]
    refine Triple.bind (R := fun _ => At l f G) (Triple.pure fun _ hn => hn) fun _ => ?_
    refine Triple.bind (persist_at tame hE _) fun _ => ?_
    refine Triple.bind (stepDown_at tame hE) fun _ => ?_
    refine Triple.intro fun f' => ?_
    intro n ⟨hd, hn⟩
    exact (hsends.conseq (fun _ h => h) (fun _ _ h => ⟨none, f', ⟨rfl, hd⟩, h⟩)
      (fun _ _ h => h)) n hn

/-! ## The committed entries -/

/-- An entry that holds a block id. -/
def IsBlock (e : Entry) : Prop := e.data ≠ [] ∧ e.entryType = .EntryNormal

/-- An entry whose configuration change is carried out. -/
def IsChange (e : Entry) : Prop := e.data ≠ [] ∧ e.entryType = .EntryConfChange ∧ e.term ≠ 1

instance (e : Entry) : Decidable (IsBlock e) := inferInstanceAs (Decidable (_ ∧ _))

instance (e : Entry) : Decidable (IsChange e) := inferInstanceAs (Decidable (_ ∧ _))

/-- The node with the block of an entry at the end of its queue. -/
def enqueue (n : Node S) (e : Entry) : Node S :=
  { n with blockQueue := n.blockQueue.addBlockCommit e.data e.index }

/-- The change takes the node's own id away. -/
def RemovesOwn (n : Node S) (change : ConfChange) : Prop :=
  change.changeType = .RemoveNode ∧ change.nodeId = raftIdOf n.peerId

/-- The change takes away a peer that is not in the map. -/
def RemovesUnknown (n : Node S) (change : ConfChange) : Prop :=
  change.changeType = .RemoveNode ∧ change.nodeId ≠ raftIdOf n.peerId ∧
    n.raftIdToPeerId.lookup change.nodeId = none

/-- How the map of peers follows a change. -/
inductive PeersChanged (n : Node S) (change : ConfChange) : Node S → Prop
  | add (h : change.changeType = .AddNode) : PeersChanged n change
      { n with raftIdToPeerId := n.raftIdToPeerId.insert change.nodeId change.context }
  | remove (h : change.changeType = .RemoveNode) (hown : change.nodeId ≠ raftIdOf n.peerId)
      (peerId : PeerId) (hp : n.raftIdToPeerId.lookup change.nodeId = some peerId) :
      PeersChanged n change { n with raftIdToPeerId := n.raftIdToPeerId.erase change.nodeId }
  | learner (h : change.changeType = .AddLearnerNode) : PeersChanged n change n

variable [Protobuf]

/-- What has to be shown of an assertion `G rest` about the entries still to be
taken up: each entry takes `G` on. Once a change has been carried out, `C`
holds. A node that is removed itself stops under `K`. -/
structure Takes (G C : List Entry → Node S → Prop) (K : Node S → Prop)
    (E : Panic → Node S → Prop) : Prop where
  tame : ∀ es, Tame (C es)
  fails : ∀ es, Fails E (C es)
  skip : ∀ e es n, ¬ IsBlock e → ¬ IsChange e → G (e :: es) n → G es (n.add (.entry e))
  block : ∀ e es n, IsBlock e → G (e :: es) n → G es ((n.add (.entry e)).enqueue e)
  change : ∀ e es n change n', IsChange e → Protobuf.confChange.parseFromBytes e.data = some change →
    PeersChanged (n.add (.entry e)) change n' → G (e :: es) n → C es n'
  shutdown : ∀ e es n change, IsChange e → Protobuf.confChange.parseFromBytes e.data = some change →
    RemovesOwn n change → G (e :: es) n → K (n.add (.entry e))
  unknown : ∀ e es n change, IsChange e → Protobuf.confChange.parseFromBytes e.data = some change →
    RemovesUnknown n change → G (e :: es) n → E .unknownPeerRemoved (n.add (.entry e))
  malformed : ∀ e es n p, IsChange e → ¬ Panic.Avoidable p → G (e :: es) n → E p (n.add (.entry e))

section
variable {C : List Entry → Node S → Prop} {K : Node S → Prop} {env : Env}

/-- What a round leaves: `P` if the node goes on, `K` if it was removed. -/
def Ends (P K : Node S → Prop) : ReadyStatus → Node S → Prop
  | .Continue => P
  | .Shutdown => K

/-- The state of a round between entries. -/
def Between (l : Option LeaderState) (f : Option FollowerState) (G : Node S → Prop)
    (K : Node S → Prop) : ReadyStatus → Node S → Prop
  | .Continue => At l f G
  | .Shutdown => K

omit [Protobuf] [StorageExt S] in
theorem updatePeers_at {P : Node S → Prop} (change : ConfChange) {Q : Node S → Prop}
    (hc : ∀ n n', PeersChanged n change n' → P n → Q n')
    (hs : ∀ n, RemovesOwn n change → P n → K n)
    (hu : ∀ n, RemovesUnknown n change → P n → E .unknownPeerRemoved n)
    (hm : ∀ n p, ¬ Panic.Avoidable p → P n → E p n) :
    Triple (At l f P) (updatePeers change) (Between l f Q K) E := by
  refine Triple.read fun n hn => ?_
  cases hty : change.changeType with
  | RemoveNode =>
    dsimp only
    by_cases hlen : n.peerId.length ≥ 8
    · rw [peerIdToRaftId_eq hlen,
        show expect (.ok (raftIdOf n.peerId)) = (pure (raftIdOf n.peerId) : NodeM S Nat) from rfl,
        pure_bind]
      refine Triple.ite (fun hown => ?_) fun hown => ?_
      · exact Triple.pure fun s hs' => hs' ▸ hs n ⟨hty, hown⟩ hn.rest
      · cases hp : n.raftIdToPeerId.lookup change.nodeId with
        | some peerId =>
          refine Triple.bind (Triple.update (Q := fun _ => At l f Q) fun s hs' => ?_) fun _ =>
            Triple.pure fun _ h => h
          subst hs'
          exact ⟨hn.leader, hn.follower, hc _ _ (.remove hty hown peerId hp) hn.rest⟩
        | none => exact Triple.throw fun s hs' => hs' ▸ hu n ⟨hty, hown, hp⟩ hn.rest
    · rw [show peerIdToRaftId n.peerId = .error .peerIdTooShort from if_neg hlen]
      refine Triple.bind (R := fun _ _ => False) ?_ fun _ _ hfalse => hfalse.elim
      exact Triple.throw fun s hs' => hs' ▸ hm n .peerIdTooShort (by simp [Panic.Avoidable]) hn.rest
  | AddNode =>
    refine Triple.bind (Triple.update (Q := fun _ => At l f Q) fun s hs' => ?_) fun _ =>
      Triple.pure fun _ h => h
    subst hs'
    exact ⟨hn.leader, hn.follower, hc _ _ (.add hty) hn.rest⟩
  | AddLearnerNode =>
    exact Triple.pure fun s hs' => hs' ▸ ⟨hn.leader, hn.follower, hc n n (.learner hty) hn.rest⟩

omit [Protobuf] in
theorem applyConfChange_at {P : Node S → Prop} (change : ConfChange) {Q : Node S → Prop}
    (tame : Tame Q) (hc : ∀ n n', PeersChanged n change n' → P n → Q n')
    (hs : ∀ n, RemovesOwn n change → P n → K n)
    (hu : ∀ n, RemovesUnknown n change → P n → E .unknownPeerRemoved n)
    (hm : ∀ n p, ¬ Panic.Avoidable p → P n → E p n) :
    Triple (At l f P) (applyConfChange change) (Between l f Q K) E := by
  refine Triple.bind (updatePeers_at change hc hs hu hm) fun status => ?_
  cases status with
  | Shutdown => exact Triple.pure fun _ h => h
  | Continue =>
    refine Triple.bind (emit_at fun n hn => tame.silent n _ trivial hn) fun _ => ?_
    exact Triple.pure fun _ h => h

/-- A turn of the loop, up to the point where a change has been carried out:
from there on the rest of the turn is `rest`. -/
theorem deliverEntry_at {G : List Entry → Node S → Prop} {e : Entry} {es : List Entry}
    {Q : ReadyStatus → Node S → Prop} (takes : Takes G C K E)
    (hnone : ∀ n, At l f (G es) n → Q .Continue n) (hdown : ∀ n, K n → Q .Shutdown n)
    (hrest : Triple (At l f (C es)) (do
        let n ← get
        if n.leaderState = some .changingConfig then do
          startBuilding env
          pure .Continue
        else pure .Continue) Q E) :
    Triple (At l f (G (e :: es))) (deliverEntry env e) Q E := by
  unfold deliverEntry
  by_cases hdata : e.data = []
  · refine Triple.bind (emit_at (H := G es) fun n hn => takes.skip e es n
      (fun h => h.1 hdata) (fun h => h.1 hdata) hn) fun _ => ?_
    rw [if_pos hdata]
    exact Triple.pure hnone
  · cases hty : e.entryType with
    | EntryNormal =>
      refine Triple.bind (emit_at (H := fun n => G es (n.enqueue e)) fun n hn =>
        takes.block e es n ⟨hdata, hty⟩ hn) fun _ => ?_
      rw [if_neg hdata]
      refine Triple.bind (updateQueue_at (H := G es) fun n hn => hn) fun _ => ?_
      exact Triple.pure hnone
    | EntryConfChange =>
      by_cases hterm : e.term = 1
      · refine Triple.bind (emit_at (H := G es) fun n hn => takes.skip e es n
          (fun h => absurd (hty.symm.trans h.2) (by simp)) (fun h => h.2.2 hterm) hn) fun _ => ?_
        rw [if_neg hdata]
        dsimp only
        rw [if_pos hterm]
        exact Triple.pure hnone
      · have hch : IsChange e := ⟨hdata, hty, hterm⟩
        -- between the two, the entry is taken up and the change still to come
        refine Triple.bind (emit_at (H := fun n' => ∃ n, n' = n.add (.entry e) ∧ G (e :: es) n)
          fun n hn => ⟨n, rfl, hn⟩) fun _ => ?_
        rw [if_neg hdata]
        dsimp only
        rw [if_neg hterm]
        unfold deliverConfChange
        cases hparse : Protobuf.confChange.parseFromBytes e.data with
        | none =>
          refine Triple.throw fun n' hn' => ?_
          obtain ⟨n, rfl, hn⟩ := hn'.rest
          exact takes.malformed e es n _ hch (by simp [Panic.Avoidable]) hn
        | some change =>
          refine Triple.bind (applyConfChange_at (Q := C es) (K := K) change (takes.tame es)
            ?_ ?_ ?_ ?_) fun status => ?_
          · intro _ n' hpc h
            obtain ⟨n, rfl, hn⟩ := h
            exact takes.change e es n change n' hch hparse hpc hn
          · intro _ hown h
            obtain ⟨n, rfl, hn⟩ := h
            exact takes.shutdown e es n change hch hparse hown hn
          · intro _ hunk h
            obtain ⟨n, rfl, hn⟩ := h
            exact takes.unknown e es n change hch hparse hunk hn
          · intro _ p hp h
            obtain ⟨n, rfl, hn⟩ := h
            exact takes.malformed e es n p hch hp hn
          · cases status with
            | Shutdown => exact Triple.pure hdown
            | Continue => exact hrest

/-- The loop, for any node but a leader that waits for a change. -/
theorem deliver_at {G : List Entry → Node S → Prop} (takes : Takes G C K E)
    (hC : ∀ es n, C es n → G es n) (hl : l ≠ some .changingConfig) (es : List Entry) :
    Triple (At l f (G es)) (deliver env es) (Between l f (G []) K) E := by
  induction es with
  | nil => exact Triple.pure fun _ h => h
  | cons e es ih =>
    refine Triple.bind (R := Between l f (G es) K) (deliverEntry_at takes (fun _ h => h)
      (fun _ h => h) ?_) fun status => ?_
    · refine Triple.read fun n hn => ?_
      rw [if_neg (by rw [hn.leader]; exact hl)]
      exact Triple.pure fun s hs => hs ▸ ⟨hn.leader, hn.follower, hC es n hn.rest⟩
    · cases status with
      | Shutdown => exact Triple.pure fun _ h => h
      | Continue => exact ih

/-- The loop, for a leader that waits for a change: the first one that is
carried out makes it build, and from then on `H` takes over from `G`. -/
theorem deliver_changing_at {G H C' : List Entry → Node S → Prop} (takes : Takes G C K E)
    (takes' : Takes H C' K E) (hC' : ∀ es n, C' es n → H es n)
    (hG' : ∀ es, Fails E (H es))
    (hinit : ∀ es n, C es n → H es (n.add (.initializeBlock n.blockQueue.commitQueue)))
    (es : List Entry) :
    Triple (At (some .changingConfig) f (G es)) (deliver env es)
      (fun status n => match status with
        | .Continue => At (some .changingConfig) f (G []) n ∨
            ∃ since, At (some (.building since)) f (H []) n
        | .Shutdown => K n) E := by
  induction es with
  | nil => exact Triple.pure fun _ h => Or.inl h
  | cons e es ih =>
    refine Triple.bind (R := fun status n => match status with
      | .Continue => At (some .changingConfig) f (G es) n ∨
          ∃ since, At (some (.building since)) f (H es) n
      | .Shutdown => K n) (deliverEntry_at takes (fun _ h => Or.inl h) (fun _ h => h) ?_)
      fun status => ?_
    -- the change is carried out, and the leader starts to build in the same turn
    · refine Triple.read fun n hn => ?_
      rw [if_pos hn.leader]
      refine Triple.pre ?_ (fun s (hs : s = n) => hs ▸ hn)
      refine Triple.bind (startBuilding_at (takes.tame es) (hinit es) (hG' es)) fun _ => ?_
      exact Triple.pure fun _ h => Or.inr h
    · cases status with
      | Shutdown => exact Triple.pure fun _ h => h
      | Continue =>
        refine Triple.or ih (Triple.intro fun since => ?_)
        refine (deliver_at takes' hC' (by simp) es).conseq (fun _ h => h) (fun status n h => ?_)
          (fun _ _ h => h)
        cases status with
        | Shutdown => exact h
        | Continue => exact Or.inr ⟨since, h⟩

/-- What the entries can make of the leader's part: a change that is carried
out ends the wait for one. -/
def Resumes (l l' : Option LeaderState) : Prop :=
  l' = l ∨ l = some .changingConfig ∧ ∃ since, l' = some (.building since)

/-- The loop, for an invariant that takes no notice of the leader's part. -/
theorem deliver_resumes_at {G : List Entry → Node S → Prop} (takes : Takes G G K E)
    (hinit : ∀ es n, G es n → G es (n.add (.initializeBlock n.blockQueue.commitQueue)))
    (es : List Entry) :
    Triple (At l f (G es)) (deliver env es)
      (Ends (fun n => ∃ l', Resumes l l' ∧ At l' f (G []) n) K) E := by
  by_cases hl : l = some .changingConfig
  · subst hl
    refine (deliver_changing_at takes takes (fun _ _ h => h) takes.fails hinit es).conseq
      (fun _ h => h) (fun status n h => ?_) (fun _ _ h => h)
    cases status with
    | Shutdown => exact h
    | Continue =>
      rcases h with h | ⟨since, h⟩
      · exact ⟨_, Or.inl rfl, h⟩
      · exact ⟨_, Or.inr ⟨rfl, since, rfl⟩, h⟩
  · refine (deliver_at takes (fun _ _ h => h) hl es).conseq (fun _ h => h)
      (fun status n h => ?_) (fun _ _ h => h)
    cases status with
    | Shutdown => exact h
    | Continue => exact ⟨l, Or.inl rfl, h⟩

end

/-! ## Committing the next block -/

/-- Someone is there to commit `b`: the leader that proposed it, or an idle
follower. -/
def WillCommit (l : Option LeaderState) (f : Option FollowerState) (b : BlockId) : Prop :=
  l = some (.proposing b) ∨ f = some .idle

/-- The roles once `b` is being committed. -/
inductive Commits : Option LeaderState → Option FollowerState → BlockId →
    Option LeaderState → Option FollowerState → Prop
  | leader (b : BlockId) : Commits (some (.proposing b)) none b (some (.committing b)) none
  | follower (b : BlockId) : Commits none (some .idle) b none (some (.committing b))

omit [Protobuf] in
/-- Either the next block is now being committed, or there is none, or nobody
to commit it. One of the two roles is taken to be absent. -/
theorem commitNext_at {H : BlockId → Node S → Prop} {env : Env} (hroles : l = none ↔ f ≠ none)
    (tame : Tame G) (fails : ∀ b, Fails E (H b))
    (h : ∀ b n, n.blockQueue.getNextCommittable = some b → WillCommit l f b → G n →
      H b (n.add (.commitBlock b))) :
    Triple (At l f G) (commitNext env)
      (fun _ n => (At l f G n ∧
          ∀ b, n.blockQueue.getNextCommittable = some b → ¬ WillCommit l f b) ∨
        ∃ b l' f', Commits l f b l' f' ∧ At l' f' (H b) n) E := by
  refine Triple.read fun n hn => ?_
  cases hnext : n.blockQueue.getNextCommittable with
  | none =>
    refine Triple.pure fun s hs => Or.inl ⟨hs ▸ hn, fun b hb => ?_⟩
    rw [hs, hnext] at hb
    exact absurd hb (by simp)
  | some b =>
    -- the call, by whichever role; the queue is still that of `n`
    have hcommit : ∀ {l₀ f₀}, WillCommit l f b →
        Triple (At l₀ f₀ fun n' => G n' ∧ n'.blockQueue = n.blockQueue)
          (expectCall .commitBlock (.commitBlock b) env.commitBlock)
          (fun _ => At l₀ f₀ (H b)) E := by
      intro l₀ f₀ hw
      refine expectCall_at ?_ (fails b)
      intro n' h
      obtain ⟨hn', hq⟩ := h
      exact h b n' (hq ▸ hnext) hw hn'
    -- the leader's part comes first, and leaves nothing for the follower's
    by_cases hlead : l = some (.proposing b)
    · subst hlead
      obtain rfl : f = none := by
        by_contra hf
        exact absurd (hroles.mpr hf) (by simp)
      refine Triple.bind (R := fun _ => At (some (.committing b)) none (H b)) ?_ fun _ => ?_
      · refine Triple.read fun n₁ hn₁ => ?_
        obtain rfl : n₁ = n := hn₁
        rw [if_pos hn.leader]
        refine Triple.bind (R := fun _ => At (some (.committing b)) none
          fun n' => G n' ∧ n'.blockQueue = n₁.blockQueue) ?_ fun _ => hcommit (Or.inl rfl)
        refine Triple.update fun s hs => ?_
        rw [hs]
        exact ⟨rfl, hn.follower, tame.leader _ _ hn.rest, rfl⟩
      · refine Triple.read fun n₁ hn₁ => ?_
        rw [if_neg (by rw [hn₁.follower]; simp)]
        exact Triple.pure fun s hs => Or.inr ⟨b, _, _, .leader b, hs ▸ hn₁⟩
    · refine Triple.bind (R := fun _ s => s = n) ?_ fun _ => ?_
      · refine Triple.read fun n₁ hn₁ => ?_
        rw [if_neg (by rw [hn₁, hn.leader]; exact hlead)]
        exact Triple.pure fun s hs => hs.trans hn₁
      · refine Triple.read fun n₁ hn₁ => ?_
        obtain rfl : n₁ = n := hn₁
        by_cases hidle : f = some .idle
        · subst hidle
          obtain rfl : l = none := hroles.mpr (by simp)
          rw [if_pos hn.follower]
          refine Triple.bind (R := fun _ => At none (some (.committing b))
            fun n' => G n' ∧ n'.blockQueue = n₁.blockQueue) ?_ fun _ => ?_
          · refine Triple.update fun s hs => ?_
            rw [hs]
            exact ⟨hn.leader, rfl, tame.follower _ _ hn.rest, rfl⟩
          · exact (hcommit (Or.inr rfl)).conseq (fun _ h => h)
              (fun _ n hn => Or.inr ⟨b, _, _, .follower b, hn⟩) (fun _ _ h => h)
        · rw [if_neg (by rw [hn.follower]; exact hidle)]
          refine Triple.pure fun s hs => Or.inl ⟨hs ▸ hn, fun b' hb' hw => ?_⟩
          rw [hs, hnext] at hb'
          obtain rfl := Option.some.inj hb'
          exact hw.elim hlead hidle

/-! ## The round as a whole -/

theorem processReady_at {round : Round} {env : Env} {G₀ M P K : Node S → Prop}
    (hready : ∀ n, G₀ n → G (n.add (.ready round))) (tame : Tame G) (fails : Fails E G)
    (hinit : round.isLeader = true → l = none → (∀ b, f ≠ some (.committing b)) →
      ∀ n, G n → G (n.add (.initializeBlock n.blockQueue.commitQueue)))
    (hdel : ∀ l' f', RoleChange round l f l' f' →
      Triple (At l' f' G) (deliver env round.committed) (Ends M K) E)
    (hcommit : Triple M (commitNext env) (fun _ n => P (n.add .advance)) E) :
    Triple (At l f G₀) (processReady env (some round)) (Ends P K) E := by
  have hassoc : processReady env (some round) = (do
      emit (.ready round)
      (do leaderPart env round; persist env round.ready; followerPart env round)
      let status ← deliver env round.committed
      afterEntries env status : NodeM S ReadyStatus) := by
    unfold processReady
    refine congrArg (fun k => emit (.ready round) >>= k) (funext fun _ => ?_)
    rw [bind_assoc]
    exact congrArg (fun k => leaderPart env round >>= k) (funext fun _ => (bind_assoc ..).symm)
  rw [hassoc]
  refine Triple.bind (emit_at hready) fun _ => ?_
  refine Triple.bind (beforeEntries_at tame fails hinit) fun _ => ?_
  refine Triple.bind (R := Ends M K) ?_ fun status => ?_
  · refine Triple.intro fun l' => Triple.intro fun f' n h => ?_
    exact hdel l' f' h.1 n h.2
  · cases status with
    | Shutdown => exact Triple.pure fun _ h => h
    | Continue =>
      refine Triple.bind hcommit fun _ => ?_
      refine Triple.bind (Triple.update (Q := fun _ => P) fun n hn => hn) fun _ => ?_
      exact Triple.pure fun _ h => h

end Node

end SawtoothRaft
