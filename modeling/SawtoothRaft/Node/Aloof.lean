import SawtoothRaft.Node.Run

/-!
# Handlers that leave the store alone

A handler touches the store in two places only: `process_ready` persists what
Raft wants persisted, and `on_block_commit` sets the applied index. An
assertion is `Aloof` if nothing else can break it: it does not look at the
roles or at the backlog, and takes no notice of observations that are `Aside`.
Such an assertion is kept by all other parts of the handlers, whether they
return or panic (`Keeps`). The entries that are delivered may also change the
commit queue and the map of peers; `Receptive` is for them.

Along with it goes a set `X` of panics that are possible. All parts but
`check_for_conf_change` make do without the panic about more than one change.
-/

namespace SawtoothRaft

open Lib

namespace Node

variable {S α β : Type}

/-- Observations that have to do neither with a `Ready`, nor with the store,
nor with messages that are sent. -/
def Aside : Obs → Prop
  | .ready _ | .sendTo _ _ | .setApplied _ | .file _ => False
  | _ => True

structure Aloof (X : Panic → Prop) (P : Node S → Prop) : Prop where
  panics : ∀ p, p ≠ .manyMembershipChanges → X p
  leader : ∀ n st, P n → P { n with leaderState := st }
  follower : ∀ n st, P n → P { n with followerState := st }
  backlog : ∀ n f, P n → P { n with blockQueue := { n.blockQueue with validatorBacklog := f } }
  note : ∀ n o, Aside o → P n → P (n.add o)

/-- Returned or stopped, `m` has not broken `P`, and it stops with panics of
`X` only. -/
def Keeps (X : Panic → Prop) (P : Node S → Prop) (m : NodeM S α) : Prop :=
  Triple P m (fun _ => P) (fun p n => X p ∧ P n)

section
variable {X : Panic → Prop} {P : Node S → Prop}

theorem Keeps.pure (a : α) : Keeps X P (Pure.pure a : NodeM S α) := Triple.pure fun _ h => h

theorem Keeps.throw {p : Panic} (hp : X p) : Keeps X P (MonadExcept.throw p : NodeM S α) :=
  Triple.throw fun _ h => ⟨hp, h⟩

theorem Keeps.bind {m : NodeM S α} {f : α → NodeM S β} (hm : Keeps X P m)
    (hf : ∀ a, Keeps X P (f a)) : Keeps X P (m >>= f) :=
  Triple.bind hm hf

theorem Keeps.update {f : Node S → Node S} (h : ∀ n, P n → P (f n)) :
    Keeps X P (modify f : NodeM S Unit) :=
  Triple.update h

theorem Keeps.read {f : Node S → NodeM S α} (h : ∀ n, Keeps X P (f n)) :
    Keeps X P (MonadState.get >>= f) :=
  Triple.read fun n hn => (h n).pre fun _ hs => hs ▸ hn

theorem Keeps.ite {c : Prop} [Decidable c] {m m' : NodeM S α} (hm : Keeps X P m)
    (hm' : Keeps X P m') : Keeps X P (if c then m else m') :=
  Triple.ite (fun _ => hm) fun _ => hm'

theorem Keeps.expect {r : Except Panic α} (hr : ∀ p, r = .error p → X p) :
    Keeps X P (Node.expect r : NodeM S α) := by
  cases r with
  | ok a => exact .pure a
  | error p => exact .throw (hr p rfl)

/-- A call to the store: what it leaves, and what follows for a panic on its
answer. -/
theorem storeCall_triple {Q : Node S → Prop} {E : Panic → Node S → Prop} {g : S → Outcome S α}
    (h : ∀ n, P n → Q (n.stored (g n.store))) (hE : ∀ fault n, Q n → E (.store fault) n) :
    Triple P (storeCall g) (fun _ => Q) E := by
  refine Triple.read fun n hn => ?_
  refine Triple.bind (R := fun _ => Q) ?_ fun _ => ?_
  · intro s hs
    rw [hs]
    exact h n hn
  · cases (g n.store).result with
    | ok a => exact Triple.pure fun _ hn => hn
    | error fault => exact Triple.throw (hE fault)

/-- A call to the store, whatever it answers. -/
theorem storeCall_stored {Q : Node S → Prop} {g : S → Outcome S α} (hX : ∀ fault, X (.store fault))
    (h : ∀ n, P n → Q (n.stored (g n.store))) :
    Triple P (storeCall g) (fun _ => Q) (fun p n => X p ∧ Q n) :=
  storeCall_triple h fun fault _ hn => ⟨hX fault, hn⟩

theorem sendMsg_keeps {env : Env} (hX : ∀ err, X (.service .sendTo err))
    (h : ∀ n peerId message, P n → P (n.add (.sendTo peerId message))) (msg : RaftMessage) :
    Keeps X P (sendMsg env msg : NodeM S Unit) := by
  refine .read fun n => ?_
  split
  next peerId _ =>
    refine .bind (.bind (.update fun n hn => h n peerId msg.bytes hn) fun _ => .read fun _ =>
      .pure _) fun r => ?_
    split
    · exact .pure _
    · exact .pure _
    · exact .throw (hX _)
  next => exact .pure _

/-! ## Single actions -/

variable {env : Env} (h : Aloof X P)
include h

theorem Aloof.emit {o : Obs} (ho : Aside o) : Keeps X P (emit o : NodeM S Unit) :=
  .update fun n hn => h.note n o ho hn

theorem Aloof.tryCall {o : Obs} {answer : List Obs → α} (ho : Aside o) :
    Keeps X P (tryCall o answer : NodeM S α) :=
  .bind (h.emit ho) fun _ => .read fun _ => .pure _

theorem Aloof.expectCall {call : ServiceCall} {o : Obs} {answer : List Obs → Except ServiceError α}
    (ho : Aside o) : Keeps X P (expectCall call o answer : NodeM S α) := by
  refine .bind (h.tryCall ho) fun r => ?_
  cases r with
  | ok a => exact .pure a
  | error err => exact .throw (h.panics _ (by simp))

theorem Aloof.setLeaderState (st : Option LeaderState) :
    Keeps X P (setLeaderState st : NodeM S Unit) :=
  .update fun n hn => h.leader n st hn

theorem Aloof.setFollowerState (st : Option FollowerState) :
    Keeps X P (setFollowerState st : NodeM S Unit) :=
  .update fun n hn => h.follower n st hn

theorem Aloof.startBuilding : Keeps X P (startBuilding env : NodeM S Unit) :=
  .read fun _ => .bind (h.setLeaderState _) fun _ => h.expectCall trivial

/-! ## Updates, messages and ticks -/

theorem Aloof.onBlockNew (block : Block) : Keeps X P (onBlockNew env block : NodeM S Unit) := by
  refine .bind (h.emit trivial) fun _ => .bind ?_ fun _ => .bind ?_ fun _ => h.expectCall trivial
  · exact .read fun _ => .ite (h.setLeaderState _) (.pure _)
  · exact .update fun n hn => h.backlog n _ hn

theorem Aloof.onBlockValid (b : BlockId) : Keeps X P (onBlockValid env b : NodeM S Unit) := by
  refine .bind (h.emit trivial) fun _ => .bind (.update fun n hn => h.backlog n _ hn) fun _ => ?_
  refine .read fun _ => .ite (.bind (h.tryCall trivial) fun ok => ?_) (.pure _)
  exact .ite (h.setLeaderState _) (.throw (h.panics _ (by simp)))

theorem Aloof.onPeerMessage (message : Bytes) :
    Keeps X P (onPeerMessage env message : NodeM S Unit) := by
  refine .bind (h.emit trivial) fun _ => ?_
  cases env.parseMessage message with
  | some raftMessage => exact h.emit trivial
  | none => exact .throw (h.panics _ (by simp))

theorem Aloof.publish : Keeps X P (publish env : NodeM S Unit) := by
  refine .bind (h.tryCall trivial) fun r => ?_
  split
  · exact .pure _
  · exact .throw (h.panics _ (by simp))
  · refine .bind (h.tryCall trivial) fun r => ?_
    split
    · exact h.setLeaderState _
    · exact .pure _
    · exact .throw (h.panics _ (by simp))

theorem Aloof.tick : Keeps X P (tick env : NodeM S Unit) := by
  refine .bind (h.emit trivial) fun _ => .read fun n => ?_
  split
  · exact .ite h.publish (.pure _)
  · exact .pure _

/-! ## The parts of a round -/

theorem Aloof.stepUp : Keeps X P (stepUp env : NodeM S Unit) := by
  refine .read fun n => .ite (.bind ?_ fun _ => h.setFollowerState _) (.pure _)
  unfold takeOver
  split
  · exact h.setLeaderState _
  · exact h.startBuilding

theorem Aloof.stepDown : Keeps X P (stepDown env : NodeM S Unit) := by
  refine .read fun n => .ite (.pure _) (.bind ?_ fun _ => .bind (h.setLeaderState _) fun _ => ?_)
  · unfold abandon
    split
    · exact h.expectCall trivial
    · exact h.setFollowerState _
    · exact .pure _
  · exact .read fun _ => .ite (h.setFollowerState _) (.pure _)

theorem Aloof.commitNext : Keeps X P (commitNext env : NodeM S Unit) := by
  refine .read fun n => ?_
  split
  · refine .bind ?_ fun _ => ?_
    · exact .read fun _ => .ite (.bind (h.setLeaderState _) fun _ => h.expectCall trivial) (.pure _)
    · exact .read fun _ => .ite (.bind (h.setFollowerState _) fun _ => h.expectCall trivial)
        (.pure _)
  · exact .pure _

theorem Aloof.afterEntries (status : ReadyStatus) :
    Keeps X P (afterEntries env status : NodeM S ReadyStatus) := by
  cases status with
  | Shutdown => exact .pure _
  | Continue => exact .bind h.commitNext fun _ => .bind (h.emit trivial) fun _ => .pure _

theorem Aloof.checkForConfChange [Formats] (hX : X .manyMembershipChanges) (b : BlockId) :
    Keeps X P (checkForConfChange env b : NodeM S (Option ConfChange)) := by
  have hall : ∀ p, X p := by
    intro p
    by_cases hp : p = .manyMembershipChanges
    · rwa [hp]
    · exact h.panics p hp
  refine .bind (h.expectCall trivial) fun settings => .bind (.expect fun p _ => hall p) fun _ => ?_
  exact .read fun n => .expect fun p _ => hall p

theorem Aloof.afterCommit [Formats] {b : BlockId}
    (hcheck : Keeps X P (Node.checkForConfChange env b)) :
    Keeps X P (afterCommit env b : NodeM S Unit) := by
  refine .bind hcheck fun change => ?_
  cases change with
  | some change =>
    refine .bind (h.setLeaderState _) fun _ => .bind (h.tryCall trivial) fun ok => ?_
    exact .ite (.pure _) (.throw (h.panics _ (by simp)))
  | none => exact h.startBuilding

end

/-! ## The entries that are delivered -/

/-- An assertion that the entries `es` do not break either. -/
structure Receptive (es : List Entry) (X : Panic → Prop) (P : Node S → Prop) : Prop
    extends Aloof X P where
  block : ∀ n, ∀ e ∈ es, P n →
    P { n with blockQueue := n.blockQueue.addBlockCommit e.data e.index }
  peers : ∀ n m, P n → P { n with raftIdToPeerId := m }

section
variable {X : Panic → Prop} {P : Node S → Prop} {env : Env} {es : List Entry}
  (h : Receptive es X P)
include h

theorem Receptive.updatePeers (change : ConfChange) :
    Keeps X P (updatePeers change : NodeM S ReadyStatus) := by
  refine .read fun n => ?_
  split
  · refine .bind (.expect fun p hp => ?_) fun own => .ite (.pure _) ?_
    · unfold peerIdToRaftId at hp
      split at hp
      · cases hp
      · cases hp
        exact h.panics _ (by simp)
    split
    · exact .bind (.update fun n hn => h.peers n _ hn) fun _ => .pure _
    · exact .throw (h.panics _ (by simp))
  · exact .bind (.update fun n hn => h.peers n _ hn) fun _ => .pure _
  · exact .pure _

variable [Protobuf]

theorem Receptive.deliverEntry {e : Entry} (he : e ∈ es) :
    Keeps X P (deliverEntry env e : NodeM S ReadyStatus) := by
  refine .bind (h.emit trivial) fun _ => .ite (.pure _) ?_
  split
  · exact .bind (.update fun n hn => h.block n e he hn) fun _ => .pure _
  · refine .ite (.pure _) ?_
    unfold deliverConfChange
    split
    · exact .throw (h.panics _ (by simp))
    · refine .bind (.bind (h.updatePeers _) fun status => ?_) fun status => ?_
      · cases status with
        | Shutdown => exact .pure _
        | Continue => exact .bind (h.emit trivial) fun _ => .pure _
      · cases status with
        | Shutdown => exact .pure _
        | Continue => exact .read fun _ => .ite (.bind h.startBuilding fun _ => .pure _) (.pure _)

/-- **The loop over the committed entries**, by induction on those that are
still to come. -/
theorem Receptive.deliver {rest : List Entry} (hrest : ∀ e ∈ rest, e ∈ es) :
    Keeps X P (deliver env rest : NodeM S ReadyStatus) := by
  induction rest with
  | nil => exact .pure _
  | cons e rest ih =>
    obtain ⟨he, hrest⟩ := List.forall_mem_cons.mp hrest
    refine .bind (h.deliverEntry he) fun status => ?_
    cases status with
    | Shutdown => exact .pure _
    | Continue => exact ih hrest

end

end Node

end SawtoothRaft
