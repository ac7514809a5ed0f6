import SawtoothRaft.Node.Acts

/-!
# What a node stops of

Nearly every answer that a node gets is unwrapped. `refusal` is the table of the
answers that it does not put up with, and of the panic that each of them ends
in. Two answers are tolerated: a block that is not ready, and a peer that is not
connected. The other panics come from the node's own state: an operation of the
store fails, the settings ask for what cannot be done, a change removes a peer
that is not there (`Cause`).

A node stops at the first answer that it does not put up with, and for no other
reason (`stops_with_cause`).
-/

namespace SawtoothRaft

open Lib

namespace Node

variable {S α β : Type}

/-- An answer that is insisted on. -/
def refusedCall (call : ServiceCall) : Except ServiceError α → Option Panic
  | .ok _ => none
  | .error err => some (.service call err)

/-- An answer that is insisted on, but for one error. -/
def refusedUnless (tolerated : ServiceError) (call : ServiceCall) :
    Except ServiceError α → Option Panic
  | .ok _ => none
  | .error err => if err = tolerated then none else some (.service call err)

/-- The panic that the answer to the last observation of `t` ends in. -/
def refusal [Protobuf] (env : Env) (t : List Obs) : Obs → Option Panic
  | .checkBlocks _ => refusedCall .checkBlocks (env.checkBlocks t)
  | .initializeBlock _ => refusedCall .initializeBlock (env.initializeBlock t)
  | .summarizeBlock => refusedUnless .BlockNotReady .summarizeBlock (env.summarizeBlock t)
  | .finalizeBlock => refusedUnless .BlockNotReady .finalizeBlock (env.finalizeBlock t)
  | .cancelBlock => refusedCall .cancelBlock (env.cancelBlock t)
  | .commitBlock _ => refusedCall .commitBlock (env.commitBlock t)
  | .sendTo _ _ => refusedUnless .UnknownPeer .sendTo (env.sendTo t)
  | .getSettings b _ => refusedCall .getSettings (env.getSettings t b)
  | .propose _ => if env.propose t then none else some .proposeBlock
  | .proposeConfChange _ => if env.proposeConfChange t then none else some .proposeConfChange
  | .peerMessage message =>
    if (env.parseMessage message).isSome then none else some .invalidRaftMessage
  | .entry e =>
    if IsChange e ∧ Protobuf.confChange.parseFromBytes e.data = none then some .invalidConfChange
    else none
  | _ => none

/-- So far the node has put up with every answer. -/
def Unrefused [Protobuf] (env : Env) (t : List Obs) : Prop :=
  ∀ u o v, t = u ++ o :: v → refusal env (u ++ [o]) o = none

/-- A change that the map of peers cannot follow. -/
inductive Unfollowable (n : Node S) (change : ConfChange) : Panic → Prop
  | ownId (hc : change.changeType = .RemoveNode) (p : Panic)
    (hown : peerIdToRaftId n.peerId = .error p) : Unfollowable n change p
  | unknown (h : RemovesUnknown n change) : Unfollowable n change .unknownPeerRemoved

/-- Why a node has panicked, after everything else has gone well. -/
inductive Cause [StorageExt S] [Protobuf] [Formats] (env : Env) : Panic → Node S → Prop
  | refused (n : Node S) (p : Panic) (u : List Obs) (o : Obs) (hu : Unrefused env u)
    (ht : n.trace = u ++ [o]) (h : refusal env n.trace o = some p) : Cause env p n
  /-- An operation of the store has failed. -/
  | store (n : Node S) (o : Outcome S Unit) (fault : Fault)
    (ho : Persists n.store o ∨ ∃ i, o = StorageExt.setApplied n.store i)
    (hr : o.result = .error fault) (hu : Unrefused env (n.stored o).trace) :
    Cause env (.store fault) (n.stored o)
  /-- The settings are malformed, or ask for too much. -/
  | settings (n : Node S) (p : Panic) (b : BlockId) (settings : Settings) (u : List Obs)
    (hu : Unrefused env n.trace) (ht : n.trace = u ++ [.getSettings b [peersKey]])
    (hs : env.getSettings n.trace b = .ok settings)
    (h : (getPeersFromSettings settings >>= fun peers =>
      confChangeBetween peers (n.raftIdToPeerId.entries.map (·.2))) = .error p) : Cause env p n
  /-- The entry taken up last has a change that does not fit. -/
  | change (n : Node S) (p : Panic) (e : Entry) (change : ConfChange) (u : List Obs)
    (hu : Unrefused env n.trace) (ht : n.trace = u ++ [.entry e]) (he : IsChange e)
    (hc : Protobuf.confChange.parseFromBytes e.data = some change)
    (h : Unfollowable n change p) : Cause env p n

section
variable [Protobuf] {env : Env}

theorem Unrefused.snoc {t : List Obs} (h : Unrefused env t) {o : Obs}
    (ho : refusal env (t ++ [o]) o = none) : Unrefused env (t ++ [o]) := by
  intro u o' v ht
  rcases List.eq_nil_or_concat v with rfl | ⟨v', o'', rfl⟩
  · obtain ⟨rfl, ho'⟩ := List.append_inj' ht rfl
    obtain rfl := List.singleton_inj.mp ho'
    exact ho
  · rw [List.concat_eq_append, ← List.cons_append, ← List.append_assoc] at ht
    exact h u o' v' (List.append_inj' ht rfl).1

theorem Unrefused.files {t : List Obs} (h : Unrefused env t) (ops : List FileOp) :
    Unrefused env (t ++ ops.map Obs.file) := by
  induction ops generalizing t with
  | nil => rwa [List.map_nil, List.append_nil]
  | cons op ops ih =>
    rw [List.map_cons, List.append_cons]
    exact ih (h.snoc rfl)

end

section
variable [StorageExt S] [Protobuf] [Formats] {env : Env} {P : Node S → Prop}

/-- Returned, `m` has been refused nothing, and stopped, it had a cause to. It
does not get in the way of `P`. -/
def Heeds (env : Env) (P : Node S → Prop) (m : NodeM S α) : Prop :=
  Triple (fun n => Unrefused env n.trace ∧ P n) m (fun _ n => Unrefused env n.trace ∧ P n)
    (Cause env)

theorem Heeds.pure (a : α) : Heeds env P (Pure.pure a : NodeM S α) := Triple.pure fun _ hn => hn

theorem Heeds.bind {m : NodeM S α} {f : α → NodeM S β} (hm : Heeds env P m)
    (hf : ∀ a, Heeds env P (f a)) : Heeds env P (m >>= f) :=
  Triple.bind hm hf

theorem Heeds.read {f : Node S → NodeM S α} (h : ∀ n, Heeds env P (f n)) :
    Heeds env P (MonadState.get >>= f) :=
  Triple.read fun n hn => (h n).pre fun _ hs => hs ▸ hn

theorem Heeds.ite {c : Prop} [Decidable c] {m m' : NodeM S α} (hm : Heeds env P m)
    (hm' : Heeds env P m') : Heeds env P (if c then m else m') :=
  Triple.ite (fun _ => hm) fun _ => hm'

/-- A change to the node of which nothing is seen. -/
theorem Heeds.update {g : Node S → Node S} (hg : ∀ n, (g n).trace = n.trace)
    (hP : ∀ n, P n → P (g n)) : Heeds env P (modify g : NodeM S Unit) :=
  Triple.update fun n hn => ⟨(hg n).symm ▸ hn.1, hP n hn.2⟩

/-- An observation that is answered by nobody. -/
theorem emit_heeds {o : Obs} (ho : ∀ t, refusal env t o = none) (hP : ∀ n, P n → P (n.add o)) :
    Heeds env P (emit o : NodeM S Unit) :=
  Triple.update fun n hn => ⟨hn.1.snoc (ho _), hP n hn.2⟩

/-- A call, with what the node does on every answer. -/
theorem tryCall_heeds {o : Obs} {answer : List Obs → α} {f : α → NodeM S β}
    (hP : ∀ n, P n → P (n.add o))
    (h : ∀ t, (refusal env t o = none ∧ Heeds env P (f (answer t))) ∨
      ∃ p, refusal env t o = some p ∧ f (answer t) = throw p) :
    Heeds env P (tryCall o answer >>= f) := by
  refine Triple.bind tryCall_eq fun r n hn => ?_
  obtain ⟨n', hn', rfl, rfl⟩ := hn
  rcases h (n'.trace ++ [o]) with ⟨hnone, hf⟩ | ⟨p, hsome, hf⟩
  · exact hf _ ⟨hn'.1.snoc hnone, hP n' hn'.2⟩
  · rw [hf]
    exact .refused _ p n'.trace o hn'.1 rfl hsome

theorem expectCall_heeds {call : ServiceCall} {o : Obs} {answer : List Obs → Except ServiceError α}
    (ho : ∀ t, refusal env t o = refusedCall call (answer t)) (hP : ∀ n, P n → P (n.add o)) :
    Heeds env P (expectCall call o answer : NodeM S α) := by
  refine tryCall_heeds hP fun t => ?_
  rw [ho]
  cases answer t with
  | ok a => exact Or.inl ⟨rfl, .pure a⟩
  | error err => exact Or.inr ⟨_, rfl, rfl⟩

theorem startBuilding_heeds (hP : ∀ n l, P n → P { n with leaderState := l })
    (hadd : ∀ n o, P n → P (n.add o)) : Heeds env P (startBuilding env : NodeM S Unit) := by
  refine .read fun n => ?_
  refine .bind (.update (fun _ => rfl) fun n hn => hP n _ hn) fun _ => ?_
  exact expectCall_heeds (fun _ => rfl) fun n hn => hadd n _ hn

/-! ## Updates, messages and ticks -/

theorem onBlockNew_heeds (block : Block) :
    Heeds env (fun _ => True) (onBlockNew env block : NodeM S Unit) := by
  refine .bind (emit_heeds (fun _ => rfl) fun _ hn => hn) fun _ => ?_
  refine .bind ?_ fun _ => .bind (.update (fun _ => rfl) fun _ hn => hn) fun _ =>
    expectCall_heeds (fun _ => rfl) fun _ hn => hn
  exact .read fun n => .ite (.update (fun _ => rfl) fun _ hn => hn) (.pure _)

theorem onBlockValid_heeds (b : BlockId) :
    Heeds env (fun _ => True) (onBlockValid env b : NodeM S Unit) := by
  refine .bind (emit_heeds (fun _ => rfl) fun _ hn => hn) fun _ => ?_
  refine .bind (.update (fun _ => rfl) fun _ hn => hn) fun _ => ?_
  refine .read fun n => .ite ?_ (.pure _)
  refine tryCall_heeds (fun _ hn => hn) fun t => ?_
  cases hanswer : env.propose t with
  | true => exact Or.inl ⟨by simp [refusal, hanswer], .update (fun _ => rfl) fun _ hn => hn⟩
  | false => exact Or.inr ⟨.proposeBlock, by simp [refusal, hanswer], rfl⟩

theorem onPeerMessage_heeds (message : Bytes) :
    Heeds env (fun _ => True) (onPeerMessage env message : NodeM S Unit) := by
  unfold onPeerMessage
  cases hparse : env.parseMessage message with
  | some raftMessage =>
    refine .bind (emit_heeds (fun _ => by simp [refusal, hparse]) fun _ hn => hn) fun _ => ?_
    exact emit_heeds (fun _ => rfl) fun _ hn => hn
  | none =>
    refine Triple.bind (R := fun _ n => ∃ n' : Node S, Unrefused env n'.trace ∧
      n = n'.add (.peerMessage message))
      (Triple.update fun n hn => ⟨n, hn.1, rfl⟩) fun _ => Triple.throw fun s hs => ?_
    obtain ⟨n', hn', rfl⟩ := hs
    exact .refused _ _ n'.trace (.peerMessage message) hn' rfl (by simp [refusal, hparse])

theorem publish_heeds : Heeds env (fun _ => True) (publish env : NodeM S Unit) := by
  refine tryCall_heeds (fun _ hn => hn) fun t => ?_
  cases hsummary : env.summarizeBlock t with
  | error err =>
    cases err with
    | BlockNotReady => exact Or.inl ⟨by simp [refusal, hsummary, refusedUnless], .pure _⟩
    | _ => exact Or.inr ⟨_, by simp [refusal, hsummary, refusedUnless], rfl⟩
  | ok summary =>
    refine Or.inl ⟨by simp [refusal, hsummary, refusedUnless], ?_⟩
    refine tryCall_heeds (fun _ hn => hn) fun t => ?_
    cases hblock : env.finalizeBlock t with
    | error err =>
      cases err with
      | BlockNotReady => exact Or.inl ⟨by simp [refusal, hblock, refusedUnless], .pure _⟩
      | _ => exact Or.inr ⟨_, by simp [refusal, hblock, refusedUnless], rfl⟩
    | ok b =>
      exact Or.inl ⟨by simp [refusal, hblock, refusedUnless], .update (fun _ => rfl) fun _ hn => hn⟩

theorem tick_heeds : Heeds env (fun _ => True) (tick env : NodeM S Unit) := by
  refine .bind (emit_heeds (fun _ => rfl) fun _ hn => hn) fun _ => .read fun n => ?_
  split
  · exact .ite publish_heeds (.pure _)
  · exact .pure _

/-! ## The confirmation of a block -/

theorem storeCall_heeds {g : S → Outcome S Unit} {Q : Node S → Prop}
    (hg : ∀ s, Persists s (g s) ∨ ∃ i, g s = StorageExt.setApplied s i)
    (hP : ∀ n, P n → Q (n.stored (g n.store))) :
    Triple (fun n => Unrefused env n.trace ∧ P n) (storeCall g)
      (fun _ n => Unrefused env n.trace ∧ Q n) (Cause env) := by
  refine Triple.read fun n hn => ?_
  have hstored : Unrefused env (n.stored (g n.store)).trace := hn.1.files _
  refine Triple.bind (R := fun _ s => s = n.stored (g n.store)) ?_ fun _ => ?_
  · intro s hs
    rw [hs]
    rfl
  · cases hr : (g n.store).result with
    | ok a => exact Triple.pure fun s hs => hs ▸ ⟨hstored, hP n hn.2⟩
    | error fault => exact Triple.throw fun s hs => hs ▸ .store n _ fault (hg n.store) hr hstored

/-- With something in the queue. -/
theorem confirmFront_heeds (f : Option FollowerState) :
    Triple (fun n : Node S => Unrefused env n.trace ∧ n.blockQueue.blockCommitted ≠ none ∧
        n.followerState = f) confirmFront
      (fun _ n => Unrefused env n.trace ∧ n.followerState = f) (Cause env) := by
  refine Triple.bind (R := fun _ n => Unrefused env n.trace ∧ n.followerState = f) ?_ fun i => ?_
  · refine Triple.read fun n hn => ?_
    cases hq : n.blockQueue.blockCommitted with
    | none => exact absurd hq hn.2.1
    | some p =>
      obtain ⟨i, q⟩ := p
      refine Triple.bind (Triple.update fun s hs => ?_) fun _ => Triple.pure fun _ hs => hs
      rw [hs]
      exact ⟨hn.1, hn.2.2⟩
  · refine Triple.bind (emit_heeds (fun _ => rfl) fun _ hn => hn) fun _ => ?_
    exact storeCall_heeds (fun s => Or.inr ⟨i, rfl⟩) fun _ hn => hn

/-- What `expect` does right after the settings have come in. -/
theorem checkForConfChange_heeds {f : Option FollowerState} (b : BlockId) :
    Heeds env (fun n => n.followerState = f)
      (checkForConfChange env b : NodeM S (Option ConfChange)) := by
  -- the state in which the settings are known, and the last observation is the call
  refine Triple.bind (R := fun settings n => (Unrefused env n.trace ∧ n.followerState = f) ∧
    ∃ u, n.trace = u ++ [.getSettings b [peersKey]] ∧ env.getSettings n.trace b = .ok settings)
    ?_ fun settings => ?_
  · refine Triple.bind tryCall_eq fun r => ?_
    cases r with
    | ok settings =>
      refine Triple.pure fun s hs => ?_
      obtain ⟨n', hn', rfl, hr⟩ := hs
      refine ⟨⟨hn'.1.snoc ?_, hn'.2⟩, n'.trace, rfl, hr.symm⟩
      simp only [refusal, ← hr, refusedCall]
    | error err =>
      refine Triple.throw fun s hs => ?_
      obtain ⟨n', hn', rfl, hr⟩ := hs
      refine .refused _ _ n'.trace _ hn'.1 rfl ?_
      simp only [refusal, add_trace, ← hr, refusedCall]
  · cases hpeers : getPeersFromSettings settings with
    | error p =>
      refine Triple.bind (R := fun _ _ => False) (Triple.throw fun n hn => ?_) fun _ =>
        fun _ hn => hn.elim
      obtain ⟨⟨hu, -⟩, u, ht, hs⟩ := hn
      exact .settings n p b settings u hu ht hs (by rw [hpeers]; rfl)
    | ok peers =>
      refine Triple.read (f := fun n => expect (confChangeBetween peers
        (n.raftIdToPeerId.entries.map (·.2)))) fun n hn => ?_
      cases hchange : confChangeBetween peers (n.raftIdToPeerId.entries.map (·.2)) with
      | ok change => exact Triple.pure fun s hs => hs ▸ hn.1
      | error p =>
        refine Triple.throw fun s hs => ?_
        obtain ⟨⟨hu, -⟩, u, ht, hs'⟩ := hn
        rw [hs]
        refine .settings n p b settings u hu ht hs' ?_
        rw [hpeers]
        exact hchange

theorem afterCommit_heeds {f : Option FollowerState} (b : BlockId) :
    Heeds env (fun n => n.followerState = f) (afterCommit env b : NodeM S Unit) := by
  refine .bind (checkForConfChange_heeds b) fun change => ?_
  cases change with
  | some change =>
    refine .bind (.update (fun _ => rfl) fun _ hn => hn) fun _ => ?_
    refine tryCall_heeds (fun _ hn => hn) fun t => ?_
    cases hanswer : env.proposeConfChange t with
    | true => exact Or.inl ⟨by simp [refusal, hanswer], .pure _⟩
    | false => exact Or.inr ⟨.proposeConfChange, by simp [refusal, hanswer], rfl⟩
  | none => exact startBuilding_heeds (fun _ _ hn => hn) fun _ _ hn => hn

/-- In the state that the main invariant describes the queue is not empty where
it matters. -/
theorem onBlockCommit_heeds (b : BlockId) :
    Triple (fun n : Node S => Good n ∧ Unrefused env n.trace) (onBlockCommit env b)
      (fun _ n => Unrefused env n.trace) (Cause env) := by
  have hpop : ∀ n : Node S, Good n → IsCommitting n b → n.blockQueue.blockCommitted ≠ none := by
    intro n hn hc
    obtain ⟨l, f, hr, rfl, rfl, hkept⟩ := hn
    have hfront := hkept.front b ((committingOf_eq_some hr).mpr hc)
    obtain ⟨⟨i, rest, hq⟩, -⟩ := BlockQueue.getNextCommittable_eq_some.mp hfront
    obtain ⟨q, hq, -⟩ := BlockQueue.blockCommitted_cons hq
    rw [hq]
    simp
  intro n hn
  refine Triple.bind (R := fun _ n' => n' = n.add (.blockCommit b))
    (Triple.update fun s hs => by rw [hs]; rfl) (fun _ => ?_) n rfl
  have hadded : Unrefused env (n.add (.blockCommit b)).trace := hn.2.snoc rfl
  refine Triple.bind (R := fun _ n' => Unrefused env n'.trace ∧
    (n' = n.add (.blockCommit b) ∨ n'.followerState = none)) ?_ fun _ => ?_
  · refine Triple.read fun n₁ hn₁ => Triple.ite (fun hl => ?_) fun _ =>
      Triple.pure fun s hs => hs ▸ ⟨hn₁ ▸ hadded, Or.inl hn₁⟩
    obtain rfl : n₁ = n.add (.blockCommit b) := hn₁
    have hf : n.followerState = none := by
      obtain ⟨l, f, hr, rfl, rfl, -⟩ := hn.1
      rw [show n.leaderState = some (.committing b) from hl] at hr
      exact hr.follower_none
    refine Triple.bind ((confirmFront_heeds none).pre fun s hs => ?_) fun _ =>
      (afterCommit_heeds b).conseq (fun _ hs => hs) (fun _ _ hs => ⟨hs.1, Or.inr hs.2⟩)
        (fun _ _ hs => hs)
    rw [hs]
    exact ⟨hadded, hpop n hn.1 (Or.inl hl), hf⟩
  · refine Triple.read fun n₁ hn₁ => Triple.ite (fun hf => ?_) fun _ =>
      Triple.pure fun s hs => hs ▸ hn₁.1
    have hsame : n₁ = n.add (.blockCommit b) := by
      rcases hn₁.2 with h | h
      · exact h
      · rw [h] at hf
        cases hf
    subst hsame
    refine Triple.bind ((confirmFront_heeds n.followerState).pre fun s hs => ?_) fun _ =>
      Triple.update fun s hs => hs.1
    rw [hs]
    exact ⟨hadded, hpop n hn.1 (Or.inr hf), rfl⟩

/-! ## A round -/

theorem sendMsg_heeds (msg : RaftMessage) :
    Heeds env (fun _ => True) (sendMsg env msg : NodeM S Unit) := by
  refine .read fun n => ?_
  split
  next peerId _ =>
    refine tryCall_heeds (fun _ hn => hn) fun t => ?_
    cases hanswer : env.sendTo t with
    | ok a => exact Or.inl ⟨by simp [refusal, hanswer, refusedUnless], .pure _⟩
    | error err =>
      cases err with
      | UnknownPeer => exact Or.inl ⟨by simp [refusal, hanswer, refusedUnless], .pure _⟩
      | _ => exact Or.inr ⟨_, by simp [refusal, hanswer, refusedUnless], rfl⟩
  next => exact .pure _

theorem sendAll_heeds (msgs : List RaftMessage) :
    Heeds env (fun _ => True) (msgs.forM (sendMsg env) : NodeM S PUnit) :=
  Triple.forM (I := fun n : Node S => Unrefused env n.trace ∧ True) msgs fun msg _ =>
    sendMsg_heeds msg

theorem stepUp_heeds : Heeds env (fun _ => True) (stepUp env : NodeM S Unit) := by
  refine .read fun n => .ite (.bind ?_ fun _ => .update (fun _ => rfl) fun _ hn => hn) (.pure _)
  unfold takeOver
  split
  · exact .update (fun _ => rfl) fun _ hn => hn
  · exact startBuilding_heeds (fun _ _ hn => hn) fun _ _ hn => hn

theorem stepDown_heeds : Heeds env (fun _ => True) (stepDown env : NodeM S Unit) := by
  refine .read fun n => .ite (.pure _) (.bind ?_ fun _ => .bind (.update (fun _ => rfl)
    fun _ hn => hn) fun _ => .read fun n => .ite (.update (fun _ => rfl) fun _ hn => hn) (.pure _))
  unfold abandon
  split
  · exact expectCall_heeds (fun _ => rfl) fun _ hn => hn
  · exact .update (fun _ => rfl) fun _ hn => hn
  · exact .pure _

theorem persist_heeds (ready : Ready) :
    Heeds env (fun _ => True) (persist env ready : NodeM S Unit) := by
  refine .bind ?_ fun _ => .bind ?_ fun _ => ?_
  · unfold persistSnapshot
    split
    · exact .pure _
    · exact storeCall_heeds (fun s => Or.inl (.applySnapshot _)) fun _ hn => hn
  · unfold persistEntries
    split
    · exact .pure _
    · exact storeCall_heeds (fun s => Or.inl (.append _)) fun _ hn => hn
  · unfold persistHardState
    split
    · exact storeCall_heeds (fun s => Or.inl (.setHardstate _)) fun _ hn => hn
    · exact .pure _

theorem commitNext_heeds : Heeds env (fun _ => True) (commitNext env : NodeM S Unit) := by
  have hcommit : ∀ b, Heeds env (fun _ => True)
      (expectCall .commitBlock (.commitBlock b) env.commitBlock : NodeM S Unit) :=
    fun b => expectCall_heeds (fun _ => rfl) fun _ hn => hn
  refine .read fun n => ?_
  split
  next b _ =>
    refine .bind ?_ fun _ => ?_
    · exact .read fun n => .ite (.bind (.update (fun _ => rfl) fun _ hn => hn) fun _ => hcommit b)
        (.pure _)
    · exact .read fun n => .ite (.bind (.update (fun _ => rfl) fun _ hn => hn) fun _ => hcommit b)
        (.pure _)
  next => exact .pure _

/-- The last entry removes the node itself. -/
structure Removed (env : Env) (n : Node S) : Prop where
  unrefused : Unrefused env n.trace
  own : ∃ u e change, n.trace = u ++ [.entry e] ∧ IsChange e ∧
    Protobuf.confChange.parseFromBytes e.data = some change ∧ RemovesOwn n change

/-- The entry `e` has just been taken up. -/
def TakenUp (env : Env) (e : Entry) (n : Node S) : Prop :=
  Unrefused env n.trace ∧ ∃ u, n.trace = u ++ [.entry e]

theorem updatePeers_heeds {e : Entry} {change : ConfChange} (he : IsChange e)
    (hc : Protobuf.confChange.parseFromBytes e.data = some change) :
    Triple (TakenUp env e : Node S → Prop) (updatePeers change)
      (Sys.Leaves (fun n => Unrefused env n.trace) fun _ => Removed env) (Cause env) := by
  refine Triple.read fun n hn => ?_
  obtain ⟨hu, u, ht⟩ := hn
  have hchange : ∀ p, Unfollowable n change p → Cause env p n :=
    fun p hp => .change n p e change u hu ht he hc hp
  cases htype : change.changeType with
  | AddNode =>
    refine Triple.bind (R := fun _ (n : Node S) => Unrefused env n.trace)
      (Triple.update fun s hs => ?_) fun _ => Triple.pure fun _ hs => hs
    rw [hs]
    exact hu
  | AddLearnerNode => exact Triple.pure fun s hs => hs ▸ hu
  | RemoveNode =>
    dsimp only
    by_cases hlen : n.peerId.length ≥ 8
    · rw [peerIdToRaftId_eq hlen,
        show expect (.ok (raftIdOf n.peerId)) = (pure (raftIdOf n.peerId) : NodeM S Nat) from rfl,
        pure_bind]
      refine Triple.ite (fun hown => ?_) fun hown => ?_
      · exact Triple.pure fun s hs => hs ▸ ⟨hu, u, e, change, ht, he, hc, htype, hown⟩
      · cases hpeer : n.raftIdToPeerId.lookup change.nodeId with
        | some peerId =>
          refine Triple.bind (R := fun _ (n : Node S) => Unrefused env n.trace)
            (Triple.update fun s hs => ?_) fun _ => Triple.pure fun _ hs => hs
          rw [hs]
          exact hu
        | none => exact Triple.throw fun s hs => hs ▸ hchange _ (.unknown ⟨htype, hown, hpeer⟩)
    · have hshort : peerIdToRaftId n.peerId = .error .peerIdTooShort := if_neg hlen
      rw [hshort]
      refine Triple.bind (R := fun _ _ => False) ?_ fun _ _ hfalse => hfalse.elim
      exact Triple.throw fun s hs => hs ▸ hchange _ (.ownId htype _ hshort)

theorem deliverConfChange_heeds {e : Entry} {change : ConfChange} (he : IsChange e)
    (hc : Protobuf.confChange.parseFromBytes e.data = some change) :
    Triple (TakenUp env e : Node S → Prop) (deliverConfChange env e)
      (Sys.Leaves (fun n => Unrefused env n.trace) fun _ => Removed env) (Cause env) := by
  unfold deliverConfChange
  rw [hc]
  dsimp only
  refine Triple.bind (R := Sys.Leaves (fun n => Unrefused env n.trace) fun _ => Removed env) ?_
    fun status => ?_
  · refine Triple.bind (updatePeers_heeds he hc) fun status => ?_
    cases status with
    | Shutdown => exact Triple.pure fun _ hn => hn
    | Continue =>
      refine Triple.bind (Triple.update fun n hn => ?_) fun _ => Triple.pure fun _ hn => hn
      exact hn.snoc rfl
  · cases status with
    | Shutdown => exact Triple.pure fun _ hn => hn
    | Continue =>
      refine Triple.read fun n hn => ?_
      refine Triple.pre ?_ (fun s (hs : s = n) => hs ▸ hn)
      refine Triple.ite (fun _ => ?_) fun _ => Triple.pure fun _ hn => hn
      refine Triple.bind ((startBuilding_heeds (P := fun _ => True) (fun _ _ _ => trivial)
        fun _ _ _ => trivial).conseq (fun _ hn => ⟨hn, trivial⟩) (fun _ _ hn => hn.1)
        (fun _ _ hn => hn)) fun _ => Triple.pure fun _ hn => hn

/-- **Step** of the loop over the committed entries. -/
theorem deliverEntry_heeds (e : Entry) :
    Triple (fun n : Node S => Unrefused env n.trace) (deliverEntry env e)
      (Sys.Leaves (fun n => Unrefused env n.trace) fun _ => Removed env) (Cause env) := by
  unfold deliverEntry
  by_cases hbad : IsChange e ∧ Protobuf.confChange.parseFromBytes e.data = none
  · -- the node panics right after the entry is taken up
    obtain ⟨⟨hdata, htype, hterm⟩, hparse⟩ := hbad
    refine Triple.bind (R := fun _ n => ∃ n' : Node S, Unrefused env n'.trace ∧
      n = n'.add (.entry e)) (Triple.update fun n hn => ⟨n, hn, rfl⟩) fun _ => ?_
    rw [if_neg hdata, htype]
    dsimp only
    rw [if_neg hterm]
    unfold deliverConfChange
    rw [hparse]
    refine Triple.throw fun s hs => ?_
    obtain ⟨n', hn', rfl⟩ := hs
    refine .refused _ _ n'.trace (.entry e) hn' rfl ?_
    simp only [refusal]
    rw [if_pos ⟨⟨hdata, htype, hterm⟩, hparse⟩]
  · refine Triple.bind (R := fun _ => TakenUp env e) (Triple.update fun n hn => ?_) fun _ => ?_
    · refine ⟨hn.snoc ?_, n.trace, rfl⟩
      simp only [refusal]
      rw [if_neg hbad]
    by_cases hdata : e.data = []
    · rw [if_pos hdata]
      exact Triple.pure fun _ hn => hn.1
    · rw [if_neg hdata]
      cases htype : e.entryType with
      | EntryNormal =>
        exact Triple.bind (R := fun _ (n : Node S) => Unrefused env n.trace)
          (Triple.update fun n hn => hn.1) fun _ => Triple.pure fun _ hn => hn
      | EntryConfChange =>
        refine Triple.ite (fun _ => Triple.pure fun _ hn => hn.1) fun hterm => ?_
        have he : IsChange e := ⟨hdata, htype, hterm⟩
        cases hparse : Protobuf.confChange.parseFromBytes e.data with
        | none => exact absurd ⟨he, hparse⟩ hbad
        | some change => exact deliverConfChange_heeds he hparse

theorem deliver_heeds (es : List Entry) :
    Triple (fun n : Node S => Unrefused env n.trace) (deliver env es)
      (Sys.Leaves (fun n => Unrefused env n.trace) fun _ => Removed env) (Cause env) := by
  induction es with
  | nil => exact Triple.pure fun _ hn => hn
  | cons e es ih =>
    refine Triple.bind (deliverEntry_heeds e) fun status => ?_
    cases status with
    | Continue => exact ih
    | Shutdown => exact Triple.pure fun _ hn => hn

theorem processReady_heeds (round : Option Round) :
    Triple (fun n : Node S => Unrefused env n.trace) (processReady env round)
      (Sys.Leaves (fun n => Unrefused env n.trace) fun _ => Removed env) (Cause env) := by
  cases round with
  | none => exact Triple.pure fun _ hn => hn
  | some round =>
    have hlead : Heeds env (fun _ => True) (leaderPart env round : NodeM S Unit) :=
      .ite (.bind stepUp_heeds fun _ => sendAll_heeds _) (.pure _)
    have hfollow : Heeds env (fun _ => True) (followerPart env round : NodeM S Unit) :=
      .ite (.pure _) (.bind stepDown_heeds fun _ => sendAll_heeds _)
    have hready : Heeds env (fun _ => True) (emit (.ready round) : NodeM S Unit) :=
      emit_heeds (fun _ => rfl) fun _ hn => hn
    refine Triple.bind (hready.pre fun _ hn => ⟨hn, trivial⟩) fun _ => Triple.bind hlead fun _ => ?_
    refine Triple.bind (persist_heeds round.ready) fun _ => Triple.bind hfollow fun _ => ?_
    refine Triple.bind ((deliver_heeds round.committed).pre fun _ hn => hn.1) fun status => ?_
    cases status with
    | Shutdown => exact Triple.pure fun _ hn => hn
    | Continue =>
      refine Triple.bind (commitNext_heeds.pre fun _ hn => ⟨hn, trivial⟩) fun _ => ?_
      refine Triple.bind (R := fun _ (n : Node S) => Unrefused env n.trace)
        (Triple.update fun n hn => ?_) fun _ => Triple.pure fun _ hn => hn
      exact hn.1.snoc rfl

theorem handle_heeds (i : Input) :
    Triple (fun n : Node S => Good n ∧ Unrefused env n.trace) (handle env i)
      (Sys.Leaves (fun n => Unrefused env n.trace) fun _ => Removed env) (Cause env) := by
  have hdone : ∀ {m : NodeM S Unit}, Heeds env (fun _ => True) m →
      Triple (fun n : Node S => Good n ∧ Unrefused env n.trace)
        (do m; pure ReadyStatus.Continue)
        (Sys.Leaves (fun n => Unrefused env n.trace) fun _ => Removed env) (Cause env) :=
    fun hm => Triple.bind (hm.pre fun _ hn => ⟨hn.2, trivial⟩) fun _ => Triple.pure fun _ hn => hn.1
  cases i with
  | blockNew block => exact hdone (onBlockNew_heeds block)
  | blockValid b => exact hdone (onBlockValid_heeds b)
  | blockCommit b => exact Triple.bind (onBlockCommit_heeds b) fun _ => Triple.pure fun _ hn => hn
  | peerMessage message => exact hdone (onPeerMessage_heeds message)
  | tick => exact hdone tick_heeds
  | processReady round => exact (processReady_heeds round).pre fun _ hn => hn.2

/-! ## Runs -/

/-- What is known of a node that has stopped. -/
def Ending (env : Env) : Status → Node S → Prop
  | .running, n => Unrefused env n.trace
  | .shutdown, n => Removed env n
  | .panicked p, n => Cause env p n

/-- In every run: a node that runs has put up with every answer it got, a node
that has shut down has just been told of its own removal, and a node that has
panicked had a cause to, in the very last thing that happened. An empty queue is
never the cause. -/
theorem stops_with_cause {node : Node S} (hnew : Sys.IsNew node) (inputs : List Input) :
    let s := (Sys.start node).run env inputs
    Ending env s.status s.node ∧ s.status ≠ .panicked .noBlocksInQueue := by
  intro s
  have hstep : ∀ (s : Sys S) i,
      s.Sat (fun n => Good n ∧ Unrefused env n.trace) (fun st n => Stopped st n ∧ Ending env st n) →
      (s.step env i).Sat (fun n => Good n ∧ Unrefused env n.trace)
        (fun st n => Stopped st n ∧ Ending env st n) := by
    intro s i hs
    refine Sys.sat_step (P := fun n => Good n ∧ Unrefused env n.trace) ?_ (fun _ hn => hn) hs
    refine ((handle_good i).and (handle_heeds i)).conseq (fun n hn => ⟨hn.1, hn⟩)
      (fun status n hn => ?_) (fun _ _ hn => hn)
    cases status with
    | Continue => exact hn
    | Shutdown => exact hn
  have hrun : s.Sat (fun n => Good n ∧ Unrefused env n.trace)
      (fun st n => Stopped st n ∧ Ending env st n) := by
    refine run_invariant (I := Sys.Sat _ _) hstep ?_ inputs
    obtain ⟨_, _, _, _, ops, hnode⟩ := hnew
    refine ⟨new_good hnode, ?_⟩
    obtain ⟨_, rfl⟩ := new_eq hnode
    have hnil : Unrefused env [] := fun u o v h => absurd h (by simp)
    exact hnil.files ops
  clear_value s
  obtain ⟨n, status⟩ := s
  cases status with
  | running => exact ⟨hrun.2, by simp⟩
  | shutdown => exact ⟨hrun.2, by simp⟩
  | panicked p => exact ⟨hrun.2, hrun.1.1⟩

end

end Node

namespace Node

open scoped Proto3 PlainFormats

/-- A message that is no message: the node dies of it, and of nothing else. -/
theorem stops_with_cause_message : ∃ node : Node FsStorage, twoPeers = .ok node ∧
    let env := Env.obliging [8] fun _ => twoPeersSetting
    let s := (Sys.start node).run env (electedWhileCommitting ++ [.peerMessage [1]])
    s.status = .panicked .invalidRaftMessage ∧ Cause env .invalidRaftMessage s.node := by
  refine ⟨_, rfl, ?_⟩
  intro env s
  have hstatus : s.status = .panicked .invalidRaftMessage := by decide +kernel
  have hending : Ending env s.status s.node := (stops_with_cause (twoPeers_isNew rfl) _).1
  rw [hstatus] at hending
  exact ⟨hstatus, hending⟩

end Node

end SawtoothRaft
