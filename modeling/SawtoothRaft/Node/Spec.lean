import SawtoothRaft.Lib.Exec
import SawtoothRaft.Node.Node

/-!
# What the handlers do

Most of what a handler does moves neither the roles nor the queue. This module
and `Round` say once what each handler does to the two role states, for *any*
assertion `G` about the rest of the node:

* `At l f G` fixes the role states and asserts `G`.
* `Tame G` says that `G` does not look at the roles, and survives the calls
  that come with no obligation (`Silent`) and the store operations of a round.
* `Fails E G` says what `G` leaves behind in a panic.

An invariant of the node is then a choice of `G`, and what has to be shown for
it is what happens where a handler does carry an obligation: when building
starts, when an entry is taken up, when a block is committed or confirmed.
-/

namespace SawtoothRaft

open Lib

namespace Node

variable {S α : Type}

/-- The node after one more thing has happened. -/
def add (n : Node S) (o : Obs) : Node S := { n with trace := n.trace ++ [o] }

/-- The node after a call to the store. -/
def stored (n : Node S) (o : Outcome S α) : Node S :=
  { n with store := o.store, trace := n.trace ++ o.ops.map Obs.file }

@[simp] theorem add_trace (n : Node S) (o : Obs) : (n.add o).trace = n.trace ++ [o] := rfl

@[simp] theorem add_blockQueue (n : Node S) (o : Obs) : (n.add o).blockQueue = n.blockQueue := rfl

@[simp] theorem stored_trace (n : Node S) (o : Outcome S α) :
    (n.stored o).trace = n.trace ++ o.ops.map Obs.file := rfl

/-- A new node is an idle follower with an empty queue. -/
theorem new_eq {peerId : PeerId} {store : S} {peers : List PeerId} {period : Nat}
    {trace : List Obs} {n : Node S} (h : Node.new peerId store peers period trace = .ok n) :
    ∃ raftIdToPeerId, n =
      { peerId, store, leaderState := none, followerState := some .idle,
        blockQueue := BlockQueue.new, raftIdToPeerId, period, trace } := by
  unfold Node.new at h
  cases hp : (peers.mapM fun peerId => do
      let raftId ← peerIdToRaftId peerId
      pure (raftId, peerId) : Except Panic (List (Nat × PeerId))) with
  | error p => rw [hp] at h; cases h
  | ok pairs =>
    rw [hp] at h
    exact ⟨_, (Except.ok.inj h).symm⟩

/-- Calls that no invariant of the node is about. -/
def Silent : Obs → Prop
  | .checkBlocks _ | .summarizeBlock | .finalizeBlock | .cancelBlock | .sendTo _ _
  | .getSettings _ _ | .propose _ | .proposeConfChange _ | .applyConfChange _ | .step _
  | .advance => True
  | _ => False

/-- A store operation of a round. -/
inductive Persists [StorageExt S] (s : S) : Outcome S Unit → Prop
  | applySnapshot (snap : Snapshot) : Persists s (StorageExt.applySnapshot s snap)
  | append (es : List Entry) : Persists s (StorageExt.append s es)
  | setHardstate (hs : HardState) : Persists s (StorageExt.setHardstate s hs)

/-- An assertion about everything but the roles that routine work keeps. -/
structure Tame [StorageExt S] (G : Node S → Prop) : Prop where
  leader : ∀ n st, G n → G { n with leaderState := st }
  follower : ∀ n st, G n → G { n with followerState := st }
  silent : ∀ n o, Silent o → G n → G (n.add o)
  stored : ∀ n o, Persists n.store o → G n → G (n.stored o)

/-- The role states are `l` and `f`, and `G` holds. -/
structure At (l : Option LeaderState) (f : Option FollowerState) (G : Node S → Prop)
    (n : Node S) : Prop where
  leader : n.leaderState = l
  follower : n.followerState = f
  rest : G n

/-- The two panics that an invariant may rule out. -/
def Panic.Avoidable : Panic → Prop
  | .unknownPeerRemoved | .noBlocksInQueue => True
  | _ => False

/-- A panic of any other kind, out of a state with `G`, ends under `E`. -/
def Fails (E : Panic → Node S → Prop) (G : Node S → Prop) : Prop :=
  ∀ p n, ¬ Panic.Avoidable p → G n → E p n

variable [StorageExt S] {l : Option LeaderState} {f : Option FollowerState}
  {G : Node S → Prop} {E : Panic → Node S → Prop}

/-! ## Single actions -/

section
omit [StorageExt S]

theorem emit_at {H : Node S → Prop} {o : Obs} (h : ∀ n, G n → H (n.add o)) :
    Triple (At l f G) (emit o) (fun _ => At l f H) E :=
  Triple.update fun n hn => ⟨hn.leader, hn.follower, h n hn.rest⟩

theorem updateQueue_at {H : Node S → Prop} {g : BlockQueue → BlockQueue}
    (h : ∀ n, G n → H { n with blockQueue := g n.blockQueue }) :
    Triple (At l f G) (updateQueue g) (fun _ => At l f H) E :=
  Triple.update fun n hn => ⟨hn.leader, hn.follower, h n hn.rest⟩

theorem tryCall_at {H : Node S → Prop} {o : Obs} {answer : List Obs → α}
    (h : ∀ n, G n → H (n.add o)) :
    Triple (At l f G) (tryCall o answer) (fun _ => At l f H) E := by
  refine Triple.bind (emit_at h) fun _ => ?_
  refine Triple.bind (Triple.get fun n hn => hn) fun n => ?_
  exact Triple.pure fun _ hn => hn

theorem expectCall_at {H : Node S → Prop} {call : ServiceCall} {o : Obs}
    {answer : List Obs → Except ServiceError α} (h : ∀ n, G n → H (n.add o))
    (hE : Fails E H) : Triple (At l f G) (expectCall call o answer) (fun _ => At l f H) E := by
  refine Triple.bind (tryCall_at h) fun r => ?_
  cases r with
  | ok a => exact Triple.pure fun _ hn => hn
  | error err => exact Triple.throw fun n hn => hE _ n (by simp [Panic.Avoidable]) hn.rest

theorem expect_at {r : Except Panic α} (hr : ∀ p, r = .error p → ¬ Panic.Avoidable p)
    (hE : Fails E G) : Triple (At l f G) (expect r) (fun _ => At l f G) E := by
  cases r with
  | ok a => exact Triple.pure fun _ hn => hn
  | error p => exact Triple.throw fun n hn => hE p n (hr p rfl) hn.rest

theorem storeCall_at {H : Node S → Prop} {g : S → Outcome S α}
    (h : ∀ n, G n → H (n.stored (g n.store))) (hE : Fails E H) :
    Triple (At l f G) (storeCall g) (fun _ => At l f H) E := by
  refine Triple.read fun n hn => ?_
  refine Triple.bind (R := fun _ => At l f H) ?_ fun _ => ?_
  · intro s hs
    rw [hs]
    exact ⟨hn.leader, hn.follower, h n hn.rest⟩
  · cases (g n.store).result with
    | ok a => exact Triple.pure fun _ hn => hn
    | error fault => exact Triple.throw fun n hn => hE _ n (by simp [Panic.Avoidable]) hn.rest

end

theorem setLeaderState_at (tame : Tame G) (st : Option LeaderState) :
    Triple (At l f G) (setLeaderState st) (fun _ => At st f G) E :=
  Triple.update fun n hn => ⟨rfl, hn.follower, tame.leader n st hn.rest⟩

theorem setFollowerState_at (tame : Tame G) (st : Option FollowerState) :
    Triple (At l f G) (setFollowerState st) (fun _ => At l st G) E :=
  Triple.update fun n hn => ⟨hn.leader, rfl, tame.follower n st hn.rest⟩

/-- Building starts: the obligation is on the state of the queue. -/
theorem startBuilding_at {H : Node S → Prop} {env : Env} (tame : Tame G)
    (h : ∀ n, G n → H (n.add (.initializeBlock n.blockQueue.commitQueue))) (hE : Fails E H) :
    Triple (At l f G) (startBuilding env)
      (fun _ n => ∃ since, At (some (.building since)) f H n) E := by
  refine Triple.read fun n hn => ?_
  refine Triple.bind (R := fun _ => At (some (.building (env.now n.trace))) f
    fun n' => G n' ∧ n'.blockQueue = n.blockQueue) ?_ fun _ => ?_
  · intro s hs
    rw [hs]
    exact ⟨rfl, hn.follower, tame.leader _ _ hn.rest, rfl⟩
  · refine (expectCall_at (H := H) ?_ hE).conseq (fun _ h => h) (fun _ _ h => ⟨_, h⟩)
      (fun _ _ h => h)
    intro n' h
    obtain ⟨hn', hq⟩ := h
    rw [← hq]
    exact h n' hn'

/-! ## Updates from the validator, messages and ticks -/

/-- How a leader gets from building a block to proposing it. -/
inductive Progress : Option LeaderState → Option LeaderState → Prop
  | refl (l : Option LeaderState) : Progress l l
  | published (since : Nat) (b : BlockId) :
    Progress (some (.building since)) (some (.publishing b))
  | received (b : BlockId) : Progress (some (.publishing b)) (some (.validating b))
  | proposed (b : BlockId) (l : Option LeaderState)
    (hl : l = some (.publishing b) ∨ l = some (.validating b)) : Progress l (some (.proposing b))

theorem onBlockNew_at {H : Node S → Prop} {env : Env} {block : Block} (tame : Tame H)
    (hE : Fails E H) (h : ∀ n, G n →
      H { n.add (.blockNew block) with blockQueue := n.blockQueue.blockNew block }) :
    Triple (At l f G) (onBlockNew env block)
      (fun _ n => ∃ l', Progress l l' ∧ At l' f H n) E := by
  -- `H` is asserted of the node as it will be once the queue is updated
  let M : Node S → Prop := fun n => H { n with blockQueue := n.blockQueue.blockNew block }
  refine Triple.bind (emit_at (H := M) h) fun _ => ?_
  refine Triple.bind (R := fun _ n => ∃ l', Progress l l' ∧ At l' f M n) ?_ fun _ => ?_
  · refine Triple.read fun n hn => ?_
    rw [hn.leader]
    refine Triple.ite (fun hl => ?_) fun hl => ?_
    · refine Triple.update fun s hs => ?_
      rw [hs, hl]
      exact ⟨_, .received _, rfl, hn.follower, tame.leader _ _ hn.rest⟩
    · exact Triple.pure fun s hs => hs ▸ ⟨l, .refl l, hn⟩
  · refine Triple.intro fun l' n ⟨hp, hn⟩ => ?_
    refine (Triple.bind (updateQueue_at (H := H) fun n hn => hn) fun _ => ?_) n hn
    refine (expectCall_at (H := H) (fun n hn => ?_) hE).conseq (fun _ h => h)
      (fun _ n hn => ⟨l', hp, hn⟩) (fun _ _ h => h)
    exact tame.silent n _ trivial hn

theorem onBlockValid_at {H : Node S → Prop} {env : Env} {b : BlockId} (tame : Tame H)
    (hE : Fails E H) (h : ∀ n, G n →
      H { n.add (.blockValid b) with blockQueue := n.blockQueue.blockValid b }) :
    Triple (At l f G) (onBlockValid env b) (fun _ n => ∃ l', Progress l l' ∧ At l' f H n) E := by
  refine Triple.bind (emit_at (H := fun n => H { n with blockQueue := n.blockQueue.blockValid b })
    h) fun _ => ?_
  refine Triple.bind (updateQueue_at (H := H) fun n hn => hn) fun _ => ?_
  refine Triple.read fun n hn => ?_
  rw [hn.leader]
  refine Triple.pre ?_ (fun s (hs : s = n) => hs ▸ hn)
  refine Triple.ite (fun hl => ?_) fun hl => ?_
  · refine Triple.bind (tryCall_at fun n hn => tame.silent n _ trivial hn) fun ok => ?_
    cases ok with
    | true =>
      exact (setLeaderState_at tame _).conseq (fun _ h => h)
        (fun _ n hn => ⟨_, .proposed b l hl, hn⟩) (fun _ _ h => h)
    | false => exact Triple.throw fun n hn => hE _ n (by simp [Panic.Avoidable]) hn.rest
  · exact Triple.pure fun n hn => ⟨l, .refl l, hn⟩

theorem onPeerMessage_at {H : Node S → Prop} {env : Env} {message : Bytes} (tame : Tame H)
    (hE : Fails E H) (h : ∀ n, G n → H (n.add (.peerMessage message))) :
    Triple (At l f G) (onPeerMessage env message) (fun _ => At l f H) E := by
  refine Triple.bind (emit_at h) fun _ => ?_
  split
  · exact emit_at fun n hn => tame.silent n _ trivial hn
  · exact Triple.throw fun n hn => hE _ n (by simp [Panic.Avoidable]) hn.rest

theorem publish_at {env : Env} (tame : Tame G) (hE : Fails E G) (since : Nat) :
    Triple (At (some (.building since)) f G) (publish env)
      (fun _ n => ∃ l', Progress (some (.building since)) l' ∧ At l' f G n) E := by
  refine Triple.bind (tryCall_at fun n hn => tame.silent n _ trivial hn) fun r => ?_
  split
  · exact Triple.pure fun n hn => ⟨_, .refl _, hn⟩
  · exact Triple.throw fun n hn => hE _ n (by simp [Panic.Avoidable]) hn.rest
  · refine Triple.bind (tryCall_at fun n hn => tame.silent n _ trivial hn) fun r => ?_
    split
    next b =>
      exact (setLeaderState_at tame _).conseq (fun _ h => h)
        (fun _ n hn => ⟨_, .published since b, hn⟩) (fun _ _ h => h)
    next => exact Triple.pure fun n hn => ⟨_, .refl _, hn⟩
    next => exact Triple.throw fun n hn => hE _ n (by simp [Panic.Avoidable]) hn.rest

theorem tick_at {H : Node S → Prop} {env : Env} (tame : Tame H) (hE : Fails E H)
    (h : ∀ n, G n → H (n.add .tick)) :
    Triple (At l f G) (tick env) (fun _ n => ∃ l', Progress l l' ∧ At l' f H n) E := by
  refine Triple.bind (emit_at h) fun _ => ?_
  refine Triple.read fun n hn => ?_
  refine Triple.pre ?_ (fun s (hs : s = n) => hs ▸ hn)
  rw [hn.leader]
  split
  next since =>
    refine Triple.ite (fun _ => publish_at tame hE since) fun _ => ?_
    exact Triple.pure fun n hn => ⟨_, .refl _, hn⟩
  next => exact Triple.pure fun n hn => ⟨_, .refl _, hn⟩

/-! ## The confirmation of a block -/

/-- The node once the front of its queue is gone and `i` is stored as applied. -/
def confirmed (n : Node S) (i : Nat) (q : BlockQueue) : Node S :=
  ({ n with blockQueue := q }.add (.setApplied i)).stored (StorageExt.setApplied n.store i)

theorem confirmFront_at {H : Node S → Prop}
    (h : ∀ n i q, n.blockQueue.blockCommitted = some (i, q) → G n → H (n.confirmed i q))
    (hempty : ∀ n, n.blockQueue.blockCommitted = none → G n → E .noBlocksInQueue n)
    (hE : Fails E H) : Triple (At l f G) confirmFront (fun _ => At l f H) E := by
  -- what is left to be done with the popped index is asserted in advance
  refine Triple.bind (R := fun i => At l f fun n =>
    H ((n.add (.setApplied i)).stored (StorageExt.setApplied n.store i))) ?_ fun i => ?_
  · refine Triple.read fun n hn => ?_
    cases hq : n.blockQueue.blockCommitted with
    | none => exact Triple.throw fun s hs => hs ▸ hempty n hq hn.rest
    | some p =>
      obtain ⟨i, q⟩ := p
      refine Triple.bind (R := fun _ => At l f fun n =>
        H ((n.add (.setApplied i)).stored (StorageExt.setApplied n.store i))) ?_ fun _ =>
        Triple.pure fun _ h => h
      refine Triple.update fun s hs => ?_
      rw [hs]
      exact ⟨hn.leader, hn.follower, h n i q hq hn.rest⟩
  · refine Triple.bind (emit_at (H := fun n => H (n.stored (StorageExt.setApplied n.store i)))
      fun n hn => hn) fun _ => ?_
    exact storeCall_at (fun n hn => hn) hE

theorem mapM_error {β γ : Type} {g : β → Except Panic γ} {P : Panic → Prop}
    (h : ∀ x p, g x = .error p → P p) : ∀ (xs : List β) {p : Panic}, xs.mapM g = .error p → P p := by
  intro xs
  induction xs with
  | nil => intro p hp; simp [pure, Except.pure] at hp
  | cons x xs ih =>
    intro p hp
    rw [List.mapM_cons] at hp
    cases hx : g x with
    | error p' =>
      rw [hx] at hp
      simp only [bind, Except.bind, Except.error.injEq] at hp
      exact hp ▸ h x p' hx
    | ok y =>
      cases hxs : xs.mapM g with
      | error p' =>
        rw [hx, hxs] at hp
        simp only [bind, Except.bind, Except.error.injEq] at hp
        exact hp ▸ ih hxs
      | ok ys =>
        rw [hx, hxs] at hp
        simp [bind, Except.bind, pure, Except.pure] at hp

variable [Formats]

/-- How the setting can be wrong. -/
theorem getPeersFromSettings_error {settings : Settings} {p : Panic}
    (h : getPeersFromSettings settings = .error p) :
    p = .peersNotSet ∨ p = .invalidPeers ∨ p = .peerIdNotHex := by
  unfold getPeersFromSettings at h
  split at h
  · cases h; exact Or.inl rfl
  · split at h
    · cases h; exact Or.inr (Or.inl rfl)
    · refine Or.inr (Or.inr (mapM_error (P := (· = .peerIdNotHex)) (fun x p hx => ?_) _ h))
      split at hx
      · cases hx
      · cases hx; rfl

omit [Formats] in
theorem confChangeBetween_error {peers oldPeers : List PeerId} {p : Panic}
    (h : confChangeBetween peers oldPeers = .error p) : ¬ Panic.Avoidable p := by
  unfold confChangeBetween at h
  dsimp only at h
  split at h
  · cases h
  next peerId _ =>
    unfold peerIdToRaftId at h
    split at h
    · dsimp only [bind, Except.bind] at h
      split at h
      · cases h
      · split at h <;> cases h
    · cases h
      simp [Panic.Avoidable]
  · cases h
    simp [Panic.Avoidable]

theorem checkForConfChange_at {env : Env} {b : BlockId} (tame : Tame G) (hE : Fails E G) :
    Triple (At l f G) (checkForConfChange env b) (fun _ => At l f G) E := by
  refine Triple.bind (expectCall_at (fun n hn => tame.silent n _ trivial hn) hE) fun settings => ?_
  have hpeers : ∀ p, getPeersFromSettings settings = .error p → ¬ Panic.Avoidable p := by
    intro p hp
    rcases getPeersFromSettings_error hp with rfl | rfl | rfl <;> simp [Panic.Avoidable]
  refine Triple.bind (expect_at hpeers hE) fun peers => ?_
  refine Triple.read fun n hn => ?_
  refine Triple.pre ?_ (fun s (hs : s = n) => hs ▸ hn)
  exact expect_at (fun _ => confChangeBetween_error) hE

/-- The roles after `on_block_commit`, and which assertion holds then: `X` if
the notification was not waited for, `Y` once the block is confirmed, `Z` if
in addition a new one is being built. -/
inductive AfterConfirm (l : Option LeaderState) (f : Option FollowerState) (b : BlockId)
    (X Y Z : Node S → Prop) (n : Node S) : Prop
  | changing (hl : l = some (.committing b)) (h : At (some .changingConfig) f Y n)
  | building (hl : l = some (.committing b)) (since : Nat) (h : At (some (.building since)) f Z n)
  | follower (hf : f = some (.committing b)) (h : At l (some .idle) Y n)
  | ignored (hl : l ≠ some (.committing b)) (hf : f ≠ some (.committing b)) (h : At l f X n)

theorem onBlockCommit_at {X Y Z : Node S → Prop} {env : Env} {b : BlockId}
    (hroles : l = none ↔ f ≠ none) (tame : Tame Y) (fails : Fails E Y) (fails₃ : Fails E Z)
    (h₁ : ∀ n, G n → X (n.add (.blockCommit b)))
    (h₂ : ∀ n i q, l = some (.committing b) ∨ f = some (.committing b) →
      n.blockQueue.blockCommitted = some (i, q) → X n → Y (n.confirmed i q))
    (hempty : ∀ n, l = some (.committing b) ∨ f = some (.committing b) →
      n.blockQueue.blockCommitted = none → X n → E .noBlocksInQueue n)
    (h₃ : ∀ n, l = some (.committing b) → Y n →
      Z (n.add (.initializeBlock n.blockQueue.commitQueue))) :
    Triple (At l f G) (onBlockCommit env b) (fun _ => AfterConfirm l f b X Y Z) E := by
  refine Triple.bind (emit_at h₁) fun _ => ?_
  by_cases hl : l = some (.committing b)
  -- a leader confirms in the first part, and the second finds no follower state
  · obtain rfl : f = none := by
      by_contra hf
      exact absurd ((hroles.mpr hf).symm.trans hl) (by simp)
    refine Triple.bind (R := fun _ n => AfterConfirm l none b X Y Z n ∧ n.followerState = none)
      ?_ fun _ => ?_
    · refine Triple.read fun n hn => ?_
      refine Triple.pre ?_ (fun s (hs : s = n) => hs ▸ hn)
      rw [if_pos (hn.leader.trans hl)]
      refine Triple.bind (confirmFront_at (fun n i q => h₂ n i q (Or.inl hl))
        (fun n => hempty n (Or.inl hl)) fails) fun _ => ?_
      refine Triple.bind (checkForConfChange_at tame fails) fun change => ?_
      cases change with
      | some change =>
        refine Triple.bind (setLeaderState_at tame _) fun _ => ?_
        refine Triple.bind (tryCall_at fun n hn => tame.silent n _ trivial hn) fun ok => ?_
        cases ok with
        | true => exact Triple.pure fun n hn => ⟨.changing hl hn, hn.follower⟩
        | false => exact Triple.throw fun n hn => fails _ n (by simp [Panic.Avoidable]) hn.rest
      | none =>
        refine (startBuilding_at tame (fun n => h₃ n hl) fails₃).conseq (fun _ h => h) ?_
          (fun _ _ h => h)
        intro _ n h
        obtain ⟨since, hn⟩ := h
        exact ⟨.building hl since hn, hn.follower⟩
    · refine Triple.read fun n hn => ?_
      rw [if_neg (by rw [hn.2]; simp)]
      exact Triple.pure fun s hs => hs ▸ hn.1
  · refine Triple.bind (R := fun _ => At l f X) ?_ fun _ => ?_
    · refine Triple.read fun n hn => ?_
      rw [if_neg (by rw [hn.leader]; exact hl)]
      exact Triple.pure fun s hs => hs ▸ hn
    · refine Triple.read fun n hn => ?_
      refine Triple.pre ?_ (fun s (hs : s = n) => hs ▸ hn)
      rw [hn.follower]
      refine Triple.ite (fun hf => ?_) fun hf => ?_
      · refine Triple.bind (confirmFront_at (fun n i q => h₂ n i q (Or.inr hf))
          (fun n => hempty n (Or.inr hf)) fails) fun _ => ?_
        exact (setFollowerState_at tame _).conseq (fun _ h => h) (fun _ n hn => .follower hf hn)
          (fun _ _ h => h)
      · exact Triple.pure fun n hn => .ignored hl hf hn

end Node

end SawtoothRaft
