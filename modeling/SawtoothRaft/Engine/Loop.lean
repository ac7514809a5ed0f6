import Mathlib.Data.List.DropRight
import SawtoothRaft.Node.Discipline
import SawtoothRaft.Node.Invariant

/-!
# The loop of the engine

One turn of the loop in `RaftEngine::start` handles at most one update, then
perhaps a tick, then `process_ready`. The node learns of Raft's role from the
`Ready`s alone, and acts on what the last one said. Raft changes its role while
it handles a message or a tick, and both come before `process_ready` in the
turn, so whenever an update is handled the node is right about the role
(`turn_steered`). This is what makes the proposals of a leader orderly
(`loop_orderly`).

A leader that loses the role and regains it in one turn does not notice. A
block it finalised before is then proposed in a leadership that is not the one
it was finalised in (`proposed_after_lapse`).
-/

namespace SawtoothRaft

open Lib

/-! ## The loop -/

/-- `raft::StateRole` -/
inductive StateRole where
  | Follower
  | Candidate
  | Leader
  | PreCandidate
  deriving DecidableEq, Repr

/-- The updates of the validator; `other` stands for those that the engine does
not handle. -/
inductive Update where
  | blockNew (block : Block)
  | blockValid (blockId : BlockId)
  | blockCommit (blockId : BlockId)
  | peerMessage (content : Bytes)
  | shutdown
  | other
  deriving DecidableEq, Repr

/-- What `recv_timeout` returns. -/
inductive Received where
  | timeout
  | disconnected
  | update (u : Update)
  deriving DecidableEq, Repr

/-- What one turn of the loop meets: what is received, whether the ticker
fires, and what Raft has to show to `process_ready`. -/
structure Turn where
  received : Received := .timeout
  ticks : Bool := false
  round : Option Round := none
  deriving DecidableEq, Repr

namespace Engine

section
variable {S : Type} [StorageExt S] [Formats] (env : Env)

/-- Whether the engine should continue. -/
def handleUpdate : Update → NodeM S Bool
  | .blockNew block => do
    Node.onBlockNew env block
    pure true
  | .blockValid blockId => do
    Node.onBlockValid env blockId
    pure true
  | .blockCommit blockId => do
    Node.onBlockCommit env blockId
    pure true
  | .peerMessage content => do
    Node.onPeerMessage env content
    pure true
  | .shutdown => pure false
  | .other => pure true

def receive : Received → NodeM S Bool
  | .timeout => pure true
  | .disconnected => pure false
  | .update u => handleUpdate env u

/-- The ticker calls `node.tick` when it fires. -/
def raftTick (fires : Bool) : NodeM S Unit := if fires then Node.tick env else pure ()

/-- The turn up to `process_ready`, if it gets there. -/
def beforeReady (i : Turn) : NodeM S Bool := do
  if ← receive env i.received then do
    raftTick env i.ticks
    pure true
  else pure false

variable [Protobuf]

/-- One turn of the loop. Leaving the loop is a shutdown, whatever the
reason. -/
def turn (i : Turn) : NodeM S ReadyStatus := do
  if ← beforeReady env i then Node.processReady env i.round
  else pure .Shutdown

def step (s : Sys S) (i : Turn) : Sys S :=
  match s.status with
  | .running => Sys.after (turn env i s.node)
  | _ => s

def run (s : Sys S) (turns : List Turn) : Sys S := turns.foldl (step env) s

end

/-! ## What Raft promises

Raft's role is a function of what has happened so far, like the answers of the
`Env`. -/

/-- Raft changes its role while it handles a message or a tick, and at no other
time. -/
def Calm (role : List Obs → StateRole) : Prop :=
  ∀ t o, o ≠ .tick → (∀ message, o ≠ .step message) → role (t ++ [o]) = role t

/-- Up to the last `Ready`. -/
def lastReady (t : List Obs) : List Obs := t.rdropWhile fun o => !isReady o

/-- A round has the role of the moment, and there is one if the role is not what
it was at the last `Ready`. -/
def Honest (role : List Obs → StateRole) (t : List Obs) : Option Round → Prop
  | some round => round.isLeader = true ↔ role t = .Leader
  | none => role t = role (lastReady t)

instance (role : List Obs → StateRole) (t : List Obs) :
    ∀ round, Decidable (Honest role t round)
  | some round => inferInstanceAs (Decidable (round.isLeader = true ↔ role t = .Leader))
  | none => inferInstanceAs (Decidable (role t = role (lastReady t)))

section
variable {S : Type} [StorageExt S] [Formats] (env : Env)

/-- What has happened when `process_ready` is called. -/
def readyAt (i : Turn) (n : Node S) : Option (List Obs) :=
  match beforeReady env i n with
  | .ok true n => some n.trace
  | _ => none

/-- Raft is honest in this turn. -/
def Shows (role : List Obs → StateRole) (s : Sys S) (i : Turn) : Prop :=
  s.status = .running → ∀ t ∈ readyAt env i s.node, Honest role t i.round

instance (role : List Obs → StateRole) (s : Sys S) (i : Turn) : Decidable (Shows env role s i) :=
  inferInstanceAs (Decidable (_ → _))

end

/-! ## Orderly proposals -/

/-- The role is that of a leader after `u`, and at every moment of `v`. -/
def Uninterrupted (role : List Obs → StateRole) (u v : List Obs) : Prop :=
  ∀ w, w <+: v → role (u ++ w) = .Leader

/-- Leadership is never lost and regained between one `Ready` and the next. -/
def NoLapse (role : List Obs → StateRole) (t : List Obs) : Prop :=
  ∀ u v, u ++ v <+: t → (∀ o ∈ v, isReady o = false) → role u = .Leader →
    role (u ++ v) = .Leader → Uninterrupted role u v

/-- `finalize_block` has returned `b` in the leadership that still lasts. -/
def FinalizedInOffice (env : Env) (role : List Obs → StateRole) (b : BlockId) (t : List Obs) :
    Prop :=
  ∃ u v, t = u ++ .finalizeBlock :: v ∧ env.finalizeBlock (u ++ [.finalizeBlock]) = .ok b ∧
    Uninterrupted role u (.finalizeBlock :: v)

/-- The discipline of a leader, in the terms of Raft's role. -/
structure Orderly (env : Env) (role : List Obs → StateRole) (t : List Obs) : Prop where
  leads : ∀ u b, u ++ [.propose b] <+: t → role u = .Leader
  valid : ∀ u b, u ++ [.propose b] <+: t → .blockValid b ∈ u
  /-- No `Ready` since then was that of another role. -/
  finalized : ∀ u b, u ++ [.propose b] <+: t → Node.Finalized env b u
  inOffice : NoLapse role t → ∀ u b, u ++ [.propose b] <+: t → FinalizedInOffice env role b u
  /-- Every finalised block is proposed at most once. -/
  once : (Node.proposals t).Sublist (Node.finalizedBlocks env t)
  confirmed : ∀ u b v b', u ++ .propose b :: v ++ [.propose b'] <+: t →
    Uninterrupted role u (.propose b :: v) → Node.ConfirmedIn b v
  changeLeads : ∀ u change, u ++ [.proposeConfChange change] <+: t → role u = .Leader
  changed : ∀ u change v b, u ++ .proposeConfChange change :: v ++ [.propose b] <+: t →
    Uninterrupted role u (.proposeConfChange change :: v) → Node.ChangedIn v

/-! ## The node knows its role -/

open Node

/-- What the stages are told: whoever proposes leads, and `Ready`s are
honest. -/
def terms (role : List Obs → StateRole) : Terms where
  may t := leading t = true ∧ role t = .Leader
  shown t round := Honest role t (some round)

/-- A node that takes itself for the leader is. -/
def Aware (role : List Obs → StateRole) (t : List Obs) : Prop :=
  leading t = true → role t = .Leader

section
variable {env : Env} {role : List Obs → StateRole} {t u v : List Obs}

theorem aware_sustained (hcalm : Calm role) : Sustained (Aware role) := by
  intro t o ho h hleads
  rw [leading_snoc] at hleads
  have hrole : role (t ++ [o]) = role t := by
    refine hcalm t o (fun h => ?_) fun message h => ?_
    · rw [h] at ho
      exact ho
    · rw [h] at ho
      exact ho
  rw [hrole]
  cases o with
  | ready round => exact ho.elim
  | _ => exact h hleads

theorem aware_ready (hcalm : Calm role) {round : Round} (h : Honest role t (some round)) :
    Aware role (t ++ [.ready round]) := by
  intro hleads
  rw [leading_snoc] at hleads
  rw [hcalm t _ (by simp) (by simp)]
  exact h.mp hleads

theorem aware_files (ops : List FileOp) : Aware role (ops.map Obs.file) := by
  have hfalse : leading (ops.map Obs.file) = false := by
    induction ops using List.reverseRecOn with
    | nil => rfl
    | append_singleton ops op ih =>
      rw [List.map_append, List.map_singleton, leading_snoc]
      exact ih
  intro hleads
  rw [hfalse] at hleads
  cases hleads

/-- A leading node was a leader at the last `Ready`. -/
theorem role_lastReady (hcalm : Calm role)
    (h : ∀ u round, u ++ [.ready round] <+: t → Honest role u (some round))
    (hleads : leading t = true) : role (lastReady t) = .Leader := by
  induction t using List.reverseRecOn with
  | nil => cases hleads
  | append_singleton t o ih =>
    rw [leading_snoc] at hleads
    have hprefix : t <+: t ++ [o] := List.prefix_append ..
    cases o with
    | ready round =>
      rw [lastReady, List.rdropWhile_concat_neg _ _ _ (by simp [isReady])]
      rw [hcalm t _ (by simp) (by simp)]
      exact (h t round (List.prefix_refl _)).mp hleads
    | _ =>
      rw [lastReady, List.rdropWhile_concat_pos _ _ _ (by simp [isReady])]
      exact ih (fun u round hu => h u round (hu.trans hprefix)) hleads

/-- What comes after the last `Ready`. -/
theorem lastReady_append (t : List Obs) :
    ∃ v, t = lastReady t ++ v ∧ ∀ o ∈ v, isReady o = false := by
  refine ⟨t.rtakeWhile fun o => !isReady o, List.rdropWhile_append_rtakeWhile.symm, fun o ho => ?_⟩
  simpa using List.mem_rtakeWhile_imp ho

/-- The next `Ready` of a list, if there is one. -/
theorem exists_nextReady (v : List Obs) :
    ∃ w, (∀ o ∈ w, isReady o = false) ∧ (v = w ∨ ∃ round x, v = w ++ .ready round :: x) := by
  induction v with
  | nil => exact ⟨[], by simp, Or.inl rfl⟩
  | cons o v ih =>
    cases ho : isReady o with
    | true =>
      cases o with
      | ready round => exact ⟨[], by simp, Or.inr ⟨round, v, rfl⟩⟩
      | _ => cases ho
    | false =>
      obtain ⟨w, hw, hv⟩ := ih
      refine ⟨o :: w, List.forall_mem_cons.mpr ⟨ho, hw⟩, ?_⟩
      rcases hv with rfl | ⟨round, x, rfl⟩
      · exact Or.inl rfl
      · exact Or.inr ⟨round, x, rfl⟩

/-- In an uninterrupted leadership every `Ready` is that of a leader. -/
theorem Uninterrupted.asLeader {o : Obs}
    (h : ∀ u round, u ++ [.ready round] <+: t → Honest role u (some round))
    (ht : u ++ o :: v <+: t) (hu : Uninterrupted role u (o :: v)) : ∀ o' ∈ v, AsLeader o' := by
  intro o' ho'
  obtain ⟨v₁, v₂, rfl⟩ := List.append_of_mem ho'
  cases o' with
  | ready round =>
    have hshown : Honest role (u ++ o :: v₁) (some round) := by
      refine h _ round (List.IsPrefix.trans ⟨v₂, ?_⟩ ht)
      simp
    exact hshown.mpr (hu _ ⟨.ready round :: v₂, by simp⟩)
  | _ => trivial

/-- Without a lapse, what the `Ready`s say of a leadership holds all the time:
every moment lies between two of them, the last of which may be the end. -/
theorem uninterrupted_of_asLeader (hcalm : Calm role) (hlapse : NoLapse role t)
    (h : ∀ u round, u ++ [.ready round] <+: t → Honest role u (some round))
    (ht : u ++ v <+: t) (hu : leading u = true) (hv : ∀ o ∈ v, AsLeader o)
    (hend : role (u ++ v) = .Leader) : Uninterrupted role u v := by
  intro w hw
  obtain ⟨x, rfl⟩ := hw
  rw [← List.append_assoc] at ht hend
  obtain ⟨y, hy, hx⟩ := exists_nextReady x
  -- a leader at the Ready before
  have hleads : leading (u ++ w) = true :=
    leading_append hu fun o ho => hv o (List.mem_append_left _ ho)
  have hbefore : role (lastReady (u ++ w)) = .Leader :=
    role_lastReady hcalm (fun u' round hu' => h u' round
      (hu'.trans ((List.prefix_append ..).trans ht))) hleads
  -- and at the Ready after
  have hafter : u ++ w ++ y <+: t ∧ role (u ++ w ++ y) = .Leader := by
    rcases hx with rfl | ⟨round, z, rfl⟩
    · exact ⟨ht, hend⟩
    · have hready : u ++ w ++ y ++ [.ready round] <+: t :=
        List.IsPrefix.trans ⟨z, by simp⟩ ht
      exact ⟨(List.prefix_append ..).trans hready,
        (h _ round hready).mp (hv (.ready round) (by simp))⟩
  obtain ⟨z, hz, hzready⟩ := lastReady_append (u ++ w)
  have hsplit : u ++ w ++ y = lastReady (u ++ w) ++ (z ++ y) := by
    rw [← List.append_assoc, ← hz]
  rw [hsplit] at hafter
  have hbetween := hlapse _ _ hafter.1 ?_ hbefore hafter.2 z (List.prefix_append ..)
  · rwa [← hz] at hbetween
  · intro o ho
    rcases List.mem_append.mp ho with ho | ho
    · exact hzready o ho
    · exact hy o ho

theorem stage_disciplined {l : Option LeaderState} (h : Stage env (terms role) t l) :
    Disciplined env (terms role) t :=
  (h.disciplined fun _ (hmay : (terms role).may _) => hmay.1).1

/-- The discipline of a leader that is aware of its role. -/
theorem orderly_of_disciplined (hcalm : Calm role) (h : Disciplined env (terms role) t) :
    Orderly env role t where
  leads u b hu := (h.blocks u b hu).may.2
  valid u b hu := (h.blocks u b hu).valid
  finalized u b hu := (h.blocks u b hu).finalized
  inOffice hlapse u b hu := by
    obtain ⟨w, v, rfl, hb, hw, hv⟩ := (h.blocks u b hu).finalized
    refine ⟨w, v, rfl, hb, ?_⟩
    exact uninterrupted_of_asLeader hcalm hlapse h.shown ((List.prefix_append ..).trans hu) hw
      (List.forall_mem_cons.mpr ⟨trivial, hv⟩) (h.blocks _ b hu).may.2
  once := h.once
  confirmed u b v b' hu hrole :=
    (h.blocks _ b' hu).confirmed b u v rfl
      (hrole.asLeader h.shown ((List.prefix_append ..).trans hu))
  changeLeads u change hu := (h.changes u change hu).2
  changed u change v b hu hrole :=
    (h.blocks _ b hu).changed change u v rfl
      (hrole.asLeader h.shown ((List.prefix_append ..).trans hu))

end

section
variable {S : Type} [StorageExt S] [Formats] {env : Env} {role : List Obs → StateRole}

theorem handleUpdate_steered (hcalm : Calm role) (u : Update) :
    Triple (Steered env (terms role) (Aware role)) (handleUpdate env u : NodeM S Bool)
      (fun _ => Steered env (terms role) fun _ => True) (fun _ => Ended env (terms role)) := by
  have hT := aware_sustained hcalm
  have hA : ∀ t, leading t = true → Aware role t → (terms role).may t :=
    fun t hleads haware => ⟨hleads, haware hleads⟩
  cases u with
  | blockNew block =>
    exact Triple.bind (onBlockNew_steered hT block) fun _ => Triple.pure fun _ hn => hn.any
  | blockValid b =>
    exact Triple.bind (onBlockValid_steered hT hA b) fun _ => Triple.pure fun _ hn => hn.any
  | blockCommit b =>
    exact Triple.bind (onBlockCommit_steered hT hA b) fun _ => Triple.pure fun _ hn => hn.any
  | peerMessage content =>
    exact Triple.bind ((onPeerMessage_steered content).pre fun _ hn => hn.any) fun _ =>
      Triple.pure fun _ hn => hn
  | shutdown => exact Triple.pure fun _ hn => hn.any
  | other => exact Triple.pure fun _ hn => hn.any

theorem beforeReady_steered (hcalm : Calm role) (i : Turn) :
    Triple (Steered env (terms role) (Aware role)) (beforeReady env i : NodeM S Bool)
      (fun _ => Steered env (terms role) fun _ => True) (fun _ => Ended env (terms role)) := by
  refine Triple.bind (R := fun _ => Steered env (terms role) fun _ => True) ?_ fun go => ?_
  · cases i.received with
    | timeout => exact Triple.pure fun _ hn => hn.any
    | disconnected => exact Triple.pure fun _ hn => hn.any
    | update u => exact handleUpdate_steered hcalm u
  · refine Triple.ite (fun _ => ?_) fun _ => Triple.pure fun _ hn => hn
    refine Triple.bind (R := fun _ => Steered env (terms role) fun _ => True) ?_ fun _ =>
      Triple.pure fun _ hn => hn
    exact Triple.ite (fun _ => tick_steered) fun _ => Triple.pure fun _ hn => hn

variable [Protobuf]

/-- **Turn**: at the end of a turn the node knows its role, whatever Raft has
done in the course of it. -/
theorem turn_steered (hcalm : Calm role) (i : Turn) :
    Triple (fun n => Steered env (terms role) (Aware role) n ∧
        ∀ t ∈ readyAt env i n, Honest role t i.round)
      (turn env i : NodeM S ReadyStatus)
      (Sys.Leaves (Steered env (terms role) (Aware role)) fun _ => Ended env (terms role))
      (fun _ => Ended env (terms role)) := by
  refine Triple.bind (R := fun go n => Steered env (terms role) (fun _ => True) n ∧
    (go = true → Honest role n.trace i.round)) ?_ fun go => ?_
  · intro n hn
    have hbefore := beforeReady_steered hcalm i n hn.1
    have hshows := hn.2
    unfold readyAt at hshows
    cases hr : beforeReady env i n with
    | error p n' => rwa [hr] at hbefore
    | ok go n' =>
      rw [hr] at hbefore hshows
      refine ⟨hbefore, fun hgo => ?_⟩
      subst hgo
      exact hshows n'.trace rfl
  · refine Triple.ite (fun hgo => ?_) fun _ => Triple.pure fun _ hn => hn.1.ended
    refine (processReady_steered (aware_sustained hcalm) (fun t round => aware_ready hcalm)
      i.round).conseq (fun n hn => ?_) (fun status n hn => ?_) fun _ _ hn => hn
    · obtain ⟨hsteered, hhonest⟩ := hn
      replace hhonest := hhonest hgo
      refine ⟨_, hsteered, fun hnone hleads => ?_, fun round hround => ?_⟩
      · -- without a Ready the role is what it was at the last one
        obtain ⟨l, hstaged⟩ := hsteered
        have hdisc := stage_disciplined hstaged.stage
        rw [hnone] at hhonest
        exact Eq.trans hhonest (role_lastReady hcalm hdisc.shown hleads)
      · rw [hround] at hhonest
        exact hhonest
    · cases status with
      | Continue => exact hn
      | Shutdown => exact hn.ended

theorem step_steered (hcalm : Calm role) {s : Sys S} {i : Turn}
    (hs : s.Sat (Steered env (terms role) (Aware role)) fun _ => Ended env (terms role))
    (hi : Shows env role s i) :
    (step env s i).Sat (Steered env (terms role) (Aware role)) fun _ => Ended env (terms role) := by
  obtain ⟨n, status⟩ := s
  cases status with
  | running =>
    have hturn := turn_steered hcalm i n ⟨hs, hi rfl⟩
    show (Sys.after (turn env i n)).Sat _ _
    cases hr : turn env i n with
    | ok st n' =>
      rw [hr] at hturn
      cases st with
      | Continue => exact hturn
      | Shutdown => exact hturn
    | error p n' =>
      rw [hr] at hturn
      exact hturn
  | shutdown => exact hs
  | panicked p => exact hs

/-- **The proposals of a leader are orderly**, in every run of the loop with an
honest Raft. -/
theorem loop_orderly (node : Node S) (h : Sys.IsNew node) (env : Env)
    (role : List Obs → StateRole) (hcalm : Calm role) (turns : List Turn)
    (hshows : Meets (step env) (Shows env role) (Sys.start node) turns) :
    Orderly env role (run env (Sys.start node) turns).node.trace := by
  have hrun : (run env (Sys.start node) turns).Sat (Steered env (terms role) (Aware role))
      fun _ => Ended env (terms role) :=
    Meets.invariant (fun _ _ => step_steered hcalm) (new_steered h aware_files) hshows
  generalize run env (Sys.start node) turns = s at hrun
  obtain ⟨n, status⟩ := s
  have hended : Ended env (terms role) n := by
    cases status with
    | running => exact Steered.ended hrun
    | shutdown => exact hrun
    | panicked p => exact hrun
  obtain ⟨l, hstage⟩ := hended
  exact orderly_of_disciplined hcalm (stage_disciplined hstage)

end

/-! ## A lapse of leadership -/

def isRaftAct : Obs → Bool
  | .tick | .step _ => true
  | _ => false

/-- A role that depends on how many messages and ticks there have been. -/
def roleBy (f : Nat → StateRole) (t : List Obs) : StateRole := f (t.countP isRaftAct)

theorem calm_roleBy (f : Nat → StateRole) : Calm (roleBy f) := by
  intro t o htick hstep
  have ho : isRaftAct o = false := by
    cases o with
    | tick => exact absurd rfl htick
    | step message => exact absurd rfl (hstep message)
    | _ => rfl
  unfold roleBy
  rw [List.countP_append, List.countP_singleton, ho]
  rfl

open scoped Proto3 PlainFormats

/-- Every message can be parsed, and every block that is built is `[7]`. -/
def loopEnv : Env :=
  { Env.obliging [7] fun _ => twoPeersSetting with
    parseMessage := fun _ => some { toId := 1, bytes := [] } }

/-- The node is elected by a message, publishes its block at the next tick and
proposes it when it is valid. -/
def proposingTurns : List Turn :=
  [{ received := .update (.peerMessage [1]), round := some { isLeader := true } },
    { ticks := true },
    { received := .update (.blockValid [7]) }]

/-- Elected for good. -/
def electedRole : List Obs → StateRole := roleBy fun acts => if acts = 0 then .Follower else .Leader

theorem loop_orderly_proposing : ∃ node : Node FsStorage, twoPeers = .ok node ∧
    Meets (step loopEnv) (Shows loopEnv electedRole) (Sys.start node) proposingTurns ∧
    .propose [7] ∈ (run loopEnv (Sys.start node) proposingTurns).node.trace ∧
    Orderly loopEnv electedRole (run loopEnv (Sys.start node) proposingTurns).node.trace := by
  obtain ⟨n, hn⟩ : ∃ n, twoPeers = .ok n := ⟨_, rfl⟩
  have hshows : Meets (step loopEnv) (Shows loopEnv electedRole) (Sys.start n) proposingTurns ∧
      .propose [7] ∈ (run loopEnv (Sys.start n) proposingTurns).node.trace := by
    obtain rfl := Except.ok.inj (hn.symm.trans (rfl : twoPeers = .ok _))
    decide +kernel
  exact ⟨n, hn, hshows.1, hshows.2,
    loop_orderly n (twoPeers_isNew hn) loopEnv electedRole (calm_roleBy _) _ hshows.1⟩

/-- The role is lost to the second message, and regained by the tick that
follows. -/
def lapsingRole : List Obs → StateRole :=
  roleBy fun acts => if acts = 0 ∨ acts = 3 then .Follower else .Leader

/-- The lapse falls between the publishing of the block and its proposal. -/
def lapsingTurns : List Turn :=
  [{ received := .update (.peerMessage [1]), round := some { isLeader := true } },
    { ticks := true },
    { received := .update (.peerMessage [2]), ticks := true, round := some { isLeader := true } },
    { received := .update (.blockValid [7]) }]

theorem FinalizedInOffice.at {env : Env} {role : List Obs → StateRole} {b : BlockId}
    {t : List Obs} (h : FinalizedInOffice env role b t) :
    ∃ k < t.length, t[k]? = some .finalizeBlock ∧ ∀ j, k ≤ j → role (t.take j) = .Leader := by
  obtain ⟨u, v, rfl, -, hrole⟩ := h
  refine ⟨u.length, by simp, by simp, fun j hj => ?_⟩
  rw [List.take_append, List.take_of_length_le hj]
  exact hrole _ (List.take_prefix ..)

/-- The trace of `lapsingTurns` up to the proposal. -/
def untilProposal : List Obs :=
  [.peerMessage [1], .step { toId := 1, bytes := [] }, .ready { isLeader := true },
    .initializeBlock [], .advance, .tick, .summarizeBlock, .finalizeBlock, .peerMessage [2],
    .step { toId := 1, bytes := [] }, .tick, .ready { isLeader := true }, .advance,
    .blockValid [7]]

/-- Block 7 is proposed in another leadership than it was finalised in. -/
theorem proposed_after_lapse : ∃ node : Node FsStorage, Sys.IsNew node ∧ Calm lapsingRole ∧
    Meets (step loopEnv) (Shows loopEnv lapsingRole) (Sys.start node) lapsingTurns ∧
    ¬ ∀ u b, u ++ [.propose b] <+: (run loopEnv (Sys.start node) lapsingTurns).node.trace →
      FinalizedInOffice loopEnv lapsingRole b u := by
  obtain ⟨n, hn⟩ : ∃ n, twoPeers = .ok n := ⟨_, rfl⟩
  have hrun : Meets (step loopEnv) (Shows loopEnv lapsingRole) (Sys.start n) lapsingTurns ∧
      untilProposal ++ [.propose [7]] <+: (run loopEnv (Sys.start n) lapsingTurns).node.trace := by
    obtain rfl := Except.ok.inj (hn.symm.trans (rfl : twoPeers = .ok _))
    decide +kernel
  refine ⟨n, twoPeers_isNew hn, calm_roleBy _, hrun.1, fun h => ?_⟩
  obtain ⟨k, hk, hfinalize, hrole⟩ := (h untilProposal [7] hrun.2).at
  -- the only call to `finalize_block` comes before the second message
  have hbefore : ∀ k < untilProposal.length, untilProposal[k]? = some .finalizeBlock → k ≤ 10 := by
    decide
  have hlost : lapsingRole (untilProposal.take 10) ≠ .Leader := by decide
  exact hlost (hrole 10 (hbefore k hk hfinalize))

end Engine

end SawtoothRaft
