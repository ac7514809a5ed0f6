import Mathlib.Logic.Relation
import SawtoothRaft.Node.Aloof
import SawtoothRaft.Node.Discipline
import SawtoothRaft.Node.Leader
import SawtoothRaft.Node.Steady

/-!
# The node as a machine of small steps

The handlers are procedures, and an invariant of theirs has to be carried
through all the procedures. Much of what is true of a run does not depend on how
they are cut, only on the single things a node does and on the conditions under
which it does them. `Act` lists these, and `run_acts` says that there are no
others: every run of the handlers is a run of the machine.

What the node has to do with Raft comes in rounds, from `ready` to `advance`,
and a round goes through its phases in order. `place` says where a trace has got
to, `Placed` what may come next there. Every `Act` that is seen from outside
respects it.
-/

namespace SawtoothRaft

open Lib

/-- The phases of a round. A leader sends first and stores then, a follower the
other way about. -/
inductive Phase where
  | sending
  | storing
  | answering
  | delivering
  | committing
  /-- A configuration change has been taken up: it is carried out before anything else. -/
  | changing
  deriving DecidableEq, Repr

def Phase.rank : Phase → Nat
  | .sending => 0
  | .storing => 1
  | .answering => 2
  | .delivering => 3
  | .committing => 4
  | .changing => 5

/-- Where a node is: between two rounds, or in one of them, with so many entries
still to be taken up. -/
inductive Place where
  | outside
  | inside (round : Round) (phase : Phase) (rest : List Entry)
  deriving DecidableEq, Repr

/-- The phase after one more observation in a round. -/
def Phase.next (leads : Bool) (phase : Phase) : Obs → Phase
  | .file _ => .storing
  | .cancelBlock => .answering
  | .sendTo _ _ => if leads then .sending else .answering
  | .entry e => if Node.IsChange e then .changing else .delivering
  | .applyConfChange _ => .delivering
  | .commitBlock _ => .committing
  | _ => phase

/-- The entries that are left after one more observation. -/
def leftAfter (rest : List Entry) : Obs → List Entry
  | .entry _ => rest.tail
  | _ => rest

def Place.next (place : Place) : Obs → Place
  | .ready round =>
    .inside round (if round.isLeader then .sending else .storing) round.committed
  | .advance => .outside
  | o =>
    match place with
    | .outside => .outside
    | .inside round phase rest => .inside round (phase.next round.isLeader o) (leftAfter rest o)

/-- Where the node is at the end of a trace. -/
def place (t : List Obs) : Place := t.foldl Place.next .outside

/-- The phase in which messages go out. -/
def SendsIn (round : Round) (phase : Phase) : Prop :=
  if round.isLeader then phase = .sending else phase.rank ≤ Phase.answering.rank

/-- What may happen in a phase of a round. -/
def InRound (round : Round) (phase : Phase) (rest : List Entry) : Obs → Prop
  | .sendTo _ message =>
    SendsIn round phase ∧ ∃ msg ∈ round.ready.messages, msg.bytes = message
  | .cancelBlock => round.isLeader = false ∧ phase.rank ≤ Phase.storing.rank
  | .file _ => phase.rank ≤ Phase.storing.rank
  | .entry e => phase.rank ≤ Phase.delivering.rank ∧ rest.head? = some e
  | .applyConfChange _ => phase = .changing
  -- on election, or after a change that the leader has waited for
  | .initializeBlock _ => round.isLeader = true ∧ (phase = .sending ∨ phase = .delivering)
  | .commitBlock _ => phase.rank ≤ Phase.delivering.rank ∧ rest = []
  | .advance => phase ≠ .changing ∧ rest = []
  | _ => False

/-- What belongs in a round and nowhere else. -/
def OnlyInRound : Obs → Prop
  | .sendTo _ _ | .cancelBlock | .entry _ | .applyConfChange _ | .commitBlock _ | .advance => True
  | _ => False

/-- What may happen next. -/
def Placed : Place → Obs → Prop
  | .outside, o => ¬ OnlyInRound o
  | .inside round phase rest, o => InRound round phase rest o

@[simp] theorem place_snoc (t : List Obs) (o : Obs) : place (t ++ [o]) = (place t).next o := by
  simp only [place, List.foldl_append, List.foldl_cons, List.foldl_nil]

/-- Between two rounds the store may be written to. -/
theorem place_files {t : List Obs} (h : place t = .outside) (ops : List FileOp) :
    place (t ++ ops.map Obs.file) = .outside := by
  induction ops generalizing t with
  | nil => rwa [List.map_nil, List.append_nil]
  | cons op ops ih =>
    rw [List.map_cons, List.append_cons]
    refine ih ?_
    rw [place_snoc, h]
    rfl

namespace Node

variable {S α : Type}

/-- Observations that leave everything but the trace as it is, and come without
conditions of their own. -/
def Routine : Obs → Prop
  | .blockNew _ | .blockValid _ | .entry _ | .initializeBlock _ | .summarizeBlock | .finalizeBlock
  | .commitBlock _ | .sendTo _ _ | .proposeConfChange _ | .applyConfChange _ | .setApplied _
  | .file _ => False
  | _ => True

/-- The message is one of the round, and it is time to send it. -/
def MaySend (msg : RaftMessage) (t : List Obs) : Prop :=
  ∃ round phase rest, place t = .inside round phase rest ∧ msg ∈ round.ready.messages ∧
    SendsIn round phase

theorem MaySend.placed {msg : RaftMessage} {t : List Obs} (h : MaySend msg t) (peerId : PeerId) :
    Placed (place t) (.sendTo peerId msg.bytes) := by
  obtain ⟨round, phase, rest, hp, hmsg, hsends⟩ := h
  rw [hp]
  exact ⟨hsends, msg, hmsg, rfl⟩

/-- The node with a block begun. -/
def begun (env : Env) (n : Node S) : Node S :=
  { n with leaderState := some (.building (env.now n.trace)) }.add
    (.initializeBlock n.blockQueue.commitQueue)

/-- The node after `finalize_block`, by the answer to it. -/
def finalized (env : Env) (since : Nat) (n : Node S) : Node S :=
  let answer := env.finalizeBlock (n.trace ++ [.finalizeBlock])
  { n with leaderState := some (publishedAs since answer) }.add .finalizeBlock

/-- The single steps of a node. -/
inductive Act [StorageExt S] [Protobuf] (env : Env) : Node S → Node S → Prop
  | note (n : Node S) (o : Obs) (ho : Routine o) (hp : Placed (place n.trace) o) :
    Act env n (n.add o)
  /-- The roles change, but for the beginning of a block. -/
  | roles (n : Node S) (l : Option LeaderState) (f : Option FollowerState)
    (hl : ∀ since, l = some (.building since) → n.leaderState = l) :
    Act env n { n with leaderState := l, followerState := f }
  | announce (n : Node S) (block : Block) (hp : place n.trace = .outside) :
    Act env n { n.add (.blockNew block) with blockQueue := n.blockQueue.blockNew block }
  | validate (n : Node S) (b : BlockId) (hp : place n.trace = .outside) :
    Act env n { n.add (.blockValid b) with blockQueue := n.blockQueue.blockValid b }
  /-- In answer to the notification `b`, and with `b` in front. -/
  | confirm (n : Node S) (b : BlockId) (i : Nat) (q : BlockQueue) (u : List Obs)
    (ht : n.trace = u ++ [.blockCommit b]) (hb : n.blockQueue.getNextCommittable = some b)
    (hq : n.blockQueue.blockCommitted = some (i, q)) (hp : place n.trace = .outside) :
    Act env n (n.confirmed i q)
  | build (n : Node S) (hp : Placed (place n.trace) (.initializeBlock n.blockQueue.commitQueue)) :
    Act env n (n.begun env)
  | summarize (n : Node S) (since : Nat) (hl : n.leaderState = some (.building since))
    (hdue : n.period ≤ env.now n.trace - since) (hp : place n.trace = .outside) :
    Act env n (n.add .summarizeBlock)
  | finalize (n : Node S) (since : Nat) (u : List Obs) (hl : n.leaderState = some (.building since))
    (ht : n.trace = u ++ [.summarizeBlock]) (hdue : n.period ≤ env.now u - since)
    (hp : place n.trace = .outside) :
    Act env n (n.finalized env since)
  | persist (n : Node S) (o : Outcome S Unit) (ho : Persists n.store o) (round : Round)
    (phase : Phase) (rest : List Entry) (hp : place n.trace = .inside round phase rest)
    (hphase : phase.rank ≤ Phase.storing.rank) : Act env n (n.stored o)
  | send (n : Node S) (msg : RaftMessage) (peerId : PeerId) (hmsg : MaySend msg n.trace)
    (hpeer : n.raftIdToPeerId.lookup msg.toId = some peerId) :
    Act env n (n.add (.sendTo peerId msg.bytes))
  | skip (n : Node S) (e : Entry) (he : ¬ IsBlock e) (hp : Placed (place n.trace) (.entry e)) :
    Act env n (n.add (.entry e))
  | take (n : Node S) (e : Entry) (he : IsBlock e) (hp : Placed (place n.trace) (.entry e)) :
    Act env n ((n.add (.entry e)).enqueue e)
  /-- The change to get from the members that are known to those of a setting. -/
  | reconfigure (n : Node S) (peers : List PeerId) (change : ConfChange)
    (hchange : confChangeBetween peers (n.raftIdToPeerId.entries.map (·.2)) = .ok (some change))
    (hp : place n.trace = .outside) : Act env n (n.add (.proposeConfChange change))
  /-- The change of the entry that has just been taken up. -/
  | peers (n n' : Node S) (change : ConfChange) (e : Entry) (u : List Obs)
    (ht : n.trace = u ++ [.entry e]) (he : IsChange e)
    (hparse : Protobuf.confChange.parseFromBytes e.data = some change)
    (h : PeersChanged n change n') (hp : Placed (place n.trace) (.applyConfChange change)) :
    Act env n (n'.add (.applyConfChange change))
  | commit (n : Node S) (b : BlockId) (hb : n.blockQueue.getNextCommittable = some b)
    (hp : Placed (place n.trace) (.commitBlock b)) : Act env n (n.add (.commitBlock b))

/-- Carrying out a change leaves no trace by itself. -/
theorem PeersChanged.trace_eq {n n' : Node S} {change : ConfChange}
    (h : PeersChanged n change n') : n'.trace = n.trace := by
  cases h with
  | add => rfl
  | remove => rfl
  | learner => rfl

/-- An assertion that every single step keeps. -/
def Stable [StorageExt S] [Protobuf] (env : Env) (I : Node S → Prop) : Prop :=
  ∀ n n', Act env n n' → I n → I n'

section
variable [StorageExt S] [Protobuf] {env : Env} {I P Q : Node S → Prop} {E : Panic → Node S → Prop}

/-! ## Single actions -/

theorem update_acts (hI : Stable env I) {g : Node S → Node S} (h : ∀ n, P n → Act env n (g n))
    (hQ : ∀ n, P n → Q (g n)) :
    Triple (fun n => I n ∧ P n) (modify g) (fun _ n => I n ∧ Q n) E :=
  Triple.update fun n hn => ⟨hI n _ (h n hn.2) hn.1, hQ n hn.2⟩

theorem tryCall_acts (hI : Stable env I) {o : Obs} {answer : List Obs → α}
    (h : ∀ n, P n → Act env n (n.add o)) (hQ : ∀ n, P n → Q (n.add o)) :
    Triple (fun n => I n ∧ P n) (tryCall o answer) (fun _ n => I n ∧ Q n) E := by
  refine Triple.bind (update_acts hI h hQ) fun _ => ?_
  exact Triple.bind (Triple.get (Q := fun _ n => I n ∧ Q n) fun _ hn => hn) fun _ =>
    Triple.pure fun _ hn => hn

theorem expectCall_acts (hI : Stable env I) {call : ServiceCall} {o : Obs}
    {answer : List Obs → Except ServiceError α} (h : ∀ n, P n → Act env n (n.add o))
    (hQ : ∀ n, P n → Q (n.add o)) :
    Triple (fun n => I n ∧ P n) (expectCall call o answer) (fun _ n => I n ∧ Q n) (fun _ => I) := by
  refine Triple.bind (tryCall_acts hI h hQ) fun r => ?_
  cases r with
  | ok a => exact Triple.pure fun _ hn => hn
  | error err => exact Triple.throw fun _ hn => hn.1

theorem startBuilding_acts (hI : Stable env I)
    (h : ∀ n, P n → Placed (place n.trace) (.initializeBlock n.blockQueue.commitQueue))
    (hQ : ∀ n, P n → Q (n.begun env)) :
    Triple (fun n => I n ∧ P n) (startBuilding env) (fun _ n => I n ∧ Q n) (fun _ => I) := by
  refine Triple.read fun n hn => ?_
  have hact := hI n _ (.build n (h n hn.2)) hn.1
  -- the state is set before the call, and seen only after it
  refine Triple.bind (R := fun _ n' => n' = { n with
    leaderState := some (.building (env.now n.trace)) }) (Triple.update fun s hs => by rw [hs])
    fun _ => ?_
  refine Triple.bind (tryCall_eq (G := fun n' => n' = _)) fun r => ?_
  cases r with
  | ok a =>
    refine Triple.pure fun s hs => ?_
    obtain ⟨_, rfl, rfl, -⟩ := hs
    exact ⟨hact, hQ n hn.2⟩
  | error err =>
    refine Triple.throw fun s hs => ?_
    obtain ⟨_, rfl, rfl, -⟩ := hs
    exact hact

/-! ## Between two rounds -/

/-- The node is not in a round. -/
def Outside (n : Node S) : Prop := place n.trace = .outside

omit [StorageExt S] [Protobuf] in
theorem Outside.add {n : Node S} (h : Outside n) {o : Obs} (ho : ∀ round, o ≠ .ready round) :
    Outside (n.add o) := by
  unfold Outside at h ⊢
  rw [add_trace, place_snoc, h]
  cases o with
  | ready round => exact absurd rfl (ho round)
  | _ => rfl

theorem Outside.note {n : Node S} (h : Outside n) {o : Obs} (ho : Routine o)
    (hin : ¬ OnlyInRound o) : Act env n (n.add o) := by
  refine .note n o ho ?_
  rw [h]
  exact hin

theorem onBlockNew_acts (hI : Stable env I) (block : Block) :
    Triple (fun n => I n ∧ Outside n) (onBlockNew env block) (fun _ n => I n ∧ Outside n)
      (fun _ => I) := by
  -- the node as it will be once the queue is updated
  let G : Node S → Prop := fun n =>
    I { n with blockQueue := n.blockQueue.blockNew block } ∧ Outside n
  refine Triple.bind (R := fun _ => G) (Triple.update fun n hn => ?_) fun _ => ?_
  · exact ⟨hI n _ (.announce n block hn.2) hn.1, hn.2.add (by simp)⟩
  refine Triple.bind (R := fun _ => G) ?_ fun _ => ?_
  · refine Triple.read fun n hn => Triple.ite (fun _ => ?_) fun _ => Triple.pure fun s hs => hs ▸ hn
    refine Triple.update fun s hs => ?_
    rw [hs]
    exact ⟨hI _ _ (.roles _ _ n.followerState (by simp)) hn.1, hn.2⟩
  refine Triple.bind (R := fun _ n => I n ∧ Outside n) (Triple.update fun n hn => hn) fun _ => ?_
  exact expectCall_acts hI (fun n hn => hn.note trivial (by simp [OnlyInRound]))
    fun n hn => hn.add (by simp)

theorem onBlockValid_acts (hI : Stable env I) (b : BlockId) :
    Triple (fun n => I n ∧ Outside n) (onBlockValid env b) (fun _ n => I n ∧ Outside n)
      (fun _ => I) := by
  refine Triple.bind (R := fun _ n => I { n with blockQueue := n.blockQueue.blockValid b } ∧
    Outside n) (Triple.update fun n hn => ?_) fun _ => ?_
  · exact ⟨hI n _ (.validate n b hn.2) hn.1, hn.2.add (by simp)⟩
  refine Triple.bind (R := fun _ n => I n ∧ Outside n) (Triple.update fun n hn => hn) fun _ => ?_
  refine Triple.read fun n hn => ?_
  refine Triple.pre ?_ (fun s (hs : s = n) => hs ▸ hn)
  refine Triple.ite (fun _ => ?_) fun _ => Triple.pure fun _ hn => hn
  refine Triple.bind (tryCall_acts hI (fun n hn => hn.note trivial (by simp [OnlyInRound]))
    fun n hn => hn.add (by simp)) fun ok => ?_
  cases ok with
  | true => exact update_acts hI (fun n _ => .roles n _ n.followerState (by simp)) fun _ hn => hn
  | false => exact Triple.throw fun _ hn => hn.1

theorem onPeerMessage_acts (hI : Stable env I) (message : Bytes) :
    Triple (fun n => I n ∧ Outside n) (onPeerMessage env message) (fun _ n => I n ∧ Outside n)
      (fun _ => I) := by
  refine Triple.bind (update_acts hI (Q := Outside)
    (fun n hn => hn.note (o := .peerMessage message) trivial (by simp [OnlyInRound]))
    fun n hn => hn.add (by simp)) fun _ => ?_
  split
  next msg _ =>
    exact update_acts hI (fun n hn => hn.note (o := .step msg) trivial (by simp [OnlyInRound]))
      fun n hn => hn.add (by simp)
  next => exact Triple.throw fun _ hn => hn.1

/-- A block is due, and the validator is asked for it. -/
theorem publish_acts (hI : Stable env I) (since : Nat) :
    Triple (fun n => I n ∧ Outside n ∧ n.leaderState = some (.building since) ∧
        n.period ≤ env.now n.trace - since) (publish env) (fun _ n => I n ∧ Outside n)
      (fun _ => I) := by
  refine Triple.bind (tryCall_acts (Q := fun n => Outside n ∧
      n.leaderState = some (.building since) ∧
      ∃ u, n.trace = u ++ [.summarizeBlock] ∧ n.period ≤ env.now u - since) hI
    (fun n hn => .summarize n since hn.2.1 hn.2.2 hn.1)
    fun n hn => ⟨hn.1.add (by simp), hn.2.1, n.trace, rfl, hn.2.2⟩) fun r => ?_
  split
  · exact Triple.pure fun n hn => ⟨hn.1, hn.2.1⟩
  · exact Triple.throw fun n hn => hn.1
  · refine Triple.bind tryCall_eq fun r => ?_
    -- what the machine does in one step, by the answer
    have hact : ∀ n', (I n' ∧ Outside n' ∧ n'.leaderState = some (.building since) ∧
        ∃ u, n'.trace = u ++ [.summarizeBlock] ∧ n'.period ≤ env.now u - since) →
        I (n'.finalized env since) := by
      intro n' hn'
      obtain ⟨hn', hout, hl, u, ht, hdue⟩ := hn'
      exact hI n' _ (.finalize n' since u hl ht hdue hout) hn'
    -- a block that is not published goes on being built
    have hsame : ∀ (n' : Node S) err, n'.leaderState = some (.building since) →
        .error err = env.finalizeBlock (n'.trace ++ [.finalizeBlock]) →
        n'.finalized env since = n'.add .finalizeBlock := by
      intro n' err hl hr
      rw [finalized, ← hr, publishedAs, ← hl]
    split
    next b =>
      refine Triple.update fun s hs => ?_
      obtain ⟨n', hn', rfl, hr⟩ := hs
      have := hact n' hn'
      rw [finalized, ← hr] at this
      exact ⟨this, hn'.2.1.add (by simp)⟩
    next =>
      refine Triple.pure fun s hs => ?_
      obtain ⟨n', hn', rfl, hr⟩ := hs
      exact ⟨hsame n' _ hn'.2.2.1 hr ▸ hact n' hn', hn'.2.1.add (by simp)⟩
    next err _ =>
      refine Triple.throw fun s hs => ?_
      obtain ⟨n', hn', rfl, hr⟩ := hs
      exact hsame n' _ hn'.2.2.1 hr ▸ hact n' hn'

theorem tick_acts (hI : Stable env I) :
    Triple (fun n => I n ∧ Outside n) (tick env) (fun _ n => I n ∧ Outside n) (fun _ => I) := by
  refine Triple.bind (update_acts hI (Q := Outside)
    (fun n hn => hn.note (o := .tick) trivial (by simp [OnlyInRound]))
    fun n hn => hn.add (by simp)) fun _ => ?_
  refine Triple.read fun n hn => ?_
  split
  next since hl =>
    refine Triple.ite (fun hdue => ?_) fun _ => Triple.pure fun s hs => hs ▸ hn
    exact (publish_acts hI since).pre fun s hs => hs ▸ ⟨hn.1, hn.2, hl, hdue⟩
  next => exact Triple.pure fun s hs => hs ▸ hn

/-! ## The confirmation of a block -/

/-- The notification `b` has just come in, and if anybody waits for it, it is
the block in front. -/
structure Heard (b : BlockId) (n : Node S) : Prop where
  outside : Outside n
  trace : ∃ u, n.trace = u ++ [.blockCommit b]
  front : IsCommitting n b → n.blockQueue.getNextCommittable = some b
  role : OneRole n.leaderState n.followerState

theorem confirmFront_acts (hI : Stable env I) {b : BlockId} {l : Option LeaderState}
    {f : Option FollowerState} (hc : l = some (.committing b) ∨ f = some (.committing b)) :
    Triple (At l f fun n => I n ∧ Heard b n) confirmFront (fun _ => At l f fun n => I n ∧ Outside n)
      (fun _ => I) := by
  refine (confirmFront_at (G := fun n => IsCommitting n b ∧ I n ∧ Heard b n) ?_ ?_ ?_).pre
    fun n hn => ⟨hn.leader, hn.follower, ?_, hn.rest⟩
  · intro n i q hq hn
    obtain ⟨hc, hn, h⟩ := hn
    obtain ⟨u, ht⟩ := h.trace
    refine ⟨hI n _ (.confirm n b i q u ht (h.front hc) hq h.outside) hn, ?_⟩
    show place ((n.trace ++ [.setApplied i]) ++ _) = .outside
    exact place_files (by rw [place_snoc, h.outside]; rfl) _
  · exact fun n _ hn => hn.2.1
  · exact fun _ _ _ hn => hn.1
  · rw [IsCommitting, hn.leader, hn.follower]
    exact hc

/-- A leader that goes on: no follower's part is left to be played. -/
structure Onward (n : Node S) : Prop where
  outside : Outside n
  follower : n.followerState = none

variable [Formats]

theorem afterCommit_acts (hI : Stable env I) (b : BlockId) :
    Triple (fun n => I n ∧ Onward n) (afterCommit env b) (fun _ n => I n ∧ Onward n)
      (fun _ => I) := by
  have hadd : ∀ o, (∀ round, o ≠ .ready round) → ∀ n : Node S, Onward n → Onward (n.add o) :=
    fun o ho n hn => ⟨hn.outside.add ho, hn.follower⟩
  -- the change that is found, for the members at that time
  let Found (change : Option ConfChange) (n : Node S) : Prop := ∀ c, change = some c →
    ∃ peers, confChangeBetween peers (n.raftIdToPeerId.entries.map (·.2)) = .ok (some c)
  have hcheck : Triple (fun n : Node S => I n ∧ Onward n) (checkForConfChange env b)
      (fun change n => I n ∧ Onward n ∧ Found change n) (fun _ => I) := by
    refine Triple.bind (expectCall_acts hI
      (fun n hn => hn.outside.note (o := .getSettings b [peersKey]) trivial
        (by simp [OnlyInRound])) (hadd _ (by simp))) fun settings => ?_
    refine Triple.bind (R := fun _ n => I n ∧ Onward n) ?_ fun peers => ?_
    · cases getPeersFromSettings settings with
      | ok peers => exact Triple.pure fun _ hn => hn
      | error p => exact Triple.throw fun _ hn => hn.1
    · refine Triple.read fun n hn => ?_
      cases hr : confChangeBetween peers (n.raftIdToPeerId.entries.map (·.2)) with
      | ok change =>
        refine Triple.pure fun s hs => ?_
        rw [hs]
        exact ⟨hn.1, hn.2, fun c hc => ⟨peers, hc ▸ hr⟩⟩
      | error p => exact Triple.throw fun s hs => hs ▸ hn.1
  refine Triple.bind hcheck fun change => ?_
  cases change with
  | some change =>
    refine Triple.bind (update_acts (Q := fun n => Onward n ∧ Found (some change) n) hI
      (fun n _ => .roles n _ n.followerState (by simp))
      fun _ hn => ⟨⟨hn.1.outside, hn.1.follower⟩, hn.2⟩) fun _ => ?_
    refine Triple.bind (tryCall_acts (Q := Onward) hI (fun n hn => ?_)
      fun n hn => hadd _ (by simp) n hn.1) fun ok => ?_
    · obtain ⟨peers, hchange⟩ := hn.2 change rfl
      exact .reconfigure n peers change hchange hn.1.outside
    cases ok with
    | true => exact Triple.pure fun _ hn => hn
    | false => exact Triple.throw fun _ hn => hn.1
  | none =>
    refine (startBuilding_acts (P := Onward) hI (fun n hn => ?_)
      fun n hn => ⟨?_, hn.follower⟩).pre fun n hn => ⟨hn.1, hn.2.1⟩
    · rw [hn.outside]
      exact fun h => h
    · exact Outside.add (n := { n with leaderState := some (.building (env.now n.trace)) })
        hn.outside (by simp)

theorem onBlockCommit_acts (hI : Stable env I) (b : BlockId) :
    Triple (fun n => I n ∧ Good n ∧ Outside n) (onBlockCommit env b) (fun _ n => I n ∧ Outside n)
      (fun _ => I) := by
  refine Triple.bind (update_acts hI (Q := Heard b)
    (fun n hn => hn.2.note (o := .blockCommit b) trivial (by simp [OnlyInRound])) fun n hn => ?_)
    fun _ => ?_
  · obtain ⟨⟨l, f, hr, hat⟩, hout⟩ := hn
    obtain ⟨rfl, rfl, hkept⟩ := hat
    exact ⟨hout.add (by simp), ⟨n.trace, rfl⟩,
      fun hc => hkept.front b ((committingOf_eq_some hr).mpr hc), hr⟩
  refine Triple.bind (R := fun _ n => I n ∧ (Heard b n ∨ Onward n)) ?_ fun _ => ?_
  · refine Triple.read fun n hn => Triple.ite (fun hl => ?_) fun _ =>
      Triple.pure fun s hs => hs ▸ ⟨hn.1, Or.inl hn.2⟩
    have hf : n.followerState = none := by
      have hr := hn.2.role
      rw [hl] at hr
      exact hr.follower_none
    have hat : At (some (.committing b)) none (fun n => I n ∧ Heard b n) n := ⟨hl, hf, hn⟩
    refine Triple.bind ((confirmFront_acts hI (Or.inl rfl)).pre fun s hs => hs ▸ hat) fun _ => ?_
    exact (afterCommit_acts hI b).conseq (fun s hs => ⟨hs.rest.1, hs.rest.2, hs.follower⟩)
      (fun _ s hs => ⟨hs.1, Or.inr hs.2⟩) (fun _ _ hs => hs)
  · refine Triple.read fun n hn => Triple.ite (fun hf => ?_) fun _ => ?_
    · have hheard : Heard b n := by
        rcases hn.2 with h | h
        · exact h
        · rw [h.follower] at hf
          cases hf
      have hat : At n.leaderState n.followerState (fun n => I n ∧ Heard b n) n :=
        ⟨rfl, rfl, hn.1, hheard⟩
      refine Triple.bind ((confirmFront_acts (l := n.leaderState) hI (Or.inr hf)).pre
        fun s hs => ?_) fun _ => ?_
      · rw [hs]
        exact hat
      · refine Triple.update fun n hn => ⟨?_, hn.rest.2⟩
        exact hI n _ (.roles n n.leaderState _ fun _ _ => rfl) hn.rest.1
    · refine Triple.pure fun s hs => ?_
      rw [hs]
      exact ⟨hn.1, hn.2.elim (·.outside) (·.outside)⟩

omit [Formats]

/-! ## In a round -/

variable {round : Round} {rest : List Entry}

/-- The node is in a round, and has not got past the phase `k`. -/
def Within (round : Round) (k : Phase) (rest : List Entry) (n : Node S) : Prop :=
  ∃ phase, place n.trace = .inside round phase rest ∧ phase.rank ≤ k.rank

section
omit [StorageExt S] [Protobuf]

theorem Within.mono {k k' : Phase} {n : Node S} (h : Within round k rest n)
    (hk : k.rank ≤ k'.rank) : Within round k' rest n := by
  obtain ⟨phase, hp, hphase⟩ := h
  exact ⟨phase, hp, hphase.trans hk⟩

theorem place_add {phase : Phase} {n : Node S} (h : place n.trace = .inside round phase rest)
    {o : Obs} (hready : ∀ round, o ≠ .ready round) (hadvance : o ≠ .advance) :
    place (n.add o).trace = .inside round (phase.next round.isLeader o) (leftAfter rest o) := by
  rw [add_trace, place_snoc, h]
  cases o with
  | ready round => exact absurd rfl (hready round)
  | advance => exact absurd rfl hadvance
  | _ => rfl

/-- Storing does not lead beyond the phase of storing. -/
theorem Within.files {n : Node S} (h : Within round .storing rest n)
    (o : Outcome S α) : Within round .storing rest (n.stored o) := by
  obtain ⟨phase, hp, hphase⟩ := h
  unfold Within
  rw [stored_trace]
  generalize n.trace = t at hp ⊢
  induction o.ops generalizing t phase with
  | nil => exact ⟨phase, by rwa [List.map_nil, List.append_nil], hphase⟩
  | cons op ops ih =>
    rw [List.map_cons, List.append_cons]
    refine ih .storing (le_refl _) (t ++ [.file op]) ?_
    rw [place_snoc, hp]
    rfl

end

theorem sendMsg_acts (hI : Stable env I) {msg : RaftMessage}
    (h : ∀ n, P n → MaySend msg n.trace)
    (hP : ∀ n peerId, P n → P (n.add (.sendTo peerId msg.bytes))) :
    Triple (fun n => I n ∧ P n) (sendMsg env msg) (fun _ n => I n ∧ P n) (fun _ => I) := by
  refine Triple.read fun n hn => ?_
  split
  next peerId hpeer =>
    refine Triple.bind ((tryCall_acts (P := fun n' => n' = n ∧ P n) (Q := P) hI (fun n' hn' => ?_)
      fun n' hn' => ?_).pre fun s hs => ?_) fun r => ?_
    · rw [hn'.1]
      exact .send n msg peerId (h n hn'.2) hpeer
    · rw [hn'.1]
      exact hP n peerId hn'.2
    · rw [hs]
      exact ⟨hn.1, rfl, hn.2⟩
    split
    · exact Triple.pure fun _ hn => hn
    · exact Triple.pure fun _ hn => hn
    · exact Triple.throw fun _ hn => hn.1
  next => exact Triple.pure fun s hs => hs ▸ hn

/-- The state between the phases of a round, with one role taken. -/
structure Halfway (round : Round) (k : Phase) (rest : List Entry) (n : Node S) : Prop where
  within : Within round k rest n
  role : OneRole n.leaderState n.followerState

theorem stepUp_acts (hI : Stable env I) (hleads : round.isLeader = true) :
    Triple (fun n => I n ∧ Halfway round .sending rest n) (stepUp env)
      (fun _ n => I n ∧ Halfway round .sending rest n) (fun _ => I) := by
  refine Triple.read fun n hn => Triple.ite (fun hl => ?_) fun _ =>
    Triple.pure fun s hs => hs ▸ hn
  -- a leader's state is set, and the follower's is given up
  refine Triple.bind (R := fun _ n => I n ∧ Within round .sending rest n ∧ n.leaderState ≠ none) ?_
    fun _ => update_acts hI (fun n _ => .roles n n.leaderState none fun _ _ => rfl)
      fun n hn => ⟨hn.1, by simp [OneRole, hn.2]⟩
  have hstart : I n ∧ Within round .sending rest n := ⟨hn.1, hn.2.within⟩
  refine Triple.pre ?_ (fun s (hs : s = n) => hs ▸ hstart)
  unfold takeOver
  split
  next b _ =>
    exact update_acts hI (fun n _ => .roles n _ n.followerState (by simp)) fun n hn => ⟨hn, by simp⟩
  next =>
    refine startBuilding_acts hI (fun n hn => ?_) fun n hn => ⟨?_, by simp [begun, add]⟩
    · obtain ⟨phase, hp, hphase⟩ := hn
      rw [hp]
      cases phase with
      | sending => exact ⟨hleads, Or.inl rfl⟩
      | _ => simp [Phase.rank] at hphase
    · obtain ⟨phase, hp, hphase⟩ := hn
      exact ⟨phase, place_add (n := { n with leaderState := some (.building (env.now n.trace)) }) hp
        (by simp) (by simp), hphase⟩

/-- What a round stores. -/
theorem persist_acts (hI : Stable env I) (ready : Ready) :
    Triple (fun n => I n ∧ Halfway round .storing rest n) (persist env ready)
      (fun _ n => I n ∧ Halfway round .storing rest n) (fun _ => I) := by
  have hstore : ∀ g : S → Outcome S Unit, (∀ s, Persists s (g s)) →
      Triple (fun n => I n ∧ Halfway round .storing rest n) (storeCall g)
        (fun _ n => I n ∧ Halfway round .storing rest n) (fun _ => I) := by
    intro g hg
    refine storeCall_triple (fun n hn => ?_) (fun _ _ hn => hn.1)
    obtain ⟨phase, hp, hphase⟩ := hn.2.within
    exact ⟨hI n _ (.persist n _ (hg n.store) round phase rest hp hphase) hn.1,
      hn.2.within.files _, hn.2.role⟩
  refine Triple.bind (R := fun _ n => I n ∧ Halfway round .storing rest n) ?_ fun _ =>
    Triple.bind (R := fun _ n => I n ∧ Halfway round .storing rest n) ?_ fun _ => ?_
  · unfold persistSnapshot
    split
    · exact Triple.pure fun _ hn => hn
    · exact hstore _ fun s => .applySnapshot _
  · unfold persistEntries
    split
    · exact Triple.pure fun _ hn => hn
    · exact hstore _ fun s => .append _
  · unfold persistHardState
    split
    · exact hstore _ fun s => .setHardstate _
    · exact Triple.pure fun _ hn => hn

/-- The state in which the entries are taken up: a node that does not lead has no
leader state. -/
structure Assigned (round : Round) (k : Phase) (rest : List Entry) (n : Node S) : Prop
    extends Halfway round k rest n where
  deposed : round.isLeader = false → n.leaderState = none

theorem stepDown_acts (hI : Stable env I) (hleads : round.isLeader = false) :
    Triple (fun n => I n ∧ Halfway round .storing rest n) (stepDown env)
      (fun _ n => I n ∧ Assigned round .answering rest n) (fun _ => I) := by
  refine Triple.read fun n hn => Triple.ite (fun hl => ?_) fun _ => ?_
  · refine Triple.pure fun s hs => ?_
    rw [hs]
    exact ⟨hn.1, ⟨hn.2.within.mono (by decide), hn.2.role⟩, fun _ => hl⟩
  refine Triple.bind (R := fun _ n => I n ∧ Within round .answering rest n) ?_ fun _ => ?_
  · have hstart : I n ∧ Within round .storing rest n := ⟨hn.1, hn.2.within⟩
    refine Triple.pre ?_ (fun s (hs : s = n) => hs ▸ hstart)
    unfold abandon
    split
    · refine expectCall_acts hI (fun n hn => ?_) fun n hn => ?_
      · obtain ⟨phase, hp, hphase⟩ := hn
        refine .note n _ trivial ?_
        rw [hp]
        exact ⟨hleads, hphase⟩
      · obtain ⟨phase, hp, -⟩ := hn
        exact ⟨_, place_add hp (by simp) (by simp), le_refl _⟩
    · exact update_acts hI (fun n _ => .roles n n.leaderState _ fun _ _ => rfl)
        fun n hn => hn.mono (by decide)
    · exact Triple.pure fun n hn => ⟨hn.1, hn.2.mono (by decide)⟩
  refine Triple.bind (R := fun _ n => I n ∧ Within round .answering rest n ∧ n.leaderState = none)
    (update_acts hI (fun n _ => .roles n none n.followerState (by simp)) fun n hn => ⟨hn, rfl⟩)
    fun _ => ?_
  refine Triple.read fun n hn => Triple.ite (fun hf => ?_) fun hf => ?_
  · refine Triple.update fun s hs => ?_
    rw [hs]
    refine ⟨hI n _ (.roles n n.leaderState _ fun _ _ => rfl) hn.1, ⟨hn.2.1, ?_⟩, fun _ => hn.2.2⟩
    simp [OneRole, hn.2.2]
  · refine Triple.pure fun s hs => ?_
    rw [hs]
    exact ⟨hn.1, ⟨hn.2.1, by simp [OneRole, hn.2.2, hf]⟩, fun _ => hn.2.2⟩

theorem leaderPart_acts (hI : Stable env I) :
    Triple (fun n => I n ∧ Halfway round (if round.isLeader then .sending else .storing) rest n)
      (leaderPart env round) (fun _ n => I n ∧ Halfway round .storing rest n) (fun _ => I) := by
  unfold leaderPart
  cases hleads : round.isLeader with
  | false => exact Triple.pure fun n hn => hn
  | true =>
    refine Triple.bind (stepUp_acts hI hleads) fun _ => ?_
    refine (Triple.forM (I := fun n => I n ∧ Halfway round .sending rest n) _ fun msg hmsg =>
      sendMsg_acts hI (fun n hn => ?_) (fun n peerId hn => ?_)).conseq
      (fun _ hn => hn) (fun _ n hn => ⟨hn.1, hn.2.within.mono (by decide), hn.2.role⟩)
      (fun _ _ hn => hn)
    · obtain ⟨phase, hp, hphase⟩ := hn.within
      refine ⟨round, phase, rest, hp, hmsg, ?_⟩
      unfold SendsIn
      rw [if_pos hleads]
      cases phase with
      | sending => rfl
      | _ => simp [Phase.rank] at hphase
    · obtain ⟨phase, hp, hphase⟩ := hn.within
      refine ⟨⟨_, place_add hp (by simp) (by simp), ?_⟩, hn.role⟩
      rw [hleads]
      exact le_refl _

theorem followerPart_acts (hI : Stable env I) :
    Triple (fun n => I n ∧ Halfway round .storing rest n) (followerPart env round)
      (fun _ n => I n ∧ Assigned round .answering rest n) (fun _ => I) := by
  unfold followerPart
  cases hleads : round.isLeader with
  | true =>
    exact Triple.pure fun n hn =>
      ⟨hn.1, ⟨hn.2.within.mono (by decide), hn.2.role⟩, fun h => by simp [hleads] at h⟩
  | false =>
    refine Triple.bind (stepDown_acts hI hleads) fun _ => ?_
    refine Triple.forM (I := fun n => I n ∧ Assigned round .answering rest n) _ fun msg hmsg =>
      sendMsg_acts hI (fun n hn => ?_) (fun n peerId hn => ?_)
    · obtain ⟨phase, hp, hphase⟩ := hn.within
      refine ⟨round, phase, rest, hp, hmsg, ?_⟩
      unfold SendsIn
      rwa [if_neg (by simp [hleads])]
    · obtain ⟨phase, hp, hphase⟩ := hn.within
      refine ⟨⟨⟨_, place_add hp (by simp) (by simp), ?_⟩, hn.role⟩, hn.deposed⟩
      rw [hleads]
      exact le_refl _

/-- An entry has just been taken up, or a change has been carried out. -/
structure Taking (round : Round) (phase : Phase) (rest : List Entry) (n : Node S) : Prop where
  place : place n.trace = .inside round phase rest
  role : OneRole n.leaderState n.followerState
  deposed : round.isLeader = false → n.leaderState = none

section
omit [StorageExt S] [Protobuf]

/-- The last thing that has happened is that the entry was taken up. -/
def JustTaken (e : Entry) (n : Node S) : Prop := ∃ u, n.trace = u ++ [.entry e]

theorem Taking.assigned {n : Node S} (h : Taking round .delivering rest n) :
    Assigned round .delivering rest n :=
  ⟨⟨⟨_, h.place, le_refl _⟩, h.role⟩, h.deposed⟩

theorem Assigned.entry {n : Node S} {e : Entry} (h : Assigned round .delivering (e :: rest) n) :
    Placed (place n.trace) (.entry e) ∧
      Taking round (if IsChange e then .changing else .delivering) rest (n.add (.entry e)) := by
  obtain ⟨phase, hp, hphase⟩ := h.within
  exact ⟨by rw [hp]; exact ⟨hphase, rfl⟩, place_add hp (by simp) (by simp), h.role, h.deposed⟩

end

theorem applyConfChange_acts (hI : Stable env I) {e : Entry} {change : ConfChange}
    (he : IsChange e) (hparse : Protobuf.confChange.parseFromBytes e.data = some change) :
    Triple (fun n => I n ∧ Taking round .changing rest n ∧ JustTaken e n) (applyConfChange change)
      (Sys.Leaves (fun n => I n ∧ Taking round .delivering rest n) fun _ => I) (fun _ => I) := by
  intro n hn
  -- the node as it will be once Raft has been told of the change
  let M : Node S → Prop := fun n' => I (n'.add (.applyConfChange change)) ∧
    place n'.trace = .inside round .changing rest
  have hat : At n.leaderState n.followerState (fun n => I n ∧ place n.trace
      = .inside round .changing rest ∧ JustTaken e n) n :=
    ⟨rfl, rfl, hn.1, hn.2.1.place, hn.2.2⟩
  refine Triple.bind (R := Between n.leaderState n.followerState M I)
    (updatePeers_at change ?_ ?_ ?_ ?_) (fun status => ?_) n hat
  · intro n₁ n' hc hn₁
    obtain ⟨hn₁, hplace, u, ht⟩ := hn₁
    have hp : Placed (place n₁.trace) (.applyConfChange change) := by
      rw [hplace]
      exact rfl
    refine ⟨hI _ _ (.peers n₁ n' change e u ht he hparse hc hp) hn₁, ?_⟩
    cases hc with
    | add => exact hplace
    | remove => exact hplace
    | learner => exact hplace
  · exact fun _ _ hn₁ => hn₁.1
  · exact fun _ _ hn₁ => hn₁.1
  · exact fun _ _ _ hn₁ => hn₁.1
  · cases status with
    | Shutdown => exact Triple.pure fun _ hn₁ => hn₁
    | Continue =>
      refine Triple.bind (R := fun _ n' => I n' ∧ Taking round .delivering rest n')
        (Triple.update fun n' hn' => ?_) fun _ => Triple.pure fun _ hn' => hn'
      obtain ⟨hl, hf, hn', hp⟩ := hn'
      refine ⟨hn', place_add hp (by simp) (by simp), ?_, fun h => hl.trans (hn.2.1.deposed h)⟩
      show OneRole n'.leaderState n'.followerState
      rw [hl, hf]
      exact hn.2.1.role

theorem deliverConfChange_acts (hI : Stable env I) {e : Entry} (he : IsChange e) :
    Triple (fun n => I n ∧ Taking round .changing rest n ∧ JustTaken e n) (deliverConfChange env e)
      (Sys.Leaves (fun n => I n ∧ Taking round .delivering rest n) fun _ => I) (fun _ => I) := by
  unfold deliverConfChange
  split
  next => exact Triple.throw fun _ hn => hn.1
  next change hparse =>
    refine Triple.bind (applyConfChange_acts hI he hparse) fun status => ?_
    cases status with
    | Shutdown => exact Triple.pure fun _ hn => hn
    | Continue =>
      refine Triple.read fun n hn => Triple.ite (fun hl => ?_) fun _ =>
        Triple.pure fun s hs => hs ▸ hn
      -- only a leader can have waited for the change
      have hleads : round.isLeader = true := by
        by_contra hleads
        have := hn.2.deposed (by simpa using hleads)
        rw [hl] at this
        cases this
      have hf : n.followerState = none := by
        have hr := hn.2.role
        rw [hl] at hr
        exact hr.follower_none
      refine Triple.bind (R := fun _ n => I n ∧ Taking round .delivering rest n) ?_ fun _ =>
        Triple.pure fun _ hn => hn
      refine (startBuilding_acts (Q := Taking round .delivering rest)
        (P := fun n => Taking round .delivering rest n ∧ n.followerState = none) hI
        (fun n hn => ?_) fun n hn => ⟨?_, ?_, fun h => by simp [hleads] at h⟩).pre
        fun s hs => hs ▸ ⟨hn.1, hn.2, hf⟩
      · rw [hn.1.place]
        exact ⟨hleads, Or.inr rfl⟩
      · exact place_add (n := { n with leaderState := some (.building (env.now n.trace)) })
          hn.1.place (by simp) (by simp)
      · simp [OneRole, begun, add, hn.2]

/-- **Step** of the loop over the committed entries. -/
theorem deliverEntry_acts (hI : Stable env I) (e : Entry) :
    Triple (fun n => I n ∧ Assigned round .delivering (e :: rest) n) (deliverEntry env e)
      (Sys.Leaves (fun n => I n ∧ Assigned round .delivering rest n) fun _ => I) (fun _ => I) := by
  have hskip : ¬ IsBlock e →
      Triple (fun n : Node S => I n ∧ Assigned round .delivering (e :: rest) n) (emit (.entry e))
        (fun _ n => I n ∧ Taking round (if IsChange e then .changing else .delivering) rest n ∧
          JustTaken e n) (fun _ => I) :=
    fun he => update_acts hI (fun n hn => .skip n e he hn.entry.1)
      fun n hn => ⟨hn.entry.2, n.trace, rfl⟩
  have hdone : Triple (fun n : Node S => I n ∧ Taking round .delivering rest n)
      (pure .Continue : NodeM S ReadyStatus)
      (Sys.Leaves (fun n => I n ∧ Assigned round .delivering rest n) fun _ => I) (fun _ => I) :=
    Triple.pure fun n hn => ⟨hn.1, hn.2.assigned⟩
  unfold deliverEntry
  by_cases hdata : e.data = []
  · refine Triple.bind (hskip fun he => he.1 hdata) fun _ => ?_
    rw [if_neg fun hc => hc.1 hdata, if_pos hdata]
    exact hdone.pre fun n hn => ⟨hn.1, hn.2.1⟩
  · cases htype : e.entryType with
    | EntryNormal =>
      have he : IsBlock e := ⟨hdata, htype⟩
      -- the node as it will be once the block is in the queue
      refine Triple.bind (R := fun _ n => I (n.enqueue e) ∧ Taking round .delivering rest n)
        (Triple.update fun n hn => ?_) fun _ => ?_
      · obtain ⟨hp, htaking⟩ := hn.2.entry
        rw [if_neg fun hc => isChange_not_isBlock hc he] at htaking
        exact ⟨hI n _ (.take n e he hp) hn.1, htaking⟩
      · rw [if_neg hdata]
        refine Triple.bind (R := fun _ n => I n ∧ Taking round .delivering rest n)
          (Triple.update fun n hn => ?_) fun _ => hdone
        exact ⟨hn.1, hn.2.place, hn.2.role, hn.2.deposed⟩
    | EntryConfChange =>
      refine Triple.bind (hskip fun he => by simp [he.2] at htype) fun _ => ?_
      rw [if_neg hdata]
      refine Triple.ite (fun hterm => ?_) fun hterm => ?_
      · rw [if_neg fun hc => hc.2.2 hterm]
        exact hdone.pre fun n hn => ⟨hn.1, hn.2.1⟩
      · rw [if_pos ⟨hdata, htype, hterm⟩]
        refine (deliverConfChange_acts hI ⟨hdata, htype, hterm⟩).conseq (fun _ hn => hn)
          (fun status n hn => ?_) (fun _ _ hn => hn)
        cases status with
        | Continue => exact ⟨hn.1, hn.2.assigned⟩
        | Shutdown => exact hn

/-- The loop ends when nothing is left. -/
theorem deliver_acts (hI : Stable env I) (es : List Entry) :
    Triple (fun n => I n ∧ Assigned round .delivering es n) (deliver env es)
      (Sys.Leaves (fun n => I n ∧ Assigned round .delivering [] n) fun _ => I) (fun _ => I) := by
  induction es with
  | nil => exact Triple.pure fun _ hn => hn
  | cons e es ih =>
    refine Triple.bind (deliverEntry_acts hI e) fun status => ?_
    cases status with
    | Continue => exact ih
    | Shutdown => exact Triple.pure fun _ hn => hn

theorem commitNext_acts (hI : Stable env I) :
    Triple (fun n => I n ∧ Halfway round .delivering [] n) (commitNext env)
      (fun _ n => I n ∧ Within round .committing [] n) (fun _ => I) := by
  refine Triple.read fun n hn => ?_
  split
  next b hb =>
    -- the call, by whichever role
    have hcall : ∀ f, Triple (fun n => I n ∧ Within round .delivering [] n ∧
          n.blockQueue.getNextCommittable = some b ∧ n.followerState = f)
        (expectCall .commitBlock (.commitBlock b) env.commitBlock)
        (fun _ n => I n ∧ Within round .committing [] n ∧ n.followerState = f) (fun _ => I) := by
      intro f
      refine expectCall_acts hI (fun n hn => ?_) fun n hn => ?_
      · obtain ⟨⟨phase, hp, hphase⟩, hb, -⟩ := hn
        refine .commit n b hb ?_
        rw [hp]
        exact ⟨hphase, rfl⟩
      · obtain ⟨⟨phase, hp, hphase⟩, -, hf⟩ := hn
        exact ⟨⟨_, place_add hp (by simp) (by simp), le_refl _⟩, hf⟩
    -- the leader's part comes first, and leaves nothing for the follower's
    refine Triple.bind (R := fun _ n' => n' = n ∨
      I n' ∧ Within round .committing [] n' ∧ n'.followerState = none) ?_ fun _ => ?_
    · refine Triple.read fun n₁ hn₁ => ?_
      obtain rfl : n₁ = n := hn₁
      refine Triple.ite (fun hl => ?_) fun _ => Triple.pure fun _ hs => Or.inl hs
      have hf : n₁.followerState = none := by
        have hr := hn.2.role
        rw [hl] at hr
        exact hr.follower_none
      refine Triple.bind (Triple.update fun s hs => ?_) fun _ =>
        (hcall none).conseq (fun _ hs => hs) (fun _ _ hs => Or.inr hs) (fun _ _ hs => hs)
      rw [hs]
      exact ⟨hI n₁ _ (.roles n₁ _ n₁.followerState (by simp)) hn.1, hn.2.within, hb, hf⟩
    · refine Triple.read fun n₁ hn₁ => Triple.ite (fun hf => ?_) fun _ => ?_
      · obtain rfl : n₁ = n := by
          rcases hn₁ with h | h
          · exact h
          · rw [h.2.2] at hf
            cases hf
        refine Triple.bind (Triple.update fun s hs => ?_) fun _ =>
          (hcall (some (.committing b))).conseq (fun _ hs => hs) (fun _ _ hs => ⟨hs.1, hs.2.1⟩)
            (fun _ _ hs => hs)
        rw [hs]
        exact ⟨hI n₁ _ (.roles n₁ n₁.leaderState _ fun _ _ => rfl) hn.1, hn.2.within, hb, rfl⟩
      · refine Triple.pure fun s hs => ?_
        rw [hs]
        rcases hn₁ with rfl | h
        · exact ⟨hn.1, hn.2.within.mono (by decide)⟩
        · exact ⟨h.1, h.2.1⟩
  next =>
    refine Triple.pure fun s hs => ?_
    rw [hs]
    exact ⟨hn.1, hn.2.within.mono (by decide)⟩

/-- **Step**: a round of `process_ready` is a sequence of single steps, and it
ends outside unless the node has been removed. -/
theorem processReady_acts (hI : Stable env I) (round : Option Round) :
    Triple (fun n => I n ∧ Good n ∧ Outside n) (processReady env round)
      (Sys.Leaves (fun n => I n ∧ Outside n) fun _ => I) (fun _ => I) := by
  cases round with
  | none => exact Triple.pure fun _ hn => ⟨hn.1, hn.2.2⟩
  | some round =>
    refine Triple.bind (R := fun _ n => I n ∧
      Halfway round (if round.isLeader then .sending else .storing) round.committed n)
      (Triple.update fun n hn => ?_) fun _ => ?_
    · obtain ⟨hn, ⟨l, f, hr, rfl, rfl, -⟩, hout⟩ := hn
      refine ⟨hI n _ (hout.note (o := .ready round) trivial (by simp [OnlyInRound])) hn,
        ⟨_, ?_, le_refl _⟩, hr⟩
      rw [place_snoc]
      rfl
    refine Triple.bind (leaderPart_acts hI) fun _ => ?_
    refine Triple.bind (persist_acts hI round.ready) fun _ => ?_
    refine Triple.bind (followerPart_acts hI) fun _ => ?_
    refine Triple.bind (R := Sys.Leaves (fun n => I n ∧ Assigned round .delivering [] n) fun _ => I)
      ((deliver_acts hI round.committed).pre fun n hn => ?_) fun status => ?_
    · exact ⟨hn.1, ⟨hn.2.within.mono (by decide), hn.2.role⟩, hn.2.deposed⟩
    · cases status with
      | Shutdown => exact Triple.pure fun _ hn => hn
      | Continue =>
        refine Triple.bind ((commitNext_acts hI).pre
          fun n hn => ⟨hn.1, hn.2.toHalfway⟩) fun _ => ?_
        refine Triple.bind (R := fun _ n => I n ∧ Outside n) (Triple.update fun n hn => ?_) fun _ =>
          Triple.pure fun _ hn => hn
        obtain ⟨hn, phase, hp, hphase⟩ := hn
        refine ⟨hI n _ (.note n .advance trivial ?_) hn, ?_⟩
        · rw [hp]
          refine ⟨fun hchanging => ?_, rfl⟩
          rw [hchanging] at hphase
          exact absurd hphase (by decide)
        · unfold Outside
          rw [place_snoc]
          rfl

variable [Formats]

theorem handle_acts (hI : Stable env I) (i : Input) :
    Triple (fun n => I n ∧ Good n ∧ Outside n) (handle env i)
      (Sys.Leaves (fun n => I n ∧ Outside n) fun _ => I) (fun _ => I) := by
  have hdone : ∀ {m : NodeM S Unit} {P : Node S → Prop},
      Triple P m (fun _ n => I n ∧ Outside n) (fun _ => I) →
      Triple P (do m; pure ReadyStatus.Continue)
        (Sys.Leaves (fun n => I n ∧ Outside n) fun _ => I) (fun _ => I) :=
    fun hm => Triple.bind hm fun _ => Triple.pure fun _ hn => hn
  have hpre : ∀ n : Node S, I n ∧ Good n ∧ Outside n → I n ∧ Outside n := fun n hn => ⟨hn.1, hn.2.2⟩
  cases i with
  | blockNew block => exact hdone ((onBlockNew_acts hI block).pre hpre)
  | blockValid b => exact hdone ((onBlockValid_acts hI b).pre hpre)
  | blockCommit b => exact hdone (onBlockCommit_acts hI b)
  | peerMessage message => exact hdone ((onPeerMessage_acts hI message).pre hpre)
  | tick => exact hdone ((tick_acts hI).pre hpre)
  | processReady round => exact processReady_acts hI round

/-! ## Runs -/

/-- What every single step keeps holds at the end of a run, and a node that runs
is not in a round. -/
theorem run_stable (hI : Stable env I) {node : Node S} (hnew : Sys.IsNew node) (hnode : I node)
    (inputs : List Input) :
    ((Sys.start node).run env inputs).Sat (fun n => I n ∧ Outside n) (fun _ => I) := by
  have hstep : ∀ (s : Sys S) i,
      s.Sat (fun n => Good n ∧ I n ∧ Outside n) (fun st n => Stopped st n ∧ I n) →
      (s.step env i).Sat (fun n => Good n ∧ I n ∧ Outside n) (fun st n => Stopped st n ∧ I n) := by
    intro s i hs
    refine Sys.sat_step (P := fun n => Good n ∧ I n ∧ Outside n) ?_ (fun _ hn => hn) hs
    refine ((handle_good i).and (handle_acts hI i)).conseq
      (fun n hn => ⟨hn.1, hn.2.1, hn.1, hn.2.2⟩) (fun status n hn => ?_) (fun _ _ hn => hn)
    cases status with
    | Continue => exact hn
    | Shutdown => exact hn
  have hrun := run_invariant (I := Sys.Sat _ _) hstep (s := Sys.start node) ?_ inputs
  · exact hrun.imp (fun _ hn => hn.2) fun _ _ hn => hn.2
  · obtain ⟨_, _, _, _, ops, hnew⟩ := hnew
    refine ⟨new_good hnew, hnode, ?_⟩
    obtain ⟨_, rfl⟩ := new_eq hnew
    exact place_files (t := []) rfl ops

/-- The same, whether the node still runs or not. -/
theorem run_stable_node (hI : Stable env I) {node : Node S} (hnew : Sys.IsNew node) (hnode : I node)
    (inputs : List Input) : I ((Sys.start node).run env inputs).node := by
  have hrun := run_stable hI hnew hnode inputs
  generalize (Sys.start node).run env inputs = s at hrun ⊢
  obtain ⟨n, status⟩ := s
  cases status with
  | running => exact hrun.1
  | shutdown => exact hrun
  | panicked p => exact hrun

/-- **Run**: whatever comes in, the node gets where it is by single steps. -/
theorem run_acts {node : Node S} (hnew : Sys.IsNew node) (inputs : List Input) :
    Relation.ReflTransGen (Act env) node ((Sys.start node).run env inputs).node :=
  run_stable_node (fun _ _ h hn => hn.tail h) hnew .refl inputs

end

end Node

end SawtoothRaft
