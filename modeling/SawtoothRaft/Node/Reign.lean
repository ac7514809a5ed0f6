import SawtoothRaft.Lib.LeadsTo
import SawtoothRaft.Node.ConfChange
import SawtoothRaft.Node.Liveness

/-!
# A leader never gets stuck

A leader goes round: it builds a block, publishes it, has it validated, proposes
it, commits it, perhaps has the configuration changed, and builds the next one.
In every part of the round there is one thing that it waits for. `Reign` says that
the thing comes, each time, and that Raft delivers nothing else to this leader
than the block it has proposed. Then the round never ends (`leader_never_stuck`).

The part of the round that a leader is in says what its queue holds: the block
that is being committed, and otherwise nothing (`Own`). So the block it has
proposed is committable as soon as it is delivered.
-/

namespace SawtoothRaft

open Lib

namespace Node

variable {S : Type}

/-! ## The leader and its queue -/

/-- The blocks in the queue of a leader that works on its own blocks only. -/
def held : LeaderState → List BlockId
  | .committing b => [b]
  | _ => []

/-- The queue belongs to a leader in state `l`. -/
structure Own (l : LeaderState) (q : BlockQueue) : Prop where
  queue : q.commitQueue.map (·.1) = held l
  valid : ∀ b, l = .proposing b → q.isValid b = true

/-- The node leads in state `l`, with its own blocks in the queue. -/
abbrev Rules (l : LeaderState) : Node S → Prop := At (some l) none fun n => Own l n.blockQueue

/-- Raft delivers no block to the leader but the one it has proposed. -/
def OwnRound (l : LeaderState) (round : Round) : Prop :=
  blocksOf round.committed = [] ∨
    ∃ b i, l = .proposing b ∧ blocksOf round.committed = [(b, i)]

/-- The block that has been built since then is due and ready at the next tick. -/
structure Ripe (env : Env) (n : Node S) (since : Nat) : Prop where
  due : n.period ≤ env.now (n.trace ++ [.tick]) - since
  summarized : ∃ s, env.summarizeBlock (n.trace ++ [.tick] ++ [.summarizeBlock]) = .ok s
  finalized : ∃ b, env.finalizeBlock (n.trace ++ [.tick] ++ [.summarizeBlock] ++ [.finalizeBlock])
    = .ok b

/-- What a leader makes of a block that comes back. -/
def afterNew (l : LeaderState) (b : BlockId) : LeaderState :=
  if l = .publishing b then .validating b else l

/-- What a leader makes of a block that is valid. -/
def afterValid (l : LeaderState) (b : BlockId) : LeaderState :=
  if l = .publishing b ∨ l = .validating b then .proposing b else l

/-- One step of the way round. -/
inductive Advances : LeaderState → LeaderState → Prop
  | stays (l : LeaderState) : Advances l l
  | published (since : Nat) (b : BlockId) : Advances (.building since) (.publishing b)
  | received (b : BlockId) : Advances (.publishing b) (.validating b)
  | proposed (b : BlockId) {l : LeaderState} (hl : l = .publishing b ∨ l = .validating b) :
    Advances l (.proposing b)
  | committed (b : BlockId) : Advances (.proposing b) (.committing b)
  | confirmed (b : BlockId) (since : Nat) : Advances (.committing b) (.building since)
  | changes (b : BlockId) : Advances (.committing b) .changingConfig
  | resumed (since : Nat) : Advances .changingConfig (.building since)

section
variable {l : LeaderState} {q : BlockQueue} {b : BlockId}

/-- Most of the way round the queue is empty. -/
theorem Own.empty (hq : q.commitQueue = []) (hl : held l = []) (hnot : ∀ b, l ≠ .proposing b) :
    Own l q :=
  ⟨by rw [hq, hl]; rfl, fun b hb => absurd hb (hnot b)⟩

theorem Own.queue_nil (h : Own l q) (hl : held l = []) : q.commitQueue = [] :=
  List.map_eq_nil_iff.mp (h.queue.trans hl)

/-- A block that comes back is published or nothing to the leader. -/
theorem Own.afterNew (h : Own l q) (block : Block) :
    Own (afterNew l block.blockId) (q.blockNew block) ∧ Advances l (afterNew l block.blockId) := by
  unfold Node.afterNew
  split
  next hl =>
    subst hl
    exact ⟨.empty (h.queue_nil rfl) rfl (by simp), .received _⟩
  next => exact ⟨⟨h.queue, fun b hb => by simpa using h.valid b hb⟩, .stays l⟩

theorem Own.afterValid (h : Own l q) (b : BlockId) :
    Own (afterValid l b) (q.blockValid b) ∧ Advances l (afterValid l b) := by
  unfold Node.afterValid
  split
  next hl =>
    refine ⟨⟨?_, fun b' hb' => ?_⟩, .proposed b hl⟩
    · have hheld : held l = [] := by rcases hl with rfl | rfl <;> rfl
      exact h.queue.trans hheld
    · obtain rfl := LeaderState.proposing.inj hb'
      exact (BlockQueue.isValid_blockValid ..).mpr (Or.inl rfl)
  next =>
    refine ⟨⟨h.queue, fun b' hb' => ?_⟩, .stays l⟩
    exact (BlockQueue.isValid_blockValid ..).mpr (Or.inr (h.valid b' hb'))

/-- The block that is being committed is alone. -/
theorem Own.popped (h : Own (.committing b) q) {i : Nat} {q' : BlockQueue}
    (hq : q.blockCommitted = some (i, q')) : q'.commitQueue = [] := by
  obtain ⟨⟨b', j⟩, rest, hqueue⟩ := List.exists_cons_of_ne_nil (l := q.commitQueue) (by
    intro hnil
    have hmap := h.queue
    rw [hnil] at hmap
    cases hmap)
  have hmap := h.queue
  rw [hqueue] at hmap
  obtain ⟨q₁, hpop, hrest, -⟩ := BlockQueue.blockCommitted_cons hqueue
  obtain ⟨-, rfl⟩ : i = j ∧ q' = q₁ := by
    rw [hpop] at hq
    simpa [eq_comm] using hq
  rw [hrest]
  exact List.map_eq_nil_iff.mp (List.cons.inj hmap).2

end

/-! ## What the handlers make of it -/

section
variable [StorageExt S] {env : Env} {l : LeaderState}

omit [StorageExt S] in
/-- What a panic leaves is of no interest here. -/
theorem any_fails (G : Node S → Prop) : Fails (fun _ _ => True) G := fun _ _ _ _ => trivial

omit [StorageExt S] in
theorem onBlockNew_rules (block : Block) :
    Triple (Rules (S := S) l) (onBlockNew env block) (fun _ => Rules (afterNew l block.blockId))
      (fun _ _ => True) := by
  -- the role comes first, and the queue after it
  refine Triple.bind (R := fun _ => Rules l) (emit_at fun _ hn => hn) fun _ => ?_
  refine Triple.bind (R := fun _ => At (some (afterNew l block.blockId)) none
    fun n => Own l n.blockQueue) ?_ fun _ => ?_
  · refine Triple.read fun n hn => ?_
    rw [hn.leader]
    unfold afterNew
    refine Triple.ite (fun hl => ?_) fun hl => ?_
    · rw [if_pos (Option.some.inj hl)]
      refine Triple.update fun s hs => ?_
      rw [hs]
      exact ⟨rfl, hn.follower, hn.rest⟩
    · rw [if_neg fun hl' => hl (congrArg some hl')]
      exact Triple.pure fun s hs => hs ▸ hn
  · refine Triple.bind (R := fun _ => Rules (afterNew l block.blockId))
      (updateQueue_at fun n hn => (hn.afterNew block).1) fun _ => ?_
    exact expectCall_at (fun _ hn => hn) (any_fails _)

theorem onBlockValid_rules (b : BlockId) :
    Triple (Rules (S := S) l) (onBlockValid env b) (fun _ => Rules (afterValid l b))
      (fun _ _ => True) := by
  refine Triple.bind (R := fun _ => Rules l) (emit_at fun _ hn => hn) fun _ => ?_
  refine Triple.bind (R := fun _ => At (some l) none fun n => Own (afterValid l b) n.blockQueue)
    (updateQueue_at fun n hn => (hn.afterValid b).1) fun _ => ?_
  refine Triple.read fun n hn => ?_
  refine Triple.pre ?_ (fun s (hs : s = n) => hs ▸ hn)
  rw [hn.leader]
  refine Triple.ite (fun hl => ?_) fun hl => ?_
  · have hl' : l = .publishing b ∨ l = .validating b := hl.imp Option.some.inj Option.some.inj
    have hproposing : afterValid l b = .proposing b := if_pos hl'
    rw [hproposing]
    refine Triple.bind (R := fun _ => At (some l) none fun n => Own (.proposing b) n.blockQueue)
      (tryCall_at fun _ hn => hn) fun ok => ?_
    cases ok with
    | true => exact setLeaderState_at (queue_tame fun q => Own (.proposing b) q) _
    | false => exact Triple.throw fun _ _ => trivial
  · have hsame : afterValid l b = l :=
      if_neg fun h => hl (h.imp (congrArg some) (congrArg some))
    rw [hsame]
    exact Triple.pure fun _ hn => hn

theorem onPeerMessage_rules (message : Bytes) :
    Triple (Rules (S := S) l) (onPeerMessage env message) (fun _ => Rules l) (fun _ _ => True) :=
  onPeerMessage_at (queue_tame fun q => Own l q) (any_fails _) fun _ hn => hn

/-- A tick may publish the block that is being built, and does nothing else to
the leader. -/
theorem tick_rules : Triple (Rules (S := S) l) (tick env)
    (fun _ n => ∃ l', Advances l l' ∧ Rules l' n) (fun _ _ => True) := by
  by_cases hl : ∃ since, l = .building since
  · obtain ⟨since, rfl⟩ := hl
    refine (tick_at (queue_tame fun q => Own (.building since) q) (any_fails _)
      fun _ hn => hn).conseq (fun _ hn => hn) (fun _ n h => ?_) fun _ _ h => h
    obtain ⟨l', hp, hn⟩ := h
    cases hp with
    | refl => exact ⟨_, .stays _, hn⟩
    | published _ b =>
      exact ⟨_, .published since b, hn.leader, hn.follower,
        .empty (hn.rest.queue_nil rfl) rfl (by simp)⟩
    | proposed b _ hl => exact absurd hl (by simp)
  · refine Triple.bind (R := fun _ => Rules l) (emit_at fun _ hn => hn) fun _ => ?_
    refine Triple.read fun n hn => ?_
    split
    next since hbuilding =>
      exact absurd ⟨since, Option.some.inj (hn.leader.symm.trans hbuilding)⟩ hl
    next => exact Triple.pure fun s hs => hs ▸ ⟨l, .stays l, hn⟩

variable [Formats]

theorem onBlockCommit_rules (b : BlockId) :
    Triple (Rules (S := S) l) (onBlockCommit env b)
      (fun _ n => ∃ l', Advances l l' ∧ Rules l' n ∧
        (l = .committing b → l' ≠ .committing b)) (fun _ _ => True) := by
  refine (onBlockCommit_at (X := fun n => Own l n.blockQueue)
    (Y := fun n => n.blockQueue.commitQueue = []) (Z := fun n => n.blockQueue.commitQueue = [])
    (by simp) (queue_tame fun q => q.commitQueue = []) (any_fails _) (any_fails _)
    (fun _ hn => hn) ?_ (fun _ _ _ _ => trivial) fun _ _ hn => hn).conseq (fun _ hn => hn) ?_
    fun _ _ h => h
  · intro n i q hl hq hn
    have hl : l = .committing b := by simpa using hl
    subst hl
    exact hn.popped hq
  · intro _ n h
    rcases h with ⟨hl, h⟩ | ⟨hl, since, h⟩ | ⟨hf, -⟩ | ⟨hl, -, h⟩
    · obtain rfl := Option.some.inj hl
      exact ⟨_, .changes b, ⟨h.leader, h.follower, .empty h.rest rfl (by simp)⟩, by simp⟩
    · obtain rfl := Option.some.inj hl
      exact ⟨_, .confirmed b since, ⟨h.leader, h.follower, .empty h.rest rfl (by simp)⟩, by simp⟩
    · cases hf
    · exact ⟨l, .stays l, h, fun hl' => absurd (congrArg some hl') hl⟩

omit [Formats]

/-- The queue in which the entries of the round have been taken up. -/
theorem Own.round {round : Round} {q : BlockQueue} (h : Own l q) (hround : OwnRound l round)
    {l' : LeaderState} (hl : l' = l ∨ l = .changingConfig ∧ ∃ since, l' = .building since)
    (hnext : ∀ b, (enqueueAll q (blocksOf round.committed)).getNextCommittable = some b →
      ¬ WillCommit (some l') none b) :
    Own l' (enqueueAll q (blocksOf round.committed)) ∧ Advances l l' ∧
      blocksOf round.committed = [] := by
  have hnone : blocksOf round.committed = [] := by
    rcases hround with hnone | ⟨b, i, rfl, hblock⟩
    · exact hnone
    · -- the block that has been proposed is valid, and would have been committed
      refine absurd ?_ (hnext b (BlockQueue.getNextCommittable_eq_some.mpr ⟨⟨i, [], ?_⟩,
        h.valid b rfl⟩))
      · obtain rfl : l' = .proposing b := hl.resolve_right (by simp)
        exact Or.inl rfl
      · show q.commitQueue ++ blocksOf round.committed = _
        rw [h.queue_nil rfl, hblock]
        rfl
  have hsame : enqueueAll q (blocksOf round.committed) = q := by
    rw [hnone]
    exact enqueueAll_nil q
  rw [hsame]
  rcases hl with rfl | ⟨rfl, since, rfl⟩
  · exact ⟨h, .stays _, hnone⟩
  · exact ⟨.empty (h.queue_nil rfl) rfl (by simp), .resumed since, hnone⟩

omit [StorageExt S] in
/-- A leader stays one in a round of a leader. -/
theorem RoleChange.leader {round : Round} {l' : Option LeaderState} {f' : Option FollowerState}
    (h : RoleChange round (some l) none l' f') (hleads : round.isLeader = true) :
    l' = some l ∧ f' = none := by
  unfold RoleChange at h
  rw [if_pos hleads] at h
  cases h with
  | already => exact ⟨rfl, rfl⟩

variable [Protobuf]

theorem processReady_rules {round : Round} (hleads : round.isLeader = true)
    (hround : OwnRound l round) :
    Triple (Rules (S := S) l) (processReady env (some round))
      (Ends (fun n => ∃ l', Advances l l' ∧ Rules l' n ∧
        (blocksOf round.committed ≠ [] → ∃ b, l' = .committing b)) fun _ => True)
      (fun _ _ => True) := by
  intro n hn
  have hr : OneRole (some l) none := by simp [OneRole]
  refine Triple.conseq (processReady_settles round hr n.blockQueue) (fun _ hs => hs)
    (fun status n' h => ?_) (fun _ _ _ => trivial) n ⟨hn.leader, hn.follower, rfl⟩
  cases status with
  | Shutdown => trivial
  | Continue =>
    obtain ⟨hqueue, l₁, f₁, l₂, hrole, hl₂, hroles⟩ := h
    obtain ⟨rfl, rfl⟩ := hrole.leader hleads
    rcases hroles with ⟨hl', hf', hnext⟩ | ⟨b, l₃, f₃, hcommits, hb, hl', hf'⟩
    · obtain ⟨l', rfl, hl'₂⟩ : ∃ l', l₂ = some l' ∧
          (l' = l ∨ l = .changingConfig ∧ ∃ since, l' = .building since) := by
        rcases hl₂ with rfl | ⟨hl, since, rfl⟩
        · exact ⟨l, rfl, Or.inl rfl⟩
        · exact ⟨_, rfl, Or.inr ⟨Option.some.inj hl, since, rfl⟩⟩
      obtain ⟨hown, hadvances, hnone⟩ := hn.rest.round hround hl'₂ hnext
      exact ⟨l', hadvances, ⟨hl', hf', hqueue ▸ hown⟩, fun h => absurd hnone h⟩
    · cases hcommits with
      | leader =>
        obtain rfl : l = .proposing b := by
          rcases hl₂ with hl | ⟨-, since, hl⟩
          · exact (Option.some.inj hl).symm
          · cases hl
        refine ⟨.committing b, .committed b, ⟨hl', hf', ?_, by simp⟩, fun _ => ⟨b, rfl⟩⟩
        obtain ⟨⟨i, rest, hq⟩, -⟩ := BlockQueue.getNextCommittable_eq_some.mp hb
        -- it is the one that has been delivered
        have hall : n.blockQueue.commitQueue ++ blocksOf round.committed = (b, i) :: rest := hq
        rw [hn.rest.queue_nil rfl, List.nil_append] at hall
        rw [hqueue, hq]
        rcases hround with hnone | ⟨b', i', hb', hblock⟩
        · rw [hnone] at hall
          cases hall
        · rw [hblock] at hall
          obtain ⟨-, rfl⟩ := List.cons.inj hall
          rfl

/-! ## What makes it go on -/

omit [StorageExt S] [Protobuf] in
theorem tick_publishes {n : Node S} {since : Nat} (hl : n.leaderState = some (.building since))
    (hripe : Ripe env n since) : Triple (fun s => s = n) (tick env)
      (fun _ s => ∃ b, s.leaderState = some (.publishing b)) (fun _ _ => True) := by
  obtain ⟨hdue, ⟨summary, hsummary⟩, b, hblock⟩ := hripe
  refine Triple.bind (R := fun _ s => s = n.add .tick) (Triple.update fun s hs => by rw [hs]; rfl)
    fun _ => ?_
  refine Triple.read fun s hs => ?_
  subst hs
  have hl' : (n.add .tick).leaderState = some (.building since) := hl
  rw [hl']
  refine Triple.ite (fun _ => ?_) fun hnot => absurd hdue hnot
  refine Triple.bind tryCall_eq fun r => ?_
  refine Triple.pre (P := fun s => s = (n.add .tick).add .summarizeBlock ∧ r = .ok summary) ?_ ?_
  · split
    next => exact fun s hs => absurd hs.2 (by simp)
    next => exact fun s hs => absurd hs.2 (by simp)
    next =>
      refine Triple.bind tryCall_eq fun r => ?_
      refine Triple.pre (P := fun _ => r = .ok b) ?_ ?_
      · split
        next b' => exact Triple.update fun _ _ => ⟨b', rfl⟩
        next => exact fun s hs => by cases hs
        next => exact fun s hs => by cases hs
      · intro s hs
        obtain ⟨n', ⟨rfl, -⟩, -, rfl⟩ := hs
        exact hblock
  · intro s hs
    obtain ⟨n', rfl, rfl, rfl⟩ := hs
    exact ⟨rfl, hsummary⟩

/-- As long as the change is still to come. -/
theorem changeAhead_takes : Takes (S := S) (fun es _ => ∃ e ∈ es, IsChange e) (fun _ _ => True)
    (fun _ => True) (fun _ _ => True) where
  tame _ := queue_tame fun _ => True
  fails _ := any_fails _
  skip e es _ _ hc h := by
    obtain ⟨e', he', hchange⟩ := h
    rcases List.mem_cons.mp he' with rfl | he'
    · exact absurd hchange hc
    · exact ⟨e', he', hchange⟩
  block e es _ hb h := by
    obtain ⟨e', he', hchange⟩ := h
    rcases List.mem_cons.mp he' with rfl | he'
    · exact absurd hb (isChange_not_isBlock hchange)
    · exact ⟨e', he', hchange⟩
  change _ _ _ _ _ _ _ _ _ := trivial
  shutdown _ _ _ _ _ _ _ _ := trivial
  unknown _ _ _ _ _ _ _ _ := trivial
  malformed _ _ _ _ _ _ _ := trivial

/-- A leader that waits for a change builds again once there has been one. -/
theorem processReady_resumes {round : Round} (hleads : round.isLeader = true)
    (hchange : ∃ e ∈ round.committed, IsChange e) :
    Triple (At (S := S) (some .changingConfig) none fun _ => True) (processReady env (some round))
      (Ends (fun n => ∃ since, n.leaderState = some (.building since)) fun _ => True)
      (fun _ _ => True) := by
  have htame := queue_tame (S := S) fun _ => True
  have htakes : Takes (S := S) (fun _ _ => True) (fun _ _ => True) (fun _ => True)
      (fun _ _ => True) :=
    { tame := fun _ => htame, fails := fun _ => any_fails _
      skip := fun _ _ _ _ _ _ => trivial, block := fun _ _ _ _ _ => trivial
      change := fun _ _ _ _ _ _ _ _ _ => trivial, shutdown := fun _ _ _ _ _ _ _ _ => trivial
      unknown := fun _ _ _ _ _ _ _ _ => trivial, malformed := fun _ _ _ _ _ _ _ => trivial }
  refine processReady_at (G := fun _ => True)
    (M := fun n : Node S => ∃ since, At (some (.building since)) none (fun _ => True) n)
    (fun _ _ => trivial) htame (any_fails _) (fun _ _ _ _ _ => trivial) ?_ ?_
  · intro l f hrole
    obtain ⟨rfl, rfl⟩ := hrole.leader hleads
    refine (deliver_changing_at changeAhead_takes htakes (fun _ _ _ => trivial)
      (fun _ => any_fails _) (fun _ _ _ => trivial) round.committed).conseq
      (fun n hn => ⟨hn.leader, hn.follower, hchange⟩) (fun status n h => ?_) fun _ _ h => h
    cases status with
    | Shutdown => trivial
    | Continue =>
      rcases h with h | h
      · obtain ⟨e, he, -⟩ := h.rest
        cases he
      · exact h
  · refine Triple.intro fun since => ?_
    refine (commitNext_at (H := fun _ _ => True) (by simp) htame (fun _ => any_fails _)
      fun _ _ _ _ _ => trivial).conseq (fun _ hn => hn) (fun _ n h => ?_) fun _ _ h => h
    rcases h with ⟨h, -⟩ | ⟨b, l', f', hcommits, -⟩
    · exact ⟨since, h.leader⟩
    · cases hcommits

end

/-- The block that the leader proposes is the last one proposed. -/
theorem Stage.last_proposal {env : Env} {A : Terms} {t : List Obs} {l : Option LeaderState}
    (h : Stage env A t l) :
    ∀ b, l = some (.proposing b) → (proposals t).getLast? = some b := by
  have hother : ∀ {t : List Obs} {o : Obs} {b : BlockId}, (∀ b, o ≠ .propose b) →
      (proposals t).getLast? = some b → (proposals (t ++ [o])).getLast? = some b := by
    intro t o b ho hlast
    have hnone : proposalOf o = none := by
      cases o with
      | propose b => exact absurd rfl (ho b)
      | _ => rfl
    rwa [proposals_snoc, hnone, Option.toList_none, List.append_nil]
  induction h with
  | quiet o _ ho ih => exact fun b hb => hother ho.neutral.1 (ih b hb)
  | ready round _ _ _ ih => exact fun b hb => hother (by simp) (ih b hb)
  | proposed =>
    intro b' hb'
    obtain rfl := LeaderState.proposing.inj (Option.some.inj hb')
    rw [proposals_snoc]
    exact List.getLast?_concat
  | @finalized t since _ _ _ =>
    intro b hb
    cases hanswer : env.finalizeBlock (t ++ [.finalizeBlock]) with
    | ok b' =>
      rw [hanswer] at hb
      cases hb
    | error err =>
      rw [hanswer] at hb
      cases hb
  | _ =>
    intro b hb
    cases hb

/-! ## An endless reign -/

section
variable [StorageExt S] [Protobuf] [Formats]

/-- From the moment `k₀` on the node leads, and what it waits for comes. -/
structure Reign (env : Env) (node : Node S) (inputs : Nat → Input) (k₀ : Nat) : Prop where
  running : ∀ k, (runTo env node inputs k).status = .running
  /-- It leads, and has none but its own blocks in the queue. -/
  begun : ∃ l, (runTo env node inputs k₀).node.leaderState = some l ∧
    Own l (runTo env node inputs k₀).node.blockQueue
  rounds : ∀ k round, k₀ ≤ k → inputs k = .processReady (some round) → round.isLeader = true ∧
    ∀ l, (runTo env node inputs k).node.leaderState = some l → OwnRound l round
  published : ∀ k since, k₀ ≤ k →
    (runTo env node inputs k).node.leaderState = some (.building since) →
    ∃ j, k ≤ j ∧ inputs j = .tick ∧ Ripe env (runTo env node inputs j).node since
  validated : ∀ k b, k₀ ≤ k →
    (runTo env node inputs k).node.leaderState = some (.publishing b) ∨
      (runTo env node inputs k).node.leaderState = some (.validating b) →
    ∃ j, k ≤ j ∧ inputs j = .blockValid b
  delivered : ∀ k b, k₀ ≤ k →
    (runTo env node inputs k).node.leaderState = some (.proposing b) →
    ∃ j round, k ≤ j ∧ inputs j = .processReady (some round) ∧ blocksOf round.committed ≠ []
  confirmed : ∀ k b, k₀ ≤ k →
    (runTo env node inputs k).node.leaderState = some (.committing b) →
    ∃ j, k ≤ j ∧ inputs j = .blockCommit b
  reconfigured : ∀ k, k₀ ≤ k →
    (runTo env node inputs k).node.leaderState = some .changingConfig →
    ∃ j round, k ≤ j ∧ inputs j = .processReady (some round) ∧ ∃ e ∈ round.committed, IsChange e

/-- At the moment `k` the node rules in state `l`. -/
def RulesAt (env : Env) (node : Node S) (inputs : Nat → Input) (l : LeaderState) (k : Nat) : Prop :=
  Rules l (runTo env node inputs k).node

variable {env : Env} {node : Node S} {inputs : Nat → Input} {k₀ k : Nat} {l : LeaderState}
  {b : BlockId}

theorem Reign.good (h : Reign env node inputs k₀) (hnew : Sys.IsNew node) (k : Nat) :
    Good (runTo env node inputs k).node := by
  have hsat : (runTo env node inputs k).Sat Good Stopped := runTo_sat hnew k
  unfold Sys.Sat at hsat
  rwa [h.running k] at hsat

/-- The step that a round makes. -/
theorem Reign.round (h : Reign env node inputs k₀) {j : Nat} {round : Round}
    (hj : inputs j = .processReady (some round)) {J : Node S → Prop}
    (hm : Triple (fun n => n = (runTo env node inputs j).node) (processReady env (some round))
      (Ends J fun _ => True) (fun _ _ => True)) : J (runTo env node inputs (j + 1)).node := by
  refine runTo_step h.running hj (hm.conseq (fun _ hs => hs) (fun status n hn => ?_)
    fun _ _ hs => hs)
  cases status with
  | Shutdown => trivial
  | Continue => exact hn

/-- **Step**: the leader stays where it is, or goes on by one. -/
theorem Reign.step (h : Reign env node inputs k₀) (hk : k₀ ≤ k)
    (hn : RulesAt env node inputs l k) :
    ∃ l', Advances l l' ∧ RulesAt env node inputs l' (k + 1) := by
  let J : Node S → Prop := fun n => ∃ l', Advances l l' ∧ Rules l' n
  have hdone : ∀ {m : NodeM S Unit}, Triple (Rules l) m (fun _ => J) (fun _ _ => True) →
      Triple (fun n => n = (runTo env node inputs k).node) (do m; pure ReadyStatus.Continue)
        (Sys.Leaves J fun _ _ => True) (fun _ _ => True) :=
    fun hm => Triple.bind (hm.pre fun n hs => hs ▸ hn) fun _ => Triple.pure fun _ h => h
  cases hi : inputs k with
  | blockNew block =>
    refine runTo_step h.running hi (hdone ((onBlockNew_rules block).conseq (fun _ hn => hn)
      (fun _ n hn' => ⟨_, (hn.rest.afterNew block).2, hn'⟩) fun _ _ h => h))
  | blockValid b =>
    refine runTo_step h.running hi (hdone ((onBlockValid_rules b).conseq (fun _ hn => hn)
      (fun _ n hn' => ⟨_, (hn.rest.afterValid b).2, hn'⟩) fun _ _ h => h))
  | blockCommit b =>
    refine runTo_step h.running hi (hdone ((onBlockCommit_rules b).conseq (fun _ hn => hn)
      (fun _ n hn' => ?_) fun _ _ h => h))
    obtain ⟨l', hadvances, hn', -⟩ := hn'
    exact ⟨l', hadvances, hn'⟩
  | peerMessage message =>
    exact runTo_step h.running hi (hdone ((onPeerMessage_rules message).conseq (fun _ hn => hn)
      (fun _ n hn' => ⟨l, .stays l, hn'⟩) fun _ _ h => h))
  | tick => exact runTo_step h.running hi (hdone tick_rules)
  | processReady round =>
    cases round with
    | none =>
      refine runTo_step (J := J) h.running hi (Triple.pure fun n hs => ?_)
      exact ⟨l, .stays l, hs ▸ hn⟩
    | some round =>
      obtain ⟨hleads, hround⟩ := h.rounds k round hk hi
      obtain ⟨l', hadvances, hl', -⟩ := h.round hi
        ((processReady_rules hleads (hround l hn.leader)).pre fun _ hs => hs ▸ hn)
      exact ⟨l', hadvances, hl'⟩

/-- **Run**: from the beginning of its reign on, the node rules at every moment. -/
theorem Reign.ruled (h : Reign env node inputs k₀) (hnew : Sys.IsNew node) (hk : k₀ ≤ k) :
    ∃ l, RulesAt env node inputs l k := by
  induction k, hk using Nat.le_induction with
  | base =>
    obtain ⟨l, hl, hown⟩ := h.begun
    obtain ⟨_, _, hr, rfl, rfl, -⟩ := h.good hnew k₀
    rw [hl] at hr
    exact ⟨l, hl, hr.follower_none, hown⟩
  | succ k hk ih =>
    obtain ⟨l, hl⟩ := ih
    obtain ⟨l', -, hl'⟩ := h.step hk hl
    exact ⟨l', hl'⟩

/-- Whoever is not committing a block any more has applied it. -/
theorem Reign.applies (h : Reign env node inputs k₀) (hnew : Sys.IsNew node)
    (hn : RulesAt env node inputs (.committing b) k) (hl : RulesAt env node inputs l (k + 1))
    (hnot : ∀ b, l ≠ .committing b) :
    appliedBy env node inputs k < appliedBy env node inputs (k + 1) := by
  obtain ⟨l₁, f₁, hr₁, rfl, rfl, hkept⟩ := h.good hnew k
  obtain ⟨l₂, f₂, hr₂, rfl, rfl, hkept'⟩ := h.good hnew (k + 1)
  have hgrows : (books (runTo env node inputs k).node.trace).Extends
      (books (runTo env node inputs (k + 1)).node.trace) :=
    books_extends (runTo_grows hnew (Nat.le_succ k))
  have hbefore := hkept.committing_iff.mp (by
    rw [(committingOf_eq_some hr₁).mpr (Or.inl hn.leader)]
    simp)
  have hafter := mt hkept'.committing_iff.mpr (by
    rw [hl.leader, hl.follower]
    cases l with
    | committing b => exact absurd rfl (hnot b)
    | _ => exact fun h => h rfl)
  unfold appliedBy
  have := hgrows.commits.length_le
  omega

/-! ## The way round -/

section
variable (h : Reign env node inputs k₀)
include h

theorem building_leads (since : Nat) : LeadsTo k₀ (RulesAt env node inputs (.building since))
    (fun k => ∃ b, RulesAt env node inputs (.publishing b) k) := by
  refine leadsTo_of_step (fun k hk hn => ?_) fun k hk hn => ?_
  · obtain ⟨l, hadvances, hl⟩ := h.step hk hn
    cases hadvances with
    | stays => exact Or.inl hl
    | published _ b => exact Or.inr ⟨b, hl⟩
    | proposed b hb => exact absurd hb (by simp)
  · obtain ⟨j, hkj, hj, hripe⟩ := h.published k since hk hn.leader
    refine ⟨j, hkj, fun hn => ?_⟩
    obtain ⟨l, -, hl⟩ := h.step (hk.trans hkj) hn
    -- the tick leaves the leader publishing
    have hpublishes : ∃ b, (runTo env node inputs (j + 1)).node.leaderState
        = some (.publishing b) :=
      runTo_step (J := fun n => ∃ b, n.leaderState = some (.publishing b)) h.running hj
        (Triple.bind (tick_publishes hn.leader hripe) fun _ => Triple.pure fun _ hn => hn)
    obtain ⟨b, hb⟩ := hpublishes
    obtain rfl := Option.some.inj (hl.leader.symm.trans hb)
    exact ⟨b, hl⟩

theorem publishing_leads (b : BlockId) : LeadsTo k₀
    (fun k => RulesAt env node inputs (.publishing b) k ∨ RulesAt env node inputs (.validating b) k)
    (RulesAt env node inputs (.proposing b)) := by
  refine leadsTo_of_step (fun k hk hn => ?_) fun k hk hn => ?_
  · rcases hn with hn | hn
    · obtain ⟨l, hadvances, hl⟩ := h.step hk hn
      cases hadvances with
      | stays => exact Or.inl (Or.inl hl)
      | received => exact Or.inl (Or.inr hl)
      | proposed b' hb =>
        obtain rfl : b = b' := by simpa using hb
        exact Or.inr hl
    · obtain ⟨l, hadvances, hl⟩ := h.step hk hn
      cases hadvances with
      | stays => exact Or.inl (Or.inr hl)
      | proposed b' hb =>
        obtain rfl : b = b' := by simpa using hb
        exact Or.inr hl
  · obtain ⟨j, hkj, hj⟩ := h.validated k b hk (hn.imp (·.leader) (·.leader))
    refine ⟨j, hkj, fun hn => ?_⟩
    have hproposes : ∀ l, l = .publishing b ∨ l = .validating b → RulesAt env node inputs l j →
        RulesAt env node inputs (.proposing b) (j + 1) := by
      intro l hl hn
      have hto : afterValid l b = .proposing b := if_pos hl
      exact runTo_step h.running hj (Triple.bind (((onBlockValid_rules b).pre
        fun _ hs => hs ▸ hn).conseq (fun _ hs => hs) (fun _ _ hs => hto ▸ hs) fun _ _ hs => hs)
        fun _ => Triple.pure fun _ hs => hs)
    exact hn.elim (hproposes _ (Or.inl rfl)) (hproposes _ (Or.inr rfl))

theorem proposing_leads (b : BlockId) : LeadsTo k₀ (RulesAt env node inputs (.proposing b))
    (RulesAt env node inputs (.committing b)) := by
  refine leadsTo_of_step (fun k hk hn => ?_) fun k hk hn => ?_
  · obtain ⟨l, hadvances, hl⟩ := h.step hk hn
    cases hadvances with
    | stays => exact Or.inl hl
    | proposed b hb => exact absurd hb (by simp)
    | committed => exact Or.inr hl
  · obtain ⟨j, round, hkj, hj, hblock⟩ := h.delivered k b hk hn.leader
    refine ⟨j, hkj, fun hn => ?_⟩
    obtain ⟨hleads, hround⟩ := h.rounds j round (hk.trans hkj) hj
    obtain ⟨l, hadvances, hl, hto⟩ := h.round hj
      ((processReady_rules hleads (hround _ hn.leader)).pre fun _ hs => hs ▸ hn)
    obtain ⟨b', rfl⟩ := hto hblock
    cases hadvances with
    | committed => exact hl

variable (hnew : Sys.IsNew node)
include hnew

theorem committing_leads (b : BlockId) (a : Nat) : LeadsTo k₀
    (fun k => RulesAt env node inputs (.committing b) k ∧ a ≤ appliedBy env node inputs k)
    (fun k => (RulesAt env node inputs .changingConfig k ∨
      ∃ since, RulesAt env node inputs (.building since) k) ∧ a < appliedBy env node inputs k) := by
  refine leadsTo_of_step (fun k hk hn => ?_) fun k hk hn => ?_
  · obtain ⟨l, hadvances, hl⟩ := h.step hk hn.1
    cases hadvances with
    | stays => exact Or.inl ⟨hl, hn.2.trans (appliedBy_mono hnew (Nat.le_succ k))⟩
    | proposed b hb => exact absurd hb (by simp)
    | confirmed _ since =>
      exact Or.inr ⟨Or.inr ⟨since, hl⟩, hn.2.trans_lt (h.applies hnew hn.1 hl (by simp))⟩
    | changes => exact Or.inr ⟨Or.inl hl, hn.2.trans_lt (h.applies hnew hn.1 hl (by simp))⟩
  · obtain ⟨j, hkj, hj⟩ := h.confirmed k b hk hn.1.leader
    refine ⟨j, hkj, fun hn => ?_⟩
    have hconfirms : ∃ l, Advances (.committing b) l ∧ RulesAt env node inputs l (j + 1) ∧
        (LeaderState.committing b = .committing b → l ≠ .committing b) :=
      runTo_step (J := fun n => ∃ l, Advances (.committing b) l ∧ Rules l n ∧ (_ → _)) h.running hj
        (Triple.bind ((onBlockCommit_rules b).pre fun _ hs => hs ▸ hn.1) fun _ =>
          Triple.pure fun _ hs => hs)
    obtain ⟨l, hadvances, hl, hover⟩ := hconfirms
    cases hadvances with
    | stays => exact absurd rfl (hover rfl)
    | proposed b hb => exact absurd hb (by simp)
    | confirmed _ since =>
      exact ⟨Or.inr ⟨since, hl⟩, hn.2.trans_lt (h.applies hnew hn.1 hl (by simp))⟩
    | changes => exact ⟨Or.inl hl, hn.2.trans_lt (h.applies hnew hn.1 hl (by simp))⟩

theorem changing_leads (a : Nat) : LeadsTo k₀
    (fun k => RulesAt env node inputs .changingConfig k ∧ a ≤ appliedBy env node inputs k)
    (fun k => (∃ since, RulesAt env node inputs (.building since) k) ∧
      a ≤ appliedBy env node inputs k) := by
  refine leadsTo_of_step (fun k hk hn => ?_) fun k hk hn => ?_
  · have happlied := hn.2.trans (appliedBy_mono hnew (Nat.le_succ k))
    obtain ⟨l, hadvances, hl⟩ := h.step hk hn.1
    cases hadvances with
    | stays => exact Or.inl ⟨hl, happlied⟩
    | proposed b hb => exact absurd hb (by simp)
    | resumed since => exact Or.inr ⟨⟨since, hl⟩, happlied⟩
  · obtain ⟨j, round, hkj, hj, hchange⟩ := h.reconfigured k hk hn.1.leader
    refine ⟨j, hkj, fun hn => ⟨?_, hn.2.trans (appliedBy_mono hnew (Nat.le_succ j))⟩⟩
    obtain ⟨hleads, -⟩ := h.rounds j round (hk.trans hkj) hj
    obtain ⟨l, -, hl⟩ := h.step (hk.trans hkj) hn.1
    obtain ⟨since, hsince⟩ := h.round hj ((processReady_resumes hleads hchange).pre
      fun _ hs => hs ▸ ⟨hn.1.leader, hn.1.follower, trivial⟩)
    obtain rfl := Option.some.inj (hl.leader.symm.trans hsince)
    exact ⟨since, hl⟩

/-- The confirmed block is applied, and the next one is begun. -/
theorem confirmed_leads (b : BlockId) (a : Nat) : LeadsTo k₀
    (fun k => RulesAt env node inputs (.committing b) k ∧ a ≤ appliedBy env node inputs k)
    (fun k => (∃ since, RulesAt env node inputs (.building since) k) ∧
      a < appliedBy env node inputs k) := by
  refine (committing_leads h hnew b a).trans ?_
  have hboth := (changing_leads h hnew (a + 1)).or (LeadsTo.of_imp (P := fun k =>
    (∃ since, RulesAt env node inputs (.building since) k) ∧ a < appliedBy env node inputs k)
    fun _ _ hn => hn)
  exact (LeadsTo.of_imp fun k _ hn => hn.1.imp (fun hl => ⟨hl, hn.2⟩) fun hl => ⟨hl, hn.2⟩).trans
    hboth

omit hnew in
theorem building_proposes (since : Nat) : LeadsTo k₀ (RulesAt env node inputs (.building since))
    (fun k => ∃ b, RulesAt env node inputs (.proposing b) k) :=
  (building_leads h since).trans <| LeadsTo.intro fun b =>
    (LeadsTo.of_imp fun _ _ hn => Or.inl hn).trans <|
      (publishing_leads h b).trans <| LeadsTo.of_imp fun _ _ hn => ⟨b, hn⟩

/-- From wherever it is, the leader comes to a proposal. -/
theorem eventually_proposing (hk : k₀ ≤ k) :
    ∃ j, k ≤ j ∧ ∃ b, RulesAt env node inputs (.proposing b) j := by
  have hbuilds : LeadsTo k₀ (fun k => ∃ since, RulesAt env node inputs (.building since) k)
      (fun k => ∃ b, RulesAt env node inputs (.proposing b) k) :=
    LeadsTo.intro (building_proposes h)
  obtain ⟨l, hl⟩ := h.ruled hnew hk
  cases l with
  | building since => exact building_proposes h since k hk hl
  | publishing b =>
    obtain ⟨j, hkj, hj⟩ := publishing_leads h b k hk (Or.inl hl)
    exact ⟨j, hkj, b, hj⟩
  | validating b =>
    obtain ⟨j, hkj, hj⟩ := publishing_leads h b k hk (Or.inr hl)
    exact ⟨j, hkj, b, hj⟩
  | proposing b => exact ⟨k, le_refl k, b, hl⟩
  | committing b =>
    obtain ⟨j, hkj, hbuilding, -⟩ := confirmed_leads h hnew b 0 k hk ⟨hl, Nat.zero_le _⟩
    obtain ⟨i, hji, hi⟩ := hbuilds j (hk.trans hkj) hbuilding
    exact ⟨i, hkj.trans hji, hi⟩
  | changingConfig =>
    obtain ⟨j, hkj, hbuilding, -⟩ := changing_leads h hnew 0 k hk ⟨hl, Nat.zero_le _⟩
    obtain ⟨i, hji, hi⟩ := hbuilds j (hk.trans hkj) hbuilding
    exact ⟨i, hkj.trans hji, hi⟩

end

/-- **A leader never gets stuck.** Whenever it is, the leader comes to propose
another block, and that block is passed to `commit_block`, is applied, and the next
one is begun. -/
theorem leader_never_stuck (hnew : Sys.IsNew node) (h : Reign env node inputs k₀) (hk : k₀ ≤ k) :
    ∃ b j₁ j₂ j₃, k ≤ j₁ ∧ j₁ ≤ j₂ ∧ j₂ ≤ j₃ ∧
      (runTo env node inputs j₁).node.leaderState = some (.proposing b) ∧
      (proposals (runTo env node inputs j₁).node.trace).getLast? = some b ∧
      (runTo env node inputs j₂).node.leaderState = some (.committing b) ∧
      (books (runTo env node inputs j₂).node.trace).commits.getLast? = some b ∧
      (∃ since, (runTo env node inputs j₃).node.leaderState = some (.building since)) ∧
      (books (runTo env node inputs j₂).node.trace).applied.length
        < (books (runTo env node inputs j₃).node.trace).applied.length := by
  obtain ⟨j₁, hj₁, b, hproposing⟩ := eventually_proposing h hnew hk
  obtain ⟨j₂, hj₂, hcommitting⟩ := proposing_leads h b j₁ (hk.trans hj₁) hproposing
  obtain ⟨j₃, hj₃, ⟨since, hbuilding⟩, happlied⟩ := confirmed_leads h hnew b _ j₂
    ((hk.trans hj₁).trans hj₂) ⟨hcommitting, le_refl _⟩
  refine ⟨b, j₁, j₂, j₃, hj₁, hj₂, hj₃, hproposing.leader, ?_, hcommitting.leader, ?_,
    ⟨since, hbuilding.leader⟩, happlied⟩
  · have hrun : (runTo env node inputs j₁).Sat (Steered env Terms.any fun _ => True) _ :=
      run_steered hnew _
    unfold Sys.Sat at hrun
    rw [h.running j₁] at hrun
    obtain ⟨l, hl⟩ := hrun
    exact hl.stage.last_proposal b (hl.leader.symm.trans hproposing.leader)
  · obtain ⟨l, f, hr, rfl, rfl, hkept⟩ := h.good hnew j₂
    obtain ⟨popped, hbal⟩ := hkept.balanced
    rw [hbal.commits, (committingOf_eq_some hr).mpr (Or.inl hcommitting.leader)]
    exact List.getLast?_concat

end

/-! ## A reign without end -/

/-- The confirmation of the leader's block, when nothing goes wrong. -/
theorem handle_blockCommit {S : Type} [StorageExt S] [Protobuf] [Formats] {env : Env}
    {n n₁ n₂ : Node S} {b : BlockId} (hl : n.leaderState = some (.committing b))
    (hconfirm : confirmFront (n.add (.blockCommit b)) = .ok () n₁)
    (hafter : afterCommit env b n₁ = .ok () n₂) (hf : n₂.followerState = none) :
    handle env (.blockCommit b) n = .ok .Continue n₂ := by
  have hleader : leaderBlockCommit env b (n.add (.blockCommit b)) = .ok () n₂ := by
    show (if n.leaderState = some (.committing b) then do
        confirmFront
        afterCommit env b
      else pure () : NodeM S Unit) (n.add (.blockCommit b)) = _
    rw [if_pos hl, bind_of_ok hconfirm, hafter]
  have hfollower : followerBlockCommit b n₂ = .ok () n₂ := by
    show (if n₂.followerState = some (.committing b) then do
        confirmFront
        setFollowerState (some .idle)
      else pure () : NodeM S Unit) n₂ = _
    rw [if_neg (by rw [hf]; simp)]
    rfl
  have hcommit : onBlockCommit env b n = .ok () n₂ := by
    show (do leaderBlockCommit env b; followerBlockCommit b : NodeM S Unit)
      (n.add (.blockCommit b)) = _
    rw [bind_of_ok hleader, hfollower]
  show (do onBlockCommit env b; pure .Continue : NodeM S ReadyStatus) n = _
  rw [bind_of_ok hcommit]
  rfl

section

open scoped Proto3 PlainFormats

/-- A validator that is always ready for the same block, on a clock that stands still. -/
def alwaysSeven : Env := { Env.obliging [7] (fun _ => twoPeersSetting) with now := fun _ => 0 }

/-- Block 7 is delivered to the leader. -/
def sevenDelivered : Round where
  isLeader := true
  ready := { committedEntries := some [{ term := 2, index := 3, data := [7] }] }

/-- The leader is elected, and then goes round and round. -/
def roundAndRound (k : Nat) : Input :=
  if k = 0 then .processReady (some { isLeader := true })
  else if k % 4 = 1 then .tick
  else if k % 4 = 2 then .blockValid [7]
  else if k % 4 = 3 then .processReady (some sevenDelivered)
  else .blockCommit [7]

/-- The leader of a network of two on its way round. -/
def onItsWay (l : LeaderState) (q : BlockQueue) (d : Dir) (t : List Obs) : Sys FsStorage where
  node :=
    { peerId := peerOf 1
      store := ⟨d⟩
      leaderState := some l
      followerState := none
      blockQueue := q
      raftIdToPeerId := mapOf [peerOf 1, peerOf 2]
      period := 0
      trace := t }
  status := .running

/-- Block 7 is valid. -/
def sevenValid : BlockId → Option BlockStatus :=
  Function.update (fun _ => none) [7] (some BlockStatus.withValid)

theorem onItsWay_published (d : Dir) (t : List Obs) : ∃ t',
    (onItsWay (.building 0) BlockQueue.new d t).step alwaysSeven .tick
      = onItsWay (.publishing [7]) BlockQueue.new d t' :=
  ⟨_, rfl⟩

theorem onItsWay_proposed (d : Dir) (t : List Obs) : ∃ t',
    (onItsWay (.publishing [7]) BlockQueue.new d t).step alwaysSeven (.blockValid [7])
      = onItsWay (.proposing [7]) ⟨sevenValid, []⟩ d t' :=
  ⟨_, rfl⟩

theorem onItsWay_committed (d : Dir) (t : List Obs) : ∃ t',
    (onItsWay (.proposing [7]) ⟨sevenValid, []⟩ d t).step alwaysSeven
      (.processReady (some sevenDelivered))
      = onItsWay (.committing [7]) ⟨sevenValid, [([7], 3)]⟩ d t' :=
  ⟨_, rfl⟩

/-- The peers are those of the setting, so the next block is begun. -/
theorem onItsWay_resumed (d : Dir) (t : List Obs) : ∃ t', afterCommit alwaysSeven [7]
    (onItsWay (.committing [7]) BlockQueue.new d t).node
      = .ok () (onItsWay (.building 0) BlockQueue.new d t').node := by
  have hpeers : getPeersFromSettings twoPeersSetting = .ok [peerOf 1, peerOf 2] := by
    decide +kernel
  have hchange : confChangeBetween [peerOf 1, peerOf 2]
      ((mapOf [peerOf 1, peerOf 2]).entries.map (·.2)) = .ok none := by
    decide +kernel
  have hmap : (onItsWay (.committing [7]) BlockQueue.new d t).node.raftIdToPeerId
      = mapOf [peerOf 1, peerOf 2] := rfl
  have hsettings : alwaysSeven.getSettings
      ((onItsWay (.committing [7]) BlockQueue.new d t).node.trace ++ [.getSettings [7] [peersKey]])
      [7] = .ok twoPeersSetting := rfl
  have hcheck := checkForConfChange_eq hsettings hpeers
  rw [hmap, hchange] at hcheck
  unfold afterCommit
  rw [bind_of_ok hcheck]
  exact ⟨_, rfl⟩

theorem onItsWay_confirmed (d : Dir) (t : List Obs) : ∃ d' t',
    (onItsWay (.committing [7]) ⟨sevenValid, [([7], 3)]⟩ d t).step alwaysSeven (.blockCommit [7])
      = onItsWay (.building 0) BlockQueue.new d' t' := by
  -- the block is popped
  have hconfirm : ∃ d' t', confirmFront
      ((onItsWay (.committing [7]) ⟨sevenValid, [([7], 3)]⟩ d t).node.add (.blockCommit [7]))
        = .ok () (onItsWay (.committing [7]) BlockQueue.new d' t').node := by
    have hnone : Function.update sevenValid [7] none = fun _ => none := by simp [sevenValid]
    refine ⟨replay d [.write .applied (u64ToBytes 3)], t ++ [.blockCommit [7]] ++ [.setApplied 3]
      ++ [.file (.write .applied (u64ToBytes 3))], ?_⟩
    unfold BlockQueue.new
    rw [← hnone]
    rfl
  obtain ⟨d', t₁, hconfirm⟩ := hconfirm
  obtain ⟨t', hresumed⟩ := onItsWay_resumed d' t₁
  have hhandle := handle_blockCommit rfl hconfirm hresumed rfl
  have hstep : (onItsWay (.committing [7]) ⟨sevenValid, [([7], 3)]⟩ d t).step alwaysSeven
      (.blockCommit [7]) = Sys.after (handle alwaysSeven (.blockCommit [7])
        (onItsWay (.committing [7]) ⟨sevenValid, [([7], 3)]⟩ d t).node) := rfl
  rw [hhandle] at hstep
  exact ⟨d', t', hstep⟩

/-- Where the leader is at a moment. -/
inductive OnItsWay (k : Nat) : Sys FsStorage → Prop
  | building (hk : k % 4 = 1) (d : Dir) (t : List Obs) :
    OnItsWay k (onItsWay (.building 0) BlockQueue.new d t)
  | publishing (hk : k % 4 = 2) (d : Dir) (t : List Obs) :
    OnItsWay k (onItsWay (.publishing [7]) BlockQueue.new d t)
  | proposing (hk : k % 4 = 3) (d : Dir) (t : List Obs) :
    OnItsWay k (onItsWay (.proposing [7]) ⟨sevenValid, []⟩ d t)
  | committing (hk : k % 4 = 0) (d : Dir) (t : List Obs) :
    OnItsWay k (onItsWay (.committing [7]) ⟨sevenValid, [([7], 3)]⟩ d t)

theorem roundAndRound_eq {k : Nat} (hk : 1 ≤ k) : roundAndRound k =
    if k % 4 = 1 then .tick else if k % 4 = 2 then .blockValid [7]
    else if k % 4 = 3 then .processReady (some sevenDelivered) else .blockCommit [7] :=
  if_neg (by omega)

theorem OnItsWay.step {k : Nat} {s : Sys FsStorage} (h : OnItsWay k s) (hk : 1 ≤ k) :
    OnItsWay (k + 1) (s.step alwaysSeven (roundAndRound k)) := by
  rw [roundAndRound_eq hk]
  cases h with
  | building hmod d t =>
    obtain ⟨t', h⟩ := onItsWay_published d t
    rw [if_pos hmod, h]
    exact .publishing (by omega) d t'
  | publishing hmod d t =>
    obtain ⟨t', h⟩ := onItsWay_proposed d t
    rw [if_neg (by omega), if_pos hmod, h]
    exact .proposing (by omega) d t'
  | proposing hmod d t =>
    obtain ⟨t', h⟩ := onItsWay_committed d t
    rw [if_neg (by omega), if_neg (by omega), if_pos hmod, h]
    exact .committing (by omega) d t'
  | committing hmod d t =>
    obtain ⟨d', t', h⟩ := onItsWay_confirmed d t
    rw [if_neg (by omega), if_neg (by omega), if_neg (by omega), h]
    exact .building (by omega) d' t'

/-- Before the election. -/
def candidate : Node FsStorage where
  peerId := peerOf 1
  store := ⟨fun _ => none⟩
  leaderState := none
  followerState := some .idle
  blockQueue := BlockQueue.new
  raftIdToPeerId := mapOf [peerOf 1, peerOf 2]
  period := 0
  trace := []

theorem candidate_onItsWay {k : Nat} (hk : 1 ≤ k) :
    OnItsWay k (runTo alwaysSeven candidate roundAndRound k) := by
  induction k, hk using Nat.le_induction with
  | base => exact .building rfl _ _
  | succ k hk ih =>
    rw [runTo_succ]
    exact ih.step hk

theorem OnItsWay.running {k : Nat} {s : Sys FsStorage} (h : OnItsWay k s) :
    s.status = .running := by
  cases h with
  | _ => rfl

theorem OnItsWay.leader {k : Nat} {s : Sys FsStorage} (h : OnItsWay k s) {l : LeaderState}
    (hl : s.node.leaderState = some l) :
    k % 4 = 1 ∧ l = .building 0 ∧ s.node.period = 0 ∨ k % 4 = 2 ∧ l = .publishing [7] ∨
      k % 4 = 3 ∧ l = .proposing [7] ∨ k % 4 = 0 ∧ l = .committing [7] := by
  cases h with
  | building hk => exact Or.inl ⟨hk, (Option.some.inj hl).symm, rfl⟩
  | publishing hk => exact Or.inr (Or.inl ⟨hk, (Option.some.inj hl).symm⟩)
  | proposing hk => exact Or.inr (Or.inr (Or.inl ⟨hk, (Option.some.inj hl).symm⟩))
  | committing hk => exact Or.inr (Or.inr (Or.inr ⟨hk, (Option.some.inj hl).symm⟩))

theorem candidate_reign : Reign alwaysSeven candidate roundAndRound 1 where
  running k := by
    rcases Nat.eq_zero_or_pos k with rfl | hk
    · rfl
    · exact (candidate_onItsWay hk).running
  begun := ⟨.building 0, rfl, .empty rfl rfl (by simp)⟩
  rounds k round hk hi := by
    rw [roundAndRound_eq hk] at hi
    split at hi
    next => cases hi
    split at hi
    next => cases hi
    split at hi
    next hmod =>
      cases hi
      refine ⟨rfl, fun l hl => Or.inr ⟨[7], 3, ?_, rfl⟩⟩
      simpa [hmod] using (candidate_onItsWay hk).leader hl
    next => cases hi
  published k since hk hl := by
    obtain ⟨hmod, hsince, hperiod⟩ : k % 4 = 1 ∧ since = 0 ∧
        (runTo alwaysSeven candidate roundAndRound k).node.period = 0 := by
      simpa using (candidate_onItsWay hk).leader hl
    refine ⟨k, le_refl k, ?_, ?_, ⟨[], rfl⟩, [7], rfl⟩
    · rw [roundAndRound_eq hk, if_pos hmod]
    · rw [hperiod]
      exact Nat.zero_le _
  validated k b hk hl := by
    obtain ⟨hmod, hb⟩ : k % 4 = 2 ∧ b = [7] := by
      rcases hl with hl | hl
      · simpa using (candidate_onItsWay hk).leader hl
      · simpa using (candidate_onItsWay hk).leader hl
    refine ⟨k, le_refl k, ?_⟩
    rw [roundAndRound_eq hk, if_neg (by omega), if_pos hmod, hb]
  delivered k b hk hl := by
    obtain ⟨hmod, -⟩ : k % 4 = 3 ∧ b = [7] := by
      simpa using (candidate_onItsWay hk).leader hl
    refine ⟨k, sevenDelivered, le_refl k, ?_, by decide⟩
    rw [roundAndRound_eq hk, if_neg (by omega), if_neg (by omega), if_pos hmod]
  confirmed k b hk hl := by
    obtain ⟨hmod, hb⟩ : k % 4 = 0 ∧ b = [7] := by
      simpa using (candidate_onItsWay hk).leader hl
    refine ⟨k, le_refl k, ?_⟩
    rw [roundAndRound_eq hk, if_neg (by omega), if_neg (by omega), if_neg (by omega), hb]
  reconfigured k hk hl := by
    simpa using (candidate_onItsWay hk).leader hl

/-- When the leader has gone round once, it confirms another block. -/
theorem leader_never_stuck_seven : ∃ j,
    (books (runTo alwaysSeven candidate roundAndRound 5).node.trace).applied.length
      < (books (runTo alwaysSeven candidate roundAndRound j).node.trace).applied.length := by
  have hnew : Sys.IsNew candidate := ⟨_, _, [peerOf 1, peerOf 2], 0, [], rfl⟩
  obtain ⟨b, j₁, j₂, j₃, hj₁, hj₂, -, -, -, -, -, -, hlt⟩ :=
    leader_never_stuck (k := 5) hnew candidate_reign (by decide)
  have hgrown : appliedBy alwaysSeven candidate roundAndRound 5 ≤ _ :=
    appliedBy_mono hnew (hj₁.trans hj₂)
  exact ⟨j₃, hgrown.trans_lt hlt⟩

end

end Node

end SawtoothRaft
