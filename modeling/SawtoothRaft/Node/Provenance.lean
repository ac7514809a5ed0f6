import Mathlib.Algebra.Order.BigOperators.Group.Finset
import SawtoothRaft.Node.Discipline
import SawtoothRaft.Node.Membership

/-!
# Where the committed blocks come from

A validator is asked by `commit_block` to commit what Raft has delivered, and Raft
delivers what some node has proposed. So what a node may propose is what all of
them can be asked to commit: a block that the proposer's own validator has
finalised, and then reported as valid (`Approved`); and no block is proposed more
often than it was finalised. That holds in any run, also of a node that proposes
when it is not the leader any more (`Stage.sourced`, an induction on the stages
that asks nothing of the `Terms`).

`Group` has any number of nodes, which take their steps in any order. A node that
is started again after a crash is another one of the group. Of Raft it is assumed
that it makes up no blocks and multiplies none.
-/

namespace SawtoothRaft

open Lib

namespace Node

/-! ## What is proposed -/

/-- `finalize_block` has returned `b`, and now it has been reported as valid. -/
def Approved (env : Env) (b : BlockId) (u : List Obs) : Prop :=
  ∃ v w, u = v ++ .finalizeBlock :: w ++ [.blockValid b] ∧
    env.finalizeBlock (v ++ [.finalizeBlock]) = .ok b

/-- The block that the leader has built and not proposed yet. -/
def unproposed : Option LeaderState → List BlockId
  | some (.publishing b) | some (.validating b) => [b]
  | _ => []

/-- Every proposal is a block of the proposer's validator, and another one each
time. -/
structure Sourced (env : Env) (t : List Obs) (l : Option LeaderState) : Prop where
  once : (proposals t ++ unproposed l).Sublist (finalizedBlocks env t)
  approved : ∀ u b, u ++ [.propose b] <+: t → Approved env b u

section
variable {env : Env} {A : Terms} {t : List Obs} {o : Obs} {l : Option LeaderState} {b : BlockId}

theorem exists_of_mem_finalizedBlocks (h : b ∈ finalizedBlocks env t) :
    ∃ v w, t = v ++ .finalizeBlock :: w ∧ env.finalizeBlock (v ++ [.finalizeBlock]) = .ok b := by
  obtain ⟨t', ht', hb⟩ := List.mem_filterMap.mp h
  obtain ⟨w, rfl⟩ := (List.mem_inits _ _).mp ht'
  unfold finalizedAt at hb
  split at hb
  next hlast =>
    obtain ⟨v, rfl⟩ := List.getLast?_eq_some_iff.mp hlast
    refine ⟨v, w, by rw [List.append_assoc]; rfl, ?_⟩
    cases hanswer : env.finalizeBlock (v ++ [.finalizeBlock]) with
    | ok b' =>
      rw [hanswer] at hb
      exact congrArg Except.ok (Option.some.inj hb)
    | error e =>
      rw [hanswer] at hb
      cases hb
  next => cases hb

theorem mem_proposals (h : b ∈ proposals t) : ∃ u, u ++ [.propose b] <+: t := by
  obtain ⟨o, ho, hb⟩ := List.mem_filterMap.mp h
  obtain ⟨u, w, rfl⟩ := List.append_of_mem ho
  cases o with
  | propose b' =>
    obtain rfl := Option.some.inj hb
    exact ⟨u, w, by simp⟩
  | _ => cases hb

/-- An observation that is no proposal leaves the proposals as approved as they
were. -/
theorem Sourced.approved_snoc (h : Sourced env t l) (ho : ∀ b, o ≠ .propose b) (u : List Obs)
    (b : BlockId) (hu : u ++ [.propose b] <+: t ++ [o]) : Approved env b u := by
  rcases List.prefix_concat_iff.mp hu with heq | hu
  · obtain ⟨-, heq⟩ := List.append_inj' heq rfl
    injection heq with heq
    exact absurd heq.symm (ho b)
  · exact h.approved u b hu

theorem Sourced.neutral (h : Sourced env t l) (ho : Neutral o) : Sourced env (t ++ [o]) l := by
  obtain ⟨hp, hf⟩ := lists_snoc ho.1 ho.2.2 env t
  refine ⟨?_, h.approved_snoc ho.1⟩
  rw [hp, hf]
  exact h.once

/-- The leader forgets the block it has built, if it has. -/
theorem Sourced.forget (h : Sourced env t l) {l' : Option LeaderState} (hl : unproposed l' = []) :
    Sourced env t l' := by
  refine ⟨?_, h.approved⟩
  rw [hl, List.append_nil]
  exact (List.sublist_append_left ..).trans h.once

/-- `finalize_block` adds to the blocks that there are to be proposed. -/
theorem Sourced.finalized {since : Nat} (h : Sourced env t (some (.building since))) :
    Sourced env (t ++ [.finalizeBlock])
      (some (publishedAs since (env.finalizeBlock (t ++ [.finalizeBlock])))) := by
  have hp : proposals (t ++ [.finalizeBlock]) = proposals t := by
    rw [proposals_snoc]
    exact List.append_nil _
  have hf : finalizedBlocks env (t ++ [.finalizeBlock])
      = finalizedBlocks env t ++ (env.finalizeBlock (t ++ [.finalizeBlock])).toOption.toList := by
    rw [finalizedBlocks_snoc, finalizedAt, List.getLast?_concat, if_pos rfl]
  have honce : (proposals t).Sublist (finalizedBlocks env t) :=
    (List.sublist_append_left ..).trans h.once
  refine ⟨?_, h.approved_snoc (by simp)⟩
  rw [hp, hf]
  cases env.finalizeBlock (t ++ [.finalizeBlock]) with
  | ok b => exact honce.append (List.Sublist.refl _)
  | error e => exact honce.append (List.Sublist.refl _)

/-- The proposal takes the block that was there, and it has been approved. -/
theorem Sourced.proposed (h : Sourced env (t ++ [.blockValid b]) l) (hl : unproposed l = [b]) :
    Sourced env (t ++ [.blockValid b] ++ [.propose b]) (some (.proposing b)) := by
  have honce : (proposals (t ++ [.blockValid b]) ++ [b]).Sublist
      (finalizedBlocks env (t ++ [.blockValid b])) := hl ▸ h.once
  constructor
  · have hp : proposals (t ++ [.blockValid b] ++ [.propose b])
        = proposals (t ++ [.blockValid b]) ++ [b] := proposals_snoc _ _
    rw [hp, finalizedBlocks_snoc]
    exact (List.append_nil _).symm ▸ honce.trans (List.sublist_append_left ..)
  · intro u b' hu
    rcases List.prefix_concat_iff.mp hu with heq | hu
    · obtain ⟨rfl, hlast⟩ := List.append_inj' heq rfl
      cases hlast
      -- the block comes from the builder, and the report has come after it
      have hmem : b ∈ finalizedBlocks env t := by
        have hf := (lists_snoc (o := .blockValid b) (by simp) (by simp) env t).2
        rw [← hf]
        exact honce.subset (List.mem_append_right _ (List.mem_singleton_self b))
      obtain ⟨v, w, rfl, hanswer⟩ := exists_of_mem_finalizedBlocks hmem
      exact ⟨v, w, rfl, hanswer⟩
    · exact h.approved u b' hu

/-- **Stages**: by induction on how the stage was reached. -/
theorem Stage.sourced (h : Stage env A t l) : Sourced env t l := by
  induction h with
  | opened ops =>
    have hfile : ∀ o ∈ ops.map Obs.file, proposalOf o = none := by
      intro o ho
      obtain ⟨op, -, rfl⟩ := List.mem_map.mp ho
      rfl
    constructor
    · have hnone : proposals (ops.map Obs.file) = [] := List.filterMap_eq_nil_iff.mpr hfile
      rw [hnone]
      exact List.nil_sublist _
    · intro u b hu
      have hb := hfile (.propose b) (hu.subset (by simp))
      cases hb
  | quiet o _ ho ih => exact ih.neutral ho.neutral
  | ready round _ _ _ ih => exact ih.neutral ⟨by simp, by simp, by simp⟩
  | elected _ q since ih | resumed _ _ q since ih | reconfigured _ _ q since ih =>
    exact (ih.forget rfl).neutral ⟨by simp, by simp, by simp⟩
  | tookOver _ b ih => exact ih.forget rfl
  | summarized _ ih => exact ih.neutral ⟨by simp, by simp, by simp⟩
  | finalized _ _ ih => exact ih.finalized
  | received _ ih => exact ⟨ih.once, ih.approved⟩
  | proposed _ hl _ ih =>
    refine ih.proposed ?_
    rcases hl with rfl | rfl
    · rfl
    · rfl
  | committed _ ih => exact ih.forget rfl
  | @proposedChange t b _ _ _ change ih =>
    refine ⟨?_, ih.approved_snoc (by simp)⟩
    obtain ⟨hp, hf⟩ := lists_snoc (o := .proposeConfChange change) (by simp) (by simp) env t
    rw [hp, hf]
    exact ih.once
  | cancelled _ _ ih => exact (ih.forget rfl).neutral ⟨by simp, by simp, by simp⟩
  | deposed _ _ _ ih => exact ih.forget rfl

end

section
variable {S : Type} [StorageExt S] [Protobuf] [Formats]

/-- **Run**: at the end of every run each proposal has its own finalised block behind it. -/
theorem run_sourced {env : Env} {node : Node S} (hnew : Sys.IsNew node) (inputs : List Input) :
    ∃ l, Sourced env ((Sys.start node).run env inputs).node.trace l := by
  have hended : Ended env Terms.any ((Sys.start node).run env inputs).node := by
    have hrun : ((Sys.start node).run env inputs).Sat (Steered env Terms.any fun _ => True) _ :=
      run_steered hnew inputs
    generalize (Sys.start node).run env inputs = s at hrun
    obtain ⟨n, status⟩ := s
    cases status with
    | running => exact Steered.ended hrun
    | shutdown => exact hrun.1
    | panicked p => exact hrun.1
  obtain ⟨l, hstage⟩ := hended
  exact ⟨l, hstage.sourced⟩

end

/-! ## What is committed -/

/-- Any number of new nodes, each with its own surroundings. -/
structure Group (κ S : Type) where
  env : κ → Env
  node : κ → Node S
  isNew : ∀ k, Sys.IsNew (node k)

namespace Group

variable {κ S : Type} [DecidableEq κ] [StorageExt S] [Protobuf] [Formats]

/-- The nodes take the inputs in this order. -/
def run (g : Group κ S) (inputs : List (κ × Input)) : κ → Sys S :=
  inputs.foldl (stepAt fun k => Sys.step (g.env k)) fun k => Sys.start (g.node k)

/-- What has happened to a node. -/
def traceOf (g : Group κ S) (inputs : List (κ × Input)) (k : κ) : List Obs :=
  (g.run inputs k).node.trace

theorem run_eq (g : Group κ S) (inputs : List (κ × Input)) (k : κ) :
    g.run inputs k = (Sys.start (g.node k)).run (g.env k) (inputsOf k inputs) :=
  foldl_stepAt k inputs _

theorem sourced (g : Group κ S) (inputs : List (κ × Input)) (k : κ) :
    ∃ l, Sourced (g.env k) (g.traceOf inputs k) l := by
  rw [traceOf, run_eq]
  exact run_sourced (g.isNew k) _

/-- What a node commits has been delivered to it, each block as often. -/
theorem commits_le_delivered (g : Group κ S) (inputs : List (κ × Input)) (k : κ) :
    (books (g.traceOf inputs k)).commits <+: (books (g.traceOf inputs k)).delivered.map (·.1) := by
  have hreach : (g.run inputs k).Reachable := by
    rw [run_eq]
    exact ⟨_, _, _, g.isNew k, rfl⟩
  exact (reachable_traceOk hreach _ (List.prefix_refl _)).commits_le_delivered

end Group

/-- **Validity.** The nodes take their steps in any order, and Raft delivers no
block to any of them more often than the group has proposed it. Then no validator
is asked to commit a block more often than the group's validators have finalised
it; and each block that one is asked to commit was finalised by the validator of
some node, then reported as valid to that node, and then proposed by it. -/
theorem committed_blocks_built {κ S : Type} [Fintype κ] [DecidableEq κ] [StorageExt S] [Protobuf]
    [Formats] (g : Group κ S) (inputs : List (κ × Input))
    (hraft : ∀ k b, ((books (g.traceOf inputs k)).delivered.map (·.1)).count b
      ≤ ∑ k', (proposals (g.traceOf inputs k')).count b) (k : κ) (b : BlockId) :
    (books (g.traceOf inputs k)).commits.count b
        ≤ ∑ k', (finalizedBlocks (g.env k') (g.traceOf inputs k')).count b ∧
      (b ∈ (books (g.traceOf inputs k)).commits → ∃ k' u,
        u ++ [.propose b] <+: g.traceOf inputs k' ∧ Approved (g.env k') b u) := by
  have hproposed : (books (g.traceOf inputs k)).commits.count b
      ≤ ∑ k', (proposals (g.traceOf inputs k')).count b :=
    ((g.commits_le_delivered inputs k).sublist.count_le b).trans (hraft k b)
  constructor
  · refine hproposed.trans (Finset.sum_le_sum fun k' _ => ?_)
    obtain ⟨l, hsourced⟩ := g.sourced inputs k'
    exact ((List.sublist_append_left ..).trans hsourced.once).count_le b
  · intro hb
    have hpos : 0 < ∑ k', (proposals (g.traceOf inputs k')).count b :=
      (List.count_pos_iff.mpr hb).trans_le hproposed
    obtain ⟨k', -, hk'⟩ := Finset.sum_pos_iff.mp hpos
    obtain ⟨u, hu⟩ := mem_proposals (List.count_pos_iff.mp hk')
    obtain ⟨l, hsourced⟩ := g.sourced inputs k'
    exact ⟨k', u, hu, hsourced.approved u b hu⟩

section

open scoped Proto3 PlainFormats

/-- Peer 1, whose validator builds block 7, and peer 2. -/
def builderAndFollower : Group Bool FsStorage where
  env _ := Env.obliging [7] fun _ => twoPeersSetting
  node second :=
    { peerId := bif second then peerOf 2 else peerOf 1
      store := ⟨emptyDir⟩
      leaderState := none
      followerState := some .idle
      blockQueue := BlockQueue.new
      raftIdToPeerId := mapOf [peerOf 1, peerOf 2]
      period := 0
      trace := [] }
  isNew _ := ⟨_, _, [peerOf 1, peerOf 2], 0, [], rfl⟩

/-- What a node is shown when block 7 is delivered to it. -/
def deliversSeven (isLeader : Bool) : Input :=
  .processReady (some { isLeader, ready :=
    { committedEntries := some [{ term := 2, index := 3, data := [7] }] } })

/-- Peer 1 proposes block 7, and both commit it. -/
def sevenProposed : List (Bool × Input) :=
  [(false, .processReady (some { isLeader := true })), (false, .tick),
    (false, .blockNew { blockId := [7] }), (true, .blockNew { blockId := [7] }),
    (true, .blockValid [7]), (false, .blockValid [7]), (true, deliversSeven false),
    (false, deliversSeven true)]

/-- The follower has been asked to commit what the validator of peer 1 has built. -/
theorem committed_blocks_built_follower :
    (books (builderAndFollower.traceOf sevenProposed true)).commits = [[7]] ∧
    ∃ k u, u ++ [.propose [7]] <+: builderAndFollower.traceOf sevenProposed k ∧
      Approved (builderAndFollower.env k) [7] u := by
  have hcommits : (books (builderAndFollower.traceOf sevenProposed true)).commits = [[7]] := by
    decide +kernel
  have hdelivered : ∀ k, (books (builderAndFollower.traceOf sevenProposed k)).delivered.map (·.1)
      = [[7]] := by
    decide +kernel
  have hproposed : proposals (builderAndFollower.traceOf sevenProposed false) = [[7]] := by
    decide +kernel
  refine ⟨hcommits, (committed_blocks_built builderAndFollower sevenProposed (fun k b => ?_) true
    [7]).2 (by rw [hcommits]; simp)⟩
  rw [hdelivered, Fintype.sum_bool, hproposed]
  exact Nat.le_add_left ..

end

end Node

end SawtoothRaft
