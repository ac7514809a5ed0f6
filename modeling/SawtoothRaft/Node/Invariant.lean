import SawtoothRaft.Node.Books

/-!
# The invariant of the node

`Good n`: exactly one of the two role states is there, and if it says that a
block is being committed, then that block is the valid front of the queue and
the books are balanced accordingly. Every handler keeps it, whatever the
validator and Raft do (`handle_good`), so it holds in every reachable state
(`reachable_good`). Two results are read off it:

* `role_and_queue`: what `Good` says about a state, and that `on_block_commit`
  can therefore rely on the front of the queue.
* `commit_order`: the calls to `commit_block` follow the log, and so agree
  between any two nodes fed from one log.
-/

namespace SawtoothRaft

open Lib

namespace Node

variable {S : Type}

/-- The block that the roles say is being committed. -/
def committingOf : Option LeaderState → Option FollowerState → Option BlockId
  | some (.committing b), _ => some b
  | _, some (.committing b) => some b
  | _, _ => none

/-- Exactly one role is taken. -/
def OneRole (l : Option LeaderState) (f : Option FollowerState) : Prop := l = none ↔ f ≠ none

/-- One role is taken, and the books are balanced for the block that the role says is
being committed. -/
def Good (n : Node S) : Prop := ∃ l f, OneRole l f ∧ At l f (Kept (committingOf l f)) n

theorem OneRole.follower_none {st : LeaderState} {f : Option FollowerState}
    (h : OneRole (some st) f) : f = none := by
  by_contra hf
  exact absurd (h.mpr hf) (by simp)

theorem OneRole.leader_none {l : Option LeaderState} {st : FollowerState}
    (h : OneRole l (some st)) : l = none :=
  h.mpr (by simp)

theorem committingOf_eq_some {l : Option LeaderState} {f : Option FollowerState} {b : BlockId}
    (hr : OneRole l f) :
    committingOf l f = some b ↔ l = some (.committing b) ∨ f = some (.committing b) := by
  constructor
  · intro h
    unfold committingOf at h
    split at h
    · exact Or.inl (by rw [Option.some.inj h])
    · exact Or.inr (by rw [Option.some.inj h])
    · cases h
  · intro h
    rcases h with rfl | rfl
    · rfl
    · rw [hr.leader_none]
      rfl

/-! ## Role changes hand the block over -/

theorem Promoted.handover {l l' : Option LeaderState} {f f' : Option FollowerState}
    (h : Promoted l f l' f') (hr : OneRole l f) :
    OneRole l' f' ∧ committingOf l' f' = committingOf l f := by
  cases h with
  | already st f => exact ⟨hr, rfl⟩
  | committing b => exact ⟨by simp [OneRole], rfl⟩
  | building f hf since =>
    refine ⟨by simp [OneRole], ?_⟩
    cases f with
    | none => rfl
    | some f =>
      cases f with
      | idle => rfl
      | committing b => exact absurd rfl (hf b)

theorem Demoted.handover {l : Option LeaderState} {f f' : Option FollowerState}
    (h : Demoted l f f') (hr : OneRole l f) :
    OneRole none f' ∧ committingOf none f' = committingOf l f := by
  cases h with
  | already => exact ⟨hr, rfl⟩
  | committing b => exact ⟨by simp [OneRole], rfl⟩
  | idle st hst =>
    refine ⟨by simp [OneRole], ?_⟩
    cases st with
    | committing b => exact absurd rfl (hst b)
    | _ => rfl
  | keeps st hst f => exact absurd hr.leader_none (by simp)

theorem RoleChange.handover {round : Round} {l l' : Option LeaderState}
    {f f' : Option FollowerState} (h : RoleChange round l f l' f') (hr : OneRole l f) :
    OneRole l' f' ∧ committingOf l' f' = committingOf l f := by
  unfold RoleChange at h
  split at h
  next => exact h.handover hr
  next =>
    obtain ⟨rfl, hd⟩ := h
    exact hd.handover hr

theorem Progress.handover {l l' : Option LeaderState} {f : Option FollowerState}
    (h : Progress l l') (hr : OneRole l f) :
    OneRole l' f ∧ committingOf l' f = committingOf l f := by
  cases h with
  | refl => exact ⟨hr, rfl⟩
  | published since b => rw [hr.follower_none]; exact ⟨by simp [OneRole], rfl⟩
  | received b => rw [hr.follower_none]; exact ⟨by simp [OneRole], rfl⟩
  | proposed b l hl =>
    rcases hl with rfl | rfl
    · rw [hr.follower_none]; exact ⟨by simp [OneRole], rfl⟩
    · rw [hr.follower_none]; exact ⟨by simp [OneRole], rfl⟩

theorem Resumes.handover {l l' : Option LeaderState} {f : Option FollowerState}
    (h : Resumes l l') (hr : OneRole l f) :
    OneRole l' f ∧ committingOf l' f = committingOf l f := by
  rcases h with rfl | ⟨rfl, since, rfl⟩
  · exact ⟨hr, rfl⟩
  · rw [hr.follower_none]; exact ⟨by simp [OneRole], rfl⟩

/-- Whoever is about to commit a block is not committing one already. -/
theorem committingOf_of_willCommit {l : Option LeaderState} {f : Option FollowerState}
    {b : BlockId} (hr : OneRole l f) (h : WillCommit l f b) : committingOf l f = none := by
  rcases h with rfl | rfl
  · rw [hr.follower_none]; rfl
  · rw [hr.leader_none]; rfl

/-! ## Every handler keeps the invariant -/

theorem isChange_not_isBlock {e : Entry} (h : IsChange e) : ¬ IsBlock e :=
  fun hb => absurd (h.2.1.symm.trans hb.2) (by simp)

theorem Kept.peersChanged {c : Option BlockId} {n n' : Node S} {change : ConfChange}
    (h : Kept c n) (hp : PeersChanged n change n') : Kept c n' := by
  cases hp with
  | add => exact ⟨h.balanced, h.front, h.valid, h.traceOk⟩
  | remove => exact ⟨h.balanced, h.front, h.valid, h.traceOk⟩
  | learner => exact h

theorem ignores_initializeBlock (q : List (BlockId × Nat)) : Books.Ignores (.initializeBlock q) :=
  fun bk => ⟨bk.current, rfl⟩

section
variable [StorageExt S] [Protobuf] {env : Env}

theorem kept_takes (c : Option BlockId) :
    Takes (S := S) (fun _ => Kept c) (fun _ => Kept c) (Stopped .shutdown)
      (fun p => Stopped (.panicked p)) where
  tame _ := kept_tame c
  fails _ := kept_fails c
  skip _ _ _ hb _ h := h.skip hb
  block _ _ _ hb h := h.block hb
  change _ _ _ _ _ hc _ hp h := (h.skip (isChange_not_isBlock hc)).peersChanged hp
  shutdown _ _ _ _ hc _ _ h := ⟨by simp, (h.skip (isChange_not_isBlock hc)).traceOk⟩
  unknown _ _ _ _ hc _ _ h := ⟨by simp, (h.skip (isChange_not_isBlock hc)).traceOk⟩
  malformed _ _ _ p hc hp h := kept_fails c p _ hp (h.skip (isChange_not_isBlock hc))

theorem processReady_good (round : Option Round) :
    Triple (Good : Node S → Prop) (processReady env round) (Sys.Leaves Good Stopped)
      (fun p => Stopped (.panicked p)) := by
  cases round with
  | none => exact Triple.pure fun _ h => h
  | some round =>
    refine Triple.intro fun l => Triple.intro fun f n ⟨hr, hn⟩ => ?_
    refine (processReady_at (G := Kept (committingOf l f)) (M := Good) (P := Good)
      (K := Stopped .shutdown) ?_ (kept_tame _) (kept_fails _) ?_ ?_ ?_).conseq
      (fun _ h => h) ?_ (fun _ _ h => h) n hn
    · exact fun n h => h.ignore fun bk => ⟨none, rfl⟩
    · exact fun _ _ _ n h => h.ignore (ignores_initializeBlock _)
    · intro l' f' hrole
      obtain ⟨hr', hc⟩ := hrole.handover hr
      -- the block that is being committed is handed over with the role
      rw [← hc]
      refine (deliver_resumes_at (kept_takes _) (fun _ n h => h.ignore (ignores_initializeBlock _))
        _).conseq (fun _ h => h) (fun status n h => ?_) (fun _ _ h => h)
      cases status with
      | Shutdown => exact h
      | Continue =>
        obtain ⟨l₂, hres, h⟩ := h
        obtain ⟨hr₂, hc₂⟩ := hres.handover hr'
        exact ⟨l₂, f', hr₂, hc₂ ▸ h⟩
    · refine Triple.intro fun l => Triple.intro fun f n ⟨hr, hn⟩ => ?_
      refine (commitNext_at (H := fun b => Kept (some b)) hr (kept_tame _)
        (fun b => kept_fails _) ?_).conseq (fun _ h => h) ?_ (fun _ _ h => h) n hn
      · intro b n hb hw h
        rw [committingOf_of_willCommit hr hw] at h
        exact h.commit hb
      · have hadv : ∀ {l f c} {n : Node S}, At l f (Kept c) n → At l f (Kept c) (n.add Obs.advance) :=
          fun h => ⟨h.leader, h.follower, h.rest.ignore fun bk => ⟨bk.current, rfl⟩⟩
        intro _ n h'
        rcases h' with ⟨h, -⟩ | ⟨b, l', f', hcommits, h⟩
        · exact ⟨l, f, hr, hadv h⟩
        · cases hcommits with
          | leader => exact ⟨_, _, by simp [OneRole], hadv h⟩
          | follower => exact ⟨_, _, by simp [OneRole], hadv h⟩
    · intro status n h
      cases status with
      | Continue => exact h
      | Shutdown => exact h

variable [Formats]

omit [Protobuf] in
theorem onBlockCommit_good (b : BlockId) :
    Triple (Good : Node S → Prop) (onBlockCommit env b) (fun _ => Good)
      (fun p => Stopped (.panicked p)) := by
  refine Triple.intro fun l => Triple.intro fun f n ⟨hr, hn⟩ => ?_
  refine (onBlockCommit_at
    (X := fun n => Kept (committingOf l f) n ∧ (books n.trace).current = some b)
    (Y := Kept none) (Z := Kept none) hr (kept_tame _) (kept_fails _) (kept_fails _)
    ?_ ?_ ?_ ?_).conseq (fun _ h => h) ?_ (fun _ _ h => h) n hn
  · intro n h
    exact ⟨h.ignore fun bk => ⟨some b, rfl⟩, by rw [add_trace, books_snoc]; rfl⟩
  · -- the front of the queue is the block of the notification
    intro n i q hcommitting hq h'
    obtain ⟨h, hcur⟩ := h'
    have hc : committingOf l f = some b := by
      rcases hcommitting with rfl | rfl
      · rfl
      · rw [hr.leader_none]; rfl
    rw [hc] at h
    exact h.confirm hcur hq
  · intro n hcommitting hq h'
    obtain ⟨h, -⟩ := h'
    -- the queue cannot be empty while its front is being committed
    obtain ⟨i, rest, hqueue⟩ : ∃ i rest, n.blockQueue.commitQueue = (b, i) :: rest := by
      obtain ⟨popped, hbal⟩ := h.balanced
      refine hbal.front b ?_
      rcases hcommitting with rfl | rfl
      · rfl
      · rw [hr.leader_none]; rfl
    obtain ⟨q', hq', -⟩ := BlockQueue.blockCommitted_cons hqueue
    exact absurd (hq.symm.trans hq') (by simp)
  · exact fun n _ h => h.ignore (ignores_initializeBlock _)
  · intro _ n h'
    rcases h' with ⟨hl, h⟩ | ⟨hl, since, h⟩ | ⟨hf, h⟩ | ⟨hl, hf, h⟩
    · subst hl
      obtain rfl := hr.follower_none
      exact ⟨_, _, by simp [OneRole], h⟩
    · subst hl
      obtain rfl := hr.follower_none
      exact ⟨_, _, by simp [OneRole], h⟩
    · subst hf
      obtain rfl := hr.leader_none
      exact ⟨_, _, by simp [OneRole], h⟩
    · exact ⟨l, f, hr, h.leader, h.follower, h.rest.1⟩

/-- **Step**: every input is handled within the invariant. -/
theorem handle_good (i : Input) :
    Triple (Good : Node S → Prop) (handle env i) (Sys.Leaves Good Stopped)
      (fun p => Stopped (.panicked p)) := by
  -- the leader's part may go on, the block being committed stays
  have hprogress : ∀ {l l' f n}, OneRole l f → Progress l l' →
      At l' f (Kept (committingOf l f)) n → Good (S := S) n := by
    intro l l' f n hr hp h
    obtain ⟨hr', hc⟩ := hp.handover hr
    exact ⟨l', f, hr', hc ▸ h⟩
  have hdone : ∀ {m : NodeM S Unit}, Triple Good m (fun _ => Good) (fun p => Stopped (.panicked p)) →
      Triple Good (do m; pure .Continue) (Sys.Leaves Good Stopped)
        (fun p => Stopped (.panicked p)) :=
    fun h => Triple.bind h fun _ => Triple.pure fun _ h => h
  cases i with
  | blockNew block =>
    refine hdone (Triple.intro fun l => Triple.intro fun f n ⟨hr, hn⟩ => ?_)
    refine (onBlockNew_at (kept_tame _) (kept_fails _) fun n h => h.blockNew block).conseq
      (fun _ h => h) ?_ (fun _ _ h => h) n hn
    intro _ n h'
    obtain ⟨l', hp, h⟩ := h'
    exact hprogress hr hp h
  | blockValid b =>
    refine hdone (Triple.intro fun l => Triple.intro fun f n ⟨hr, hn⟩ => ?_)
    refine (onBlockValid_at (kept_tame _) (kept_fails _) fun n h => h.blockValid b).conseq
      (fun _ h => h) ?_ (fun _ _ h => h) n hn
    intro _ n h'
    obtain ⟨l', hp, h⟩ := h'
    exact hprogress hr hp h
  | blockCommit b => exact hdone (onBlockCommit_good b)
  | peerMessage message =>
    refine hdone (Triple.intro fun l => Triple.intro fun f n ⟨hr, hn⟩ => ?_)
    exact (onPeerMessage_at (kept_tame _) (kept_fails _)
      fun n h => h.ignore fun bk => ⟨none, rfl⟩).conseq (fun _ h => h)
      (fun _ n h => ⟨l, f, hr, h⟩) (fun _ _ h => h) n hn
  | tick =>
    refine hdone (Triple.intro fun l => Triple.intro fun f n ⟨hr, hn⟩ => ?_)
    refine (tick_at (kept_tame _) (kept_fails _) fun n h => h.ignore fun bk => ⟨none, rfl⟩).conseq
      (fun _ h => h) ?_ (fun _ _ h => h) n hn
    intro _ n h'
    obtain ⟨l', hp, h⟩ := h'
    exact hprogress hr hp h
  | processReady round => exact processReady_good round

end

/-! ## Runs -/

theorem new_good {peerId : PeerId} {store : S} {peers : List PeerId} {period : Nat}
    {ops : List FileOp} {n : Node S}
    (h : Node.new peerId store peers period (ops.map Obs.file) = .ok n) : Good n := by
  obtain ⟨_, rfl⟩ := new_eq h
  have hbooks : books (ops.map Obs.file) = {} := books_files [] ops
  have hbal : Balanced [] [] none (books (ops.map Obs.file)) := by
    rw [hbooks]
    exact ⟨rfl, rfl, rfl, rfl, by simp, by simp⟩
  refine ⟨none, some .idle, by simp [OneRole], rfl, rfl, ⟨[], hbal⟩, by simp [committingOf], ?_, ?_⟩
  · intro b hb
    simp [BlockQueue.isValid, BlockQueue.new] at hb
  · have hnil : TraceOk [] := by
      intro t' ht'
      rw [List.prefix_nil.mp ht']
      exact ⟨[], [], none, rfl, rfl, rfl, rfl, by simp, by simp [books]⟩
    exact traceOk_files hnil ops

section
variable [StorageExt S] [Protobuf] [Formats]

/-- **Run**: the invariant holds in every reachable state, and the books are
balanced at every point of the way, also of a node that has stopped. -/
theorem reachable_good {s : Sys S} (h : s.Reachable) : s.Sat Good Stopped := by
  obtain ⟨env, inputs, node, ⟨_, _, _, _, _, hnew⟩, rfl⟩ := h
  have hstart : (Sys.start node).Sat Good Stopped := new_good hnew
  exact Sys.sat_run handle_good hstart inputs

theorem reachable_traceOk {s : Sys S} (h : s.Reachable) : TraceOk s.node.trace := by
  have hsat := reachable_good h
  obtain ⟨n, status⟩ := s
  cases status with
  | running =>
    obtain ⟨l, f, -, hn⟩ := hsat
    exact hn.rest.traceOk
  | shutdown => exact hsat.2
  | panicked p => exact hsat.2

end

/-! ## The role states, the queue and `on_block_commit` -/

def IsCommitting (n : Node S) (b : BlockId) : Prop :=
  n.leaderState = some (.committing b) ∨ n.followerState = some (.committing b)

section
variable [StorageExt S] [Formats]

/-- Handling the notification `b` in state `n` leads to `Q`, also if it ends in
a panic, and the panic is not that of an empty queue. -/
def Notified (env : Env) (b : BlockId) (n : Node S) (Q : Node S → Prop) : Prop :=
  Triple (fun n' => n' = n) (onBlockCommit env b) (fun _ => Q)
    (fun p n' => p ≠ .noBlocksInQueue ∧ Q n')

omit [Formats] in
/-- Assertions about the queue and the calls to `set_applied`. -/
theorem tame_applied (P : BlockQueue → List Nat → Prop) :
    Tame (fun n : Node S => P n.blockQueue (books n.trace).applied) where
  leader _ _ h := h
  follower _ _ h := h
  silent n o ho h := by
    obtain ⟨c, hc⟩ := ignores_of_silent ho (books n.trace)
    show P n.blockQueue (books (n.trace ++ [o])).applied
    rw [books_snoc, hc]
    exact h
  stored n o _ h := by
    show P n.blockQueue (books (n.trace ++ o.ops.map Obs.file)).applied
    rw [books_files]
    exact h

theorem notified_of_committing {env : Env} {n : Node S} {b : BlockId} {i : Nat}
    {rest : List (BlockId × Nat)} (hr : OneRole n.leaderState n.followerState)
    (hc : IsCommitting n b) (hq : n.blockQueue.commitQueue = (b, i) :: rest) :
    Notified env b n fun n' => n'.blockQueue.commitQueue = rest ∧
      (books n'.trace).applied = (books n.trace).applied ++ [i] := by
  -- once the index is stored, no later failure takes it back
  have hfails : Fails (fun p n' => p ≠ .noBlocksInQueue ∧ n'.blockQueue.commitQueue = rest ∧
      (books n'.trace).applied = (books n.trace).applied ++ [i]) (fun n' : Node S =>
      n'.blockQueue.commitQueue = rest ∧
        (books n'.trace).applied = (books n.trace).applied ++ [i]) := by
    intro p n' hp h
    refine ⟨?_, h⟩
    intro h
    obtain rfl := h
    exact hp trivial
  refine (onBlockCommit_at (G := fun n' => n' = n) (X := fun n' => n'.blockQueue = n.blockQueue ∧
    (books n'.trace).applied = (books n.trace).applied) hr
    (tame_applied fun q applied => q.commitQueue = rest ∧
      applied = (books n.trace).applied ++ [i]) hfails hfails ?_ ?_ ?_ ?_).conseq ?_ ?_
    (fun _ _ h => h)
  · intro n' h
    obtain rfl := h
    exact ⟨rfl, by rw [add_trace, books_snoc]; rfl⟩
  · intro n' j q _ hq' h
    obtain ⟨hqueue, happlied⟩ := h
    obtain ⟨q', hpop, hrest, -⟩ := BlockQueue.blockCommitted_cons (hqueue ▸ hq :
      n'.blockQueue.commitQueue = (b, i) :: rest)
    obtain ⟨rfl, rfl⟩ : i = j ∧ q' = q := by
      rw [hpop] at hq'
      simpa using hq'
    refine ⟨hrest, ?_⟩
    show (books (n'.trace ++ [.setApplied i] ++ _)).applied = _
    rw [books_files, books_snoc, ← happlied]
    rfl
  · intro n' _ hq' h
    obtain ⟨hqueue, -⟩ := h
    obtain ⟨q', hpop, -⟩ := BlockQueue.blockCommitted_cons (hqueue ▸ hq :
      n'.blockQueue.commitQueue = (b, i) :: rest)
    exact absurd (hq'.symm.trans hpop) (by simp)
  · intro n' _ h
    obtain ⟨hqueue, happlied⟩ := h
    exact ⟨hqueue, by rw [add_trace, books_snoc]; exact happlied⟩
  · intro n' h
    obtain rfl := h
    exact ⟨rfl, rfl, rfl⟩
  · intro _ n' h'
    rcases h' with ⟨-, h⟩ | ⟨-, since, h⟩ | ⟨-, h⟩ | ⟨hl, hf, -⟩
    · exact h.rest
    · exact h.rest
    · exact h.rest
    · exact absurd hc (by simp [IsCommitting, hl, hf])

theorem notified_of_not_committing {env : Env} {n : Node S} {b : BlockId}
    (hr : OneRole n.leaderState n.followerState) (hc : ¬ IsCommitting n b) :
    Notified env b n fun n' => n'.blockQueue.commitQueue = n.blockQueue.commitQueue ∧
      (books n'.trace).applied = (books n.trace).applied := by
  obtain ⟨hl, hf⟩ := not_or.mp hc
  have hnot : ¬ (n.leaderState = some (.committing b) ∨ n.followerState = some (.committing b)) := hc
  -- neither part acts, so what would follow is `False`
  refine (onBlockCommit_at (G := fun n' => n' = n) (Y := fun _ => False) (Z := fun _ => False)
    (X := fun n' => n'.blockQueue = n.blockQueue ∧
      (books n'.trace).applied = (books n.trace).applied) hr
    (tame_applied fun _ _ => False) (fun _ _ _ h => h.elim) (fun _ _ _ h => h.elim)
    ?_ ?_ ?_ ?_).conseq ?_ ?_ (fun _ _ h => h)
  · intro n' h
    obtain rfl := h
    exact ⟨rfl, by rw [add_trace, books_snoc]; rfl⟩
  · exact fun n' i q hcommitting => absurd hcommitting hnot
  · exact fun n' hcommitting => absurd hcommitting hnot
  · exact fun n' hcommitting => absurd hcommitting hl
  · intro n' h
    obtain rfl := h
    exact ⟨rfl, rfl, rfl⟩
  · intro _ n' h'
    rcases h' with ⟨hl', -⟩ | ⟨hl', -, -⟩ | ⟨hf', -⟩ | ⟨-, -, h⟩
    · exact absurd hl' hl
    · exact absurd hl' hl
    · exact absurd hf' hf
    · exact ⟨by rw [h.rest.1], h.rest.2⟩

/-- **Roles and queue.** In every reachable state exactly one role is taken. A
block that is being committed is the valid front of the queue, under the index
at which Raft delivered it; its notification pops it and passes its index to
`set_applied`, once. Any other notification changes neither. -/
theorem role_and_queue [Protobuf] {s : Sys S} (h : s.Reachable) (hs : s.status = .running)
    (env : Env) :
    OneRole s.node.leaderState s.node.followerState ∧
    (∀ b, IsCommitting s.node b → ∃ i rest, s.node.blockQueue.commitQueue = (b, i) :: rest ∧
      (b, i) ∈ (books s.node.trace).delivered ∧ s.node.blockQueue.isValid b = true ∧
      Notified env b s.node fun n' => n'.blockQueue.commitQueue = rest ∧
        (books n'.trace).applied = (books s.node.trace).applied ++ [i]) ∧
    ∀ b, ¬ IsCommitting s.node b → Notified env b s.node fun n' =>
      n'.blockQueue.commitQueue = s.node.blockQueue.commitQueue ∧
        (books n'.trace).applied = (books s.node.trace).applied := by
  have hsat := reachable_good h
  unfold Sys.Sat at hsat
  rw [hs] at hsat
  obtain ⟨l, f, hr, hl, hf, hkept⟩ := hsat
  subst hl hf
  refine ⟨hr, fun b hc => ?_, fun b hc => notified_of_not_committing hr hc⟩
  have hcb : committingOf s.node.leaderState s.node.followerState = some b := by
    rcases hc with hc | hc
    · rw [hc]; rfl
    · rw [hc] at hr ⊢
      rw [hr.leader_none]; rfl
  obtain ⟨⟨i, rest, hq⟩, hv⟩ := BlockQueue.getNextCommittable_eq_some.mp (hkept.front b hcb)
  obtain ⟨popped, hbal⟩ := hkept.balanced
  refine ⟨i, rest, hq, ?_, hv, notified_of_committing hr hc hq⟩
  rw [hbal.delivered, hq]
  simp

end

section

open scoped Proto3 PlainFormats

/-- A peer id that ends in the given byte. -/
def peerOf (k : UInt8) : PeerId := [0, 0, 0, 0, 0, 0, 0, k]

/-- A block is valid before it is delivered, and the node becomes leader while
it is being committed. -/
def electedWhileCommitting : List Input :=
  [.blockValid [7],
    .processReady (some { isLeader := false, ready :=
      { committedEntries := some [{ term := 2, index := 3, data := [7] }] } }),
    .processReady (some { isLeader := true })]

/-- A new node of a network of two, on an empty directory. -/
def twoPeers : Except Panic (Node FsStorage) :=
  Node.new (peerOf 1) ⟨fun _ => none⟩ [peerOf 1, peerOf 2] 0 ([].map Obs.file)

theorem twoPeers_isNew {node : Node FsStorage} (h : twoPeers = .ok node) : Sys.IsNew node :=
  ⟨_, _, _, _, [], h⟩

theorem electedWhileCommitting_reachable : ∃ s : Sys FsStorage, s.Reachable ∧
    s.status = .running ∧ s.node.leaderState = some (.committing [7]) ∧
    s.node.blockQueue.commitQueue = [([7], 3)] ∧ (books s.node.trace).commits = [[7]] := by
  obtain ⟨n, hn⟩ : ∃ n, twoPeers = .ok n := ⟨_, rfl⟩
  refine ⟨(Sys.start n).run (Env.obliging [8] fun _ _ => none) electedWhileCommitting,
    ⟨_, _, n, twoPeers_isNew hn, rfl⟩, ?_⟩
  obtain rfl := Except.ok.inj (hn.symm.trans (rfl : twoPeers = .ok _))
  decide +kernel

/-- The new leader commits block 7, delivered at index 3; the notification pops
it and stores 3. -/
theorem role_and_queue_elected : ∃ s : Sys FsStorage, IsCommitting s.node [7] ∧
    s.node.blockQueue.commitQueue = [([7], 3)] ∧
    Notified (Env.obliging [8] fun _ _ => none) [7] s.node fun n' =>
      n'.blockQueue.commitQueue = [] ∧
        (books n'.trace).applied = (books s.node.trace).applied ++ [3] := by
  obtain ⟨s, hreach, hrun, hl, hq, -⟩ := electedWhileCommitting_reachable
  have hc : IsCommitting s.node [7] := Or.inl hl
  obtain ⟨-, hcommitting, -⟩ := role_and_queue hreach hrun (Env.obliging [8] fun _ _ => none)
  obtain ⟨i, rest, hq', -, -, hnotified⟩ := hcommitting [7] hc
  obtain ⟨rfl, rfl⟩ : 3 = i ∧ [] = rest := by simpa [hq] using hq'
  exact ⟨s, hc, hq, hnotified⟩

end

/-! ## The order of the commits -/

/-- A point of some run of some node over a store of type `S`. -/
def PointOfRun (S : Type) [StorageExt S] [Protobuf] [Formats] (t : List Obs) : Prop :=
  ∃ s : Sys S, s.Reachable ∧ t <+: s.node.trace

/-- **Commit order and agreement.** At every point of every run the blocks
passed to `commit_block` are the first blocks delivered, in the order of the
log, each reported as valid before; and of two nodes that are fed from one log
one has committed a prefix of what the other has. -/
theorem commit_order {T : Type} [StorageExt S] [StorageExt T] [Protobuf] [Formats]
    {t : List Obs} (h : PointOfRun S t) :
    (books t).commits <+: (books t).delivered.map (·.1) ∧
    (∀ t' b, t' ++ [.commitBlock b] <+: t → .blockValid b ∈ t') ∧
    ∀ log t₂, PointOfRun T t₂ → (books t).entries <+: log → (books t₂).entries <+: log →
      (books t).commits <+: (books t₂).commits ∨ (books t₂).commits <+: (books t).commits := by
  obtain ⟨s, hreach, ht⟩ := h
  have hok := reachable_traceOk hreach
  refine ⟨(hok t ht).commits_le_delivered, ?_, ?_⟩
  · intro t' b ht'
    obtain ⟨popped, queue, c, hbal⟩ := hok _ (ht'.trans ht)
    have hmem : b ∈ (books (t' ++ [.commitBlock b])).commits := by
      rw [books_snoc]
      exact List.mem_append_right _ (List.mem_singleton_self b)
    have := valid_mem _ (hbal.valid b hmem)
    rcases List.mem_append.mp this with this | this
    · exact this
    · simp at this
  · intro log t₂ h hlog hlog₂
    obtain ⟨s₂, hreach₂, ht₂⟩ := h
    -- both lists of commits are prefixes of the block ids of the log
    have hids : ∀ {t : List Obs}, Sound (books t) → (books t).entries <+: log →
        (books t).commits <+: (blocksOf log).map (·.1) := by
      intro t hsound hlog
      refine hsound.commits_le_delivered.trans (List.IsPrefix.map _ ?_)
      exact hlog.filterMap blockOf
    exact List.prefix_or_prefix_of_prefix (hids (hok t ht) hlog)
      (hids (reachable_traceOk hreach₂ t₂ ht₂) hlog₂)

section

open scoped Proto3 PlainFormats

/-- One block has been passed on, and it is the first one delivered. -/
theorem commit_order_elected : ∃ t, PointOfRun FsStorage t ∧ (books t).commits = [[7]] ∧
    (books t).commits <+: (books t).delivered.map (·.1) := by
  obtain ⟨s, hreach, -, -, -, hcommits⟩ := electedWhileCommitting_reachable
  have hpoint : PointOfRun FsStorage s.node.trace := ⟨s, hreach, List.prefix_refl _⟩
  exact ⟨s.node.trace, hpoint, hcommits, (commit_order (T := FsStorage) hpoint).1⟩

end

end Node

end SawtoothRaft
