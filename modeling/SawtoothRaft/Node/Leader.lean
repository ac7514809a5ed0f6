import SawtoothRaft.Node.Invariant

/-!
# Where a leader falls out of step with its queue

A leader is meant to work on one block at a time: build it on the chain head,
propose it, commit it when Raft delivers it, start over. The commit queue of
such a leader holds nothing but the block it proposed. A node can become
leader with other blocks in its queue, though, or in the `Ready` that makes it
one, and a leader can be handed blocks that an earlier leader proposed. The
step up looks at the follower state only, and `commit_block` at the block the
leader proposed only, so these blocks are built over, and are not committed.

The first half says under which condition on the rounds of a leader no block
is begun while another one waits, be it in the queue or in the `Ready` in hand
(`noFork_of_inStep`). The second half says exactly which rounds leave a
committable block uncommitted (`attends_iff_served`).
-/

namespace SawtoothRaft

open Lib

namespace Node

variable {S : Type}

/-! ## Blocks and entries -/

theorem blocksOf_nil : blocksOf [] = [] := rfl

theorem blocksOf_cons (e : Entry) (es : List Entry) :
    blocksOf (e :: es) = (blockOf e).toList ++ blocksOf es := by
  unfold blocksOf
  cases he : blockOf e with
  | some p => rw [List.filterMap_cons_some he]; rfl
  | none => rw [List.filterMap_cons_none he]; rfl

theorem blocksOf_block {e : Entry} (h : IsBlock e) (es : List Entry) :
    blocksOf (e :: es) = (e.data, e.index) :: blocksOf es := by
  rw [blocksOf_cons, blockOf, if_pos h]
  rfl

theorem blocksOf_skip {e : Entry} (h : ¬ IsBlock e) (es : List Entry) :
    blocksOf (e :: es) = blocksOf es := by
  rw [blocksOf_cons, blockOf, if_neg h]
  rfl

/-- The blocks that Raft has delivered, whether or not they have been taken up. -/
def blocksShown (t : List Obs) : List (BlockId × Nat) :=
  blocksOf ((roundsShown t).flatMap Round.committed)

theorem blocksShown_snoc (t : List Obs) (o : Obs) :
    blocksShown (t ++ [o])
      = blocksShown t ++ blocksOf ((roundShown o).elim [] Round.committed) := by
  unfold blocksShown
  rw [roundsShown_snoc, List.flatMap_append, blocksOf, List.filterMap_append]
  cases roundShown o with
  | some round => rw [Option.toList_some, List.flatMap_singleton]; rfl
  | none => rfl

/-- Only a `Ready` delivers anything. -/
theorem blocksShown_other {t : List Obs} {o : Obs} (ho : roundShown o = none) :
    blocksShown (t ++ [o]) = blocksShown t := by
  rw [blocksShown_snoc, ho]
  exact List.append_nil _

theorem blocksShown_files (t : List Obs) (ops : List FileOp) :
    blocksShown (t ++ ops.map Obs.file) = blocksShown t := by
  induction ops generalizing t with
  | nil => rw [List.map_nil, List.append_nil]
  | cons op ops ih => rw [List.map_cons, List.append_cons, ih, blocksShown_other rfl]

/-! ## Building on a chain head that lacks a delivered block -/

/-- When `initialize_block` is called with `q` as the commit queue: the queue is empty,
and the notifications that have been answered, and the indices passed to `set_applied`,
are those of all the blocks that Raft has delivered, the `Ready` in hand included. -/
structure OnHead (u : List Obs) (q : List (BlockId × Nat)) : Prop where
  queue : q = []
  handled : (books u).handled = (blocksShown u).map (·.1)
  applied : (books u).applied = (blocksShown u).map (·.2)

/-- Every block was begun on a chain head with all the delivered blocks. -/
def NoFork (t : List Obs) : Prop := ∀ u q, u ++ [.initializeBlock q] <+: t → OnHead u q

theorem NoFork.snoc {t : List Obs} (h : NoFork t) {o : Obs}
    (ho : ∀ q, o = .initializeBlock q → OnHead t q) : NoFork (t ++ [o]) := by
  intro u q hu
  rcases List.prefix_concat_iff.mp hu with hu | hu
  · obtain ⟨rfl, hq⟩ := List.append_inj' hu rfl
    exact ho q (List.singleton_inj.mp hq).symm
  · exact h u q hu

theorem NoFork.files {t : List Obs} (h : NoFork t) (ops : List FileOp) :
    NoFork (t ++ ops.map Obs.file) := by
  induction ops generalizing t with
  | nil => rwa [List.map_nil, List.append_nil]
  | cons op ops ih =>
    rw [List.map_cons, List.append_cons]
    exact ih (h.snoc (by simp))

theorem NoFork.queue_of_mem {t : List Obs} (h : NoFork t) {q : List (BlockId × Nat)}
    (hq : .initializeBlock q ∈ t) : q = [] := by
  obtain ⟨u, v, rfl⟩ := List.append_of_mem hq
  exact (h u q ⟨v, by rw [List.append_assoc]; rfl⟩).queue

/-- The blocks that wait for their confirmation once the round has been shown: those in
the queue, and those that the round delivers. -/
def waiting (n : Node S) (round : Round) : List (BlockId × Nat) :=
  n.blockQueue.commitQueue ++ blocksOf round.committed

/-- The blocks `p` may wait while the leader is in state `l`: none beside the one that
is being committed, none beside the proposed one if that is in front, and none at all
while a configuration change is waited for. -/
def Fits (l : Option LeaderState) (p : List (BlockId × Nat)) : Prop :=
  match l with
  | some (.committing _) => p.length ≤ 1
  | some (.proposing b) => p.head?.map (·.1) = some b → p.length ≤ 1
  | some .changingConfig => p = []
  | _ => True

/-- What may wait in a round of a leader that has the roles `l` and `f` before it: a node
that becomes leader goes on with the block it is committing, or there is none. -/
def RoundFits (l : Option LeaderState) (f : Option FollowerState) (p : List (BlockId × Nat)) :
    Prop :=
  match l, f with
  | none, some (.committing b) => Fits (some (.committing b)) p
  | none, _ => p = []
  | some st, _ => Fits (some st) p

/-- The condition on a round of a leader. -/
def LeaderRound (n : Node S) (round : Round) : Prop :=
  RoundFits n.leaderState n.followerState (waiting n round)

def InStep (s : Sys S) : Input → Prop
  | .processReady (some round) =>
    s.status = .running → round.isLeader = true → LeaderRound s.node round
  | _ => True

instance decidableFits (p : List (BlockId × Nat)) : (l : Option LeaderState) → Decidable (Fits l p)
  | some (.committing _) => inferInstanceAs (Decidable (p.length ≤ 1))
  | some (.proposing b) => inferInstanceAs (Decidable (p.head?.map (·.1) = some b → p.length ≤ 1))
  | some .changingConfig => inferInstanceAs (Decidable (p = []))
  | some (.building _) | some (.publishing _) | some (.validating _) | none => isTrue trivial

instance decidableRoundFits (p : List (BlockId × Nat)) :
    (l : Option LeaderState) → (f : Option FollowerState) → Decidable (RoundFits l f p)
  | none, some (.committing b) => decidableFits p (some (.committing b))
  | none, some .idle | none, none => inferInstanceAs (Decidable (p = []))
  | some st, _ => decidableFits p (some st)

instance decidableInStep (s : Sys S) : (i : Input) → Decidable (InStep s i)
  | .processReady (some round) => inferInstanceAs (Decidable (s.status = .running →
      round.isLeader = true → RoundFits s.node.leaderState s.node.followerState
        (waiting s.node round)))
  | .processReady none | .blockNew _ | .blockValid _ | .blockCommit _ | .peerMessage _ | .tick =>
    isTrue trivial

/-- Between rounds the proposed block does not matter. -/
def InOrder (l : Option LeaderState) (p : List (BlockId × Nat)) : Prop :=
  ∀ b, l = some (.committing b) → p.length ≤ 1

section
variable {l l' : Option LeaderState} {f f' : Option FollowerState} {p : List (BlockId × Nat)}

theorem Fits.inOrder (h : Fits l p) : InOrder l p := by
  intro b hl
  subst hl
  exact h

theorem InOrder.progress (h : InOrder l p) (hp : Progress l l') : InOrder l' p := by
  cases hp with
  | refl => exact h
  | published | received | proposed => exact fun b hb => absurd hb (by simp)

theorem Fits.resumes (h : Fits l p) (hres : Resumes l l') : Fits l' p := by
  rcases hres with rfl | ⟨-, since, rfl⟩
  · exact h
  · trivial

/-- A follower that is not committing is elected with nothing waiting. -/
theorem RoundFits.elected (h : RoundFits none f p) (hf : ∀ b, f ≠ some (.committing b)) :
    p = [] := by
  cases f with
  | none => exact h
  | some st =>
    cases st with
    | idle => exact h
    | committing b => exact absurd rfl (hf b)

/-- The state in which the committed entries are taken up. -/
theorem RoleChange.fits {round : Round} (hrole : RoleChange round l f l' f')
    (h : round.isLeader = true → RoundFits l f p) : Fits l' p := by
  unfold RoleChange at hrole
  split at hrole
  next hleader =>
    have h := h hleader
    cases hrole with
    | already st f => exact h
    | committing b => exact h
    | building f hf since => trivial
  next =>
    obtain ⟨rfl, -⟩ := hrole
    trivial

end

/-- The node with the entries `es` still to be taken up and `c` being committed: so far
nothing has forked, and the blocks `p` wait. -/
structure Facing (c : Option BlockId) (p : List (BlockId × Nat)) (es : List Entry) (n : Node S) :
    Prop where
  kept : Kept c n
  noFork : NoFork n.trace
  shown : blocksShown n.trace = (books n.trace).delivered ++ blocksOf es
  waiting : n.blockQueue.commitQueue ++ blocksOf es = p

section
variable {c : Option BlockId} {p : List (BlockId × Nat)} {es : List Entry} {n : Node S}

theorem Facing.ignore (h : Facing c p es n) {o : Obs} (ho : Books.Ignores o)
    (hready : roundShown o = none) (hinit : ∀ q, o ≠ .initializeBlock q) :
    Facing c p es (n.add o) := by
  refine ⟨h.kept.ignore ho, h.noFork.snoc fun q hq => absurd hq (hinit q), ?_, h.waiting⟩
  obtain ⟨c', hc'⟩ := ho (books n.trace)
  rw [add_trace, blocksShown_other hready, books_snoc, hc']
  exact h.shown

/-- With nothing waiting, a block is begun on the head of the chain. -/
theorem Facing.begin (h : Facing c [] es n) :
    Facing c [] es (n.add (.initializeBlock n.blockQueue.commitQueue)) := by
  obtain ⟨hq, hes⟩ := List.append_eq_nil_iff.mp h.waiting
  obtain ⟨popped, hbal⟩ := h.kept.balanced
  have hshown : blocksShown n.trace = popped := by
    rw [h.shown, hbal.delivered, hq, hes, List.append_nil, List.append_nil]
  refine ⟨h.kept.ignore (ignores_initializeBlock _), h.noFork.snoc fun q hq' => ?_, ?_, h.waiting⟩
  · obtain rfl := Obs.initializeBlock.inj hq'
    exact ⟨hq, by rw [hshown]; exact hbal.handled, by rw [hshown]; exact hbal.applied⟩
  · rw [add_trace, blocksShown_other rfl, books_snoc]
    exact h.shown

/-- A round is shown: its blocks wait as well. -/
theorem Facing.ready (h : Facing c p [] n) (round : Round) :
    Facing c (p ++ blocksOf round.committed) round.committed (n.add (.ready round)) := by
  refine ⟨h.kept.ignore fun bk => ⟨none, rfl⟩, h.noFork.snoc (by simp), ?_, ?_⟩
  · rw [add_trace, blocksShown_snoc, books_snoc, h.shown, blocksOf_nil, List.append_nil]
    rfl
  · rw [← h.waiting, blocksOf_nil, List.append_nil]
    rfl

theorem Facing.skip {e : Entry} (h : Facing c p (e :: es) n) (he : ¬ IsBlock e) :
    Facing c p es (n.add (.entry e)) := by
  refine ⟨h.kept.skip he, h.noFork.snoc (by simp), ?_, ?_⟩
  · rw [add_trace, blocksShown_other rfl, h.shown, blocksOf_skip he, books_snoc,
      Books.delivered_entry, blockOf, if_neg he]
    exact (List.append_nil _ ▸ rfl)
  · rw [← h.waiting, blocksOf_skip he]
    rfl

theorem Facing.block {e : Entry} (h : Facing c p (e :: es) n) (he : IsBlock e) :
    Facing c p es ((n.add (.entry e)).enqueue e) := by
  refine ⟨h.kept.block he, h.noFork.snoc (by simp), ?_, ?_⟩
  · show blocksShown (n.trace ++ [.entry e]) = (books (n.trace ++ [.entry e])).delivered ++ _
    rw [blocksShown_other rfl, h.shown, blocksOf_block he, books_snoc, Books.delivered_entry,
      blockOf, if_pos he, List.append_assoc]
    rfl
  · rw [← h.waiting, blocksOf_block he]
    exact List.append_assoc ..

theorem Facing.peersChanged {change : ConfChange} {n' : Node S} (h : Facing c p es n)
    (hp : PeersChanged n change n') : Facing c p es n' := by
  have hkept := h.kept.peersChanged hp
  cases hp with
  | add => exact ⟨hkept, h.noFork, h.shown, h.waiting⟩
  | remove => exact ⟨hkept, h.noFork, h.shown, h.waiting⟩
  | learner => exact h

/-- The block that is confirmed was the first to wait. -/
theorem Facing.confirm [StorageExt S] {b : BlockId} (h : Facing (some b) p [] n)
    (hcur : (books n.trace).current = some b) {i : Nat} {q : BlockQueue}
    (hq : n.blockQueue.blockCommitted = some (i, q)) :
    Facing none p.tail [] (n.confirmed i q) := by
  have hset : NoFork (n.trace ++ [.setApplied i]) := h.noFork.snoc (by simp)
  refine ⟨h.kept.confirm hcur hq, hset.files _, ?_, ?_⟩
  · show blocksShown (n.trace ++ [.setApplied i] ++ _)
      = (books (n.trace ++ [.setApplied i] ++ _)).delivered ++ _
    rw [blocksShown_files, blocksShown_other rfl, books_files, books_snoc]
    exact h.shown
  · obtain ⟨popped, hbal⟩ := h.kept.balanced
    obtain ⟨j, rest, hqueue⟩ := hbal.front b rfl
    obtain ⟨q', hq', hrest, -⟩ := BlockQueue.blockCommitted_cons hqueue
    obtain rfl : q = q' := (Prod.mk.inj (Option.some.inj (hq.symm.trans hq'))).2
    show q.commitQueue ++ _ = _
    rw [← h.waiting, hrest, hqueue]
    rfl

end

/-- The roles and the blocks that wait, between rounds. -/
def Orderly (n : Node S) : Prop :=
  ∃ l f p, OneRole l f ∧ InOrder l p ∧ At l f (Facing (committingOf l f) p []) n

/-- Whatever the node stops of, `NoFork` is what is left. -/
def ForkFree (_ : Status) (n : Node S) : Prop := NoFork n.trace

section
variable [StorageExt S]

theorem facing_tame (c : Option BlockId) (p : List (BlockId × Nat)) (es : List Entry) :
    Tame (Facing c p es : Node S → Prop) where
  leader n st h := ⟨(kept_tame c).leader n st h.kept, h.noFork, h.shown, h.waiting⟩
  follower n st h := ⟨(kept_tame c).follower n st h.kept, h.noFork, h.shown, h.waiting⟩
  silent n o ho h := by
    refine h.ignore (ignores_of_silent ho) ?_ fun q hq => ?_
    · cases o with
      | ready round => exact ho.elim
      | _ => rfl
    · subst hq
      exact ho
  stored n o ho h := by
    refine ⟨(kept_tame c).stored n o ho h.kept, h.noFork.files _, ?_, h.waiting⟩
    rw [stored_trace, blocksShown_files, books_files]
    exact h.shown

omit [StorageExt S] in
theorem facing_fails (c : Option BlockId) (p : List (BlockId × Nat)) (es : List Entry) :
    Fails (fun p => ForkFree (.panicked p)) (Facing c p es : Node S → Prop) :=
  fun _ _ _ h => h.noFork

variable [Protobuf] {env : Env}

theorem facing_takes (c : Option BlockId) (p : List (BlockId × Nat)) :
    Takes (S := S) (Facing c p) (Facing c p) (ForkFree .shutdown)
      (fun p => ForkFree (.panicked p)) where
  tame := facing_tame c p
  fails := facing_fails c p
  skip _ _ _ hb _ h := h.skip hb
  block _ _ _ hb h := h.block hb
  change _ _ _ _ _ hc _ hp h := (h.skip (isChange_not_isBlock hc)).peersChanged hp
  shutdown _ _ _ _ hc _ _ h := (h.skip (isChange_not_isBlock hc)).noFork
  unknown _ _ _ _ hc _ _ h := (h.skip (isChange_not_isBlock hc)).noFork
  malformed _ _ _ _ hc _ h := (h.skip (isChange_not_isBlock hc)).noFork

/-- Only a leader that waits for a change begins a block in the middle of the entries. -/
theorem deliver_facing {l : Option LeaderState} {f : Option FollowerState} {c : Option BlockId}
    {p : List (BlockId × Nat)} {es : List Entry} (hfits : Fits l p) :
    Triple (At l f (Facing c p es : Node S → Prop)) (deliver env es)
      (Ends (fun n => ∃ l', Resumes l l' ∧ At l' f (Facing c p []) n) (ForkFree .shutdown))
      (fun p => ForkFree (.panicked p)) := by
  by_cases hnil : p = []
  · subst hnil
    exact deliver_resumes_at (facing_takes _ _) (fun _ _ h => h.begin) _
  · have hl : l ≠ some .changingConfig := by
      intro hl
      subst hl
      exact hnil hfits
    refine (deliver_at (facing_takes _ _) (fun _ _ h => h) hl _).conseq (fun _ h => h)
      (fun status n h => ?_) (fun _ _ h => h)
    cases status with
    | Shutdown => exact h
    | Continue => exact ⟨l, Or.inl rfl, h⟩

omit [Protobuf] in
theorem commitNext_noFork {l : Option LeaderState} {f : Option FollowerState}
    {p : List (BlockId × Nat)} (hr : OneRole l f) (hfits : Fits l p) :
    Triple (At l f (Facing (committingOf l f) p [] : Node S → Prop)) (commitNext env)
      (fun _ n => Orderly (n.add .advance)) (fun p => ForkFree (.panicked p)) := by
  refine (commitNext_at (H := fun b n => Facing (some b) p [] n ∧
      (l = some (.proposing b) → p.length ≤ 1)) hr (facing_tame _ p [])
    (fun b _ _ _ h => h.1.noFork) ?_).conseq (fun _ h => h) ?_ (fun _ _ h => h)
  · intro b n hb hw h
    have hkept := h.kept
    rw [committingOf_of_willCommit hr hw] at hkept
    refine ⟨⟨hkept.commit hb, h.noFork.snoc (by simp), ?_, h.waiting⟩, fun hl => ?_⟩
    · rw [add_trace, blocksShown_other rfl, books_snoc]
      exact h.shown
    · -- the leader commits what it proposed, and nothing is behind it
      subst hl
      obtain ⟨⟨i, rest, hq⟩, -⟩ := BlockQueue.getNextCommittable_eq_some.mp hb
      refine hfits ?_
      rw [← h.waiting, hq]
      rfl
  · have hadv : ∀ {l f c} {n : Node S}, At l f (Facing c p []) n →
        At l f (Facing c p []) (n.add Obs.advance) :=
      fun h => ⟨h.leader, h.follower,
        h.rest.ignore (fun bk => ⟨bk.current, rfl⟩) rfl (by simp)⟩
    intro _ n h'
    rcases h' with ⟨h, -⟩ | ⟨b, l', f', hcommits, h⟩
    · exact ⟨l, f, p, hr, hfits.inOrder, hadv h⟩
    · have hat := hadv ⟨h.leader, h.follower, h.rest.1⟩
      cases hcommits with
      | leader => exact ⟨_, _, p, by simp [OneRole], fun _ _ => h.rest.2 rfl, hat⟩
      | follower => exact ⟨_, _, p, by simp [OneRole], fun _ hb => absurd hb (by simp), hat⟩

/-- **Step** of a round. With the roles settled, it goes by what waits. -/
theorem processReady_noFork {round : Round} {n₀ : Node S}
    (hround : round.isLeader = true → LeaderRound n₀ round) :
    Triple (fun n => n = n₀ ∧ Orderly n) (processReady env (some round))
      (Sys.Leaves Orderly ForkFree) (fun p => ForkFree (.panicked p)) := by
  intro n h
  obtain ⟨rfl, l, f, p₀, hr, -, hn⟩ := h
  have hwaiting : waiting n round = p₀ ++ blocksOf round.committed := by
    rw [waiting, ← hn.rest.waiting, blocksOf_nil, List.append_nil]
  unfold LeaderRound at hround
  rw [hn.leader, hn.follower, hwaiting] at hround
  generalize hp : p₀ ++ blocksOf round.committed = p at hround
  refine ((processReady_at (G := Facing (committingOf l f) p round.committed)
    (K := ForkFree .shutdown) (P := Orderly)
    (M := fun n => ∃ l f, OneRole l f ∧ Fits l p ∧ At l f (Facing (committingOf l f) p []) n)
    (fun n (h : Facing (committingOf l f) p₀ [] n) => hp ▸ h.ready round) (facing_tame ..)
    (facing_fails _ _ _) ?_ ?_ ?_).conseq
    (fun _ h => h) (fun status n h => ?_) (fun _ _ h => h)) n hn
  · -- a follower that is not committing becomes leader
    intro hleader hnone hidle n h
    subst hnone
    obtain rfl := (hround hleader).elected hidle
    exact h.begin
  · intro l' f' hrole
    have hfits := hrole.fits hround
    obtain ⟨hr', hc⟩ := hrole.handover hr
    rw [← hc]
    refine (deliver_facing hfits).conseq (fun _ h => h) (fun status n h => ?_) (fun _ _ h => h)
    cases status with
    | Shutdown => exact h
    | Continue =>
      obtain ⟨l₂, hres, h⟩ := h
      obtain ⟨hr₂, hc₂⟩ := hres.handover hr'
      exact ⟨l₂, f', hr₂, hfits.resumes hres, hc₂ ▸ h⟩
  · refine Triple.intro fun l => Triple.intro fun f n h => ?_
    exact commitNext_noFork h.1 h.2.1 n h.2.2
  · cases status with
    | Continue => exact h
    | Shutdown => exact h

variable [Formats]

omit [Protobuf] in
theorem onBlockCommit_noFork (b : BlockId) :
    Triple (Orderly : Node S → Prop) (onBlockCommit env b) (fun _ => Orderly)
      (fun p => ForkFree (.panicked p)) := by
  intro n h
  obtain ⟨l, f, p, hr, hin, hn⟩ := h
  have hcommitting : l = some (.committing b) ∨ f = some (.committing b) →
      committingOf l f = some b := (committingOf_eq_some hr).mpr
  -- a leader that commits a block has no other, so nothing waits afterwards
  have hlast : l = some (.committing b) → p.tail = [] := by
    intro hl
    have hlen := hin b hl
    exact List.length_eq_zero_iff.mp (by rw [List.length_tail]; omega)
  refine (onBlockCommit_at
    (X := fun n => Facing (committingOf l f) p [] n ∧ (books n.trace).current = some b)
    (Y := Facing none p.tail []) (Z := Facing none p.tail []) hr (facing_tame ..)
    (facing_fails _ _ _) (facing_fails _ _ _) ?_ ?_ ?_ ?_).conseq (fun _ h => h) ?_
    (fun _ _ h => h) n hn
  · intro n h
    exact ⟨h.ignore (fun bk => ⟨some b, rfl⟩) rfl (by simp), by rw [add_trace, books_snoc]; rfl⟩
  · intro n i q hc hq h
    have hfacing := h.1
    rw [hcommitting hc] at hfacing
    exact hfacing.confirm h.2 hq
  · exact fun n _ _ h => h.1.noFork
  · intro n hl h
    rw [hlast hl] at h ⊢
    exact h.begin
  · intro _ n h'
    rcases h' with ⟨hl, h⟩ | ⟨hl, since, h⟩ | ⟨hf, h⟩ | ⟨hl, hf, h⟩
    · subst hl
      obtain rfl := hr.follower_none
      exact ⟨_, _, p.tail, by simp [OneRole], by simp [InOrder], h⟩
    · subst hl
      obtain rfl := hr.follower_none
      exact ⟨_, _, p.tail, by simp [OneRole], by simp [InOrder], h⟩
    · subst hf
      obtain rfl := hr.leader_none
      exact ⟨_, _, p.tail, by simp [OneRole], by simp [InOrder], h⟩
    · exact ⟨l, f, p, hr, hin, h.leader, h.follower, h.rest.1⟩

/-- **Step**: a step that meets the condition builds on the chain head only. -/
theorem step_noFork {s : Sys S} {i : Input} (hs : s.Sat Orderly ForkFree) (hc : InStep s i) :
    (s.step env i).Sat Orderly ForkFree := by
  have hdone : ∀ {m : NodeM S Unit},
      Triple Orderly m (fun _ => Orderly) (fun p => ForkFree (.panicked p)) →
      Triple Orderly (do m; pure .Continue) (Sys.Leaves Orderly ForkFree)
        (fun p => ForkFree (.panicked p)) :=
    fun h => Triple.bind h fun _ => Triple.pure fun _ h => h
  have hprogress : ∀ {l l' f p} {n : Node S}, OneRole l f → InOrder l p → Progress l l' →
      At l' f (Facing (committingOf l f) p []) n → Orderly n := by
    intro l l' f p n hr hin hp h
    obtain ⟨hr', hc⟩ := hp.handover hr
    exact ⟨l', f, p, hr', hin.progress hp, hc ▸ h⟩
  cases i with
  | blockNew block =>
    refine Sys.sat_step (hdone fun n h => ?_) (fun _ h => h) hs
    obtain ⟨l, f, p, hr, hin, hn⟩ := h
    refine (onBlockNew_at (facing_tame ..) (facing_fails _ _ _) fun n h => ?_).conseq
      (fun _ h => h) (fun _ n ⟨l', hp, h⟩ => hprogress hr hin hp h) (fun _ _ h => h) n hn
    have hadd := h.ignore (o := .blockNew block) (fun bk => ⟨none, rfl⟩) rfl (by simp)
    exact ⟨h.kept.blockNew block, hadd.noFork, hadd.shown, hadd.waiting⟩
  | blockValid b =>
    refine Sys.sat_step (hdone fun n h => ?_) (fun _ h => h) hs
    obtain ⟨l, f, p, hr, hin, hn⟩ := h
    refine (onBlockValid_at (facing_tame ..) (facing_fails _ _ _) fun n h => ?_).conseq
      (fun _ h => h) (fun _ n ⟨l', hp, h⟩ => hprogress hr hin hp h) (fun _ _ h => h) n hn
    refine ⟨h.kept.blockValid b, h.noFork.snoc (by simp), ?_, h.waiting⟩
    rw [add_trace, blocksShown_other rfl, books_snoc]
    exact h.shown
  | blockCommit b => exact Sys.sat_step (hdone (onBlockCommit_noFork b)) (fun _ h => h) hs
  | peerMessage message =>
    refine Sys.sat_step (hdone fun n h => ?_) (fun _ h => h) hs
    obtain ⟨l, f, p, hr, hin, hn⟩ := h
    exact (onPeerMessage_at (facing_tame ..) (facing_fails _ _ _)
      fun n h => h.ignore (fun bk => ⟨none, rfl⟩) rfl (by simp)).conseq
      (fun _ h => h) (fun _ n h => ⟨l, f, p, hr, hin, h⟩) (fun _ _ h => h) n hn
  | tick =>
    refine Sys.sat_step (hdone fun n h => ?_) (fun _ h => h) hs
    obtain ⟨l, f, p, hr, hin, hn⟩ := h
    exact (tick_at (facing_tame ..) (facing_fails _ _ _)
      fun n h => h.ignore (fun bk => ⟨none, rfl⟩) rfl (by simp)).conseq
      (fun _ h => h) (fun _ n ⟨l', hp, h⟩ => hprogress hr hin hp h) (fun _ _ h => h) n hn
  | processReady round =>
    cases round with
    | none => exact Sys.sat_step (P := Orderly) (Triple.pure fun _ h => h) (fun _ h => h) hs
    | some round =>
      -- the condition speaks of the state in which the round is taken up
      by_cases hrun : s.status = .running
      · exact Sys.sat_step (processReady_noFork (hc hrun)) (fun _ h => ⟨rfl, h⟩) hs
      · obtain ⟨n, status⟩ := s
        cases status with
        | running => exact absurd rfl hrun
        | shutdown => exact hs
        | panicked p => exact hs

omit [Protobuf] [StorageExt S] [Formats] in
theorem new_orderly {node : Node S} (hnew : Sys.IsNew node) : Orderly node := by
  obtain ⟨_, _, _, _, ops, hnew⟩ := hnew
  obtain ⟨l, f, hr, hl, hf, hkept⟩ := new_good hnew
  obtain ⟨_, rfl⟩ := new_eq hnew
  obtain rfl : none = l := hl
  obtain rfl : some .idle = f := hf
  refine ⟨_, _, [], hr, by simp [InOrder], rfl, rfl, hkept, ?_, ?_, rfl⟩
  · exact NoFork.files (t := []) (fun u q hu => absurd hu (by simp)) ops
  · show blocksShown ([] ++ ops.map Obs.file) = (books ([] ++ ops.map Obs.file)).delivered ++ _
    rw [blocksShown_files, books_files]
    rfl

/-- **No fork under the condition**: in a run in which every round of a leader is in
step with the blocks that wait, every block is begun with an empty commit queue and with
all the blocks confirmed that Raft has delivered. -/
theorem noFork_of_inStep {node : Node S} (hnew : Sys.IsNew node) (inputs : List Input)
    (h : Meets (Sys.step env) InStep (Sys.start node) inputs) :
    NoFork ((Sys.start node).run env inputs).node.trace := by
  have hstart : (Sys.start node).Sat Orderly ForkFree := new_orderly hnew
  have hrun : ((Sys.start node).run env inputs).Sat Orderly ForkFree :=
    h.invariant (fun _ _ => step_noFork) hstart
  unfold Sys.Sat at hrun
  split at hrun
  next =>
    obtain ⟨l, f, p, -, -, hn⟩ := hrun
    exact hn.rest.noFork
  next => exact hrun

end

section

open scoped Proto3 PlainFormats

/-- The new leader confirms the one block it was committing and builds the
next. -/
theorem noFork_of_inStep_elected : ∃ node : Node FsStorage, twoPeers = .ok node ∧
    Obs.initializeBlock [] ∈ ((Sys.start node).run (Env.obliging [8] fun _ => twoPeersSetting)
      (electedWhileCommitting ++ [.blockCommit [7]])).node.trace ∧
    NoFork ((Sys.start node).run (Env.obliging [8] fun _ => twoPeersSetting)
      (electedWhileCommitting ++ [.blockCommit [7]])).node.trace := by
  refine ⟨_, rfl, by decide +kernel, ?_⟩
  exact noFork_of_inStep (twoPeers_isNew rfl) _ (by decide +kernel)

/-- A block is delivered before the validator has reported it as valid, and
then the node is elected: it begins a new block, with the delivered one still
in the queue. -/
theorem elected_forks : ∃ node : Node FsStorage, twoPeers = .ok node ∧
    ¬ NoFork ((Sys.start node).run (Env.obliging [8] fun _ => twoPeersSetting)
      [.processReady (some { isLeader := false, ready :=
          { committedEntries := some [{ term := 2, index := 3, data := [7] }] } }),
        .processReady (some { isLeader := true })]).node.trace := by
  refine ⟨_, rfl, fun h => ?_⟩
  have := h.queue_of_mem (q := [([7], 3)]) (by decide +kernel)
  exact absurd this (by simp)

/-- A block that comes with the `Ready` of the election counts as well, though it is not
in the queue when the next one is begun. -/
example : ∃ node : Node FsStorage, twoPeers = .ok node ∧
    ¬ Meets (Sys.step (Env.obliging [8] fun _ => twoPeersSetting)) InStep (Sys.start node)
      [.processReady (some { isLeader := true, ready :=
          { committedEntries := some [{ term := 2, index := 3, data := [7] }] } }),
        .tick, .tick, .blockNew { blockId := [8] }, .blockValid [8]] :=
  ⟨_, rfl, by decide +kernel⟩

end

/-! ## Committable blocks that nobody commits -/

/-- The queue with more blocks at its end. -/
def enqueueAll (q : BlockQueue) (ps : List (BlockId × Nat)) : BlockQueue :=
  { q with commitQueue := q.commitQueue ++ ps }

theorem enqueueAll_nil (q : BlockQueue) : enqueueAll q (blocksOf []) = q := by
  simp [enqueueAll, blocksOf]

/-- The block that is committable once the entries of the round are in the
queue. -/
def nextAfter (n : Node S) (round : Round) : Option BlockId :=
  (enqueueAll n.blockQueue (blocksOf round.committed)).getNextCommittable

/-- The condition on a round of a leader: if a block is committable in it, it
is the block that the leader proposes, or the node is committing a block
already. -/
def Served (n : Node S) (round : Round) : Prop :=
  round.isLeader = true → ∀ b, nextAfter n round = some b →
    n.leaderState = some (.proposing b) ∨ ∃ b', IsCommitting n b'

/-- A block that is being committed stays in front. -/
theorem nextAfter_of_committing {n : Node S} {b : BlockId} {c : Option BlockId} (h : Kept c n)
    (hc : c = some b) (round : Round) : nextAfter n round = some b := by
  obtain ⟨⟨i, rest, hq⟩, hv⟩ := BlockQueue.getNextCommittable_eq_some.mp (h.front b hc)
  refine BlockQueue.getNextCommittable_eq_some.mpr ⟨⟨i, rest ++ blocksOf round.committed, ?_⟩, hv⟩
  show n.blockQueue.commitQueue ++ _ = _
  rw [hq]
  rfl

/-- What a round that goes on makes of the roles, with `Q` its queue. -/
structure Settles (round : Round) (l : Option LeaderState) (f : Option FollowerState)
    (Q : BlockQueue) (n' : Node S) : Prop where
  queue : n'.blockQueue = Q
  roles : ∃ l₁ f₁ l₂, RoleChange round l f l₁ f₁ ∧
    (l₂ = l₁ ∨ l₁ = some .changingConfig ∧ ∃ since, l₂ = some (.building since)) ∧
    ((n'.leaderState = l₂ ∧ n'.followerState = f₁ ∧
        ∀ b, Q.getNextCommittable = some b → ¬ WillCommit l₂ f₁ b) ∨
      ∃ b l₃ f₃, Commits l₂ f₁ b l₃ f₃ ∧ Q.getNextCommittable = some b ∧
        n'.leaderState = l₃ ∧ n'.followerState = f₃)

/-- A leader has no follower state, and only a leader that proposed a block
before the round still proposes one. -/
theorem Promoted.proposing {l l' : Option LeaderState} {f f' : Option FollowerState}
    (h : Promoted l f l' f') (hr : OneRole l f) :
    f' = none ∧ ∀ b, l' = some (.proposing b) ↔ l = some (.proposing b) := by
  cases h with
  | already st f => exact ⟨hr.follower_none, fun _ => Iff.rfl⟩
  | committing b' => exact ⟨rfl, by simp⟩
  | building f hf since => exact ⟨rfl, by simp⟩

section
variable [StorageExt S] [Protobuf] {env : Env}

omit [Protobuf] in
theorem queue_tame (P : BlockQueue → Prop) : Tame (fun n : Node S => P n.blockQueue) where
  leader _ _ h := h
  follower _ _ h := h
  silent _ _ _ h := h
  stored _ _ _ h := h

theorem queue_takes (Q : BlockQueue) :
    Takes (S := S) (fun es n => enqueueAll n.blockQueue (blocksOf es) = Q)
      (fun es n => enqueueAll n.blockQueue (blocksOf es) = Q) (fun _ => True)
      (fun _ _ => True) where
  tame es := queue_tame fun q => enqueueAll q (blocksOf es) = Q
  fails _ _ _ _ _ := trivial
  skip e es n hb _ h := by rwa [blocksOf_skip hb] at h
  block e es n hb h := by
    rw [blocksOf_block hb] at h
    rw [← h]
    simp [enqueueAll, enqueue, BlockQueue.addBlockCommit]
  change e es n change n' hc _ hp h := by
    rw [blocksOf_skip (isChange_not_isBlock hc)] at h
    cases hp with
    | add => exact h
    | remove => exact h
    | learner => exact h
  shutdown _ _ _ _ _ _ _ _ := trivial
  unknown _ _ _ _ _ _ _ _ := trivial
  malformed _ _ _ _ _ _ _ := trivial

theorem processReady_settles (round : Round) {l : Option LeaderState} {f : Option FollowerState}
    (hr : OneRole l f) (q : BlockQueue) :
    Triple (At l f fun n : Node S => n.blockQueue = q) (processReady env (some round))
      (Ends (Settles round l f (enqueueAll q (blocksOf round.committed))) fun _ => True)
      (fun _ _ => True) := by
  have hfails : ∀ G : Node S → Prop, Fails (fun _ _ => True) G := fun _ _ _ _ _ => trivial
  refine processReady_at (M := fun n : Node S => ∃ l₁ f₁ l₂, RoleChange round l f l₁ f₁ ∧
    (l₂ = l₁ ∨ l₁ = some .changingConfig ∧ ∃ since, l₂ = some (.building since)) ∧ OneRole l₂ f₁ ∧
    At l₂ f₁ (fun n => n.blockQueue = enqueueAll q (blocksOf round.committed)) n)
    (fun n h => h) (queue_tame fun q' => q' = q) (hfails _) (fun _ _ _ n h => h) ?_ ?_
  · intro l₁ f₁ hrole
    have hr₁ := (hrole.handover hr).1
    -- the queue that is to come out, as an invariant of the loop
    have hpre : ∀ n : Node S, At l₁ f₁ (fun n => n.blockQueue = q) n → At l₁ f₁ (fun n =>
        enqueueAll n.blockQueue (blocksOf round.committed)
          = enqueueAll q (blocksOf round.committed)) n :=
      fun n h => ⟨h.leader, h.follower, by rw [h.rest]⟩
    have hdone : ∀ {l₂} {n : Node S}, At l₂ f₁ (fun n => enqueueAll n.blockQueue (blocksOf [])
          = enqueueAll q (blocksOf round.committed)) n →
        At l₂ f₁ (fun n => n.blockQueue = enqueueAll q (blocksOf round.committed)) n :=
      fun h => ⟨h.leader, h.follower, (enqueueAll_nil _).symm.trans h.rest⟩
    refine (deliver_resumes_at (queue_takes _) (fun _ n h => h) _).conseq hpre
      (fun status n h => ?_) (fun _ _ h => h)
    cases status with
    | Shutdown => trivial
    | Continue =>
      obtain ⟨l₂, hres, h⟩ := h
      exact ⟨l₁, f₁, l₂, hrole, hres, (hres.handover hr₁).1, hdone h⟩
  · refine Triple.intro fun l₁ => Triple.intro fun f₁ => Triple.intro fun l₂ n h => ?_
    obtain ⟨hrole, hl₂, hr₂, hn⟩ := h
    refine (commitNext_at (H := fun b n => n.blockQueue = enqueueAll q (blocksOf round.committed) ∧
      (enqueueAll q (blocksOf round.committed)).getNextCommittable = some b) hr₂
      (queue_tame fun q' => q' = enqueueAll q (blocksOf round.committed)) (fun b => hfails _)
      ?_).conseq (fun _ h => h) ?_ (fun _ _ h => h) n hn
    · exact fun b n hb _ hq => ⟨hq, hq ▸ hb⟩
    · intro _ n h'
      rcases h' with ⟨h, hnone⟩ | ⟨b, l₃, f₃, hcommits, h⟩
      · refine ⟨h.rest, l₁, f₁, l₂, hrole, hl₂, Or.inl ⟨h.leader, h.follower, ?_⟩⟩
        rw [← h.rest]
        exact hnone
      · exact ⟨h.rest.1, l₁, f₁, l₂, hrole, hl₂,
          Or.inr ⟨b, l₃, f₃, hcommits, h.rest.2, h.leader, h.follower⟩⟩

omit [StorageExt S] [Protobuf] in
/-- The logic of a round: a committable block is being committed afterwards
exactly if the round was served. -/
theorem Settles.iff_served {round : Round} {n n' : Node S} (hn : Good n)
    (h : Settles round n.leaderState n.followerState
      (enqueueAll n.blockQueue (blocksOf round.committed)) n') :
    (∀ b, n'.blockQueue.getNextCommittable = some b → IsCommitting n' b) ↔ Served n round := by
  obtain ⟨l, f, hr, rfl, rfl, hkept⟩ := hn
  obtain ⟨hq, l₁, f₁, l₂, hrole, hl₂, hroles⟩ := h
  obtain ⟨hr₁, hc₁⟩ := hrole.handover hr
  have hnext : n'.blockQueue.getNextCommittable = nextAfter n round := by rw [hq]; rfl
  rw [hnext]
  -- a block that is being committed before the round is the one that is committable in it
  have hfront : ∀ {b b'}, nextAfter n round = some b →
      committingOf n.leaderState n.followerState = some b' → b' = b := by
    intro b b' hb hb'
    exact Option.some.inj ((nextAfter_of_committing hkept hb' round).symm.trans hb)
  -- and after the round the roles of the second phase decide
  have hafter : ∀ {b}, nextAfter n round = some b →
      (IsCommitting n' b ↔ committingOf l₁ f₁ = some b ∨ WillCommit l₂ f₁ b) := by
    intro b hb
    have hl₂c : l₂ = some (.committing b) ↔ l₁ = some (.committing b) := by
      rcases hl₂ with rfl | ⟨rfl, since, rfl⟩
      · exact Iff.rfl
      · simp
    rw [committingOf_eq_some hr₁, ← hl₂c]
    rcases hroles with ⟨hl, hf, hnone⟩ | ⟨b', l₃, f₃, hcommits, hb', hl, hf⟩
    · unfold IsCommitting
      rw [hl, hf]
      exact ⟨Or.inl, fun h => h.resolve_right (hnone b hb)⟩
    · obtain rfl : b' = b := Option.some.inj (hb'.symm.trans hb)
      cases hcommits with
      | leader => exact ⟨fun _ => Or.inr (Or.inl rfl), fun _ => Or.inl hl⟩
      | follower => exact ⟨fun _ => Or.inr (Or.inr rfl), fun _ => Or.inr hf⟩
  unfold Served
  unfold RoleChange at hrole
  split at hrole
  next hleader =>
    -- of a leader: it goes on committing, or it commits what it proposed
    obtain ⟨rfl, hprop⟩ := hrole.proposing hr
    have hwill : ∀ b, WillCommit l₂ none b ↔ n.leaderState = some (.proposing b) := by
      intro b
      rw [← hprop b]
      rcases hl₂ with rfl | ⟨rfl, since, rfl⟩
      · simp [WillCommit]
      · simp [WillCommit]
    constructor
    · intro hall _ b hb
      rcases (hafter hb).mp (hall b hb) with hc | hw
      · exact Or.inr ⟨b, (committingOf_eq_some hr).mp (hc₁ ▸ hc)⟩
      · exact Or.inl ((hwill b).mp hw)
    · intro hserved b hb
      refine (hafter hb).mpr ?_
      rcases hserved hleader b hb with hp | ⟨b', hc⟩
      · exact Or.inr ((hwill b).mpr hp)
      · have hc' := (committingOf_eq_some hr).mpr hc
        rw [hc₁, hc', hfront hb hc']
        exact Or.inl rfl
  next hfollower =>
    -- of a follower: it goes on committing, or it is idle
    obtain ⟨rfl, hdem⟩ := hrole
    refine ⟨fun _ hl => absurd hl hfollower, fun _ b hb => (hafter hb).mpr ?_⟩
    cases f₁ with
    | none => exact absurd (hr₁.mp rfl) (by simp)
    | some st =>
      cases st with
      | idle => exact Or.inr (Or.inr rfl)
      | committing b' =>
        left
        rw [hc₁]
        have hc' := hc₁.symm.trans (rfl : committingOf none (some (.committing b')) = some b')
        rw [hc', hfront hb hc']
        rfl

variable [Formats]

/-- After a round that goes on, a committable block is being committed. -/
def Attends (env : Env) (s : Sys S) : Input → Prop
  | .processReady (some round) => s.status = .running →
    let s' := s.step env (.processReady (some round))
    s'.status = .running →
      ∀ b, s'.node.blockQueue.getNextCommittable = some b → IsCommitting s'.node b
  | _ => True

/-- The rounds that go on are served. -/
def ServedRound (env : Env) (s : Sys S) : Input → Prop
  | .processReady (some round) => s.status = .running →
    (s.step env (.processReady (some round))).status = .running → Served s.node round
  | _ => True

/-- **Step**: in a good state, a round attends to the committable block exactly
if it is served. -/
theorem attends_iff_servedRound {s : Sys S} (hs : s.Sat Good Stopped) (i : Input) :
    Attends env s i ↔ ServedRound env s i := by
  cases i with
  | processReady round =>
    cases round with
    | none => exact Iff.rfl
    | some round =>
      obtain ⟨n, status⟩ := s
      refine forall_congr' fun hrun => forall_congr' fun hgoes => ?_
      obtain rfl : status = .running := hrun
      obtain ⟨l, f, hr, hn⟩ := id hs
      have hround : Triple _ (processReady env (some round) : NodeM S ReadyStatus) _ _ :=
        processReady_settles round hr n.blockQueue
      have hset := hround n ⟨hn.leader, hn.follower, rfl⟩
      have hstep : (Sys.step env ⟨n, .running⟩ (.processReady (some round)))
          = Sys.after (processReady env (some round) n) := rfl
      rw [hstep] at hgoes ⊢
      cases hm : processReady env (some round) n with
      | error p n' => rw [hm] at hgoes; cases hgoes
      | ok st n' =>
        cases st with
        | Shutdown => rw [hm] at hgoes; cases hgoes
        | Continue =>
          rw [hm] at hset
          obtain ⟨rfl, rfl⟩ : n.leaderState = l ∧ n.followerState = f := ⟨hn.leader, hn.follower⟩
          exact Settles.iff_served hs hset
  | _ => exact Iff.rfl

/-- **Committable blocks are attended to, exactly if every round is served**:
no run leaves a committable block behind unless some round of a leader finds a
block committable that it did not propose, with none being committed. -/
theorem attends_iff_served {node : Node S} (hnew : Sys.IsNew node) (inputs : List Input) :
    Meets (Sys.step env) (Attends env) (Sys.start node) inputs ↔
      Meets (Sys.step env) (ServedRound env) (Sys.start node) inputs := by
  have hstart : (Sys.start node).Sat Good Stopped := by
    obtain ⟨_, _, _, _, _, hnew⟩ := hnew
    exact new_good hnew
  exact meets_congr (fun _ i hs _ => Sys.sat_step (handle_good i) (fun _ h => h) hs)
    (fun _ i hs => attends_iff_servedRound hs i) hstart

end

section

open scoped Proto3 PlainFormats

/-- The follower commits its block, and goes on committing it as leader. -/
theorem attends_iff_served_elected : ∃ node : Node FsStorage, twoPeers = .ok node ∧
    Meets (Sys.step (Env.obliging [8] fun _ => twoPeersSetting))
      (Attends (Env.obliging [8] fun _ => twoPeersSetting)) (Sys.start node)
      electedWhileCommitting := by
  refine ⟨_, rfl, (attends_iff_served (twoPeers_isNew rfl) _).mpr ⟨trivial, ?_, ?_, trivial⟩⟩
  · intro _ _ hl
    exact absurd hl (by decide)
  · intro _ _ _ b _
    exact Or.inr ⟨[7], Or.inr (by decide +kernel)⟩

/-- A leader is building when a block of an earlier term is delivered to it:
the block is valid and in front, and the leader goes on building. -/
theorem leader_ignores_block : ∃ node : Node FsStorage, twoPeers = .ok node ∧
    ¬ Meets (Sys.step (Env.obliging [8] fun _ => twoPeersSetting))
      (Attends (Env.obliging [8] fun _ => twoPeersSetting)) (Sys.start node)
      [.processReady (some { isLeader := true }), .blockValid [7],
        .processReady (some { isLeader := true, ready :=
          { committedEntries := some [{ term := 2, index := 3, data := [7] }] } })] := by
  refine ⟨_, rfl, ?_⟩
  intro h'
  obtain ⟨-, -, h, -⟩ := h'
  rcases h (by decide +kernel) (by decide +kernel) [7] (by decide +kernel) with hc | hc
  · exact absurd hc (by decide +kernel)
  · exact absurd hc (by decide +kernel)

end

end Node

end SawtoothRaft
