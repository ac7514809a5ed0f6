import Mathlib.Data.Finset.Card
import Mathlib.Data.Finset.SymmDiff
import SawtoothRaft.Node.Aloof
import SawtoothRaft.Node.Configured

/-!
# One change per block, in a network of nodes

The leader compares the setting of a block it has confirmed with its map of
peers, and can deal with one difference. Each block of the chain changes the
setting by one peer at most. That does not make the difference one: the map
follows the log, and a change that nobody has proposed as leader, or whose
proposal was lost with its leader, is `pending` still when the next block comes.

`Network` has any number of nodes, which take their steps in any order. What
they share is the `Chain`: one committed log, and one setting for each block.
As long as no leader confirms a block while another change is pending
(`OneAtATime`), none of them dies of more than one change
(`one_change_accepted`); `changes_pile_up` is a run in which the second leader
does.
-/

namespace SawtoothRaft

open Lib

/-- The peers in a map. -/
def peersIn (m : AList fun _ : Nat => PeerId) : Finset PeerId := (m.entries.map (·.2)).toFinset

/-- What the nodes of a network have in common: the committed log, and the
blocks with their predecessors and the peers of the setting at each. A committed
block adds one peer or removes one, or neither. -/
structure Chain where
  log : CommittedLog
  previous : BlockId → BlockId
  peersAt : BlockId → Finset PeerId
  gradual : ∀ e ∈ log.entries, Node.IsBlock e →
    (symmDiff (peersAt e.data) (peersAt (previous e.data))).card ≤ 1
  distinct : ∀ b b', ∀ p ∈ peersAt b, ∀ q ∈ peersAt b', raftIdOf p = raftIdOf q → p = q

namespace Chain

/-- The peer that a block adds or removes. -/
def ownChange (chain : Chain) (b : BlockId) : Finset PeerId :=
  symmDiff (chain.peersAt b) (chain.peersAt (chain.previous b))

/-- The changes of the blocks before `b` that the members in `m` have not gone
through. -/
def pending (chain : Chain) (b : BlockId) (m : AList fun _ : Nat => PeerId) : Finset PeerId :=
  symmDiff (chain.peersAt (chain.previous b)) (peersIn m)

/-- When the leader confirms a block, the changes of earlier blocks have all
been delivered to it; or else the block does not make another one, and leaves
one of them at most. -/
def OneAtATime [Protobuf] {S : Type} (chain : Chain) (m : AList fun _ : Nat => PeerId) (s : Sys S) :
    Input → Prop
  | .blockCommit b => s.status = .running → s.node.leaderState = some (.committing b) →
      let pending := chain.pending b (configured m (books s.node.trace).entries)
      pending = ∅ ∨ chain.ownChange b ⊆ pending ∧ (pending \ chain.ownChange b).card ≤ 1
  | _ => True

instance [Protobuf] {S : Type} (chain : Chain) (m : AList fun _ : Nat => PeerId) (s : Sys S) :
    ∀ i, Decidable (chain.OneAtATime m s i)
  | .blockCommit _ => inferInstanceAs (Decidable (_ = _ → _ = _ → _ ∨ _ ∧ _))
  | .blockNew _ | .blockValid _ | .peerMessage _ | .tick | .processReady _ => isTrue trivial

end Chain

/-- Any number of new nodes, each with its own surroundings, which show the
settings of the chain. -/
structure Network (κ S : Type) [Formats] (chain : Chain) where
  env : κ → Env
  node : κ → Node S
  isNew : ∀ k, Sys.IsNew (node k)
  settings : ∀ k t b s peers, (env k).getSettings t b = .ok s →
    getPeersFromSettings s = .ok peers → peers.toFinset = chain.peersAt b

namespace Network

variable {κ S : Type} [DecidableEq κ] [StorageExt S] [Protobuf] [Formats] {chain : Chain}

def start (net : Network κ S chain) (k : κ) : Sys S := Sys.start (net.node k)

def step (net : Network κ S chain) : (κ → Sys S) → κ × Input → κ → Sys S :=
  stepAt fun k => Sys.step (net.env k)

/-- The nodes take the inputs in this order. -/
def run (net : Network κ S chain) (inputs : List (κ × Input)) : κ → Sys S :=
  inputs.foldl net.step net.start

end Network

/-! ## The difference that the leader looks at -/

/-- A set and another of one element at most. -/
theorem card_symmDiff_le_one_iff {α : Type} [DecidableEq α] {own pending : Finset α}
    (h : own.card ≤ 1) : (symmDiff own pending).card ≤ 1 ↔
      pending = ∅ ∨ own ⊆ pending ∧ (pending \ own).card ≤ 1 := by
  by_cases hsub : own ⊆ pending
  · have hdiff : symmDiff own pending = pending \ own := symmDiff_of_le hsub
    rw [hdiff]
    constructor
    · exact fun hc => Or.inr ⟨hsub, hc⟩
    · intro hc
      rcases hc with rfl | hc
      · simp
      · exact hc.2
  · constructor
    · intro hc
      obtain ⟨q, hq, hnot⟩ := Finset.not_subset.mp hsub
      left
      by_contra hne
      obtain ⟨p, hp⟩ := Finset.nonempty_iff_ne_empty.mpr hne
      have hpq : p ≠ q := fun hpq => hnot (hpq ▸ hp)
      have hpown : p ∉ own := fun hpown => hpq (Finset.card_le_one.mp h p hpown q hq)
      -- both would be in the difference
      exact hpq (Finset.card_le_one.mp hc p (Finset.mem_symmDiff.mpr (Or.inr ⟨hp, hpown⟩)) q
        (Finset.mem_symmDiff.mpr (Or.inl ⟨hq, hnot⟩)))
    · intro hc
      rcases hc with rfl | hc
      · rw [← Finset.bot_eq_empty, symmDiff_bot]
        exact h
      · exact absurd hc.1 hsub

namespace Node

/-- The difference of two sets, as the leader lists it. -/
theorem difference_spec (peers oldPeers : List PeerId) :
    (peers.dedup.filter (· ∉ oldPeers.dedup) ++ oldPeers.dedup.filter (· ∉ peers.dedup)).toFinset
        = symmDiff peers.toFinset oldPeers.toFinset ∧
      (symmDiff peers.toFinset oldPeers.toFinset).card
        = (peers.dedup.filter (· ∉ oldPeers.dedup)
            ++ oldPeers.dedup.filter (· ∉ peers.dedup)).length := by
  have hmem : (peers.dedup.filter (· ∉ oldPeers.dedup)
      ++ oldPeers.dedup.filter (· ∉ peers.dedup)).toFinset
      = symmDiff peers.toFinset oldPeers.toFinset := by
    ext p
    simp [Finset.mem_symmDiff]
  refine ⟨hmem, ?_⟩
  rw [← hmem]
  refine List.toFinset_card_of_nodup (List.Nodup.append ((List.nodup_dedup _).filter _)
    ((List.nodup_dedup _).filter _) ?_)
  intro p hp hp'
  simp only [List.mem_filter, decide_eq_true_eq] at hp hp'
  exact hp'.2 hp.1

/-- The leader panics exactly if the sets differ by more than one peer. -/
theorem confChangeBetween_many_iff (peers oldPeers : List PeerId) :
    confChangeBetween peers oldPeers = .error .manyMembershipChanges ↔
      ¬ (symmDiff peers.toFinset oldPeers.toFinset).card ≤ 1 := by
  rw [(difference_spec peers oldPeers).2]
  unfold confChangeBetween
  dsimp only
  split
  next h => rw [h]; simp
  next peerId h =>
    rw [h]
    constructor
    · intro herror
      unfold peerIdToRaftId at herror
      split at herror
      · split at herror
        · exact nomatch herror
        · split at herror <;> exact nomatch herror
      · exact nomatch herror
    · intro hlen
      exact absurd (Nat.le_refl 1) hlen
  next h => rw [h]; simp

/-! ## Handlers that do not find more than one change -/

/-- Every panic but the one about more than one change. -/
def NotMany (p : Panic) : Prop := p ≠ .manyMembershipChanges

section
variable {S : Type} {env : Env}

theorem notMany_receptive (es : List Entry) : Receptive es NotMany (fun _ : Node S => True) where
  panics _ hp := hp
  leader _ _ _ := trivial
  follower _ _ _ := trivial
  backlog _ _ _ := trivial
  note _ _ _ _ := trivial
  block _ _ _ _ := trivial
  peers _ _ _ := trivial

/-- The map of peers is left as it is. -/
theorem sameMap_aloof (m : AList fun _ : Nat => PeerId) :
    Aloof NotMany (fun n : Node S => n.raftIdToPeerId = m) where
  panics _ hp := hp
  leader _ _ h := h
  follower _ _ h := h
  backlog _ _ h := h
  note _ _ _ h := h

variable [StorageExt S]

theorem persist_notMany (ready : Ready) :
    Keeps NotMany (fun _ : Node S => True) (persist env ready) := by
  have hstore : ∀ fault, NotMany (.store fault) := fun _ => by simp [NotMany]
  refine .bind ?_ fun _ => .bind ?_ fun _ => ?_
  · exact .ite (.pure _) (storeCall_stored hstore fun _ h => h)
  · exact .ite (.pure _) (storeCall_stored hstore fun _ h => h)
  · cases ready.hs with
    | none => exact .pure _
    | some hs =>
      show Keeps NotMany _ (storeCall fun s => StorageExt.setHardstate s hs)
      exact storeCall_stored hstore fun _ h => h

theorem processReady_notMany [Protobuf] (round : Option Round) :
    Keeps NotMany (fun _ : Node S => True) (processReady env round) := by
  have hsends : ∀ msgs : List RaftMessage,
      Keeps NotMany (fun _ : Node S => True) (msgs.forM (sendMsg env)) :=
    fun msgs => Triple.forM msgs fun msg _ =>
      sendMsg_keeps (fun _ => by simp [NotMany]) (fun _ _ _ h => h) msg
  cases round with
  | none => exact .pure _
  | some round =>
    have h := notMany_receptive (S := S) round.committed
    refine .bind (.update fun _ hn => hn) fun _ => .bind ?_ fun _ => .bind (persist_notMany _)
      fun _ => .bind ?_ fun _ => .bind (h.deliver fun _ he => he) fun _ => h.afterEntries _
    · exact .ite (.bind h.stepUp fun _ => hsends _) (.pure _)
    · exact .ite (.pure _) (.bind h.stepDown fun _ => hsends _)

variable {m : AList fun _ : Nat => PeerId} {b : BlockId}

theorem confirmFront_sameMap :
    Keeps NotMany (fun n : Node S => n.raftIdToPeerId = m) confirmFront := by
  refine .bind (.read fun n => ?_) fun i => .bind (.update fun _ hn => hn) fun _ => ?_
  · cases n.blockQueue.blockCommitted with
    | none => exact .throw (by simp [NotMany])
    | some p => exact .bind (.update fun _ hn => hn) fun _ => .pure _
  · exact storeCall_stored (fun _ => by simp [NotMany]) fun _ hn => hn

variable [Formats]

omit [StorageExt S] in
/-- A leader that is shown the setting compares it with its map. -/
theorem checkForConfChange_sameMap (hone : ∀ t s peers, env.getSettings t b = .ok s →
    getPeersFromSettings s = .ok peers → (symmDiff peers.toFinset (peersIn m)).card ≤ 1) :
    Keeps NotMany (fun n : Node S => n.raftIdToPeerId = m) (checkForConfChange env b) := by
  have h := sameMap_aloof (S := S) m
  refine Triple.bind (R := fun s n => n.raftIdToPeerId = m ∧ ∃ t, env.getSettings t b = .ok s)
    ?_ fun s => ?_
  · refine Triple.bind (R := fun r n => n.raftIdToPeerId = m ∧ ∃ t, env.getSettings t b = r)
      ?_ fun r => ?_
    · refine Triple.bind (h.emit trivial) fun _ => Triple.read fun n hn => ?_
      exact Triple.pure fun s hs => ⟨hs ▸ hn, _, rfl⟩
    · cases r with
      | ok s => exact Triple.pure fun _ hn => hn
      | error err => exact Triple.throw fun _ hn => ⟨by simp [NotMany], hn.1⟩
  · refine Triple.bind (R := fun peers n => n.raftIdToPeerId = m ∧
      (symmDiff peers.toFinset (peersIn m)).card ≤ 1) ?_ fun peers => ?_
    · cases hpeers : getPeersFromSettings s with
      | error p =>
        refine Triple.throw fun _ hn => ⟨?_, hn.1⟩
        rcases getPeersFromSettings_error hpeers with rfl | rfl | rfl <;> simp [NotMany]
      | ok peers =>
        refine Triple.pure fun _ hn => ⟨hn.1, ?_⟩
        obtain ⟨t, ht⟩ := hn.2
        exact hone t s peers ht hpeers
    · refine Triple.read fun n hn => Triple.pre ?_ fun _ hs => hs ▸ hn.1
      refine Keeps.expect fun p hp hmany => ?_
      subst hmany
      rw [hn.1] at hp
      exact (confChangeBetween_many_iff _ _).mp hp hn.2

/-- **Step**: a notification is handled without that panic, if the leader that
waited for it finds one difference at most. -/
theorem onBlockCommit_notMany {l : Option LeaderState}
    (hone : l = some (.committing b) → ∀ t s peers, env.getSettings t b = .ok s →
      getPeersFromSettings s = .ok peers → (symmDiff peers.toFinset (peersIn m)).card ≤ 1) :
    Triple (fun n : Node S => n.raftIdToPeerId = m ∧ n.leaderState = l) (onBlockCommit env b)
      (fun _ _ => True) (fun p _ => NotMany p) := by
  have h := sameMap_aloof (S := S) m
  refine Triple.bind (R := fun _ n => n.raftIdToPeerId = m ∧ n.leaderState = l)
    (Triple.update fun n hn => hn) fun _ => ?_
  refine Triple.bind (R := fun _ n => n.raftIdToPeerId = m) ?_ fun _ => ?_
  · refine Triple.read fun n hn => Triple.pre ?_ fun _ hs => hs ▸ hn.1
    refine Triple.ite (fun hl => ?_) fun _ => Triple.pure fun _ hn => hn
    have hcheck := checkForConfChange_sameMap (S := S) (hone (hn.2.symm.trans hl))
    exact Triple.conseq (confirmFront_sameMap.bind fun _ => h.afterCommit hcheck)
      (fun _ hn => hn) (fun _ _ hn => hn) fun _ _ hn => hn.1
  · have hfollower : Keeps NotMany (fun n : Node S => n.raftIdToPeerId = m)
        (followerBlockCommit b) :=
      .read fun n => .ite (confirmFront_sameMap.bind fun _ => h.setFollowerState _) (.pure _)
    exact Triple.conseq hfollower (fun _ hn => hn) (fun _ _ _ => trivial) fun _ _ hn => hn.1

/-- The same for all inputs; only a notification can lead to it. -/
theorem handle_notMany [Protobuf] {l : Option LeaderState} (i : Input)
    (hone : ∀ b, i = .blockCommit b → l = some (.committing b) →
      ∀ t s peers, env.getSettings t b = .ok s → getPeersFromSettings s = .ok peers →
        (symmDiff peers.toFinset (peersIn m)).card ≤ 1) :
    Triple (fun n : Node S => n.raftIdToPeerId = m ∧ n.leaderState = l) (handle env i)
      (fun _ _ => True) (fun p _ => NotMany p) := by
  have h := (notMany_receptive (S := S) []).toAloof
  have hdone : ∀ {m : NodeM S Unit}, Keeps NotMany (fun _ => True) m →
      Keeps NotMany (fun _ => True) (do m; pure ReadyStatus.Continue) :=
    fun hm => hm.bind fun _ => .pure _
  have hall : ∀ {m' : NodeM S ReadyStatus}, Keeps NotMany (fun _ => True) m' →
      Triple (fun n : Node S => n.raftIdToPeerId = m ∧ n.leaderState = l) m' (fun _ _ => True)
        (fun p _ => NotMany p) :=
    fun hm => Triple.conseq hm (fun _ _ => trivial) (fun _ _ hn => hn) fun _ _ hn => hn.1
  cases i with
  | blockNew block => exact hall (hdone (h.onBlockNew block))
  | blockValid b => exact hall (hdone (h.onBlockValid b))
  | blockCommit b =>
    exact Triple.bind (onBlockCommit_notMany (hone b rfl)) fun _ => Triple.pure fun _ _ => trivial
  | peerMessage message => exact hall (hdone (h.onPeerMessage message))
  | tick => exact hall (hdone h.tick)
  | processReady round => exact hall (processReady_notMany round)

end

/-! ## Runs -/

section
variable {S : Type} {chain : Chain} {b : BlockId}

/-- A block that is being committed has been delivered. -/
theorem Good.delivered {n : Node S} (h : Good n) (hl : n.leaderState = some (.committing b)) :
    ∃ e ∈ (books n.trace).entries, IsBlock e ∧ e.data = b := by
  obtain ⟨l, f, -, hl', -, hkept⟩ := h
  obtain rfl := hl'.symm.trans hl
  obtain ⟨popped, hbal⟩ := hkept.balanced
  obtain ⟨i, rest, hq⟩ := hbal.front b rfl
  have hmem : (b, i) ∈ blocksOf (books n.trace).entries := by
    show (b, i) ∈ (books n.trace).delivered
    rw [hbal.delivered, hq]
    exact List.mem_append_right _ (List.mem_cons_self ..)
  obtain ⟨e, he, hblock⟩ := List.mem_filterMap.mp hmem
  unfold blockOf at hblock
  split at hblock
  next hb => exact ⟨e, he, hb, congrArg Prod.fst (Option.some.inj hblock)⟩
  next => exact nomatch hblock

/-- With one change at a time, the leader finds one difference at most. -/
theorem card_le_one_of_oneAtATime {m : AList fun _ : Nat => PeerId}
    (hgradual : (chain.ownChange b).card ≤ 1)
    (hone : chain.pending b m = ∅ ∨ chain.ownChange b ⊆ chain.pending b m ∧
      (chain.pending b m \ chain.ownChange b).card ≤ 1) :
    (symmDiff (chain.peersAt b) (peersIn m)).card ≤ 1 := by
  have hcard := (card_symmDiff_le_one_iff hgradual).mpr hone
  unfold Chain.ownChange Chain.pending at hcard
  rwa [symmDiff_assoc, symmDiff_symmDiff_cancel_left] at hcard

variable [StorageExt S] [Protobuf] [Formats] {env : Env} {m : AList fun _ : Nat => PeerId}

/-- **Step**: an input that meets `OneAtATime` does not lead to the panic over several
membership changes. -/
theorem step_notMany {s : Sys S} {i : Input} (hgood : s.Sat Good Stopped)
    (hmap : s.status = .running → AsLogged m s.node)
    (hsettings : ∀ t b s peers, env.getSettings t b = .ok s →
      getPeersFromSettings s = .ok peers → peers.toFinset = chain.peersAt b)
    (hlog : ∀ e ∈ (books s.node.trace).entries, e ∈ chain.log.entries)
    (hone : chain.OneAtATime m s i) (hs : s.status ≠ .panicked .manyMembershipChanges) :
    (s.step env i).status ≠ .panicked .manyMembershipChanges := by
  obtain ⟨n, status⟩ := s
  cases status with
  | shutdown => exact hs
  | panicked p => exact hs
  | running =>
    have hdifference : ∀ b, i = .blockCommit b → n.leaderState = some (.committing b) →
        ∀ t s peers, env.getSettings t b = .ok s → getPeersFromSettings s = .ok peers →
          (symmDiff peers.toFinset (peersIn n.raftIdToPeerId)).card ≤ 1 := by
      intro b hi hl t s peers hsetting hpeers
      subst hi
      obtain ⟨e, he, hb, rfl⟩ := Good.delivered hgood hl
      rw [hsettings t _ s peers hsetting hpeers, hmap rfl]
      exact card_le_one_of_oneAtATime (chain.gradual e (hlog e he) hb) (hone rfl hl)
    have hhandle := handle_notMany i hdifference n ⟨rfl, rfl⟩
    show (Sys.after (handle env i n)).status ≠ _
    cases hr : handle env i n with
    | error p n' =>
      rw [hr] at hhandle
      exact fun h => hhandle (Status.panicked.inj h)
    | ok status n' =>
      cases status with
      | Continue => exact nofun
      | Shutdown => exact nofun

/-- **Run** of one of the nodes, by induction on the inputs. What is delivered
in the end contains all that was delivered on the way. -/
theorem run_notMany (hsettings : ∀ t b s peers, env.getSettings t b = .ok s →
      getPeersFromSettings s = .ok peers → peers.toFinset = chain.peersAt b)
    {inputs : List Input} {s : Sys S}
    (hs : s.Sat (fun n => Good n ∧ AsLogged m n)
      (fun st n => Stopped st n ∧ Halted (fun _ => True) (fun _ _ => True) st n))
    (hstatus : s.status ≠ .panicked .manyMembershipChanges)
    (hlog : ∀ e ∈ (books (s.run env inputs).node.trace).entries, e ∈ chain.log.entries)
    (hone : Meets (Sys.step env) (chain.OneAtATime m) s inputs) :
    (s.run env inputs).status ≠ .panicked .manyMembershipChanges := by
  induction inputs generalizing s with
  | nil => exact hstatus
  | cons i inputs ih =>
    refine ih (sat_step_steady (asLogged_steady m) (asLogged_takes m) (fun _ _ => trivial) hs i)
      ?_ hlog hone.2
    have hgood : s.Sat Good Stopped := hs.imp (fun _ h => h.1) fun _ _ h => h.1
    refine step_notMany hgood (fun hrun => ?_) hsettings (fun e he => hlog e ?_) hone.1 hstatus
    · unfold Sys.Sat at hs
      rw [hrun] at hs
      exact hs.2
    · exact (entries_grow (run_closed_from (prefix_closed s.node.trace) hgood
        (List.prefix_refl _) (i :: inputs))).subset he

end

/-- **One change at a time is always accepted.** The nodes of a network take
their steps in any order, become leaders and step down at any time, and may
propose changes in vain. Each is given a part of the one committed log, in
which each block changes the setting by one peer at most. As long as no leader
confirms a block while another change is pending, no node ever finds that more
than one node's membership has changed. -/
theorem one_change_accepted {κ S : Type} [DecidableEq κ] [StorageExt S] [Protobuf] [Formats]
    {chain : Chain} (net : Network κ S chain) (inputs : List (κ × Input))
    (hlog : ∀ k, ∃ i, (books (net.run inputs k).node.trace).entries <+: chain.log.after i)
    (hone : Meets net.step
      (fun s i => chain.OneAtATime (net.node i.1).raftIdToPeerId (s i.1) i.2) net.start inputs) :
    ∀ k, (net.run inputs k).status ≠ .panicked .manyMembershipChanges := by
  intro k
  have hk : net.run inputs k = (net.start k).run (net.env k) (inputsOf k inputs) :=
    foldl_stepAt k inputs net.start
  have hone' : Meets (Sys.step (net.env k)) (chain.OneAtATime (net.node k).raftIdToPeerId)
      (net.start k) (inputsOf k inputs) :=
    Meets.single (C := fun k => chain.OneAtATime (net.node k).raftIdToPeerId) k hone
  obtain ⟨i, hi⟩ := hlog k
  rw [hk] at hi ⊢
  refine run_notMany (net.settings k) ⟨?_, asLogged_of_isNew (net.isNew k)⟩ nofun
    (fun e he => ?_) hone'
  · obtain ⟨_, _, _, _, _, hnode⟩ := net.isNew k
    exact new_good hnode
  · exact (List.mem_filter.mp (hi.subset he)).1

section

open scoped Proto3 PlainFormats

/-- Two peers, and one more with each of the blocks 7 and 8. -/
def growingPeers (b : BlockId) : Finset PeerId :=
  if b = [7] then {peerOf 1, peerOf 2, peerOf 3}
  else if b = [8] then {peerOf 1, peerOf 2, peerOf 3, peerOf 4}
  else {peerOf 1, peerOf 2}

theorem growingPeers_eq {b : BlockId} {peers : List PeerId}
    (h : getPeersFromSettings (growing b) = .ok peers) : peers.toFinset = growingPeers b := by
  by_cases h₇ : b = [7]
  · subst h₇
    have hpeers : getPeersFromSettings (growing [7]) = .ok [peerOf 1, peerOf 2, peerOf 3] := by
      decide +kernel
    obtain rfl := Except.ok.inj (h.symm.trans hpeers)
    decide +kernel
  by_cases h₈ : b = [8]
  · subst h₈
    have hpeers : getPeersFromSettings (growing [8])
        = .ok [peerOf 1, peerOf 2, peerOf 3, peerOf 4] := by
      decide +kernel
    obtain rfl := Except.ok.inj (h.symm.trans hpeers)
    decide +kernel
  have hsettings : growing b = growing [] := by
    unfold growing
    rw [if_neg h₇, if_neg h₈]
    rfl
  have hpeers : getPeersFromSettings (growing []) = .ok [peerOf 1, peerOf 2] := by
    decide +kernel
  rw [hsettings] at h
  obtain rfl := Except.ok.inj (h.symm.trans hpeers)
  unfold growingPeers
  rw [if_neg h₇, if_neg h₈]
  decide +kernel

/-- The blocks 7 and 8, of two leaders. -/
def growingChain : Chain where
  log :=
    { entries := [{ term := 2, index := 3, data := [7] }, { term := 3, index := 4 },
        { term := 3, index := 5, data := [8] }]
      increasing := by decide
      positive := by decide
      u64 := by decide }
  previous b := if b = [8] then [7] else []
  peersAt := growingPeers
  gradual := by decide +kernel
  distinct := by
    have hsub : ∀ b, growingPeers b ⊆ {peerOf 1, peerOf 2, peerOf 3, peerOf 4} := by
      intro b
      unfold growingPeers
      split
      · decide +kernel
      · split
        · decide +kernel
        · decide +kernel
    have hdistinct : ∀ p ∈ ({peerOf 1, peerOf 2, peerOf 3, peerOf 4} : Finset PeerId),
        ∀ q ∈ ({peerOf 1, peerOf 2, peerOf 3, peerOf 4} : Finset PeerId),
        raftIdOf p = raftIdOf q → p = q := by
      decide +kernel
    exact fun b b' p hp q hq => hdistinct p (hsub b hp) q (hsub b' hq)

/-- Peer 1, which publishes block 7, and peer 2, which publishes block 8. -/
def twoNodes : Network Bool FsStorage growingChain where
  env second := Env.obliging (if second then [8] else [7]) growing
  node second :=
    { peerId := if second then peerOf 2 else peerOf 1
      store := ⟨emptyDir⟩
      leaderState := none
      followerState := some .idle
      blockQueue := BlockQueue.new
      raftIdToPeerId := mapOf [peerOf 1, peerOf 2]
      period := 0
      trace := [] }
  isNew second := ⟨_, _, [peerOf 1, peerOf 2], 0, [], rfl⟩
  settings k t b s peers hs hpeers := by
    obtain rfl := Except.ok.inj hs
    exact growingPeers_eq hpeers

/-- Peer 1 confirms block 7 and proposes the change, but loses the leadership
before it is committed. Peer 2 has confirmed block 7 as a follower; as the new
leader it builds and confirms block 8. -/
def leadersInTurn : List (Bool × Input) :=
  [(false, .processReady (some { isLeader := true })), (false, .tick),
    (false, .blockNew { blockId := [7] }), (false, .blockValid [7]),
    (false, .processReady (some { isLeader := true, ready :=
      { committedEntries := some (growingChain.log.entries.take 1) } })),
    (false, .blockCommit [7]),
    (true, .blockValid [7]),
    (true, .processReady (some { isLeader := false, ready :=
      { committedEntries := some (growingChain.log.entries.take 1) } })),
    (true, .blockCommit [7]),
    (false, .processReady (some { isLeader := false })),
    (true, .processReady (some { isLeader := true })), (true, .tick),
    (true, .blockNew { blockId := [8] }), (true, .blockValid [8]),
    (true, .processReady (some { isLeader := true, ready :=
      { committedEntries := some (growingChain.log.entries.drop 1) } })),
    (true, .blockCommit [8])]

/-- Until block 8 is confirmed, all is well. -/
theorem one_change_accepted_so_far :
    (twoNodes.run leadersInTurn.dropLast false).status ≠ .panicked .manyMembershipChanges ∧
    (twoNodes.run leadersInTurn.dropLast true).status ≠ .panicked .manyMembershipChanges := by
  have hsafe : ∀ second, (twoNodes.run leadersInTurn.dropLast second).status
      ≠ .panicked .manyMembershipChanges := by
    refine one_change_accepted twoNodes leadersInTurn.dropLast (fun second => ⟨0, ?_⟩)
      (by decide +kernel)
    cases second with
    | false => decide +kernel
    | true => decide +kernel
  exact ⟨hsafe false, hsafe true⟩

/-- Then the change of block 7 is pending still, and peer 2 finds two. -/
theorem changes_pile_up :
    (∀ second, (books (twoNodes.run leadersInTurn second).node.trace).entries
      <+: growingChain.log.after 0) ∧
    .proposeConfChange addition ∈ (twoNodes.run leadersInTurn false).node.trace ∧
    (twoNodes.run leadersInTurn false).status = .running ∧
    (twoNodes.run leadersInTurn true).status = .panicked .manyMembershipChanges := by
  decide +kernel

end

end Node

end SawtoothRaft
