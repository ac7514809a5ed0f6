import SawtoothRaft.Node.Network

/-!
# The change that is found is the change that is made

`check_for_conf_change` compares two sets of peers and says how they differ, in
a message that has room for one Raft id, a kind, and some bytes.
`apply_conf_change` is given that message alone, by every node and at some later
time, and has to make the map of peers what the setting says
(`conf_change_agrees`). What they rely on is that a peer stands under its own
Raft id in the map (`Keyed`), and that this id stands for no other peer
(`Addressed`).
-/

namespace SawtoothRaft

open Lib

/-- Each peer stands under its own Raft id. -/
def Keyed (m : AList fun _ : Nat => PeerId) : Prop := ∀ r p, m.lookup r = some p → r = raftIdOf p

/-- The peers have Raft ids, and different ones. -/
structure Addressed (ps : Finset PeerId) : Prop where
  long : ∀ p ∈ ps, 8 ≤ p.length
  distinct : ∀ p ∈ ps, ∀ q ∈ ps, raftIdOf p = raftIdOf q → p = q

/-- The change is the removal of this peer. -/
def ConfChange.Removes (change : ConfChange) (p : PeerId) : Prop :=
  change.changeType = .RemoveNode ∧ change.nodeId = raftIdOf p

/-! ## Maps of peers -/

section
variable {m : AList fun _ : Nat => PeerId} {p q : PeerId}

theorem mem_peersIn : p ∈ peersIn m ↔ ∃ r, m.lookup r = some p := by
  unfold peersIn
  rw [List.mem_toFinset, List.mem_map]
  constructor
  · intro ⟨⟨r, p'⟩, hmem, hp⟩
    obtain rfl : p' = p := hp
    exact ⟨r, AList.mem_lookup_iff.mpr hmem⟩
  · intro ⟨r, hr⟩
    exact ⟨⟨r, p⟩, AList.mem_lookup_iff.mp hr, rfl⟩

theorem Keyed.mem_iff (h : Keyed m) : p ∈ peersIn m ↔ m.lookup (raftIdOf p) = some p := by
  rw [mem_peersIn]
  constructor
  · intro ⟨r, hr⟩
    rwa [← h r p hr]
  · exact fun hp => ⟨_, hp⟩

theorem keyed_insert (h : Keyed m) (p : PeerId) : Keyed (m.insert (raftIdOf p) p) := by
  intro r q hq
  by_cases hr : r = raftIdOf p
  · rw [hr, AList.lookup_insert] at hq
    rw [hr, Option.some.inj hq]
  · exact h r q (by rwa [AList.lookup_insert_ne hr] at hq)

theorem keyed_erase (h : Keyed m) (r : Nat) : Keyed (m.erase r) := by
  intro r' q hq
  by_cases hr : r' = r
  · rw [hr, AList.lookup_erase] at hq
    exact nomatch hq
  · exact h r' q (by rwa [AList.lookup_erase_ne hr] at hq)

/-- The map of a new node. -/
theorem keyed_mapOf (peers : List PeerId) : Keyed (Node.mapOf peers) := by
  refine run_invariant (I := Keyed) (fun m p h => keyed_insert h p) (fun r p h => ?_) peers
  rw [AList.lookup_empty] at h
  exact nomatch h

/-- A peer is added, whose Raft id no other one has. -/
theorem peersIn_insert (h : Keyed m)
    (hp : ∀ q ∈ peersIn m, raftIdOf p = raftIdOf q → p = q) :
    peersIn (m.insert (raftIdOf p) p) = insert p (peersIn m) := by
  ext q
  rw [(keyed_insert h p).mem_iff, Finset.mem_insert]
  by_cases hr : raftIdOf q = raftIdOf p
  · rw [hr, AList.lookup_insert]
    constructor
    · exact fun hq => Or.inl (Option.some.inj hq).symm
    · intro hq
      rcases hq with rfl | hq
      · rfl
      · rw [hp q hq hr.symm]
  · rw [AList.lookup_insert_ne hr, ← h.mem_iff]
    constructor
    · exact Or.inr
    · exact fun hq => hq.resolve_left fun hqp => hr (congrArg raftIdOf hqp)

/-- A peer is removed, whose Raft id no other one has. -/
theorem peersIn_erase (h : Keyed m)
    (hp : ∀ q ∈ peersIn m, raftIdOf p = raftIdOf q → p = q) :
    peersIn (m.erase (raftIdOf p)) = (peersIn m).erase p := by
  ext q
  rw [(keyed_erase h _).mem_iff, Finset.mem_erase]
  by_cases hr : raftIdOf q = raftIdOf p
  · rw [hr, AList.lookup_erase]
    exact iff_of_false (by simp) fun hq => hq.1 (hp q hq.2 hr.symm).symm
  · rw [AList.lookup_erase_ne hr, ← h.mem_iff]
    exact (and_iff_right fun hqp => hr (congrArg raftIdOf hqp)).symm

end

/-! ## What is found -/

/-- Two sets that differ by one peer: one of them has it in addition. -/
theorem insert_of_symmDiff_eq_singleton {s t : Finset PeerId} {p : PeerId}
    (h : symmDiff s t = {p}) : (p ∉ t ∧ s = insert p t) ∨ (p ∉ s ∧ t = insert p s) := by
  have hmem : ∀ q, (q ∈ s ∧ q ∉ t ∨ q ∈ t ∧ q ∉ s) ↔ q = p := by
    intro q
    rw [← Finset.mem_symmDiff, h, Finset.mem_singleton]
  have hsame : ∀ q, q ≠ p → (q ∈ s ↔ q ∈ t) := by
    intro q hq
    have := (hmem q).not.mpr hq
    tauto
  rcases (hmem p).mpr rfl with hp | hp
  · refine Or.inl ⟨hp.2, ?_⟩
    ext q
    by_cases hq : q = p
    · simp [hq, hp.1]
    · simp [hq, hsame q hq]
  · refine Or.inr ⟨hp.2, ?_⟩
    ext q
    by_cases hq : q = p
    · simp [hq, hp.1]
    · simp [hq, hsame q hq]

namespace Node

/-- What `check_for_conf_change` makes of the setting and the peers of the map. -/
inductive Found (peers oldPeers : Finset PeerId) : Except Panic (Option ConfChange) → Prop
  | same (h : peers = oldPeers) : Found peers oldPeers (.ok none)
  | add (p : PeerId) (hp : p ∉ oldPeers) (h : peers = insert p oldPeers) :
      Found peers oldPeers
        (.ok (some { changeType := .AddNode, nodeId := raftIdOf p, context := p }))
  | remove (p : PeerId) (hp : p ∉ peers) (h : oldPeers = insert p peers) :
      Found peers oldPeers (.ok (some { changeType := .RemoveNode, nodeId := raftIdOf p }))
  | many (h : 2 ≤ (symmDiff peers oldPeers).card) :
      Found peers oldPeers (.error .manyMembershipChanges)

theorem symmDiff_insert {s : Finset PeerId} {p : PeerId} (hp : p ∉ s) :
    symmDiff (insert p s) s = {p} := by
  rw [symmDiff_of_ge (Finset.subset_insert p s), Finset.insert_sdiff_of_notMem _ hp, sdiff_self]
  rfl

section
variable {peers oldPeers : Finset PeerId} {r : Except Panic (Option ConfChange)}

theorem Found.none_iff (h : Found peers oldPeers r) : r = .ok none ↔ peers = oldPeers := by
  cases h with
  | same h => exact iff_of_true rfl h
  | add p hp h =>
    refine iff_of_false (by simp) fun heq => hp ?_
    rw [← heq, h]
    exact Finset.mem_insert_self ..
  | remove p hp h =>
    refine iff_of_false (by simp) fun heq => hp ?_
    rw [heq, h]
    exact Finset.mem_insert_self ..
  | many h =>
    refine iff_of_false (by simp) fun heq => ?_
    rw [heq, symmDiff_self] at h
    exact absurd h (by decide)

theorem Found.error_iff (h : Found peers oldPeers r) :
    (∃ p, r = .error p) ↔ 2 ≤ (symmDiff peers oldPeers).card := by
  cases h with
  | same h =>
    refine iff_of_false (by simp) ?_
    rw [h, symmDiff_self]
    decide
  | add p hp h =>
    refine iff_of_false (by simp) ?_
    rw [h, symmDiff_insert hp, Finset.card_singleton]
    decide
  | remove p hp h =>
    refine iff_of_false (by simp) ?_
    rw [h, symmDiff_comm, symmDiff_insert hp, Finset.card_singleton]
    decide
  | many h => exact iff_of_true ⟨_, rfl⟩ h

end

theorem confChangeBetween_found {peers oldPeers : List PeerId}
    (hlong : ∀ p, p ∈ peers ∨ p ∈ oldPeers → 8 ≤ p.length) :
    Found peers.toFinset oldPeers.toFinset (confChangeBetween peers oldPeers) := by
  obtain ⟨hset, hcard⟩ := difference_spec peers oldPeers
  unfold confChangeBetween
  dsimp only
  split
  next hnil =>
    rw [hnil] at hset
    exact .same (symmDiff_eq_bot.mp hset.symm)
  next p hone =>
    rw [hone] at hset
    have hsize := insert_of_symmDiff_eq_singleton hset.symm
    have hp : 8 ≤ p.length := by
      refine hlong p ?_
      rcases hsize with ⟨-, h⟩ | ⟨-, h⟩
      · exact Or.inl (List.mem_toFinset.mp (h ▸ Finset.mem_insert_self ..))
      · exact Or.inr (List.mem_toFinset.mp (h ▸ Finset.mem_insert_self ..))
    rw [peerIdToRaftId_eq hp]
    rw [← List.card_toFinset, ← List.card_toFinset]
    -- the kind of the change is told from the sizes
    rcases hsize with ⟨hnot, h⟩ | ⟨hnot, h⟩
    · have hlt : peers.toFinset.card > oldPeers.toFinset.card := by
        rw [h, Finset.card_insert_of_notMem hnot]
        exact Nat.lt_succ_self _
      show Found _ _ (if _ then _ else _)
      rw [if_pos hlt]
      exact .add p hnot h
    · have hlt : peers.toFinset.card < oldPeers.toFinset.card := by
        rw [h, Finset.card_insert_of_notMem hnot]
        exact Nat.lt_succ_self _
      show Found _ _ (if _ then _ else if _ then _ else _)
      rw [if_neg (Nat.lt_asymm hlt), if_pos hlt]
      exact .remove p hnot h
  next hmany =>
    rw [hmany] at hcard
    refine .many ?_
    rw [hcard]
    simp

section
variable {S : Type} {n : Node S} {peers : Finset PeerId} {change : ConfChange}

/-- The peers that a check has to do with. -/
def involved (n : Node S) (peers : Finset PeerId) : Finset PeerId :=
  insert n.peerId (peers ∪ peersIn n.raftIdToPeerId)

/-! ## What is made of it -/

/-- The map of peers is what the setting says. -/
def Follows (peers : Finset PeerId) (n : Node S) : Prop :=
  Keyed n.raftIdToPeerId ∧ peersIn n.raftIdToPeerId = peers

theorem applyConfChange_add (hty : change.changeType = .AddNode) :
    applyConfChange change n = .ok .Continue (Node.add { n with
      raftIdToPeerId := n.raftIdToPeerId.insert change.nodeId change.context }
      (.applyConfChange change)) := by
  rw [applyConfChange_eq, updatePeers_add hty]

/-- A change that adds a node can be made twice. -/
theorem applyConfChange_twice (hty : change.changeType = .AddNode) {n' : Node S}
    (h : applyConfChange change n = .ok .Continue n') :
    ∃ n'', applyConfChange change n' = .ok .Continue n'' ∧
      n''.raftIdToPeerId = n'.raftIdToPeerId := by
  rw [applyConfChange_add hty] at h
  obtain rfl := (EStateM.Result.ok.inj h).2
  exact ⟨_, applyConfChange_add hty, AList.insert_insert _⟩

/-- The change that was found makes the map what the setting says, or shuts
down the node that it removes. -/
theorem applyConfChange_found (hkeyed : Keyed n.raftIdToPeerId)
    (haddr : Addressed (involved n peers))
    (h : Found peers (peersIn n.raftIdToPeerId) (.ok (some change))) :
    (change.Removes n.peerId ↔ n.peerId ∈ peersIn n.raftIdToPeerId ∧ n.peerId ∉ peers) ∧
    (change.Removes n.peerId → ∃ n', applyConfChange change n = .ok .Shutdown n') ∧
    (¬ change.Removes n.peerId →
      ∃ n', applyConfChange change n = .ok .Continue n' ∧ Follows peers n') := by
  have hown : n.peerId ∈ involved n peers := Finset.mem_insert_self ..
  have hpeers : ∀ {p}, p ∈ peers → p ∈ involved n peers := fun hp =>
    Finset.mem_insert_of_mem (Finset.mem_union_left _ hp)
  have hold : ∀ {p}, p ∈ peersIn n.raftIdToPeerId → p ∈ involved n peers := fun hp =>
    Finset.mem_insert_of_mem (Finset.mem_union_right _ hp)
  cases h with
  | add p hp h =>
    have hmem : p ∈ involved n peers := hpeers (h ▸ Finset.mem_insert_self ..)
    have hnot : ¬ ConfChange.Removes
        { changeType := .AddNode, nodeId := raftIdOf p, context := p } n.peerId :=
      fun hr => nomatch hr.1
    refine ⟨iff_of_false hnot fun hn => hn.2 ?_, fun hr => absurd hr hnot,
      fun _ => ⟨_, applyConfChange_add rfl, keyed_insert hkeyed p, ?_⟩⟩
    · rw [h]
      exact Finset.mem_insert_of_mem hn.1
    · rw [h]
      exact peersIn_insert hkeyed fun q hq => haddr.distinct p hmem q (hold hq)
  | remove p hp h =>
    have hin : p ∈ peersIn n.raftIdToPeerId := h ▸ Finset.mem_insert_self ..
    have happly : updatePeers { changeType := .RemoveNode, nodeId := raftIdOf p } n = _ :=
      updatePeers_remove rfl (haddr.long n.peerId hown)
    by_cases hself : p = n.peerId
    · subst hself
      refine ⟨iff_of_true ⟨rfl, rfl⟩ ⟨hin, hp⟩, fun _ => ⟨n, ?_⟩, fun hr => absurd ⟨rfl, rfl⟩ hr⟩
      rw [applyConfChange_eq, happly, if_pos rfl]
    · have hid : raftIdOf p ≠ raftIdOf n.peerId := fun hid =>
        hself (haddr.distinct p (hold hin) n.peerId hown hid)
      rw [if_neg hid, hkeyed.mem_iff.mp hin] at happly
      refine ⟨iff_of_false (fun hr => hid hr.2) fun hn => ?_, fun hr => absurd hr.2 hid,
        fun _ => ⟨_, by rw [applyConfChange_eq, happly], keyed_erase hkeyed _, ?_⟩⟩
      · rw [h] at hn
        exact hn.2 (Finset.mem_of_mem_insert_of_ne hn.1 (Ne.symm hself))
      · show peersIn (n.raftIdToPeerId.erase (raftIdOf p)) = peers
        rw [peersIn_erase hkeyed fun q hq => haddr.distinct p (hold hin) q (hold hq), h,
          Finset.erase_insert hp]

/-! ## The two together -/

variable [Formats] {env : Env} {b : BlockId}

/-- The setting is read and compared with the map. -/
theorem checkForConfChange_eq {settings : Settings} {ps : List PeerId}
    (hsettings : env.getSettings (n.trace ++ [.getSettings b [peersKey]]) b = .ok settings)
    (hpeers : getPeersFromSettings settings = .ok ps) :
    checkForConfChange env b n
      = match confChangeBetween ps (n.raftIdToPeerId.entries.map (·.2)) with
        | .ok change => .ok change (n.add (.getSettings b [peersKey]))
        | .error p => .error p (n.add (.getSettings b [peersKey])) := by
  have hcall : (expectCall .getSettings (.getSettings b [peersKey]) fun t => env.getSettings t b) n
      = .ok settings (n.add (.getSettings b [peersKey])) := by
    have htry : (tryCall (.getSettings b [peersKey]) fun t => env.getSettings t b) n
        = .ok (.ok settings) (n.add (.getSettings b [peersKey])) := by
      rw [← hsettings]
      rfl
    unfold expectCall
    rw [bind_of_ok htry]
    rfl
  unfold checkForConfChange
  rw [bind_of_ok hcall]
  show (do
    let peers ← expect (getPeersFromSettings settings)
    let n ← get
    expect (confChangeBetween peers (n.raftIdToPeerId.entries.map (·.2))) :
      NodeM S (Option ConfChange)) (n.add _) = _
  rw [hpeers]
  show expect (confChangeBetween ps (n.raftIdToPeerId.entries.map (·.2))) (n.add _) = _
  cases confChangeBetween ps (n.raftIdToPeerId.entries.map (·.2)) with
  | ok change => rfl
  | error p => rfl

/-- **The change that is found is the change that is made.** Nothing is found
between equal sets, and sets that differ by two peers or more are too much. A
change that is found makes the map what the setting says, at any node that has
this map, unless it is that node which is removed: it shuts down. To add a node
again changes nothing. -/
theorem conf_change_agrees (env : Env) (b : BlockId) (n : Node S) {settings : Settings}
    {ps : List PeerId}
    (hsettings : env.getSettings (n.trace ++ [.getSettings b [peersKey]]) b = .ok settings)
    (hpeers : getPeersFromSettings settings = .ok ps) (hkeyed : Keyed n.raftIdToPeerId)
    (haddr : Addressed (involved n ps.toFinset)) :
    ((∃ n', checkForConfChange env b n = .ok none n') ↔
      ps.toFinset = peersIn n.raftIdToPeerId) ∧
    ((∃ p n', checkForConfChange env b n = .error p n') ↔
      2 ≤ (symmDiff ps.toFinset (peersIn n.raftIdToPeerId)).card) ∧
    (∀ change n', checkForConfChange env b n = .ok (some change) n' →
      ∀ later : Node S, later.peerId = n.peerId → later.raftIdToPeerId = n.raftIdToPeerId →
        (change.Removes n.peerId ↔
          n.peerId ∈ peersIn n.raftIdToPeerId ∧ n.peerId ∉ ps.toFinset) ∧
        (change.Removes n.peerId → ∃ later', applyConfChange change later = .ok .Shutdown later') ∧
        (¬ change.Removes n.peerId → ∃ later', applyConfChange change later = .ok .Continue later' ∧
          Keyed later'.raftIdToPeerId ∧ peersIn later'.raftIdToPeerId = ps.toFinset)) ∧
    (∀ change (later later' : Node S), change.changeType = .AddNode →
      applyConfChange change later = .ok .Continue later' →
      ∃ later'', applyConfChange change later' = .ok .Continue later'' ∧
        later''.raftIdToPeerId = later'.raftIdToPeerId) := by
  have hfound : Found ps.toFinset (peersIn n.raftIdToPeerId)
      (confChangeBetween ps (n.raftIdToPeerId.entries.map (·.2))) := by
    refine confChangeBetween_found fun p hp => haddr.long p (Finset.mem_insert_of_mem ?_)
    rw [Finset.mem_union, List.mem_toFinset]
    exact hp.imp_right List.mem_toFinset.mpr
  have hcheck := checkForConfChange_eq (b := b) (n := n) hsettings hpeers
  generalize confChangeBetween ps (n.raftIdToPeerId.entries.map (·.2)) = r at hfound hcheck
  refine ⟨?_, ?_, fun change n' h later hid hmap => ?_, fun change later later' hty h =>
    applyConfChange_twice hty h⟩
  · rw [← hfound.none_iff, hcheck]
    cases r with
    | ok found => simp
    | error p => simp
  · rw [← hfound.error_iff, hcheck]
    cases r with
    | ok found => simp
    | error p => simp
  · rw [hcheck] at h
    cases r with
    | ok found =>
      obtain rfl := (EStateM.Result.ok.inj h).1
      unfold involved at haddr
      rw [← hmap] at hfound hkeyed haddr ⊢
      rw [← hid] at haddr ⊢
      exact applyConfChange_found hkeyed haddr hfound
    | error p => exact nomatch h

end

section

open scoped Proto3 PlainFormats

/-- The peers of `twoPeers` and a third one, which is listed twice. -/
def threePeersSetting : Settings := peersSetting
  "[\"0000000000000003\",\"0000000000000002\",\"0000000000000001\",\"0000000000000003\"]"

/-- The third peer is found, and then it is in the map. -/
theorem conf_change_agrees_third : ∃ n n' later : Node FsStorage, ∃ change, twoPeers = .ok n ∧
    checkForConfChange (Env.obliging [8] fun _ => threePeersSetting) [7] n
      = .ok (some change) n' ∧
    applyConfChange change n' = .ok .Continue later ∧
    peersIn later.raftIdToPeerId = {peerOf 1, peerOf 2, peerOf 3} := by
  obtain ⟨n, hn⟩ : ∃ n, twoPeers = .ok n := ⟨_, rfl⟩
  have hpeers : getPeersFromSettings threePeersSetting
      = .ok [peerOf 3, peerOf 2, peerOf 1, peerOf 3] := by decide +kernel
  have hmap : n.raftIdToPeerId = mapOf [peerOf 1, peerOf 2] := new_map hn
  have hown : n.peerId = peerOf 1 := by
    obtain rfl := Except.ok.inj (hn.symm.trans (rfl : twoPeers = .ok _))
    rfl
  have hinvolved : involved n [peerOf 3, peerOf 2, peerOf 1, peerOf 3].toFinset
      = {peerOf 1, peerOf 2, peerOf 3} := by
    unfold involved
    rw [hmap, hown]
    decide +kernel
  obtain ⟨-, -, hchange, -⟩ := conf_change_agrees
    (Env.obliging [8] fun _ => threePeersSetting) [7] n rfl hpeers (hmap ▸ keyed_mapOf _)
    (hinvolved ▸ ⟨by decide +kernel, by decide +kernel⟩)
  have hcheck : checkForConfChange (Env.obliging [8] fun _ => threePeersSetting) [7] n
      = .ok (some addition) (n.add (.getSettings [7] [peersKey])) := by
    rw [checkForConfChange_eq rfl hpeers, hmap, show confChangeBetween _ _ = .ok (some addition)
      from by decide +kernel]
  obtain ⟨-, -, hcontinue⟩ := hchange addition _ hcheck (n.add _) rfl rfl
  obtain ⟨later, hlater, -, hin⟩ := hcontinue fun hr => nomatch hr.1
  refine ⟨n, _, later, addition, hn, hcheck, hlater, hin.trans ?_⟩
  decide +kernel

end

end Node

end SawtoothRaft
