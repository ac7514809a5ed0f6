import SawtoothRaft.Node.Membership

/-!
# The members the log makes

Two things say who is a member: the setting on the chain, which a committed
block changes at once, and the configuration entries of the log, which take
effect when they are delivered. `configured` follows the log alone. A running
node keeps to it (`run_asLogged`): its map of peers is the one it started with,
changed by the entries delivered to it, and nothing else.

A restarted node starts from the setting at the chain head instead, and is
given the entries beyond the applied index again. They mend the map where they
name a node, and nowhere else. So it ends with the members of the log exactly
if the setting agrees with the log, up to the applied index, about all the
others (`restart_follows_log_iff`). A leader that stops after it has confirmed
a block, and before the change that follows from it is committed, comes back
with a member that the log does not know (`restart_adds_uncommitted`).
-/

namespace SawtoothRaft

open Lib

section
variable [Protobuf]

/-- The change that an entry carries, if it is carried out. -/
def changeOf (e : Entry) : Option ConfChange :=
  if Node.IsChange e then Protobuf.confChange.parseFromBytes e.data else none

/-- What an entry does to the map of peers. -/
def reconfigure (m : AList fun _ : Nat => PeerId) (e : Entry) : AList fun _ : Nat => PeerId :=
  match changeOf e with
  | none => m
  | some change =>
    match change.changeType with
    | .AddNode => m.insert change.nodeId change.context
    | .RemoveNode => m.erase change.nodeId
    | .AddLearnerNode => m

/-- The members that the entries make of those in `m`. -/
def configured (m : AList fun _ : Nat => PeerId) (es : List Entry) : AList fun _ : Nat => PeerId :=
  es.foldl reconfigure m

/-- What an entry does to a set of Raft ids. -/
def reconfigureIds (ids : Finset Nat) (e : Entry) : Finset Nat :=
  match changeOf e with
  | none => ids
  | some change =>
    match change.changeType with
    | .AddNode => insert change.nodeId ids
    | .RemoveNode => ids.erase change.nodeId
    | .AddLearnerNode => ids

/-- The same for the ids that Raft itself is given. -/
def configuredIds (ids : Finset Nat) (es : List Entry) : Finset Nat := es.foldl reconfigureIds ids

/-- The node that an entry adds or removes. -/
def namedBy (e : Entry) : Option Nat :=
  match changeOf e with
  | none => none
  | some change =>
    match change.changeType with
    | .AddNode | .RemoveNode => some change.nodeId
    | .AddLearnerNode => none

end

/-- The entries up to an index. -/
def CommittedLog.upTo (log : CommittedLog) (applied : Nat) : List Entry :=
  log.entries.filter fun e => decide (e.index ≤ applied)

/-- The index cuts the log in two. -/
theorem CommittedLog.upTo_append_after (log : CommittedLog) (applied : Nat) :
    log.upTo applied ++ log.after applied = log.entries := by
  unfold upTo after
  have hinc := log.increasing
  generalize log.entries = entries at hinc ⊢
  induction entries with
  | nil => rfl
  | cons e es ih =>
    obtain ⟨he, hinc⟩ := List.pairwise_cons.mp hinc
    by_cases h : e.index ≤ applied
    · rw [List.filter_cons_of_pos (by simpa using h),
        List.filter_cons_of_neg (by simpa using h), List.cons_append, ih hinc]
    -- from here on all indices are beyond it
    · have hnone : es.filter (fun e => decide (e.index ≤ applied)) = [] := by
        refine List.filter_eq_nil_iff.mpr fun e' he' => ?_
        have := he e' he'
        simp only [decide_eq_true_eq]
        omega
      rw [List.filter_cons_of_neg (by simpa using h), List.filter_cons_of_pos (by simpa using h),
        hnone, List.nil_append]
      have hrest := ih hinc
      rw [hnone, List.nil_append] at hrest
      rw [hrest]

namespace Node

/-! ## What the entries do to the map -/

section
variable [Protobuf] {m m' : AList fun _ : Nat => PeerId} {e : Entry} {es : List Entry} {r : Nat}

theorem lookup_reconfigure_of_named (h : namedBy e = some r) :
    (reconfigure m e).lookup r = (reconfigure m' e).lookup r := by
  unfold namedBy at h
  unfold reconfigure
  cases hc : changeOf e with
  | none => rw [hc] at h; exact nomatch h
  | some change =>
    rw [hc] at h
    dsimp only at h ⊢
    cases hty : change.changeType with
    | AddNode =>
      rw [hty] at h
      obtain rfl := Option.some.inj h
      rw [AList.lookup_insert, AList.lookup_insert]
    | RemoveNode =>
      rw [hty] at h
      obtain rfl := Option.some.inj h
      rw [AList.lookup_erase, AList.lookup_erase]
    | AddLearnerNode => rw [hty] at h; exact nomatch h

theorem lookup_reconfigure_of_ne (h : namedBy e ≠ some r) :
    (reconfigure m e).lookup r = m.lookup r := by
  unfold namedBy at h
  unfold reconfigure
  cases hc : changeOf e with
  | none => rfl
  | some change =>
    rw [hc] at h
    dsimp only at h ⊢
    cases hty : change.changeType with
    | AddNode =>
      rw [hty] at h
      exact AList.lookup_insert_ne fun hr => h (congrArg some hr.symm)
    | RemoveNode =>
      rw [hty] at h
      exact AList.lookup_erase_ne fun hr => h (congrArg some hr.symm)
    | AddLearnerNode => rfl

theorem lookup_configured_of_ne (h : ∀ e ∈ es, namedBy e ≠ some r) :
    (configured m es).lookup r = m.lookup r := by
  induction es generalizing m with
  | nil => rfl
  | cons e es ih =>
    obtain ⟨he, hes⟩ := List.forall_mem_cons.mp h
    exact (ih hes).trans (lookup_reconfigure_of_ne he)

/-- From where they agree about a node, two maps go on to agree about it. -/
theorem lookup_configured_congr (h : m.lookup r = m'.lookup r) :
    (configured m es).lookup r = (configured m' es).lookup r := by
  induction es generalizing m m' with
  | nil => exact h
  | cons e es ih =>
    refine ih ?_
    by_cases he : namedBy e = some r
    · exact lookup_reconfigure_of_named he
    · rw [lookup_reconfigure_of_ne he, lookup_reconfigure_of_ne he, h]

/-- Once a node has been named, it does not matter what the map was. -/
theorem lookup_configured_of_named (h : ∃ e ∈ es, namedBy e = some r) :
    (configured m es).lookup r = (configured m' es).lookup r := by
  induction es generalizing m m' with
  | nil =>
    obtain ⟨e, he, -⟩ := h
    exact absurd he List.not_mem_nil
  | cons e es ih =>
    by_cases hhead : namedBy e = some r
    · show (configured (reconfigure m e) es).lookup r = (configured (reconfigure m' e) es).lookup r
      exact lookup_configured_congr (lookup_reconfigure_of_named hhead)
    · obtain ⟨e', he', hnamed⟩ := h
      rcases List.mem_cons.mp he' with rfl | he'
      · exact absurd hnamed hhead
      · exact ih ⟨e', he', hnamed⟩

/-- The entries make the same of two maps, exactly if these agree about all the
nodes that the entries do not name. -/
theorem configured_agree_iff :
    (∀ r, (configured m es).lookup r = (configured m' es).lookup r) ↔
      ∀ r, (∀ e ∈ es, namedBy e ≠ some r) → m.lookup r = m'.lookup r := by
  constructor
  · intro h r hr
    rw [← lookup_configured_of_ne (m := m) hr, ← lookup_configured_of_ne (m := m') hr, h]
  · intro h r
    by_cases hr : ∃ e ∈ es, namedBy e = some r
    · exact lookup_configured_of_named hr
    · refine lookup_configured_congr (h r fun e he hnamed => hr ⟨e, he, hnamed⟩)

theorem keys_reconfigure (m : AList fun _ : Nat => PeerId) (e : Entry) :
    (reconfigure m e).keys.toFinset = reconfigureIds m.keys.toFinset e := by
  unfold reconfigure reconfigureIds
  cases changeOf e with
  | none => rfl
  | some change =>
    dsimp only
    cases change.changeType with
    | AddNode =>
      ext r
      rw [List.mem_toFinset, Finset.mem_insert, List.mem_toFinset]
      exact AList.mem_insert m
    | RemoveNode =>
      ext r
      rw [List.mem_toFinset, Finset.mem_erase, List.mem_toFinset]
      exact AList.mem_erase
    | AddLearnerNode => rfl

/-- Raft is told of the same members as the map has. -/
theorem keys_configured (m : AList fun _ : Nat => PeerId) (es : List Entry) :
    (configured m es).keys.toFinset = configuredIds m.keys.toFinset es := by
  induction es generalizing m with
  | nil => rfl
  | cons e es ih =>
    refine (ih (reconfigure m e)).trans ?_
    rw [keys_reconfigure]
    rfl

omit [Protobuf] in
theorem keys_eq_of_lookup (h : ∀ r, m.lookup r = m'.lookup r) :
    m.keys.toFinset = m'.keys.toFinset := by
  ext r
  rw [List.mem_toFinset, List.mem_toFinset, ← AList.mem_keys, ← AList.mem_keys,
    ← AList.lookup_isSome, ← AList.lookup_isSome, h]

end

/-! ## A running node follows the log -/

variable {S : Type}

/-- The map of peers is what the entries delivered have made of `m`. -/
def AsLogged [Protobuf] (m : AList fun _ : Nat => PeerId) (n : Node S) : Prop :=
  n.raftIdToPeerId = configured m (books n.trace).entries

section
variable [StorageExt S] [Protobuf] {m : AList fun _ : Nat => PeerId}

theorem asLogged_steady (m : AList fun _ : Nat => PeerId) :
    Steady (AsLogged m : Node S → Prop) where
  leader _ _ h := h
  follower _ _ h := h
  queue _ _ h := h
  stored n o _ h := by
    unfold AsLogged
    rw [stored_trace, books_files]
    exact h
  record n o ho h := by
    unfold AsLogged
    rw [add_trace, entries_of_plain ho.ne_entry]
    exact h
  confirmed n i q h := by
    show n.raftIdToPeerId = configured m (books (n.trace ++ [.setApplied i] ++ _)).entries
    rw [books_files, entries_of_plain (by simp)]
    exact h

omit [StorageExt S] in
/-- The map after one more entry. -/
theorem AsLogged.entry {n : Node S} (h : AsLogged m n) (e : Entry) :
    configured m (books (n.add (.entry e)).trace).entries = reconfigure n.raftIdToPeerId e := by
  rw [h, add_trace, books_snoc]
  exact List.foldl_concat ..

omit [StorageExt S] in
theorem reconfigure_of_not_change {n : Node S} {e : Entry} (h : ¬ IsChange e) :
    reconfigure n.raftIdToPeerId e = n.raftIdToPeerId := by
  unfold reconfigure changeOf
  rw [if_neg h]

theorem asLogged_takes (m : AList fun _ : Nat => PeerId) :
    Takes (S := S) (fun _ => AsLogged m) (fun _ => AsLogged m) (fun _ => True)
      (fun _ _ => True) where
  tame _ := (asLogged_steady m).tame
  fails _ := fun _ _ _ _ => trivial
  skip e _ n _ hc h := ((h.entry e).trans (reconfigure_of_not_change hc)).symm
  block e _ n hb h :=
    ((h.entry e).trans (reconfigure_of_not_change fun hc => isChange_not_isBlock hc hb)).symm
  change e _ n change n' hc hparse hp h := by
    have hentry := h.entry e
    unfold reconfigure changeOf at hentry
    rw [if_pos hc, hparse] at hentry
    dsimp only at hentry
    cases hp with
    | add hty => rw [hty] at hentry; exact hentry.symm
    | remove hty => rw [hty] at hentry; exact hentry.symm
    | learner hty => rw [hty] at hentry; exact hentry.symm
  shutdown _ _ _ _ _ _ _ _ := trivial
  unknown _ _ _ _ _ _ _ _ := trivial
  malformed _ _ _ _ _ _ _ := trivial

omit [StorageExt S] in
/-- Nothing has been delivered to a new node. -/
theorem asLogged_of_isNew {node : Node S} (hnew : Sys.IsNew node) :
    AsLogged node.raftIdToPeerId node := by
  obtain ⟨_, _, _, _, ops, hnode⟩ := hnew
  obtain ⟨_, rfl⟩ := new_eq hnode
  unfold AsLogged
  dsimp only
  rw [← List.nil_append (ops.map Obs.file), books_files]
  rfl

/-- **Run**: the map of a running node is the one it started with, changed by
the entries delivered to it. -/
theorem run_asLogged [Formats] {env : Env} {node : Node S} (hnew : Sys.IsNew node)
    {inputs : List Input} (hrun : ((Sys.start node).run env inputs).status = .running) :
    AsLogged node.raftIdToPeerId ((Sys.start node).run env inputs).node := by
  have hstart : AsLogged node.raftIdToPeerId node := asLogged_of_isNew hnew
  have hsat : ((Sys.start node).run env inputs).Sat (AsLogged node.raftIdToPeerId)
      (Halted (fun _ => True) fun _ _ => True) :=
    run_steady (asLogged_steady _) (asLogged_takes _) (fun _ _ => trivial) hnew hstart inputs
  unfold Sys.Sat at hsat
  rwa [hrun] at hsat

end

/-! ## Restarts -/

section
variable [Formats]

/-- Raft is given the ids of the peers that the node is given. -/
theorem ids_of_loadRaftConfig [StorageExt S] {raftDefault : RaftConfig} {storage : S}
    {peerId : PeerId} {settings : Except ServiceError Settings} {cfg : RaftEngineConfig S}
    (h : loadRaftConfig raftDefault storage peerId settings = .ok cfg) :
    cfg.raft.peers = cfg.peers.map raftIdOf := by
  obtain ⟨config, -, h⟩ := bind_eq_ok.mp h
  obtain ⟨id, -, h⟩ := bind_eq_ok.mp h
  cases settings with
  | error err => exact nomatch h
  | ok s =>
    obtain ⟨peers, -, h⟩ := bind_eq_ok.mp h
    obtain ⟨ids, hids, h⟩ := bind_eq_ok.mp h
    obtain rfl := Except.ok.inj h
    exact mapM_eq_ok (fun _ _ hid => (length_of_peerIdToRaftId hid).2.symm) hids

omit [Formats] in
theorem keys_mapOf (peers : List PeerId) :
    (mapOf peers).keys.toFinset = (peers.map raftIdOf).toFinset := by
  ext r
  rw [List.mem_toFinset, List.mem_toFinset]
  exact mem_mapOf r peers

variable [Protobuf] {C : Type → Type} [LruCache cacheSize C]

/-- **A restarted node has the members of the log, exactly if the setting lets
it.** The node is started on any directory, with the peers of the setting at
the chain head, and has taken up the entries beyond the applied index again.
Its map of peers, and the ids that Raft has been given with the same entries,
are what the whole log makes of the peers at the bootstrap, if and only if the
peers of the setting agree with the log up to the applied index about each node
that the entries taken up do not name. -/
theorem restart_follows_log_iff {raftDefault : RaftConfig} {d : Dir} {peerId : PeerId}
    {settings : Settings} {peers : List PeerId} (hpeers : getPeersFromSettings settings = .ok peers)
    {cfg : RaftEngineConfig (CachedStorage C FsStorage)}
    (hcfg : loadRaftConfig raftDefault (createStorage d).store peerId (.ok settings) = .ok cfg)
    {node : Node (CachedStorage C FsStorage)}
    (hnode : Node.new peerId cfg.storage cfg.peers cfg.period [] = .ok node)
    (bootstrap : List PeerId) (log : CommittedLog) (env : Env) (inputs : List Input)
    (hrun : ((Sys.start node).run env inputs).status = .running)
    (hall : (books ((Sys.start node).run env inputs).node.trace).entries
      = log.after cfg.raft.applied) :
    ((∀ r, ((Sys.start node).run env inputs).node.raftIdToPeerId.lookup r
        = (configured (mapOf bootstrap) log.entries).lookup r) ∧
      configuredIds cfg.raft.peers.toFinset (log.after cfg.raft.applied)
        = (configured (mapOf bootstrap) log.entries).keys.toFinset) ↔
    ∀ r, (∀ e ∈ log.after cfg.raft.applied, namedBy e ≠ some r) →
      (mapOf peers).lookup r
        = (configured (mapOf bootstrap) (log.upTo cfg.raft.applied)).lookup r := by
  obtain ⟨-, -, -, s, hs, hpeers'⟩ := loadRaftConfig_eq_ok hcfg
  obtain rfl := Except.ok.inj hs
  obtain rfl := Except.ok.inj (hpeers.symm.trans hpeers')
  have hids := ids_of_loadRaftConfig hcfg
  -- the map is what the entries make of the setting
  have hmap : ((Sys.start node).run env inputs).node.raftIdToPeerId
      = configured (mapOf cfg.peers) (log.after cfg.raft.applied) := by
    have hlogged := run_asLogged ⟨_, _, _, _, [], hnode⟩ hrun
    unfold AsLogged at hlogged
    rw [hlogged, hall, new_map hnode]
  have hlog : configured (mapOf bootstrap) log.entries
      = configured (configured (mapOf bootstrap) (log.upTo cfg.raft.applied))
        (log.after cfg.raft.applied) := by
    unfold configured
    rw [← List.foldl_append, log.upTo_append_after]
  rw [hmap, hlog, hids, ← keys_mapOf, ← keys_configured]
  refine (and_iff_left_of_imp fun h => keys_eq_of_lookup h).trans configured_agree_iff

end

section

open scoped Proto3 PlainFormats

/-- Two peers to begin with; block 7 adds a third and block 8 a fourth. -/
def growing (blockId : BlockId) : Settings := fun key =>
  if key = peersKey then
    some (if blockId = [7] then
        "[\"0000000000000001\",\"0000000000000002\",\"0000000000000003\"]"
      else if blockId = [8] then
        "[\"0000000000000001\",\"0000000000000002\",\"0000000000000003\",\"0000000000000004\"]"
      else "[\"0000000000000001\",\"0000000000000002\"]")
  else if key = "sawtooth.consensus.raft.period" then some "0"
  else none

def addition : ConfChange := { changeType := .AddNode, nodeId := 3, context := peerOf 3 }

/-- Block 7, and the change that follows from it. -/
def additionLog : CommittedLog where
  entries := [{ term := 2, index := 3, data := [7] },
    { entryType := .EntryConfChange, term := 2, index := 4,
      data := Protobuf.confChange.writeToBytes addition }]
  increasing := by decide
  positive := by decide
  u64 := by decide

/-- The leader builds and commits block 7 and proposes the change. -/
def additionSession : List Input :=
  [.processReady (some { isLeader := true }), .tick, .blockNew { blockId := [7] },
    .blockValid [7],
    .processReady (some { isLeader := true, ready :=
      { committedEntries := some (additionLog.entries.take 1) } }),
    .blockCommit [7]]

def additionTrace : List Obs := traceOf (sessionOn growing [] emptyDir additionSession)

/-- The engine of peer 1 starts again on what the leader has left, with the
settings of block 7. -/
def rejoining : Except Panic (RaftEngineConfig (CachedStorage List FsStorage) ×
    Node (CachedStorage List FsStorage)) :=
  letI := listLru cacheSize
  do
    let cfg ← loadRaftConfig {} (createStorage (C := List) (dirAt additionTrace)).store (peerOf 1)
      (.ok (growing [7]))
    let node ← Node.new (peerOf 1) cfg.storage cfg.peers cfg.period []
    pure (cfg, node)

/-- Once the change is committed, it is delivered again after the restart, and
all is well. -/
theorem restart_follows_log_added :
    letI := listLru cacheSize
    ∃ cfg node, rejoining = .ok (cfg, node) ∧
      (∀ r, ((Sys.start node).run (Env.obliging [] growing)
          [.processReady (some (redelivery (additionLog.after 3)))]).node.raftIdToPeerId.lookup r
        = (configured (mapOf [peerOf 1, peerOf 2]) additionLog.entries).lookup r) ∧
      configuredIds cfg.raft.peers.toFinset (additionLog.after cfg.raft.applied)
        = (configured (mapOf [peerOf 1, peerOf 2]) additionLog.entries).keys.toFinset := by
  let _ := listLru cacheSize
  have hpeers : getPeersFromSettings (growing [7]) = .ok [peerOf 1, peerOf 2, peerOf 3] := by
    decide +kernel
  have hresult : rejoining.map (fun p =>
      let s := (Sys.start p.2).run (Env.obliging [] growing)
        [.processReady (some (redelivery (additionLog.after 3)))]
      (p.1.raft.applied, s.status, (books s.node.trace).entries))
      = .ok (3, .running, additionLog.after 3) := by decide +kernel
  cases hp : rejoining with
  | error p => rw [hp] at hresult; exact nomatch hresult
  | ok p =>
    obtain ⟨cfg, node⟩ := p
    rw [hp] at hresult
    obtain ⟨happlied, hrest⟩ := Prod.mk.inj (Except.ok.inj hresult)
    obtain ⟨hrun, hall⟩ := Prod.mk.inj hrest
    obtain ⟨cfg', hcfg, h⟩ := bind_eq_ok.mp hp
    obtain ⟨node', hnode, h⟩ := bind_eq_ok.mp h
    obtain ⟨rfl, rfl⟩ := Prod.mk.inj (Except.ok.inj h)
    refine ⟨cfg', node', rfl, (restart_follows_log_iff hpeers hcfg hnode [peerOf 1, peerOf 2]
      additionLog _ _ hrun (by rw [happlied]; exact hall)).mpr ?_⟩
    rw [happlied]
    intro r hr
    -- node 3 is named, and it is the only difference
    have hne : r ≠ 3 := by
      intro h
      subst h
      obtain ⟨e, he, hnamed⟩ : ∃ e ∈ additionLog.after 3, namedBy e = some 3 := by decide +kernel
      exact hr e he hnamed
    exact AList.lookup_insert_ne hne

/-- The log before the change is committed. -/
def blockLog : CommittedLog where
  entries := additionLog.entries.take 1
  increasing := by decide
  positive := by decide
  u64 := by decide

/-- If the change is not committed, there is nothing to deliver after the
restart: node 3 is a member for Raft and for the node, and no entry has made
it one. -/
theorem restart_adds_uncommitted :
    letI := listLru cacheSize
    Life List blockLog [additionTrace] ∧ .proposeConfChange addition ∈ additionTrace ∧
    (∀ e ∈ blockLog.entries, changeOf e = none) ∧
    ∃ cfg node, rejoining = .ok (cfg, node) ∧
      ((Sys.start node).run (Env.obliging [] growing) []).status = .running ∧
      (books ((Sys.start node).run (Env.obliging [] growing) []).node.trace).entries
        = blockLog.after cfg.raft.applied ∧
      ((Sys.start node).run (Env.obliging [] growing) []).node.raftIdToPeerId.lookup 3
        = some (peerOf 3) ∧
      3 ∈ configuredIds cfg.raft.peers.toFinset (blockLog.after cfg.raft.applied) ∧
      (configured (mapOf [peerOf 1, peerOf 2]) blockLog.entries).lookup 3 = none := by
  let _ := listLru cacheSize
  have hsession : sessionOn growing [] emptyDir additionSession
      = .ok (additionTrace, 0, .running) := by
    decide +kernel
  have hlife : Life List blockLog ([] ++ [additionTrace.take additionTrace.length]) :=
    Life.nil.crash (session_of_sessionOn hsession (by decide +kernel)) _
  rw [List.take_length, List.nil_append] at hlife
  refine ⟨hlife, by decide +kernel, by decide +kernel, ?_⟩
  have hresult : rejoining.map (fun p =>
      (p.1.raft.applied, p.1.raft.peers, (books p.2.trace).entries, p.2.raftIdToPeerId.lookup 3))
      = .ok (3, [1, 2, 3], [], some (peerOf 3)) := by decide +kernel
  cases hp : rejoining with
  | error p => rw [hp] at hresult; exact nomatch hresult
  | ok p =>
    obtain ⟨cfg, node⟩ := p
    rw [hp] at hresult
    obtain ⟨happlied, hrest⟩ := Prod.mk.inj (Except.ok.inj hresult)
    obtain ⟨hids, hrest⟩ := Prod.mk.inj hrest
    obtain ⟨hentries, hlookup⟩ := Prod.mk.inj hrest
    refine ⟨cfg, node, rfl, rfl, ?_, hlookup, ?_, by decide +kernel⟩
    · rw [happlied]
      exact hentries
    · rw [happlied, hids]
      decide +kernel

end

end Node

end SawtoothRaft
