import SawtoothRaft.Node.Run
import SawtoothRaft.Storage.FsSpec

/-!
# Opening the store, and starting the engine on it

`with_data_dir` initialises a directory in which the hard state or the
snapshot is missing, and leaves any other alone. It may be cut off half-way,
in which case the next opening starts over. `Disk i d` is what one can rely
on about a directory at any time: its applied index is `i`, and either the
Raft state is all there, so that opening does nothing, or nothing but
initial writes has happened.
-/

namespace SawtoothRaft

open Lib

/-! ## The directory at any time -/

/-- Both files that make up the Raft state are there. -/
def Present (d : Dir) : Prop := (d .hardstate).isSome ∧ (d .snapshot).isSome

/-- The file `applied` says `i`, or does not exist and `i` is 0. -/
def AppliedIs (d : Dir) (i : Nat) : Prop :=
  d .applied = some (u64ToBytes i) ∨ d .applied = none ∧ i = 0

section
variable [Protobuf]

/-- The hard state has never been changed. -/
def Untouched (d : Dir) : Prop :=
  d .hardstate = none ∨ d .hardstate = some (Protobuf.hardState.writeToBytes default)

/-- The directory of a store whose applied index is `i`. Its first opening may
not have been completed. -/
def Disk (i : Nat) (d : Dir) : Prop :=
  AppliedIs d i ∧ (Present d ∨ i = 0 ∧ Untouched d)

/-- Only a missing file makes the store initialise itself. -/
theorem not_missing_of_present {d : Dir} (h : Present d) :
    FsStorage.readRaftState d ≠ .error .NotFound := by
  obtain ⟨hhs, hsnap⟩ := h
  obtain ⟨b, hb⟩ := Option.isSome_iff_exists.mp hhs
  obtain ⟨b', hb'⟩ := Option.isSome_iff_exists.mp hsnap
  -- a file that cannot be parsed is another kind of error
  have hread : ∀ {α : Type} [Inhabited α] (codec : Codec α) {name : FileName} {b : Bytes},
      d name = some b → readPbFromFile codec d name ≠ .error .NotFound := by
    intro α _ codec name b hname
    simp only [readPbFromFile, fsRead, hname, bind, Except.bind]
    cases codec.parseFromBytes b with
    | some m => intro h; cases h
    | none => intro h; cases h
  have hhs' := hread Protobuf.hardState hb
  have hsnap' := hread Protobuf.snapshot hb'
  unfold FsStorage.readRaftState FsStorage.readConfState FsStorage.readHardState
    FsStorage.readSnapshot
  cases hh : readPbFromFile Protobuf.hardState d .hardstate with
  | error k =>
    rw [hh] at hhs'
    intro h
    exact hhs' (by injection h with h; rw [h])
  | ok hs =>
    cases hs' : readPbFromFile Protobuf.snapshot d .snapshot with
    | error k =>
      rw [hs'] at hsnap'
      intro h
      exact hsnap' (by injection h with h; rw [h])
    | ok s => intro h; cases h

theorem present_of_not_missing {d : Dir} (h : Untouched d)
    (hread : FsStorage.readRaftState d ≠ .error .NotFound) : Present d := by
  have hhs : d .hardstate = some (Protobuf.hardState.writeToBytes default) := by
    rcases h with h | h
    · refine absurd ?_ hread
      unfold FsStorage.readRaftState FsStorage.readHardState readPbFromFile fsRead
      rw [h]
      rfl
    · exact h
  refine ⟨by rw [hhs]; rfl, ?_⟩
  by_contra hsnap
  rw [Option.not_isSome_iff_eq_none] at hsnap
  refine hread ?_
  have hok : FsStorage.readHardState d = .ok default := readPb_of_eq hhs
  have hmissing : FsStorage.readSnapshot d = .error .NotFound := by
    unfold FsStorage.readSnapshot readPbFromFile fsRead
    rw [hsnap]
    rfl
  unfold FsStorage.readRaftState FsStorage.readConfState
  rw [hok, hmissing]
  rfl

/-- Opening initialises the directory, or does nothing. -/
theorem createStorage_ops {C : Type → Type} [LruCache cacheSize C] (d : Dir) :
    (createStorage (C := C) d).store.storage.dir = replay d (createStorage (C := C) d).ops ∧
    (FsStorage.readRaftState d = .error .NotFound ∧
        (createStorage (C := C) d).ops = FsStorage.initOps ∨
      FsStorage.readRaftState d ≠ .error .NotFound ∧ (createStorage (C := C) d).ops = []) := by
  by_cases h : FsStorage.readRaftState d = .error .NotFound
  · have hrun := @FsStorage.withDataDir_of_missing _ { dir := d, ops := [] } h
    have hcall : FsStorage.call (FsStorage.ioResult FsStorage.withDataDir) ⟨d⟩
        = { result := .ok (), store := ⟨replay d FsStorage.initOps⟩, ops := FsStorage.initOps } := by
      unfold FsStorage.call
      rw [FsStorage.ioResult_of_ok hrun]
      rfl
    unfold createStorage
    rw [hcall]
    exact ⟨rfl, Or.inl ⟨h, rfl⟩⟩
  · have hrun := @FsStorage.withDataDir_of_not_missing _ { dir := d, ops := [] } h
    have hcall : FsStorage.call (FsStorage.ioResult FsStorage.withDataDir) ⟨d⟩
        = { result := .ok (), store := ⟨d⟩, ops := [] } := by
      unfold FsStorage.call
      rw [FsStorage.ioResult_of_ok hrun]
    unfold createStorage
    rw [hcall]
    exact ⟨rfl, Or.inr ⟨h, rfl⟩⟩

/-- Some of the initial writes leave a directory on which nothing has been
settled. -/
theorem disk_initOps {ops : List FileOp} (hops : ∀ op ∈ ops, op ∈ FsStorage.initOps) :
    ∀ {d : Dir}, AppliedIs d 0 → Untouched d →
      AppliedIs (replay d ops) 0 ∧ Untouched (replay d ops) := by
  induction ops with
  | nil => exact fun ha hu => ⟨ha, hu⟩
  | cons op ops ih =>
    intro d ha hu
    obtain ⟨hop, hops⟩ := List.forall_mem_cons.mp hops
    rw [replay_cons]
    refine ih hops ?_ ?_
    -- of the initial writes, one each goes to the two files
    · by_cases hname : op.name = .applied
      · obtain rfl : op = .write .applied (u64ToBytes 0) := by
          simp only [FsStorage.initOps, List.mem_cons, List.not_mem_nil, or_false] at hop
          rcases hop with rfl | rfl | rfl | rfl | rfl | rfl <;> simp_all [FileOp.name]
        exact Or.inl (apply_write_self ..)
      · unfold AppliedIs
        rw [apply_of_ne hname]
        exact ha
    · by_cases hname : op.name = .hardstate
      · obtain rfl : op = .write .hardstate (Protobuf.hardState.writeToBytes default) := by
          simp only [FsStorage.initOps, List.mem_cons, List.not_mem_nil, or_false] at hop
          rcases hop with rfl | rfl | rfl | rfl | rfl | rfl <;> simp_all [FileOp.name]
        exact Or.inr (apply_write_self ..)
      · unfold Untouched
        rw [apply_of_ne hname]
        exact hu

/-- A crash while the store is being opened. -/
theorem Disk.opening {C : Type → Type} [LruCache cacheSize C] {i : Nat} {d : Dir}
    (h : Disk i d) (k : Nat) :
    Disk i (replay d ((createStorage (C := C) d).ops.take k)) := by
  rcases (createStorage_ops (C := C) d).2 with ⟨hmissing, hops⟩ | ⟨-, hops⟩
  · obtain ⟨happlied, hpresent | ⟨rfl, hunt⟩⟩ := h
    -- a complete directory is not initialised again
    · exact absurd hmissing (not_missing_of_present hpresent)
    · rw [hops]
      obtain ⟨ha, hu⟩ := disk_initOps (fun op hop => List.mem_of_mem_take hop) happlied hunt
      exact ⟨ha, Or.inr ⟨rfl, hu⟩⟩
  · rw [hops, List.take_nil]
    exact h

/-- Once the store has been opened, nothing is missing. -/
theorem Disk.opened {C : Type → Type} [LruCache cacheSize C] {i : Nat} {d : Dir}
    (h : Disk i d) :
    AppliedIs (replay d (createStorage (C := C) d).ops) i ∧
      Present (replay d (createStorage (C := C) d).ops) := by
  have happlied := (h.opening (C := C) (createStorage (C := C) d).ops.length).1
  rw [List.take_length] at happlied
  refine ⟨happlied, ?_⟩
  rcases (createStorage_ops (C := C) d).2 with ⟨-, hops⟩ | ⟨hread, hops⟩
  · rw [hops]
    exact ⟨rfl, rfl⟩
  · rw [hops]
    rcases h.2 with h | ⟨-, h⟩
    · exact h
    · exact present_of_not_missing h hread

end

/-- The files of the Raft state stay when nothing but entries is removed. -/
theorem Present.replay {ops : List FileOp}
    (hops : ∀ op ∈ ops, ∀ name, op = .remove name → ∃ i, name = .entry i) {d : Dir}
    (h : Present d) : Present (replay d ops) := by
  have hkeep : ∀ op : FileOp, (∀ name, op = .remove name → ∃ i, name = .entry i) →
      ∀ name (d : Dir), (∀ i, name ≠ .entry i) → (d name).isSome → (op.apply d name).isSome := by
    intro op hop name d hname hd
    by_cases heq : op.name = name
    · cases op with
      | write name' b =>
        obtain rfl : name' = name := heq
        rw [apply_write_self]
        rfl
      | remove name' =>
        obtain rfl : name' = name := heq
        obtain ⟨i, hi⟩ := hop _ rfl
        exact absurd hi (hname i)
    · rw [apply_of_ne heq]
      exact hd
  induction ops generalizing d with
  | nil => exact h
  | cons op ops ih =>
    obtain ⟨hop, hops⟩ := List.forall_mem_cons.mp hops
    refine ih hops ⟨?_, ?_⟩
    · exact hkeep op hop .hardstate d (by simp) h.1
    · exact hkeep op hop .snapshot d (by simp) h.2

/-- The index read at the start is that of the last block settled. -/
theorem AppliedIs.eq_of_read {d : Dir} {i j : Nat} (h : AppliedIs d i) (hi : i < 2 ^ 64)
    (hread : FsStorage.readApplied d = .ok j) : j = i := by
  rcases h with h | ⟨h, -⟩
  · exact Except.ok.inj (hread.symm.trans (readU64_of_eq h hi))
  · unfold FsStorage.readApplied readU64FromFile fsRead at hread
    rw [h] at hread
    exact nomatch hread

/-! ## Starting -/

section
variable [Protobuf] {C : Type → Type} [LruCache cacheSize C]

/-- `applied` reads the file behind the cache. -/
theorem applied_eq (storage : CachedStorage C FsStorage) : StorageExt.applied storage =
    { result := ((FsStorage.readApplied storage.storage.dir).mapError RaftError.Io).mapError .err,
      store := storage, ops := [] } := by
  show CachedStorage.callDown _ (FsStorage.ask _ (FsStorage.applied _)) _ = _
  unfold CachedStorage.callDown FsStorage.ask FsStorage.applied FsStorage.ioQuery
  cases FsStorage.readApplied storage.storage.dir with
  | error k => rfl
  | ok i => rfl

theorem raftEngineConfig_eq_ok {raftDefault : RaftConfig} {storage : CachedStorage C FsStorage}
    {cfg : RaftEngineConfig (CachedStorage C FsStorage)}
    (h : RaftEngineConfig.new raftDefault storage = .ok cfg) :
    FsStorage.readApplied storage.storage.dir = .ok cfg.raft.applied ∧ cfg.storage = storage := by
  unfold RaftEngineConfig.new at h
  rw [applied_eq] at h
  cases hread : FsStorage.readApplied storage.storage.dir with
  | error k => rw [hread] at h; exact nomatch h
  | ok i =>
    rw [hread] at h
    obtain rfl := Except.ok.inj h
    exact ⟨rfl, rfl⟩

omit [Protobuf] in
theorem length_of_peerIdToRaftId {peerId : PeerId} {id : Nat} (h : peerIdToRaftId peerId = .ok id) :
    8 ≤ peerId.length ∧ raftIdOf peerId = id := by
  unfold peerIdToRaftId at h
  split at h
  next hlen => exact ⟨hlen, Except.ok.inj h⟩
  next => exact nomatch h

variable [Formats]

/-- The configuration starts Raft at the index on disk, with the peers of the
setting. -/
theorem loadRaftConfig_eq_ok {raftDefault : RaftConfig} {storage : CachedStorage C FsStorage}
    {peerId : PeerId} {settings : Except ServiceError Settings}
    {cfg : RaftEngineConfig (CachedStorage C FsStorage)}
    (h : loadRaftConfig raftDefault storage peerId settings = .ok cfg) :
    FsStorage.readApplied storage.storage.dir = .ok cfg.raft.applied ∧ cfg.storage = storage ∧
      8 ≤ peerId.length ∧ ∃ s, settings = .ok s ∧ getPeersFromSettings s = .ok cfg.peers := by
  obtain ⟨config, hconfig, h⟩ := bind_eq_ok.mp h
  obtain ⟨id, hid, h⟩ := bind_eq_ok.mp h
  cases settings with
  | error err => exact nomatch h
  | ok s =>
    obtain ⟨peers, hpeers, h⟩ := bind_eq_ok.mp h
    obtain ⟨ids, -, h⟩ := bind_eq_ok.mp h
    obtain rfl := Except.ok.inj h
    obtain ⟨hread, hstorage⟩ := raftEngineConfig_eq_ok hconfig
    exact ⟨hread, hstorage, (length_of_peerIdToRaftId hid).1, s, rfl, hpeers⟩

/-- What the engine starts with. -/
structure Started (C : Type → Type) [LruCache cacheSize C] (d : Dir) (peerId : PeerId)
    (peers : List PeerId) (node : Node (CachedStorage C FsStorage)) (applied : Nat) : Prop where
  dir : node.store.storage.dir = replay d (createStorage (C := C) d).ops
  applied : FsStorage.readApplied (replay d (createStorage (C := C) d).ops) = .ok applied
  length : 8 ≤ peerId.length
  new : ∃ period, Node.new peerId node.store peers period [] = .ok node

theorem startEngine_eq_ok {raftDefault : RaftConfig} {d : Dir} {peerId : PeerId}
    {settings : Except ServiceError Settings} {node : Node (CachedStorage C FsStorage)}
    {applied : Nat} (h : startEngine C raftDefault d peerId settings = .ok (node, applied)) :
    ∃ s peers, settings = .ok s ∧ getPeersFromSettings s = .ok peers ∧
      Started C d peerId peers node applied := by
  obtain ⟨cfg, hcfg, h⟩ := bind_eq_ok.mp h
  obtain ⟨n, hnew, h⟩ := bind_eq_ok.mp h
  obtain ⟨rfl, rfl⟩ := Prod.mk.inj (Except.ok.inj h)
  obtain ⟨hread, hstorage, hlen, s, hs, hpeers⟩ := loadRaftConfig_eq_ok hcfg
  rw [(createStorage_ops d).1] at hread
  have hstore : n.store = cfg.storage := by
    obtain ⟨_, rfl⟩ := Node.new_eq hnew
    rfl
  refine ⟨s, cfg.peers, hs, hpeers, ?_, hread, hlen, cfg.period, ?_⟩
  · rw [hstore, hstorage]
    exact (createStorage_ops d).1
  · rw [hstore]
    exact hnew

omit [Formats] in
theorem Started.isNew {d : Dir} {peerId : PeerId} {peers : List PeerId}
    {node : Node (CachedStorage C FsStorage)} {applied : Nat}
    (h : Started C d peerId peers node applied) : Sys.IsNew node ∧ node.trace = [] := by
  obtain ⟨period, hnew⟩ := h.new
  refine ⟨⟨_, _, _, _, [], hnew⟩, ?_⟩
  obtain ⟨_, hnode⟩ := Node.new_eq hnew
  rw [hnode]

end

end SawtoothRaft
