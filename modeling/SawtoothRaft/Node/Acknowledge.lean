import SawtoothRaft.Node.Aloof
import SawtoothRaft.Node.Opening
import SawtoothRaft.Node.Persist
import SawtoothRaft.Storage.Crash

/-!
# Persist before acknowledging

A follower that answers a leader vouches for what is in its store. In
`process_ready` the leader sends its messages before it persists anything, any
other node afterwards; so when a message of such a node goes out, the entries
and the hard state of the round are on disk, and no file changes any more until
the round is over.

`Acked` is this property of the observations of a round so far, with `D` what
the disk has to show once a message is out. For a leader `D` demands nothing,
so that the two orders are covered by the same lemmas.
-/

namespace SawtoothRaft

open Lib FsStorage

/-! ## Messages and hard states of a trace -/

def sendOf : Obs → Option (PeerId × Bytes)
  | .sendTo peerId message => some (peerId, message)
  | _ => none

/-- The messages handed to `send_to`. -/
def sends (t : List Obs) : List (PeerId × Bytes) := t.filterMap sendOf

/-- The messages whose addressee is known, in order. -/
def routed (peers : AList (fun _ : Nat => PeerId)) (messages : List RaftMessage) :
    List (PeerId × Bytes) :=
  messages.filterMap fun msg => (peers.lookup msg.toId).map fun peerId => (peerId, msg.bytes)

def hardStateStep (hs : HardState) : Obs → HardState
  | .ready round => round.ready.hs.getD hs
  | _ => hs

/-- The latest hard state that a `Ready` had, or else the one that was loaded. -/
def latestHardState (loaded : HardState) (t : List Obs) : HardState := t.foldl hardStateStep loaded

/-- The entries of a round are on disk, its last one is the last of the log, and
the hard state is `hs`. -/
structure Durable [Protobuf] (round : Round) (hs : HardState) (d : Dir) : Prop where
  entries : ∀ e ∈ round.ready.entries, readEntry d e.index = .ok e
  last : ∀ e ∈ round.ready.entries.getLast?, readLastIndex d = .ok e.index
  hardState : readHardState d = .ok hs

/-- Each entry of a `Ready` has an index of its own, which is a `u64`. -/
structure Distinct (round : Round) : Prop where
  nodup : (round.ready.entries.map (·.index)).Nodup
  u64 : ∀ e ∈ round.ready.entries, e.index < 2 ^ 64

theorem sends_append (t u : List Obs) : sends (t ++ u) = sends t ++ sends u :=
  List.filterMap_append ..

theorem sends_other {o : Obs} (h : sendOf o = none) : sends [o] = [] := by
  rw [sends, List.filterMap_cons, h]
  rfl

theorem sends_files (ops : List FileOp) : sends (ops.map Obs.file) = [] := by
  refine List.filterMap_eq_nil_iff.mpr fun o ho => ?_
  obtain ⟨op, -, rfl⟩ := List.mem_map.mp ho
  rfl

@[simp] theorem latestHardState_snoc (loaded : HardState) (t : List Obs) (o : Obs) :
    latestHardState loaded (t ++ [o]) = hardStateStep (latestHardState loaded t) o := by
  simp only [latestHardState, List.foldl_append, List.foldl_cons, List.foldl_nil]

theorem latestHardState_files (loaded : HardState) (t : List Obs) (ops : List FileOp) :
    latestHardState loaded (t ++ ops.map Obs.file) = latestHardState loaded t := by
  induction ops generalizing t with
  | nil => rw [List.map_nil, List.append_nil]
  | cons op ops ih =>
    rw [List.map_cons, List.append_cons, ih, latestHardState_snoc]
    rfl

/-! ## What `append` leaves on disk -/

section
variable [Protobuf]

theorem readEntry_of_distinct {d : Dir} {es : List Entry} (h : (es.map (·.index)).Nodup) {e : Entry}
    (he : e ∈ es) : readEntry (replay d (es.map writeEntryOp)) e.index = .ok e := by
  induction es generalizing d with
  | nil => cases he
  | cons x es ih =>
    rw [List.map_cons, List.nodup_cons] at h
    rw [List.map_cons, replay_cons]
    rcases List.mem_cons.mp he with rfl | he
    · -- no later write has this index
      refine readPb_of_eq ?_
      rw [replay_writeEntries_of_ne]
      · exact apply_write_self ..
      · intro y hy hname
        injection hname with hidx
        exact h.1 (List.mem_map.mpr ⟨y, hy, hidx⟩)
    · exact ih h.2 he

theorem append_durable (d : Dir) {round : Round} (h : Distinct round) :
    (∀ e ∈ round.ready.entries,
      readEntry (replay d (appendOps round.ready.entries)) e.index = .ok e) ∧
    ∀ e ∈ round.ready.entries.getLast?,
      readLastIndex (replay d (appendOps round.ready.entries)) = .ok e.index := by
  unfold appendOps
  rw [replay_append]
  refine ⟨fun e he => ?_, fun e he => ?_⟩
  · refine (readPb_congr (replay_of_ne fun op hop => ?_)).trans (readEntry_of_distinct h.nodup he)
    rw [lastOps_name hop]
    simp
  · unfold lastOps
    rw [he]
    exact readU64_of_eq (replay_write_self ..) (h.u64 e (List.mem_of_getLast? he))

end

namespace Node

section
variable {S : Type} {d : Dir} {t₀ : List Obs} {D : Dir → Prop} {sent : List (PeerId × Bytes)}
  {n : Node S}

/-- Since `t₀` the messages `sent` have gone out, and from the first of them on
the disk shows what it should. -/
def Acked (d : Dir) (t₀ : List Obs) (D : Dir → Prop) (sent : List (PeerId × Bytes))
    (n : Node S) : Prop :=
  ∃ u, n.trace = t₀ ++ u ∧ sends u = sent ∧
    ∀ u', u' <+: u → sends u' ≠ [] → D (replay d (fileOps (t₀ ++ u')))

theorem Acked.other (h : Acked d t₀ D sent n) {o : Obs} (hsend : sendOf o = none)
    (hfile : ∀ op, o ≠ .file op) : Acked d t₀ D sent (n.add o) := by
  obtain ⟨u, ht, hu, hD⟩ := h
  have hsends : sends (u ++ [o]) = sends u := by
    rw [sends_append, sends_other hsend, List.append_nil]
  refine ⟨u ++ [o], by rw [add_trace, ht, List.append_assoc], hsends.trans hu, fun u' hu' hne => ?_⟩
  rcases List.prefix_concat_iff.mp hu' with rfl | hu'
  · rw [hsends] at hne
    rw [← List.append_assoc, fileOps_append, fileOps_other hfile, List.append_nil]
    exact hD u (List.prefix_refl u) hne
  · exact hD u' hu' hne

theorem Acked.send (h : Acked d t₀ D sent n) (hD : D (replay d (fileOps n.trace)))
    (peerId : PeerId) (message : Bytes) :
    Acked d t₀ D (sent ++ [(peerId, message)]) (n.add (.sendTo peerId message)) := by
  obtain ⟨u, ht, hu, hacked⟩ := h
  refine ⟨u ++ [.sendTo peerId message], by rw [add_trace, ht, List.append_assoc], ?_,
    fun u' hu' hne => ?_⟩
  · rw [sends_append, hu]
    rfl
  · rcases List.prefix_concat_iff.mp hu' with rfl | hu'
    · rw [← List.append_assoc, ← ht, fileOps_append, fileOps_other (by simp), List.append_nil]
      exact hD
    · exact hacked u' hu' hne

/-- File operations come before the first message, unless nothing is demanded. -/
theorem Acked.files (h : Acked d t₀ D sent n) (hD : sent = [] ∨ ∀ d, D d) {α : Type}
    (o : Outcome S α) : Acked d t₀ D sent (n.stored o) := by
  obtain ⟨u, ht, hu, hacked⟩ := h
  refine ⟨u ++ o.ops.map Obs.file, by rw [stored_trace, ht, List.append_assoc], ?_,
    fun u' hu' hne => ?_⟩
  · rw [sends_append, sends_files, List.append_nil, hu]
  · rcases hD with rfl | hD
    · refine absurd ?_ hne
      rcases prefix_append_files hu' with hpre | ⟨ops, -, rfl⟩
      · obtain ⟨v, rfl⟩ := hpre
        rw [sends_append] at hu
        exact (List.append_eq_nil_iff.mp hu).1
      · rw [sends_append, sends_files, List.append_nil, hu]
    · exact hD _

end

/-! ## The store between and during the rounds -/

section
variable [Protobuf] {C : Type → Type} {d : Dir} {loaded hs hs' : HardState}
  {n : Node (CachedStorage C FsStorage)}

/-- The hard state on disk is `hs`, and `hs'` the latest one; in between, a
round has begun. -/
structure Recorded (d : Dir) (loaded hs hs' : HardState) (n : Node (CachedStorage C FsStorage)) :
    Prop where
  dir : n.store.storage.dir = replay d (fileOps n.trace)
  present : Present n.store.storage.dir
  hardState : readHardState n.store.storage.dir = .ok hs
  latest : latestHardState loaded n.trace = hs'

theorem Recorded.note (h : Recorded d loaded hs hs' n) {o : Obs} (hfile : ∀ op, o ≠ .file op) :
    Recorded d loaded hs (hardStateStep hs' o) (n.add o) := by
  refine ⟨?_, h.present, h.hardState, ?_⟩
  · rw [add_trace, fileOps_append, fileOps_other hfile, List.append_nil]
    exact h.dir
  · rw [add_trace, latestHardState_snoc, h.latest]

theorem Recorded.stored (h : Recorded d loaded hs hs' n) {hs₁ : HardState}
    {o : Outcome (CachedStorage C FsStorage) Unit}
    (hdir : o.store.storage.dir = replay n.store.storage.dir o.ops)
    (hops : ∀ op ∈ o.ops, ∀ name, op = .remove name → ∃ i, name = .entry i)
    (hhs : readHardState (replay n.store.storage.dir o.ops) = .ok hs₁) :
    Recorded d loaded hs₁ hs' (n.stored o) := by
  refine ⟨?_, ?_, ?_, ?_⟩
  · rw [stored_trace, fileOps_append, fileOps_files, replay_append, ← h.dir]
    exact hdir
  · show Present o.store.storage.dir
    rw [hdir]
    exact h.present.replay hops
  · show readHardState o.store.storage.dir = .ok hs₁
    rw [hdir]
    exact hhs
  · rw [stored_trace, latestHardState_files]
    exact h.latest

variable {t₀ : List Obs} {D E : Dir → Prop} {sent : List (PeerId × Bytes)}

/-- A moment of a round that began at `t₀`: `E` holds of the disk now. -/
structure Midway (d : Dir) (loaded hs hs' : HardState) (t₀ : List Obs) (D E : Dir → Prop)
    (sent : List (PeerId × Bytes)) (n : Node (CachedStorage C FsStorage)) : Prop where
  recorded : Recorded d loaded hs hs' n
  acked : Acked d t₀ D sent n
  now : E n.store.storage.dir

omit [Protobuf] in
theorem hardStateStep_aside {o : Obs} (ho : Aside o) (hs : HardState) :
    hardStateStep hs o = hs := by
  cases o with
  | ready => exact ho.elim
  | _ => rfl

theorem recorded_aloof : Aloof (fun _ => True) (Recorded (C := C) d loaded hs hs') where
  panics _ _ := trivial
  leader _ _ h := ⟨h.dir, h.present, h.hardState, h.latest⟩
  follower _ _ h := ⟨h.dir, h.present, h.hardState, h.latest⟩
  backlog _ _ h := ⟨h.dir, h.present, h.hardState, h.latest⟩
  note n o ho h := by
    have hnote := h.note (o := o) fun op heq => by
      subst heq
      exact ho
    rwa [hardStateStep_aside ho] at hnote

theorem midway_aloof : Aloof (fun _ => True) (Midway (C := C) d loaded hs hs' t₀ D E sent) where
  panics _ _ := trivial
  leader _ _ h := ⟨recorded_aloof.leader _ _ h.recorded, h.acked, h.now⟩
  follower _ _ h := ⟨recorded_aloof.follower _ _ h.recorded, h.acked, h.now⟩
  backlog _ _ h := ⟨recorded_aloof.backlog _ _ h.recorded, h.acked, h.now⟩
  note n o ho h := by
    refine ⟨recorded_aloof.note n o ho h.recorded, h.acked.other ?_ fun op heq => ?_, h.now⟩
    · cases o with
      | sendTo => exact ho.elim
      | _ => rfl
    · subst heq
      exact ho

theorem midway_receptive (es : List Entry) :
    Receptive es (fun _ => True) (Midway (C := C) d loaded hs hs' t₀ D E sent) where
  toAloof := midway_aloof
  block _ _ _ h := ⟨⟨h.recorded.dir, h.recorded.present, h.recorded.hardState, h.recorded.latest⟩,
    h.acked, h.now⟩
  peers _ _ h := ⟨⟨h.recorded.dir, h.recorded.present, h.recorded.hardState, h.recorded.latest⟩,
    h.acked, h.now⟩

/-- What is left by a panic: some of the messages have gone out. -/
def Cut (d : Dir) (t₀ : List Obs) (D : Dir → Prop) (all : List (PeerId × Bytes))
    (n : Node (CachedStorage C FsStorage)) : Prop :=
  ∃ sent, sent <+: all ∧ Acked d t₀ D sent n

theorem Midway.cut (h : Midway d loaded hs hs' t₀ D E sent n) {all : List (PeerId × Bytes)}
    (hall : sent <+: all) : Cut d t₀ D all n :=
  ⟨sent, hall, h.acked⟩

/-- A call to the store during a round. -/
theorem Midway.stored (h : Midway d loaded hs hs' t₀ D E sent n) (hD : sent = [] ∨ ∀ d, D d)
    {hs₁ : HardState} {E' : Dir → Prop} {o : Outcome (CachedStorage C FsStorage) Unit}
    (hdir : o.store.storage.dir = replay n.store.storage.dir o.ops)
    (hops : ∀ op ∈ o.ops, ∀ name, op = .remove name → ∃ i, name = .entry i)
    (hhs : readHardState (replay n.store.storage.dir o.ops) = .ok hs₁)
    (hE : E' (replay n.store.storage.dir o.ops)) :
    Midway d loaded hs₁ hs' t₀ D E' sent (n.stored o) := by
  refine ⟨h.recorded.stored hdir hops hhs, h.acked.files hD o, ?_⟩
  show E' o.store.storage.dir
  rw [hdir]
  exact hE

variable [L : LruCache cacheSize C] {env : Env} {round : Round}

/-! ### Persisting -/

omit [Protobuf] in
/-- The operations of a mutator behind the cache. -/
theorem mutate_ops_eq {m : FsM Fault Unit} {ops : List FileOp}
    (h : ∀ fs, m fs = .ok () (fs.after ops))
    (s : CachedStorage C FsStorage) :
    (CachedStorage.mutate s (FsStorage.call m)).ops = ops := by
  rw [CachedStorage.mutate_ops, call_eq h]

/-- A snapshot leaves the hard state alone. -/
theorem applySnapshot_hardState (s : CachedStorage C FsStorage) (snap : Snapshot) :
    replay s.storage.dir (StorageExt.applySnapshot s snap).ops .hardstate
      = s.storage.dir .hardstate := by
  have htraced : Traced (fun op => op.name ≠ .hardstate) (FsStorage.applySnapshot snap) :=
    applySnapshot_traced ⟨by simp [FileOp.name], by simp [FileOp.name], by simp [FileOp.name],
      by simp [FileOp.name]⟩ snap
  refine replay_of_ne fun op hop => ?_
  refine (htraced.call s.storage).1 op ?_
  have hops : (StorageExt.applySnapshot s snap).ops
      = (FsStorage.call (FsStorage.applySnapshot snap) s.storage).ops :=
    CachedStorage.mutate_ops s (StorageExt.applySnapshot · snap)
  rwa [hops] at hop

theorem persistSnapshot_midway (hD : sent = [] ∨ ∀ d, D d) {all : List (PeerId × Bytes)}
    (hall : sent <+: all) (snap : Snapshot) :
    Triple (Midway (C := C) d loaded hs hs' t₀ D E sent) (persistSnapshot env snap)
      (fun _ => Midway d loaded hs hs' t₀ D (fun _ => True) sent) (fun _ => Cut d t₀ D all) := by
  unfold persistSnapshot
  refine Triple.ite (fun _ => Triple.pure fun _ h => ⟨h.recorded, h.acked, trivial⟩) fun _ => ?_
  refine storeCall_triple (fun n h => ?_) fun _ _ h => h.cut hall
  obtain ⟨hops, hdir⟩ := CachedStorage.persists_ops (.applySnapshot (s := n.store) snap)
  refine h.stored hD hdir (fun op hop => (hops op hop).removal) ?_ trivial
  exact (readPb_congr (applySnapshot_hardState n.store snap)).trans h.recorded.hardState

/-- The entries of the round are on disk. -/
def EntriesDurable (round : Round) (d : Dir) : Prop :=
  Distinct round → (∀ e ∈ round.ready.entries, readEntry d e.index = .ok e) ∧
    ∀ e ∈ round.ready.entries.getLast?, readLastIndex d = .ok e.index

theorem persistEntries_midway (hD : sent = [] ∨ ∀ d, D d) {all : List (PeerId × Bytes)}
    (hall : sent <+: all) :
    Triple (Midway (C := C) d loaded hs hs' t₀ D E sent) (persistEntries round.ready.entries)
      (fun _ => Midway d loaded hs hs' t₀ D (EntriesDurable round) sent)
      (fun _ => Cut d t₀ D all) := by
  unfold persistEntries
  refine Triple.ite (fun hnil => Triple.pure fun _ h => ⟨h.recorded, h.acked, fun _ => ?_⟩)
    fun _ => ?_
  · rw [hnil]
    simp
  · refine storeCall_triple (fun n h => ?_) fun _ _ h => h.cut hall
    obtain ⟨hops, hdir⟩ := CachedStorage.persists_ops (.append (s := n.store) round.ready.entries)
    have happend : (StorageExt.append n.store round.ready.entries).ops
        = appendOps round.ready.entries := mutate_ops_eq (append_eq _) n.store
    refine h.stored hD hdir (fun op hop => (hops op hop).removal) ?_ ?_
    · rw [happend]
      refine (readPb_congr (replay_of_ne fun op hop => ?_)).trans h.recorded.hardState
      rcases appendOps_name hop with hname | ⟨i, hname⟩
      · rw [hname]
        simp
      · rw [hname]
        simp
    · rw [happend]
      exact append_durable _

/-- The hard state comes last, and completes what the round has to persist. -/
theorem persistHardState_midway (hD : sent = [] ∨ ∀ d, D d) {all : List (PeerId × Bytes)}
    (hall : sent <+: all) :
    Triple (Midway (C := C) d loaded hs (hardStateStep hs (.ready round)) t₀ D
        (EntriesDurable round) sent) (persistHardState round.ready.hs)
      (fun _ => Midway d loaded (hardStateStep hs (.ready round)) (hardStateStep hs (.ready round))
        t₀ D (fun d' => Distinct round → Durable round (hardStateStep hs (.ready round)) d') sent)
      (fun _ => Cut d t₀ D all) := by
  have hstep : hardStateStep hs (.ready round) = round.ready.hs.getD hs := rfl
  rw [hstep]
  cases hhs : round.ready.hs with
  | none =>
    refine Triple.pure fun n h => ⟨h.recorded, h.acked, fun hround => ?_⟩
    obtain ⟨hentries, hlast⟩ := h.now hround
    exact ⟨hentries, hlast, h.recorded.hardState⟩
  | some new =>
    show Triple _ (storeCall (StorageExt.setHardstate · new)) _ _
    refine storeCall_triple (fun n h => ?_) fun _ _ h => h.cut hall
    obtain ⟨hops, hdir⟩ := CachedStorage.persists_ops (.setHardstate (s := n.store) new)
    have hwrite : (StorageExt.setHardstate n.store new).ops
        = [.write .hardstate (Protobuf.hardState.writeToBytes new)] :=
      mutate_ops_eq (setHardstate_eq new) n.store
    have hread : readHardState (replay n.store.storage.dir
        (StorageExt.setHardstate n.store new).ops) = .ok new := by
      rw [hwrite]
      exact readPb_of_eq (replay_write_self ..)
    refine h.stored hD hdir (fun op hop => (hops op hop).removal) hread fun hround => ?_
    obtain ⟨hentries, hlast⟩ := h.now hround
    refine ⟨fun e he => ?_, fun e he => ?_, hread⟩
    · rw [hwrite]
      exact (readPb_congr (replay_write_of_ne (by simp))).trans (hentries e he)
    · rw [hwrite]
      exact (readU64_congr (replay_write_of_ne (by simp))).trans (hlast e he)

theorem persist_midway (hD : sent = [] ∨ ∀ d, D d) {all : List (PeerId × Bytes)}
    (hall : sent <+: all) :
    Triple (Midway (C := C) d loaded hs (hardStateStep hs (.ready round)) t₀ D E sent)
      (persist env round.ready)
      (fun _ => Midway d loaded (hardStateStep hs (.ready round)) (hardStateStep hs (.ready round))
        t₀ D (fun d' => Distinct round → Durable round (hardStateStep hs (.ready round)) d') sent)
      (fun _ => Cut d t₀ D all) := by
  refine Triple.bind (persistSnapshot_midway hD hall _) fun _ => ?_
  exact Triple.bind (persistEntries_midway hD hall) fun _ => persistHardState_midway hD hall

/-! ### Sending -/

omit L in
theorem sendMsg_midway {peers : AList (fun _ : Nat => PeerId)} (hDE : ∀ d, E d → D d)
    (msg : RaftMessage) (sent : List (PeerId × Bytes)) {all : List (PeerId × Bytes)}
    (hall : sent ++ routed peers [msg] <+: all) :
    Triple (fun n => Midway (C := C) d loaded hs hs' t₀ D E sent n ∧ n.raftIdToPeerId = peers)
      (sendMsg env msg)
      (fun _ n => Midway d loaded hs hs' t₀ D E (sent ++ routed peers [msg]) n ∧
        n.raftIdToPeerId = peers)
      (fun _ => Cut d t₀ D all) := by
  refine Triple.read fun n h => ?_
  obtain ⟨h, rfl⟩ := h
  cases hlookup : n.raftIdToPeerId.lookup msg.toId with
  | none =>
    have hnone : routed n.raftIdToPeerId [msg] = [] := by
      simp only [routed, List.filterMap_cons, List.filterMap_nil, hlookup, Option.map_none]
    refine Triple.pure fun s hs => ?_
    rw [hs, hnone, List.append_nil]
    exact ⟨h, rfl⟩
  | some peerId =>
    have hsome : routed n.raftIdToPeerId [msg] = [(peerId, msg.bytes)] := by
      simp only [routed, List.filterMap_cons, List.filterMap_nil, hlookup, Option.map_some]
    rw [hsome] at hall ⊢
    refine Triple.bind (R := fun _ s => Midway d loaded hs hs' t₀ D E
      (sent ++ [(peerId, msg.bytes)]) s ∧ s.raftIdToPeerId = n.raftIdToPeerId) ?_ fun r => ?_
    · refine Triple.bind (Triple.update fun s hs => ?_) fun _ =>
        Triple.bind (Triple.get fun n hn => hn) fun n => Triple.pure fun _ hn => hn
      rw [hs]
      have hdurable : D (replay d (fileOps n.trace)) := by
        rw [← h.recorded.dir]
        exact hDE _ h.now
      exact ⟨⟨h.recorded.note (o := .sendTo peerId msg.bytes) (by simp),
        h.acked.send hdurable peerId msg.bytes, h.now⟩, rfl⟩
    · split
      · exact Triple.pure fun _ hn => hn
      · exact Triple.pure fun _ hn => hn
      · exact Triple.throw fun _ hn => hn.1.cut hall

omit [Protobuf] in
theorem routed_cons (peers : AList (fun _ : Nat => PeerId)) (msg : RaftMessage)
    (messages : List RaftMessage) :
    routed peers (msg :: messages) = routed peers [msg] ++ routed peers messages :=
  List.filterMap_append (l := [msg])

omit L in
/-- The messages of the round go out one by one, to the peers that are known. -/
theorem sends_midway {peers : AList (fun _ : Nat => PeerId)} (hDE : ∀ d, E d → D d)
    (messages : List RaftMessage) (sent : List (PeerId × Bytes)) :
    Triple (fun n => Midway (C := C) d loaded hs hs' t₀ D E sent n ∧ n.raftIdToPeerId = peers)
      (messages.forM (sendMsg env))
      (fun _ => Midway d loaded hs hs' t₀ D E (sent ++ routed peers messages))
      (fun _ => Cut d t₀ D (sent ++ routed peers messages)) := by
  induction messages generalizing sent with
  | nil =>
    refine Triple.pure fun n h => ?_
    rw [show sent ++ routed peers [] = sent from List.append_nil _]
    exact h.1
  | cons msg messages ih =>
    rw [routed_cons, ← List.append_assoc]
    exact Triple.bind (sendMsg_midway hDE msg sent (List.prefix_append ..)) fun _ => ih _

/-! ### The round -/

/-- What a round has to leave on disk before a message of it goes out. A leader
sends its messages first. -/
def Owed (round : Round) (hs : HardState) (d : Dir) : Prop :=
  round.isLeader = false → Distinct round → Durable round hs d

omit [Protobuf] L in
/-- The map of peers stays as it is until the entries are delivered. -/
theorem persist_peers [StorageExt (CachedStorage C FsStorage)]
    (peers : AList (fun _ : Nat => PeerId)) (ready : Ready) :
    Keeps (fun _ => True) (fun n : Node (CachedStorage C FsStorage) => n.raftIdToPeerId = peers)
      (persist env ready) := by
  refine .bind ?_ fun _ => .bind ?_ fun _ => ?_
  · exact .ite (.pure _) (storeCall_stored (fun _ => trivial) fun _ h => h)
  · exact .ite (.pure _) (storeCall_stored (fun _ => trivial) fun _ h => h)
  · unfold persistHardState
    split
    · exact storeCall_stored (fun _ => trivial) fun _ h => h
    · exact .pure _

omit L in
theorem midway_peers_aloof (peers : AList (fun _ : Nat => PeerId)) :
    Aloof (fun _ => True) fun n =>
      Midway (C := C) d loaded hs hs' t₀ D E sent n ∧ n.raftIdToPeerId = peers where
  panics _ _ := trivial
  leader _ _ h := ⟨midway_aloof.leader _ _ h.1, h.2⟩
  follower _ _ h := ⟨midway_aloof.follower _ _ h.1, h.2⟩
  backlog _ _ h := ⟨midway_aloof.backlog _ _ h.1, h.2⟩
  note _ _ ho h := ⟨midway_aloof.note _ _ ho h.1, h.2⟩

omit L in
theorem Keeps.cut {α : Type} {P : Node (CachedStorage C FsStorage) → Prop}
    {m : NodeM (CachedStorage C FsStorage) α} (hm : Keeps (fun _ => True) P m)
    (hP : ∀ n, P n → Midway d loaded hs hs' t₀ D E sent n) {all : List (PeerId × Bytes)}
    (hall : sent <+: all) : Triple P m (fun _ => P) (fun _ => Cut d t₀ D all) :=
  Triple.conseq hm (fun _ h => h) (fun _ _ h => h) fun _ n h => (hP n h.2).cut hall

omit L in
/-- What follows the messages and the store adds to neither. -/
theorem afterSends_midway (es : List Entry) :
    Triple (Midway (C := C) d loaded hs hs' t₀ D E sent)
      (do
        let status ← deliver env es
        afterEntries env status)
      (fun _ => Midway d loaded hs hs' t₀ D E sent) (fun _ => Cut d t₀ D sent) := by
  have hreceptive : Receptive es (fun _ => True) (Midway (C := C) d loaded hs hs' t₀ D E sent) :=
    midway_receptive es
  refine Keeps.cut (.bind (hreceptive.deliver fun e he => he) fun status => ?_) (fun _ h => h)
    (List.prefix_refl _)
  exact hreceptive.afterEntries status

omit L in
/-- The beginning of a round. -/
theorem begin_midway {n₀ : Node (CachedStorage C FsStorage)} (h₀ : Recorded d loaded hs hs n₀)
    (D : Dir → Prop) :
    Midway d loaded hs (hardStateStep hs (.ready round)) n₀.trace D (fun _ => True) []
      (n₀.add (.ready round)) := by
  refine ⟨h₀.note (by simp), ⟨[.ready round], rfl, rfl, fun u hu hne => ?_⟩, trivial⟩
  refine absurd ?_ hne
  rcases List.prefix_concat_iff.mp (show u <+: [] ++ [.ready round] from hu) with rfl | hu
  · rfl
  · rw [List.prefix_nil.mp hu]
    rfl

/-- **Round**: whichever the role, the messages have gone out when it is over,
and not before they were allowed to. -/
theorem processReady_midway {n₀ : Node (CachedStorage C FsStorage)}
    (h₀ : Recorded d loaded hs hs n₀) :
    Triple (fun n => n = n₀) (processReady env (some round))
      (fun _ => Midway d loaded (hardStateStep hs (.ready round)) (hardStateStep hs (.ready round))
        n₀.trace (Owed round (hardStateStep hs (.ready round)))
        (fun d' => Distinct round → Durable round (hardStateStep hs (.ready round)) d')
        (routed n₀.raftIdToPeerId round.ready.messages))
      (fun _ => Cut d n₀.trace (Owed round (hardStateStep hs (.ready round)))
        (routed n₀.raftIdToPeerId round.ready.messages)) := by
  refine Triple.bind (Triple.update (Q := fun _ n => Midway d loaded hs
    (hardStateStep hs (.ready round)) n₀.trace (Owed round (hardStateStep hs (.ready round)))
    (fun _ => True) [] n ∧ n.raftIdToPeerId = n₀.raftIdToPeerId) fun n hn => ?_) fun _ => ?_
  · rw [hn]
    exact ⟨begin_midway h₀ _, rfl⟩
  unfold leaderPart followerPart
  cases hr : round.isLeader with
  | true =>
    have hfree : ∀ d, Owed round (hardStateStep hs (.ready round)) d := by
      intro d hfalse
      rw [hr] at hfalse
      cases hfalse
    rw [if_pos rfl, if_pos rfl]
    refine Triple.bind (Triple.bind ((midway_peers_aloof _).stepUp.cut (fun _ h => h.1)
      List.nil_prefix) fun _ => sends_midway (fun d _ => hfree d) _ []) fun _ => ?_
    refine Triple.bind (persist_midway (Or.inr hfree) (List.prefix_refl _)) fun _ => ?_
    exact Triple.bind (Triple.pure fun _ h => h) fun _ => afterSends_midway _
  | false =>
    rw [if_neg (by simp), if_neg (by simp), pure_bind]
    -- the map of peers is still the one of the beginning when the messages are sent
    refine Triple.bind (Triple.conseq ((persist_midway (Or.inl rfl) List.nil_prefix).and
      (persist_peers n₀.raftIdToPeerId _)) (fun _ h => h) (fun _ _ h => h) fun _ _ h => h.1)
      fun _ => ?_
    refine Triple.bind (Triple.bind ((midway_peers_aloof _).stepDown.cut (fun _ h => h.1)
      List.nil_prefix) fun _ => sends_midway (fun d h _ => h) _ []) fun _ => afterSends_midway _

/-! ## Runs -/

/-- The applied index is kept apart from the Raft state. -/
theorem confirmFront_recorded : Triple (Recorded (C := C) d loaded hs hs') confirmFront
    (fun _ => Recorded d loaded hs hs') (fun _ _ => True) := by
  refine Triple.bind (R := fun _ => Recorded d loaded hs hs') ?_ fun i => ?_
  · refine Triple.read fun n h => ?_
    cases n.blockQueue.blockCommitted with
    | none => exact Triple.throw fun _ _ => trivial
    | some p =>
      refine Triple.bind (R := fun _ => Recorded d loaded hs hs') (Triple.update fun s hs => ?_)
        fun _ => Triple.pure fun _ h => h
      rw [hs]
      exact ⟨h.dir, h.present, h.hardState, h.latest⟩
  · refine Triple.bind (R := fun _ => Recorded d loaded hs hs') (Triple.update fun n h =>
      h.note (o := .setApplied i) (by simp)) fun _ => ?_
    refine storeCall_triple (fun n h => ?_) fun _ _ _ => trivial
    refine h.stored rfl (fun op hop name heq => ?_) ?_
    · rw [List.mem_singleton.mp hop] at heq
      cases heq
    · exact (readPb_congr (replay_write_of_ne (by simp))).trans h.hardState

omit L in
/-- What keeps the assertion, with nothing to say about panics. -/
theorem Keeps.recorded {α : Type} {m : NodeM (CachedStorage C FsStorage) α}
    (h : Keeps (fun _ => True) (Recorded d loaded hs hs') m) :
    Triple (Recorded d loaded hs hs') m (fun _ => Recorded d loaded hs hs') (fun _ _ => True) :=
  Triple.conseq h (fun _ h => h) (fun _ _ h => h) fun _ _ _ => trivial

variable [Formats]

theorem onBlockCommit_recorded (b : BlockId) :
    Triple (Recorded (C := C) d loaded hs hs') (onBlockCommit env b)
      (fun _ => Recorded d loaded hs hs') (fun _ _ => True) := by
  refine Triple.bind (recorded_aloof.emit (o := .blockCommit b) trivial).recorded fun _ => ?_
  refine Triple.bind (R := fun _ => Recorded d loaded hs hs') ?_ fun _ => ?_
  · refine Triple.read fun n h => Triple.pre ?_ fun s (hs : s = n) => hs ▸ h
    refine Triple.ite (fun _ => ?_) fun _ => (Keeps.pure _).recorded
    exact Triple.bind confirmFront_recorded fun _ =>
      (recorded_aloof.afterCommit (recorded_aloof.checkForConfChange trivial b)).recorded
  · refine Triple.read fun n h => Triple.pre ?_ fun s (hs : s = n) => hs ▸ h
    refine Triple.ite (fun _ => ?_) fun _ => (Keeps.pure _).recorded
    exact Triple.bind confirmFront_recorded fun _ => (recorded_aloof.setFollowerState _).recorded

/-- **Step**: after every handler the latest hard state is the one on disk. -/
theorem handle_recorded (i : Input) :
    Triple (fun n => ∃ hs, Recorded (C := C) d loaded hs hs n) (handle env i)
      (fun _ n => ∃ hs, Recorded d loaded hs hs n) (fun _ _ => True) := by
  refine Triple.intro fun hs => ?_
  have hdone : ∀ {m : NodeM (CachedStorage C FsStorage) Unit},
      Triple (Recorded d loaded hs hs) m (fun _ => Recorded d loaded hs hs) (fun _ _ => True) →
      Triple (Recorded d loaded hs hs) (do m; pure ReadyStatus.Continue)
        (fun _ n => ∃ hs, Recorded d loaded hs hs n) (fun _ _ => True) :=
    fun hm => Triple.bind hm fun _ => Triple.pure fun _ h => ⟨_, h⟩
  cases i with
  | blockNew block => exact hdone (recorded_aloof.onBlockNew block).recorded
  | blockValid b => exact hdone (recorded_aloof.onBlockValid b).recorded
  | blockCommit b => exact hdone (onBlockCommit_recorded b)
  | peerMessage message => exact hdone (recorded_aloof.onPeerMessage message).recorded
  | tick => exact hdone recorded_aloof.tick.recorded
  | processReady round =>
    cases round with
    | none => exact Triple.pure fun _ h => ⟨_, h⟩
    | some round =>
      intro n h
      exact (processReady_midway h).conseq (fun _ h => h) (fun _ _ h => ⟨_, h.recorded⟩)
        (fun _ _ _ => trivial) n rfl

/-- **Run**: between any two inputs the latest hard state is on disk. -/
theorem run_recorded {node : Node (CachedStorage C FsStorage)}
    (h : Recorded d loaded loaded loaded node) (inputs : List Input) :
    ((Sys.start node).run env inputs).Sat (fun n => ∃ hs, Recorded d loaded hs hs n)
      (fun _ _ => True) := by
  have hstart : (Sys.start node).Sat (fun n => ∃ hs, Recorded d loaded hs hs n)
      (fun _ _ => True) := ⟨loaded, h⟩
  refine Sys.sat_run (fun i => ?_) hstart inputs
  refine (handle_recorded i).conseq (fun _ h => h) (fun status n h => ?_) fun _ _ h => h
  cases status with
  | Continue => exact h
  | Shutdown => trivial

end

/-! ## The store when a message goes out -/

section
variable [Protobuf]

theorem reopened_of_present {d : Dir} (h : Present d) : reopened d = d := by
  unfold reopened
  rw [@withDataDir_of_not_missing _ { dir := d, ops := [] } (not_missing_of_present h)]

theorem present_of_readRaftState {d : Dir} {rs : RaftState} (h : readRaftState d = .ok rs) :
    Present d := by
  obtain ⟨hhs, s, hsnap, -⟩ := readRaftState_eq_ok.mp h
  exact ⟨isSome_of_readPb hhs, isSome_of_readPb hsnap⟩

/-- A round of `process_ready` that leads from `s` to `s'`, on a directory that
was `d` when the node started. -/
structure Acknowledges {C : Type → Type} (d : Dir) (loaded : HardState) (round : Round)
    (s s' : Sys (CachedStorage C FsStorage)) : Prop where
  /-- Once a message of a round as follower is out, the store shows the round. -/
  durable : round.isLeader = false → Distinct round →
    ∀ u, s.node.trace ++ u <+: s'.node.trace → sends u ≠ [] →
      Durable round (latestHardState loaded (s.node.trace ++ [.ready round]))
        (reopened (replay d (fileOps (s.node.trace ++ u))))
  /-- The messages go out in order and once each, up to a panic. -/
  sent : ∃ u, s'.node.trace = s.node.trace ++ u ∧
    sends u <+: routed s.node.raftIdToPeerId round.ready.messages ∧
    ((∀ p, s'.status ≠ .panicked p) →
      sends u = routed s.node.raftIdToPeerId round.ready.messages)

variable [Formats] {C : Type → Type} [LruCache cacheSize C]

omit [Formats] [LruCache cacheSize C] in
/-- What the disk owes once a message is out, as a reopened store shows it. -/
theorem Acked.durable {d : Dir} {t₀ : List Obs} {round : Round} {hs : HardState}
    {sent : List (PeerId × Bytes)} {n : Node (CachedStorage C FsStorage)}
    (h : Acked d t₀ (Owed round hs) sent n) (htidy : Tidy n.trace) (hpresent : Present d)
    (hr : round.isLeader = false) (hround : Distinct round) {u : List Obs}
    (hu : t₀ ++ u <+: n.trace) (hne : sends u ≠ []) :
    Durable round hs (reopened (replay d (fileOps (t₀ ++ u)))) := by
  -- no cut of the trace leaves a file of the Raft state missing
  have hcut : Present (replay d (fileOps (t₀ ++ u))) :=
    hpresent.replay fun op hop => htidy.removal op (fileOps_grow hu hop)
  rw [reopened_of_present hcut]
  obtain ⟨v, hv, -, howed⟩ := h
  rw [hv] at hu
  exact howed u ((List.prefix_append_right_inj _).mp hu) hne hr hround

/-- **What a node has to vouch for is on disk before it does**, in every round
of every run: unless it leads, a message goes out only once the entries and the
hard state of the round are in the store, where they stay until the round is
over. Whatever the role, every message to a known peer goes out once, in order. -/
theorem persisted_before_sent {raftDefault : RaftConfig} {d : Dir} {peerId : PeerId}
    {settings : Except ServiceError Settings} {node : Node (CachedStorage C FsStorage)}
    {applied : Nat} (hstart : startEngine C raftDefault d peerId settings = .ok (node, applied))
    {rs : RaftState} (hstate : readRaftState node.store.storage.dir = .ok rs) (env : Env)
    (inputs : List Input) (hrun : ((Sys.start node).run env inputs).status = .running)
    (round : Round) :
    Acknowledges node.store.storage.dir rs.hardState round ((Sys.start node).run env inputs)
      (((Sys.start node).run env inputs).step env (.processReady (some round))) := by
  obtain ⟨s, peers, -, -, hstarted⟩ := startEngine_eq_ok hstart
  obtain ⟨hnew, htrace⟩ := hstarted.isNew
  have hpresent := present_of_readRaftState hstate
  have hrecorded : Recorded node.store.storage.dir rs.hardState rs.hardState rs.hardState node := by
    refine ⟨?_, hpresent, (readRaftState_eq_ok.mp hstate).1, ?_⟩
    · rw [htrace]
      rfl
    · rw [htrace]
      rfl
  have htracked : Tracked node.store.storage.dir
      ((Sys.start node).run env (inputs ++ [.processReady (some round)])).node :=
    run_closed (tracked_closed node.store.storage.dir) hnew
      ⟨by rw [htrace]; exact .nil, by rw [htrace]; rfl⟩ _
  rw [Sys.run, List.foldl_append] at htracked
  have htidy : Tidy (((Sys.start node).run env inputs).step env
      (.processReady (some round))).node.trace := htracked.1
  have hloaded : ((Sys.start node).run env inputs).Sat _ _ := run_recorded hrecorded inputs
  generalize (Sys.start node).run env inputs = s at hrun htidy hloaded ⊢
  obtain ⟨n, status⟩ := s
  subst hrun
  obtain ⟨hs, hn⟩ := hloaded
  have hlatest : latestHardState rs.hardState (n.trace ++ [.ready round])
      = hardStateStep hs (.ready round) := by
    rw [latestHardState_snoc, hn.latest]
  have hround : Triple (fun s => s = n) (processReady env (some round)) _ _ :=
    processReady_midway hn
  have hresult := hround n rfl
  show Acknowledges _ _ round ⟨n, .running⟩ (Sys.after (processReady env (some round) n))
  have htidy' : Tidy (Sys.after (processReady env (some round) n)).node.trace := htidy
  cases hr : processReady env (some round) n with
  | ok st n' =>
    rw [hr] at hresult htidy'
    have hnode : (Sys.after (.ok st n')).node = n' := by cases st <;> rfl
    rw [hnode] at htidy'
    refine ⟨fun hf hdist u hu hne => ?_, ?_⟩
    · rw [hnode] at hu
      rw [hlatest]
      exact hresult.acked.durable htidy' hpresent hf hdist hu hne
    · obtain ⟨u, hu, hsent, -⟩ := hresult.acked
      exact ⟨u, by rw [hnode]; exact hu, hsent ▸ List.prefix_refl _, fun _ => hsent⟩
  | error p n' =>
    rw [hr] at hresult htidy'
    obtain ⟨sent, hsent, hacked⟩ := hresult
    refine ⟨fun hf hdist u hu hne => ?_, ?_⟩
    · rw [hlatest]
      exact hacked.durable htidy' hpresent hf hdist hu hne
    · obtain ⟨u, hu, rfl, -⟩ := hacked
      exact ⟨u, hu, hsent, fun h => absurd rfl (h p)⟩

end

end Node

/-! ## An answer -/

namespace Node

open scoped Proto3 PlainFormats

/-- A follower is given an entry and answers peer 2. The other message is for a
peer that is not known. -/
def answeringRound : Round where
  isLeader := false
  ready := {
    messages := [{ toId := raftIdOf (peerOf 2), bytes := [5] }, { toId := 99, bytes := [6] }]
    entries := [{ term := 2, index := 1, data := [7] }]
    hs := some { term := 2, vote := 2 } }

theorem answeringRound_distinct : Distinct answeringRound := ⟨by decide, by decide⟩

/-- The node of peer 1 handles the round. -/
def answered (node : Node (CachedStorage List FsStorage)) : Sys (CachedStorage List FsStorage) :=
  letI := listLru cacheSize
  (Sys.start node).step (Env.obliging [8] fun _ => twoPeersSetting)
    (.processReady (some answeringRound))

theorem persisted_before_sent_answer :
    letI := listLru cacheSize
    ∃ node applied,
      startEngine List {} emptyDir (peerOf 1) (.ok twoPeersSetting) = .ok (node, applied) ∧
      sends (answered node).node.trace = [(peerOf 2, [5])] ∧
      Durable answeringRound { term := 2, vote := 2 }
        (reopened (replay node.store.storage.dir (fileOps (answered node).node.trace))) := by
  let _ := listLru cacheSize
  obtain ⟨p, hstart⟩ : ∃ p,
      startEngine List {} emptyDir (peerOf 1) (.ok twoPeersSetting) = .ok p := ⟨_, rfl⟩
  obtain ⟨node, applied⟩ := p
  have hnode : sends (answered node).node.trace = [(peerOf 2, [5])] ∧
      node.trace = [] ∧
      readRaftState node.store.storage.dir = .ok { hardState := {}, confState := {} } := by
    obtain ⟨rfl, -⟩ := Prod.mk.inj (Except.ok.inj (hstart.symm.trans
      (rfl : startEngine List {} emptyDir (peerOf 1) (.ok twoPeersSetting) = .ok (_, _))))
    decide +kernel
  have hack := persisted_before_sent hstart hnode.2.2
    (Env.obliging [8] fun _ => twoPeersSetting) [] rfl answeringRound
  refine ⟨node, applied, hstart, hnode.1, ?_⟩
  have hdurable := hack.durable rfl answeringRound_distinct (answered node).node.trace
  rw [show ((Sys.start node).run (Env.obliging [8] fun _ => twoPeersSetting) []).node.trace = []
    from hnode.2.1] at hdurable
  refine hdurable (List.prefix_refl _) ?_
  rw [hnode.1]
  simp

end Node

end SawtoothRaft
