import SawtoothRaft.Lib.Lockstep
import SawtoothRaft.Node.Persist

/-!
# A node and its twin

The code of the node is generic in its store. So a node over a `CachedStorage`
has a twin, the same node over the bare `FsStorage`, and if the cache is worth
its name nobody can tell the two apart: whatever updates, ticks and rounds come
in, and whatever Raft asks the store in between, they do the same and Raft gets
the same answers (`cached_node_agrees`).

`Replaces R` says what it takes of two stores for that: related stores answer
the mutators that the node calls in the same way, with the same file operations,
and stay related. From it every handler follows by the rules of `Lib.Lockstep`.
-/

namespace SawtoothRaft

open Lib

/-- The same answer and the same file operations, by stores that are related
afterwards. -/
structure Agree {S T α : Type} (R : S → T → Prop) (o : Outcome S α) (o' : Outcome T α) : Prop where
  result : o.result = o'.result
  ops : o.ops = o'.ops
  store : R o.store o'.store

/-- One store does for the other, as far as the node uses it. -/
structure Replaces {S T : Type} [StorageExt S] [StorageExt T] (R : S → T → Prop) : Prop where
  applySnapshot : ∀ s t snap, R s t →
    Agree R (StorageExt.applySnapshot s snap) (StorageExt.applySnapshot t snap)
  append : ∀ s t es, R s t → Agree R (StorageExt.append s es) (StorageExt.append t es)
  setHardstate : ∀ s t hs, R s t →
    Agree R (StorageExt.setHardstate s hs) (StorageExt.setHardstate t hs)
  setApplied : ∀ s t i, R s t → Agree R (StorageExt.setApplied s i) (StorageExt.setApplied t i)

namespace Node

variable {S T α : Type}

/-- The same node over another store. -/
def withStore (n : Node S) (t : T) : Node T where
  peerId := n.peerId
  store := t
  leaderState := n.leaderState
  followerState := n.followerState
  blockQueue := n.blockQueue
  raftIdToPeerId := n.raftIdToPeerId
  period := n.period
  trace := n.trace

/-- Nodes that differ in their stores, which are related. -/
inductive Twins (R : S → T → Prop) : Node S → Node T → Prop
  | intro (n : Node S) (t : T) (h : R n.store t) : Twins R n (n.withStore t)

/-- A procedure of the node, over either store. -/
abbrev Tandem (R : S → T → Prop) (m : NodeM S α) (m' : NodeM T α) : Prop := Lockstep (Twins R) m m'

section
variable {R : S → T → Prop}

theorem Tandem.read {f : Node S → NodeM S α} {f' : Node T → NodeM T α}
    (h : ∀ n t, Tandem R (f n) (f' (n.withStore t))) :
    Tandem R (MonadState.get >>= f) (MonadState.get >>= f') := by
  refine Lockstep.read fun n n' hn => ?_
  cases hn with
  | intro t ht => exact h n t n _ (.intro n t ht)

/-- A change to the node that does not look at the store. -/
theorem Tandem.update {f : Node S → Node S} {f' : Node T → Node T}
    (hstore : ∀ n, (f n).store = n.store)
    (h : ∀ n t, f' (n.withStore t) = (f n).withStore t) :
    Tandem R (modify f : NodeM S Unit) (modify f' : NodeM T Unit) := by
  refine Lockstep.update fun n n' hn => ?_
  cases hn with
  | intro t ht =>
    rw [h]
    exact .intro _ t ((hstore n).symm ▸ ht)

/-! ## Single actions -/

theorem emit_tandem (o : Obs) : Tandem R (emit o : NodeM S Unit) (emit o) :=
  Tandem.update (fun _ => rfl) fun _ _ => rfl

theorem setLeaderState_tandem (st : Option LeaderState) :
    Tandem R (setLeaderState st : NodeM S Unit) (setLeaderState st) :=
  Tandem.update (fun _ => rfl) fun _ _ => rfl

theorem setFollowerState_tandem (st : Option FollowerState) :
    Tandem R (setFollowerState st : NodeM S Unit) (setFollowerState st) :=
  Tandem.update (fun _ => rfl) fun _ _ => rfl

theorem updateQueue_tandem (g : BlockQueue → BlockQueue) :
    Tandem R (updateQueue g : NodeM S Unit) (updateQueue g) :=
  Tandem.update (fun _ => rfl) fun _ _ => rfl

theorem tryCall_tandem (o : Obs) (answer : List Obs → α) :
    Tandem R (tryCall o answer : NodeM S α) (tryCall o answer) :=
  .bind (emit_tandem o) fun _ => Tandem.read fun _ _ => .pure _

theorem expectCall_tandem (call : ServiceCall) (o : Obs)
    (answer : List Obs → Except ServiceError α) :
    Tandem R (expectCall call o answer : NodeM S α) (expectCall call o answer) := by
  refine .bind (tryCall_tandem o answer) fun r => ?_
  cases r with
  | ok a => exact .pure a
  | error err => exact .throw _

theorem expect_tandem (r : Except Panic α) : Tandem R (expect r : NodeM S α) (expect r) := by
  cases r with
  | ok a => exact .pure a
  | error p => exact .throw p

/-- What a call to the store does, and then the answer. -/
theorem storeCall_eq (g : S → Outcome S α) (n : Node S) :
    storeCall g n = (expect ((g n.store).result.mapError Panic.store) : NodeM S α)
      (n.stored (g n.store)) := by
  have hget : (get : NodeM S (Node S)) n = .ok n n := rfl
  have hset : (set (n.stored (g n.store)) : NodeM S PUnit) n = .ok ⟨⟩ (n.stored (g n.store)) := rfl
  refine (bind_of_ok hget).trans ((bind_of_ok hset).trans ?_)
  cases (g n.store).result with
  | ok a => rfl
  | error fault => rfl

theorem twins_stored {n : Node S} {t : T} {o : Outcome S α} {o' : Outcome T α}
    (h : Agree R o o') : Twins R (n.stored o) ((n.withStore t).stored o') := by
  have hstored : (n.withStore t).stored o' = (n.stored o).withStore o'.store := by
    unfold stored withStore
    rw [h.ops]
  rw [hstored]
  exact .intro _ _ h.store

/-- A call to the store, which the two stores agree on. -/
theorem storeCall_tandem {g : S → Outcome S α} {g' : T → Outcome T α}
    (h : ∀ s t, R s t → Agree R (g s) (g' t)) : Tandem R (storeCall g) (storeCall g') := by
  intro n n' hn
  cases hn with
  | intro t ht =>
    have hagree := h n.store t ht
    rw [storeCall_eq, storeCall_eq, hagree.result]
    exact expect_tandem _ _ _ (twins_stored hagree)

/-! ## Updates, messages and ticks -/

variable (env : Env)

theorem startBuilding_tandem : Tandem R (startBuilding env : NodeM S Unit) (startBuilding env) :=
  Tandem.read fun _ _ => .bind (setLeaderState_tandem _) fun _ => expectCall_tandem _ _ _

theorem onBlockNew_tandem (block : Block) :
    Tandem R (onBlockNew env block : NodeM S Unit) (onBlockNew env block) := by
  refine .bind (emit_tandem _) fun _ => .bind ?_ fun _ =>
    .bind (updateQueue_tandem _) fun _ => expectCall_tandem _ _ _
  exact Tandem.read fun _ _ => .ite (setLeaderState_tandem _) (.pure _)

theorem onBlockValid_tandem (b : BlockId) :
    Tandem R (onBlockValid env b : NodeM S Unit) (onBlockValid env b) := by
  refine .bind (emit_tandem _) fun _ => .bind (updateQueue_tandem _) fun _ => ?_
  refine Tandem.read fun _ _ => .ite (.bind (tryCall_tandem _ _) fun ok => ?_) (.pure _)
  exact .ite (setLeaderState_tandem _) (.throw _)

theorem onPeerMessage_tandem (message : Bytes) :
    Tandem R (onPeerMessage env message : NodeM S Unit) (onPeerMessage env message) := by
  refine .bind (emit_tandem _) fun _ => ?_
  cases env.parseMessage message with
  | some raftMessage => exact emit_tandem _
  | none => exact .throw _

theorem publish_tandem : Tandem R (publish env : NodeM S Unit) (publish env) := by
  refine .bind (tryCall_tandem _ _) fun r => ?_
  split
  · exact .pure _
  · exact .throw _
  · refine .bind (tryCall_tandem _ _) fun r => ?_
    split
    · exact setLeaderState_tandem _
    · exact .pure _
    · exact .throw _

theorem tick_tandem : Tandem R (tick env : NodeM S Unit) (tick env) := by
  refine .bind (emit_tandem _) fun _ => Tandem.read fun n t => ?_
  dsimp only [withStore]
  split
  · exact .ite (publish_tandem env) (.pure _)
  · exact .pure _

/-! ## The parts of a round -/

theorem sendMsg_tandem (msg : RaftMessage) :
    Tandem R (sendMsg env msg : NodeM S Unit) (sendMsg env msg) := by
  refine Tandem.read fun n t => ?_
  dsimp only [withStore]
  split
  · refine .bind (tryCall_tandem _ _) fun r => ?_
    split
    · exact .pure _
    · exact .pure _
    · exact .throw _
  · exact .pure _

theorem stepUp_tandem : Tandem R (stepUp env : NodeM S Unit) (stepUp env) := by
  refine Tandem.read fun n t => .ite (.bind ?_ fun _ => setFollowerState_tandem _) (.pure _)
  dsimp only [withStore]
  unfold takeOver
  split
  · exact setLeaderState_tandem _
  · exact startBuilding_tandem env

theorem stepDown_tandem : Tandem R (stepDown env : NodeM S Unit) (stepDown env) := by
  refine Tandem.read fun n t => .ite (.pure _) (.bind ?_ fun _ =>
    .bind (setLeaderState_tandem _) fun _ => ?_)
  · dsimp only [withStore]
    unfold abandon
    split
    · exact expectCall_tandem _ _ _
    · exact setFollowerState_tandem _
    · exact .pure _
  · exact Tandem.read fun _ _ => .ite (setFollowerState_tandem _) (.pure _)

theorem updatePeers_tandem (change : ConfChange) :
    Tandem R (updatePeers change : NodeM S ReadyStatus) (updatePeers change) := by
  refine Tandem.read fun n t => ?_
  dsimp only [withStore]
  split
  · refine .bind (expect_tandem _) fun own => .ite (.pure _) ?_
    split
    · exact .bind (Tandem.update (fun _ => rfl) fun _ _ => rfl) fun _ => .pure _
    · exact .throw _
  · exact .bind (Tandem.update (fun _ => rfl) fun _ _ => rfl) fun _ => .pure _
  · exact .pure _

theorem commitNext_tandem : Tandem R (commitNext env : NodeM S Unit) (commitNext env) := by
  refine Tandem.read fun n t => ?_
  dsimp only [withStore]
  split
  · refine .bind ?_ fun _ => ?_
    · exact Tandem.read fun _ _ => .ite (.bind (setLeaderState_tandem _) fun _ =>
        expectCall_tandem _ _ _) (.pure _)
    · exact Tandem.read fun _ _ => .ite (.bind (setFollowerState_tandem _) fun _ =>
        expectCall_tandem _ _ _) (.pure _)
  · exact .pure _

section
variable [Protobuf]

theorem deliverEntry_tandem (e : Entry) :
    Tandem R (deliverEntry env e : NodeM S ReadyStatus) (deliverEntry env e) := by
  refine .bind (emit_tandem _) fun _ => .ite (.pure _) ?_
  split
  · exact .bind (updateQueue_tandem _) fun _ => .pure _
  · refine .ite (.pure _) ?_
    unfold deliverConfChange
    split
    · exact .throw _
    · refine .bind (.bind (updatePeers_tandem _) fun status => ?_) fun status => ?_
      · cases status with
        | Shutdown => exact .pure _
        | Continue => exact .bind (emit_tandem _) fun _ => .pure _
      · cases status with
        | Shutdown => exact .pure _
        | Continue =>
          exact Tandem.read fun _ _ =>
            .ite (.bind (startBuilding_tandem env) fun _ => .pure _) (.pure _)

/-- By induction on the entries still to come. -/
theorem deliver_tandem (es : List Entry) :
    Tandem R (deliver env es : NodeM S ReadyStatus) (deliver env es) := by
  induction es with
  | nil => exact .pure _
  | cons e es ih =>
    refine .bind (deliverEntry_tandem env e) fun status => ?_
    cases status with
    | Shutdown => exact .pure _
    | Continue => exact ih

end

/-! ## The handlers that touch the store -/

variable [StorageExt S] [StorageExt T] (h : Replaces R)
include h

theorem persist_tandem (ready : Ready) :
    Tandem R (persist env ready : NodeM S Unit) (persist env ready) := by
  refine .bind ?_ fun _ => .bind ?_ fun _ => ?_
  · exact .ite (.pure _) (storeCall_tandem fun s t => h.applySnapshot s t _)
  · exact .ite (.pure _) (storeCall_tandem fun s t => h.append s t _)
  · unfold persistHardState
    split
    · exact storeCall_tandem fun s t => h.setHardstate s t _
    · exact .pure _

theorem confirmFront_tandem : Tandem R (confirmFront : NodeM S Unit) confirmFront := by
  refine .bind (Tandem.read fun n t => ?_) fun i => .bind (emit_tandem _) fun _ =>
    storeCall_tandem fun s t => h.setApplied s t i
  dsimp only [withStore]
  split
  · exact .bind (updateQueue_tandem _) fun _ => .pure _
  · exact .throw _

theorem onBlockCommit_tandem [Formats] (b : BlockId) :
    Tandem R (onBlockCommit env b : NodeM S Unit) (onBlockCommit env b) := by
  refine .bind (emit_tandem _) fun _ => .bind ?_ fun _ => ?_
  · refine Tandem.read fun _ _ => .ite (.bind (confirmFront_tandem h) fun _ => ?_) (.pure _)
    refine .bind (.bind (expectCall_tandem _ _ _) fun settings =>
      .bind (expect_tandem _) fun peers => Tandem.read fun n t => expect_tandem _) fun change => ?_
    split
    · refine .bind (setLeaderState_tandem _) fun _ => .bind (tryCall_tandem _ _) fun ok => ?_
      exact .ite (.pure _) (.throw _)
    · exact startBuilding_tandem env
  · exact Tandem.read fun _ _ => .ite (.bind (confirmFront_tandem h) fun _ =>
      setFollowerState_tandem _) (.pure _)

theorem processReady_tandem [Protobuf] (round : Option Round) :
    Tandem R (processReady env round : NodeM S ReadyStatus) (processReady env round) := by
  have hsends : ∀ round : Round, Tandem R (round.ready.messages.forM (sendMsg env) : NodeM S Unit)
      (round.ready.messages.forM (sendMsg env)) :=
    fun round => .forM _ fun msg _ => sendMsg_tandem env msg
  cases round with
  | none => exact .pure _
  | some round =>
    refine .bind (emit_tandem _) fun _ => .bind ?_ fun _ => .bind (persist_tandem env h _) fun _ =>
      .bind ?_ fun _ => .bind (deliver_tandem env _) fun status => ?_
    · exact .ite (.bind (stepUp_tandem env) fun _ => hsends round) (.pure _)
    · exact .ite (.pure _) (.bind (stepDown_tandem env) fun _ => hsends round)
    · cases status with
      | Shutdown => exact .pure _
      | Continue =>
        exact .bind (commitNext_tandem env) fun _ => .bind (emit_tandem _) fun _ => .pure _

/-- **Step**: every input does the same to both. -/
theorem handle_tandem [Protobuf] [Formats] (i : Input) :
    Tandem R (handle env i : NodeM S ReadyStatus) (handle env i) := by
  cases i with
  | blockNew block => exact .bind (onBlockNew_tandem env block) fun _ => .pure _
  | blockValid b => exact .bind (onBlockValid_tandem env b) fun _ => .pure _
  | blockCommit b => exact .bind (onBlockCommit_tandem env h b) fun _ => .pure _
  | peerMessage message => exact .bind (onPeerMessage_tandem env message) fun _ => .pure _
  | tick => exact .bind (tick_tandem env) fun _ => .pure _
  | processReady round => exact processReady_tandem env h round

end

end Node

/-! ## Runs in which Raft asks the store -/

/-- An input for the node, or a call of Raft to the store. -/
inductive Event where
  | input (i : Input)
  | asked (c : Call)

/-- Whether the call may be one that the cache is not transparent for. -/
def Event.Proper : Event → Prop
  | .input _ => True
  | .asked c => c.Proper

/-- A system, and the answers that Raft has been given so far. -/
structure Attended (S : Type) where
  sys : Sys S
  answers : List (Except Fault Reply)

namespace Attended

variable {S T : Type} [StorageExt S] [StorageExt T] [Protobuf] [Formats] (env : Env)

/-- Raft and its store are gone once the node has stopped. -/
def step (a : Attended S) : Event → Attended S
  | .input i => { a with sys := a.sys.step env i }
  | .asked c =>
    if a.sys.status = .running then
      let o := StorageExt.serve a.sys.node.store c
      { sys := { a.sys with node := a.sys.node.stored o }, answers := a.answers ++ [o.result] }
    else a

def run (a : Attended S) (events : List Event) : Attended S := events.foldl (step env) a

omit [StorageExt S] [StorageExt T] [Protobuf] [Formats] in
/-- The same status, the same answers, and nodes that are twins. -/
structure Alike (R : S → T → Prop) (a : Attended S) (a' : Attended T) : Prop where
  node : Node.Twins R a.sys.node a'.sys.node
  status : a.sys.status = a'.sys.status
  answers : a.answers = a'.answers

variable {env} {R : S → T → Prop}

theorem alike_input (h : Replaces R) {a : Attended S} {a' : Attended T} (ha : Alike R a a')
    (i : Input) : Alike R (a.step env (.input i)) (a'.step env (.input i)) := by
  obtain ⟨⟨n, status⟩, answers⟩ := a
  obtain ⟨⟨n', status'⟩, answers'⟩ := a'
  obtain ⟨hn, rfl, rfl⟩ := ha
  cases status with
  | running =>
    have hsame := Node.handle_tandem env h i n n' hn
    show Alike R ⟨Sys.after (Node.handle env i n), answers⟩
      ⟨Sys.after (Node.handle env i n'), answers⟩
    generalize Node.handle env i n = r at hsame ⊢
    generalize Node.handle env i n' = r' at hsame ⊢
    cases hsame with
    | ok st hn' =>
      cases st with
      | Continue => exact ⟨hn', rfl, rfl⟩
      | Shutdown => exact ⟨hn', rfl, rfl⟩
    | error p hn' => exact ⟨hn', rfl, rfl⟩
  | shutdown => exact ⟨hn, rfl, rfl⟩
  | panicked p => exact ⟨hn, rfl, rfl⟩

theorem alike_asked {c : Call}
    (hc : ∀ s t, R s t → Agree R (StorageExt.serve s c) (StorageExt.serve t c))
    {a : Attended S} {a' : Attended T} (ha : Alike R a a') :
    Alike R (a.step env (.asked c)) (a'.step env (.asked c)) := by
  obtain ⟨⟨n, status⟩, answers⟩ := a
  obtain ⟨⟨n', status'⟩, answers'⟩ := a'
  obtain ⟨hn, rfl, rfl⟩ := ha
  unfold step
  dsimp only
  by_cases hrun : status = .running
  · rw [if_pos hrun, if_pos hrun]
    obtain ⟨t, ht⟩ := hn
    have hagree := hc n.store t ht
    exact ⟨Node.twins_stored hagree, rfl, congrArg (fun r => answers ++ [r]) hagree.result⟩
  · rw [if_neg hrun, if_neg hrun]
    exact ⟨hn, rfl, rfl⟩

end Attended

/-! ## With and without a cache -/

namespace CachedStorage

variable {C : Type → Type}

theorem callDown_ops {S α : Type} (cache : StorageCache C) (o : Outcome S α)
    (remember : α → StorageCache C) : (callDown cache o remember).ops = o.ops := by
  unfold callDown
  cases o.result with
  | ok a => rfl
  | error e => rfl

/-- A query that is answered by the cache does nothing, and neither does the
store for a query. -/
theorem remembered_ops {α : Type} (s : CachedStorage C FsStorage) (slot : Option α)
    (f : Dir → Except RaftError α) (remember : α → StorageCache C) :
    (remembered s slot (fun s => FsStorage.ask s (f s.dir)) remember).ops = [] := by
  cases slot with
  | some a => rfl
  | none => exact callDown_ops ..

variable [L : LruCache cacheSize C]

variable [Protobuf]

theorem serve_ops (s : CachedStorage C FsStorage) (c : Call) :
    (StorageExt.serve s c).ops = (StorageExt.serve s.storage c).ops := by
  cases c with
  | initialState => exact remembered_ops s s.cache.initialState FsStorage.initialState _
  | firstIndex => exact remembered_ops s s.cache.firstIndex FsStorage.firstIndex _
  | lastIndex => exact remembered_ops s s.cache.lastIndex FsStorage.lastIndex _
  | snapshot => exact remembered_ops s s.cache.snapshot FsStorage.snapshot _
  | entries low high m =>
    show (entries s low high m).ops = []
    unfold entries
    split
    · split
      · rfl
      · exact callDown_ops ..
    · exact callDown_ops ..
  | term idx =>
    show (term s idx).ops = []
    unfold term
    split
    · rfl
    · exact callDown_ops ..
  | setHardstate hs => exact mutate_ops s (StorageExt.setHardstate · hs)
  | applySnapshot snap => exact mutate_ops s (StorageExt.applySnapshot · snap)
  | createSnapshot i cs data => exact mutate_ops s (StorageExt.createSnapshot · i cs data)
  | compact c => exact mutate_ops s (StorageExt.compact · c)
  | append es => exact mutate_ops s (StorageExt.append · es)
  | applied => exact callDown_ops s.cache (StorageExt.applied s.storage) fun _ => s.cache
  | setApplied i => exact callDown_ops s.cache (StorageExt.setApplied s.storage i) fun _ => s.cache

/-- The cache is in front of this store, and remembers nothing that is not so. -/
structure Fronts (s : CachedStorage C FsStorage) (t : FsStorage) : Prop where
  storage : s.storage = t
  coherent : Coherent s.storage.dir s.cache
  wellIndexed : WellIndexed s.storage.dir

theorem serve_agree {c : Call} (hp : c.Proper) {s : CachedStorage C FsStorage} {t : FsStorage}
    (h : Fronts s t) : Agree Fronts (StorageExt.serve s c) (StorageExt.serve t c) := by
  obtain ⟨rfl, hc, hw⟩ := h
  have hsim := sim_serve hp hc hw
  exact ⟨hsim.result, serve_ops s c, hsim.storage, hsim.coherent, hsim.wellIndexed⟩

omit [Protobuf] in
/-- The answer of a mutator is no more than that it has succeeded. -/
theorem agree_of_reply {S T : Type} {R : S → T → Prop} {o : Outcome S Unit} {o' : Outcome T Unit}
    (h : Agree R (o.reply fun _ => .unit) (o'.reply fun _ => .unit)) : Agree R o o' := by
  refine ⟨?_, h.ops, h.store⟩
  have hresult : o.result.map (fun _ => Reply.unit) = o'.result.map fun _ => Reply.unit := h.result
  cases hr : o.result with
  | ok a =>
    cases hr' : o'.result with
    | ok a' => rfl
    | error e' =>
      rw [hr, hr'] at hresult
      exact nomatch hresult
  | error e =>
    cases hr' : o'.result with
    | ok a' =>
      rw [hr, hr'] at hresult
      exact nomatch hresult
    | error e' =>
      rw [hr, hr'] at hresult
      exact congrArg Except.error (Except.error.inj hresult)

theorem fronts_replaces : Replaces (Fronts (C := C)) where
  applySnapshot _ _ snap h := agree_of_reply (serve_agree (c := .applySnapshot snap) trivial h)
  append _ _ es h := agree_of_reply (serve_agree (c := .append es) trivial h)
  setHardstate _ _ hs h := agree_of_reply (serve_agree (c := .setHardstate hs) trivial h)
  setApplied _ _ i h := agree_of_reply (serve_agree (c := .setApplied i) trivial h)

variable [Formats]

/-- **Run**: what is alike at the beginning stays alike. -/
theorem run_alike {env : Env} {events : List Event} (hp : ∀ e ∈ events, e.Proper)
    {a : Attended (CachedStorage C FsStorage)} {a' : Attended FsStorage}
    (h : Attended.Alike Fronts a a') :
    Attended.Alike Fronts (a.run env events) (a'.run env events) := by
  induction events generalizing a a' with
  | nil => exact h
  | cons e events ih =>
    obtain ⟨he, hp⟩ := List.forall_mem_cons.mp hp
    refine ih hp ?_
    cases e with
    | input i => exact Attended.alike_input fronts_replaces h i
    | asked c => exact Attended.alike_asked (fun s t => serve_agree he) h

/-- **A node cannot tell that its store is cached**: with a new cache in front
of its store it goes through every run as without, with the same trace, file
operations included, and Raft is given the same answers. -/
theorem cached_node_agrees (env : Env) (node : Node FsStorage) (hd : WellIndexed node.store.dir)
    (events : List Event) (hp : ∀ e ∈ events, e.Proper) :
    let cached := Attended.run env
      { sys := Sys.start (node.withStore (new node.store : CachedStorage C FsStorage)),
        answers := [] } events
    let bare := Attended.run env { sys := Sys.start node, answers := [] } events
    cached.sys.node.withStore cached.sys.node.store.storage = bare.sys.node ∧
      cached.sys.status = bare.sys.status ∧ cached.answers = bare.answers := by
  intro cached bare
  have hstart : Node.Twins Fronts (node.withStore (new node.store : CachedStorage C FsStorage))
      node := .intro _ node.store ⟨rfl, coherent_fresh _, hd⟩
  obtain ⟨hnode, hstatus, hanswers⟩ : Attended.Alike Fronts cached bare :=
    run_alike hp ⟨hstart, rfl, rfl⟩
  refine ⟨?_, hstatus, hanswers⟩
  generalize cached.sys.node = n at hnode ⊢
  generalize bare.sys.node = n' at hnode ⊢
  cases hnode with
  | intro t ht => rw [ht.storage]

end CachedStorage

namespace CachedStorage

open scoped Proto3 PlainFormats
open FsStorage (newStore)

/-- A node over an empty log. -/
def emptyNode : Node FsStorage where
  peerId := []
  store := newStore
  leaderState := none
  followerState := some .idle
  blockQueue := BlockQueue.new
  raftIdToPeerId := ∅
  period := 0
  trace := []

/-- Two entries are appended. Raft reads the first one twice, the second time
from the cache, and then both after the hard state has been set. -/
def readingEvents : List Event :=
  [.input (.processReady (some { isLeader := false, ready :=
      { entries := [{ term := 2, index := 1, data := [7] }, { term := 2, index := 2 }] } })),
    .asked (.entries 1 2 0), .asked (.entries 1 2 0),
    .input (.processReady (some { isLeader := false, ready := { hs := some { term := 2 } } })),
    .asked (.entries 1 3 0), .asked (.term 2)]

theorem cached_node_agrees_reading :
    letI := listLru cacheSize
    (Attended.run (Env.obliging [7] fun _ => twoPeersSetting)
      { sys := Sys.start (emptyNode.withStore (new emptyNode.store : CachedStorage List FsStorage)),
        answers := [] } readingEvents).answers
      = [.ok (.entries [{ term := 2, index := 1, data := [7] }]),
          .ok (.entries [{ term := 2, index := 1, data := [7] }]),
          .ok (.entries [{ term := 2, index := 1, data := [7] }, { term := 2, index := 2 }]),
          .ok (.number 2)] := by
  let _ := listLru cacheSize
  have hproper : ∀ e ∈ readingEvents, e.Proper := by
    simp [readingEvents, Event.Proper, Call.Proper]
  refine (cached_node_agrees (Env.obliging [7] fun _ => twoPeersSetting) emptyNode
    newStore_wellIndexed readingEvents hproper).2.2.trans ?_
  decide +kernel

end CachedStorage

end SawtoothRaft
