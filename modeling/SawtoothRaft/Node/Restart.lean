import SawtoothRaft.Node.Aloof
import SawtoothRaft.Node.Persist
import SawtoothRaft.Storage.Restartable

/-!
# The store can always be restarted from

A node that runs on an `FsStorage` writes to it in two handlers. In
`process_ready` the entries come first and the hard state second, so the
commit index never points beyond the log; in `on_block_commit` the applied
index is that of a block that was delivered, so it never points beyond the
commit index. `Solid` says this of the directory and of the block queue, and
`lived_restartable` follows for every directory that can be left behind: by
any number of sessions from the empty directory on, each of them cut off at any
point of its trace.

`RoundOk` is what Raft promises about a `Ready` in which there is no snapshot.
-/

namespace SawtoothRaft

open Lib FsStorage

/-! ## Sessions -/

/-- The log is reported as committed up to this index. -/
def reportedStep (commit : Nat) : Obs → Nat
  | .ready round => (round.ready.hs.map (·.commit)).getD commit
  | _ => commit

/-- The commit index last reported in a `Ready`, or else the one that was
loaded. -/
def reported (loaded : Nat) (t : List Obs) : Nat := t.foldl reportedStep loaded

@[simp] theorem reported_snoc (loaded : Nat) (t : List Obs) (o : Obs) :
    reported loaded (t ++ [o]) = reportedStep (reported loaded t) o := by
  simp only [reported, List.foldl_append, List.foldl_cons, List.foldl_nil]

/-- A `Ready` of a Raft whose log ends at `last` and was reported as committed
up to `commit`. -/
structure RoundOk (env : Env) (commit last : Nat) (round : Round) : Prop where
  noSnapshot : env.isEmptySnap round.ready.snapshot = true
  entries : Batch commit last round.ready.entries
  hardState : ∀ hs ∈ round.ready.hs,
    commit ≤ hs.commit ∧ hs.commit ≤ lastAfter last round.ready.entries
  committed : ∀ e ∈ round.committed, e.index ≤ reportedStep commit (.ready round)

section
variable [Protobuf]

/-- Raft keeps its promises in this step. -/
def Promises (env : Env) (loaded : Nat) (s : Sys FsStorage) (i : Input) : Prop :=
  ∀ round last, i = .processReady (some round) → readLastIndex s.node.store.dir = .ok last →
    RoundOk env (reported loaded s.node.trace) last round

/-- The file operations of `with_data_dir`. -/
def opening (d : Dir) : List FileOp :=
  match withDataDir { dir := d, ops := [] } with
  | .ok _ fs => fs.ops
  | .error _ fs => fs.ops

/-- A new node on the store in `d`. -/
def OpenedOn (d : Dir) (node : Node FsStorage) : Prop :=
  ∃ peerId peers period,
    Node.new peerId ⟨reopened d⟩ peers period ((opening d).map Obs.file) = .ok node

variable [Formats]

/-- The directories that can be left behind. -/
inductive Lived : Dir → Prop
  | empty : Lived emptyDir
  | session {d : Dir} (h : Lived d) {node : Node FsStorage} (hnode : OpenedOn d node)
    {hs : HardState} (hhs : readHardState (reopened d) = .ok hs) (env : Env) (inputs : List Input)
    (hpromises : Meets (Sys.step env) (Promises env hs.commit) (Sys.start node) inputs)
    {t : List Obs} (ht : t <+: ((Sys.start node).run env inputs).node.trace) :
    Lived (replay d (fileOps t))

end

namespace Node

variable [Protobuf]

/-! ## What is kept -/

/-- The directory is as it should be, before or after its first opening. -/
def Viable (d : Dir) : Prop := Fresh d ∨ ∃ commit last, Sturdy commit last d

theorem Viable.restartable {d : Dir} (h : Viable d) : Restartable (reopened d) := by
  rcases h with h | ⟨commit, last, h⟩
  · rw [h.reopened_eq, ← (sturdy_initOps d).reopened_eq]
    exact (sturdy_initOps d).restartable
  · exact h.restartable

/-- Wherever the trace is cut off. -/
def AllViable (d : Dir) (t : List Obs) : Prop := ∀ t', t' <+: t → Viable (replay d (fileOps t'))

/-- The node's log ends at `last` and is committed up to `commit`, and so are
the blocks in its queue. -/
structure Solid (d : Dir) (commit last : Nat) (n : Node FsStorage) : Prop where
  viable : AllViable d n.trace
  dir : n.store.dir = replay d (fileOps n.trace)
  sturdy : Sturdy commit last n.store.dir
  queue : ∀ p ∈ n.blockQueue.commitQueue, p.2 ≤ commit

section
variable {d : Dir} {commit last : Nat} {n : Node FsStorage}

/-- What is not a file operation does not matter. -/
theorem Solid.note (h : Solid d commit last n) {o : Obs} (ho : ∀ op, o ≠ .file op) :
    Solid d commit last (n.add o) := by
  have hops : fileOps (n.trace ++ [o]) = fileOps n.trace := by
    rw [fileOps_append, fileOps_other ho, List.append_nil]
  refine ⟨fun t' ht' => ?_, ?_, h.sturdy, h.queue⟩
  · rcases List.prefix_concat_iff.mp ht' with rfl | ht'
    · rw [hops]
      exact h.viable _ (List.prefix_refl _)
    · exact h.viable t' ht'
  · rw [add_trace, hops]
    exact h.dir

/-- A call to the store that leaves a sturdy directory at each of its steps. -/
theorem Solid.stored (h : Solid d commit last n) {commit' last' : Nat} {o : Outcome FsStorage Unit}
    (hdir : o.store.dir = replay n.store.dir o.ops) (hcommit : commit ≤ commit')
    (hops : ∀ ops, ops <+: o.ops → ∃ c l, Sturdy c l (replay n.store.dir ops))
    (hend : Sturdy commit' last' (replay n.store.dir o.ops)) :
    Solid d commit' last' (n.stored o) := by
  refine ⟨fun t' ht' => ?_, ?_, ?_, fun p hp => Nat.le_trans (h.queue p hp) hcommit⟩
  · rcases prefix_append_files ht' with ht' | ⟨ops, hpre, rfl⟩
    · exact h.viable t' ht'
    · rw [fileOps_append, fileOps_files, replay_append, ← h.dir]
      exact Or.inr (hops ops hpre)
  · rw [stored_trace, fileOps_append, fileOps_files, replay_append, ← h.dir]
    exact hdir
  · show Sturdy commit' last' o.store.dir
    rw [hdir]
    exact hend

theorem solid_aloof : Aloof (fun _ => True) (Solid d commit last) where
  panics _ _ := trivial
  leader _ _ h := ⟨h.viable, h.dir, h.sturdy, h.queue⟩
  follower _ _ h := ⟨h.viable, h.dir, h.sturdy, h.queue⟩
  backlog _ _ h := ⟨h.viable, h.dir, h.sturdy, h.queue⟩
  note n o ho h := h.note fun op heq => by
    subst heq
    exact ho

/-! ## Single calls to the store -/

/-- A call that consists of a single write. -/
theorem Solid.write (h : Solid d commit last n) {m : FsM Fault Unit} {op : FileOp}
    (hm : ∀ fs, m fs = .ok () (fs.after [op])) {commit' : Nat} (hcommit : commit ≤ commit')
    (hop : Sturdy commit' last (op.apply n.store.dir)) :
    Solid d commit' last (n.stored (FsStorage.call m n.store)) := by
  rw [call_eq hm]
  refine h.stored rfl hcommit (fun ops hops => ?_) hop
  have hops' : ops <+: [] ++ [op] := hops
  rcases List.prefix_concat_iff.mp hops' with rfl | hops
  · exact ⟨_, _, hop⟩
  · rw [List.prefix_nil.mp hops]
    exact ⟨_, _, h.sturdy⟩

theorem Solid.append (h : Solid d commit last n) {es : List Entry}
    (hes : Batch commit last es) :
    Solid d commit (lastAfter last es) (n.stored (StorageExt.append n.store es)) := by
  show Solid d commit _ (n.stored (FsStorage.call (FsStorage.append es) n.store))
  rw [call_eq (append_eq es)]
  refine h.stored rfl (Nat.le_refl _) (fun ops hops => ?_) (h.sturdy.append hes)
  obtain ⟨last', hsturdy⟩ := h.sturdy.append_prefix hes hops
  exact ⟨commit, last', hsturdy⟩

end

/-! ## The handlers -/

/-- In between, Raft may have reported more as committed than is on disk. -/
structure Upheld (d : Dir) (loaded commit commit' last : Nat) (n : Node FsStorage) : Prop where
  solid : Solid d commit last n
  reported : reported loaded n.trace = commit'

/-- What is left by a panic. -/
def Left (d : Dir) (n : Node FsStorage) : Prop := AllViable d n.trace

section
variable {d : Dir} {loaded commit commit' last : Nat} {env : Env}

theorem Upheld.left {n : Node FsStorage} (h : Upheld d loaded commit commit' last n) : Left d n :=
  h.solid.viable

theorem Upheld.note {n : Node FsStorage} (h : Upheld d loaded commit commit' last n) {o : Obs}
    (ho : ∀ op, o ≠ .file op) (hready : ∀ round, o ≠ .ready round) :
    Upheld d loaded commit commit' last (n.add o) := by
  refine ⟨h.solid.note ho, ?_⟩
  rw [add_trace, reported_snoc, h.reported]
  cases o with
  | ready round => exact absurd rfl (hready round)
  | _ => rfl

theorem upheld_aloof : Aloof (fun _ => True) (Upheld d loaded commit commit' last) where
  panics _ _ := trivial
  leader _ _ h := ⟨solid_aloof.leader _ _ h.solid, h.reported⟩
  follower _ _ h := ⟨solid_aloof.follower _ _ h.solid, h.reported⟩
  backlog _ _ h := ⟨solid_aloof.backlog _ _ h.solid, h.reported⟩
  note n o ho h := by
    refine h.note (fun op heq => ?_) fun round heq => ?_
    · subst heq
      exact ho
    · subst heq
      exact ho

/-- What keeps the assertion leaves what a panic may leave. -/
theorem Keeps.upheld {α : Type} {m : NodeM FsStorage α}
    (h : Keeps (fun _ => True) (Upheld d loaded commit commit' last) m) :
    Triple (Upheld d loaded commit commit' last) m
      (fun _ => Upheld d loaded commit commit' last) (fun _ => Left d) :=
  Triple.conseq h (fun _ hn => hn) (fun _ _ hn => hn) fun _ _ hn => hn.2.left

theorem sends_upheld (messages : List RaftMessage) :
    Keeps (fun _ => True) (Upheld d loaded commit commit' last)
      (messages.forM (sendMsg env)) :=
  Triple.forM _ fun msg _ =>
    sendMsg_keeps (fun _ => trivial) (fun _ _ _ hn => hn.note (by simp) (by simp)) msg

omit [Protobuf] in
/-- File operations report nothing. -/
theorem reported_files (loaded : Nat) (t : List Obs) (ops : List FileOp) :
    reported loaded (t ++ ops.map Obs.file) = reported loaded t := by
  induction ops generalizing t with
  | nil => rw [List.map_nil, List.append_nil]
  | cons op ops ih =>
    rw [List.map_cons, List.append_cons, ih, reported_snoc]
    rfl

/-- The entries come before the hard state that commits them. -/
theorem persist_upheld {round : Round} (hround : RoundOk env commit last round) :
    Triple (Upheld d loaded commit (reportedStep commit (.ready round)) last)
      (persist env round.ready)
      (fun _ => Upheld d loaded (reportedStep commit (.ready round))
        (reportedStep commit (.ready round)) (lastAfter last round.ready.entries))
      (fun _ => Left d) := by
  refine Triple.bind (R := fun _ => Upheld d loaded commit (reportedStep commit (.ready round)) last)
    ?_ fun _ => ?_
  · unfold persistSnapshot
    rw [if_pos hround.noSnapshot]
    exact (Keeps.pure _).upheld
  refine Triple.bind (R := fun _ => Upheld d loaded commit (reportedStep commit (.ready round))
    (lastAfter last round.ready.entries)) ?_ fun _ => ?_
  · unfold persistEntries
    refine Triple.ite (fun hnil => ?_) fun _ => ?_
    · rw [hnil]
      exact (Keeps.pure _).upheld
    · refine storeCall_triple (fun n hn => ?_) fun _ _ hn => Upheld.left hn
      refine ⟨hn.solid.append hround.entries, ?_⟩
      rw [stored_trace, reported_files]
      exact hn.reported
  · unfold persistHardState
    cases hhs : round.ready.hs with
    | none =>
      have hsame : reportedStep commit (.ready round) = commit := by
        show (round.ready.hs.map (·.commit)).getD commit = commit
        rw [hhs]
        rfl
      rw [hsame]
      exact (Keeps.pure _).upheld
    | some hs =>
      have hnew : reportedStep commit (.ready round) = hs.commit := by
        show (round.ready.hs.map (·.commit)).getD commit = hs.commit
        rw [hhs]
        rfl
      obtain ⟨hge, hle⟩ := hround.hardState hs hhs
      rw [hnew]
      refine storeCall_triple (fun n hn => ?_) fun _ _ hn => Upheld.left hn
      refine ⟨hn.solid.write (setHardstate_eq hs) hge (hn.solid.sturdy.writeHardState hge hle), ?_⟩
      rw [stored_trace, reported_files]
      exact hn.reported

/-- Delivered blocks are committed, and so may be queued. -/
theorem upheld_receptive {es : List Entry} (hes : ∀ e ∈ es, e.index ≤ commit) :
    Receptive es (fun _ => True) (Upheld d loaded commit commit' last) where
  toAloof := upheld_aloof
  block n e he hn := by
    refine ⟨⟨hn.solid.viable, hn.solid.dir, hn.solid.sturdy, fun p hp => ?_⟩, hn.reported⟩
    rcases List.mem_append.mp hp with hp | hp
    · exact hn.solid.queue p hp
    · rw [List.mem_singleton.mp hp]
      exact hes e he
  peers _ _ hn := ⟨⟨hn.solid.viable, hn.solid.dir, hn.solid.sturdy, hn.solid.queue⟩,
    hn.reported⟩

theorem processReady_upheld {round : Round} (hround : RoundOk env commit last round) :
    Triple (Upheld d loaded commit commit last) (processReady env (some round))
      (fun _ n => ∃ commit last, Upheld d loaded commit commit last n) (fun _ => Left d) := by
  refine Triple.bind (R := fun _ => Upheld d loaded commit (reportedStep commit (.ready round)) last)
    (Triple.update fun n hn => ⟨hn.solid.note (by simp), ?_⟩) fun _ => ?_
  · show reported loaded (n.trace ++ [.ready round]) = _
    rw [reported_snoc, hn.reported]
  refine Triple.bind (R := fun _ => Upheld d loaded commit (reportedStep commit (.ready round)) last)
    (Keeps.upheld ?_) fun _ => ?_
  · exact .ite (.bind upheld_aloof.stepUp fun _ => sends_upheld _) (.pure _)
  refine Triple.bind (persist_upheld hround) fun _ => ?_
  refine Triple.conseq (Keeps.upheld ?_) (fun _ hn => hn) (fun _ _ hn => ⟨_, _, hn⟩)
    fun _ _ hn => hn
  have hreceptive : Receptive round.committed (fun _ => True)
      (Upheld d loaded (reportedStep commit (.ready round)) (reportedStep commit (.ready round))
        (lastAfter last round.ready.entries)) :=
    upheld_receptive hround.committed
  refine .bind (.ite (.pure _) (.bind hreceptive.stepDown fun _ => sends_upheld _)) fun _ => ?_
  exact .bind (hreceptive.deliver fun e he => he) fun status => hreceptive.afterEntries status

/-- The index of a confirmed block is that of a committed entry. -/
theorem confirmFront_upheld : Triple (Upheld d loaded commit commit last) confirmFront
    (fun _ => Upheld d loaded commit commit last) (fun _ => Left d) := by
  refine Triple.bind (R := fun i n => Upheld d loaded commit commit last n ∧ i ≤ commit) ?_
    fun i => ?_
  · refine Triple.read fun n hn => ?_
    cases hq : n.blockQueue.commitQueue with
    | nil =>
      have hnone : n.blockQueue.blockCommitted = none := by
        unfold BlockQueue.blockCommitted
        rw [hq]
      rw [hnone]
      exact Triple.throw fun s hs => hs ▸ hn.left
    | cons p rest =>
      obtain ⟨b, i⟩ := p
      obtain ⟨q, hpop, hrest, -⟩ := BlockQueue.blockCommitted_cons hq
      rw [hpop]
      have hi : i ≤ commit := hn.solid.queue (b, i) (hq ▸ List.mem_cons_self ..)
      refine Triple.bind (R := fun _ => Upheld d loaded commit commit last)
        (Triple.update fun s hs => ?_) fun _ => Triple.pure fun s hs => ⟨hs, hi⟩
      rw [hs]
      refine ⟨⟨hn.solid.viable, hn.solid.dir, hn.solid.sturdy, fun p hp => ?_⟩, hn.reported⟩
      have hp' : p ∈ rest := hrest ▸ hp
      exact hn.solid.queue p (hq ▸ List.mem_cons_of_mem _ hp')
  · refine Triple.bind (R := fun _ n => Upheld d loaded commit commit last n ∧ i ≤ commit)
      (Triple.update fun n hn => ⟨hn.1.note (by simp) (by simp), hn.2⟩) fun _ => ?_
    refine storeCall_triple (fun n hn => ?_) fun _ _ hn => Upheld.left hn
    refine ⟨hn.1.solid.write (setApplied_eq i) (Nat.le_refl _)
      (hn.1.solid.sturdy.writeApplied hn.2), ?_⟩
    rw [stored_trace, reported_files]
    exact hn.1.reported

variable [Formats]

theorem onBlockCommit_upheld (b : BlockId) :
    Triple (Upheld d loaded commit commit last) (onBlockCommit env b)
      (fun _ => Upheld d loaded commit commit last) (fun _ => Left d) := by
  refine Triple.bind (upheld_aloof.emit (o := .blockCommit b) trivial).upheld fun _ => ?_
  refine Triple.bind (R := fun _ => Upheld d loaded commit commit last) ?_ fun _ => ?_
  · refine Triple.read fun n hn => Triple.pre ?_ fun s (hs : s = n) => hs ▸ hn
    refine Triple.ite (fun _ => ?_) fun _ => (Keeps.pure _).upheld
    exact Triple.bind confirmFront_upheld fun _ =>
      (upheld_aloof.afterCommit (upheld_aloof.checkForConfChange trivial b)).upheld
  · refine Triple.read fun n hn => Triple.pre ?_ fun s (hs : s = n) => hs ▸ hn
    refine Triple.ite (fun _ => ?_) fun _ => (Keeps.pure _).upheld
    exact Triple.bind confirmFront_upheld fun _ => (upheld_aloof.setFollowerState _).upheld

/-- **Step**: a handler leaves every directory on its way viable, if the rounds keep
to what Raft promises. -/
theorem handle_upheld {i : Input}
    (hi : ∀ round, i = .processReady (some round) → RoundOk env commit last round) :
    Triple (Upheld d loaded commit commit last) (handle env i)
      (fun _ n => ∃ commit last, Upheld d loaded commit commit last n) (fun _ => Left d) := by
  have hdone : ∀ {m : NodeM FsStorage Unit},
      Triple (Upheld d loaded commit commit last) m
        (fun _ => Upheld d loaded commit commit last) (fun _ => Left d) →
      Triple (Upheld d loaded commit commit last) (do m; pure ReadyStatus.Continue)
        (fun _ n => ∃ commit last, Upheld d loaded commit commit last n) (fun _ => Left d) :=
    fun hm => Triple.bind hm fun _ => Triple.pure fun _ hn => ⟨_, _, hn⟩
  cases i with
  | blockNew block => exact hdone (upheld_aloof.onBlockNew block).upheld
  | blockValid b => exact hdone (upheld_aloof.onBlockValid b).upheld
  | blockCommit b => exact hdone (onBlockCommit_upheld b)
  | peerMessage message => exact hdone (upheld_aloof.onPeerMessage message).upheld
  | tick => exact hdone upheld_aloof.tick.upheld
  | processReady round =>
    cases round with
    | none => exact Triple.pure fun _ hn => ⟨_, _, hn⟩
    | some round => exact processReady_upheld (hi round rfl)

/-- **Session**: wherever it is cut off, the directory is viable. -/
theorem session_viable {node : Node FsStorage} (hnode : Upheld d loaded commit commit last node)
    {inputs : List Input}
    (h : Meets (Sys.step env) (Promises env loaded) (Sys.start node) inputs) :
    AllViable d ((Sys.start node).run env inputs).node.trace := by
  have hrun : ((Sys.start node).run env inputs).Sat
      (fun n => ∃ commit last, Upheld d loaded commit commit last n) (fun _ => Left d) := by
    refine Meets.invariant (fun s i hs hi => ?_) ⟨commit, last, hnode⟩ h
    refine Sys.sat_step (P := fun n => ∃ commit last, Upheld d loaded commit commit last n ∧
      ∀ round, i = .processReady (some round) → RoundOk env commit last round) ?_
      (fun _ hn => ?_) hs
    · refine Triple.intro fun commit => Triple.intro fun last n hn => ?_
      refine (handle_upheld hn.2).conseq (fun _ hn => hn) (fun status n hn => ?_)
        (fun _ _ hn => hn) n hn.1
      cases status with
      | Continue => exact hn
      | Shutdown =>
        obtain ⟨commit, last, hn⟩ := hn
        exact hn.left
    · obtain ⟨commit, last, hn⟩ := hn
      refine ⟨commit, last, hn, fun round hround => ?_⟩
      have hok := hi round last hround (hn.solid.sturdy.file .last)
      rwa [hn.reported] at hok
  generalize (Sys.start node).run env inputs = s at hrun ⊢
  obtain ⟨n, status⟩ := s
  cases status with
  | running =>
    obtain ⟨commit, last, hn⟩ := hrun
    exact hn.left
  | shutdown => exact hrun
  | panicked p => exact hrun

end

/-! ## One session after the other -/

section
variable {d : Dir}

theorem opening_of_fresh (h : Fresh d) : opening d = initOps := by
  unfold opening
  rw [@withDataDir_of_missing _ { dir := d, ops := [] } h.missing]
  rfl

theorem opening_of_sturdy {commit last : Nat} (h : Sturdy commit last d) : opening d = [] := by
  obtain ⟨hs, hhs, -⟩ := h.file .hardstate
  obtain ⟨s, hsnap⟩ := h.file .snapshot
  have hread : readRaftState d ≠ .error .NotFound := by
    unfold readRaftState readConfState
    rw [hhs, hsnap]
    intro h
    cases h
  unfold opening
  rw [@withDataDir_of_not_missing _ { dir := d, ops := [] } hread]

/-- Opening a viable directory leads to a sturdy one, and through viable ones. -/
theorem Viable.opening (h : Viable d) : reopened d = replay d (opening d) ∧
    (∃ commit last, Sturdy commit last (reopened d)) ∧
    ∀ ops, ops <+: SawtoothRaft.opening d → Viable (replay d ops) := by
  rcases h with h | ⟨commit, last, h⟩
  · rw [opening_of_fresh h, h.reopened_eq]
    refine ⟨rfl, ⟨0, 0, sturdy_initOps d⟩, fun ops hops => ?_⟩
    rcases h.opening hops with hfresh | rfl
    · exact Or.inl hfresh
    · exact Or.inr ⟨0, 0, sturdy_initOps d⟩
  · rw [opening_of_sturdy h, h.reopened_eq]
    refine ⟨rfl, ⟨commit, last, h⟩, fun ops hops => ?_⟩
    rw [List.prefix_nil.mp hops]
    exact Or.inr ⟨commit, last, h⟩

/-- A new node on a viable directory is in order. -/
theorem opened_upheld (h : Viable d) {node : Node FsStorage} (hnode : OpenedOn d node)
    {hs : HardState} (hhs : readHardState (reopened d) = .ok hs) :
    ∃ last, Upheld d hs.commit hs.commit hs.commit last node := by
  obtain ⟨peerId, peers, period, hnew⟩ := hnode
  obtain ⟨_, rfl⟩ := new_eq hnew
  obtain ⟨hreopened, ⟨commit, last, hsturdy⟩, hops⟩ := h.opening
  obtain rfl : commit = hs.commit := by
    obtain ⟨hs', hhs', hc⟩ := hsturdy.file .hardstate
    rw [← hc, Except.ok.inj (hhs'.symm.trans hhs)]
  refine ⟨last, ⟨fun t' ht' => ?_, ?_, hsturdy, fun p hp => ?_⟩, ?_⟩
  · rcases prefix_append_files (t := []) ht' with ht' | ⟨ops, hpre, rfl⟩
    · rw [List.prefix_nil.mp ht']
      exact h
    · rw [List.nil_append, fileOps_files]
      exact hops ops hpre
  · show reopened d = replay d (fileOps ((opening d).map Obs.file))
    rw [fileOps_files]
    exact hreopened
  · cases hp
  · exact reported_files hs.commit [] (opening d)

end

/-- **Every directory that can be left behind is viable**, by induction on the
sessions. -/
theorem lived_viable [Formats] {d : Dir} (h : Lived d) : Viable d := by
  induction h with
  | empty => exact Or.inl ⟨rfl, Or.inl rfl⟩
  | session _ hnode hhs env inputs hpromises ht ih =>
    obtain ⟨last, hupheld⟩ := opened_upheld ih hnode hhs
    exact session_viable hupheld hpromises _ ht

/-- **Raft can be restarted from every directory that can be left behind**,
however many sessions there were and wherever each of them was cut off. -/
theorem lived_restartable [Formats] (d : Dir) (h : Lived d) : Restartable (reopened d) :=
  (lived_viable h).restartable

end Node

/-! ## A session -/

namespace Node

open scoped Proto3 PlainFormats

/-- Raft hands over one block, which is committed already. -/
def committedRound : Round where
  isLeader := false
  ready := {
    entries := [{ entryType := .EntryNormal, term := 2, index := 1, data := [7] }]
    hs := some { term := 2, vote := 0, commit := 1 }
    committedEntries := some [{ entryType := .EntryNormal, term := 2, index := 1, data := [7] }] }

/-- The block is committed and confirmed. -/
def committedBlock : List Input :=
  [.blockValid [7], .processReady (some committedRound), .blockCommit [7]]

/-- A new node on the empty directory. -/
def onEmptyDir : Except Panic (Node FsStorage) :=
  Node.new (peerOf 1) ⟨reopened emptyDir⟩ [peerOf 1, peerOf 2] 0 ((opening emptyDir).map Obs.file)

theorem committedRound_ok (env : Env) (h : env.isEmptySnap {} = true) :
    RoundOk env 0 0 committedRound where
  noSnapshot := h
  entries := by
    refine ⟨fun e he => ?_, fun e he => ?_⟩
    · obtain rfl := Option.some.inj he
      decide
    · obtain rfl := List.mem_singleton.mp he
      decide
  hardState hs hhs := by
    obtain rfl := Option.some.inj hhs
    decide
  committed e he := by
    obtain rfl := List.mem_singleton.mp he
    decide

/-- The directory in which the index of the confirmed block is stored. -/
theorem lived_restartable_confirmed : ∃ d, Lived d ∧ readApplied d = .ok 1 ∧
    Restartable (reopened d) := by
  obtain ⟨n, hn⟩ : ∃ n, onEmptyDir = .ok n := ⟨_, rfl⟩
  let env := Env.obliging [8] fun _ _ => none
  have hrun : reported 0 ((Sys.start n).run env [.blockValid [7]]).node.trace = 0 ∧
      readLastIndex ((Sys.start n).run env [.blockValid [7]]).node.store.dir = .ok 0 ∧
      readApplied (replay emptyDir (fileOps ((Sys.start n).run env committedBlock).node.trace))
        = .ok 1 := by
    obtain rfl := Except.ok.inj (hn.symm.trans (rfl : onEmptyDir = .ok _))
    decide +kernel
  have hlived : Lived (replay emptyDir
      (fileOps ((Sys.start n).run env committedBlock).node.trace)) := by
    refine .session .empty ⟨_, _, _, hn⟩ (readPb_of_eq (m := default) rfl) env committedBlock
      ⟨fun round last h => ?_, fun round last h hlast => ?_, fun round last h => ?_, trivial⟩
      (List.prefix_refl _)
    · cases h
    · obtain rfl : committedRound = round := by
        injection h with h
        exact Option.some.inj h
      obtain rfl : 0 = last := Except.ok.inj (hrun.2.1.symm.trans hlast)
      have hcommit : reported 0 (Sys.step env (Sys.start n) (.blockValid [7])).node.trace = 0 :=
        hrun.1
      show RoundOk env (reported 0 _) 0 committedRound
      rw [hcommit]
      exact committedRound_ok env rfl
    · cases h
  exact ⟨_, hlived, hrun.2.2, lived_restartable _ hlived⟩

end Node

end SawtoothRaft
