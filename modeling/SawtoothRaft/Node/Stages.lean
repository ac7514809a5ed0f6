import SawtoothRaft.Node.Run

/-!
# The stages of a leader

A leader builds a block, publishes it, has it validated, proposes it, commits
it and starts over, or waits for a configuration change first. `Stage t l`
says how the trace and the stage go together: there is one constructor for
each way in which `leader_state` changes or one of the calls is made that it
is there to order (`initialize_block`, `summarize_block`, `finalize_block`,
`cancel_block`, `propose`, `propose_conf_change`). Every other observation is
`Quiet`.

Every handler goes through these stages (`handle_steered`), so a property of all
runs that is about the calls of a leader is proved by induction on `Stage`.

The `Terms` say more about two of the moments: what holds when the leader
proposes, and which `Ready`s the node is shown. Whoever proposes is in a stage,
and a node that is in a stage has been told so by the last `Ready`
(`leading`).
-/

namespace SawtoothRaft

open Lib

namespace Node

/-! ## Traces and stages -/

/-- Observations that no stage is about. -/
def Quiet : Obs → Prop
  | .ready _ | .initializeBlock _ | .summarizeBlock | .finalizeBlock | .cancelBlock | .propose _
  | .proposeConfChange _ => False
  | _ => True

/-- What is known of the moment of a proposal, and of a `Ready`. -/
structure Terms where
  may : List Obs → Prop
  shown : List Obs → Round → Prop

/-- Nothing is known. -/
def Terms.any : Terms where
  may _ := True
  shown _ _ := True

def leadingStep (leads : Bool) : Obs → Bool
  | .ready round => round.isLeader
  | _ => leads

/-- The last `Ready` had the role of a leader. -/
def leading (t : List Obs) : Bool := t.foldl leadingStep false

@[simp] theorem leading_snoc (t : List Obs) (o : Obs) :
    leading (t ++ [o]) = leadingStep (leading t) o := by
  simp only [leading, List.foldl_append, List.foldl_cons, List.foldl_nil]

/-- A node in a stage was told that it leads. -/
def Led (l : Option LeaderState) (t : List Obs) : Prop := l.isSome = true → leading t = true

/-- Nothing but file operations and a look at the settings since `b` was
confirmed. -/
def Confirmed (b : BlockId) (t : List Obs) : Prop :=
  ∃ u i rest, t = u ++ .blockCommit b :: .setApplied i :: rest ∧
    ∀ o ∈ rest, (∃ op, o = .file op) ∨ ∃ b keys, o = .getSettings b keys

/-- A configuration change has just been carried out. -/
def JustChanged (t : List Obs) : Prop :=
  ∃ u e change, t = u ++ [.entry e, .applyConfChange change] ∧ IsChange e

/-- What becomes of the block that was being built, by the answer of
`finalize_block`. -/
def publishedAs (since : Nat) : Except ServiceError BlockId → LeaderState
  | .ok b => .publishing b
  | .error _ => .building since

inductive Stage (env : Env) (A : Terms) : List Obs → Option LeaderState → Prop
  | opened (ops : List FileOp) : Stage env A (ops.map Obs.file) none
  | quiet {t l} (o : Obs) (h : Stage env A t l) (ho : Quiet o) : Stage env A (t ++ [o]) l
  | ready {t l} (round : Round) (h : Stage env A t l) (hl : Led l t) (hs : A.shown t round) :
    Stage env A (t ++ [.ready round]) l
  | elected {t} (h : Stage env A t none) (q : List (BlockId × Nat)) (since : Nat) :
    Stage env A (t ++ [.initializeBlock q]) (some (.building since))
  | tookOver {t} (h : Stage env A t none) (b : BlockId) : Stage env A t (some (.committing b))
  | summarized {t since} (h : Stage env A t (some (.building since))) :
    Stage env A (t ++ [.summarizeBlock]) (some (.building since))
  | finalized {t since} (h : Stage env A t (some (.building since))) (hr : leading t = true) :
    Stage env A (t ++ [.finalizeBlock])
      (some (publishedAs since (env.finalizeBlock (t ++ [.finalizeBlock]))))
  | received {t b} (h : Stage env A t (some (.publishing b))) :
    Stage env A t (some (.validating b))
  | proposed {t b l} (h : Stage env A (t ++ [.blockValid b]) l)
    (hl : l = some (.publishing b) ∨ l = some (.validating b))
    (hA : A.may (t ++ [.blockValid b])) :
    Stage env A (t ++ [.blockValid b] ++ [.propose b]) (some (.proposing b))
  | committed {t b} (h : Stage env A t (some (.proposing b))) :
    Stage env A t (some (.committing b))
  | resumed {t b} (h : Stage env A t (some (.committing b))) (hc : Confirmed b t)
    (q : List (BlockId × Nat)) (since : Nat) :
    Stage env A (t ++ [.initializeBlock q]) (some (.building since))
  | proposedChange {t b} (h : Stage env A t (some (.committing b))) (hc : Confirmed b t)
    (hA : A.may t) (change : ConfChange) :
    Stage env A (t ++ [.proposeConfChange change]) (some .changingConfig)
  | reconfigured {t} (h : Stage env A t (some .changingConfig)) (hc : JustChanged t)
    (q : List (BlockId × Nat)) (since : Nat) :
    Stage env A (t ++ [.initializeBlock q]) (some (.building since))
  | cancelled {t since} (h : Stage env A t (some (.building since))) (hr : leading t = false) :
    Stage env A (t ++ [.cancelBlock]) none
  | deposed {t l} (h : Stage env A t l) (hl : ∀ since, l ≠ some (.building since))
    (hr : leading t = false) : Stage env A t none

/-- What is left when a handler panics. -/
def Ended {S : Type} (env : Env) (A : Terms) (n : Node S) : Prop :=
  ∃ l, Stage env A n.trace l

/-- The stage is `l`, and `P` holds of the trace. -/
structure Staged {S : Type} (env : Env) (A : Terms) (l : Option LeaderState)
    (P : List Obs → Prop) (n : Node S) : Prop where
  leader : n.leaderState = l
  stage : Stage env A n.trace l
  trace : P n.trace

section
variable {S α : Type} {env : Env} {A : Terms} {P Q : List Obs → Prop}
  {l : Option LeaderState}

/-! ## Single actions -/

theorem Staged.ended {n : Node S} (h : Staged env A l P n) : Ended env A n := ⟨l, h.stage⟩

theorem Staged.imp {n : Node S} (h : Staged env A l P n) (hPQ : P n.trace → Q n.trace) :
    Staged env A l Q n :=
  ⟨h.leader, h.stage, hPQ h.trace⟩

/-- A change to anything but the stage and the trace. -/
theorem update_staged {g : Node S → Node S} (hl : ∀ n, (g n).leaderState = n.leaderState)
    (ht : ∀ n, (g n).trace = n.trace) :
    Triple (Staged env A l P) (modify g : NodeM S Unit) (fun _ => Staged env A l P)
      (fun _ => Ended env A) := by
  refine Triple.update fun n hn => ⟨(hl n).trans hn.leader, ?_, ?_⟩
  · rw [ht]
    exact hn.stage
  · rw [ht]
    exact hn.trace

theorem emit_staged {o : Obs} (ho : Quiet o) (h : ∀ t, P t → Q (t ++ [o])) :
    Triple (Staged env A l P) (emit o : NodeM S Unit) (fun _ => Staged env A l Q)
      (fun _ => Ended env A) :=
  Triple.update fun _ hn => ⟨hn.leader, .quiet o hn.stage ho, h _ hn.trace⟩

theorem tryCall_staged {o : Obs} {answer : List Obs → α} (ho : Quiet o)
    (h : ∀ t, P t → Q (t ++ [o])) :
    Triple (Staged env A l P) (tryCall o answer : NodeM S α) (fun _ => Staged env A l Q)
      (fun _ => Ended env A) := by
  refine Triple.bind (emit_staged ho h) fun _ => ?_
  refine Triple.bind (Triple.get fun n hn => hn) fun n => ?_
  exact Triple.pure fun _ hn => hn

theorem expectCall_staged {call : ServiceCall} {o : Obs}
    {answer : List Obs → Except ServiceError α} (ho : Quiet o) (h : ∀ t, P t → Q (t ++ [o])) :
    Triple (Staged env A l P) (expectCall call o answer : NodeM S α) (fun _ => Staged env A l Q)
      (fun _ => Ended env A) := by
  refine Triple.bind (tryCall_staged ho h) fun r => ?_
  cases r with
  | ok a => exact Triple.pure fun _ hn => hn
  | error err => exact Triple.throw fun _ hn => hn.ended

theorem expect_staged {r : Except Panic α} :
    Triple (Staged env A l P) (expect r : NodeM S α) (fun _ => Staged env A l P)
      (fun _ => Ended env A) := by
  cases r with
  | ok a => exact Triple.pure fun _ hn => hn
  | error p => exact Triple.throw fun _ hn => hn.ended

theorem stage_files {t : List Obs} (h : Stage env A t l) (ops : List FileOp) :
    Stage env A (t ++ ops.map Obs.file) l := by
  induction ops generalizing t with
  | nil => rwa [List.map_nil, List.append_nil]
  | cons op ops ih =>
    rw [List.map_cons, List.append_cons]
    exact ih (.quiet _ h trivial)

theorem storeCall_staged {g : S → Outcome S α}
    (h : ∀ t (ops : List FileOp), P t → Q (t ++ ops.map Obs.file)) :
    Triple (Staged env A l P) (storeCall g) (fun _ => Staged env A l Q)
      (fun _ => Ended env A) := by
  refine Triple.read fun n hn => ?_
  refine Triple.bind (R := fun _ => Staged env A l Q) ?_ fun _ => ?_
  · intro s hs
    rw [hs]
    exact ⟨hn.leader, stage_files hn.stage _, h _ _ hn.trace⟩
  · cases (g n.store).result with
    | ok a => exact Triple.pure fun _ hn => hn
    | error fault => exact Triple.throw fun _ hn => hn.ended

/-- Building starts, from a stage that allows it. -/
theorem startBuilding_staged
    (hstage : ∀ t q since, Stage env A t l → P t →
      Stage env A (t ++ [.initializeBlock q]) (some (.building since)))
    (h : ∀ t q, P t → Q (t ++ [.initializeBlock q])) :
    Triple (Staged env A l P) (startBuilding env : NodeM S Unit)
      (fun _ n => ∃ since, Staged env A (some (.building since)) Q n) (fun _ => Ended env A) := by
  refine Triple.read fun n hn => ?_
  -- the stage is set before the call is made
  refine Triple.bind (R := fun _ s => s = { n with leaderState := some (.building (env.now n.trace)) })
    (Triple.update fun s hs => by rw [hs]) fun _ => ?_
  refine Triple.bind (R := fun _ s => Staged env A (some (.building (env.now n.trace))) Q s) ?_
    fun r => ?_
  · refine Triple.bind (Triple.update fun s hs => ?_) fun _ =>
      Triple.bind (Triple.get fun n hn => hn) fun n => Triple.pure fun _ hn => hn
    rw [hs]
    exact ⟨rfl, hstage _ _ _ hn.stage hn.trace, h _ _ hn.trace⟩
  · cases r with
    | ok a => exact Triple.pure fun _ hn => ⟨_, hn⟩
    | error err => exact Triple.throw fun _ hn => hn.ended

/-- A call, with all that is known once it is answered. -/
theorem tryCall_eq {G : Node S → Prop} {o : Obs} {answer : List Obs → α}
    {E : Panic → Node S → Prop} : Triple G (tryCall o answer)
      (fun r n => ∃ n', G n' ∧ n = n'.add o ∧ r = answer (n'.trace ++ [o])) E := by
  refine Triple.bind (R := fun _ n => ∃ n', G n' ∧ n = n'.add o)
    (Triple.update fun n hn => ⟨n, hn, rfl⟩) fun _ => ?_
  refine Triple.bind (R := fun n s => s = n ∧ ∃ n', G n' ∧ n = n'.add o)
    (Triple.get fun n hn => ⟨rfl, hn⟩) fun n => ?_
  refine Triple.pure fun s hs => ?_
  obtain ⟨rfl, n', hn', rfl⟩ := hs
  exact ⟨n', hn', rfl, rfl⟩

end

/-! ## The handlers -/

theorem Led.snoc {l : Option LeaderState} {t : List Obs} (h : Led l t) {o : Obs}
    (ho : ∀ round, o ≠ .ready round) : Led l (t ++ [o]) := by
  intro hl
  rw [leading_snoc]
  cases o with
  | ready round => exact absurd rfl (ho round)
  | _ => exact h hl

theorem Quiet.ne_ready {o : Obs} (ho : Quiet o) (round : Round) : o ≠ .ready round := by
  intro h
  subst h
  exact ho

/-- What a handler does in the course of its work, other than what Raft does. -/
def Inner : Obs → Prop
  | .ready _ | .tick | .step _ => False
  | _ => True

/-- Only what Raft does on its own can put an end to `T`. -/
def Sustained (T : List Obs → Prop) : Prop := ∀ t o, Inner o → T t → T (t ++ [o])

/-- A node in a stage leads, and `T` holds. -/
structure Watched (T : List Obs → Prop) (l : Option LeaderState) (t : List Obs) : Prop where
  led : Led l t
  holds : T t

/-- The invariant between handlers. -/
def Steered {S : Type} (env : Env) (A : Terms) (T : List Obs → Prop) (n : Node S) : Prop :=
  ∃ l, Staged env A l (Watched T l) n

section
variable {T : List Obs → Prop} {l l' : Option LeaderState} {t : List Obs}

theorem Watched.snoc (hT : Sustained T) (h : Watched T l t) {o : Obs} (ho : Inner o) :
    Watched T l (t ++ [o]) := by
  refine ⟨h.led.snoc fun round hr => ?_, hT t o ho h.holds⟩
  subst hr
  exact ho

theorem Watched.files (hT : Sustained T) (h : Watched T l t) (ops : List FileOp) :
    Watched T l (t ++ ops.map Obs.file) := by
  induction ops generalizing t with
  | nil => rwa [List.map_nil, List.append_nil]
  | cons op ops ih =>
    rw [List.map_cons, List.append_cons]
    exact ih (h.snoc hT trivial)

/-- One stage is as good as another. -/
theorem Watched.stage (h : Watched T l t) (hl : l.isSome = true) : Watched T l' t :=
  ⟨fun _ => h.led hl, h.holds⟩

theorem Watched.of_leading (h : T t) (ht : leading t = true) : Watched T l t := ⟨fun _ => ht, h⟩

theorem Watched.of_none (h : T t) : Watched T none t := ⟨fun h => absurd h (by simp), h⟩

end

section
variable {S α : Type} {env : Env} {A : Terms} {T : List Obs → Prop}

theorem Steered.ended {n : Node S} (h : Steered env A T n) : Ended env A n :=
  h.elim fun _ hn => hn.ended

/-- What keeps every stage keeps the invariant. -/
theorem steered_of_staged {m : NodeM S α}
    (h : ∀ l, Triple (Staged env A l (Watched T l)) m (fun _ => Staged env A l (Watched T l))
      (fun _ => Ended env A)) :
    Triple (Steered env A T) m (fun _ => Steered env A T) (fun _ => Ended env A) :=
  Triple.intro fun l => (h l).conseq (fun _ hn => hn) (fun _ _ hn => ⟨l, hn⟩) (fun _ _ hn => hn)

/-- Building has begun. -/
theorem steered_of_building {P : List Obs → Prop} {n : Node S}
    (hn : ∃ since, Staged env A (some (.building since)) P n)
    (hP : ∀ {l}, P n.trace → Watched T l n.trace) : Steered env A T n := by
  obtain ⟨since, hn⟩ := hn
  exact ⟨_, hn.imp hP⟩

theorem emit_steered (hT : Sustained T) {o : Obs} (ho : Quiet o) (hi : Inner o) :
    Triple (Steered env A T) (emit o : NodeM S Unit) (fun _ => Steered env A T)
      (fun _ => Ended env A) :=
  steered_of_staged fun _ => emit_staged ho fun _ h => h.snoc hT hi

theorem tryCall_steered (hT : Sustained T) {o : Obs} {answer : List Obs → α} (ho : Quiet o)
    (hi : Inner o) :
    Triple (Steered env A T) (tryCall o answer : NodeM S α) (fun _ => Steered env A T)
      (fun _ => Ended env A) :=
  steered_of_staged fun _ => tryCall_staged ho fun _ h => h.snoc hT hi

theorem expectCall_steered (hT : Sustained T) {call : ServiceCall} {o : Obs}
    {answer : List Obs → Except ServiceError α} (ho : Quiet o) (hi : Inner o) :
    Triple (Steered env A T) (expectCall call o answer : NodeM S α) (fun _ => Steered env A T)
      (fun _ => Ended env A) :=
  steered_of_staged fun _ => expectCall_staged ho fun _ h => h.snoc hT hi

theorem update_steered {g : Node S → Node S} (hl : ∀ n, (g n).leaderState = n.leaderState)
    (ht : ∀ n, (g n).trace = n.trace) :
    Triple (Steered env A T) (modify g : NodeM S Unit) (fun _ => Steered env A T)
      (fun _ => Ended env A) :=
  steered_of_staged fun _ => update_staged hl ht

theorem setFollowerState_steered (st : Option FollowerState) :
    Triple (Steered env A T) (setFollowerState st : NodeM S Unit) (fun _ => Steered env A T)
      (fun _ => Ended env A) :=
  update_steered (fun _ => rfl) fun _ => rfl

theorem onBlockNew_steered (hT : Sustained T) (block : Block) :
    Triple (Steered env A T) (onBlockNew env block : NodeM S Unit) (fun _ => Steered env A T)
      (fun _ => Ended env A) := by
  refine Triple.bind (emit_steered hT trivial trivial) fun _ => ?_
  refine Triple.bind (R := fun _ => Steered env A T) ?_ fun _ => ?_
  · refine Triple.read fun n hn => ?_
    refine Triple.ite (fun hl => ?_) fun _ => Triple.pure fun s hs => hs ▸ hn
    refine Triple.update fun s hs => ?_
    obtain ⟨l, hn⟩ := hn
    obtain rfl : l = _ := hn.leader.symm.trans hl
    rw [hs]
    exact ⟨_, rfl, .received hn.stage, hn.trace.stage rfl⟩
  · refine Triple.bind (update_steered (fun _ => rfl) fun _ => rfl) fun _ => ?_
    exact expectCall_steered hT trivial trivial

theorem onBlockValid_steered (hT : Sustained T) (hA : ∀ t, leading t = true → T t → A.may t)
    (b : BlockId) :
    Triple (Steered env A T) (onBlockValid env b : NodeM S Unit) (fun _ => Steered env A T)
      (fun _ => Ended env A) := by
  refine Triple.intro fun l => ?_
  -- what is known from the notification up to the proposal
  refine Triple.bind (emit_staged (Q := fun t => (∃ u, t = u ++ [.blockValid b]) ∧ Watched T l t)
    (o := .blockValid b) trivial fun t ht => ⟨⟨t, rfl⟩, ht.snoc hT trivial⟩) fun _ => ?_
  refine Triple.bind (update_staged (fun _ => rfl) fun _ => rfl) fun _ => ?_
  refine Triple.read fun n hn => ?_
  refine Triple.ite (fun hl => ?_) fun _ => Triple.pure fun s hs => hs ▸ ⟨l, hn.imp fun ht => ht.2⟩
  rw [hn.leader] at hl
  obtain ⟨⟨u, hu⟩, hw⟩ := hn.trace
  have hsome : l.isSome = true := by
    rcases hl with rfl | rfl
    · rfl
    · rfl
  have hstage : Stage env A (n.trace ++ [.propose b]) (some (.proposing b)) := by
    have hst := hn.stage
    rw [hu] at hst hw ⊢
    exact .proposed hst hl (hA _ (hw.led hsome) hw.holds)
  refine Triple.bind (tryCall_eq (G := fun s => s = n)) fun ok => ?_
  cases ok with
  | true =>
    refine Triple.update fun s hs => ?_
    obtain ⟨n', rfl, rfl, -⟩ := hs
    exact ⟨_, rfl, hstage, (hw.snoc hT (o := .propose b) trivial).stage hsome⟩
  | false =>
    refine Triple.throw fun s hs => ?_
    obtain ⟨n', rfl, rfl, -⟩ := hs
    exact ⟨_, hstage⟩

/-! ### The confirmation of a block -/

theorem Confirmed.files {b : BlockId} {t : List Obs} (h : Confirmed b t) (ops : List FileOp) :
    Confirmed b (t ++ ops.map Obs.file) := by
  obtain ⟨u, i, rest, rfl, hrest⟩ := h
  refine ⟨u, i, rest ++ ops.map Obs.file, by simp, fun o ho => ?_⟩
  rcases List.mem_append.mp ho with ho | ho
  · exact hrest o ho
  · obtain ⟨op, -, rfl⟩ := List.mem_map.mp ho
    exact Or.inl ⟨op, rfl⟩

theorem Confirmed.settings {b : BlockId} {t : List Obs} (h : Confirmed b t) (b' : BlockId)
    (keys : List String) : Confirmed b (t ++ [.getSettings b' keys]) := by
  obtain ⟨u, i, rest, rfl, hrest⟩ := h
  refine ⟨u, i, rest ++ [.getSettings b' keys], by simp, fun o ho => ?_⟩
  rcases List.mem_append.mp ho with ho | ho
  · exact hrest o ho
  · exact Or.inr ⟨b', keys, List.mem_singleton.mp ho⟩

/-- What is known once a leader has confirmed its block. -/
structure Settled (T : List Obs → Prop) (b : BlockId) (t : List Obs) : Prop where
  confirmed : Confirmed b t
  watched : Watched T (some (.committing b)) t

theorem popFront_staged {l : Option LeaderState} {P : List Obs → Prop} :
    Triple (Staged env A l P) (popFront : NodeM S Nat) (fun _ => Staged env A l P)
      (fun _ => Ended env A) := by
  refine Triple.read fun n hn => ?_
  cases n.blockQueue.blockCommitted with
  | none => exact Triple.throw fun s hs => hs ▸ hn.ended
  | some p =>
    obtain ⟨i, q⟩ := p
    refine Triple.bind (Triple.update (Q := fun _ => Staged env A l P) fun s hs => ?_) fun _ =>
      Triple.pure fun _ hn => hn
    rw [hs]
    exact ⟨hn.leader, hn.stage, hn.trace⟩

variable [StorageExt S]

theorem confirmFront_staged {l : Option LeaderState} {P Q : List Obs → Prop}
    (h : ∀ t i (ops : List FileOp), P t → Q (t ++ [.setApplied i] ++ ops.map Obs.file)) :
    Triple (Staged env A l P) (confirmFront : NodeM S Unit) (fun _ => Staged env A l Q)
      (fun _ => Ended env A) := by
  refine Triple.bind popFront_staged fun i => ?_
  refine Triple.bind (emit_staged (Q := fun t => ∃ u, P u ∧ t = u ++ [.setApplied i]) trivial
    fun t ht => ⟨t, ht, rfl⟩) fun _ => ?_
  refine storeCall_staged fun t ops ht => ?_
  obtain ⟨u, hu, rfl⟩ := ht
  exact h u i ops hu

variable [Formats]

omit [StorageExt S] in
theorem checkForConfChange_staged {l : Option LeaderState} {P Q : List Obs → Prop} {b : BlockId}
    (h : ∀ t keys, P t → Q (t ++ [.getSettings b keys])) :
    Triple (Staged env A l P) (checkForConfChange env b : NodeM S (Option ConfChange))
      (fun _ => Staged env A l Q) (fun _ => Ended env A) := by
  refine Triple.bind (expectCall_staged trivial fun t ht => h t _ ht) fun settings => ?_
  refine Triple.bind expect_staged fun peers => ?_
  refine Triple.read fun n hn => ?_
  exact expect_staged.pre fun s hs => hs ▸ hn

omit [StorageExt S] in
theorem afterCommit_steered (hT : Sustained T) (hA : ∀ t, leading t = true → T t → A.may t)
    (b : BlockId) :
    Triple (Staged env A (some (.committing b)) (Settled T b)) (afterCommit env b : NodeM S Unit)
      (fun _ => Steered env A T) (fun _ => Ended env A) := by
  refine Triple.bind (checkForConfChange_staged (Q := Settled T b) fun t keys ht =>
    ⟨ht.confirmed.settings b keys, ht.watched.snoc hT trivial⟩) fun change => ?_
  cases change with
  | some change =>
    refine Triple.bind (R := fun _ n => n.leaderState = some .changingConfig ∧
      Stage env A n.trace (some (.committing b)) ∧ Settled T b n.trace)
      (Triple.update fun n hn => ⟨rfl, hn.stage, hn.trace⟩) fun _ => ?_
    refine Triple.bind (R := fun _ => Staged env A (some .changingConfig)
      (Watched T (some .changingConfig))) (tryCall_eq.conseq (fun _ hn => hn) ?_ fun _ _ hn => hn)
      fun ok => ?_
    · intro _ n hn
      obtain ⟨n', ⟨hl, hstage, hset⟩, rfl, -⟩ := hn
      have hmay := hA _ (hset.watched.led rfl) hset.watched.holds
      exact ⟨hl, .proposedChange hstage hset.confirmed hmay change,
        (hset.watched.snoc hT (o := .proposeConfChange change) trivial).stage rfl⟩
    · cases ok with
      | true => exact Triple.pure fun _ hn => ⟨_, hn⟩
      | false => exact Triple.throw fun _ hn => hn.ended
  | none =>
    refine (startBuilding_staged (Q := Watched T (some (.committing b)))
      (fun t q since hstage ht => hstage.resumed ht.confirmed q since)
      fun t q ht => ht.watched.snoc hT trivial).conseq (fun _ hn => hn) ?_ fun _ _ hn => hn
    exact fun _ n hn => steered_of_building hn fun ht => ht.stage rfl

theorem onBlockCommit_steered (hT : Sustained T) (hA : ∀ t, leading t = true → T t → A.may t)
    (b : BlockId) :
    Triple (Steered env A T) (onBlockCommit env b : NodeM S Unit) (fun _ => Steered env A T)
      (fun _ => Ended env A) := by
  refine Triple.intro fun l => ?_
  refine Triple.bind (emit_staged (Q := fun t => (∃ u, t = u ++ [.blockCommit b]) ∧ Watched T l t)
    (o := .blockCommit b) trivial fun t ht => ⟨⟨t, rfl⟩, ht.snoc hT trivial⟩) fun _ => ?_
  refine Triple.bind (R := fun _ => Steered env A T) ?_ fun _ => ?_
  · refine Triple.read fun n hn => ?_
    refine Triple.ite (fun hl => ?_) fun _ => Triple.pure fun s hs => hs ▸
      ⟨l, hn.imp fun ht => ht.2⟩
    obtain rfl : l = _ := hn.leader.symm.trans hl
    refine Triple.bind ((confirmFront_staged (Q := Settled T b) fun t i ops ht => ?_).pre
      fun s hs => hs ▸ hn) fun _ => afterCommit_steered hT hA b
    obtain ⟨⟨u, rfl⟩, hw⟩ := ht
    exact ⟨Confirmed.files ⟨u, i, [], by simp, by simp⟩ ops,
      (hw.snoc hT (o := .setApplied i) trivial).files hT ops⟩
  · refine Triple.read fun n hn => ?_
    refine Triple.ite (fun _ => ?_) fun _ => Triple.pure fun s hs => hs ▸ hn
    refine Triple.bind (R := fun _ => Steered env A T) ?_ fun _ => setFollowerState_steered _
    refine (steered_of_staged fun l => confirmFront_staged fun t i ops ht => ?_).pre
      fun s hs => hs ▸ hn
    exact (ht.snoc hT (o := .setApplied i) trivial).files hT ops

/-! ### A round -/

end

section
variable {S : Type} {env : Env} {A : Terms} {T : List Obs → Prop}

theorem sendMsg_steered (hT : Sustained T) (msg : RaftMessage) :
    Triple (Steered env A T) (sendMsg env msg : NodeM S Unit) (fun _ => Steered env A T)
      (fun _ => Ended env A) := by
  refine Triple.read fun n hn => ?_
  refine Triple.pre ?_ (fun s (hs : s = n) => hs ▸ hn)
  split
  · refine Triple.bind (tryCall_steered hT trivial trivial) fun r => ?_
    split
    · exact Triple.pure fun _ hn => hn
    · exact Triple.pure fun _ hn => hn
    · exact Triple.throw fun _ hn => hn.ended
  · exact Triple.pure fun _ hn => hn

/-- The round of a leader: whoever has no stage gets one. -/
theorem stepUp_steered (hT : Sustained T) :
    Triple (fun n => ∃ l, Staged env A l (fun t => leading t = true ∧ T t) n)
      (stepUp env : NodeM S Unit) (fun _ => Steered env A T) (fun _ => Ended env A) := by
  refine Triple.intro fun l => Triple.read fun n hn => ?_
  rw [hn.leader]
  refine Triple.ite (fun hl => ?_) fun _ => Triple.pure fun s hs => hs ▸
    ⟨l, hn.imp fun ht => .of_leading ht.2 ht.1⟩
  subst hl
  refine Triple.bind (R := fun _ => Steered env A T) ?_ fun _ => setFollowerState_steered none
  unfold takeOver
  split
  next b _ =>
    refine Triple.update fun s hs => ?_
    rw [hs]
    exact ⟨_, rfl, .tookOver hn.stage b, .of_leading hn.trace.2 hn.trace.1⟩
  next =>
    refine (startBuilding_staged (Q := fun t => leading t = true ∧ T t)
      (fun t q since hstage _ => hstage.elected q since) fun t q ht => ?_).conseq
      (fun s hs => hs ▸ hn) ?_ fun _ _ hn => hn
    · rw [leading_snoc]
      exact ⟨ht.1, hT t _ trivial ht.2⟩
    · exact fun _ n hn => steered_of_building hn fun ht => .of_leading ht.2 ht.1

/-- The round of any other node: whoever has a stage loses it. -/
theorem stepDown_steered (hT : Sustained T) :
    Triple (fun n => ∃ l, Staged env A l (fun t => leading t = false ∧ T t) n)
      (stepDown env : NodeM S Unit) (fun _ => Steered env A T) (fun _ => Ended env A) := by
  refine Triple.intro fun l => Triple.read fun n hn => ?_
  obtain ⟨hlead, hholds⟩ := hn.trace
  rw [hn.leader]
  refine Triple.ite (fun hl => ?_) fun hl => ?_
  · subst hl
    exact Triple.pure fun s hs => hs ▸ ⟨none, hn.imp fun ht => .of_none ht.2⟩
  · refine Triple.bind (R := fun _ s => Stage env A s.trace none ∧ T s.trace) ?_ fun _ => ?_
    · have hdeposed : (∀ since, l ≠ some (.building since)) → Stage env A n.trace none :=
        fun hl => .deposed hn.stage hl hlead
      unfold abandon
      split
      next since =>
        refine Triple.bind (tryCall_eq (G := fun s => s = n)) fun r => ?_
        have hstage : Stage env A (n.trace ++ [.cancelBlock]) none := .cancelled hn.stage hlead
        cases r with
        | ok a =>
          refine Triple.pure fun s hs => ?_
          obtain ⟨n', rfl, rfl, -⟩ := hs
          exact ⟨hstage, hT _ _ trivial hholds⟩
        | error err =>
          refine Triple.throw fun s hs => ?_
          obtain ⟨n', rfl, rfl, -⟩ := hs
          exact ⟨none, hstage⟩
      next b =>
        refine Triple.update fun s hs => ?_
        rw [hs]
        exact ⟨hdeposed (by simp), hholds⟩
      next h₁ h₂ =>
        refine Triple.pure fun s hs => hs ▸ ⟨hdeposed fun since h => ?_, hholds⟩
        exact h₁ since h
    · refine Triple.bind (R := fun _ => Steered env A T)
        (Triple.update fun s hs => ⟨none, rfl, hs.1, .of_none hs.2⟩) fun _ => ?_
      refine Triple.read fun n hn => ?_
      refine Triple.ite (fun _ => ?_) fun _ => Triple.pure fun s hs => hs ▸ hn
      exact (setFollowerState_steered _).pre fun s hs => hs ▸ hn

theorem updatePeers_staged {l : Option LeaderState} {P : List Obs → Prop} (change : ConfChange) :
    Triple (Staged env A l P) (updatePeers change : NodeM S ReadyStatus)
      (fun _ => Staged env A l P) (fun _ => Ended env A) := by
  refine Triple.read fun n hn => ?_
  refine Triple.pre ?_ (fun s (hs : s = n) => hs ▸ hn)
  have hstay : ∀ status, Triple (Staged env A l P) (pure status : NodeM S ReadyStatus)
      (fun _ => Staged env A l P) (fun _ => Ended env A) :=
    fun status => Triple.pure fun _ hn => hn
  split
  · refine Triple.bind expect_staged fun own => ?_
    refine Triple.ite (fun _ => hstay _) fun _ => ?_
    split
    · exact Triple.bind (update_staged (fun _ => rfl) fun _ => rfl) fun _ => hstay _
    · exact Triple.throw fun _ hn => hn.ended
  · exact Triple.bind (update_staged (fun _ => rfl) fun _ => rfl) fun _ => hstay _
  · exact hstay _

variable [Protobuf]

theorem deliverConfChange_steered (hT : Sustained T) {e : Entry} (he : IsChange e)
    {l : Option LeaderState} :
    Triple (Staged env A l fun t => (∃ u, t = u ++ [.entry e]) ∧ Watched T l t)
      (deliverConfChange env e : NodeM S ReadyStatus) (fun _ => Steered env A T)
      (fun _ => Ended env A) := by
  unfold deliverConfChange
  split
  · exact Triple.throw fun _ hn => hn.ended
  next change _ =>
    refine Triple.bind (R := fun status => Staged env A l fun t =>
      (status = .Continue → JustChanged t) ∧ Watched T l t) ?_ fun status => ?_
    · refine Triple.bind (updatePeers_staged change) fun status => ?_
      cases status with
      | Shutdown => exact Triple.pure fun _ hn => hn.imp fun ht => ⟨by simp, ht.2⟩
      | Continue =>
        refine Triple.bind (emit_staged (Q := fun t => JustChanged t ∧ Watched T l t) trivial
          fun t ht => ?_) fun _ => Triple.pure fun _ hn => hn.imp fun ht => ⟨fun _ => ht.1, ht.2⟩
        obtain ⟨⟨u, rfl⟩, hw⟩ := ht
        exact ⟨⟨u, e, change, by simp, he⟩, hw.snoc hT trivial⟩
    · cases status with
      | Shutdown => exact Triple.pure fun _ hn => ⟨l, hn.imp fun ht => ht.2⟩
      | Continue =>
        refine Triple.read fun n hn => ?_
        refine Triple.ite (fun hl => ?_) fun _ => Triple.pure fun s hs => hs ▸
          ⟨l, hn.imp fun ht => ht.2⟩
        obtain rfl : l = _ := hn.leader.symm.trans hl
        refine Triple.bind ((startBuilding_staged (Q := Watched T (some .changingConfig))
          (fun t q since hstage ht => hstage.reconfigured (ht.1 rfl) q since)
          fun t q ht => ht.2.snoc hT trivial).pre fun s hs => hs ▸ hn) fun _ => Triple.pure ?_
        exact fun n hn => steered_of_building hn fun ht => ht.stage rfl

theorem deliverEntry_steered (hT : Sustained T) (e : Entry) :
    Triple (Steered env A T) (deliverEntry env e : NodeM S ReadyStatus) (fun _ => Steered env A T)
      (fun _ => Ended env A) := by
  refine Triple.intro fun l => ?_
  refine Triple.bind (emit_staged (Q := fun t => (∃ u, t = u ++ [.entry e]) ∧ Watched T l t)
    (o := .entry e) trivial fun t ht => ⟨⟨t, rfl⟩, ht.snoc hT trivial⟩) fun _ => ?_
  have hstay : Triple (Staged env A l fun t => (∃ u, t = u ++ [.entry e]) ∧ Watched T l t)
      (pure .Continue : NodeM S ReadyStatus) (fun _ => Steered env A T) (fun _ => Ended env A) :=
    Triple.pure fun _ hn => ⟨l, hn.imp fun ht => ht.2⟩
  refine Triple.ite (fun _ => hstay) fun hdata => ?_
  split
  · exact Triple.bind (update_staged (fun _ => rfl) fun _ => rfl) fun _ => hstay
  next hty =>
    refine Triple.ite (fun _ => hstay) fun hterm => ?_
    exact deliverConfChange_steered hT ⟨hdata, hty, hterm⟩

theorem deliver_steered (hT : Sustained T) (es : List Entry) :
    Triple (Steered env A T) (deliver env es : NodeM S ReadyStatus) (fun _ => Steered env A T)
      (fun _ => Ended env A) := by
  induction es with
  | nil => exact Triple.pure fun _ hn => hn
  | cons e es ih =>
    refine Triple.bind (deliverEntry_steered hT e) fun status => ?_
    cases status with
    | Shutdown => exact Triple.pure fun _ hn => hn
    | Continue => exact ih

omit [Protobuf] in
theorem commitNext_steered (hT : Sustained T) : Triple (Steered env A T)
    (commitNext env : NodeM S Unit) (fun _ => Steered env A T) (fun _ => Ended env A) := by
  refine Triple.read fun n hn => ?_
  refine Triple.pre ?_ (fun s (hs : s = n) => hs ▸ hn)
  split
  next b _ =>
    refine Triple.bind (R := fun _ => Steered env A T) ?_ fun _ => ?_
    · refine Triple.read fun n hn => ?_
      refine Triple.ite (fun hl => ?_) fun _ => Triple.pure fun s hs => hs ▸ hn
      refine Triple.bind (R := fun _ => Steered env A T) (Triple.update fun s hs => ?_) fun _ =>
        expectCall_steered hT trivial trivial
      obtain ⟨l, hn⟩ := hn
      obtain rfl : l = _ := hn.leader.symm.trans hl
      rw [hs]
      exact ⟨_, rfl, .committed hn.stage, hn.trace.stage rfl⟩
    · refine Triple.read fun n hn => ?_
      refine Triple.ite (fun hl => ?_) fun _ => Triple.pure fun s hs => hs ▸ hn
      refine Triple.bind ((setFollowerState_steered _).pre fun s hs => hs ▸ hn) fun _ => ?_
      exact expectCall_steered hT trivial trivial
  next => exact Triple.pure fun _ hn => hn

variable [StorageExt S]

omit [Protobuf] in
theorem persist_staged {l : Option LeaderState} {P : List Obs → Prop}
    (h : ∀ t (ops : List FileOp), P t → P (t ++ ops.map Obs.file)) (ready : Ready) :
    Triple (Staged env A l P) (persist env ready : NodeM S Unit) (fun _ => Staged env A l P)
      (fun _ => Ended env A) := by
  refine Triple.bind (R := fun _ => Staged env A l P) ?_ fun _ =>
    Triple.bind (R := fun _ => Staged env A l P) ?_ fun _ => ?_
  · unfold persistSnapshot
    split
    · exact Triple.pure fun _ hn => hn
    · exact storeCall_staged h
  · unfold persistEntries
    split
    · exact Triple.pure fun _ hn => hn
    · exact storeCall_staged h
  · unfold persistHardState
    split
    · exact storeCall_staged h
    · exact Triple.pure fun _ hn => hn

/-- Raft shows the round to the node. -/
def Shown (A : Terms) (n : Node S) (round : Option Round) : Prop :=
  ∀ r, round = some r → A.shown n.trace r

theorem processReady_steered (hT : Sustained T)
    (hR : ∀ t round, A.shown t round → T (t ++ [.ready round])) (round : Option Round) :
    Triple (fun n => ∃ T', Steered env A T' n ∧ (round = none → T n.trace) ∧ Shown A n round)
      (processReady env round : NodeM S ReadyStatus) (fun _ => Steered env A T)
      (fun _ => Ended env A) := by
  refine Triple.intro fun T' => ?_
  cases round with
  | none =>
    refine Triple.pure fun n hn => ?_
    obtain ⟨⟨l, hn⟩, hholds, -⟩ := hn
    exact ⟨l, hn.imp fun ht => ⟨ht.led, hholds rfl⟩⟩
  | some round =>
    have hsends : Triple (Steered env A T) (round.ready.messages.forM (sendMsg env) : NodeM S Unit)
        (fun _ => Steered env A T) (fun _ => Ended env A) :=
      Triple.forM _ fun msg _ => sendMsg_steered hT msg
    have hfiles : ∀ t (ops : List FileOp), leading t = false ∧ T t →
        leading (t ++ ops.map Obs.file) = false ∧ T (t ++ ops.map Obs.file) := by
      intro t ops
      induction ops generalizing t with
      | nil => simp
      | cons op ops ih =>
        intro ht
        rw [List.map_cons, List.append_cons]
        exact ih _ ⟨by rw [leading_snoc]; exact ht.1, hT t _ trivial ht.2⟩
    refine Triple.bind (R := fun _ n => ∃ l, Staged env A l (fun t => leading t = round.isLeader ∧ T t)
      n) (Triple.update fun n hn => ?_) fun _ => ?_
    · obtain ⟨⟨l, hn⟩, -, hshown⟩ := hn
      have hs := hshown round rfl
      exact ⟨l, hn.leader, .ready round hn.stage hn.trace.led hs, leading_snoc .., hR _ _ hs⟩
    refine Triple.intro fun l => ?_
    -- whichever the role, the stage fits it before the entries come
    have hrest : Triple (Steered env A T) (do
        let status ← deliver env round.committed
        afterEntries env status : NodeM S ReadyStatus) (fun _ => Steered env A T)
        (fun _ => Ended env A) := by
      refine Triple.bind (deliver_steered hT _) fun status => ?_
      cases status with
      | Shutdown => exact Triple.pure fun _ hn => hn
      | Continue =>
        refine Triple.bind (commitNext_steered hT) fun _ => ?_
        exact Triple.bind (emit_steered hT trivial trivial) fun _ => Triple.pure fun _ hn => hn
    unfold leaderPart followerPart
    cases hr : round.isLeader with
    | true =>
      rw [if_pos rfl, if_pos rfl]
      refine Triple.bind (R := fun _ => Steered env A T) ?_ fun _ => ?_
      · exact Triple.bind ((stepUp_steered hT).pre fun _ hn => ⟨l, hn⟩) fun _ => hsends
      · refine Triple.bind (steered_of_staged fun l => persist_staged
          (fun t ops ht => ht.files hT ops) _) fun _ => ?_
        exact Triple.bind (R := fun _ => Steered env A T) (Triple.pure fun _ hn => hn) fun _ => hrest
    | false =>
      rw [if_neg (by simp), if_neg (by simp)]
      refine Triple.bind (R := fun _ => Staged env A l fun t => leading t = false ∧ T t)
        (Triple.pure fun _ hn => hn) fun _ => ?_
      refine Triple.bind (persist_staged hfiles _) fun _ => ?_
      refine Triple.bind (R := fun _ => Steered env A T) ?_ fun _ => hrest
      exact Triple.bind ((stepDown_steered hT).pre fun _ hn => ⟨l, hn⟩) fun _ => hsends

/-! ### What Raft does on its own -/

omit [Protobuf] [StorageExt S] in
/-- `T` may come to an end now. -/
theorem Steered.any {n : Node S} (h : Steered env A T n) : Steered env A (fun _ => True) n := by
  obtain ⟨l, hn⟩ := h
  exact ⟨l, hn.imp fun ht => ⟨ht.led, trivial⟩⟩

omit [Protobuf] [StorageExt S] in
theorem raft_steered {o : Obs} (ho : Quiet o) : Triple (Steered env A fun _ => True)
    (emit o : NodeM S Unit) (fun _ => Steered env A fun _ => True) (fun _ => Ended env A) :=
  steered_of_staged fun _ => emit_staged ho fun _ h => ⟨h.led.snoc ho.ne_ready, trivial⟩

omit [Protobuf] [StorageExt S] in
theorem onPeerMessage_steered (message : Bytes) :
    Triple (Steered env A fun _ => True) (onPeerMessage env message : NodeM S Unit)
      (fun _ => Steered env A fun _ => True) (fun _ => Ended env A) := by
  refine Triple.bind (raft_steered trivial) fun _ => ?_
  split
  · exact raft_steered trivial
  · exact Triple.throw fun _ hn => hn.ended

omit [Protobuf] [StorageExt S] in
theorem publish_steered (hT : Sustained T) (since : Nat) :
    Triple (Staged env A (some (.building since)) (Watched T (some (.building since))))
      (publish env : NodeM S Unit) (fun _ => Steered env A T) (fun _ => Ended env A) := by
  refine Triple.bind (R := fun _ => Staged env A (some (.building since))
    (Watched T (some (.building since)))) (tryCall_eq.conseq (fun _ hn => hn) ?_ fun _ _ hn => hn)
    fun r => ?_
  · intro _ n hn
    obtain ⟨n', hn', rfl, -⟩ := hn
    exact ⟨hn'.leader, .summarized hn'.stage, hn'.trace.snoc hT trivial⟩
  · split
    · exact Triple.pure fun _ hn => ⟨_, hn⟩
    · exact Triple.throw fun _ hn => hn.ended
    · refine Triple.bind (tryCall_eq (G := Staged env A (some (.building since))
        (Watched T (some (.building since))))) fun r => ?_
      split
      next b =>
        refine Triple.update fun n hn => ?_
        obtain ⟨n', hn', rfl, hr⟩ := hn
        have hstage := hn'.stage.finalized (hn'.trace.led rfl)
        rw [← hr] at hstage
        exact ⟨_, rfl, hstage, (hn'.trace.snoc hT (o := .finalizeBlock) trivial).stage rfl⟩
      next =>
        refine Triple.pure fun n hn => ?_
        obtain ⟨n', hn', rfl, hr⟩ := hn
        have hstage := hn'.stage.finalized (hn'.trace.led rfl)
        rw [← hr] at hstage
        exact ⟨_, hn'.leader, hstage, hn'.trace.snoc hT trivial⟩
      next =>
        refine Triple.throw fun n hn => ?_
        obtain ⟨n', hn', rfl, -⟩ := hn
        exact ⟨_, hn'.stage.finalized (hn'.trace.led rfl)⟩

omit [Protobuf] [StorageExt S] in
theorem tick_steered : Triple (Steered env A fun _ => True) (tick env : NodeM S Unit)
    (fun _ => Steered env A fun _ => True) (fun _ => Ended env A) := by
  refine Triple.bind (raft_steered trivial) fun _ => ?_
  refine Triple.read fun n hn => ?_
  obtain ⟨l, hn⟩ := hn
  have hn' : Triple (fun s => s = n) (pure () : NodeM S Unit)
      (fun _ => Steered env A fun _ => True) (fun _ => Ended env A) :=
    Triple.pure fun s hs => hs ▸ ⟨l, hn⟩
  split
  next since hl =>
    obtain rfl : l = _ := hn.leader.symm.trans hl
    refine Triple.ite (fun _ => ?_) fun _ => hn'
    exact (publish_steered (fun _ _ _ _ => trivial) since).pre fun s hs => hs ▸ hn
  next => exact hn'

/-! ## Runs -/

omit [Protobuf] [StorageExt S] in
theorem new_steered {node : Node S} (h : Sys.IsNew node)
    (hT : ∀ ops : List FileOp, T (ops.map Obs.file)) : Steered env A T node := by
  obtain ⟨peerId, store, peers, period, ops, h⟩ := h
  obtain ⟨_, rfl⟩ := new_eq h
  exact ⟨none, rfl, .opened ops, .of_none (hT ops)⟩

variable [Formats]

/-- **Step**: every handler goes from stage to stage, also one that panics. -/
theorem handle_steered (i : Input) : Triple (Steered env Terms.any fun _ => True)
    (handle env i : NodeM S ReadyStatus) (fun _ => Steered env Terms.any fun _ => True)
    (fun _ => Ended env Terms.any) := by
  have hdone : ∀ {m : NodeM S Unit}, Triple (Steered env Terms.any fun _ => True) m
      (fun _ => Steered env Terms.any fun _ => True) (fun _ => Ended env Terms.any) →
      Triple (Steered env Terms.any fun _ => True) (do m; pure ReadyStatus.Continue)
        (fun _ => Steered env Terms.any fun _ => True) (fun _ => Ended env Terms.any) :=
    fun hm => Triple.bind hm fun _ => Triple.pure fun _ hn => hn
  have hT : Sustained fun _ => True := fun _ _ _ _ => trivial
  cases i with
  | blockNew block => exact hdone (onBlockNew_steered hT block)
  | blockValid b => exact hdone (onBlockValid_steered hT (fun _ _ _ => trivial) b)
  | blockCommit b => exact hdone (onBlockCommit_steered hT (fun _ _ _ => trivial) b)
  | peerMessage message => exact hdone (onPeerMessage_steered message)
  | tick => exact hdone tick_steered
  | processReady round =>
    exact (processReady_steered hT (fun _ _ _ => trivial) round).pre fun _ hn =>
      ⟨_, hn, fun _ => trivial, fun _ _ => trivial⟩

/-- **Run**: whatever comes in, the stages are gone through as they should. -/
theorem run_steered {node : Node S} (h : Sys.IsNew node) (inputs : List Input) :
    ((Sys.start node).run env inputs).Sat (Steered env Terms.any fun _ => True)
      (fun status n => Ended env Terms.any n ∧
        (status = .shutdown → Steered env Terms.any (fun _ => True) n)) := by
  refine Sys.sat_run (fun i => ?_) ?_ inputs
  · refine (handle_steered i).conseq (fun _ hn => hn) ?_ fun _ _ hn => ⟨hn, by simp⟩
    intro status n hn
    cases status with
    | Continue => exact hn
    | Shutdown => exact ⟨hn.ended, fun _ => hn⟩
  · exact new_steered h fun _ => trivial

end

end Node

end SawtoothRaft
