import SawtoothRaft.Node.Discipline
import SawtoothRaft.Node.Invariant

/-!
# Notices about blocks come in any order

The validator announces blocks (`BlockNew`) and reports them as valid
(`BlockValid`); which notice of a block comes first is not to matter. What
they change is gathered in a `View` of the node: the leader's state, the block
queue, and what has been proposed to Raft. Each notice is a function on views
(`View.note`), and any two of them commute, given that blocks of one id are
one block (`View.note_comm`). So a list of notices can be shuffled
(`notices_commute`), and what it makes the leader propose depends on which
notices there are (`View.foldl_note_proposals`).
-/

namespace SawtoothRaft

open Lib

/-- A notice about a block. -/
def Input.IsNotice : Input → Prop
  | .blockNew _ | .blockValid _ => True
  | _ => False

/-- Among the inputs, blocks of one id are one block. -/
def Unambiguous (us : List Input) : Prop :=
  ∀ block block', .blockNew block ∈ us → .blockNew block' ∈ us →
    block.blockId = block'.blockId → block = block'

namespace Node

/-! ## Notices as functions -/

/-- The block that the leader has published and not yet proposed. -/
def awaited : Option LeaderState → Option BlockId
  | some (.publishing b) | some (.validating b) => some b
  | _ => none

/-- What a notice does to the state of the leader. -/
def advance (l : Option LeaderState) : Input → Option LeaderState
  | .blockNew block =>
    if l = some (.publishing block.blockId) then some (.validating block.blockId) else l
  | .blockValid b => if awaited l = some b then some (.proposing b) else l
  | _ => l

/-- What the leader proposes on a notice. -/
def proposed (l : Option LeaderState) : Input → List BlockId
  | .blockValid b => if awaited l = some b then [b] else []
  | _ => []

/-- What a notice does to the queue. -/
def record (q : BlockQueue) : Input → BlockQueue
  | .blockNew block => q.blockNew block
  | .blockValid b => q.blockValid b
  | _ => q

/-- What is to be proposed after all of the notices. -/
def proposedAfter (l : Option LeaderState) (us : List Input) : List BlockId :=
  match awaited l with
  | some b => if .blockValid b ∈ us then [b] else []
  | none => []

/-! ## Two notices commute -/

theorem awaited_eq_some {l : Option LeaderState} {b : BlockId} :
    awaited l = some b ↔ l = some (.publishing b) ∨ l = some (.validating b) := by
  unfold awaited
  split
  next => simp
  next => simp
  next h₁ h₂ => exact iff_of_false (by simp) fun h => h.elim (h₁ b) (h₂ b)

/-- A leader that awaits nothing takes no notice. -/
theorem advance_of_awaited_none {l : Option LeaderState} (h : awaited l = none) (u : Input) :
    advance l u = l ∧ proposed l u = [] := by
  cases u with
  | blockNew block =>
    refine ⟨if_neg fun hl => ?_, rfl⟩
    subst hl
    cases h
  | blockValid b => exact ⟨if_neg (by simp [h]), if_neg (by simp [h])⟩
  | blockCommit | peerMessage | tick | processReady => exact ⟨rfl, rfl⟩

/-- The report on the block awaited. -/
theorem advance_blockValid_of_eq {l : Option LeaderState} {b : BlockId}
    (h : awaited l = some b) :
    advance l (.blockValid b) = some (.proposing b) ∧ proposed l (.blockValid b) = [b] :=
  ⟨if_pos h, if_pos h⟩

section
variable {l : Option LeaderState} {b : BlockId} {u u' : Input}

/-- Any other notice: nothing is proposed, and at most the block is announced. -/
theorem advance_of_ne (h : awaited l = some b) (hu : u ≠ .blockValid b) :
    (advance l u = l ∨ advance l u = some (.validating b)) ∧ proposed l u = [] := by
  cases u with
  | blockNew block =>
    refine ⟨?_, rfl⟩
    by_cases hl : l = some (.publishing block.blockId)
    · subst hl
      obtain rfl : block.blockId = b := Option.some.inj h
      exact Or.inr (if_pos rfl)
    · exact Or.inl (if_neg hl)
  | blockValid b' =>
    have hne : awaited l ≠ some b' := by
      intro h'
      exact hu (congrArg Input.blockValid (Option.some.inj (h'.symm.trans h)))
    exact ⟨Or.inl (if_neg hne), if_neg hne⟩
  | blockCommit | peerMessage | tick | processReady => exact ⟨Or.inl rfl, rfl⟩

theorem awaited_advance_of_ne (h : awaited l = some b) (hu : u ≠ .blockValid b) :
    awaited (advance l u) = some b := by
  rcases (advance_of_ne h hu).1 with hl | hl
  · rw [hl, h]
  · rw [hl]
    rfl

/-- The block is proposed whether the other notice comes before or after. -/
theorem advance_comm_blockValid (h : awaited l = some b) (hu : u ≠ .blockValid b) :
    advance (advance l (.blockValid b)) u = advance (advance l u) (.blockValid b) ∧
      proposed l (.blockValid b) ++ proposed (advance l (.blockValid b)) u
        = proposed l u ++ proposed (advance l u) (.blockValid b) := by
  obtain ⟨hfirst, hpfirst⟩ := advance_blockValid_of_eq h
  obtain ⟨hlast, hplast⟩ := advance_blockValid_of_eq (awaited_advance_of_ne h hu)
  obtain ⟨hafter, hpafter⟩ := advance_of_awaited_none (l := some (.proposing b)) rfl u
  rw [hfirst, hpfirst, hlast, hplast, hafter, hpafter, (advance_of_ne h hu).2]
  exact ⟨rfl, rfl⟩

/-- Notices of which none is the report on the block. -/
theorem advance_comm_of_ne (h : awaited l = some b) (hu : u ≠ .blockValid b)
    (hu' : u' ≠ .blockValid b) :
    advance (advance l u) u' = advance (advance l u') u ∧
      proposed l u ++ proposed (advance l u) u' = proposed l u' ++ proposed (advance l u') u := by
  obtain ⟨hl, hp⟩ := advance_of_ne h hu
  obtain ⟨hl', hp'⟩ := advance_of_ne h hu'
  refine ⟨?_, ?_⟩
  · -- a block that has been announced stays so
    have hv : advance (some (.validating b)) u = some (.validating b) :=
      (advance_of_ne rfl hu).1.elim id id
    have hv' : advance (some (.validating b)) u' = some (.validating b) :=
      (advance_of_ne rfl hu').1.elim id id
    rcases hl with hl | hl <;> rcases hl' with hl' | hl' <;> simp only [hl, hl', hv, hv']
  · rw [hp, hp', (advance_of_ne (awaited_advance_of_ne h hu) hu').2,
      (advance_of_ne (awaited_advance_of_ne h hu') hu).2]

end

theorem advance_comm (l : Option LeaderState) (u u' : Input) :
    advance (advance l u) u' = advance (advance l u') u ∧
      proposed l u ++ proposed (advance l u) u' = proposed l u' ++ proposed (advance l u') u := by
  cases h : awaited l with
  | none =>
    obtain ⟨hu, hp⟩ := advance_of_awaited_none h u
    obtain ⟨hu', hp'⟩ := advance_of_awaited_none h u'
    rw [hu, hu', hu, hp, hp']
    exact ⟨rfl, rfl⟩
  | some b =>
    by_cases hu : u = .blockValid b
    · subst hu
      by_cases hu' : u' = .blockValid b
      · subst hu'
        exact ⟨rfl, rfl⟩
      · exact advance_comm_blockValid h hu'
    · by_cases hu' : u' = .blockValid b
      · subst hu'
        obtain ⟨hstate, hproposed⟩ := advance_comm_blockValid h hu
        exact ⟨hstate.symm, hproposed.symm⟩
      · exact advance_comm_of_ne h hu hu'

/-- Two changes to a map, each at one key, are made in either order. -/
theorem update_comm_of {β : Type} (m : BlockId → β) {b b' : BlockId} {f g : β → β}
    (h : b = b' → ∀ x, g (f x) = f (g x)) :
    Function.update (Function.update m b (f (m b))) b' (g (Function.update m b (f (m b)) b'))
      = Function.update (Function.update m b' (g (m b'))) b
          (f (Function.update m b' (g (m b')) b)) := by
  by_cases hb : b = b'
  · subst hb
    rw [Function.update_self, Function.update_self, Function.update_idem, Function.update_idem,
      h rfl]
  · rw [Function.update_of_ne (Ne.symm hb), Function.update_of_ne hb, Function.update_comm hb]

/-- What an announcement makes of the status of its block. -/
def received (block : Block) : Option BlockStatus → Option BlockStatus
  | some status => some { status with block := some block }
  | none => some (BlockStatus.withBlock block)

/-- What a report makes of it. -/
def validated : Option BlockStatus → Option BlockStatus
  | some status => some { status with blockValid := true }
  | none => some BlockStatus.withValid

theorem validated_received (block : Block) (status : Option BlockStatus) :
    validated (received block status) = received block (validated status) := by
  cases status with
  | none => rfl
  | some status => rfl

/-- Two notices are recorded in either order. -/
theorem record_comm (q : BlockQueue) {u u' : Input}
    (h : ∀ block block', u = .blockNew block → u' = .blockNew block' →
      block.blockId = block'.blockId → block = block') :
    record (record q u) u' = record (record q u') u := by
  cases u with
  | blockNew block =>
    cases u' with
    | blockNew block' =>
      refine congrArg (BlockQueue.mk · _) (update_comm_of (f := received block)
        (g := received block') q.validatorBacklog fun hb status => ?_)
      rw [h block block' rfl rfl hb]
    | blockValid b =>
      exact congrArg (BlockQueue.mk · _) (update_comm_of (f := received block) (g := validated)
        q.validatorBacklog fun _ status => validated_received block status)
    | blockCommit | peerMessage | tick | processReady => rfl
  | blockValid b =>
    cases u' with
    | blockNew block =>
      exact congrArg (BlockQueue.mk · _) (update_comm_of (f := validated) (g := received block)
        q.validatorBacklog fun _ status => (validated_received block status).symm)
    | blockValid b' =>
      exact congrArg (BlockQueue.mk · _) (update_comm_of (f := validated) (g := validated)
        q.validatorBacklog fun _ _ => rfl)
    | blockCommit | peerMessage | tick | processReady => rfl
  | blockCommit | peerMessage | tick | processReady => rfl

/-! ## Views -/

/-- What notices change of a node. -/
structure View where
  leaderState : Option LeaderState
  blockQueue : BlockQueue
  proposals : List BlockId

/-- The view after one more input. -/
def View.note (v : View) (u : Input) : View where
  leaderState := advance v.leaderState u
  blockQueue := record v.blockQueue u
  proposals := v.proposals ++ proposed v.leaderState u

theorem View.note_comm (v : View) {u u' : Input}
    (h : ∀ block block', u = .blockNew block → u' = .blockNew block' →
      block.blockId = block'.blockId → block = block') :
    (v.note u).note u' = (v.note u').note u := by
  obtain ⟨hadvance, hproposed⟩ := advance_comm v.leaderState u u'
  unfold View.note
  dsimp only
  rw [hadvance, record_comm v.blockQueue h, List.append_assoc, List.append_assoc, hproposed]

/-- The notices of a list may come in any order. -/
theorem View.foldl_note_perm {us us' : List Input} (hperm : us.Perm us') (h : Unambiguous us)
    (v : View) : us.foldl View.note v = us'.foldl View.note v := by
  refine hperm.foldl_eq' (fun u hu u' hu' v => v.note_comm fun block block' hb hb' => ?_) v
  subst hb
  subst hb'
  exact h block block' hu hu'

theorem proposedAfter_of_none {l : Option LeaderState} (us : List Input) (h : awaited l = none) :
    proposedAfter l us = [] := by
  unfold proposedAfter
  rw [h]

theorem proposedAfter_of_some {l : Option LeaderState} {b : BlockId} (us : List Input)
    (h : awaited l = some b) : proposedAfter l us = if .blockValid b ∈ us then [b] else [] := by
  unfold proposedAfter
  rw [h]

theorem proposedAfter_nil (l : Option LeaderState) : proposedAfter l [] = [] := by
  cases h : awaited l with
  | none => exact proposedAfter_of_none [] h
  | some b => exact (proposedAfter_of_some [] h).trans (if_neg (by simp))

/-- One notice, and then the others. -/
theorem proposedAfter_cons (l : Option LeaderState) (u : Input) (us : List Input) :
    proposedAfter l (u :: us) = proposed l u ++ proposedAfter (advance l u) us := by
  cases h : awaited l with
  | none =>
    obtain ⟨hu, hp⟩ := advance_of_awaited_none h u
    rw [hu, hp, proposedAfter_of_none _ h, proposedAfter_of_none _ h]
    rfl
  | some b =>
    rw [proposedAfter_of_some (u :: us) h]
    by_cases hu : u = .blockValid b
    · -- the block awaited: it is proposed now, and not again
      subst hu
      obtain ⟨hl, hp⟩ := advance_blockValid_of_eq h
      rw [hl, hp, proposedAfter_of_none us rfl]
      simp
    · rw [(advance_of_ne h hu).2, proposedAfter_of_some us (awaited_advance_of_ne h hu)]
      simp [Ne.symm hu]

/-- What is proposed along the way. -/
theorem View.foldl_note_proposals (us : List Input) (v : View) :
    (us.foldl View.note v).proposals = v.proposals ++ proposedAfter v.leaderState us := by
  induction us generalizing v with
  | nil => rw [List.foldl_nil, proposedAfter_nil, List.append_nil]
  | cons u us ih =>
    rw [List.foldl_cons, ih, View.note, List.append_assoc, proposedAfter_cons]

/-! ## The handlers -/

section
variable {S : Type} {env : Env}

def view (n : Node S) : View where
  leaderState := n.leaderState
  blockQueue := n.blockQueue
  proposals := Node.proposals n.trace

/-- The calls made on a notice succeed. -/
structure Obliges (env : Env) : Prop where
  checkBlocks : ∀ t, env.checkBlocks t = .ok ()
  propose : ∀ t, env.propose t = true

theorem view_add {o : Obs} (h : proposalOf o = none) (n : Node S) : view (n.add o) = view n := by
  unfold view
  rw [add_trace, proposals_snoc, h, Option.toList_none, List.append_nil]
  rfl

theorem emit_view {v : View} {o : Obs} (h : proposalOf o = none) :
    Triple (fun n : Node S => view n = v) (emit o) (fun _ n => view n = v)
      (fun _ _ => ¬ Obliges env) :=
  Triple.update fun n hn => (view_add h n).trans hn

theorem updateQueue_view {v : View} (g : BlockQueue → BlockQueue) :
    Triple (fun n : Node S => view n = v) (updateQueue g)
      (fun _ n => view n = { v with blockQueue := g v.blockQueue }) (fun _ _ => ¬ Obliges env) :=
  Triple.update fun n hn => by
    subst hn
    rfl

theorem noteReceived_view {v : View} (block : Block) :
    Triple (fun n : Node S => view n = v) (noteReceived block.blockId)
      (fun _ n => view n = { v with leaderState := advance v.leaderState (.blockNew block) })
      (fun _ _ => ¬ Obliges env) := by
  refine Triple.read fun n hn => ?_
  subst hn
  have hadvance : advance (view n).leaderState (.blockNew block)
      = if n.leaderState = some (.publishing block.blockId) then
          some (.validating block.blockId) else n.leaderState := rfl
  rw [hadvance]
  refine Triple.ite (fun hl => ?_) fun hl => ?_
  · rw [if_pos hl]
    refine Triple.update fun s hs => ?_
    rw [hs]
    rfl
  · rw [if_neg hl]
    exact Triple.pure fun s hs => by rw [hs]; rfl

theorem onBlockNew_view {v : View} (block : Block) :
    Triple (fun n : Node S => view n = v) (onBlockNew env block)
      (fun _ n => view n = v.note (.blockNew block)) (fun _ _ => ¬ Obliges env) := by
  refine Triple.bind (emit_view rfl) fun _ => ?_
  refine Triple.bind (noteReceived_view block) fun _ => ?_
  refine Triple.bind (updateQueue_view (·.blockNew block)) fun _ => ?_
  refine Triple.bind tryCall_eq fun r => ?_
  cases r with
  | ok a =>
    refine Triple.pure fun n hn => ?_
    obtain ⟨n', hn', rfl, -⟩ := hn
    rw [view_add rfl, hn']
    simp [View.note, proposed, record]
  | error err =>
    refine Triple.throw fun n hn hobliges => ?_
    obtain ⟨n', -, -, hr⟩ := hn
    exact nomatch hr.trans (hobliges.checkBlocks _)

theorem onBlockValid_view {v : View} (b : BlockId) :
    Triple (fun n : Node S => view n = v) (onBlockValid env b)
      (fun _ n => view n = v.note (.blockValid b)) (fun _ _ => ¬ Obliges env) := by
  refine Triple.bind (emit_view rfl) fun _ => ?_
  refine Triple.bind (updateQueue_view (·.blockValid b)) fun _ => ?_
  refine Triple.read fun n hn => ?_
  have hl : n.leaderState = v.leaderState := congrArg View.leaderState hn
  rw [hl]
  refine Triple.ite (fun hawait => ?_) fun hawait => ?_
  · have hsome := awaited_eq_some.mpr hawait
    obtain ⟨hadvance, hproposed⟩ := advance_blockValid_of_eq hsome
    refine Triple.bind (tryCall_eq (G := fun s => s = n)) fun r => ?_
    cases r with
    | true =>
      refine Triple.update fun s hs => ?_
      obtain ⟨n', rfl, rfl, -⟩ := hs
      have htrace : Node.proposals n'.trace = v.proposals := congrArg View.proposals hn
      have hqueue : n'.blockQueue = v.blockQueue.blockValid b := congrArg View.blockQueue hn
      rw [View.note, hadvance, hproposed]
      show (⟨some (.proposing b), n'.blockQueue,
        Node.proposals (n'.trace ++ [.propose b])⟩ : View) = _
      rw [proposals_snoc, htrace, hqueue]
      rfl
    | false =>
      refine Triple.throw fun s hs hobliges => ?_
      obtain ⟨n', -, -, hr⟩ := hs
      exact nomatch hr.trans (hobliges.propose _)
  · have hne : awaited v.leaderState ≠ some b := fun h => hawait (awaited_eq_some.mp h)
    refine Triple.pure fun s hs => ?_
    rw [hs, hn]
    simp [View.note, advance, proposed, record, hne]

/-! ## Runs -/

variable [StorageExt S] [Protobuf] [Formats]

/-- One notice. -/
theorem handle_view {v : View} {u : Input} (hu : u.IsNotice) :
    Triple (fun n : Node S => view n = v) (handle env u)
      (Sys.Leaves (fun n => view n = v.note u) (fun _ _ => ¬ Obliges env))
      (fun _ _ => ¬ Obliges env) := by
  cases u with
  | blockNew block =>
    exact Triple.bind (onBlockNew_view block) fun _ => Triple.pure fun _ hn => hn
  | blockValid b =>
    exact Triple.bind (onBlockValid_view b) fun _ => Triple.pure fun _ hn => hn
  | blockCommit | peerMessage | tick | processReady => exact hu.elim

/-- A list of notices: the node has noted all of them, or some call failed. -/
theorem run_view {us : List Input} (hus : ∀ u ∈ us, u.IsNotice) {v : View} {s : Sys S}
    (hs : s.Sat (fun n => view n = v) (fun _ _ => ¬ Obliges env)) :
    (s.run env us).Sat (fun n => view n = us.foldl View.note v) (fun _ _ => ¬ Obliges env) := by
  induction us generalizing s v with
  | nil => exact hs
  | cons u us ih =>
    have hstep := Sys.sat_step (handle_view (hus u (by simp))) (fun _ hn => hn) hs
    exact ih (fun u' hu' => hus u' (by simp [hu'])) hstep

/-- What a node shows after a list of notices, if it still runs. -/
theorem view_run (env : Env) {us : List Input} (hus : ∀ u ∈ us, u.IsNotice) (n : Node S) :
    (Obliges env → ((Sys.start n).run env us).status = .running) ∧
      (((Sys.start n).run env us).status = .running →
        view ((Sys.start n).run env us).node = us.foldl View.note (view n)) := by
  have hsat : ((Sys.start n).run env us).Sat (fun n' => view n' = us.foldl View.note (view n))
      (fun _ _ => ¬ Obliges env) := run_view hus rfl
  generalize (Sys.start n).run env us = s at hsat
  obtain ⟨n', status⟩ := s
  cases status with
  | running => exact ⟨fun _ => rfl, fun _ => hsat⟩
  | shutdown => exact ⟨fun h => absurd h hsat, fun h => nomatch h⟩
  | panicked p => exact ⟨fun h => absurd h hsat, fun h => nomatch h⟩

/-- **Notices about blocks come in any order.** The same notices leave the same
leader state, the same queue and the same block to commit next, and make the
leader propose the same: the block it has published, if that is reported as
valid, and nothing else. No order makes a handler panic whose calls succeed. -/
theorem notices_commute (env env' : Env) (n : Node S) {us us' : List Input}
    (hus : ∀ u ∈ us, u.IsNotice) (hblocks : Unambiguous us) (hperm : us.Perm us') :
    let s := (Sys.start n).run env us
    let s' := (Sys.start n).run env' us'
    (Obliges env → s.status = .running) ∧ (Obliges env' → s'.status = .running) ∧
    (s.status = .running → s'.status = .running →
      s'.node.leaderState = s.node.leaderState ∧
      s'.node.blockQueue.validatorBacklog = s.node.blockQueue.validatorBacklog ∧
      s'.node.blockQueue.commitQueue = s.node.blockQueue.commitQueue ∧
      s'.node.blockQueue.getNextCommittable = s.node.blockQueue.getNextCommittable ∧
      proposals s'.node.trace = proposals s.node.trace ∧
      proposals s.node.trace = proposals n.trace ++ proposedAfter n.leaderState us) := by
  intro s s'
  have hus' : ∀ u ∈ us', u.IsNotice := fun u hu => hus u (hperm.mem_iff.mpr hu)
  obtain ⟨hruns, hview⟩ := view_run env hus n
  obtain ⟨hruns', hview'⟩ := view_run env' hus' n
  refine ⟨hruns, hruns', fun hrun hrun' => ?_⟩
  have hsame : view s'.node = view s.node := by
    rw [hview hrun, hview' hrun', View.foldl_note_perm hperm hblocks]
  have hqueue : s'.node.blockQueue = s.node.blockQueue := congrArg View.blockQueue hsame
  have hproposals : (view s.node).proposals = _ := congrArg View.proposals (hview hrun)
  rw [View.foldl_note_proposals] at hproposals
  refine ⟨congrArg View.leaderState hsame, ?_, ?_, ?_, congrArg View.proposals hsame, hproposals⟩
  · rw [hqueue]
  · rw [hqueue]
  · rw [hqueue]

end

section

open scoped Proto3 PlainFormats

/-- Every call succeeds, and the leader's blocks are all the same one. -/
def publisher : Env := Env.obliging [8] fun _ _ => none

theorem publisher_obliges : Obliges publisher := ⟨fun _ => rfl, fun _ => rfl⟩

/-- The node is elected and publishes a block. -/
def published : List Input := [.processReady (some { isLeader := true }), .tick]

/-- The block is announced and reported as valid, as is another one. -/
def announced : List Input :=
  [.blockNew { blockId := [8] }, .blockValid [9], .blockValid [8], .blockNew { blockId := [9] }]

/-- Both blocks are reported as valid before they are announced, the leader's
own one proposed all the same. -/
theorem notices_commute_reversed : ∃ node : Node FsStorage, Sys.IsNew node ∧
    let n := ((Sys.start node).run publisher published).node
    n.leaderState = some (.publishing [8]) ∧
    proposals ((Sys.start n).run publisher announced.reverse).node.trace
      = proposals n.trace ++ [[8]] := by
  obtain ⟨node, hnode⟩ : ∃ n, twoPeers = .ok n := ⟨_, rfl⟩
  refine ⟨node, twoPeers_isNew hnode, ?_⟩
  intro n
  have hl : n.leaderState = some (.publishing [8]) := by
    unfold n
    obtain rfl := Except.ok.inj (hnode.symm.trans (rfl : twoPeers = .ok _))
    decide +kernel
  have hus : ∀ u ∈ announced, u.IsNotice := by
    unfold announced
    simp [Input.IsNotice]
  have hblocks : Unambiguous announced := by
    unfold Unambiguous announced
    grind
  obtain ⟨hruns, hruns', hsame⟩ := notices_commute publisher publisher n hus hblocks
    announced.reverse_perm.symm
  obtain ⟨-, -, -, -, hproposals, hproposed⟩ :=
    hsame (hruns publisher_obliges) (hruns' publisher_obliges)
  refine ⟨hl, hproposals.trans (hproposed.trans ?_)⟩
  rw [hl]
  rfl

end

end Node

end SawtoothRaft
