import SawtoothRaft.Engine.Loop
import SawtoothRaft.Engine.Ticker
import SawtoothRaft.Node.Opening

/-!
# `RaftEngine::start`

The engine as a whole: the store is opened, the configuration loaded and the
node made, and then the loop waits for updates, calls the ticker and handles
rounds until it is left. Nothing is assumed of the time that any of this takes.

The loop is a driver of the node and nothing else. `start_drives` says which
inputs the node is given, so what holds of every run of a node holds of the
engine. And although its ticker may fire early, Raft's clock does not fall behind
(`raft_clock_keeps_up`): a call that does not fire makes the loop wait for less
than what is left of the period, so a tick is late by the work of one turn at
most.
-/

namespace SawtoothRaft

open Lib

namespace Ticker

/-- `Ticker::tick` with a callback that takes some time: the next period begins
when it is done. -/
def tickTaking (t : Ticker) (now taken : Nat) : Call × Ticker :=
  let elapsed := now - t.last
  if elapsed ≥ t.remaining then
    let t := { t with last := now + taken, remaining := t.timeout }
    ({ time := now, fired := true, left := t.remaining }, t)
  else
    let t := { t with remaining := t.remaining - elapsed }
    ({ time := now, fired := false, left := t.remaining }, t)

theorem tickTaking_zero (t : Ticker) (now : Nat) : t.tickTaking now 0 = t.tick now := rfl

end Ticker

namespace Turn

/-- The engine leaves the loop before anything else. -/
def leaves (i : Turn) : Bool :=
  match i.received with
  | .disconnected | .update .shutdown => true
  | _ => false

/-- What the node is given in a turn that is not the last. -/
def inputs (i : Turn) : List Input :=
  (match i.received with
    | .update (.blockNew block) => [.blockNew block]
    | .update (.blockValid blockId) => [.blockValid blockId]
    | .update (.blockCommit blockId) => [.blockCommit blockId]
    | .update (.peerMessage content) => [.peerMessage content]
    | _ => []) ++
  (if i.ticks then [.tick] else []) ++ [.processReady i.round]

end Turn

namespace Engine

/-! ## A turn, input by input -/

section
variable {S : Type} [StorageExt S] [Protobuf] [Formats] {env : Env}

theorem run_stopped {s : Sys S} (h : s.status ≠ .running) (inputs : List Input) :
    s.run env inputs = s := by
  induction inputs with
  | nil => rfl
  | cons i inputs ih =>
    have hstep : s.step env i = s := by
      unfold Sys.step
      cases hs : s.status with
      | running => exact absurd hs h
      | _ => rfl
    show (s.step env i).run env inputs = s
    rw [hstep]
    exact ih

/-- An input that has nothing to return, and then the others. -/
theorem run_handled {i : Input} {m : NodeM S Unit}
    (hi : Node.handle env i = (do m; pure .Continue)) {k : NodeM S ReadyStatus}
    {inputs : List Input} (hk : ∀ n, Sys.after (k n) = Sys.run env (Sys.start n) inputs)
    (n : Node S) : Sys.after ((do m; k) n) = Sys.run env (Sys.start n) (i :: inputs) := by
  have hstep : Sys.step env (Sys.start n) i = Sys.after ((do m; pure ReadyStatus.Continue) n) := by
    rw [← hi]
    rfl
  show _ = Sys.run env (Sys.step env (Sys.start n) i) inputs
  rw [hstep]
  change Sys.after (EStateM.bind m (fun _ => k) n)
    = Sys.run env (Sys.after (EStateM.bind m (fun _ => pure ReadyStatus.Continue) n)) inputs
  unfold EStateM.bind
  cases m n with
  | ok u n' => exact hk n'
  | error p n' => exact (run_stopped (by simp [Sys.after]) inputs).symm

/-- The tick and the round. -/
theorem after_tick (env : Env) (fires : Bool) (round : Option Round) (n : Node S) :
    Sys.after ((do raftTick env fires; Node.processReady env round) n)
      = Sys.run env (Sys.start n)
          ((if fires then [.tick] else []) ++ [.processReady round]) := by
  cases fires with
  | true => exact run_handled (i := .tick) rfl (fun n => rfl) n
  | false => rfl

theorem turn_eq (i : Turn) :
    (turn env i : NodeM S ReadyStatus) = (do
      if ← receive env i.received then do
        raftTick env i.ticks
        Node.processReady env i.round
      else pure .Shutdown) := by
  unfold turn beforeReady
  rw [bind_assoc]
  congr 1
  funext go
  cases go with
  | true => simp
  | false => simp

theorem turn_handled {u : Update} {m : NodeM S Unit}
    (hu : handleUpdate env u = (do m; pure true)) (ticks : Bool) (round : Option Round) :
    (turn env { received := .update u, ticks, round } : NodeM S ReadyStatus) = (do
      m
      raftTick env ticks
      Node.processReady env round) := by
  rw [turn_eq]
  show (handleUpdate env u >>= _) = _
  rw [hu, bind_assoc]
  rfl

theorem turn_inputs (i : Turn) (h : i.leaves = false) (n : Node S) :
    Sys.after (turn env i n) = Sys.run env (Sys.start n) i.inputs := by
  obtain ⟨received, ticks, round⟩ := i
  have hafter : ∀ n : Node S, _ := after_tick env ticks round
  cases received with
  | timeout => rw [turn_eq]; exact hafter n
  | disconnected => exact absurd h (by simp [Turn.leaves])
  | update u =>
    cases u with
    | blockNew block =>
      rw [turn_handled rfl]
      exact run_handled (i := .blockNew block) rfl hafter n
    | blockValid blockId =>
      rw [turn_handled rfl]
      exact run_handled (i := .blockValid blockId) rfl hafter n
    | blockCommit blockId =>
      rw [turn_handled rfl]
      exact run_handled (i := .blockCommit blockId) rfl hafter n
    | peerMessage content =>
      rw [turn_handled rfl]
      exact run_handled (i := .peerMessage content) rfl hafter n
    | shutdown => exact absurd h (by simp [Turn.leaves])
    | other => rw [turn_eq]; exact hafter n

theorem step_stopped {s : Sys S} (h : s.status ≠ .running) (i : Turn) : step env s i = s := by
  unfold step
  cases hs : s.status with
  | running => exact absurd hs h
  | _ => rfl

/-- A turn gives its inputs to the node, or it leaves the loop. -/
theorem step_inputs (s : Sys S) (i : Turn) : step env s i
    = if i.leaves then (if s.status = .running then { s with status := .shutdown } else s)
      else s.run env i.inputs := by
  by_cases hs : s.status = .running
  · obtain ⟨n, status⟩ := s
    obtain rfl : status = .running := hs
    cases hi : i.leaves with
    | false => exact turn_inputs i hi n
    | true =>
      rw [if_pos rfl, if_pos rfl]
      show Sys.after (turn env i n) = _
      rw [turn_eq]
      unfold Turn.leaves at hi
      split at hi
      next h => rw [h]; rfl
      next h => rw [h]; rfl
      next => exact absurd hi (by simp)
  · rw [step_stopped hs, if_neg hs, run_stopped hs, ite_self]

/-- What the node is given until the loop is left. -/
def handed (turns : List Turn) : List Input :=
  (turns.takeWhile fun i => !i.leaves).flatMap Turn.inputs

/-- A node that is still running when the loop is left is shut down. -/
def closed (left : Bool) (s : Sys S) : Sys S :=
  if left ∧ s.status = .running then { s with status := .shutdown } else s

theorem run_handed (turns : List Turn) (s : Sys S) :
    run env s turns = closed (turns.any Turn.leaves) (s.run env (handed turns)) := by
  induction turns generalizing s with
  | nil => rfl
  | cons i turns ih =>
    show run env (step env s i) turns = _
    rw [step_inputs]
    cases hi : i.leaves with
    | false =>
      have hhanded : handed (i :: turns) = i.inputs ++ handed turns := by
        simp [handed, hi]
      rw [if_neg (by simp), ih, hhanded, List.any_cons, hi, Bool.false_or]
      unfold Sys.run
      rw [List.foldl_append]
    | true =>
      have hhanded : handed (i :: turns) = [] := by simp [handed, hi]
      rw [if_pos rfl, hhanded, List.any_cons, hi, Bool.true_or]
      have hover : ∀ s' : Sys S, s'.status ≠ .running → run env s' turns = s' := by
        intro s' hs'
        rw [ih, closed, run_stopped hs', if_neg (by simp [hs'])]
      by_cases hs : s.status = .running
      · rw [if_pos hs, hover _ (by simp)]
        exact (if_pos ⟨rfl, hs⟩).symm
      · rw [if_neg hs, hover s hs]
        exact (if_neg fun h => hs h.2).symm

end

/-! ## The loop in time -/

/-- `RAFT_TIMEOUT`, in milliseconds -/
def raftTimeout : Nat := 100

/-- What one turn meets, and how long it takes: to wait for an update, to handle
it, to call `node.tick` if the ticker fires, and to handle the round. -/
structure Moment where
  received : Received := .timeout
  waited : Nat := 0
  handling : Nat := 0
  ticking : Nat := 0
  round : Option Round := none
  processing : Nat := 0
  deriving DecidableEq, Repr

/-- The variables of the loop, and the time. -/
structure Loop (S : Type) where
  sys : Sys S
  raftTicker : Ticker
  timeout : Nat
  clock : Nat

section
variable {S : Type} (l : Loop S) (m : Moment)

/-- The time at which the ticker is called. -/
def Loop.calledAt : Nat := l.clock + m.waited + m.handling

def Loop.call : Ticker.Call × Ticker := l.raftTicker.tickTaking (l.calledAt m) m.ticking

def Loop.turn : Turn :=
  { received := m.received, ticks := (l.call m).1.fired, round := m.round }

end

section
variable {S : Type} [StorageExt S] [Protobuf] [Formats] (env : Env)

def Loop.next (l : Loop S) (m : Moment) : Loop S :=
  match l.sys.status with
  | .running => {
      sys := step env l.sys (l.turn m)
      raftTicker := (l.call m).2
      timeout := (l.call m).1.left
      clock := l.calledAt m + (if (l.call m).1.fired then m.ticking else 0) + m.processing }
  | _ => l

def Loop.drive (l : Loop S) (moments : List Moment) : Loop S := moments.foldl (Loop.next env) l

/-- The turns that come of it. -/
def Loop.turns : Loop S → List Moment → List Turn
  | _, [] => []
  | l, m :: moments => l.turn m :: Loop.turns (l.next env m) moments

/-- Before the first turn. -/
def Loop.begin (node : Node S) (created : Nat) : Loop S where
  sys := Sys.start node
  raftTicker := Ticker.new raftTimeout created
  timeout := raftTimeout
  clock := created

/-- `RaftEngine::start` at time `created`, up to the end of the last turn
given. -/
def start (C : Type → Type) [LruCache cacheSize C] (raftDefault : RaftConfig) (d : Dir)
    (peerId : PeerId) (settings : Except ServiceError Settings) (created : Nat)
    (moments : List Moment) : Except Panic (Loop (CachedStorage C FsStorage)) := do
  let p ← startEngine C raftDefault d peerId settings
  pure ((Loop.begin p.1 created).drive env moments)

variable {env}

theorem Loop.drive_sys (moments : List Moment) (l : Loop S) :
    (l.drive env moments).sys = run env l.sys (l.turns env moments) := by
  induction moments generalizing l with
  | nil => rfl
  | cons m moments ih =>
    have hnext : (l.next env m).sys = step env l.sys (l.turn m) := by
      unfold Loop.next
      cases hs : l.sys.status with
      | running => rfl
      | _ => exact (step_stopped (by simp [hs]) _).symm
    show ((l.next env m).drive env moments).sys
      = run env (step env l.sys (l.turn m)) ((l.next env m).turns env moments)
    rw [ih, hnext]

/-- **The engine drives a node and does nothing else to it.** Once it has
started, the node it has come to is one that a new node comes to by handling, for
each turn before the loop is left, the update that was received, a tick if the
ticker has fired, and the round. It has stopped if that node has, and as well
when the updates end or the validator shuts the engine down. -/
theorem start_drives {C : Type → Type} [LruCache cacheSize C] {raftDefault : RaftConfig} {d : Dir}
    {peerId : PeerId} {settings : Except ServiceError Settings} {created : Nat}
    {moments : List Moment} {l : Loop (CachedStorage C FsStorage)}
    (h : start env C raftDefault d peerId settings created moments = .ok l) :
    ∃ node applied, startEngine C raftDefault d peerId settings = .ok (node, applied) ∧
      let turns := (Loop.begin node created).turns env moments
      l.sys = closed (turns.any Turn.leaves) ((Sys.start node).run env (handed turns)) ∧
      ∃ s : Sys (CachedStorage C FsStorage), s.Reachable ∧ l.sys.node = s.node := by
  obtain ⟨⟨node, applied⟩, hstart, h⟩ := bind_eq_ok.mp h
  obtain rfl := Except.ok.inj h
  obtain ⟨_, _, -, -, hstarted⟩ := startEngine_eq_ok hstart
  have hsys : ((Loop.begin node created).drive env moments).sys = _ := Loop.drive_sys moments _
  rw [run_handed] at hsys
  refine ⟨node, applied, hstart, hsys, (Sys.start node).run env _,
    ⟨env, handed ((Loop.begin node created).turns env moments), node, hstarted.isNew.1, rfl⟩, ?_⟩
  show ((Loop.begin node created).drive env moments).sys.node = _
  rw [hsys]
  unfold closed
  split <;> rfl

/-! ## Raft's clock -/

/-- A wait that ends without an update has lasted for the whole timeout. What
comes on top of the timeout, the handling of the update and `node.tick` take no
longer than `work`, and the round no longer than `rounds`. -/
structure Within (work rounds : Nat) (l : Loop S) (m : Moment) : Prop where
  waits : m.received = .timeout → l.timeout ≤ m.waited
  work : (m.waited - l.timeout) + m.handling + m.ticking ≤ work
  rounds : m.processing ≤ rounds

instance (work rounds : Nat) (l : Loop S) (m : Moment) : Decidable (Within work rounds l m) :=
  decidable_of_iff ((m.received = .timeout → l.timeout ≤ m.waited) ∧
      (m.waited - l.timeout) + m.handling + m.ticking ≤ work ∧ m.processing ≤ rounds)
    ⟨fun h => ⟨h.1, h.2.1, h.2.2⟩, fun h => ⟨h.waits, h.work, h.rounds⟩⟩

/-- What the variables of the loop have to do with the time. The last round has
taken `round`. -/
structure OnClock (round : Nat) (l : Loop S) : Prop where
  period : l.raftTicker.timeout = raftTimeout
  left : l.timeout = l.raftTicker.remaining
  positive : 0 < l.timeout
  bound : l.timeout ≤ raftTimeout
  order : l.raftTicker.last ≤ l.clock
  due : l.clock + l.timeout ≤ l.raftTicker.last + raftTimeout + round

omit [StorageExt S] [Protobuf] [Formats] in
theorem begin_onClock (node : Node S) (created : Nat) : OnClock 0 (Loop.begin node created) :=
  ⟨rfl, rfl, Nat.zero_lt_succ _, Nat.le_refl _, Nat.le_refl _, Nat.le_refl _⟩

omit [StorageExt S] [Protobuf] [Formats] in
/-- The ticker fires when the wait has lasted for the whole timeout. -/
theorem OnClock.fires {round : Nat} {l : Loop S} (h : OnClock round l) {m : Moment}
    (hm : l.timeout ≤ m.waited) : (l.call m).1.fired = true := by
  have hdue : l.calledAt m - l.raftTicker.last ≥ l.raftTicker.remaining := by
    have horder := h.order
    rw [← h.left]
    unfold Loop.calledAt
    omega
  unfold Loop.call Ticker.tickTaking
  rw [if_pos hdue]

theorem next_fires (env : Env) {l : Loop S} (hrunning : l.sys.status = .running) {m : Moment}
    (h : l.raftTicker.remaining ≤ l.calledAt m - l.raftTicker.last) :
    (l.turn m).ticks = true ∧ l.next env m = {
      sys := step env l.sys (l.turn m)
      raftTicker := ⟨l.calledAt m + m.ticking, l.raftTicker.timeout, l.raftTicker.timeout⟩
      timeout := l.raftTicker.timeout
      clock := l.calledAt m + m.ticking + m.processing } := by
  have hcall : l.call m = (⟨l.calledAt m, true, l.raftTicker.timeout⟩,
      ⟨l.calledAt m + m.ticking, l.raftTicker.timeout, l.raftTicker.timeout⟩) := if_pos h
  refine ⟨congrArg (fun p => p.1.fired) hcall, ?_⟩
  unfold Loop.next
  rw [hrunning, hcall]
  rfl

theorem next_quiet (env : Env) {l : Loop S} (hrunning : l.sys.status = .running) {m : Moment}
    (h : ¬ l.raftTicker.remaining ≤ l.calledAt m - l.raftTicker.last) :
    (l.turn m).ticks = false ∧ l.next env m = {
      sys := step env l.sys (l.turn m)
      raftTicker := ⟨l.raftTicker.last, l.raftTicker.timeout,
        l.raftTicker.remaining - (l.calledAt m - l.raftTicker.last)⟩
      timeout := l.raftTicker.remaining - (l.calledAt m - l.raftTicker.last)
      clock := l.calledAt m + m.processing } := by
  have hcall : l.call m = (⟨l.calledAt m, false,
        l.raftTicker.remaining - (l.calledAt m - l.raftTicker.last)⟩,
      ⟨l.raftTicker.last, l.raftTicker.timeout,
        l.raftTicker.remaining - (l.calledAt m - l.raftTicker.last)⟩) := if_neg h
  refine ⟨congrArg (fun p => p.1.fired) hcall, ?_⟩
  unfold Loop.next
  rw [hrunning, hcall]
  rfl

/-- **Step**: one turn. If the ticker fires, it does so at most a timeout and
the work of a turn after the last time. -/
theorem OnClock.next {round work rounds : Nat} {l : Loop S} (h : OnClock round l)
    (hrunning : l.sys.status = .running) {m : Moment} (hm : Within work rounds l m) :
    OnClock m.processing (l.next env m) ∧ (l.next env m).raftTicker.last
      ≤ l.raftTicker.last + if (l.turn m).ticks then raftTimeout + work + round else 0 := by
  obtain ⟨hperiod, hleft, hpositive, hbound, horder, hdue⟩ := h
  have hwork := hm.work
  have hcalled : l.calledAt m = l.clock + m.waited + m.handling := rfl
  by_cases hfires : l.raftTicker.remaining ≤ l.calledAt m - l.raftTicker.last
  · obtain ⟨hticks, hnext⟩ := next_fires env hrunning hfires
    rw [hnext, hticks, if_pos rfl]
    refine ⟨⟨hperiod, rfl, ?_, Nat.le_of_eq hperiod, Nat.le_add_right .., ?_⟩, ?_⟩
    · exact hperiod ▸ Nat.lt_of_lt_of_le hpositive hbound
    · show l.calledAt m + m.ticking + m.processing + l.raftTicker.timeout
        ≤ l.calledAt m + m.ticking + raftTimeout + m.processing
      omega
    · show l.calledAt m + m.ticking ≤ _
      omega
  · -- what is taken off is less than what is left
    obtain ⟨hticks, hnext⟩ := next_quiet env hrunning hfires
    rw [hnext, hticks, if_neg (by simp)]
    refine ⟨⟨hperiod, rfl, Nat.sub_pos_of_lt (Nat.not_le.mp hfires), ?_, ?_, ?_⟩, Nat.le_refl _⟩
    · exact (Nat.sub_le ..).trans (hleft ▸ hbound)
    · show l.raftTicker.last ≤ l.calledAt m + m.processing
      omega
    · show l.calledAt m + m.processing
        + (l.raftTicker.remaining - (l.calledAt m - l.raftTicker.last))
        ≤ l.raftTicker.last + raftTimeout + m.processing
      omega

theorem Loop.drive_stopped {l : Loop S} (h : l.sys.status ≠ .running) (moments : List Moment) :
    l.drive env moments = l := by
  induction moments with
  | nil => rfl
  | cons m moments ih =>
    have hnext : l.next env m = l := by
      unfold Loop.next
      cases hs : l.sys.status with
      | running => exact absurd hs h
      | _ => rfl
    show (l.next env m).drive env moments = l
    rw [hnext, ih]

/-- **Run**: the last time the ticker has fired, by the number of times. -/
theorem OnClock.drive {work rounds : Nat} {moments : List Moment} {l : Loop S} {round : Nat}
    (h : OnClock round l) (hround : round ≤ rounds)
    (hwithin : Meets (Loop.next env) (Within work rounds) l moments)
    (hrunning : (l.drive env moments).sys.status = .running) :
    ∃ last ≤ rounds, OnClock last (l.drive env moments) ∧
      (l.drive env moments).raftTicker.last ≤ l.raftTicker.last
        + ((l.turns env moments).countP (·.ticks)) * (raftTimeout + work + rounds) := by
  induction moments generalizing l round with
  | nil => exact ⟨round, hround, h, Nat.le_add_right ..⟩
  | cons m moments ih =>
    have hbefore : l.sys.status = .running := by
      by_contra hstopped
      rw [Loop.drive_stopped hstopped] at hrunning
      exact hstopped hrunning
    obtain ⟨hnext, hlast⟩ := h.next hbefore hwithin.1
    obtain ⟨last, hle, hclock, hrun⟩ := ih hnext hwithin.1.rounds hwithin.2 hrunning
    refine ⟨last, hle, hclock, hrun.trans ?_⟩
    have hcount : (Loop.turns env l (m :: moments)).countP (·.ticks)
        = (Loop.turns env (l.next env m) moments).countP (·.ticks)
          + if (l.turn m).ticks then 1 else 0 := List.countP_cons ..
    rw [hcount]
    cases hticks : (l.turn m).ticks with
    | true =>
      rw [hticks, if_pos rfl] at hlast
      rw [if_pos rfl, Nat.add_mul, Nat.one_mul]
      omega
    | false =>
      rw [hticks, if_neg (by simp)] at hlast
      rw [if_neg (by simp), Nat.add_zero]
      omega

omit [Protobuf] [Formats] in
theorem count_handed {turns : List Turn} (h : turns.any Turn.leaves = false) :
    (handed turns).count .tick = turns.countP (·.ticks) := by
  induction turns with
  | nil => rfl
  | cons i turns ih =>
    rw [List.any_cons, Bool.or_eq_false_iff] at h
    have hhanded : handed (i :: turns) = i.inputs ++ handed turns := by simp [handed, h.1]
    have hinputs : i.inputs.count .tick = if i.ticks then 1 else 0 := by
      unfold Turn.inputs
      split <;> cases i.ticks <;> rfl
    rw [hhanded, List.count_append, ih h.2, hinputs, List.countP_cons, Nat.add_comm]

/-- **Raft's clock keeps up with real time.** While the engine is running, the
timeout of the next wait is positive and not longer than `RAFT_TIMEOUT`, and Raft
gets a tick in every turn whose wait has lasted that long. Since the start it has
got one at least for each `RAFT_TIMEOUT` that has passed, when the period is
stretched by the longest that the work and the round of a turn have taken. -/
theorem raft_clock_keeps_up {node : Node S} {created work rounds : Nat} {moments : List Moment}
    (hwithin : Meets (Loop.next env) (Within work rounds) (Loop.begin node created) moments)
    (hrunning : ((Loop.begin node created).drive env moments).sys.status = .running) :
    let l := (Loop.begin node created).drive env moments
    let given := handed ((Loop.begin node created).turns env moments)
    l.sys = (Sys.start node).run env given ∧
    0 < l.timeout ∧ l.timeout ≤ raftTimeout ∧
    (∀ m : Moment, l.timeout ≤ m.waited → (l.turn m).ticks = true) ∧
    l.clock < created + (given.count .tick + 1) * (raftTimeout + work + rounds) := by
  intro l given
  obtain ⟨last, hlast, hclock, hrun⟩ :=
    (begin_onClock node created).drive (Nat.zero_le _) hwithin hrunning
  -- the loop has not been left
  have hsys : l.sys = closed _ ((Sys.start node).run env given) :=
    (Loop.drive_sys moments _).trans (run_handed _ _)
  have hleaves : ((Loop.begin node created).turns env moments).any Turn.leaves = false := by
    by_contra hleft
    rw [Bool.not_eq_false] at hleft
    have hstatus : l.sys.status = .running := hrunning
    rw [hsys, hleft, closed] at hstatus
    split at hstatus
    next => exact absurd hstatus (by simp)
    next hstopped => exact hstopped ⟨rfl, hstatus⟩
  rw [hleaves, closed, if_neg (by simp)] at hsys
  refine ⟨hsys, hclock.positive, hclock.bound, fun m hm => hclock.fires hm, ?_⟩
  have hdue : l.clock + l.timeout ≤ l.raftTicker.last + raftTimeout + last := hclock.due
  have hpositive : 0 < l.timeout := hclock.positive
  have hcreated : l.raftTicker.last ≤ created
      + ((Loop.begin node created).turns env moments).countP (·.ticks)
        * (raftTimeout + work + rounds) := hrun
  rw [count_handed hleaves, Nat.add_mul, Nat.one_mul]
  omega

end

section

open scoped Proto3 PlainFormats

/-- An update early in the period, and then silence. -/
def earlyUpdate : List Moment :=
  [{ received := .update (.blockValid [7]), waited := 40, handling := 2 },
    { waited := 59, ticking := 1, round := some { isLeader := false }, processing := 3 }]

/-- The wait after the update is for 58 units, so Raft gets its tick in time. -/
theorem raft_clock_keeps_up_earlyUpdate : ∃ node : Node FsStorage, Node.twoPeers = .ok node ∧
    let l := (Loop.begin node 0).drive (Env.obliging [8] fun _ => twoPeersSetting) earlyUpdate
    l.clock = 105 ∧ 0 < l.timeout ∧ l.clock < 0 + (1 + 1) * (raftTimeout + 2 + 3) := by
  obtain ⟨node, hnode⟩ : ∃ node, Node.twoPeers = .ok node := ⟨_, rfl⟩
  have hwithin : Meets (Loop.next (Env.obliging [8] fun _ => twoPeersSetting)) (Within 2 3)
      (Loop.begin node 0) earlyUpdate := by
    obtain rfl := Except.ok.inj (hnode.symm.trans (rfl : Node.twoPeers = .ok _))
    decide +kernel
  refine ⟨node, hnode, ?_⟩
  obtain rfl := Except.ok.inj (hnode.symm.trans (rfl : Node.twoPeers = .ok _))
  have hclock := raft_clock_keeps_up hwithin (by decide +kernel)
  exact ⟨by decide +kernel, hclock.2.1, hclock.2.2.2.2⟩

/-- The validator goes away after that. -/
def disconnected : Except Panic (Loop (CachedStorage List FsStorage)) :=
  letI := listLru cacheSize
  start (Env.obliging [8] fun _ => twoPeersSetting) List {} (fun _ => none) (Node.peerOf 1)
    (.ok twoPeersSetting) 0 (earlyUpdate ++ [{ received := .disconnected }])

theorem start_drives_disconnected :
    letI := listLru cacheSize
    ∃ l, disconnected = .ok l ∧ l.sys.status = .shutdown ∧
      ∃ s, Sys.Reachable s ∧ l.sys.node = s.node := by
  let _ := listLru cacheSize
  have hstatus : disconnected.map (fun l => l.sys.status) = .ok .shutdown := by decide +kernel
  cases hl : disconnected with
  | error p => rw [hl] at hstatus; exact nomatch hstatus
  | ok l =>
    rw [hl] at hstatus
    obtain ⟨_, _, -, -, s, hs, hnode⟩ := start_drives hl
    exact ⟨l, rfl, Except.ok.inj hstatus, s, hs, hnode⟩

end

end Engine

end SawtoothRaft
