import SawtoothRaft.Node.Invariant

/-!
# Invariants apart from the main one

Many facts about a run do not depend on what the handlers decide. `Steady G`
says that nothing but the entries taken up can break `G`; together with
`Takes`, which is about the entries, it makes `G` an invariant of all runs
(`run_steady`). `Closed G` is the case in which the entries cannot break it
either.
-/

namespace SawtoothRaft

open Lib

namespace Node

variable {S : Type}

/-- Everything but entries and what is done to the store. -/
def Plain : Obs → Prop
  | .entry _ | .setApplied _ | .file _ => False
  | _ => True

theorem plain_of_silent {o : Obs} (h : Silent o) : Plain o := by
  cases o with
  | entry | setApplied | file => exact absurd h (by simp [Silent])
  | _ => trivial

theorem Plain.ne_entry {o : Obs} (h : Plain o) (e : Entry) : o ≠ .entry e := by
  intro ho
  subst ho
  exact h

theorem Plain.ne_setApplied {o : Obs} (h : Plain o) (i : Nat) : o ≠ .setApplied i := by
  intro ho
  subst ho
  exact h

theorem Plain.ne_file {o : Obs} (h : Plain o) (op : FileOp) : o ≠ .file op := by
  intro ho
  subst ho
  exact h

/-- An assertion that only the entries taken up can break. -/
structure Steady [StorageExt S] (G : Node S → Prop) : Prop where
  leader : ∀ n st, G n → G { n with leaderState := st }
  follower : ∀ n st, G n → G { n with followerState := st }
  queue : ∀ n q, G n → G { n with blockQueue := q }
  record : ∀ n o, Plain o → G n → G (n.add o)
  stored : ∀ n o, Persists n.store o → G n → G (n.stored o)
  confirmed : ∀ n i q, G n → G (n.confirmed i q)

theorem Steady.tame [StorageExt S] {G : Node S → Prop} (h : Steady G) : Tame G where
  leader := h.leader
  follower := h.follower
  silent n o ho := h.record n o (plain_of_silent ho)
  stored := h.stored

section
variable [StorageExt S] [Protobuf] {env : Env} {G K : Node S → Prop} {E : Panic → Node S → Prop}

theorem processReady_steady (h : Steady G) (takes : Takes (fun _ => G) (fun _ => G) K E)
    {l : Option LeaderState} {f : Option FollowerState} (hr : OneRole l f)
    (round : Option Round) :
    Triple (At l f G) (processReady env round) (Sys.Leaves G fun _ => K) E := by
  -- every panic but the two of the entries is covered by this
  have hE : Fails E G := takes.fails []
  cases round with
  | none => exact Triple.pure fun _ hn => hn.rest
  | some round =>
    have hinit : ∀ n, G n → G (n.add (.initializeBlock n.blockQueue.commitQueue)) :=
      fun n hn => h.record n _ trivial hn
    refine (processReady_at (K := K) (M := fun n => ∃ l f, OneRole l f ∧ At l f G n) (P := G)
      (fun n hn => h.record n _ trivial hn) h.tame hE
      (fun _ _ _ => hinit) ?_ ?_).conseq (fun _ hn => hn) ?_ (fun _ _ hn => hn)
    · intro l' f' hrole
      have hr' := (hrole.handover hr).1
      refine (deliver_resumes_at takes (fun _ => hinit) _).conseq (fun _ hn => hn)
        (fun status n hn => ?_) (fun _ _ hn => hn)
      cases status with
      | Shutdown => exact hn
      | Continue =>
        obtain ⟨l₂, hres, hn⟩ := hn
        exact ⟨l₂, f', (hres.handover hr').1, hn⟩
    · refine Triple.intro fun l => Triple.intro fun f n h' => ?_
      obtain ⟨hr, hn⟩ := h'
      refine (commitNext_at (H := fun _ => G) hr h.tame (fun _ => hE) ?_).conseq
        (fun _ hn => hn) ?_ (fun _ _ hn => hn) n hn
      · exact fun b n _ _ hn => h.record n _ trivial hn
      · intro _ n hn
        refine h.record n _ trivial ?_
        rcases hn with ⟨hn, -⟩ | ⟨b, l', f', -, hn⟩
        · exact hn.rest
        · exact hn.rest
    · intro status n hn
      cases status with
      | Continue => exact hn
      | Shutdown => exact hn

variable [Formats]

/-- **Step**: what is steady and survives the entries survives every input. -/
theorem handle_steady (h : Steady G) (takes : Takes (fun _ => G) (fun _ => G) K E)
    (hempty : ∀ n, G n → E .noBlocksInQueue n) (i : Input) :
    Triple (fun n => Good n ∧ G n) (handle env i) (Sys.Leaves G fun _ => K) E := by
  have hE : Fails E G := takes.fails []
  have hdone : ∀ {m : NodeM S Unit} {P : Node S → Prop}, Triple P m (fun _ => G) E →
      Triple P (do m; pure ReadyStatus.Continue) (Sys.Leaves G fun _ => K) E :=
    fun hm => Triple.bind hm fun _ => Triple.pure fun _ hn => hn
  intro n ⟨⟨l, f, hr, hl, hf, _⟩, hn⟩
  have hat : At l f G n := ⟨hl, hf, hn⟩
  cases i with
  | blockNew block =>
    refine hdone ((onBlockNew_at h.tame hE fun n hn => ?_).conseq (fun _ hn => hn)
      (fun _ n ⟨_, _, hn⟩ => hn.rest) (fun _ _ hn => hn)) n hat
    exact h.queue _ _ (h.record n _ trivial hn)
  | blockValid b =>
    refine hdone ((onBlockValid_at h.tame hE fun n hn => ?_).conseq (fun _ hn => hn)
      (fun _ n ⟨_, _, hn⟩ => hn.rest) (fun _ _ hn => hn)) n hat
    exact h.queue _ _ (h.record n _ trivial hn)
  | blockCommit b =>
    refine hdone ((onBlockCommit_at (X := G) (Y := G) (Z := G) hr h.tame hE hE
      (fun n hn => h.record n _ trivial hn) (fun n i q _ _ hn => h.confirmed n i q hn)
      (fun n _ _ hn => hempty n hn) (fun n _ hn => h.record n _ trivial hn)).conseq
      (fun _ hn => hn) ?_ (fun _ _ hn => hn)) n hat
    intro _ n hn
    rcases hn with ⟨-, hn⟩ | ⟨-, since, hn⟩ | ⟨-, hn⟩ | ⟨-, -, hn⟩
    · exact hn.rest
    · exact hn.rest
    · exact hn.rest
    · exact hn.rest
  | peerMessage message =>
    exact hdone ((onPeerMessage_at h.tame hE fun n hn => h.record n _ trivial hn).conseq
      (fun _ hn => hn) (fun _ n hn => hn.rest) (fun _ _ hn => hn)) n hat
  | tick =>
    exact hdone ((tick_at h.tame hE fun n hn => h.record n _ trivial hn).conseq
      (fun _ hn => hn) (fun _ n ⟨_, _, hn⟩ => hn.rest) (fun _ _ hn => hn)) n hat
  | processReady round => exact processReady_steady h takes hr round n hat

/-- What holds of a node that has stopped: `K` after a shutdown, `E` after a
panic. -/
def Halted (K : Node S → Prop) (E : Panic → Node S → Prop) : Status → Node S → Prop
  | .panicked p => E p
  | _ => K

/-- The same, along with the main invariant. -/
theorem sat_step_steady (h : Steady G) (takes : Takes (fun _ => G) (fun _ => G) K E)
    (hempty : ∀ n, G n → E .noBlocksInQueue n) {s : Sys S}
    (hs : s.Sat (fun n => Good n ∧ G n) (fun st n => Stopped st n ∧ Halted K E st n))
    (i : Input) :
    (s.step env i).Sat (fun n => Good n ∧ G n) (fun st n => Stopped st n ∧ Halted K E st n) := by
  refine Sys.sat_step (P := fun n => Good n ∧ G n) ?_ (fun _ hn => hn) hs
  refine ((handle_good i).and (handle_steady h takes hempty i)).conseq
    (fun _ hn => ⟨hn.1, hn⟩) ?_ (fun _ _ hn => hn)
  intro status n hn
  cases status with
  | Continue => exact hn
  | Shutdown => exact hn

/-- **Run**: it holds at the end of every run. -/
theorem run_steady (h : Steady G) (takes : Takes (fun _ => G) (fun _ => G) K E)
    (hempty : ∀ n, G n → E .noBlocksInQueue n) {node : Node S} (hnew : Sys.IsNew node)
    (hG : G node) (inputs : List Input) :
    ((Sys.start node).run env inputs).Sat G (Halted K E) := by
  have hrun : ((Sys.start node).run env inputs).Sat (fun n => Good n ∧ G n)
      (fun st n => Stopped st n ∧ Halted K E st n) := by
    refine run_invariant (I := Sys.Sat _ _) (fun _ i hs => sat_step_steady h takes hempty hs i) ?_
      inputs
    obtain ⟨_, _, _, _, _, hnew⟩ := hnew
    exact ⟨new_good hnew, hG⟩
  exact hrun.imp (fun _ hn => hn.2) fun _ _ hn => hn.2

end

/-! ## Invariants that nothing can break -/

structure Closed [StorageExt S] (G : Node S → Prop) : Prop extends Steady G where
  entry : ∀ n e, G n → G (n.add (.entry e))
  peers : ∀ n m, G n → G { n with raftIdToPeerId := m }

section
variable [StorageExt S] [Protobuf] {env : Env} {G : Node S → Prop}

theorem Closed.takes (h : Closed G) :
    Takes (fun _ => G) (fun _ => G) G (fun _ => G) where
  tame _ := h.tame
  fails _ := fun _ _ _ hn => hn
  skip e _ n _ _ hn := h.entry n e hn
  block e _ n _ hn := h.queue _ _ (h.entry n e hn)
  change e es n change n' _ _ hp hn := by
    have hn' := h.entry n e hn
    cases hp with
    | add => exact h.peers _ _ hn'
    | remove => exact h.peers _ _ hn'
    | learner => exact hn'
  shutdown e _ n _ _ _ _ hn := h.entry n e hn
  unknown e _ n _ _ _ _ hn := h.entry n e hn
  malformed e _ n _ _ _ hn := h.entry n e hn

/-- From a state of a run on, in all that follows. -/
theorem run_closed_from [Formats] (h : Closed G) {s : Sys S} (hs : s.Sat Good Stopped)
    (hG : G s.node) (inputs : List Input) : G (s.run env inputs).node := by
  have hrun : (s.run env inputs).Sat (fun n => Good n ∧ G n)
      (fun st n => Stopped st n ∧ Halted G (fun _ => G) st n) := by
    refine run_invariant (I := Sys.Sat _ _)
      (fun _ i hs => sat_step_steady h.toSteady h.takes (fun _ hn => hn) hs i) ?_ inputs
    obtain ⟨n, status⟩ := s
    cases status with
    | running => exact ⟨hs, hG⟩
    | shutdown => exact ⟨hs, hG⟩
    | panicked p => exact ⟨hs, hG⟩
  generalize s.run env inputs = s' at hrun ⊢
  obtain ⟨n, status⟩ := s'
  cases status with
  | running => exact hrun.2
  | shutdown => exact hrun.2
  | panicked p => exact hrun.2

theorem run_closed [Formats] (h : Closed G) {node : Node S} (hnew : Sys.IsNew node) (hG : G node)
    (inputs : List Input) : G ((Sys.start node).run env inputs).node := by
  obtain ⟨_, _, _, _, _, hnode⟩ := hnew
  exact run_closed_from h (s := Sys.start node) (new_good hnode) hG inputs

omit [Protobuf] in
/-- What has happened stays in the trace. -/
theorem prefix_closed (t : List Obs) : Closed (fun n : Node S => t <+: n.trace) where
  leader _ _ h := h
  follower _ _ h := h
  queue _ _ h := h
  record _ _ _ h := h.trans (List.prefix_append ..)
  stored _ _ _ h := h.trans (List.prefix_append ..)
  confirmed _ _ _ h := (h.trans (List.prefix_append ..)).trans (List.prefix_append ..)
  entry _ _ h := h.trans (List.prefix_append ..)
  peers _ _ h := h

end

end Node

end SawtoothRaft
