import SawtoothRaft.Node.Invariant
import SawtoothRaft.Node.Stages

/-!
# The block builder of the validator

The validator builds one block at a time. Its builder is open from
`initialize_block` until the block is finalised or cancelled, and most calls
are allowed in one of the two states only. The node does not ask; it relies on
`leader_state`, which is `Building` exactly while the builder is open
(`builder_open_iff_building`).
-/

namespace SawtoothRaft

open Lib

/-! ## The builder -/

/-- The builder after one more observation, the last one of `t`. A block that
is not ready stays where it is. -/
def builderStep (env : Env) (t : List Obs) (isOpen : Bool) : Obs → Bool
  | .initializeBlock _ => true
  | .cancelBlock => false
  | .finalizeBlock => isOpen && !(env.finalizeBlock t).isOk
  | _ => isOpen

/-- The trace so far, and whether the builder is open. -/
def builderRun (env : Env) (t : List Obs) : List Obs × Bool :=
  t.foldl (fun s o => (s.1 ++ [o], builderStep env (s.1 ++ [o]) s.2 o)) ([], false)

/-- Whether the builder is open at the end of the trace. It is closed at the
beginning. -/
def builderOpen (env : Env) (t : List Obs) : Bool := (builderRun env t).2

/-- The calls that the builder allows. -/
def Allows (isOpen : Bool) : Obs → Prop
  | .initializeBlock _ => isOpen = false
  | .summarizeBlock | .finalizeBlock | .cancelBlock => isOpen = true
  | _ => True

/-- Every call of the trace is allowed when it is made. -/
def AllAllowed (env : Env) (t : List Obs) : Prop :=
  ∀ u o, u ++ [o] <+: t → Allows (builderOpen env u) o

theorem builderRun_fst (env : Env) (t : List Obs) : (builderRun env t).1 = t := by
  induction t using List.reverseRecOn with
  | nil => rfl
  | append_singleton t o ih =>
    unfold builderRun at ih ⊢
    rw [List.foldl_append, List.foldl_cons, List.foldl_nil, ih]

@[simp] theorem builderOpen_snoc (env : Env) (t : List Obs) (o : Obs) :
    builderOpen env (t ++ [o]) = builderStep env (t ++ [o]) (builderOpen env t) o := by
  have hfst := builderRun_fst env t
  unfold builderOpen
  unfold builderRun at hfst ⊢
  rw [List.foldl_append, List.foldl_cons, List.foldl_nil, hfst]

theorem AllAllowed.snoc {env : Env} {t : List Obs} (h : AllAllowed env t) {o : Obs}
    (ho : Allows (builderOpen env t) o) : AllAllowed env (t ++ [o]) := by
  intro u o' hu
  rcases List.prefix_concat_iff.mp hu with heq | hu
  · obtain ⟨rfl, ho'⟩ := List.append_inj' heq rfl
    obtain rfl : o' = o := by injection ho'
    exact ho
  · exact h u o' hu

namespace Node

/-- Quiet observations leave the builder alone. -/
theorem quiet_builder {o : Obs} (ho : Quiet o) (env : Env) (t : List Obs) (isOpen : Bool) :
    Allows isOpen o ∧ builderStep env t isOpen o = isOpen := by
  cases o with
  | ready | initializeBlock | summarizeBlock | finalizeBlock | cancelBlock | propose
  | proposeConfChange => exact ho.elim
  | _ => exact ⟨trivial, rfl⟩

/-- The stage says whether the builder is open. -/
def OpenIn (isOpen : Bool) : Option LeaderState → Prop
  | some (.building _) => isOpen = true
  | _ => isOpen = false

/-- **The stages keep to the rules of the builder**, by induction on how the
stage was reached. -/
theorem Stage.builder {env : Env} {A : Terms} {t : List Obs} {l : Option LeaderState}
    (h : Stage env A t l) : AllAllowed env t ∧ OpenIn (builderOpen env t) l := by
  induction h with
  | opened ops =>
    induction ops using List.reverseRecOn with
    | nil =>
      refine ⟨fun u o hu => ?_, rfl⟩
      have := List.prefix_nil.mp hu
      simp at this
    | append_singleton ops op ih =>
      rw [List.map_append, List.map_singleton]
      refine ⟨ih.1.snoc trivial, ?_⟩
      rw [builderOpen_snoc]
      exact ih.2
  | quiet o _ ho ih =>
    obtain ⟨hallows, hsame⟩ := quiet_builder ho env (_ ++ [o]) (builderOpen env _)
    refine ⟨ih.1.snoc hallows, ?_⟩
    rw [builderOpen_snoc, hsame]
    exact ih.2
  | ready round _ _ _ ih =>
    refine ⟨ih.1.snoc trivial, ?_⟩
    rw [builderOpen_snoc]
    exact ih.2
  | elected _ q since ih =>
    exact ⟨ih.1.snoc ih.2, builderOpen_snoc ..⟩
  | tookOver _ b ih => exact ih
  | summarized _ ih =>
    refine ⟨ih.1.snoc ih.2, ?_⟩
    rw [builderOpen_snoc]
    exact ih.2
  | @finalized t since _ _ ih =>
    refine ⟨ih.1.snoc ih.2, ?_⟩
    have hopen : builderOpen env t = true := ih.2
    rw [builderOpen_snoc, hopen]
    cases hanswer : env.finalizeBlock (t ++ [.finalizeBlock]) with
    | ok b =>
      show (true && !(env.finalizeBlock (t ++ [.finalizeBlock])).isOk) = false
      rw [hanswer]
      rfl
    | error e =>
      show (true && !(env.finalizeBlock (t ++ [.finalizeBlock])).isOk) = true
      rw [hanswer]
      rfl
  | received _ ih => exact ih
  | @proposed t b l _ hl _ ih =>
    refine ⟨ih.1.snoc trivial, ?_⟩
    rw [builderOpen_snoc]
    rcases hl with rfl | rfl
    · exact ih.2
    · exact ih.2
  | committed _ ih => exact ih
  | resumed _ _ q since ih => exact ⟨ih.1.snoc ih.2, builderOpen_snoc ..⟩
  | proposedChange _ _ _ change ih =>
    refine ⟨ih.1.snoc trivial, ?_⟩
    rw [builderOpen_snoc]
    exact ih.2
  | reconfigured _ _ q since ih => exact ⟨ih.1.snoc ih.2, builderOpen_snoc ..⟩
  | cancelled _ _ ih => exact ⟨ih.1.snoc ih.2, builderOpen_snoc ..⟩
  | @deposed t l _ hl _ ih =>
    refine ⟨ih.1, ?_⟩
    have hopen := ih.2
    unfold OpenIn at hopen ⊢
    split at hopen
    next => exact absurd rfl (hl _)
    next => exact hopen

theorem openIn_iff {isOpen : Bool} {l : Option LeaderState} (h : OpenIn isOpen l) :
    isOpen = true ↔ ∃ since, l = some (.building since) := by
  unfold OpenIn at h
  split at h
  next since => exact ⟨fun _ => ⟨since, rfl⟩, fun _ => h⟩
  next hne =>
    refine ⟨fun ho => ?_, fun hl => ?_⟩
    · rw [h] at ho
      cases ho
    · obtain ⟨since, hl⟩ := hl
      exact absurd hl (hne since)

section
variable {S : Type} [StorageExt S] [Protobuf] [Formats]

/-- **The builder is open exactly while the node is `Building`**, in every run
from a new node; and no call is made that the builder does not allow, not even
in a handler that panics. -/
theorem builder_open_iff_building (node : Node S) (h : Sys.IsNew node) (env : Env)
    (inputs : List Input) :
    AllAllowed env ((Sys.start node).run env inputs).node.trace ∧
      ((∀ p, ((Sys.start node).run env inputs).status ≠ .panicked p) →
        (builderOpen env ((Sys.start node).run env inputs).node.trace = true ↔
          ∃ since, ((Sys.start node).run env inputs).node.leaderState
            = some (.building since))) := by
  have hrun : ((Sys.start node).run env inputs).Sat _ _ := run_steered h inputs
  generalize (Sys.start node).run env inputs = s at hrun
  obtain ⟨n, status⟩ := s
  have hsteered : Steered env Terms.any (fun _ => True) n →
      AllAllowed env n.trace ∧ ((∀ p, status ≠ .panicked p) →
        (builderOpen env n.trace = true ↔ ∃ since, n.leaderState = some (.building since))) := by
    intro hn
    obtain ⟨l, hn⟩ := hn
    refine ⟨hn.stage.builder.1, fun _ => ?_⟩
    rw [hn.leader]
    exact openIn_iff hn.stage.builder.2
  cases status with
  | running => exact hsteered hrun
  | shutdown => exact hsteered (hrun.2 rfl)
  | panicked p =>
    obtain ⟨⟨l, hstage⟩, -⟩ := hrun
    exact ⟨hstage.builder.1, fun hp => absurd rfl (hp p)⟩

end

end Node

namespace Node

open scoped Proto3 PlainFormats

/-- The node is elected. -/
def elected : List Input := [.processReady (some { isLeader := true })]

/-- An elected node builds, and the builder is open. -/
theorem builder_open_iff_building_elected : ∃ node : Node FsStorage, Sys.IsNew node ∧
    builderOpen (Env.obliging [8] fun _ _ => none)
      ((Sys.start node).run (Env.obliging [8] fun _ _ => none) elected).node.trace = true := by
  obtain ⟨n, hn⟩ : ∃ n, twoPeers = .ok n := ⟨_, rfl⟩
  have hstatus : ((Sys.start n).run (Env.obliging [8] fun _ _ => none) elected).status = .running ∧
      ((Sys.start n).run (Env.obliging [8] fun _ _ => none) elected).node.leaderState
        = some (.building 1) := by
    obtain rfl := Except.ok.inj (hn.symm.trans (rfl : twoPeers = .ok _))
    decide +kernel
  refine ⟨n, twoPeers_isNew hn, ((builder_open_iff_building n (twoPeers_isNew hn) _ _).2 ?_).mpr
    ⟨1, hstatus.2⟩⟩
  rw [hstatus.1]
  simp

end Node

end SawtoothRaft
