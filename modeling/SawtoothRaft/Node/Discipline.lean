import Mathlib.Data.List.Infix
import SawtoothRaft.Lib.Since
import SawtoothRaft.Node.Stages

/-!
# What a leader may propose, and when

A leader proposes the block it has finalised, once; and before it proposes the
next one, the block has been confirmed, or the configuration change has been
carried out that it proposed instead. This holds for as long as the node takes
itself for the leader, which is from one `Ready` to the next: `AsLeader` says
that no `Ready` in between had another role.

`Stage.disciplined` is the induction on the stages. What the stage adds to the
discipline of the trace so far is `Standing`: which proposals of this
leadership are still open, and which block is there to be proposed next.
-/

namespace SawtoothRaft

open Lib

namespace Node

/-! ## The discipline -/

/-- The observation does not end a leadership. -/
def AsLeader : Obs → Prop
  | .ready round => round.isLeader = true
  | _ => True

/-- The confirmation of `b` is handled. -/
def ConfirmedIn (b : BlockId) (v : List Obs) : Prop :=
  ∃ v₁ i v₂, v = v₁ ++ .blockCommit b :: .setApplied i :: v₂

/-- A configuration entry is delivered, and carried out. -/
def ChangedIn (v : List Obs) : Prop := ∃ e, .entry e ∈ v ∧ IsChange e

/-- `finalize_block` has returned `b` to a leader, and no leadership has ended
since. -/
def Finalized (env : Env) (b : BlockId) (t : List Obs) : Prop :=
  ∃ u v, t = u ++ .finalizeBlock :: v ∧ env.finalizeBlock (u ++ [.finalizeBlock]) = .ok b ∧
    leading u = true ∧ ∀ o ∈ v, AsLeader o

def proposalOf : Obs → Option BlockId
  | .propose b => some b
  | _ => none

/-- The blocks proposed, in order. -/
def proposals (t : List Obs) : List BlockId := t.filterMap proposalOf

/-- The block returned by a call to `finalize_block` at the end of the trace. -/
def finalizedAt (env : Env) (t : List Obs) : Option BlockId :=
  if t.getLast? = some .finalizeBlock then (env.finalizeBlock t).toOption else none

/-- The blocks finalised, in order. -/
def finalizedBlocks (env : Env) (t : List Obs) : List BlockId := t.inits.filterMap (finalizedAt env)

/-- The block `b` may be proposed now. -/
structure MayPropose (env : Env) (A : Terms) (b : BlockId) (t : List Obs) : Prop where
  may : A.may t
  valid : .blockValid b ∈ t
  finalized : Finalized env b t
  confirmed : ∀ b', Since AsLeader (.propose b') (ConfirmedIn b') t
  changed : ∀ change, Since AsLeader (.proposeConfChange change) ChangedIn t

structure Disciplined (env : Env) (A : Terms) (t : List Obs) : Prop where
  blocks : ∀ u b, u ++ [.propose b] <+: t → MayPropose env A b u
  changes : ∀ u change, u ++ [.proposeConfChange change] <+: t → A.may u
  shown : ∀ u round, u ++ [.ready round] <+: t → A.shown u round
  once : (proposals t).Sublist (finalizedBlocks env t)

/-! ## One more observation -/

section
variable {env : Env} {A : Terms} {t : List Obs} {o : Obs}

theorem proposals_snoc (t : List Obs) (o : Obs) :
    proposals (t ++ [o]) = proposals t ++ (proposalOf o).toList := by
  unfold proposals
  rw [List.filterMap_append, List.filterMap_cons, List.filterMap_nil]
  cases proposalOf o with
  | none => rfl
  | some b => rfl

theorem finalizedBlocks_snoc (env : Env) (t : List Obs) (o : Obs) :
    finalizedBlocks env (t ++ [o])
      = finalizedBlocks env t ++ (finalizedAt env (t ++ [o])).toList := by
  unfold finalizedBlocks
  have hlast : [o].inits.tail.map (t ++ ·) = [t ++ [o]] := rfl
  rw [List.inits_append, List.filterMap_append, hlast, List.filterMap_cons, List.filterMap_nil]
  cases finalizedAt env (t ++ [o]) with
  | none => rfl
  | some b => rfl

/-- Observations that are neither proposals nor calls to `finalize_block`. -/
def Neutral (o : Obs) : Prop :=
  (∀ b, o ≠ .propose b) ∧ (∀ change, o ≠ .proposeConfChange change) ∧ o ≠ .finalizeBlock

theorem Quiet.neutral (ho : Quiet o) : Neutral o := by
  refine ⟨fun b h => ?_, fun change h => ?_, fun h => ?_⟩
  all_goals
    subst h
    exact ho

/-- Nothing is proposed or finalised. -/
theorem lists_snoc (hpropose : ∀ b, o ≠ .propose b) (hfinalize : o ≠ .finalizeBlock) (env : Env)
    (t : List Obs) : proposals (t ++ [o]) = proposals t ∧
      finalizedBlocks env (t ++ [o]) = finalizedBlocks env t := by
  have hp : proposalOf o = none := by
    cases o with
    | propose b => exact absurd rfl (hpropose b)
    | _ => rfl
  have hf : finalizedAt env (t ++ [o]) = none := by
    unfold finalizedAt
    rw [List.getLast?_concat, if_neg fun h => hfinalize (Option.some.inj h)]
  rw [proposals_snoc, finalizedBlocks_snoc, hp, hf]
  exact ⟨List.append_nil _, List.append_nil _⟩

theorem Disciplined.snoc (h : Disciplined env A t)
    (hblocks : ∀ b, o = .propose b → MayPropose env A b t)
    (hchanges : ∀ change, o = .proposeConfChange change → A.may t)
    (hshown : ∀ round, o = .ready round → A.shown t round)
    (honce : (proposals (t ++ [o])).Sublist (finalizedBlocks env (t ++ [o]))) :
    Disciplined env A (t ++ [o]) := by
  have hlast : ∀ {u o'}, u ++ [o'] <+: t ++ [o] → (u = t ∧ o = o') ∨ u ++ [o'] <+: t := by
    intro u o' hu
    rcases List.prefix_concat_iff.mp hu with heq | hu
    · obtain ⟨rfl, ho⟩ := List.append_inj' heq rfl
      injection ho with ho
      exact Or.inl ⟨rfl, ho.symm⟩
    · exact Or.inr hu
  refine ⟨fun u b hu => ?_, fun u change hu => ?_, fun u round hu => ?_, honce⟩
  · rcases hlast hu with ⟨rfl, ho⟩ | hu
    · exact hblocks b ho
    · exact h.blocks u b hu
  · rcases hlast hu with ⟨rfl, ho⟩ | hu
    · exact hchanges change ho
    · exact h.changes u change hu
  · rcases hlast hu with ⟨rfl, ho⟩ | hu
    · exact hshown round ho
    · exact h.shown u round hu

theorem Disciplined.neutral (h : Disciplined env A t) (ho : Neutral o)
    (hshown : ∀ round, o = .ready round → A.shown t round) : Disciplined env A (t ++ [o]) := by
  refine h.snoc (fun b hb => absurd hb (ho.1 b)) (fun c hc => absurd hc (ho.2.1 c)) hshown ?_
  obtain ⟨hp, hf⟩ := lists_snoc ho.1 ho.2.2 env t
  rw [hp, hf]
  exact h.once

/-! ## What a stage adds -/

/-- Every block of this leadership is confirmed, but for the pending one. -/
def AllConfirmed (pending : Option BlockId) (t : List Obs) : Prop :=
  ∀ b, pending ≠ some b → Since AsLeader (.propose b) (ConfirmedIn b) t

def AllChanged (t : List Obs) : Prop :=
  ∀ change, Since AsLeader (.proposeConfChange change) ChangedIn t

/-- A block is there to be proposed: no other has been taken from the blocks
finalised after it. -/
structure Next (env : Env) (b : BlockId) (t : List Obs) : Prop where
  finalized : leading t = true → Finalized env b t
  fresh : (proposals t ++ [b]).Sublist (finalizedBlocks env t)

def Standing (env : Env) (t : List Obs) : Option LeaderState → Prop
  | none => (∀ b, Since AsLeader (.propose b) (fun _ => False) t) ∧
      ∀ change, Since AsLeader (.proposeConfChange change) (fun _ => False) t
  | some (.building _) => AllConfirmed none t ∧ AllChanged t
  | some (.publishing b) | some (.validating b) =>
    (AllConfirmed none t ∧ AllChanged t) ∧ Next env b t
  | some (.proposing b) | some (.committing b) => AllConfirmed (some b) t ∧ AllChanged t
  | some .changingConfig => AllConfirmed none t

theorem ConfirmedIn.snoc {b : BlockId} {v : List Obs} (h : ConfirmedIn b v) (o : Obs) :
    ConfirmedIn b (v ++ [o]) := by
  obtain ⟨v₁, i, v₂, rfl⟩ := h
  exact ⟨v₁, i, v₂ ++ [o], by simp⟩

theorem ChangedIn.snoc {v : List Obs} (h : ChangedIn v) (o : Obs) : ChangedIn (v ++ [o]) := by
  obtain ⟨e, he, hc⟩ := h
  exact ⟨e, List.mem_append_left _ he, hc⟩

theorem AllConfirmed.snoc {pending : Option BlockId} (h : AllConfirmed pending t)
    (ho : ∀ b, o = .propose b → pending = some b) : AllConfirmed pending (t ++ [o]) :=
  fun b hb => (h b hb).snoc (fun h' => hb (ho b h')) fun _ hv => hv.snoc o

theorem AllChanged.snoc (h : AllChanged t) (ho : ∀ change, o ≠ .proposeConfChange change) :
    AllChanged (t ++ [o]) :=
  fun change => (h change).snoc (ho change) fun _ hv => hv.snoc o

theorem Finalized.snoc {b : BlockId} (h : Finalized env b t) (ho : AsLeader o) :
    Finalized env b (t ++ [o]) := by
  obtain ⟨u, v, rfl, hb, hu, hv⟩ := h
  refine ⟨u, v ++ [o], by simp, hb, hu, fun o' ho' => ?_⟩
  rcases List.mem_append.mp ho' with ho' | ho'
  · exact hv o' ho'
  · rw [List.mem_singleton.mp ho']
    exact ho

/-- Neutral observations leave the standing as it is, and so does a `Ready`:
if it ends the leadership, there is nothing left to be open. -/
theorem Standing.neutral {l : Option LeaderState} (h : Standing env t l) (ho : Neutral o)
    (hl : Quiet o ∨ Led l t) (hq : Quiet o ∨ ∃ round, o = .ready round) :
    Standing env (t ++ [o]) l := by
  have hc : ∀ {pending}, AllConfirmed pending t → AllConfirmed pending (t ++ [o]) :=
    fun h => h.snoc fun b hb => absurd hb (ho.1 b)
  have hch : AllChanged t → AllChanged (t ++ [o]) := fun h => h.snoc ho.2.1
  have hnext : ∀ b, (Quiet o ∨ leading t = true) → Next env b t → Next env b (t ++ [o]) := by
    intro b hlead hn
    obtain ⟨hp, hf⟩ := lists_snoc ho.1 ho.2.2 env t
    refine ⟨fun hleads => ?_, by rw [hp, hf]; exact hn.fresh⟩
    rw [leading_snoc] at hleads
    rcases hq with hq | ⟨round, rfl⟩
    · refine (hn.finalized ?_).snoc ?_
      · cases o with
        | ready => exact hq.elim
        | _ => exact hleads
      · cases o with
        | ready => exact hq.elim
        | _ => trivial
    · exact (hn.finalized (hlead.resolve_left id)).snoc hleads
  cases l with
  | none =>
    exact ⟨fun b => (h.1 b).snoc (ho.1 b) fun _ hv => hv,
      fun change => (h.2 change).snoc (ho.2.1 change) fun _ hv => hv⟩
  | some st =>
    have hlead : Quiet o ∨ leading t = true := hl.imp id fun h => h rfl
    cases st with
    | building since => exact ⟨hc h.1, hch h.2⟩
    | publishing b => exact ⟨⟨hc h.1.1, hch h.1.2⟩, hnext b hlead h.2⟩
    | validating b => exact ⟨⟨hc h.1.1, hch h.1.2⟩, hnext b hlead h.2⟩
    | proposing b => exact ⟨hc h.1, hch h.2⟩
    | committing b => exact ⟨hc h.1, hch h.2⟩
    | changingConfig => exact hc h

/-- Building may begin when nothing is open. -/
theorem building_standing (hc : AllConfirmed none t) (hch : AllChanged t)
    (q : List (BlockId × Nat)) (since : Nat) :
    Standing env (t ++ [.initializeBlock q]) (some (.building since)) :=
  ⟨hc.snoc (by simp), hch.snoc (by simp)⟩

/-- The confirmation of the pending block leaves none. -/
theorem AllConfirmed.confirm {b : BlockId} (h : AllConfirmed (some b) t) (hb : Confirmed b t) :
    AllConfirmed none t := by
  intro b' _
  by_cases hbb : b' = b
  · subst hbb
    obtain ⟨u, i, rest, rfl, hrest⟩ := hb
    refine since_of_suffix (fun hmem => ?_) fun v => ⟨v, i, rest, rfl⟩
    simp only [List.mem_cons, reduceCtorEq, false_or] at hmem
    rcases hrest _ hmem with ⟨op, h⟩ | ⟨b, keys, h⟩
    · cases h
    · cases h
  · exact h b' fun h' => hbb (Option.some.inj h').symm

theorem JustChanged.allChanged (h : JustChanged t) : AllChanged t := by
  obtain ⟨u, e, change, rfl, he⟩ := h
  intro c
  exact since_of_suffix (by simp) fun v => ⟨e, by simp, he⟩

/-- A leadership goes on as long as no `Ready` ends it. -/
theorem leading_append {u v : List Obs} (hu : leading u = true) (hv : ∀ o ∈ v, AsLeader o) :
    leading (u ++ v) = true := by
  induction v generalizing u with
  | nil => rwa [List.append_nil]
  | cons o v ih =>
    obtain ⟨ho, hv⟩ := List.forall_mem_cons.mp hv
    rw [List.append_cons]
    refine ih ?_ hv
    rw [leading_snoc]
    cases o with
    | ready round => exact ho
    | _ => exact hu

/-- Once a leadership has ended, nothing is open: whatever was proposed was
proposed by a leader. -/
theorem Disciplined.ended (hA : ∀ t, A.may t → leading t = true) (h : Disciplined env A t)
    (hr : leading t = false) : Standing env t none := by
  have hopen : ∀ u o v, t = u ++ o :: v → leading u = true → AsLeader o →
      (∀ o ∈ v, AsLeader o) → False := by
    intro u o v ht hu ho hv
    have : leading t = true := by
      rw [ht]
      exact leading_append hu (List.forall_mem_cons.mpr ⟨ho, hv⟩)
    rw [hr] at this
    cases this
  have hpre : ∀ {u o v}, t = u ++ o :: v → u ++ [o] <+: t := by
    intro u o v ht
    exact ⟨v, by rw [ht]; simp⟩
  refine ⟨fun b u v ht hv => ?_, fun change u v ht hv => ?_⟩
  · exact hopen u _ v ht (hA u (h.blocks u b (hpre ht)).may) trivial hv
  · exact hopen u _ v ht (hA u (h.changes u change (hpre ht))) trivial hv

theorem Standing.none_imp (h : Standing env t none) (pending : Option BlockId) :
    AllConfirmed pending t ∧ AllChanged t :=
  ⟨fun b _ => (h.1 b).imp fun _ hf => hf.elim, fun change => (h.2 change).imp fun _ hf => hf.elim⟩

/-- The stage in which a block waits to be proposed. -/
theorem Standing.next {b : BlockId} {l : Option LeaderState} (h : Standing env t l)
    (hl : l = some (.publishing b) ∨ l = some (.validating b)) :
    (AllConfirmed none t ∧ AllChanged t) ∧ Next env b t := by
  rcases hl with rfl | rfl
  · exact h
  · exact h

/-- **A leader keeps to the discipline**, by induction on how the stage was
reached. -/
theorem Stage.disciplined (hA : ∀ t, A.may t → leading t = true) {l : Option LeaderState}
    (h : Stage env A t l) : Disciplined env A t ∧ Standing env t l := by
  induction h with
  | opened ops =>
    have hfiles : ∀ o ∈ ops.map Obs.file, ∃ op, o = .file op := by
      intro o ho
      obtain ⟨op, -, rfl⟩ := List.mem_map.mp ho
      exact ⟨op, rfl⟩
    have hnot : ∀ {u o v}, ops.map Obs.file = u ++ o :: v → ∃ op, o = .file op :=
      fun h => hfiles _ (h ▸ by simp)
    have hpre : ∀ {u o}, u ++ [o] <+: ops.map Obs.file → ∃ op, o = .file op :=
      fun h => hfiles _ (h.subset (by simp))
    refine ⟨⟨fun u b hu => ?_, fun u c hu => ?_, fun u r hu => ?_, ?_⟩,
      fun b u v hu => ?_, fun c u v hu => ?_⟩
    · obtain ⟨op, h⟩ := hpre hu
      cases h
    · obtain ⟨op, h⟩ := hpre hu
      cases h
    · obtain ⟨op, h⟩ := hpre hu
      cases h
    · have hnone : proposals (ops.map Obs.file) = [] := by
        refine List.filterMap_eq_nil_iff.mpr fun o ho => ?_
        obtain ⟨op, rfl⟩ := hfiles o ho
        rfl
      rw [hnone]
      exact List.nil_sublist _
    · obtain ⟨op, h⟩ := hnot hu
      cases h
    · obtain ⟨op, h⟩ := hnot hu
      cases h
  | quiet o _ ho ih =>
    refine ⟨ih.1.neutral ho.neutral fun round h => absurd h (ho.ne_ready round), ?_⟩
    exact ih.2.neutral ho.neutral (Or.inl ho) (Or.inl ho)
  | ready round _ hl hs ih =>
    have hn : Neutral (.ready round) := ⟨by simp, by simp, by simp⟩
    refine ⟨ih.1.neutral hn fun r h => ?_, ih.2.neutral hn (Or.inr hl) (Or.inr ⟨round, rfl⟩)⟩
    cases h
    exact hs
  | elected _ q since ih =>
    obtain ⟨hc, hch⟩ := ih.2.none_imp none
    exact ⟨ih.1.neutral ⟨by simp, by simp, by simp⟩ (by simp), building_standing hc hch q since⟩
  | tookOver _ b ih => exact ⟨ih.1, ih.2.none_imp (some b)⟩
  | summarized _ ih =>
    exact ⟨ih.1.neutral ⟨by simp, by simp, by simp⟩ (by simp), ih.2.1.snoc (by simp),
      ih.2.2.snoc (by simp)⟩
  | @finalized t since _ hr ih =>
    have hp : proposals (t ++ [.finalizeBlock]) = proposals t := by
      rw [proposals_snoc]
      exact List.append_nil _
    have hf : finalizedBlocks env (t ++ [.finalizeBlock])
        = finalizedBlocks env t ++ (env.finalizeBlock (t ++ [.finalizeBlock])).toOption.toList := by
      rw [finalizedBlocks_snoc, finalizedAt, List.getLast?_concat, if_pos rfl]
    have hclear : AllConfirmed none (t ++ [.finalizeBlock]) ∧ AllChanged (t ++ [.finalizeBlock]) :=
      ⟨ih.2.1.snoc (by simp), ih.2.2.snoc (by simp)⟩
    refine ⟨ih.1.snoc (by simp) (by simp) (by simp) ?_, ?_⟩
    · rw [hp, hf]
      exact ih.1.once.trans (List.sublist_append_left ..)
    · cases hanswer : env.finalizeBlock (t ++ [.finalizeBlock]) with
      | error e => exact hclear
      | ok b =>
        refine ⟨hclear, fun _ => ⟨t, [], rfl, hanswer, hr, by simp⟩, ?_⟩
        rw [hp, hf, hanswer]
        exact ih.1.once.append (List.Sublist.refl _)
  | received _ ih => exact ih
  | @proposed t b l _ hl hmay ih =>
    obtain ⟨⟨hc, hch⟩, hnext⟩ := ih.2.next hl
    refine ⟨ih.1.snoc ?_ (by simp) (by simp) ?_, ?_, hch.snoc (by simp)⟩
    · intro b' hb'
      cases hb'
      exact ⟨hmay, by simp, hnext.finalized (hA _ hmay), fun b' => hc b' (by simp), hch⟩
    · have hnone : finalizedAt env (t ++ [.blockValid b] ++ [.propose b]) = none := by
        unfold finalizedAt
        rw [List.getLast?_concat, if_neg (by simp)]
      rw [proposals_snoc, finalizedBlocks_snoc, hnone]
      exact hnext.fresh.trans (List.sublist_append_left ..)
    · intro b' hb'
      exact (hc b' (by simp)).snoc (fun h => hb' (by cases h; rfl)) fun _ hv => hv.snoc _
  | committed _ ih => exact ih
  | resumed _ hc q since ih =>
    exact ⟨ih.1.neutral ⟨by simp, by simp, by simp⟩ (by simp),
      building_standing (ih.2.1.confirm hc) ih.2.2 q since⟩
  | @proposedChange t b _ hc hmay change ih =>
    refine ⟨ih.1.snoc (by simp) (fun c _ => hmay) (by simp) ?_,
      (ih.2.1.confirm hc).snoc (by simp)⟩
    obtain ⟨hp, hf⟩ := lists_snoc (o := .proposeConfChange change) (by simp) (by simp) env t
    rw [hp, hf]
    exact ih.1.once
  | reconfigured _ hc q since ih =>
    exact ⟨ih.1.neutral ⟨by simp, by simp, by simp⟩ (by simp),
      building_standing ih.2 hc.allChanged q since⟩
  | cancelled _ hr ih =>
    obtain ⟨hb, hc⟩ := ih.1.ended hA hr
    exact ⟨ih.1.neutral ⟨by simp, by simp, by simp⟩ (by simp),
      fun b => (hb b).snoc (by simp) fun _ hv => hv, fun c => (hc c).snoc (by simp) fun _ hv => hv⟩
  | deposed _ _ hr ih => exact ⟨ih.1, ih.1.ended hA hr⟩

end

end Node

end SawtoothRaft
