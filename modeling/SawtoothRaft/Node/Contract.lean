import SawtoothRaft.Lib.Justified
import SawtoothRaft.Node.Acts
import SawtoothRaft.Node.Configured

/-!
# The order of a round

`RawNode` has its rules: a `Ready` is handled and answered by `advance` before
the next one is asked for, and nothing is proposed or stepped in between. A
leader may send its messages before the entries are stored, a follower may not,
and committed entries come last. The node keeps them all, in every run and up to
the point at which it stops (`trace_ordered`).

It is also a rule that a `Ready` is handled to the end: all its committed entries
are taken up, and Raft is told of every configuration change among them. What is
taken up next, and what may come after a change, is part of `Placed`; so it is
enough to count along the trace (`Ordered.entries`, `Ordered.told`) to see that
nothing is left out or done twice (`every_ready_handled`).
-/

namespace SawtoothRaft

open Lib

/-- Everything has happened at its place. -/
abbrev Ordered (t : List Obs) : Prop := Justified (fun u o => Placed (place u) o) t

/-- The opening of a store, and every write between two rounds. -/
theorem Ordered.files_outside {t : List Obs} (h : Ordered t) (ht : place t = .outside)
    (ops : List FileOp) : Ordered (t ++ ops.map Obs.file) := by
  refine Justified.append_map h (fun ops' op => ?_) ops
  rw [place_files ht ops']
  exact fun h => h

/-- The rounds that have been begun and those that have been brought to an end. -/
def roundsBegun (t : List Obs) : Nat := t.countP isReady

def roundsEnded (t : List Obs) : Nat := t.countP (· = .advance)

/-- A round is brought to an end before the next one begins. -/
theorem Ordered.rounds {t : List Obs} (h : Ordered t) :
    roundsBegun t = roundsEnded t + (if place t = .outside then 0 else 1) := by
  refine Justified.induct (P := fun t => roundsBegun t
    = roundsEnded t + (if place t = .outside then 0 else 1)) h rfl fun t o ih hplaced => ?_
  rw [place_snoc, roundsBegun, roundsEnded, List.countP_append, List.countP_append,
    ← roundsBegun, ← roundsEnded, ih]
  cases hp : place t with
  | outside =>
    rw [hp] at hplaced
    cases o with
    | advance => exact absurd trivial hplaced
    | ready round => simp [isReady, Place.next]
    | _ => simp [isReady, Place.next]
  | inside round phase rest =>
    rw [hp] at hplaced
    cases o with
    | ready round => exact absurd hplaced (fun h => h)
    | advance => simp [isReady, Place.next]
    | _ => simp [isReady, Place.next]

/-! ## What a trace has taken up -/

def changeMade : Obs → Option ConfChange
  | .applyConfChange change => some change
  | _ => none

/-- The changes that Raft has been told of. -/
def changesMade (t : List Obs) : List ConfChange := t.filterMap changeMade

/-- The entries that are still to be taken up. -/
def Place.due : Place → List Entry
  | .outside => []
  | .inside _ _ rest => rest

/-- A configuration change has been taken up and not been carried out. -/
def Place.Changing : Place → Prop
  | .inside _ .changing _ => True
  | _ => False

section
variable [Protobuf]

/-- The changes that the entries taken up ask for. -/
def changesAsked (t : List Obs) : List ConfChange := (books t).entries.filterMap changeOf

/-- Raft has been told of all the changes that were asked for, the one aside that has
just been taken up. -/
def Told (t : List Obs) : Prop :=
  ¬ (place t).Changing ∧ changesMade t = changesAsked t ∨
    (place t).Changing ∧ ∃ u e, t = u ++ [.entry e] ∧ changesMade t = changesAsked u

/-- What Raft is told comes from the entry that has just been taken up. -/
def Asked (u : List Obs) : Obs → Prop
  | .applyConfChange change => ∃ w e, u = w ++ [.entry e] ∧ changeOf e = some change
  | _ => True

end

section
variable {t : List Obs} {o : Obs}

theorem changesMade_snoc : changesMade (t ++ [o]) = changesMade t ++ (changeMade o).toList := by
  rw [changesMade, List.filterMap_append]
  cases ho : changeMade o with
  | some change => simp [changesMade, ho]
  | none => simp [changesMade, ho]

/-- The entries taken up and those that are left make up the rounds so far. -/
theorem Ordered.entries (h : Ordered t) :
    (books t).entries ++ (place t).due = (roundsShown t).flatMap Round.committed := by
  refine Justified.induct (P := fun t => (books t).entries ++ (place t).due
    = (roundsShown t).flatMap Round.committed) h rfl fun t o ih hplaced => ?_
  rw [place_snoc, books_snoc, roundsShown_snoc, List.flatMap_append, ← ih]
  cases hp : place t with
  | outside =>
    rw [hp] at hplaced
    cases o with
    | entry e => exact absurd trivial hplaced
    | ready round => simp [Place.next, Place.due, roundShown, Books.record]
    | _ => simp [Place.next, Place.due, roundShown, Books.record]
  | inside round phase rest =>
    rw [hp] at hplaced
    cases o with
    | ready round' => exact absurd hplaced (fun h => h)
    | advance =>
      obtain ⟨-, rfl⟩ := hplaced
      simp [Place.next, Place.due, roundShown, Books.record]
    | entry e =>
      obtain ⟨-, hhead⟩ := hplaced
      obtain ⟨rest', rfl⟩ : ∃ rest', rest = e :: rest' := by
        cases rest with
        | nil => cases hhead
        | cons e' rest' => exact ⟨rest', by rw [Option.some.inj hhead]⟩
      simp [Place.next, Place.due, roundShown, leftAfter, Books.record]
    | _ => simp [Place.next, Place.due, roundShown, leftAfter, Books.record]

/-- A change that has been taken up is carried out before anything else. -/
theorem Placed.of_changing {p : Place} (h : Placed p o) (hp : p.Changing) :
    ∃ change, o = .applyConfChange change := by
  obtain ⟨round, rest, rfl⟩ : ∃ round rest, p = .inside round .changing rest := by
    cases p with
    | outside => exact hp.elim
    | inside round phase rest =>
      cases phase with
      | changing => exact ⟨round, rest, rfl⟩
      | _ => exact hp.elim
  cases o with
  | applyConfChange change => exact ⟨change, rfl⟩
  | sendTo peerId message =>
    have hsends : SendsIn round .changing := h.1
    unfold SendsIn at hsends
    split at hsends
    · cases hsends
    · exact absurd hsends (by decide)
  | cancelBlock => exact absurd h.2 (by decide)
  | file op => exact absurd (show Phase.changing.rank ≤ Phase.storing.rank from h) (by decide)
  | entry e => exact absurd h.1 (by decide)
  | initializeBlock q => exact absurd h.2 (by decide)
  | commitBlock b => exact absurd h.1 (by decide)
  | advance => exact absurd rfl h.1
  | _ => exact h.elim

theorem Placed.changing {p : Place} {change : ConfChange} (h : Placed p (.applyConfChange change)) :
    ∃ round rest, p = .inside round .changing rest := by
  cases p with
  | outside => exact absurd trivial h
  | inside round phase rest =>
    obtain rfl : phase = .changing := h
    exact ⟨round, rest, rfl⟩

theorem Place.Changing.of_next {p : Place} (h : (p.next o).Changing) (ho : ∀ e, o ≠ .entry e) :
    p.Changing := by
  cases p with
  | outside =>
    cases o with
    | ready round =>
      revert h
      simp only [Place.next]
      split
      · exact fun h => h
      · exact fun h => h
    | _ => exact h
  | inside round phase rest =>
    have hphase : ∀ round', ¬ ((Place.inside round phase rest).next (.ready round')).Changing := by
      intro round'
      simp only [Place.next]
      split
      · exact fun h => h
      · exact fun h => h
    cases o with
    | entry e => exact absurd rfl (ho e)
    | ready round' => exact absurd h (hphase round')
    | sendTo peerId message =>
      revert h
      simp only [Place.next, Phase.next]
      split
      · exact fun h => h.elim
      · exact fun h => h.elim
    | cancelBlock | file | applyConfChange | commitBlock | advance => exact h.elim
    | _ => exact h

variable [Protobuf]

theorem changesAsked_entry (t : List Obs) (e : Entry) :
    changesAsked (t ++ [.entry e]) = changesAsked t ++ (changeOf e).toList := by
  unfold changesAsked
  rw [books_snoc]
  show List.filterMap changeOf ((books t).entries ++ [e]) = _
  rw [List.filterMap_append]
  cases he : changeOf e with
  | some change => simp [he]
  | none => simp [he]

theorem changesAsked_other (t : List Obs) (ho : ∀ e, o ≠ .entry e) :
    changesAsked (t ++ [o]) = changesAsked t := by
  unfold changesAsked
  rw [books_snoc]
  cases o with
  | entry e => exact absurd rfl (ho e)
  | _ => rfl

/-- Nothing is taken up before Raft has been told of the changes so far. -/
theorem Told.entry {e : Entry} (h : Told t) (hp : Placed (place t) (.entry e)) :
    Told (t ++ [.entry e]) := by
  rcases h with ⟨-, hmade⟩ | ⟨hchanging, -⟩
  · have hmade' : changesMade (t ++ [.entry e]) = changesAsked t := by
      rw [changesMade_snoc]
      exact (List.append_nil _).trans hmade
    cases hplace : place t with
    | outside =>
      rw [hplace] at hp
      exact absurd trivial hp
    | inside round phase rest =>
      by_cases he : Node.IsChange e
      · refine Or.inr ⟨?_, t, e, rfl, hmade'⟩
        rw [place_snoc, hplace]
        simp [Place.next, Phase.next, he, Place.Changing]
      · refine Or.inl ⟨?_, ?_⟩
        · rw [place_snoc, hplace]
          simp [Place.next, Phase.next, he, Place.Changing]
        · rw [hmade', changesAsked_entry, changeOf, if_neg he]
          exact (List.append_nil _).symm
  · obtain ⟨change, hchange⟩ := hp.of_changing hchanging
    cases hchange

/-- The change that Raft is told of is the one that was still to be carried out. -/
theorem Told.apply {change : ConfChange} (h : Told t)
    (hp : Placed (place t) (.applyConfChange change)) (hasked : Asked t (.applyConfChange change)) :
    Told (t ++ [.applyConfChange change]) := by
  obtain ⟨round, rest, hplace⟩ := Placed.changing hp
  obtain ⟨w, e, rfl, hchange⟩ := hasked
  rcases h with ⟨hchanging, -⟩ | ⟨-, u, e', ht, hmade⟩
  · rw [hplace] at hchanging
    exact absurd trivial hchanging
  · obtain ⟨rfl, he⟩ := List.append_inj' ht rfl
    refine Or.inl ⟨?_, ?_⟩
    · rw [place_snoc, hplace]
      exact fun h => h
    · rw [changesAsked_other _ (by simp), changesAsked_entry, changesMade_snoc, hmade, hchange]
      rfl

theorem Told.other (h : Told t) (hp : Placed (place t) o) (he : ∀ e, o ≠ .entry e)
    (hc : ∀ change, o ≠ .applyConfChange change) : Told (t ++ [o]) := by
  rcases h with ⟨hchanging, hmade⟩ | ⟨hchanging, -⟩
  · refine Or.inl ⟨fun h => hchanging ?_, ?_⟩
    · rw [place_snoc] at h
      exact h.of_next he
    · rw [changesAsked_other t he, changesMade_snoc, ← hmade]
      cases o with
      | applyConfChange change => exact absurd rfl (hc change)
      | _ => exact List.append_nil _
  · obtain ⟨change, hchange⟩ := hp.of_changing hchanging
    exact absurd hchange (hc change)

/-- Raft is told of the changes one by one, as they are taken up. -/
theorem Ordered.told (h : Ordered t) (hasked : Justified Asked t) : Told t := by
  have hboth : Justified (fun u o => Placed (place u) o ∧ Asked u o) t :=
    fun u o v ht => ⟨h u o v ht, hasked u o v ht⟩
  refine Justified.induct hboth (Or.inl ⟨fun h => h, rfl⟩) fun t o ih ho => ?_
  obtain ⟨hplaced, ho⟩ := ho
  cases o with
  | entry e => exact ih.entry hplaced
  | applyConfChange change => exact ih.apply hplaced ho
  | _ => exact ih.other hplaced (by simp) (by simp)

end

namespace Node

variable {S : Type} [StorageExt S] [Protobuf] {env : Env}

theorem ordered_stable : Stable env (fun n : Node S => Ordered n.trace) := by
  intro n n' hact hn
  cases hact with
  | note o ho hp => exact hn.snoc hp
  | roles => exact hn
  | announce block hp => exact hn.snoc (by rw [hp]; exact fun h => h)
  | validate b hp => exact hn.snoc (by rw [hp]; exact fun h => h)
  | confirm b i q u ht hb hq hp =>
    have happlied : Ordered (n.trace ++ [.setApplied i]) := hn.snoc (by rw [hp]; exact fun h => h)
    exact happlied.files_outside (by rw [place_snoc, hp]; rfl) _
  | build hp => exact hn.snoc hp
  | summarize since hl hdue hp => exact hn.snoc (by rw [hp]; exact fun h => h)
  | finalize since u hl ht hdue hp => exact hn.snoc (by rw [hp]; exact fun h => h)
  | persist o ho round phase rest hp hphase =>
    refine Justified.append_map hn (fun ops' op => ?_) _
    obtain ⟨phase', hp', hphase'⟩ := Within.files (n := n) ⟨phase, hp, hphase⟩
      ({ o with ops := ops' } : Outcome S Unit)
    rw [stored_trace] at hp'
    rw [hp']
    exact hphase'
  | send msg peerId hmsg hpeer => exact hn.snoc (hmsg.placed peerId)
  | skip e he hp => exact hn.snoc hp
  | take e he hp => exact hn.snoc hp
  | reconfigure peers change hchange hp => exact hn.snoc (by rw [hp]; exact fun h => h)
  | peers n' change e u ht he hparse h hp =>
    rw [add_trace, h.trace_eq]
    exact hn.snoc hp
  | commit b hb hp => exact hn.snoc hp

omit [StorageExt S] in
theorem asked_files {t : List Obs} (h : Justified Asked t) (ops : List FileOp) :
    Justified Asked (t ++ ops.map Obs.file) :=
  h.append_map (f := Obs.file) (fun _ _ => trivial) ops

theorem asked_stable : Stable env (fun n : Node S => Justified Asked n.trace) := by
  intro n n' hact hn
  cases hact with
  | note o ho hp =>
    refine hn.snoc ?_
    cases o with
    | applyConfChange change => exact ho.elim
    | _ => trivial
  | roles => exact hn
  | confirm b i q u ht hb hq hp =>
    have happlied : Justified Asked (n.trace ++ [.setApplied i]) := hn.snoc trivial
    exact asked_files happlied _
  | persist o ho round phase rest hp hphase => exact asked_files hn _
  | peers n' change e u ht he hparse h hp =>
    have hasked : Asked n.trace (.applyConfChange change) :=
      ⟨u, e, ht, by rw [changeOf, if_pos he, hparse]⟩
    rw [add_trace, h.trace_eq]
    exact hn.snoc hasked
  | _ => exact hn.snoc trivial

variable [Formats]

variable (env) in
/-- **Run**: everything happens at its place, and a node that runs is not in a round. -/
theorem run_ordered {node : Node S} (hnew : Sys.IsNew node) (inputs : List Input) :
    let s := (Sys.start node).run env inputs
    Ordered s.node.trace ∧ (s.status = .running → place s.node.trace = .outside) := by
  intro s
  have hnode : Ordered node.trace := by
    obtain ⟨_, _, _, _, ops, hnode⟩ := hnew
    obtain ⟨_, rfl⟩ := new_eq hnode
    exact Ordered.files_outside .nil rfl ops
  have hstable : Stable env (fun n : Node S => Ordered n.trace) := ordered_stable
  have hrun : s.Sat _ _ := run_stable hstable hnew hnode inputs
  refine ⟨run_stable_node hstable hnew hnode inputs, fun hs => ?_⟩
  unfold Sys.Sat at hrun
  rw [hs] at hrun
  exact hrun.2

/-- **Run**: Raft is told of nothing but the change of the entry in hand. -/
theorem run_asked {node : Node S} (hnew : Sys.IsNew node) (inputs : List Input) :
    Justified Asked ((Sys.start node).run env inputs).node.trace := by
  refine run_stable_node (I := fun n : Node S => Justified Asked n.trace) asked_stable hnew ?_
    inputs
  obtain ⟨_, _, _, _, ops, hnode⟩ := hnew
  obtain ⟨_, rfl⟩ := new_eq hnode
  exact asked_files .nil ops

/-- In every run, and at every point of it, things happen in the order of a
round, and rounds do not overlap. A node that runs has answered every `Ready`. -/
theorem trace_ordered {node : Node S} (hnew : Sys.IsNew node) (inputs : List Input) :
    let s := (Sys.start node).run env inputs
    (∀ u o v, s.node.trace = u ++ o :: v → Placed (place u) o) ∧
      (∀ u, u <+: s.node.trace →
        roundsBegun u = roundsEnded u + (if place u = .outside then 0 else 1)) ∧
      (s.status = .running → roundsBegun s.node.trace = roundsEnded s.node.trace) := by
  intro s
  obtain ⟨hordered, hout⟩ := run_ordered env hnew inputs
  refine ⟨hordered, fun u hu => Ordered.rounds (hordered.of_prefix hu), fun hs => ?_⟩
  have := Ordered.rounds hordered
  rwa [hout hs, if_pos rfl] at this

/-- **Every `Ready` is handled to the end.** At every point of a run the entries taken up
are those of the `Ready`s so far, in order and but for those still due, and Raft has been
told of the changes among them. Of a node that runs nothing is due. -/
theorem every_ready_handled {node : Node S} (hnew : Sys.IsNew node) (inputs : List Input) :
    let s := (Sys.start node).run env inputs
    (∀ u, u <+: s.node.trace →
      (books u).entries ++ (place u).due = (roundsShown u).flatMap Round.committed ∧ Told u) ∧
      (s.status = .running →
        (books s.node.trace).entries = (roundsShown s.node.trace).flatMap Round.committed ∧
        changesMade s.node.trace = changesAsked s.node.trace) := by
  intro s
  obtain ⟨hordered, hout⟩ := run_ordered env hnew inputs
  have hasked : Justified Asked s.node.trace := run_asked hnew inputs
  refine ⟨fun u hu => ?_, fun hs => ⟨?_, ?_⟩⟩
  · have hbefore : Ordered u := hordered.of_prefix hu
    exact ⟨Ordered.entries hbefore, Ordered.told hbefore (hasked.of_prefix hu)⟩
  · have hentries := Ordered.entries hordered
    rw [hout hs] at hentries
    exact (List.append_nil _).symm.trans hentries
  · rcases Ordered.told hordered hasked with ⟨-, hmade⟩ | ⟨hchanging, -⟩
    · exact hmade
    · rw [hout hs] at hchanging
      exact hchanging.elim

end Node

namespace Node

open scoped Proto3 PlainFormats

/-- Two rounds, one as follower and one as leader. -/
theorem trace_ordered_elected : ∃ node : Node FsStorage, twoPeers = .ok node ∧
    let s := (Sys.start node).run (Env.obliging [8] fun _ _ => none) electedWhileCommitting
    roundsBegun s.node.trace = 2 ∧ roundsBegun s.node.trace = roundsEnded s.node.trace := by
  refine ⟨_, rfl, by decide +kernel, ?_⟩
  exact (trace_ordered (twoPeers_isNew rfl) _).2.2 (by decide +kernel)

/-- A follower is shown a block and a change in one `Ready`. -/
def additionShown : List Input :=
  [.processReady (some { isLeader := false, ready :=
    { committedEntries := some additionLog.entries } })]

theorem every_ready_handled_addition : ∃ node : Node FsStorage, twoPeers = .ok node ∧
    let s := (Sys.start node).run (Env.obliging [8] fun _ _ => none) additionShown
    s.status = .running ∧ (books s.node.trace).entries = additionLog.entries ∧
      changesMade s.node.trace = [addition] := by
  refine ⟨_, rfl, by decide +kernel, ?_⟩
  obtain ⟨-, hdone⟩ := @every_ready_handled _ _ _ (Env.obliging [8] fun _ _ => none) _ _
    (twoPeers_isNew rfl) additionShown
  obtain ⟨hentries, hmade⟩ := hdone (by decide +kernel)
  exact ⟨hentries.trans (by decide +kernel), hmade.trans (by decide +kernel)⟩

end Node

end SawtoothRaft
