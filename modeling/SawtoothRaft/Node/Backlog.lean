import SawtoothRaft.Node.Acts

/-!
# What the backlog remembers

The backlog has an entry for a block from the first notice about it until it is
confirmed, and no longer: `block_committed` drops the entry of the block in
front, which is the one the notification was about. `Remembers` says this of
each of the two kinds of notice, with the trace as the record of what has come
in. A block that comes back after its confirmation is new again.
-/

namespace SawtoothRaft

open Lib Node

/-- Something has happened, and `b` has not been confirmed since. -/
def SinceConfirmed (b : BlockId) (p : Obs → Prop) (t : List Obs) : Prop :=
  ∃ u o v, t = u ++ o :: v ∧ p o ∧ ¬ ConfirmedIn b v

def Announces (b : BlockId) (o : Obs) : Prop := ∃ block, o = .blockNew block ∧ block.blockId = b

def Validates (b : BlockId) (o : Obs) : Prop := o = .blockValid b

theorem not_announces {o : Obs} (h : ∀ block, o ≠ .blockNew block) (b : BlockId) :
    ¬ Announces b o := by
  intro ho
  obtain ⟨block, hblock, -⟩ := ho
  exact h block hblock

theorem not_validates {o : Obs} (h : ∀ b, o ≠ .blockValid b) (b : BlockId) : ¬ Validates b o := h b

/-- The backlog has a block of this id. -/
def BlockQueue.isReceived (q : BlockQueue) (blockId : BlockId) : Bool :=
  match q.validatorBacklog blockId with
  | some status => status.block.isSome
  | none => false

/-- The backlog has what the trace says, and an entry for nothing else. -/
structure Remembers (q : BlockQueue) (t : List Obs) : Prop where
  received : ∀ b, q.isReceived b = true ↔ SinceConfirmed b (Announces b) t
  valid : ∀ b, q.isValid b = true ↔ SinceConfirmed b (Validates b) t
  known : ∀ b, q.validatorBacklog b ≠ none ↔ q.isReceived b = true ∨ q.isValid b = true

theorem confirmedIn_snoc {b : BlockId} {v : List Obs} {o : Obs} :
    ConfirmedIn b (v ++ [o]) ↔
      ConfirmedIn b v ∨ ∃ v' i, v = v' ++ [.blockCommit b] ∧ o = .setApplied i := by
  constructor
  · intro h
    obtain ⟨v₁, i, v₂, h⟩ := h
    rcases List.eq_nil_or_concat v₂ with rfl | ⟨v₂, o', rfl⟩
    · have h' : v ++ [o] = (v₁ ++ [.blockCommit b]) ++ [.setApplied i] := by simpa using h
      obtain ⟨rfl, ho⟩ := List.append_inj' h' rfl
      exact Or.inr ⟨v₁, i, rfl, List.singleton_inj.mp ho⟩
    · have h' : v ++ [o] = (v₁ ++ .blockCommit b :: .setApplied i :: v₂) ++ [o'] := by simpa using h
      obtain ⟨rfl, -⟩ := List.append_inj' h' rfl
      exact Or.inl ⟨v₁, i, v₂, rfl⟩
  · intro h
    rcases h with h | ⟨v', i, rfl, rfl⟩
    · exact h.snoc o
    · exact ⟨v', i, [], by simp⟩

variable {b : BlockId} {p : Obs → Prop} {t : List Obs} {o : Obs}

/-- One more observation that is not the end of a confirmation. -/
theorem sinceConfirmed_snoc (ho : ∀ i, o ≠ .setApplied i) :
    SinceConfirmed b p (t ++ [o]) ↔ p o ∨ SinceConfirmed b p t := by
  constructor
  · intro h
    obtain ⟨u, o', v, ht, hp, hv⟩ := h
    rcases List.eq_nil_or_concat v with rfl | ⟨v, o'', rfl⟩
    · obtain ⟨-, ho'⟩ := List.append_inj' ht rfl
      exact Or.inl (List.singleton_inj.mp ho' ▸ hp)
    · have ht' : t ++ [o] = (u ++ o' :: v) ++ [o''] := by simpa using ht
      obtain ⟨rfl, ho'⟩ := List.append_inj' ht' rfl
      refine Or.inr ⟨u, o', v, rfl, hp, fun hc => hv ?_⟩
      rw [List.concat_eq_append]
      exact hc.snoc o''
  · intro h
    rcases h with h | ⟨u, o', v, rfl, hp, hv⟩
    · refine ⟨t, o, [], rfl, h, fun hc => ?_⟩
      obtain ⟨v₁, i, v₂, hc⟩ := hc
      exact absurd hc (by simp)
    · refine ⟨u, o', v ++ [o], by simp, hp, fun hc => ?_⟩
      rcases confirmedIn_snoc.mp hc with hc | ⟨_, i, -, hi⟩
      · exact hv hc
      · exact ho i hi

/-- The confirmation of `b` wipes out what was known of it, and nothing else. -/
theorem sinceConfirmed_confirm {c : BlockId} {u : List Obs} {i : Nat} (hb : ¬ p (.blockCommit c))
    (ha : ¬ p (.setApplied i)) :
    SinceConfirmed b p (u ++ [.blockCommit c] ++ [.setApplied i]) ↔
      b ≠ c ∧ SinceConfirmed b p (u ++ [.blockCommit c]) := by
  constructor
  · intro h
    obtain ⟨u', o, v, ht, hp, hv⟩ := h
    rcases List.eq_nil_or_concat v with rfl | ⟨v, o', rfl⟩
    · obtain ⟨-, ho⟩ := List.append_inj' ht rfl
      exact absurd (List.singleton_inj.mp ho ▸ hp) ha
    have ht' : u ++ [.blockCommit c] ++ [.setApplied i] = (u' ++ o :: v) ++ [o'] := by
      simpa using ht
    obtain ⟨hu, ho'⟩ := List.append_inj' ht' rfl
    obtain rfl := List.singleton_inj.mp ho'
    rw [List.concat_eq_append, confirmedIn_snoc] at hv
    refine ⟨fun hbc => hv (Or.inr ?_), u', o, v, hu, hp, fun hc => hv (Or.inl hc)⟩
    -- the notification is the last thing before, and not what `p` is about
    rcases List.eq_nil_or_concat v with rfl | ⟨v, o', rfl⟩
    · obtain ⟨-, ho⟩ := List.append_inj' hu rfl
      exact absurd (List.singleton_inj.mp ho ▸ hp) hb
    have hu' : u ++ [.blockCommit c] = (u' ++ o :: v) ++ [o'] := by simpa using hu
    obtain ⟨-, ho'⟩ := List.append_inj' hu' rfl
    rw [← List.singleton_inj.mp ho', hbc]
    exact ⟨v, i, by simp, rfl⟩
  · intro h
    obtain ⟨hne, u', o, v, ht, hp, hv⟩ := h
    refine ⟨u', o, v ++ [.setApplied i], by rw [ht]; simp, hp, fun hc => ?_⟩
    rcases confirmedIn_snoc.mp hc with hc | ⟨v', _, rfl, -⟩
    · exact hv hc
    · have ht' : u ++ [.blockCommit c] = (u' ++ o :: v') ++ [.blockCommit b] := by simpa using ht
      obtain ⟨-, hbc⟩ := List.append_inj' ht' rfl
      exact hne (Obs.blockCommit.inj (List.singleton_inj.mp hbc)).symm

/-- The write that follows a confirmation changes nothing more. -/
theorem sinceConfirmed_files (hp : ∀ op, ¬ p (.file op)) (ops : List FileOp) :
    SinceConfirmed b p (t ++ ops.map Obs.file) ↔ SinceConfirmed b p t := by
  induction ops generalizing t with
  | nil => rw [List.map_nil, List.append_nil]
  | cons op ops ih =>
    rw [List.map_cons, List.append_cons, ih, sinceConfirmed_snoc (by simp)]
    exact or_iff_right (hp op)

/-! ## The backlog -/

namespace BlockQueue

theorem isReceived_of_eq {q q' : BlockQueue} {b : BlockId}
    (h : q'.validatorBacklog b = q.validatorBacklog b) : q'.isReceived b = q.isReceived b := by
  rw [isReceived, isReceived, h]

theorem isValid_of_eq {q q' : BlockQueue} {b : BlockId}
    (h : q'.validatorBacklog b = q.validatorBacklog b) : q'.isValid b = q.isValid b := by
  rw [isValid, isValid, h]

theorem isReceived_blockNew (q : BlockQueue) (block : Block) (b : BlockId) :
    (q.blockNew block).isReceived b = true ↔ block.blockId = b ∨ q.isReceived b = true := by
  by_cases hb : b = block.blockId
  · subst hb
    simp only [isReceived, blockNew, Function.update_self]
    cases q.validatorBacklog block.blockId with
    | some status => simp
    | none => simp [BlockStatus.withBlock]
  · rw [or_iff_right (Ne.symm hb)]
    rw [isReceived_of_eq (Function.update_of_ne hb _ _)]

theorem isReceived_blockValid (q : BlockQueue) (b b' : BlockId) :
    (q.blockValid b).isReceived b' = q.isReceived b' := by
  by_cases hb : b' = b
  · subst hb
    simp only [isReceived, blockValid, Function.update_self]
    cases q.validatorBacklog b' with
    | some status => rfl
    | none => rfl
  · exact isReceived_of_eq (Function.update_of_ne hb _ _)

/-- Popping the front drops its entry from the backlog, and no other. -/
theorem blockCommitted_backlog {q q' : BlockQueue} {b : BlockId} {i : Nat}
    (hb : q.getNextCommittable = some b) (hq : q.blockCommitted = some (i, q')) (b' : BlockId) :
    q'.validatorBacklog b' = if b' = b then none else q.validatorBacklog b' := by
  obtain ⟨⟨j, rest, hfront⟩, -⟩ := getNextCommittable_eq_some.mp hb
  unfold blockCommitted at hq
  rw [hfront] at hq
  obtain ⟨-, rfl⟩ := Prod.mk.inj (Option.some.inj hq)
  exact Function.update_apply _ _ _ _

end BlockQueue

/-! ## The backlog and the trace move together -/

/-- Observations that are no notice. -/
theorem Remembers.snoc {q : BlockQueue} (h : Remembers q t) (happlied : ∀ i, o ≠ .setApplied i)
    (hnew : ∀ block, o ≠ .blockNew block) (hvalid : ∀ b, o ≠ .blockValid b) :
    Remembers q (t ++ [o]) := by
  refine ⟨fun b => ?_, fun b => ?_, h.known⟩
  · rw [sinceConfirmed_snoc happlied, or_iff_right (not_announces hnew b)]
    exact h.received b
  · rw [sinceConfirmed_snoc happlied, or_iff_right (not_validates hvalid b)]
    exact h.valid b

theorem Remembers.files {q : BlockQueue} (h : Remembers q t) (ops : List FileOp) :
    Remembers q (t ++ ops.map Obs.file) := by
  refine ⟨fun b => ?_, fun b => ?_, h.known⟩
  · rw [sinceConfirmed_files fun op => not_announces (by simp) b]
    exact h.received b
  · rw [sinceConfirmed_files fun op => not_validates (by simp) b]
    exact h.valid b

theorem Remembers.blockNew {q : BlockQueue} (h : Remembers q t) (block : Block) :
    Remembers (q.blockNew block) (t ++ [.blockNew block]) := by
  have hannounces : ∀ b, Announces b (.blockNew block) ↔ block.blockId = b := by
    intro b
    constructor
    · intro ha
      obtain ⟨_, hblock, hb⟩ := ha
      cases hblock
      exact hb
    · exact fun hb => ⟨block, rfl, hb⟩
  refine ⟨fun b => ?_, fun b => ?_, fun b => ?_⟩
  · rw [sinceConfirmed_snoc (by simp), hannounces, ← h.received]
    exact BlockQueue.isReceived_blockNew q block b
  · rw [sinceConfirmed_snoc (by simp), or_iff_right (not_validates (by simp) b), ← h.valid,
      BlockQueue.isValid_blockNew]
  · rw [BlockQueue.isReceived_blockNew, BlockQueue.isValid_blockNew, or_assoc, ← h.known]
    by_cases hb : b = block.blockId
    · subst hb
      simp only [BlockQueue.blockNew, Function.update_self, true_or, iff_true]
      split
      · simp
      · simp
    · rw [or_iff_right (Ne.symm hb)]
      simp only [BlockQueue.blockNew, Function.update_of_ne hb]

theorem Remembers.blockValid {q : BlockQueue} (h : Remembers q t) (b : BlockId) :
    Remembers (q.blockValid b) (t ++ [.blockValid b]) := by
  have hvalidates : ∀ b', Validates b' (.blockValid b) ↔ b' = b := by
    intro b'
    constructor
    · exact fun hv => (Obs.blockValid.inj hv).symm
    · exact fun hb => hb ▸ rfl
  refine ⟨fun b' => ?_, fun b' => ?_, fun b' => ?_⟩
  · rw [sinceConfirmed_snoc (by simp), or_iff_right (not_announces (by simp) b'),
      ← h.received, BlockQueue.isReceived_blockValid]
  · rw [sinceConfirmed_snoc (by simp), hvalidates, ← h.valid]
    exact BlockQueue.isValid_blockValid q b b'
  · rw [BlockQueue.isReceived_blockValid, BlockQueue.isValid_blockValid, or_left_comm, ← h.known]
    by_cases hb : b' = b
    · subst hb
      simp only [BlockQueue.blockValid, Function.update_self, true_or, iff_true]
      split
      · simp
      · simp
    · rw [or_iff_right hb]
      simp only [BlockQueue.blockValid, Function.update_of_ne hb]

/-- The confirmation of the block in front. -/
theorem Remembers.confirm {q q' : BlockQueue} {u : List Obs} {b : BlockId} {i : Nat}
    (h : Remembers q (u ++ [.blockCommit b])) (hb : q.getNextCommittable = some b)
    (hq : q.blockCommitted = some (i, q')) :
    Remembers q' (u ++ [.blockCommit b] ++ [.setApplied i]) := by
  have hbacklog := BlockQueue.blockCommitted_backlog hb hq
  have hother : ∀ b', b' ≠ b → q'.validatorBacklog b' = q.validatorBacklog b' := by
    intro b' hb'
    rw [hbacklog, if_neg hb']
  have hnone : q'.validatorBacklog b = none := by rw [hbacklog, if_pos rfl]
  refine ⟨fun b' => ?_, fun b' => ?_, fun b' => ?_⟩
  · rw [sinceConfirmed_confirm (not_announces (by simp) b') (not_announces (by simp) b'),
      ← h.received]
    by_cases hb' : b' = b
    · subst hb'
      simp [BlockQueue.isReceived, hnone]
    · rw [BlockQueue.isReceived_of_eq (hother b' hb')]
      simp [hb']
  · rw [sinceConfirmed_confirm (not_validates (by simp) b') (not_validates (by simp) b'), ← h.valid]
    by_cases hb' : b' = b
    · subst hb'
      simp [BlockQueue.isValid, hnone]
    · rw [BlockQueue.isValid_of_eq (hother b' hb')]
      simp [hb']
  · by_cases hb' : b' = b
    · subst hb'
      simp [BlockQueue.isReceived, BlockQueue.isValid, hnone]
    · rw [hother b' hb', BlockQueue.isReceived_of_eq (hother b' hb'),
        BlockQueue.isValid_of_eq (hother b' hb')]
      exact h.known b'

namespace Node

variable {S : Type} [StorageExt S] [Protobuf] {env : Env}

theorem remembers_stable : Stable env (fun n : Node S => Remembers n.blockQueue n.trace) := by
  intro n n' hact hn
  cases hact with
  | note o ho hp =>
    refine hn.snoc ?_ ?_ ?_
    · intro i hi
      subst hi
      exact ho
    · intro block hblock
      subst hblock
      exact ho
    · intro b hb
      subst hb
      exact ho
  | roles => exact hn
  | announce block hp => exact hn.blockNew block
  | validate b hp => exact hn.blockValid b
  | confirm b i q u ht hb hq hp =>
    rw [ht] at hn
    have hconfirmed : Remembers q (n.trace ++ [.setApplied i]) := ht ▸ hn.confirm hb hq
    exact hconfirmed.files _
  | build hp => exact hn.snoc (by simp) (by simp) (by simp)
  | summarize since hl hdue hp => exact hn.snoc (by simp) (by simp) (by simp)
  | finalize since u hl ht hdue hp => exact hn.snoc (by simp) (by simp) (by simp)
  | persist o ho round phase rest hp hphase => exact hn.files _
  | send msg peerId hmsg hpeer => exact hn.snoc (by simp) (by simp) (by simp)
  | skip e he hp => exact hn.snoc (by simp) (by simp) (by simp)
  | take e he hp =>
    have htaken : Remembers n.blockQueue (n.trace ++ [.entry e]) :=
      hn.snoc (by simp) (by simp) (by simp)
    exact ⟨htaken.received, htaken.valid, htaken.known⟩
  | reconfigure peers change hchange hp => exact hn.snoc (by simp) (by simp) (by simp)
  | peers n' change e u ht he hparse h hp =>
    have happlied : Remembers n.blockQueue (n.trace ++ [.applyConfChange change]) :=
      hn.snoc (by simp) (by simp) (by simp)
    cases h with
    | add => exact happlied
    | remove => exact happlied
    | learner => exact happlied
  | commit b hb hp => exact hn.snoc (by simp) (by simp) (by simp)

omit [StorageExt S] [Protobuf] in
/-- Nothing is known at the start. -/
theorem new_remembers {node : Node S} (h : Sys.IsNew node) :
    Remembers node.blockQueue node.trace := by
  obtain ⟨_, _, _, _, ops, h⟩ := h
  obtain ⟨_, rfl⟩ := new_eq h
  have hnever : ∀ b p, ¬ SinceConfirmed b p [] := by
    intro b p h
    obtain ⟨u, o, v, h, -⟩ := h
    exact absurd h (by simp)
  have hnil : Remembers BlockQueue.new [] :=
    ⟨fun b => by simp [BlockQueue.isReceived, BlockQueue.new, hnever],
      fun b => by simp [BlockQueue.isValid, BlockQueue.new, hnever],
      fun b => by simp [BlockQueue.isReceived, BlockQueue.isValid, BlockQueue.new]⟩
  exact hnil.files ops

variable [Formats]

/-- In every state of every run, also of a node that has stopped in the middle of
something: a block counts as received exactly if it has been announced since it
was last confirmed, and as valid exactly if it has been reported so since. The
backlog has an entry for these blocks and for no others. -/
theorem backlog_remembers {node : Node S} (hnew : Sys.IsNew node) (inputs : List Input) :
    let s := (Sys.start node).run env inputs
    ∀ b, (s.node.blockQueue.isReceived b = true ↔ SinceConfirmed b (Announces b) s.node.trace) ∧
      (s.node.blockQueue.isValid b = true ↔ SinceConfirmed b (Validates b) s.node.trace) ∧
      (s.node.blockQueue.validatorBacklog b ≠ none ↔
        SinceConfirmed b (Announces b) s.node.trace ∨
          SinceConfirmed b (Validates b) s.node.trace) := by
  intro s b
  have hrun : Remembers s.node.blockQueue s.node.trace :=
    run_stable_node remembers_stable hnew (new_remembers hnew) inputs
  refine ⟨hrun.received b, hrun.valid b, ?_⟩
  rw [hrun.known b, hrun.received b, hrun.valid b]

end Node

namespace Node

open scoped Proto3 PlainFormats

/-- Block 7 is valid while it is being committed, and forgotten once that is
confirmed. -/
theorem backlog_remembers_confirmed : ∃ node : Node FsStorage, twoPeers = .ok node ∧
    let run := (Sys.start node).run (Env.obliging [8] fun _ => twoPeersSetting)
    SinceConfirmed [7] (Validates [7]) (run electedWhileCommitting).node.trace ∧
    ¬ SinceConfirmed [7] (Validates [7])
      (run (electedWhileCommitting ++ [.blockCommit [7]])).node.trace := by
  refine ⟨_, rfl, ?_, fun h => ?_⟩
  · exact (backlog_remembers (twoPeers_isNew rfl) _ [7]).2.1.mp (by decide +kernel)
  · have := (backlog_remembers (twoPeers_isNew rfl) _ [7]).2.1.mpr h
    exact absurd this (by decide +kernel)

end Node

end SawtoothRaft
