import SawtoothRaft.Node.Acts

/-!
# The pace of publication

A block is asked for once `period` has gone by since it was begun, as the clock
of the node has it, and begun only after the one before is out (`DueAt`). So the
blocks that a node publishes are `period` apart, however often it is asked to
look at its clock, and however leadership comes and goes in between
(`publications_spaced`). The clock itself is trusted only to go forwards.
-/

namespace SawtoothRaft

open Lib

/-- A block has been published by the call of `finalize_block` at this point of
the trace. -/
def PublishedAt (env : Env) (t w : List Obs) : Prop :=
  w ++ [.finalizeBlock] <+: t ∧ ∃ b, env.finalizeBlock (w ++ [.finalizeBlock]) = .ok b

/-- The last block that was begun in `t` was begun at `u`. -/
def LastBegun (t u : List Obs) : Prop :=
  ∃ q v, t = u ++ .initializeBlock q :: v ∧ ∀ q', .initializeBlock q' ∉ v

/-- The last block was begun at `u`, after everything that has been published so
far. -/
structure BegunAt (env : Env) (t u : List Obs) : Prop where
  begun : LastBegun t u
  latest : ∀ w, PublishedAt env t w → w ++ [.finalizeBlock] <+: u

/-- The block published at `w` was asked for at `x`, a full period after it had
been begun at `u`, and what was published before it was out by then. -/
structure DueAt (env : Env) (period : Nat) (t w u x : List Obs) : Prop where
  begun : LastBegun x u
  asked : w = x ++ [.summarizeBlock]
  due : period ≤ env.now x - env.now u
  latest : ∀ w', PublishedAt env t w' → w'.length < w.length → w' ++ [.finalizeBlock] <+: u

theorem LastBegun.prefix {t u : List Obs} (h : LastBegun t u) : u <+: t := by
  obtain ⟨q, v, rfl, -⟩ := h
  exact List.prefix_append ..

theorem LastBegun.append {t u w : List Obs} (h : LastBegun t u)
    (hw : ∀ q, .initializeBlock q ∉ w) : LastBegun (t ++ w) u := by
  obtain ⟨q, v, rfl, hv⟩ := h
  refine ⟨q, v ++ w, List.append_assoc .., fun q' hq => ?_⟩
  rcases List.mem_append.mp hq with hq | hq
  · exact hv q' hq
  · exact hw q' hq

theorem LastBegun.of_snoc {t u : List Obs} {o : Obs} (h : LastBegun (t ++ [o]) u)
    (ho : ∀ q, o ≠ .initializeBlock q) : LastBegun t u := by
  obtain ⟨q, v, ht, hv⟩ := h
  rcases List.eq_nil_or_concat v with rfl | ⟨v', o', rfl⟩
  · exact absurd (List.singleton_inj.mp (List.append_inj' ht rfl).2) (ho q)
  · rw [List.concat_eq_append] at ht hv
    rw [← List.cons_append, ← List.append_assoc] at ht
    exact ⟨q, v', (List.append_inj' ht rfl).1, fun q' hq => hv q' (List.mem_append_left _ hq)⟩

theorem publishedAt_snoc {env : Env} {t w : List Obs} {o : Obs} :
    PublishedAt env (t ++ [o]) w ↔ PublishedAt env t w ∨
      w = t ∧ o = .finalizeBlock ∧ ∃ b, env.finalizeBlock (t ++ [o]) = .ok b := by
  constructor
  · intro h
    obtain ⟨hw, hb⟩ := h
    rcases List.prefix_concat_iff.mp hw with hw | hw
    · obtain ⟨rfl, ho⟩ := List.append_inj' hw rfl
      obtain rfl := List.singleton_inj.mp ho
      exact Or.inr ⟨rfl, rfl, hb⟩
    · exact Or.inl ⟨hw, hb⟩
  · intro h
    rcases h with h | ⟨rfl, rfl, hb⟩
    · exact ⟨h.1.trans (List.prefix_append ..), h.2⟩
    · exact ⟨List.prefix_refl _, hb⟩

theorem publishedAt_files {env : Env} {t w : List Obs} (ops : List FileOp) :
    PublishedAt env (t ++ ops.map Obs.file) w ↔ PublishedAt env t w := by
  induction ops generalizing t with
  | nil => rw [List.map_nil, List.append_nil]
  | cons op ops ih =>
    rw [List.map_cons, List.append_cons, ih, publishedAt_snoc]
    simp

namespace Node

variable {S : Type}

/-- The block that is being built is the last one begun, after all that has been
published, and all that has been published was due. -/
structure Paced (env : Env) (period : Nat) (n : Node S) : Prop where
  same : n.period = period
  building : ∀ since, n.leaderState = some (.building since) →
    ∃ u, BegunAt env n.trace u ∧ since = env.now u
  due : ∀ w, PublishedAt env n.trace w → ∃ u x, DueAt env period n.trace w u x

/-- Nothing is begun or published, and the clock of the block that is being built
stays. -/
theorem Paced.of_same {env : Env} {period : Nat} {n n' : Node S} (h : Paced env period n)
    (hperiod : n'.period = n.period) (ht : ∀ u, LastBegun n.trace u → LastBegun n'.trace u)
    (hp : ∀ w, PublishedAt env n'.trace w ↔ PublishedAt env n.trace w)
    (hl : ∀ since, n'.leaderState = some (.building since) → n'.leaderState = n.leaderState) :
    Paced env period n' := by
  refine ⟨hperiod.trans h.same, fun since hsince => ?_, fun w hw => ?_⟩
  · obtain ⟨u, hu, hnow⟩ := h.building since (hl since hsince ▸ hsince)
    exact ⟨u, ⟨ht u hu.begun, fun w hw => hu.latest w ((hp w).mp hw)⟩, hnow⟩
  · obtain ⟨u, x, hdue⟩ := h.due w ((hp w).mp hw)
    exact ⟨u, x, hdue.begun, hdue.asked, hdue.due, fun w' hw' => hdue.latest w' ((hp w').mp hw')⟩

/-- One more observation, but for the two that begin and publish blocks. -/
theorem Paced.add {env : Env} {period : Nat} {n : Node S} (h : Paced env period n) {o : Obs}
    (hb : ∀ q, o ≠ .initializeBlock q) (ho : o ≠ .finalizeBlock) : Paced env period (n.add o) := by
  refine h.of_same rfl (fun u hu => hu.append fun q hq => ?_) (fun w => ?_) fun _ _ => rfl
  · exact hb q (List.mem_singleton.mp hq).symm
  · rw [add_trace, publishedAt_snoc]
    simp [ho]

theorem Paced.files {env : Env} {period : Nat} {n : Node S} (h : Paced env period n) {α : Type}
    (o : Outcome S α) : Paced env period (n.stored o) :=
  h.of_same rfl (fun _ hu => hu.append (by simp)) (fun _ => publishedAt_files _) fun _ _ => rfl

theorem Paced.begun {env : Env} {period : Nat} {n : Node S} (h : Paced env period n) :
    Paced env period (n.begun env) := by
  have hpub : ∀ w, PublishedAt env (n.begun env).trace w → PublishedAt env n.trace w := by
    intro w hw
    have hw : PublishedAt env (n.trace ++ [.initializeBlock n.blockQueue.commitQueue]) w := hw
    rw [publishedAt_snoc] at hw
    exact hw.resolve_right (by simp)
  refine ⟨h.same, fun since hsince => ?_, fun w hw => ?_⟩
  · have hnow : LeaderState.building (env.now n.trace) = .building since := Option.some.inj hsince
    refine ⟨n.trace, ⟨⟨_, [], rfl, by simp⟩, fun w hw => (hpub w hw).1⟩, ?_⟩
    exact (LeaderState.building.inj hnow).symm
  · obtain ⟨u, x, hdue⟩ := h.due w (hpub w hw)
    exact ⟨u, x, hdue.begun, hdue.asked, hdue.due,
      fun w' hw' => hdue.latest w' (hpub w' hw')⟩

/-- The call of `finalize_block`, whatever the answer. -/
theorem Paced.finalized {env : Env} {period : Nat} {n : Node S} (h : Paced env period n)
    {since : Nat} {x : List Obs} (hl : n.leaderState = some (.building since))
    (ht : n.trace = x ++ [.summarizeBlock]) (hdue : n.period ≤ env.now x - since) :
    Paced env period (n.finalized env since) := by
  obtain ⟨u, hu, hnow⟩ := h.building since hl
  have hbefore : LastBegun x u := (ht ▸ hu.begun).of_snoc (by simp)
  have htrace : (n.finalized env since).trace = n.trace ++ [.finalizeBlock] := rfl
  -- what was published before, or else the block of this call
  have hpub : ∀ w, PublishedAt env (n.finalized env since).trace w →
      PublishedAt env n.trace w ∨ w = n.trace := by
    intro w hw
    rw [htrace, publishedAt_snoc] at hw
    exact hw.imp_right And.left
  refine ⟨h.same, fun since' hsince => ?_, fun w hw => ?_⟩
  · -- the call has failed
    have hfailed : ¬ ∃ b, env.finalizeBlock (n.trace ++ [.finalizeBlock]) = .ok b := by
      intro hb
      obtain ⟨b, hb⟩ := hb
      have : some (publishedAs since (env.finalizeBlock (n.trace ++ [.finalizeBlock])))
          = some (.building since') := hsince
      rw [hb] at this
      cases this
    obtain rfl : since' = since := by
      have : some (publishedAs since (env.finalizeBlock (n.trace ++ [.finalizeBlock])))
          = some (.building since') := hsince
      cases hb : env.finalizeBlock (n.trace ++ [.finalizeBlock]) with
      | ok b => exact absurd ⟨b, hb⟩ hfailed
      | error err =>
        rw [hb] at this
        exact (LeaderState.building.inj (Option.some.inj this)).symm
    refine ⟨u, ⟨hu.begun.append (by simp), fun w hw => ?_⟩, hnow⟩
    rw [htrace, publishedAt_snoc] at hw
    exact hu.latest w (hw.resolve_right fun hw => hfailed hw.2.2)
  · by_cases hlast : w = n.trace
    · refine ⟨u, x, hbefore, hlast.trans ht, ?_, fun w' hw' hlt => ?_⟩
      · rw [← h.same, ← hnow]
        exact hdue
      · rcases hpub w' hw' with hw' | rfl
        · exact hu.latest w' hw'
        · exact absurd hlt (by rw [hlast]; exact lt_irrefl _)
    · have hold := (hpub w hw).resolve_right hlast
      obtain ⟨u', x', hdue'⟩ := h.due w hold
      refine ⟨u', x', hdue'.begun, hdue'.asked, hdue'.due, fun w' hw' hlt => ?_⟩
      refine hdue'.latest w' ((hpub w' hw').resolve_right fun hw' => ?_) hlt
      -- the new one is behind all the others
      have hlen : w.length + 1 ≤ n.trace.length := by simpa using hold.1.length_le
      rw [hw'] at hlt
      omega

section
variable [StorageExt S] [Protobuf] {env : Env} {period : Nat}

theorem paced_stable : Stable env (Paced env period : Node S → Prop) := by
  intro n n' hact hn
  cases hact with
  | note o ho hp =>
    refine hn.add (fun q h => ?_) fun h => ?_
    · subst h
      exact ho
    · subst h
      exact ho
  | roles l f hl =>
    exact hn.of_same rfl (fun _ hu => hu) (fun _ => Iff.rfl) fun since h => (hl since h).symm
  | announce block hp =>
    have := hn.add (o := .blockNew block) (by simp) (by simp)
    exact ⟨this.same, this.building, this.due⟩
  | validate b hp =>
    have := hn.add (o := .blockValid b) (by simp) (by simp)
    exact ⟨this.same, this.building, this.due⟩
  | confirm b i q u ht hb hq hp =>
    have hadd := hn.add (o := .setApplied i) (by simp) (by simp)
    have := hadd.files (StorageExt.setApplied n.store i)
    exact ⟨this.same, this.building, this.due⟩
  | build hp => exact hn.begun
  | summarize since hl hdue hp => exact hn.add (by simp) (by simp)
  | finalize since u hl ht hdue hp => exact hn.finalized hl ht hdue
  | persist o ho round phase rest hp hphase => exact hn.files o
  | send msg peerId hmsg hpeer => exact hn.add (by simp) (by simp)
  | skip e he hp => exact hn.add (by simp) (by simp)
  | take e he hp =>
    have := hn.add (o := .entry e) (by simp) (by simp)
    exact ⟨this.same, this.building, this.due⟩
  | reconfigure peers change hchange hp => exact hn.add (by simp) (by simp)
  | peers n' change e u ht he hparse h hp =>
    have happlied := hn.add (o := .applyConfChange change) (by simp) (by simp)
    cases h with
    | add => exact ⟨happlied.same, happlied.building, happlied.due⟩
    | remove => exact ⟨happlied.same, happlied.building, happlied.due⟩
    | learner => exact happlied
  | commit b hb hp => exact hn.add (by simp) (by simp)

variable [Formats]

/-- With a clock that does not go back during the run, every block that a node
publishes is asked for a full period after it was begun, and it is begun after the
publication before; so two publications are at least `period` apart. -/
theorem publications_spaced {node : Node S} (hnew : Sys.IsNew node) (inputs : List Input)
    (hclock : ∀ u v, u <+: v → v <+: ((Sys.start node).run env inputs).node.trace →
      env.now u ≤ env.now v) :
    let t := ((Sys.start node).run env inputs).node.trace
    (∀ w, PublishedAt env t w → ∃ u x, DueAt env node.period t w u x) ∧
      ∀ w w', PublishedAt env t w → PublishedAt env t w' → w.length < w'.length →
        env.now w + node.period ≤ env.now w' := by
  intro t
  have hnode : Paced env node.period node := by
    obtain ⟨_, _, _, _, ops, hnode⟩ := hnew
    obtain ⟨_, rfl⟩ := new_eq hnode
    refine ⟨rfl, fun since h => absurd h (by simp), fun w hw => ?_⟩
    have hw : PublishedAt env ([] ++ ops.map Obs.file) w := hw
    rw [publishedAt_files] at hw
    exact absurd (List.prefix_nil.mp hw.1) (by simp)
  have hrun := run_stable_node paced_stable hnew hnode inputs
  refine ⟨hrun.due, fun w w' hw hw' hlt => ?_⟩
  obtain ⟨u, x, hdue⟩ := hrun.due w' hw'
  -- the first is out before the second is begun
  have hbefore : w <+: u := (List.prefix_append ..).trans (hdue.latest w hw hlt)
  have hux : u <+: x := hdue.begun.prefix
  have hxw' : x <+: w' := hdue.asked ▸ List.prefix_append ..
  have hw't : w' <+: t := (List.prefix_append ..).trans hw'.1
  have h₁ : env.now w ≤ env.now u := hclock w u hbefore (hux.trans (hxw'.trans hw't))
  have h₂ : env.now u ≤ env.now x := hclock u x hux (hxw'.trans hw't)
  have h₃ : env.now x ≤ env.now w' := hclock x w' hxw' hw't
  have := hdue.due
  omega

end

end Node

namespace Node

open scoped Proto3 PlainFormats

/-- A new node with a period of 3. -/
def patient : Except Panic (Node FsStorage) :=
  Node.new (peerOf 1) ⟨fun _ => none⟩ [peerOf 1, peerOf 2] 3 ([].map Obs.file)

theorem patient_isNew {node : Node FsStorage} (h : patient = .ok node) : Sys.IsNew node :=
  ⟨_, _, _, _, [], h⟩

/-- A leader publishes a block, sees it committed and publishes the next. -/
def twoPublications : List Input :=
  [.processReady (some { isLeader := true }), .tick, .blockValid [8],
    .processReady (some { isLeader := true, ready :=
      { committedEntries := some [{ term := 2, index := 3, data := [8] }] } }),
    .blockCommit [8], .tick, .tick]

/-- The calls of `finalize_block` are the sixth and the twenty-first thing to
happen, with a clock that counts. -/
theorem publications_spaced_twoBlocks : ∃ node : Node FsStorage, patient = .ok node ∧
    let env := Env.obliging [8] fun _ => twoPeersSetting
    let t := ((Sys.start node).run env twoPublications).node.trace
    PublishedAt env t (t.take 5) ∧ PublishedAt env t (t.take 20) ∧
      (∃ u x, DueAt env 3 t (t.take 20) u x) ∧ env.now (t.take 5) + 3 ≤ env.now (t.take 20) := by
  refine ⟨_, rfl, ?_⟩
  intro env t
  have hw : PublishedAt env t (t.take 5) := ⟨by decide +kernel, [8], rfl⟩
  have hw' : PublishedAt env t (t.take 20) := ⟨by decide +kernel, [8], rfl⟩
  obtain ⟨hdue, hspaced⟩ := @publications_spaced _ _ _ env _ _ (patient_isNew rfl)
    twoPublications fun u v huv _ => huv.length_le
  exact ⟨hw, hw', hdue _ hw', hspaced _ _ hw hw' (by decide +kernel)⟩

end Node

end SawtoothRaft
