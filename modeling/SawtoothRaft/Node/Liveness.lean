import SawtoothRaft.Node.Backlog

/-!
# Every delivered block is applied in the end

The other results say what never happens. This one says what must: along an
endless run that is fair, every block that Raft delivers is committed, confirmed
and stored as applied. Fair means that the validator does its part (it reports
every block as valid and every commit as done) and that Raft goes on showing
rounds in which the node is free to commit what comes next. Every round of a
follower is of that kind.

There is no need to follow the handlers. With the books balanced, the state of a
block can be read off three numbers that only grow, the blocks delivered, passed
to `commit_block` and applied: the block in front is the first delivered one that
is not applied, and it is being committed as long as the second number is ahead
of the third.
-/

namespace SawtoothRaft

open Lib

/-! ## The books only grow -/

/-- Later books. -/
structure Books.Extends (bk bk' : Books) : Prop where
  delivered : bk.delivered <+: bk'.delivered
  commits : bk.commits <+: bk'.commits
  applied : bk.applied <+: bk'.applied

theorem Books.extends_record (bk : Books) (o : Obs) : bk.Extends (bk.record o) := by
  cases o with
  | entry e =>
    refine ⟨?_, List.prefix_refl _, List.prefix_refl _⟩
    rw [Books.delivered_entry]
    exact List.prefix_append ..
  | commitBlock b => exact ⟨List.prefix_refl _, List.prefix_append .., List.prefix_refl _⟩
  | setApplied i => exact ⟨List.prefix_refl _, List.prefix_refl _, List.prefix_append ..⟩
  | _ => exact ⟨List.prefix_refl _, List.prefix_refl _, List.prefix_refl _⟩

theorem books_extends {t t' : List Obs} (h : t <+: t') : (books t).Extends (books t') := by
  obtain ⟨w, rfl⟩ := h
  induction w using List.reverseRecOn with
  | nil =>
    rw [List.append_nil]
    exact ⟨List.prefix_refl _, List.prefix_refl _, List.prefix_refl _⟩
  | append_singleton w o ih =>
    rw [← List.append_assoc, books_snoc]
    have h := Books.extends_record (books (t ++ w)) o
    exact ⟨ih.delivered.trans h.delivered, ih.commits.trans h.commits, ih.applied.trans h.applied⟩

/-- As long as nothing more is applied, nothing more is confirmed. -/
theorem SinceConfirmed.extend {b : BlockId} {p : Obs → Prop} {t t' : List Obs}
    (h : SinceConfirmed b p t) (ht : t <+: t')
    (happlied : (books t').applied.length = (books t).applied.length) : SinceConfirmed b p t' := by
  obtain ⟨w, rfl⟩ := ht
  induction w using List.reverseRecOn with
  | nil => rwa [List.append_nil]
  | append_singleton w o ih =>
    rw [← List.append_assoc] at happlied ⊢
    have h₁ := (books_extends (List.prefix_append t w)).applied.length_le
    have h₂ := (books_extends (List.prefix_append (t ++ w) [o])).applied.length_le
    have ho : ∀ i, o ≠ .setApplied i := by
      intro i hi
      rw [hi, books_snoc] at happlied
      have : (books (t ++ w)).applied.length + 1 = (books t).applied.length := by
        simpa [Books.record] using happlied
      omega
    exact (sinceConfirmed_snoc ho).mpr (Or.inr (ih (by omega)))

namespace Node

variable {S : Type}

/-- The first delivered block that is not applied. -/
theorem Kept.front_eq {c : Option BlockId} {n : Node S} (h : Kept c n) :
    n.blockQueue.commitQueue
      = (books n.trace).delivered.drop (books n.trace).applied.length := by
  obtain ⟨popped, hbal⟩ := h.balanced
  rw [hbal.delivered, hbal.applied, List.length_map, List.drop_left]

theorem Kept.committing_iff {c : Option BlockId} {n : Node S} (h : Kept c n) :
    c ≠ none ↔ (books n.trace).applied.length < (books n.trace).commits.length := by
  obtain ⟨popped, hbal⟩ := h.balanced
  rw [hbal.applied, hbal.commits]
  cases c with
  | none => simp
  | some b => simp

section
variable [StorageExt S] [Protobuf] [Formats] {env : Env}

/-! ## Endless runs -/

/-- The system after the first `k` inputs. -/
def runTo (env : Env) (node : Node S) (inputs : Nat → Input) (k : Nat) : Sys S :=
  (Sys.start node).run env ((List.range k).map inputs)

theorem runTo_succ (node : Node S) (inputs : Nat → Input) (k : Nat) :
    runTo env node inputs (k + 1) = (runTo env node inputs k).step env (inputs k) := by
  unfold runTo Sys.run
  rw [List.range_succ, List.map_append, List.foldl_append]
  rfl

/-- A run that does not stop, in which the validator and Raft do their part. -/
structure Fair (env : Env) (node : Node S) (inputs : Nat → Input) : Prop where
  running : ∀ k, (runTo env node inputs k).status = .running
  /-- Every block in the queue is valid or will be reported so. -/
  validated : ∀ k, ∀ p ∈ (runTo env node inputs k).node.blockQueue.commitQueue,
    (runTo env node inputs k).node.blockQueue.isValid p.1 = true ∨
      ∃ j, k ≤ j ∧ inputs j = .blockValid p.1
  /-- There is always another round in which the node may commit what is next. -/
  served : ∀ k, ∃ j round, k ≤ j ∧ inputs j = .processReady (some round) ∧
    Served (runTo env node inputs j).node round
  /-- A block that is being committed will be reported as committed. -/
  confirmed : ∀ k b, IsCommitting (runTo env node inputs k).node b →
    ∃ j, k ≤ j ∧ inputs j = .blockCommit b

variable {node : Node S} {inputs : Nat → Input}

theorem runTo_sat (hnew : Sys.IsNew node) (k : Nat) :
    (runTo env node inputs k).Sat Good Stopped :=
  reachable_good ⟨env, _, node, hnew, rfl⟩

theorem Fair.good (h : Fair env node inputs) (hnew : Sys.IsNew node) (k : Nat) :
    Good (runTo env node inputs k).node := by
  have hsat : (runTo env node inputs k).Sat Good Stopped := runTo_sat hnew k
  unfold Sys.Sat at hsat
  rwa [h.running k] at hsat

theorem runTo_grows (hnew : Sys.IsNew node) {k j : Nat} (hkj : k ≤ j) :
    (runTo env node inputs k).node.trace <+: (runTo env node inputs j).node.trace := by
  obtain ⟨d, rfl⟩ := Nat.exists_eq_add_of_le hkj
  have hsplit : runTo env node inputs (k + d)
      = (runTo env node inputs k).run env ((List.range d).map fun i => inputs (k + i)) := by
    unfold runTo Sys.run
    rw [← List.foldl_append, List.range_add, List.map_append, List.map_map]
    rfl
  rw [hsplit]
  exact run_closed_from (prefix_closed _) (runTo_sat hnew k) (List.prefix_refl _) _

theorem runTo_remembers (hnew : Sys.IsNew node) (k : Nat) :
    Remembers (runTo env node inputs k).node.blockQueue (runTo env node inputs k).node.trace :=
  run_stable_node remembers_stable hnew (new_remembers hnew) _

/-- The number of blocks applied so far. -/
def appliedBy (env : Env) (node : Node S) (inputs : Nat → Input) (k : Nat) : Nat :=
  (books (runTo env node inputs k).node.trace).applied.length

theorem appliedBy_mono (hnew : Sys.IsNew node) {k j : Nat} (hkj : k ≤ j) :
    appliedBy env node inputs k ≤ appliedBy env node inputs j :=
  (books_extends (runTo_grows hnew hkj)).applied.length_le

/-! ## As long as nothing more is applied -/

section
variable {k j : Nat} {b : BlockId} (h : Fair env node inputs) (hnew : Sys.IsNew node) (hkj : k ≤ j)
  (hsame : appliedBy env node inputs j = appliedBy env node inputs k)
include h hnew hkj hsame

/-- The queue only gets longer. -/
theorem queue_of_same : (runTo env node inputs k).node.blockQueue.commitQueue <+:
    (runTo env node inputs j).node.blockQueue.commitQueue := by
  obtain ⟨_, _, -, hk⟩ := h.good hnew k
  obtain ⟨_, _, -, hj⟩ := h.good hnew j
  have hgrows : (books (runTo env node inputs k).node.trace).Extends
      (books (runTo env node inputs j).node.trace) := books_extends (runTo_grows hnew hkj)
  rw [hk.rest.front_eq, hj.rest.front_eq]
  change appliedBy env node inputs j = _ at hsame
  unfold appliedBy at hsame
  rw [hsame]
  exact hgrows.delivered.drop _

omit h in
/-- What is valid stays so. -/
theorem valid_of_same (hv : (runTo env node inputs k).node.blockQueue.isValid b = true) :
    (runTo env node inputs j).node.blockQueue.isValid b = true := by
  rw [(runTo_remembers hnew _).valid] at hv ⊢
  exact hv.extend (runTo_grows hnew hkj) hsame

/-- What is being committed goes on being committed. -/
theorem committing_of_same (hc : IsCommitting (runTo env node inputs k).node b) :
    IsCommitting (runTo env node inputs j).node b := by
  obtain ⟨lk, fk, hrk, rfl, rfl, hk⟩ := h.good hnew k
  obtain ⟨lj, fj, hrj, rfl, rfl, hj⟩ := h.good hnew j
  have hck := (committingOf_eq_some hrk).mpr hc
  have hgrows : (books (runTo env node inputs k).node.trace).Extends
      (books (runTo env node inputs j).node.trace) := books_extends (runTo_grows hnew hkj)
  unfold appliedBy at hsame
  -- some block is being committed, and it is the one in front
  have hlt := hk.committing_iff.mp (by rw [hck]; simp)
  have hlt' : (books (runTo env node inputs j).node.trace).applied.length
      < (books (runTo env node inputs j).node.trace).commits.length := by
    rw [hsame]
    exact hlt.trans_le hgrows.commits.length_le
  obtain ⟨c, hcj⟩ := Option.ne_none_iff_exists'.mp (hj.committing_iff.mpr hlt')
  obtain ⟨⟨i, rest, hqk⟩, -⟩ := BlockQueue.getNextCommittable_eq_some.mp (hk.front b hck)
  obtain ⟨⟨i', rest', hqj⟩, -⟩ := BlockQueue.getNextCommittable_eq_some.mp (hj.front c hcj)
  have hprefix := queue_of_same h hnew hkj hsame
  rw [hqk, hqj] at hprefix
  obtain rfl : b = c := congrArg Prod.fst (List.cons_prefix_cons.mp hprefix).1
  exact (committingOf_eq_some hrj).mp hcj

end

/-! ## Eventually -/

/-- The step that a given input makes, in a run that goes on. -/
theorem runTo_step (hrunning : ∀ k, (runTo env node inputs k).status = .running) {j : Nat}
    {i : Input} (hi : inputs j = i) {J : Node S → Prop}
    (hj : Triple (fun n => n = (runTo env node inputs j).node) (handle env i)
      (Sys.Leaves J fun _ _ => True) (fun _ _ => True)) :
    J (runTo env node inputs (j + 1)).node := by
  have hrun := hrunning (j + 1)
  have hbefore := hrunning j
  rw [runTo_succ, hi] at hrun ⊢
  have hsat := Sys.sat_step (I := fun n => n = (runTo env node inputs j).node) (J := J)
    (K := fun _ _ => True) (s := runTo env node inputs j) (i := i) hj (fun _ hn => hn) (by
      unfold Sys.Sat
      rw [hbefore])
  unfold Sys.Sat at hsat
  rwa [hrun] at hsat

theorem Fair.step (h : Fair env node inputs) {j : Nat} {i : Input}
    (hi : inputs j = i) {J : Node S → Prop}
    (hj : Triple (fun n => n = (runTo env node inputs j).node) (handle env i)
      (fun _ => J) (fun _ _ => True)) : J (runTo env node inputs (j + 1)).node := by
  refine runTo_step h.running hi (hj.conseq (fun _ hn => hn) (fun status _ hn => ?_)
    (fun _ _ hn => hn))
  cases status with
  | Continue => exact hn
  | Shutdown => trivial

/-- The last number of a pair of moments is larger, or has stayed the same. -/
theorem applied_or_same (hnew : Sys.IsNew node) {k j : Nat} (hkj : k ≤ j) :
    appliedBy env node inputs k < appliedBy env node inputs j ∨
      appliedBy env node inputs j = appliedBy env node inputs k := by
  have hmono : appliedBy env node inputs k ≤ appliedBy env node inputs j := appliedBy_mono hnew hkj
  omega

/-- A report of a valid block goes into the trace. -/
theorem blockValid_reports (n : Node S) (b : BlockId) :
    Triple (fun n' => n' = n) (handle env (.blockValid b))
      (fun _ n' => n.trace ++ [.blockValid b] <+: n'.trace) (fun _ _ => True) := by
  have htame : Tame (fun n' : Node S => n.trace ++ [.blockValid b] <+: n'.trace) :=
    (prefix_closed _).toSteady.tame
  have hvalid : Triple (At n.leaderState n.followerState fun n' => n' = n) (onBlockValid env b)
      (fun _ n' => ∃ l', Progress n.leaderState l' ∧ At l' n.followerState
        (fun n' => n.trace ++ [.blockValid b] <+: n'.trace) n') (fun _ _ => True) := by
    refine onBlockValid_at htame (fun _ _ _ _ => trivial) fun n' hn => ?_
    rw [hn]
    exact List.prefix_refl _
  refine Triple.bind (hvalid.pre fun n' hn => ?_) fun _ => Triple.pure fun n' hn => ?_
  · rw [hn]
    exact ⟨rfl, rfl, rfl⟩
  · obtain ⟨l', -, hn⟩ := hn
    exact hn.rest

section
variable (h : Fair env node inputs) (hnew : Sys.IsNew node) {k : Nat} {b : BlockId}
include h hnew

/-- The block in front is applied or turns out valid. -/
theorem eventually_valid {i : Nat} {rest : List (BlockId × Nat)}
    (hq : (runTo env node inputs k).node.blockQueue.commitQueue = (b, i) :: rest) :
    ∃ j, k ≤ j ∧ (appliedBy env node inputs k < appliedBy env node inputs j ∨
      appliedBy env node inputs j = appliedBy env node inputs k ∧
        (runTo env node inputs j).node.blockQueue.isValid b = true) := by
  rcases h.validated k (b, i) (by rw [hq]; exact List.mem_cons_self ..) with hv | ⟨j, hkj, hj⟩
  · exact ⟨k, le_refl k, Or.inr ⟨rfl, hv⟩⟩
  · -- the report is in the trace after the step, and counts until the block is applied
    have hreport : (runTo env node inputs j).node.trace ++ [.blockValid b]
        <+: (runTo env node inputs (j + 1)).node.trace :=
      h.step hj (blockValid_reports _ b)
    refine ⟨j + 1, by omega, ?_⟩
    have hkj' : appliedBy env node inputs k ≤ appliedBy env node inputs j := appliedBy_mono hnew hkj
    have hstep := (books_extends hreport).applied.length_le
    rw [books_snoc] at hstep
    change appliedBy env node inputs j ≤ appliedBy env node inputs (j + 1) at hstep
    rcases Nat.lt_or_ge (appliedBy env node inputs k) (appliedBy env node inputs (j + 1))
      with hlt | hge
    · exact Or.inl hlt
    · refine Or.inr ⟨by omega, ((runTo_remembers hnew _).valid b).mpr ?_⟩
      have hnow : SinceConfirmed b (Validates b)
          ((runTo env node inputs j).node.trace ++ [.blockValid b]) :=
        (sinceConfirmed_snoc (by simp)).mpr (Or.inl rfl)
      refine hnow.extend hreport ?_
      rw [books_snoc]
      show appliedBy env node inputs (j + 1) = appliedBy env node inputs j
      omega

/-- A valid block in front is applied, or the node commits it in the next round
in which it is free to. -/
theorem eventually_committing {i : Nat} {rest : List (BlockId × Nat)}
    (hq : (runTo env node inputs k).node.blockQueue.commitQueue = (b, i) :: rest)
    (hv : (runTo env node inputs k).node.blockQueue.isValid b = true) :
    ∃ j, k ≤ j ∧ (appliedBy env node inputs k < appliedBy env node inputs j ∨
      appliedBy env node inputs j = appliedBy env node inputs k ∧
        IsCommitting (runTo env node inputs j).node b) := by
  obtain ⟨j, round, hkj, hj, hserved⟩ := h.served k
  refine ⟨j + 1, by omega, ?_⟩
  have hkj₁ : k ≤ j + 1 := hkj.trans (Nat.le_succ j)
  have hcases : appliedBy env node inputs k < appliedBy env node inputs (j + 1) ∨ _ :=
    applied_or_same hnew hkj₁
  rcases hcases with hlt | hsame
  · exact Or.inl hlt
  · refine Or.inr ⟨hsame, ?_⟩
    -- the block is still in front after the round, and still valid
    obtain ⟨w, hw⟩ := queue_of_same h hnew hkj₁ hsame
    have hnext : (runTo env node inputs (j + 1)).node.blockQueue.getNextCommittable = some b := by
      refine BlockQueue.getNextCommittable_eq_some.mpr ⟨⟨i, rest ++ w, ?_⟩,
        valid_of_same hnew hkj₁ hsame hv⟩
      rw [← hw, hq]
      rfl
    have hattends : Attends env (runTo env node inputs j) (.processReady (some round)) :=
      (attends_iff_servedRound (runTo_sat hnew j) _).mpr fun _ _ => hserved
    have hrun := h.running (j + 1)
    rw [runTo_succ, hj] at hrun hnext ⊢
    exact hattends (h.running j) hrun b hnext

/-- A block that is being committed is applied. -/
theorem eventually_applied (hc : IsCommitting (runTo env node inputs k).node b) :
    ∃ j, k ≤ j ∧ appliedBy env node inputs k < appliedBy env node inputs j := by
  obtain ⟨j, hkj, hj⟩ := h.confirmed k b hc
  refine ⟨j + 1, by omega, ?_⟩
  have hcases : appliedBy env node inputs k < appliedBy env node inputs j ∨ _ :=
    applied_or_same hnew hkj
  rcases hcases with hlt | hsame
  · exact hlt.trans_le (appliedBy_mono hnew (Nat.le_succ j))
  · have hcj : IsCommitting (runTo env node inputs j).node b :=
      committing_of_same h hnew hkj hsame hc
    obtain ⟨l, f, hr, rfl, rfl, hkept⟩ := h.good hnew j
    obtain ⟨⟨i, rest, hq⟩, -⟩ := BlockQueue.getNextCommittable_eq_some.mp
      (hkept.front b ((committingOf_eq_some hr).mpr hcj))
    have hnotified : (books (runTo env node inputs (j + 1)).node.trace).applied
        = (books (runTo env node inputs j).node.trace).applied ++ [i] := by
      refine h.step hj (J := fun n => (books n.trace).applied = _) ?_
      refine Triple.bind ((notified_of_committing hr hcj hq).conseq (fun _ hn => hn)
        (fun _ _ hn => hn.2) (fun _ _ _ => trivial)) fun _ => Triple.pure fun _ hn => hn
    rw [← hsame]
    unfold appliedBy
    rw [hnotified]
    simp

/-- Whatever is in front is applied. -/
theorem eventually_progress (hq : (runTo env node inputs k).node.blockQueue.commitQueue ≠ []) :
    ∃ j, k ≤ j ∧ appliedBy env node inputs k < appliedBy env node inputs j := by
  obtain ⟨⟨b, i⟩, rest, hq⟩ := List.exists_cons_of_ne_nil hq
  obtain ⟨j₁, hj₁, hlt | ⟨hsame₁, hv⟩⟩ := eventually_valid h hnew hq
  · exact ⟨j₁, hj₁, hlt⟩
  obtain ⟨w, hw⟩ := queue_of_same h hnew hj₁ hsame₁
  rw [hq] at hw
  obtain ⟨j₂, hj₂, hlt | ⟨hsame₂, hc⟩⟩ := eventually_committing h hnew hw.symm hv
  · exact ⟨j₂, hj₁.trans hj₂, hsame₁ ▸ hlt⟩
  obtain ⟨j₃, hj₃, hlt⟩ := eventually_applied h hnew hc
  exact ⟨j₃, (hj₁.trans hj₂).trans hj₃, by omega⟩

end

/-- By then, as many blocks are applied as had been delivered. -/
theorem eventually_caught_up (h : Fair env node inputs) (hnew : Sys.IsNew node) (k : Nat) :
    ∃ j, k ≤ j ∧ (books (runTo env node inputs k).node.trace).delivered.length
      ≤ appliedBy env node inputs j := by
  generalize hD : (books (runTo env node inputs k).node.trace).delivered.length = D
  -- the number of blocks that are left goes down
  suffices hleft : ∀ m j, k ≤ j → D - appliedBy env node inputs j ≤ m →
      ∃ j', k ≤ j' ∧ D ≤ appliedBy env node inputs j' from hleft _ k (le_refl k) (le_refl _)
  intro m
  induction m with
  | zero => exact fun j hkj hm => ⟨j, hkj, by omega⟩
  | succ m ih =>
    intro j hkj hm
    rcases Nat.lt_or_ge (appliedBy env node inputs j) D with hlt | hge
    · have hq : (runTo env node inputs j).node.blockQueue.commitQueue ≠ [] := by
        obtain ⟨_, _, -, hkept⟩ := h.good hnew j
        have hgrows : (books (runTo env node inputs k).node.trace).Extends
            (books (runTo env node inputs j).node.trace) := books_extends (runTo_grows hnew hkj)
        have hlen := hgrows.delivered.length_le
        rw [hkept.rest.front_eq, ne_eq, List.drop_eq_nil_iff, not_le]
        change appliedBy env node inputs j < _
        omega
      obtain ⟨j', hjj', hmore⟩ := eventually_progress h hnew hq
      exact ih j' (hkj.trans hjj') (by omega)
    · exact ⟨j, hkj, hge⟩

/-- Along a fair run every block that has been delivered is passed to
`commit_block` and its index to `set_applied`, in the order of delivery. -/
theorem delivered_applied (hnew : Sys.IsNew node) (h : Fair env node inputs) (k : Nat) :
    ∃ j, k ≤ j ∧
      (books (runTo env node inputs k).node.trace).delivered.map (·.1)
        <+: (books (runTo env node inputs j).node.trace).commits ∧
      (books (runTo env node inputs k).node.trace).delivered.map (·.2)
        <+: (books (runTo env node inputs j).node.trace).applied := by
  obtain ⟨j, hkj, hcount⟩ := eventually_caught_up h hnew k
  refine ⟨j, hkj, ?_⟩
  obtain ⟨_, _, -, hkept⟩ := h.good hnew j
  obtain ⟨popped, hbal⟩ := hkept.rest.balanced
  have hgrows : (books (runTo env node inputs k).node.trace).Extends
      (books (runTo env node inputs j).node.trace) := books_extends (runTo_grows hnew hkj)
  have hpopped : (books (runTo env node inputs k).node.trace).delivered <+: popped := by
    refine List.prefix_of_prefix_length_le hgrows.delivered ?_ ?_
    · rw [hbal.delivered]
      exact List.prefix_append ..
    · rwa [appliedBy, hbal.applied, List.length_map] at hcount
  rw [hbal.commits, hbal.applied]
  exact ⟨(hpopped.map _).trans (List.prefix_append ..), hpopped.map _⟩

end

end Node

/-! ## A run that is fair -/

namespace Node

/-- The validator finds the block of an entry valid, the entry is delivered and
the block is committed. After that there are only empty rounds. -/
def oneBlock (e : Entry) : Nat → Input
  | 0 => .blockValid e.data
  | 1 => .processReady (some { isLeader := false, ready := { committedEntries := some [e] } })
  | 2 => .blockCommit e.data
  | _ => .processReady (some { isLeader := false })

/-- A follower with nothing to do. -/
structure AtRest {S : Type} (s : Sys S) : Prop where
  status : s.status = .running
  leader : s.node.leaderState = none
  follower : s.node.followerState = some .idle
  queue : s.node.blockQueue.commitQueue = []

instance {S : Type} (s : Sys S) : Decidable (AtRest s) :=
  decidable_of_iff (s.status = .running ∧ s.node.leaderState = none ∧
      s.node.followerState = some .idle ∧ s.node.blockQueue.commitQueue = [])
    ⟨fun h => ⟨h.1, h.2.1, h.2.2.1, h.2.2.2⟩, fun h => ⟨h.status, h.leader, h.follower, h.queue⟩⟩

/-- A follower that is committing the only block it has. -/
structure AtWork {S : Type} (s : Sys S) (b : BlockId) : Prop where
  status : s.status = .running
  leader : s.node.leaderState = none
  follower : s.node.followerState = some (.committing b)
  queue : s.node.blockQueue.commitQueue.map (·.1) = [b]
  valid : s.node.blockQueue.isValid b = true

instance {S : Type} (s : Sys S) (b : BlockId) : Decidable (AtWork s b) :=
  decidable_of_iff (s.status = .running ∧ s.node.leaderState = none ∧
      s.node.followerState = some (.committing b) ∧
      s.node.blockQueue.commitQueue.map (·.1) = [b] ∧ s.node.blockQueue.isValid b = true)
    ⟨fun h => ⟨h.1, h.2.1, h.2.2.1, h.2.2.2.1, h.2.2.2.2⟩,
      fun h => ⟨h.status, h.leader, h.follower, h.queue, h.valid⟩⟩

section
variable {S : Type} [StorageExt S] [Protobuf] [Formats] {id : BlockId}
  {settings : BlockId → Settings}

theorem AtRest.step {s : Sys S} (h : AtRest s) :
    AtRest (s.step (Env.obliging id settings) (.processReady (some { isLeader := false }))) := by
  obtain ⟨⟨_, _, _, _, ⟨_, _⟩, _, _, _⟩, _⟩ := s
  obtain ⟨rfl, rfl, rfl, rfl⟩ := h
  exact ⟨rfl, rfl, rfl, rfl⟩

theorem AtRest.step_entries {s : Sys S} (h : AtRest s) :
    (books (s.step (Env.obliging id settings)
      (.processReady (some { isLeader := false }))).node.trace).entries
        = (books s.node.trace).entries := by
  obtain ⟨⟨_, _, _, _, ⟨_, _⟩, _, _, trace⟩, _⟩ := s
  obtain ⟨rfl, rfl, rfl, rfl⟩ := h
  show (books (trace ++ [.ready { isLeader := false }] ++ [.advance])).entries = _
  rw [books_snoc, books_snoc]
  rfl

/-- Once the block is confirmed, every round leaves the node at rest, and
nothing more is delivered. -/
theorem oneBlock_over {node : Node S} {e : Entry}
    (h : AtRest (runTo (Env.obliging id settings) node (oneBlock e) 3)) (d : Nat) :
    AtRest (runTo (Env.obliging id settings) node (oneBlock e) (d + 3)) ∧
      (books (runTo (Env.obliging id settings) node (oneBlock e) (d + 3)).node.trace).entries
        = (books (runTo (Env.obliging id settings) node (oneBlock e) 3).node.trace).entries := by
  induction d with
  | zero => exact ⟨by rwa [Nat.zero_add], by rw [Nat.zero_add]⟩
  | succ d ih =>
    rw [Nat.add_right_comm, runTo_succ]
    exact ⟨ih.1.step, ih.1.step_entries.trans ih.2⟩

theorem oneBlock_fair {node : Node S} {e : Entry}
    (hrest : ∀ k ∈ [0, 1, 3], AtRest (runTo (Env.obliging id settings) node (oneBlock e) k))
    (hwork : AtWork (runTo (Env.obliging id settings) node (oneBlock e) 2) e.data) :
    Fair (Env.obliging id settings) node (oneBlock e) := by
  have hrest' : ∀ k, k ≠ 2 → AtRest (runTo (Env.obliging id settings) node (oneBlock e) k) := by
    intro k hk
    rcases Nat.lt_or_ge k 3 with hlt | hge
    · exact hrest k (by simp; omega)
    · obtain ⟨d, rfl⟩ := Nat.exists_eq_add_of_le' hge
      exact (oneBlock_over (hrest 3 (by simp)) d).1
  refine ⟨fun k => ?_, fun k p hp => ?_, fun k => ?_, fun k b hb => ?_⟩
  · by_cases hk : k = 2
    · exact hk ▸ hwork.status
    · exact (hrest' k hk).status
  · by_cases hk : k = 2
    · subst hk
      have hp := List.mem_map_of_mem (f := (·.1)) hp
      rw [hwork.queue] at hp
      rw [List.mem_singleton.mp hp]
      exact Or.inl hwork.valid
    · rw [(hrest' k hk).queue] at hp
      cases hp
  · exact ⟨k + 3, { isLeader := false }, by omega, rfl, fun hleads => absurd hleads (by simp)⟩
  · by_cases hk : k = 2
    · subst hk
      rw [IsCommitting, hwork.leader, hwork.follower] at hb
      rcases hb with hb | hb
      · cases hb
      · obtain rfl := FollowerState.committing.inj (Option.some.inj hb)
        exact ⟨2, le_refl 2, rfl⟩
    · rw [IsCommitting, (hrest' k hk).leader, (hrest' k hk).follower] at hb
      exact absurd hb (by simp)

end

open scoped Proto3 PlainFormats

/-- The block is delivered with the second input. -/
theorem delivered_applied_oneBlock : ∃ node : Node FsStorage, twoPeers = .ok node ∧
    let env := Env.obliging [8] fun _ => twoPeersSetting
    let inputs := oneBlock { term := 2, index := 3, data := [7] }
    ∃ j, 2 ≤ j ∧ [[7]] <+: (books (runTo env node inputs j).node.trace).commits ∧
      [3] <+: (books (runTo env node inputs j).node.trace).applied := by
  obtain ⟨node, hnode⟩ : ∃ node, twoPeers = .ok node := ⟨_, rfl⟩
  refine ⟨node, hnode, ?_⟩
  have hfair : Fair (Env.obliging [8] fun _ => twoPeersSetting) node
      (oneBlock { term := 2, index := 3, data := [7] }) := by
    obtain rfl := Except.ok.inj (hnode.symm.trans (rfl : twoPeers = .ok _))
    exact oneBlock_fair (by decide +kernel) (by decide +kernel)
  obtain rfl := Except.ok.inj (hnode.symm.trans (rfl : twoPeers = .ok _))
  exact delivered_applied (twoPeers_isNew rfl) hfair 2

end Node

end SawtoothRaft
