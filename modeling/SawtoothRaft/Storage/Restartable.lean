import SawtoothRaft.Storage.Crash

/-!
# Directories that Raft can be restarted from

The constructor of the `raft` crate panics on a store whose hard state and
applied index do not fit its log. `Restartable` is what it relies on. `Sturdy`
is the form in which a log that was never compacted keeps it: the log begins at
1, ends at `last`, and is committed up to `commit`. Every single write of
`append`, `set_hardstate` and `set_applied` leads from a sturdy directory to a
sturdy one, given what Raft promises about the values written.

A directory is `Fresh` as long as its first opening has not been completed;
opening it makes it sturdy.
-/

namespace SawtoothRaft

open Lib

namespace FsStorage

variable [Protobuf]

structure Fits (d : Dir) (first last applied : Nat) (hs : HardState) : Prop where
  readFirst : readFirstIndex d = .ok first
  readLast : readLastIndex d = .ok last
  readApplied : readApplied d = .ok applied
  readHardState : readHardState d = .ok hs
  bounds : first ≤ last + 1
  entries : ∀ i, first ≤ i → i ≤ last → ∃ e, readEntry d i = .ok e ∧ e.index = i
  applied : applied ≤ hs.commit
  commit : hs.commit ≤ last

/-- Raft can be restarted from the directory. -/
def Restartable (d : Dir) : Prop := ∃ first last applied hs, Fits d first last applied hs

/-- What a file of a log from 1 to `last`, committed up to `commit`, holds. -/
def FileOk (commit last : Nat) (d : Dir) : FileName → Prop
  | .first => readFirstIndex d = .ok 1
  | .last => readLastIndex d = .ok last
  | .applied => ∃ applied, readApplied d = .ok applied ∧ applied ≤ commit
  | .hardstate => ∃ hs, readHardState d = .ok hs ∧ hs.commit = commit
  | .snapshot => ∃ s, readSnapshot d = .ok s
  | .entry i => 1 ≤ i → i ≤ last → ∃ e, readEntry d i = .ok e ∧ e.index = i
  | .term => True

structure Sturdy (commit last : Nat) (d : Dir) : Prop where
  file : ∀ name, FileOk commit last d name
  commit : commit ≤ last
  u64 : last < 2 ^ 64

section
variable {commit last : Nat} {d d' : Dir}

/-- Each part is about one file. -/
theorem FileOk.congr {name : FileName} (h : FileOk commit last d name) (heq : d' name = d name) :
    FileOk commit last d' name := by
  cases name with
  | first => exact (readU64_congr heq).trans h
  | last => exact (readU64_congr heq).trans h
  | applied =>
    obtain ⟨a, hread, ha⟩ := h
    exact ⟨a, (readU64_congr heq).trans hread, ha⟩
  | hardstate =>
    obtain ⟨hs, hread, hc⟩ := h
    exact ⟨hs, (readPb_congr heq).trans hread, hc⟩
  | snapshot =>
    obtain ⟨s, hread⟩ := h
    exact ⟨s, (readPb_congr heq).trans hread⟩
  | entry i =>
    intro hi hi'
    obtain ⟨e, hread, hidx⟩ := h hi hi'
    exact ⟨e, (readPb_congr heq).trans hread, hidx⟩
  | term => trivial

theorem Sturdy.reopened_eq (h : Sturdy commit last d) : reopened d = d := by
  obtain ⟨hs, hhs, -⟩ := h.file .hardstate
  obtain ⟨s, hsnap⟩ := h.file .snapshot
  have hread : readRaftState d = .ok { hardState := hs, confState := confStateOf s } := by
    unfold readRaftState readConfState
    rw [hhs, hsnap]
    rfl
  exact reopened_of_ok hread

theorem Sturdy.restartable (h : Sturdy commit last d) : Restartable (reopened d) := by
  rw [h.reopened_eq]
  obtain ⟨hs, hhs, hcommit⟩ := h.file .hardstate
  obtain ⟨applied, hread, happlied⟩ := h.file .applied
  refine ⟨1, last, applied, hs, h.file .first, h.file .last, hread, hhs, by omega,
    fun i => h.file (.entry i), ?_, ?_⟩
  · rwa [hcommit]
  · rw [hcommit]
    exact h.commit

/-! ## Single writes -/

/-- An operation on one file leaves the others as they are. -/
theorem FileOk.apply {op : FileOp} (h : ∀ name, name ≠ op.name → FileOk commit last d name)
    (hself : FileOk commit last (op.apply d) op.name) (name : FileName) :
    FileOk commit last (op.apply d) name := by
  by_cases hname : name = op.name
  · rw [hname]
    exact hself
  · exact (h name hname).congr (apply_of_ne (Ne.symm hname))

/-- An entry is written under its own index, whichever that is. -/
theorem Sturdy.writeEntry (h : Sturdy commit last d) (e : Entry) :
    Sturdy commit last ((writeEntryOp e).apply d) := by
  refine ⟨FileOk.apply (fun name _ => h.file name) fun _ _ => ?_, h.commit, h.u64⟩
  exact ⟨e, readPb_of_eq (apply_write_self ..), rfl⟩

theorem Sturdy.writeApplied (h : Sturdy commit last d) {applied : Nat} (ha : applied ≤ commit) :
    Sturdy commit last ((FileOp.write .applied (u64ToBytes applied)).apply d) := by
  refine ⟨FileOk.apply (fun name _ => h.file name) ?_, h.commit, h.u64⟩
  have hu64 : applied < 2 ^ 64 := Nat.lt_of_le_of_lt (Nat.le_trans ha h.commit) h.u64
  exact ⟨applied, readU64_of_eq (apply_write_self ..) hu64, ha⟩

/-- The log is committed further. -/
theorem Sturdy.writeHardState (h : Sturdy commit last d) {hs : HardState}
    (hge : commit ≤ hs.commit) (hle : hs.commit ≤ last) :
    Sturdy hs.commit last
      ((FileOp.write .hardstate (Protobuf.hardState.writeToBytes hs)).apply d) := by
  refine ⟨FileOk.apply (fun name hname => ?_) ?_, hle, h.u64⟩
  · cases name with
    | hardstate => exact absurd rfl hname
    | applied =>
      obtain ⟨a, hread, ha⟩ := h.file .applied
      exact ⟨a, hread, Nat.le_trans ha hge⟩
    | first => exact h.file .first
    | last => exact h.file .last
    | snapshot => exact h.file .snapshot
    | entry i => exact h.file (.entry i)
    | term => trivial
  · exact ⟨hs, readPb_of_eq (apply_write_self ..), rfl⟩

/-- The log gets a new end, up to which the entries have been written. -/
theorem Sturdy.writeLast (h : Sturdy commit last d) {last' : Nat} (hc : commit ≤ last')
    (hu64 : last' < 2 ^ 64)
    (hentries : ∀ i, 1 ≤ i → i ≤ last' → ∃ e, readEntry d i = .ok e ∧ e.index = i) :
    Sturdy commit last' ((FileOp.write .last (u64ToBytes last')).apply d) := by
  refine ⟨FileOk.apply (fun name hname => ?_) ?_, hc, hu64⟩
  · cases name with
    | last => exact absurd rfl hname
    | entry i => exact hentries i
    | first => exact h.file .first
    | applied => exact h.file .applied
    | hardstate => exact h.file .hardstate
    | snapshot => exact h.file .snapshot
    | term => trivial
  · exact readU64_of_eq (apply_write_self ..) hu64

/-! ## Appending -/

theorem Sturdy.writeEntries (h : Sturdy commit last d) (es : List Entry) :
    Sturdy commit last (replay d (es.map writeEntryOp)) := by
  induction es generalizing d with
  | nil => exact h
  | cons e es ih => exact ih (h.writeEntry e)

/-- The end of the log once `es` has been appended. -/
def lastAfter (last : Nat) (es : List Entry) : Nat :=
  match es.getLast? with
  | some e => e.index
  | none => last

/-- A batch that begins after what is committed, and no later than one past the
end of the log. -/
structure Batch (commit last : Nat) (es : List Entry) : Prop where
  contiguous : ∀ e ∈ es.head?, commit < e.index ∧ e.index ≤ last + 1 ∧ Contiguous e.index es
  u64 : ∀ e ∈ es, e.index < 2 ^ 64

/-- The whole batch. What was in the log after its last entry is no longer part
of it. -/
theorem Sturdy.append (h : Sturdy commit last d) {es : List Entry} (hes : Batch commit last es) :
    Sturdy commit (lastAfter last es) (replay d (appendOps es)) := by
  have hwritten := h.writeEntries es
  unfold appendOps lastOps lastAfter
  rw [replay_append]
  cases hlast : es.getLast? with
  | none => exact hwritten
  | some x =>
    dsimp only
    obtain ⟨e, hhead⟩ : ∃ e, es.head? = some e := by
      cases es with
      | nil => cases hlast
      | cons e es => exact ⟨e, rfl⟩
    obtain ⟨hcommit, hnext, hc⟩ := hes.contiguous e hhead
    -- the batch has the indices from that of `e` to that of `x`
    rw [List.getLast?_eq_getElem?] at hlast
    have hx := hc.index hlast
    have hlen : 0 < es.length := by
      have := (List.getElem?_eq_some_iff.mp hlast).1
      omega
    have hmem : x ∈ es := List.mem_of_getElem? hlast
    refine hwritten.writeLast (by omega) (hes.u64 x hmem) fun i hi hi' => ?_
    by_cases hbatch : e.index ≤ i
    · have hk : i - e.index < es.length := by omega
      refine ⟨es[i - e.index], ?_, ?_⟩
      · have := readEntry_writeEntries (d := d) hc (List.getElem?_eq_getElem hk)
        rwa [show e.index + (i - e.index) = i by omega] at this
      · rw [hc.index (List.getElem?_eq_getElem hk)]
        omega
    · exact hwritten.file (.entry i) hi (by omega)

/-- Every prefix of the writes leaves a sturdy directory. -/
theorem Sturdy.append_prefix (h : Sturdy commit last d) {es : List Entry}
    (hes : Batch commit last es) {ops : List FileOp} (hops : ops <+: appendOps es) :
    ∃ last', Sturdy commit last' (replay d ops) := by
  by_cases hall : ops = appendOps es
  · exact ⟨_, hall ▸ h.append hes⟩
  · -- without the very last write, only entries have been written
    refine ⟨last, ?_⟩
    have hlen : ops.length < (appendOps es).length :=
      Nat.lt_of_le_of_ne hops.length_le fun hlen => hall (hops.eq_of_length hlen)
    have hlast : (lastOps es).length ≤ 1 := by
      unfold lastOps
      split
      · simp
      · simp
    have hle : ops.length ≤ (es.map writeEntryOp).length := by
      unfold appendOps at hlen
      rw [List.length_append] at hlen
      omega
    have hpre : ops <+: es.map writeEntryOp :=
      List.prefix_of_prefix_length_le hops (List.prefix_append ..) hle
    have htake : ops = (es.take ops.length).map writeEntryOp := by
      rw [List.map_take]
      exact List.prefix_iff_eq_take.mp hpre
    rw [htake]
    exact h.writeEntries _

end

/-! ## The first opening -/

/-- The first opening of the directory has not been completed. -/
structure Fresh (d : Dir) : Prop where
  snapshot : d .snapshot = none
  hardState : d .hardstate = none ∨ d .hardstate = some (Protobuf.hardState.writeToBytes default)

theorem Fresh.missing {d : Dir} (h : Fresh d) : readRaftState d = .error .NotFound := by
  have hsnap : readSnapshot d = .error .NotFound := by
    unfold readSnapshot readPbFromFile fsRead
    rw [h.snapshot]
    rfl
  unfold readRaftState readConfState
  rw [hsnap]
  rcases h.hardState with hhs | hhs
  · unfold readHardState readPbFromFile fsRead
    rw [hhs]
    rfl
  · rw [show readHardState d = .ok default from readPb_of_eq hhs]
    rfl

theorem sturdy_initOps (d : Dir) : Sturdy 0 0 (replay d initOps) where
  file name := by
    cases name with
    | first => exact readU64_of_eq (n := 1) rfl (by omega)
    | last => exact readU64_of_eq (n := 0) rfl (by omega)
    | applied => exact ⟨0, readU64_of_eq (n := 0) rfl (by omega), Nat.le_refl 0⟩
    | hardstate => exact ⟨default, readPb_of_eq (m := default) rfl, rfl⟩
    | snapshot => exact ⟨default, readPb_of_eq (m := default) rfl⟩
    | entry i => exact fun hi hi' => absurd hi (by omega)
    | term => trivial
  commit := Nat.le_refl 0
  u64 := by omega

theorem Fresh.reopened_eq {d : Dir} (h : Fresh d) : reopened d = replay d initOps := by
  unfold reopened
  rw [@withDataDir_of_missing _ { dir := d, ops := [] } h.missing]
  rfl

/-- The initial writes but the last, which is that of the snapshot. -/
theorem Fresh.write {d : Dir} (h : Fresh d) {op : FileOp} (hop : op ∈ initOps.take 5) :
    Fresh (op.apply d) := by
  have hname : op.name ≠ .snapshot ∧ (op.name = .hardstate →
      op = .write .hardstate (Protobuf.hardState.writeToBytes default)) := by
    simp only [initOps, List.take_succ_cons, List.take_zero, List.mem_cons, List.not_mem_nil,
      or_false] at hop
    rcases hop with rfl | rfl | rfl | rfl | rfl
    all_goals simp [FileOp.name]
  refine ⟨(apply_of_ne hname.1).trans h.snapshot, ?_⟩
  by_cases hhs : op.name = .hardstate
  · rw [hname.2 hhs]
    exact Or.inr (apply_write_self ..)
  · rw [apply_of_ne hhs]
    exact h.hardState

theorem Fresh.writes {d : Dir} (h : Fresh d) {ops : List FileOp}
    (hops : ∀ op ∈ ops, op ∈ initOps.take 5) : Fresh (replay d ops) := by
  induction ops generalizing d with
  | nil => exact h
  | cons op ops ih =>
    obtain ⟨hop, hops⟩ := List.forall_mem_cons.mp hops
    exact ih (h.write hop) hops

/-- A fresh directory stays fresh up to the last of the initial writes. -/
theorem Fresh.opening {d : Dir} (h : Fresh d) {ops : List FileOp} (hops : ops <+: initOps) :
    Fresh (replay d ops) ∨ ops = initOps := by
  have hle := hops.length_le
  have hlen : (initOps : List FileOp).length = 6 := rfl
  by_cases hall : ops.length = 6
  · exact Or.inr (hops.eq_of_length (hall.trans hlen.symm))
  · have hpre : ops <+: initOps.take 5 := by
      refine List.prefix_of_prefix_length_le hops (List.take_prefix ..) ?_
      rw [List.length_take]
      omega
    exact Or.inl (h.writes fun op hop => hpre.subset hop)

end FsStorage

end SawtoothRaft
