import Mathlib.Logic.Relation
import SawtoothRaft.Storage.Restartable
import SawtoothRaft.Storage.Intact

/-!
# Opening a directory for the first time

`with_data_dir` initialises a directory unless it finds a hard state and a
snapshot in it. Of the six files it writes then, these are the last two, and
their contents are empty, so that there is nothing between creating the
snapshot and having written it. As long as the snapshot is not there, the next
call starts over; once it is there, so are the other five, complete. It does
not matter, therefore, how often the first opening is interrupted, nor where
(`opening_crash_safe`).

An interrupted write leaves any beginning of what was to be written.
-/

namespace SawtoothRaft

open Lib

/-- What is left of a list of operations that is interrupted, a write possibly
half-way. -/
def CutShort (ops cut : List FileOp) : Prop :=
  cut <+: ops ∨ ∃ before name payload part, before ++ [.write name payload] <+: ops ∧
    part <+: payload ∧ cut = before ++ [.write name part]

theorem cutShort_nil {cut : List FileOp} (h : CutShort [] cut) : cut = [] := by
  rcases h with h | ⟨before, name, payload, part, h, -, -⟩
  · exact List.prefix_nil.mp h
  · simp at h

/-- The files that are touched are the same. -/
theorem CutShort.name_ne {ops cut : List FileOp} (h : CutShort ops cut) {name : FileName}
    (hops : ∀ op ∈ ops, op.name ≠ name) : ∀ op ∈ cut, op.name ≠ name := by
  rcases h with h | ⟨before, n, payload, part, hpre, -, rfl⟩
  · exact fun op hop => hops op (h.subset hop)
  · intro op hop
    rcases List.mem_append.mp hop with hop | hop
    · exact hops op (hpre.subset (List.mem_append_left _ hop))
    · obtain rfl := List.mem_singleton.mp hop
      exact hops (.write n payload) (hpre.subset (by simp))

namespace FsStorage

variable [Protobuf]

/-- A call of `with_data_dir` on `d` that is interrupted leaves `d'`. -/
def Interrupted (d d' : Dir) : Prop :=
  ∃ fs cut, withDataDir { dir := d, ops := [] } = .ok () fs ∧ CutShort fs.ops cut ∧ d' = replay d cut

/-- The answers of a store that has not been used yet. -/
structure Unused (d : Dir) : Prop where
  firstIndex : FsStorage.firstIndex d = .ok 1
  lastIndex : FsStorage.lastIndex d = .ok 0
  applied : FsStorage.applied d = .ok 0
  term : FsStorage.term d 0 = .ok 0
  initialState : FsStorage.initialState d = .ok { hardState := default, confState := default }
  snapshot : FsStorage.snapshot d = .ok default

theorem unused_newStore : Unused newStore.dir where
  firstIndex := ioQuery_eq_ok.mpr (readU64_of_eq (n := 1) rfl (by omega))
  lastIndex := ioQuery_eq_ok.mpr (readU64_of_eq (n := 0) rfl (by omega))
  applied := ioQuery_eq_ok.mpr (readU64_of_eq (n := 0) rfl (by omega))
  term := term_zero (newStore_entry 0)
  initialState := by
    refine ioQuery_eq_ok.mpr (readRaftState_eq_ok.mpr ⟨readPb_of_eq rfl, default, ?_, rfl⟩)
    exact readPb_of_eq rfl
  snapshot := ioQuery_eq_ok.mpr (readPb_of_eq rfl)

/-! ## Interruptions -/

/-- A store that has been initialised is opened without a write. -/
theorem Intact.withDataDir {P : Entry → Prop} {d : Dir} (h : Intact P d) :
    withDataDir { dir := d, ops := [] } = .ok () { dir := d, ops := [] } := by
  refine withDataDir_of_not_missing ?_
  obtain ⟨hs, hhs⟩ := h.readHardState
  obtain ⟨s, hfile⟩ := h.snapshot
  have hsnap : readSnapshot d = .ok s := readPb_of_eq hfile
  have hstate : readRaftState d = .ok { hardState := hs, confState := confStateOf s } :=
    readRaftState_eq_ok.mpr ⟨hhs, s, hsnap, rfl⟩
  intro hmissing
  cases hstate.symm.trans hmissing

/-- What the initial writes leave depends on the entries only. -/
theorem replay_initOps {d : Dir} (h : ∀ i, d (.entry i) = none) :
    replay d initOps = newStore.dir := by
  funext name
  cases name with
  | entry i =>
    rw [newStore_entry, replay_of_ne (by simp [initOps, FileOp.name])]
    exact h i
  | _ => rfl

/-- Between two openings: the first has not been completed, or has been. -/
structure Opening (d : Dir) : Prop where
  entry : ∀ i, d (.entry i) = none
  stage : Fresh d ∨ d = newStore.dir

theorem Fresh.writeNumber {d : Dir} (h : Fresh d) {name : FileName} (hname : name.IsNumber)
    (part : Bytes) : Fresh ((FileOp.write name part).apply d) := by
  have hsnapshot : (FileOp.write name part).name ≠ .snapshot := by
    intro he
    subst he
    exact hname
  have hhardState : (FileOp.write name part).name ≠ .hardstate := by
    intro he
    subst he
    exact hname
  refine ⟨(apply_of_ne hsnapshot).trans h.snapshot, ?_⟩
  rw [apply_of_ne hhardState]
  exact h.hardState

section
variable (hhs : Protobuf.hardState.writeToBytes default = [])
  (hsnap : Protobuf.snapshot.writeToBytes default = [])
include hhs hsnap

/-- The initial writes that are not empty are those of the numbers. -/
theorem initOps_payload {name : FileName} {payload : Bytes}
    (h : FileOp.write name payload ∈ initOps) : name.IsNumber ∨ payload = [] := by
  simp only [initOps, hhs, hsnap, List.mem_cons, FileOp.write.injEq, List.not_mem_nil,
    or_false] at h
  rcases h with ⟨rfl, -⟩ | ⟨rfl, -⟩ | ⟨rfl, -⟩ | ⟨rfl, -⟩ | ⟨-, rfl⟩ | ⟨-, rfl⟩
  · exact Or.inl trivial
  · exact Or.inl trivial
  · exact Or.inl trivial
  · exact Or.inl trivial
  · exact Or.inr rfl
  · exact Or.inr rfl

/-- However the initial writes are interrupted, the directory is as fresh as
before, or they are complete. -/
theorem Fresh.cutShort {d : Dir} (h : Fresh d) {cut : List FileOp} (hcut : CutShort initOps cut) :
    Fresh (replay d cut) ∨ cut = initOps := by
  rcases hcut with hcut | ⟨before, name, payload, part, hpre, hpart, rfl⟩
  · exact h.opening hcut
  have hmem : FileOp.write name payload ∈ initOps := hpre.subset (by simp)
  rcases initOps_payload hhs hsnap hmem with hname | rfl
  · left
    rw [replay_append]
    refine Fresh.writeNumber ?_ hname part
    rcases h.opening ((List.prefix_append ..).trans hpre) with hfresh | hall
    · exact hfresh
    · have := hpre.length_le
      rw [hall] at this
      simp at this
  · -- there is nothing of an empty write to be lost
    rw [List.prefix_nil.mp hpart]
    exact h.opening hpre

/-- **Step**: one more interrupted call. -/
theorem Opening.interrupted {d d' : Dir} (h : Opening d) (hd : Interrupted d d') : Opening d' := by
  obtain ⟨fs, cut, hrun, hcut, rfl⟩ := hd
  rcases h.stage with hfresh | rfl
  · have hopen : withDataDir { dir := d, ops := [] } = _ := withDataDir_of_missing hfresh.missing
    rw [hopen] at hrun
    cases hrun
    rcases hfresh.cutShort hhs hsnap hcut with hcut' | rfl
    · refine ⟨fun i => ?_, Or.inl hcut'⟩
      rw [replay_of_ne (hcut.name_ne (by simp [initOps, FileOp.name]))]
      exact h.entry i
    · rw [replay_initOps h.entry]
      exact ⟨newStore_entry, Or.inr rfl⟩
  · rw [(intact_newStore (P := fun _ => True)).withDataDir] at hrun
    cases hrun
    rw [cutShort_nil hcut]
    exact h

/-- **Run**: any number of them, from an empty directory on. -/
theorem opening_of_interrupted {d : Dir} (h : Relation.ReflTransGen Interrupted emptyDir d) :
    Opening d := by
  induction h with
  | refl => exact ⟨fun _ => rfl, Or.inl ⟨rfl, Or.inl rfl⟩⟩
  | tail _ hd ih => exact ih.interrupted hhs hsnap hd

end

/-! ## The call that completes -/

/-- **The first opening is safe under crashes, and later ones change nothing**:
after any number of interrupted calls of `with_data_dir` on an empty directory,
the first one that completes leaves a store that has not been used yet; and
whatever calls that store then gets, another `with_data_dir` performs no file
operation. -/
theorem opening_crash_safe (hhs : Protobuf.hardState.writeToBytes default = [])
    (hsnap : Protobuf.snapshot.writeToBytes default = []) {d : Dir}
    (h : Relation.ReflTransGen Interrupted emptyDir d) :
    ∃ fs, withDataDir { dir := d, ops := [] } = .ok () fs ∧ Unused fs.dir ∧
      ∀ calls, withDataDir { dir := (StorageExt.after ⟨fs.dir⟩ calls : FsStorage).dir, ops := [] }
        = .ok () { dir := (StorageExt.after ⟨fs.dir⟩ calls : FsStorage).dir, ops := [] } := by
  obtain ⟨hentry, hstage⟩ := opening_of_interrupted hhs hsnap h
  have hcompleted : ∃ fs, withDataDir { dir := d, ops := [] } = .ok () fs ∧
      fs.dir = newStore.dir := by
    rcases hstage with hfresh | rfl
    · refine ⟨_, withDataDir_of_missing hfresh.missing, ?_⟩
      exact replay_initOps hentry
    · exact ⟨_, (intact_newStore (P := fun _ => True)).withDataDir, rfl⟩
  obtain ⟨fs, hrun, hdir⟩ := hcompleted
  refine ⟨fs, hrun, ?_, fun calls => ?_⟩
  · rw [hdir]
    exact unused_newStore
  · have hnew : Intact (fun _ => True) (⟨fs.dir⟩ : FsStorage).dir := by
      show Intact _ fs.dir
      rw [hdir]
      exact intact_newStore
    refine (Intact.after calls hnew fun c _ => ?_).withDataDir
    cases c with
    | append es => exact fun _ _ => trivial
    | _ => trivial

end FsStorage

namespace FsStorage

open scoped Proto3

/-- The first index half written. -/
def brokenOffOnce : Dir :=
  replay emptyDir [.write .term (u64ToBytes 0), .write .first ((u64ToBytes 1).take 3)]

/-- And the next time, all but the snapshot. -/
def brokenOffTwice : Dir := replay brokenOffOnce (initOps.take 5)

theorem brokenOffTwice_interrupted :
    Relation.ReflTransGen Interrupted emptyDir brokenOffTwice := by
  have hfirst : Interrupted emptyDir brokenOffOnce := by
    refine ⟨_, _, withDataDir_of_missing rfl, Or.inr ⟨[.write .term (u64ToBytes 0)], .first,
      u64ToBytes 1, (u64ToBytes 1).take 3, ?_, List.take_prefix .., rfl⟩, rfl⟩
    exact List.take_prefix 2 initOps
  have hsecond : Interrupted brokenOffOnce brokenOffTwice :=
    ⟨_, _, withDataDir_of_missing rfl, Or.inl (List.take_prefix 5 initOps), rfl⟩
  exact (Relation.ReflTransGen.single hfirst).tail hsecond

/-- The third call makes a store of it. -/
theorem opening_crash_safe_twice :
    readFirstIndex brokenOffOnce = .error .InvalidData ∧
    ∃ fs, withDataDir { dir := brokenOffTwice, ops := [] } = .ok () fs ∧ Unused fs.dir ∧
      ∀ calls, withDataDir { dir := (StorageExt.after ⟨fs.dir⟩ calls : FsStorage).dir, ops := [] }
        = .ok () { dir := (StorageExt.after ⟨fs.dir⟩ calls : FsStorage).dir, ops := [] } :=
  ⟨rfl, opening_crash_safe rfl rfl brokenOffTwice_interrupted⟩

end FsStorage

end SawtoothRaft
