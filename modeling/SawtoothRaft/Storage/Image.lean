import SawtoothRaft.Storage.Truncated

/-!
# The directory as a format

`PlainLog.image` is the directory that holds a log and nothing else. It is a
format for logs: every log can be read back from its image, which the store opens
without touching it, and no two logs share one (`image_roundtrip`).

The directory that a store has come to is the image of its log as long as there
is nothing behind the log's end, whatever was appended, compacted and stored to
get there (`dir_image_iff`). So the order and the size of the batches leave no
mark on the disk, and neither do the points at which the log was compacted.
-/

namespace SawtoothRaft

open Lib

/-- The directory that holds the log and nothing else. -/
def PlainLog.image [Protobuf] (l : PlainLog) : Dir
  | .hardstate => some (Protobuf.hardState.writeToBytes l.hardState)
  | .snapshot => some (Protobuf.snapshot.writeToBytes l.snapshot)
  | .term => some (u64ToBytes l.boundaryTerm)
  | .first => some (u64ToBytes l.firstIndex)
  | .last => some (u64ToBytes l.lastIndex)
  | .applied => some (u64ToBytes l.applied)
  | .entry i =>
    if i < l.firstIndex then none
    else (l.entries[i - l.firstIndex]?).map Protobuf.entry.writeToBytes

namespace FsStorage

variable [Protobuf] {d : Dir} {l l' : PlainLog}

/-! ## Reading an image -/

theorem rel_image (l : PlainLog) : Rel l.image l where
  holds := by
    have hlimit := l.limit
    refine ⟨readU64_of_eq rfl ?_, ?_, Nat.le_add_left .., l.contiguous, ?_⟩
    · simp only [PlainLog.firstIndex]
      omega
    · have hlast : l.firstIndex + l.entries.length - 1 = l.lastIndex := by
        simp only [PlainLog.firstIndex, PlainLog.lastIndex]
        omega
      rw [hlast]
      refine readU64_of_eq rfl ?_
      simp only [PlainLog.lastIndex]
      omega
    · intro k e he
      refine readPb_of_eq ?_
      show (if l.firstIndex + k < l.firstIndex then none
        else (l.entries[l.firstIndex + k - l.firstIndex]?).map Protobuf.entry.writeToBytes) = _
      rw [if_neg (by omega), Nat.add_sub_cancel_left, he]
      rfl
  below i hi := if_pos (Nat.lt_succ_of_le hi)
  compacted := readU64_of_eq rfl l.boundaryTerm_lt
  hardState := readPb_of_eq rfl
  snapshot := readPb_of_eq rfl
  applied := readU64_of_eq rfl l.applied_lt

/-- A directory represents one log at most. -/
theorem Rel.unique (h : Rel d l) (h' : Rel d l') : l = l' := by
  have hfirst : l.boundary + 1 = l'.boundary + 1 :=
    Except.ok.inj (h.holds.readFirst.symm.trans h'.holds.readFirst)
  have hlast := Except.ok.inj (h.answers.lastIndex.symm.trans h'.answers.lastIndex)
  have hterm := Except.ok.inj (h.compacted.symm.trans h'.compacted)
  have hhard := Except.ok.inj (h.hardState.symm.trans h'.hardState)
  have hsnap := Except.ok.inj (h.snapshot.symm.trans h'.snapshot)
  have happlied := Except.ok.inj (h.applied.symm.trans h'.applied)
  have hentries : l.entries = l'.entries := by
    refine List.ext_getElem (by omega) fun k hk hk' => ?_
    have hfile := h.holds.files k _ (List.getElem?_eq_getElem hk)
    have hfile' := h'.holds.files k _ (List.getElem?_eq_getElem hk')
    simp only [PlainLog.firstIndex] at hfile hfile'
    rw [hfirst] at hfile
    exact Except.ok.inj (hfile.symm.trans hfile')
  cases l
  cases l'
  obtain rfl : _ = _ := Nat.succ.inj hfirst
  obtain rfl : _ = _ := hterm
  obtain rfl : _ = _ := hentries
  obtain rfl : _ = _ := hhard
  obtain rfl : _ = _ := hsnap
  obtain rfl : _ = _ := happlied
  rfl

/-- **The directory is a format for logs**: a store on the image of a log
answers as the log does, opening it writes nothing, and no other log has the same
image. -/
theorem image_roundtrip (l : PlainLog) :
    Answers l.image l ∧
    withDataDir { dir := l.image, ops := [] } = .ok () { dir := l.image, ops := [] } ∧
    ∀ l' : PlainLog, l'.image = l.image → l' = l := by
  refine ⟨(rel_image l).answers, withDataDir_of_not_missing ?_, fun l' h => ?_⟩
  · rw [(rel_image l).raftState]
    exact fun h => nomatch h
  · exact (rel_image l').unique (h ▸ rel_image l)

/-! ## The directory of a store -/

theorem intact_image (l : PlainLog) : Intact (fun _ => True) l.image where
  number name hname := by
    have hlimit := l.limit
    cases name with
    | term => exact ⟨_, l.boundaryTerm_lt, rfl⟩
    | first => exact ⟨_, show l.boundary + 1 < 2 ^ 64 by omega, rfl⟩
    | last => exact ⟨_, show l.boundary + l.entries.length < 2 ^ 64 by omega, rfl⟩
    | applied => exact ⟨_, l.applied_lt, rfl⟩
    | hardstate | snapshot | entry => exact hname.elim
  hardState := ⟨_, rfl⟩
  snapshot := ⟨_, rfl⟩
  entry i b h := by
    change (if i < l.firstIndex then none
      else (l.entries[i - l.firstIndex]?).map Protobuf.entry.writeToBytes) = some b at h
    split at h
    next => exact nomatch h
    next hi =>
      obtain ⟨e, he, hb⟩ := Option.map_eq_some_iff.mp h
      have hindex : e.index = l.firstIndex + (i - l.firstIndex) := l.contiguous.index he
      exact ⟨e, trivial, by omega, hb.symm⟩

/-- With nothing behind the log, the directory is its image. -/
theorem Accounted.image_eq {A : List Entry} (h : Accounted A d l)
    (hA : ∀ e ∈ A, e.index ≤ l.lastIndex) : d = l.image := by
  have hrel := rel_image l
  have hread : ∀ {α : Type} {r r' : Except ErrorKind α} {a : α}, r = .ok a → r' = .ok a → r = r' :=
    fun hr hr' => hr.trans hr'.symm
  refine h.intact.ext (intact_image l) (fun name hname => ?_) (hread h.rel.hardState hrel.hardState)
    (hread h.rel.snapshot hrel.snapshot) fun i => ?_
  · cases name with
    | term => exact hread h.rel.compacted hrel.compacted
    | first => exact hread h.rel.holds.readFirst hrel.holds.readFirst
    | last => exact hread h.rel.holds.readLast hrel.holds.readLast
    | applied => exact hread h.rel.applied hrel.applied
    | hardstate | snapshot | entry => exact hname.elim
  · rcases Nat.lt_or_ge l.boundary i with hlo | hlo
    · rcases Nat.lt_or_ge l.lastIndex i with hhi | hhi
      · have hnone : l.image (.entry i) = none := by
          simp only [PlainLog.lastIndex] at hhi
          show (if i < l.firstIndex then none else _) = none
          rw [if_neg (by simp only [PlainLog.firstIndex]; omega),
            List.getElem?_eq_none (by simp only [PlainLog.firstIndex]; omega)]
          rfl
        rw [readEntry_of_none (h.entry_none hA hhi), readEntry_of_none hnone]
      · -- a live entry
        simp only [PlainLog.lastIndex] at hhi
        have hk : i - l.firstIndex < l.entries.length := by
          simp only [PlainLog.firstIndex]
          omega
        have hfile := h.rel.holds.files _ _ (List.getElem?_eq_getElem hk)
        have hfile' := hrel.holds.files _ _ (List.getElem?_eq_getElem hk)
        rw [show l.firstIndex + (i - l.firstIndex) = i by
          simp only [PlainLog.firstIndex]; omega] at hfile hfile'
        exact hread hfile hfile'
    · rw [readEntry_of_none (h.rel.below i hlo), readEntry_of_none (hrel.below i hlo)]

/-- A file behind the log is not in the image. -/
theorem Accounted.image_eq_iff {A : List Entry} (h : Accounted A d l) :
    d = l.image ↔ ∀ e ∈ A, e.index ≤ l.lastIndex := by
  refine ⟨fun himage e he => ?_, h.image_eq⟩
  by_contra hlt
  have hthere := h.entry_isSome he (Nat.not_le.mp hlt)
  rw [himage] at hthere
  change (if l.lastIndex + 1 < l.firstIndex then none
    else (l.entries[l.lastIndex + 1 - l.firstIndex]?).map Protobuf.entry.writeToBytes).isSome
      = true at hthere
  rw [if_neg (by simp only [PlainLog.firstIndex, PlainLog.lastIndex]; omega),
    List.getElem?_eq_none (by simp only [PlainLog.firstIndex, PlainLog.lastIndex]; omega)]
    at hthere
  exact absurd hthere (by simp)

theorem exists_reaches {ops : List PlainLog.Op}
    (h : ops.foldlM PlainLog.step? PlainLog.initial = some l) : ∃ fs, Reaches ops fs := by
  have hopen := ioResult_of_ok (@withDataDir_of_missing _ { dir := emptyDir, ops := [] } rfl)
  have hinit : Rel (Fs.after { dir := emptyDir, ops := [] } initOps).dir PlainLog.initial := rel_init
  obtain ⟨fs, hrun, -⟩ := run_rel ops hinit h
  exact ⟨fs, by rw [Reaches, bind_of_ok hopen, hrun]⟩

/-- **The disk shows the log and not its history.** After any operations of a
`PlainLog` that make sense, which `apply_snapshot` is not among, the directory is the
image of the log exactly if no entry was ever appended with an index above the last
one of now. Two stores of which this holds have the same files if and only if they
hold the same log. -/
theorem dir_image_iff (ops : List PlainLog.Op) (l : PlainLog)
    (h : ops.foldlM PlainLog.step? PlainLog.initial = some l) :
    ∃ fs, Reaches ops fs ∧ (fs.dir = l.image ↔ l.AsLongAsEver ops) ∧
      ∀ ops' l' fs', ops'.foldlM PlainLog.step? PlainLog.initial = some l' → Reaches ops' fs' →
        l.AsLongAsEver ops → l'.AsLongAsEver ops' → (fs.dir = fs'.dir ↔ l = l') := by
  obtain ⟨fs, hrun⟩ := exists_reaches h
  have hacc := Reaches.accounted hrun h
  refine ⟨fs, hrun, hacc.image_eq_iff, fun ops' l' fs' h' hrun' hlong hlong' => ?_⟩
  have himage : fs.dir = l.image := hacc.image_eq_iff.mpr hlong
  have himage' : fs'.dir = l'.image := (hrun'.accounted h').image_eq_iff.mpr hlong'
  rw [himage, himage']
  refine ⟨fun heq => ?_, congrArg PlainLog.image⟩
  exact (rel_image l).unique (heq ▸ rel_image l')

end FsStorage

namespace FsStorage

open scoped Proto3

/-- Three entries one by one, and the first one compacted away in between. -/
def piecemeal : List PlainLog.Op :=
  [.append 1 [{ term := 1, index := 1 }], .append 2 [{ term := 1, index := 2 }], .compact 1,
    .append 3 [{ term := 1, index := 3 }]]

/-- All at once. -/
def wholesale : List PlainLog.Op := [.append 1 replacedEntries, .compact 1]

/-- It makes no difference on the disk. -/
theorem dir_image_iff_piecemeal : ∃ fs fs', Reaches piecemeal fs ∧ Reaches wholesale fs' ∧
    fs.dir = fs'.dir := by
  have hsame : piecemeal.foldlM PlainLog.step? PlainLog.initial
      = wholesale.foldlM PlainLog.step? PlainLog.initial := rfl
  obtain ⟨l, hl⟩ : ∃ l, piecemeal.foldlM PlainLog.step? PlainLog.initial = some l :=
    Option.isSome_iff_exists.mp (by decide)
  have hlast : (piecemeal.foldlM PlainLog.step? PlainLog.initial).map (·.lastIndex) = some 3 := by
    decide
  rw [hl] at hlast
  have hlast : l.lastIndex = 3 := Option.some.inj hlast
  have hlong : l.AsLongAsEver piecemeal ∧ l.AsLongAsEver wholesale := by
    unfold PlainLog.AsLongAsEver
    rw [hlast]
    decide
  obtain ⟨fs, hrun, -, hfiles⟩ := dir_image_iff piecemeal l hl
  obtain ⟨fs', hrun'⟩ := exists_reaches (hsame ▸ hl)
  exact ⟨fs, fs', hrun, hrun', (hfiles _ _ fs' (hsame ▸ hl) hrun' hlong.1 hlong.2).mpr rfl⟩

end FsStorage

end SawtoothRaft
