import SawtoothRaft.Storage.Truncated

/-!
# Where a term is known

`term` looks for the file of the entry and, if there is none, decides by the
compacted term: nothing compacted yet means that the index lies behind the
log, anything else that it lies before it. So once the log has been compacted
an index behind it is reported as `Compacted`, and index 0, for which the term
is always 0, as known (`term_classified_iff`).

`create_snapshot` takes the term from the file of the entry only. At the
boundary of the log, where `term` has the compacted term, it finds no file and
panics (`createSnapshot_taken_iff`).
-/

namespace SawtoothRaft

open Lib

namespace PlainLog

/-- The operation does not replace entries of the log. -/
def Op.Extends (l : PlainLog) : Op → Prop
  | .append s (_ :: _) => s = l.lastIndex + 1
  | _ => True

/-- All operations of a run extend the log. -/
def Extending (l : PlainLog) : List Op → Prop
  | [] => True
  | op :: ops => op.Extends l ∧ ∀ l', l.step? op = some l' → Extending l' ops

/-- The end of the log never moves back, and comes to lie at the end of what is
appended. -/
theorem lastIndex_of_extends {l l' : PlainLog} {op : Op} (h : op.Extends l)
    (hop : l.step? op = some l') :
    l.lastIndex ≤ l'.lastIndex ∧ ∀ e ∈ op.batch, e.index ≤ l'.lastIndex := by
  have hother : l'.lastIndex = l.lastIndex → op.batch = [] →
      l.lastIndex ≤ l'.lastIndex ∧ ∀ e ∈ op.batch, e.index ≤ l'.lastIndex := by
    intro hlast hbatch
    rw [hbatch, hlast]
    simp
  cases took_of_step hop with
  | append s e es ha =>
    obtain rfl : s = l.lastIndex + 1 := h
    have hlast : (l.append (l.lastIndex + 1) (e :: es) ha).lastIndex
        = l.lastIndex + (e :: es).length := by
      simp only [lastIndex, append, firstIndex, List.length_append, List.length_take]
      omega
    rw [hlast]
    refine ⟨by omega, fun x hx => ?_⟩
    have := ha.2.2.1.index_mem hx
    omega
  | compact c hc =>
    refine hother ?_ rfl
    obtain ⟨hlo, hhi⟩ := hc
    simp only [lastIndex, firstIndex, compact, List.length_drop] at hlo hhi ⊢
    omega
  | nothing | createSnapshot | setHardstate | setApplied | reopen => exact hother rfl rfl

/-- A log that is only ever extended is as long as it ever was. -/
theorem Extending.asLongAsEver {ops : List Op} : ∀ {l l' : PlainLog}, l.Extending ops →
    ops.foldlM step? l = some l' → l.lastIndex ≤ l'.lastIndex ∧ l'.AsLongAsEver ops := by
  induction ops with
  | nil =>
    intro l l' _ hrun
    obtain rfl := Option.some.inj hrun
    exact ⟨Nat.le_refl _, by simp [AsLongAsEver]⟩
  | cons op ops ih =>
    intro l l' h hrun
    rw [List.foldlM_cons] at hrun
    obtain ⟨l₁, hop, hrest⟩ := Option.bind_eq_some_iff.mp hrun
    obtain ⟨hle, hbatch⟩ := lastIndex_of_extends h.1 hop
    obtain ⟨hle', hlong⟩ := ih (h.2 l₁ hop) hrest
    refine ⟨by omega, fun e he => ?_⟩
    rw [List.flatMap_cons, List.mem_append] at he
    rcases he with he | he
    · have := hbatch e he
      omega
    · exact hlong e he

end PlainLog

namespace FsStorage

variable [Protobuf]

/-! ## Queries of terms -/

/-- The answer of `term` at `i` says on which side of the log `i` lies. -/
structure Classified (d : Dir) (first last i : Nat) : Prop where
  known : (∃ t, FsStorage.term d i = .ok t) ↔ first - 1 ≤ i ∧ i ≤ last
  compacted : FsStorage.term d i = .error (.Store .Compacted) ↔ i < first - 1
  unavailable : FsStorage.term d i = .error (.Store .Unavailable) ↔ last < i

section
variable {d : Dir} {first last i : Nat}

theorem classified_of_ok {t : Nat} (h : FsStorage.term d i = .ok t) :
    Classified d first last i ↔ first - 1 ≤ i ∧ i ≤ last := by
  constructor
  · intro hc
    exact hc.known.mp ⟨t, h⟩
  · intro hi
    constructor
    · exact iff_of_true ⟨t, h⟩ hi
    · rw [h]
      exact iff_of_false (by simp) (by omega)
    · rw [h]
      exact iff_of_false (by simp) (by omega)

theorem classified_of_compacted (h : FsStorage.term d i = errCompacted) (hle : first ≤ last + 1) :
    Classified d first last i ↔ i < first - 1 := by
  constructor
  · intro hc
    exact hc.compacted.mp h
  · intro hi
    constructor
    · rw [h]
      exact iff_of_false (by simp [errCompacted]) (by omega)
    · exact iff_of_true h hi
    · rw [h]
      exact iff_of_false (by simp [errCompacted]) (by omega)

theorem classified_of_unavailable (h : FsStorage.term d i = errUnavailable)
    (hle : first ≤ last + 1) : Classified d first last i ↔ last < i := by
  constructor
  · intro hc
    exact hc.unavailable.mp h
  · intro hi
    constructor
    · rw [h]
      exact iff_of_false (by simp [errUnavailable]) (by omega)
    · rw [h]
      exact iff_of_false (by simp [errUnavailable]) (by omega)
    · exact iff_of_true h hi

/-- With no file behind the log, `term` tells the sides of the log apart unless
it has been compacted and the index is 0 or behind the log. -/
theorem Accounted.classified_iff {A : List Entry} {l : PlainLog} (h : Accounted A d l)
    (hA : ∀ e ∈ A, e.index ≤ l.lastIndex) (i : Nat) :
    Classified d (l.boundary + 1) l.lastIndex i ↔ l.boundary = 0 ∨ 0 < i ∧ i ≤ l.lastIndex := by
  have hle : l.boundary + 1 ≤ l.lastIndex + 1 := by
    simp only [PlainLog.lastIndex]
    omega
  rcases Nat.lt_or_ge i l.boundary with hlt | hge
  · have hnone := h.rel.below i (by omega)
    by_cases hi : i = 0
    · subst hi
      rw [classified_of_ok (term_zero hnone)]
      omega
    · have hpos := l.boundaryTerm_pos (by omega)
      have hterm := term_of_none hnone (by omega) h.readFirst h.rel.compacted
      rw [if_neg (by omega), if_neg (by omega)] at hterm
      rw [classified_of_compacted hterm hle]
      omega
  rcases Nat.lt_or_ge l.lastIndex i with hlt | hle'
  · have hterm := term_of_none (h.entry_none hA hlt) (by omega) h.readFirst h.rel.compacted
    by_cases hb : l.boundary = 0
    · rw [if_pos (l.boundaryTerm_zero hb)] at hterm
      rw [classified_of_unavailable hterm hle]
      omega
    · have hpos := l.boundaryTerm_pos (by omega)
      rw [if_neg (by omega), if_neg (by omega)] at hterm
      rw [classified_of_compacted hterm hle]
      omega
  · obtain ⟨t, -, hterm⟩ := h.rel.answers.term i hge hle'
    rw [classified_of_ok hterm]
    omega

end

/-- **`term` says on which side of the log an index lies, exactly if** nothing
has been compacted yet, or the index is positive and not behind the log. -/
theorem term_classified_iff (ops : List PlainLog.Op) (l : PlainLog)
    (h : ops.foldlM PlainLog.step? PlainLog.initial = some l)
    (hext : PlainLog.initial.Extending ops) :
    ∃ fs, Reaches ops fs ∧ ∀ first last i, FsStorage.firstIndex fs.dir = .ok first →
      FsStorage.lastIndex fs.dir = .ok last →
      (Classified fs.dir first last i ↔ first = 1 ∨ 0 < i ∧ i ≤ last) := by
  obtain ⟨fs, hrun, hans⟩ := fsStorage_refines_plainLog ops l h
  have hacc := Reaches.accounted hrun h
  refine ⟨fs, hrun, fun first last i hfirst hlast => ?_⟩
  obtain rfl := Except.ok.inj (hfirst.symm.trans hans.firstIndex)
  obtain rfl : last = l.lastIndex := Except.ok.inj (hlast.symm.trans hans.lastIndex)
  rw [hacc.classified_iff (hext.asLongAsEver h).2]
  omega

/-! ## Snapshots -/

/-- A snapshot has been taken at `i`: the directory was `d` before, with the
snapshot `previous`, and is `d'` now. -/
structure Taken (d d' : Dir) (i : Nat) (confState : Option ConfState) (data : Bytes)
    (previous snap : Snapshot) : Prop where
  index : snap.getMetadata.index = i
  term : FsStorage.term d i = .ok snap.getMetadata.term
  data : snap.data = data
  confState : confStateOf snap = confState.getD (confStateOf previous)
  snapshot : FsStorage.snapshot d' = .ok snap
  firstIndex : FsStorage.firstIndex d' = FsStorage.firstIndex d
  lastIndex : FsStorage.lastIndex d' = FsStorage.lastIndex d
  entries : ∀ low high m, FsStorage.entries d' low high m = FsStorage.entries d low high m

omit [Protobuf] in
theorem confStateOf_nextSnapshot (current : Snapshot) (i t : Nat) (cs : Option ConfState)
    (data : Bytes) :
    confStateOf (nextSnapshot current i t cs data) = cs.getD (confStateOf current) := by
  cases cs with
  | some cs => rfl
  | none =>
    cases hm : current.metadata with
    | none =>
      simp only [confStateOf, nextSnapshot, Snapshot.getMetadata, hm]
      rfl
    | some metadata => simp [confStateOf, nextSnapshot, Snapshot.getMetadata, hm]

/-- Without the file of the entry there is no snapshot. -/
theorem createSnapshot_of_none {index last : Nat} {cs : Option ConfState} {data : Bytes}
    {current : Snapshot} {fs : Fs} (hsnap : readSnapshot fs.dir = .ok current)
    (hnew : current.getMetadata.index < index) (hlast : readLastIndex fs.dir = .ok last)
    (hle : index ≤ last) (hnone : fs.dir (.entry index) = none) :
    createSnapshot index cs data fs = .error (.panic .entryNotFound) fs := by
  have hq : query snapshot fs = .ok current fs := query_of_ok (ioQuery_eq_ok.mpr hsnap)
  have he : expectEntry index fs = .error (.panic .entryNotFound) fs := by
    unfold expectEntry EStateM.adaptExcept
    rw [reading_of_error (readEntry_of_none hnone)]
  unfold createSnapshot
  rw [bind_of_ok hq, if_neg (by omega), bind_of_ok (ioResult_of_ok (reading_of_ok hlast)),
    if_neg (by omega)]
  exact bind_of_error he

/-- Writing the snapshot changes nothing else. -/
theorem taken_of_entry {d : Dir} {i : Nat} {current : Snapshot} {e : Entry}
    (hentry : readEntry d i = .ok e) (cs : Option ConfState) (data : Bytes) :
    Taken d (replay d [.write .snapshot (Protobuf.snapshot.writeToBytes
      (nextSnapshot current i e.term cs data))]) i cs data current
      (nextSnapshot current i e.term cs data) := by
  generalize hd : replay d [.write .snapshot (Protobuf.snapshot.writeToBytes
      (nextSnapshot current i e.term cs data))] = d'
  have hother : ∀ name, name ≠ .snapshot → d' name = d name := by
    intro name hne
    rw [← hd]
    exact replay_write_of_ne hne
  have hfirst : readFirstIndex d' = readFirstIndex d := readU64_congr (hother _ (by simp))
  have hlast : readLastIndex d' = readLastIndex d := readU64_congr (hother _ (by simp))
  have hentries : readEntries d' = readEntries d := by
    funext low count
    have hread : readEntry d' = readEntry d := by
      funext j
      exact readPb_congr (hother _ (by simp))
    unfold readEntries
    rw [hread]
  constructor
  · rfl
  · exact term_of_readEntry hentry
  · rfl
  · exact confStateOf_nextSnapshot ..
  · rw [← hd]
    exact ioQuery_eq_ok.mpr (readPb_of_eq (replay_write_self ..))
  · unfold FsStorage.firstIndex
    rw [hfirst]
  · unfold FsStorage.lastIndex
    rw [hlast]
  · intro low high m
    unfold FsStorage.entries
    rw [hfirst, hlast, hentries]

/-- **A snapshot can be taken wherever the log has an entry, and only there**:
at the boundary of the log, where `term` still answers, `create_snapshot`
panics. -/
theorem createSnapshot_taken_iff (ops : List PlainLog.Op) (l : PlainLog)
    (h : ops.foldlM PlainLog.step? PlainLog.initial = some l) :
    ∃ fs, Reaches ops fs ∧ ∀ current first last i cs data,
      FsStorage.snapshot fs.dir = .ok current → FsStorage.firstIndex fs.dir = .ok first →
      FsStorage.lastIndex fs.dir = .ok last → current.getMetadata.index < i →
      first ≤ i + 1 → i ≤ last →
      ((∃ snap, (StorageExt.createSnapshot (⟨fs.dir⟩ : FsStorage) i cs data).result = .ok snap ∧
          Taken fs.dir (StorageExt.createSnapshot (⟨fs.dir⟩ : FsStorage) i cs data).store.dir
            i cs data current snap) ↔ first ≤ i) := by
  obtain ⟨fs, hrun, -⟩ := fsStorage_refines_plainLog ops l h
  have hacc := Reaches.accounted hrun h
  refine ⟨fs, hrun, fun current first last i cs data hsnap hfirst hlast hnew hlo hhi => ?_⟩
  replace hsnap := ioQuery_eq_ok.mp hsnap
  replace hlast := ioQuery_eq_ok.mp hlast
  obtain rfl := Except.ok.inj ((ioQuery_eq_ok.mp hfirst).symm.trans hacc.readFirst)
  obtain rfl := Except.ok.inj (hlast.symm.trans hacc.readLast)
  show (∃ snap, (call (createSnapshot i cs data) ⟨fs.dir⟩).result = .ok snap ∧
    Taken fs.dir (call (createSnapshot i cs data) ⟨fs.dir⟩).store.dir i cs data current snap) ↔ _
  unfold call
  constructor
  · intro ⟨snap, hresult, _⟩
    by_contra hlt
    have hnone := hacc.rel.below i (by omega)
    have hrun : createSnapshot i cs data { dir := fs.dir, ops := [] } = _ :=
      createSnapshot_of_none hsnap hnew hlast hhi hnone
    rw [hrun] at hresult
    cases hresult
  · intro hle
    obtain ⟨e, hentry⟩ : ∃ e, readEntry fs.dir i = .ok e := by
      obtain ⟨e, he, -⟩ := hacc.intact.readEntry (hacc.rel.isSome_of_live hle hhi)
      exact ⟨e, he⟩
    have hrun : createSnapshot i cs data { dir := fs.dir, ops := [] } = _ :=
      createSnapshot_eq hsnap hnew hlast hhi hentry
    rw [hrun]
    exact ⟨_, rfl, taken_of_entry hentry cs data⟩

end FsStorage

namespace FsStorage

open scoped Proto3

/-- Entries appended to a new store, and the first of them compacted away. -/
theorem reaches_compact {es : List Entry} {c : Nat} {fs : Fs}
    (hfs : fs = (Fs.after { dir := emptyDir, ops := [] } initOps).after (appendOps es))
    (hfirst : readFirstIndex fs.dir = .ok 1) (hc : 1 ≤ c)
    (hread : readEntries fs.dir 1 c = .ok (es.take c)) (hcont : Contiguous 1 (es.take c)) :
    Reaches [.append 1 es, .compact c] (fs.after (compactOps (es.take c))) := by
  subst hfs
  unfold Reaches
  rw [bind_of_ok (ioResult_of_ok (withDataDir_of_missing (by rfl)))]
  show (append es >>= fun _ => compact c >>= fun _ => pure ()) _ = _
  rw [bind_of_ok (append_eq ..), bind_of_ok (compact_eq hfirst hc hread hcont)]
  rfl

/-- Three entries, the first two of which are compacted away. -/
def compactedOnce : List PlainLog.Op := [.append 1 replacedEntries, .compact 2]

def compactedFs : Fs :=
  ((Fs.after { dir := emptyDir, ops := [] } initOps).after (appendOps replacedEntries)).after
    (compactOps (replacedEntries.take 2))

theorem compactedOnce_reaches : Reaches compactedOnce compactedFs :=
  reaches_compact rfl (by decide +kernel) (by decide) (by decide +kernel) (by decide +kernel)

/-- Index 1 has been compacted, and `term` says so. -/
theorem term_classified_iff_compacted :
    ∃ l fs, compactedOnce.foldlM PlainLog.step? PlainLog.initial = some l ∧
      Reaches compactedOnce fs ∧ Classified fs.dir 3 3 1 := by
  obtain ⟨l, hl⟩ : ∃ l, compactedOnce.foldlM PlainLog.step? PlainLog.initial = some l :=
    Option.isSome_iff_exists.mp (by decide)
  obtain ⟨fs, hrun, hiff⟩ := term_classified_iff _ l hl
    ⟨rfl, fun _ _ => ⟨trivial, fun _ _ => trivial⟩⟩
  obtain rfl := eq_of_ok compactedOnce_reaches hrun
  refine ⟨l, compactedFs, hl, hrun, (hiff 3 3 1 ?_ ?_).mpr (by decide)⟩
  · decide +kernel
  · decide +kernel

/-- Index 4 is still to come and index 0 is gone, but this is not what `term`
says. -/
theorem term_misclassifies :
    Reaches compactedOnce compactedFs ∧ PlainLog.initial.Extending compactedOnce ∧
      FsStorage.firstIndex compactedFs.dir = .ok 3 ∧
      FsStorage.lastIndex compactedFs.dir = .ok 3 ∧
      FsStorage.term compactedFs.dir 4 = .error (.Store .Compacted) ∧
      FsStorage.term compactedFs.dir 0 = .ok 0 ∧
      ¬ Classified compactedFs.dir 3 3 4 ∧ ¬ Classified compactedFs.dir 3 3 0 := by
  have hbehind : FsStorage.term compactedFs.dir 4 = .error (.Store .Compacted) := by
    decide +kernel
  have hzero : FsStorage.term compactedFs.dir 0 = .ok 0 := by decide +kernel
  refine ⟨compactedOnce_reaches, ⟨rfl, fun _ _ => ⟨trivial, fun _ _ => trivial⟩⟩,
    by decide +kernel, by decide +kernel, hbehind, hzero, fun h => ?_, fun h => ?_⟩
  · exact absurd (h.compacted.mp hbehind) (by decide)
  · exact absurd (h.known.mp ⟨0, hzero⟩) (by decide)

/-- A snapshot at the one entry that is left. -/
theorem createSnapshot_taken_iff_live :
    ∃ l fs snap, compactedOnce.foldlM PlainLog.step? PlainLog.initial = some l ∧
      Reaches compactedOnce fs ∧
      (StorageExt.createSnapshot (⟨fs.dir⟩ : FsStorage) 3 none [5]).result = .ok snap ∧
      Taken fs.dir (StorageExt.createSnapshot (⟨fs.dir⟩ : FsStorage) 3 none [5]).store.dir
        3 none [5] default snap := by
  obtain ⟨l, hl⟩ : ∃ l, compactedOnce.foldlM PlainLog.step? PlainLog.initial = some l :=
    Option.isSome_iff_exists.mp (by decide)
  obtain ⟨fs, hrun, hiff⟩ := createSnapshot_taken_iff _ l hl
  obtain rfl := eq_of_ok compactedOnce_reaches hrun
  obtain ⟨snap, hresult, htaken⟩ := (hiff default 3 3 3 none [5] (by decide +kernel)
    (by decide +kernel) (by decide +kernel) (by decide) (by decide) (by decide)).mpr (by decide)
  exact ⟨l, compactedFs, snap, hl, hrun, hresult, htaken⟩

/-- At index 2, up to which the log has just been compacted, the term is known
and `create_snapshot` panics. -/
theorem createSnapshot_panics_at_boundary :
    Reaches compactedOnce compactedFs ∧ FsStorage.snapshot compactedFs.dir = .ok default ∧
      FsStorage.firstIndex compactedFs.dir = .ok 3 ∧
      FsStorage.lastIndex compactedFs.dir = .ok 3 ∧ FsStorage.term compactedFs.dir 2 = .ok 1 ∧
      (StorageExt.createSnapshot (⟨compactedFs.dir⟩ : FsStorage) 2 none []).result
        = .error (.panic .entryNotFound) :=
  ⟨compactedOnce_reaches, by decide +kernel, by decide +kernel, by decide +kernel,
    by decide +kernel, by decide +kernel⟩

end FsStorage

end SawtoothRaft
