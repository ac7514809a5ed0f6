import SawtoothRaft.Storage.Intact

/-!
# What a replaced suffix leaves behind

An `append` that replaces a suffix of the log by a shorter one lowers `last`
and leaves the entry files of the old suffix in the directory. `entries` and
`create_snapshot` look at `last` before they open a file; `term` and `compact`
do not, and so they find entries that are in the log no more.

Which files there are is a matter of what has been appended: after a run that
makes sense, the entry files are those above the boundary and up to the
highest index ever written (`Accounted.written`). Hence
`truncated_unobservable_iff`: nothing of a replaced suffix can be observed
exactly if the log is as long as it ever was.
-/

namespace SawtoothRaft

open Lib

namespace PlainLog

/-- The entries an operation brings. -/
def Op.batch : Op → List Entry
  | .append _ batch => batch
  | _ => []

/-- No entry has been appended with an index above the log's last. -/
def AsLongAsEver (ops : List Op) (l : PlainLog) : Prop :=
  ∀ e ∈ ops.flatMap Op.batch, e.index ≤ l.lastIndex

end PlainLog

namespace FsStorage

variable [Protobuf]

/-! ## The properties -/

/-- Behind the last index there is nothing to be seen: `term` has no answer,
and `compact` fails without a trace. -/
def Unobservable (d : Dir) : Prop :=
  ∀ first last i, readFirstIndex d = .ok first → readLastIndex d = .ok last →
    last < i → i + 1 < 2 ^ 64 →
    (∀ t, FsStorage.term d i ≠ .ok t) ∧
    (∃ e, (StorageExt.compact (⟨d⟩ : FsStorage) i).result = .error (.err e)) ∧
    readFirstIndex (StorageExt.compact (⟨d⟩ : FsStorage) i).store.dir = .ok first ∧
    readLastIndex (StorageExt.compact (⟨d⟩ : FsStorage) i).store.dir = .ok last ∧
    readCompactedTerm (StorageExt.compact (⟨d⟩ : FsStorage) i).store.dir = readCompactedTerm d ∧
    ∀ j, first ≤ j → j ≤ last →
      readEntry (StorageExt.compact (⟨d⟩ : FsStorage) i).store.dir j = readEntry d j

/-- Two directories agree on the log and on all that is kept beside it. -/
structure Agree (d d' : Dir) : Prop where
  firstIndex : readFirstIndex d = readFirstIndex d'
  lastIndex : readLastIndex d = readLastIndex d'
  boundaryTerm : readCompactedTerm d = readCompactedTerm d'
  hardState : readHardState d = readHardState d'
  snapshot : readSnapshot d = readSnapshot d'
  applied : readApplied d = readApplied d'
  live : ∀ first last i, readFirstIndex d = .ok first → readLastIndex d = .ok last →
    first ≤ i → i ≤ last → readEntry d i = readEntry d' i

/-- Opened on an empty directory, the store carries out the operations. -/
def Reaches (ops : List PlainLog.Op) (fs : Fs) : Prop :=
  (do ioResult withDataDir; ops.forM exec : FsM Fault Unit) { dir := emptyDir, ops := [] }
    = .ok () fs

/-! ## Which entry files there are -/

/-- The directory holds the log `l` after the entries `A` have been appended,
in this order and among other operations. -/
structure Accounted (A : List Entry) (d : Dir) (l : PlainLog) : Prop where
  rel : Rel d l
  intact : Intact (fun _ => True) d
  limit : ∀ e ∈ A, e.index + 1 < 2 ^ 64
  written : ∀ i, (d (.entry i)).isSome ↔ l.boundary < i ∧ ∃ e ∈ A, i ≤ e.index

theorem accounted_newStore : Accounted [] newStore.dir PlainLog.initial where
  rel := rel_init
  intact := intact_newStore
  limit := by simp
  written i := by simp [newStore_entry]

section
variable {A : List Entry} {d d' : Dir} {l l' : PlainLog}

/-- Every live entry has its file. -/
theorem Rel.isSome_of_live (h : Rel d l) {i : Nat} (hlo : l.boundary < i) (hhi : i ≤ l.lastIndex) :
    (d (.entry i)).isSome := by
  simp only [PlainLog.lastIndex] at hhi
  have hfile := h.holds.files (i - l.firstIndex) _
    (List.getElem?_eq_getElem (by simp only [PlainLog.firstIndex]; omega))
  rw [show l.firstIndex + (i - l.firstIndex) = i by simp only [PlainLog.firstIndex]; omega] at hfile
  exact isSome_of_readEntry hfile

/-- A batch adds its own files to those there are. -/
theorem written_append {s : Nat} {batch : List Entry} (h : Accounted A d l)
    (ha : l.Appendable s batch) (i : Nat) :
    (replay d (appendOps batch) (.entry i)).isSome ↔
      l.boundary < i ∧ ∃ e ∈ A ++ batch, i ≤ e.index := by
  obtain ⟨hfirst, hlast, hc, -, -⟩ := ha
  simp only [PlainLog.firstIndex] at hfirst
  have happ := appended d hc
  by_cases hin : s ≤ i ∧ i < s + batch.length
  · -- in the batch: the file has just been written
    obtain ⟨hlo, hhi⟩ := hin
    have hget := List.getElem?_eq_getElem (l := batch) (i := i - s) (by omega)
    have hidx := hc.index hget
    have hfile := happ.written _ _ hget
    rw [show s + (i - s) = i by omega] at hfile
    rw [hfile]
    refine ⟨fun _ => ⟨by omega, _, List.mem_append_right _ (List.mem_of_getElem? hget), ?_⟩,
      fun _ => rfl⟩
    omega
  · rw [happ.kept i (by omega), h.written]
    refine and_congr_right fun hb => ⟨?_, ?_⟩
    · intro hA
      obtain ⟨e, he, hi⟩ := hA
      exact ⟨e, List.mem_append_left _ he, hi⟩
    · intro hA
      obtain ⟨e, he, hi⟩ := hA
      rcases List.mem_append.mp he with he | he
      · exact ⟨e, he, hi⟩
      · -- below the batch: the index is live, and its file known
        have := hc.index_mem he
        exact ((h.written i).mp (h.rel.isSome_of_live hb (by omega))).2

theorem written_compact {c : Nat} (h : Accounted A d l) (hc : l.Has c) (i : Nat) :
    (replay d (compactOps (l.entries.take (c + 1 - l.firstIndex))) (.entry i)).isSome ↔
      c < i ∧ ∃ e ∈ A, i ≤ e.index := by
  obtain ⟨hlast, hidx⟩ := getLast?_delete h.rel hc
  have hcomp := compacted d (h.rel.holds.contiguous.take _) hlast
  have hlo := hc.1
  simp only [PlainLog.firstIndex] at hlo
  rcases Nat.lt_or_ge c i with hi | hi
  · rw [hcomp.kept i (by omega), h.written]
    refine ⟨fun hw => ⟨hi, hw.2⟩, fun hw => ⟨by omega, hw.2⟩⟩
  · rw [hcomp.gone i (by omega) ?_]
    · refine ⟨fun hw => absurd hw (by simp), fun hw => ?_⟩
      omega
    · rcases Nat.lt_or_ge l.boundary i with hb | hb
      · exact Or.inl hb
      · exact Or.inr (h.rel.below i hb)

theorem withDataDir_traced {Q : FileOp → Prop} (h : ∀ op ∈ initOps, Q op) :
    Traced Q withDataDir := by
  unfold withDataDir initRaftStateIfMissing
  refine Traced.bind (fun _ => Triple.get fun _ h => h) fun fs => ?_
  split
  · intro fs fs' hext
    obtain ⟨ops, hops, rfl⟩ := hext
    rw [initRaftState_eq]
    refine ⟨ops ++ initOps, fun op hop => ?_, Fs.after_after ..⟩
    rcases List.mem_append.mp hop with hop | hop
    · exact hops op hop
    · exact h op hop
  · exact Traced.pure _

theorem initOps_encoded {P : Entry → Prop} : ∀ op ∈ initOps, Encoded P op := by
  intro op hop
  simp only [initOps, List.mem_cons, List.not_mem_nil, or_false] at hop
  rcases hop with rfl | rfl | rfl | rfl | rfl | rfl
  · exact .number .term trivial 0
  · exact .number .first trivial 1
  · exact .number .last trivial 0
  · exact .number .applied trivial 0
  · exact .hardState default
  · exact .snapshot default

theorem exec_encoded (op : PlainLog.Op) : Traced (Encoded fun _ => True) (exec op) := by
  cases op with
  | append s batch => exact append_traced encoded_admits fun _ _ => trivial
  | compact c => exact compact_traced encoded_admits.toAdmitsSnapshot c
  | createSnapshot index cs data =>
    exact Traced.bind (createSnapshot_traced encoded_admits.snapshot index cs data)
      fun _ => Traced.pure _
  | setHardstate hs => exact setHardstate_traced encoded_admits.hardState hs
  | setApplied a => exact setApplied_encoded a
  | reopen => exact Traced.adapt _ (withDataDir_traced initOps_encoded)

/-- Whatever is run on an intact directory, it stays intact. -/
theorem Intact.run {ε α : Type} {P : Entry → Prop} {m : FsM ε α} {fs fs' : Fs} {a : α}
    (h : Intact P fs.dir) (hm : Traced (Encoded P) m) (hrun : m fs = .ok a fs') :
    Intact P fs'.dir := by
  have hext := hm fs fs ⟨[], by simp, (Fs.after_nil _).symm⟩
  rw [hrun] at hext
  obtain ⟨ops, hops, rfl⟩ := hext
  exact h.replay hops

omit [Protobuf] in
theorem eq_of_ok {ε α : Type} {m : FsM ε α} {fs fs₁ fs₂ : Fs} {a b : α} (h₁ : m fs = .ok a fs₁)
    (h₂ : m fs = .ok b fs₂) : fs₁ = fs₂ := by
  rw [h₁] at h₂
  cases h₂
  rfl

/-- The operations that touch no entry file. -/
theorem exec_keeps_entries {op : PlainLog.Op} {fs fs' : Fs} (hrun : exec op fs = .ok () fs')
    (hop : (∀ s batch, op ≠ .append s batch) ∧ ∀ c, op ≠ .compact c) (i : Nat) :
    fs'.dir (.entry i) = fs.dir (.entry i) := by
  have htraced : Traced (fun op => op.name ≠ .entry i) (exec op) := by
    cases op with
    | append s batch => exact absurd rfl (hop.1 s batch)
    | compact c => exact absurd rfl (hop.2 c)
    | createSnapshot index cs data =>
      exact Traced.bind (createSnapshot_traced (by simp [FileOp.name]) index cs data)
        fun _ => Traced.pure _
    | setHardstate hs => exact setHardstate_traced (by simp [FileOp.name]) hs
    | setApplied a => exact Traced.perform (by simp [FileOp.name])
    | reopen => exact Traced.adapt _ (withDataDir_traced (by simp [FileOp.name, initOps]))
  have hext := htraced fs fs ⟨[], by simp, (Fs.after_nil _).symm⟩
  rw [hrun] at hext
  obtain ⟨ops, hops, rfl⟩ := hext
  exact replay_of_ne hops

/-- **Step**: an operation adds the batch it appends to the account. -/
theorem Accounted.exec {fs fs' : Fs} {op : PlainLog.Op} (h : Accounted A fs.dir l)
    (hop : l.step? op = some l') (hexec : exec op fs = .ok () fs') :
    Accounted (A ++ op.batch) fs'.dir l' := by
  obtain ⟨fs₁, hexec₁, hrel⟩ := exec_rel h.rel hop
  obtain rfl := eq_of_ok hexec hexec₁
  have hintact := h.intact.run (exec_encoded op) hexec
  -- an operation on other files keeps the account
  have hother : op.batch = [] → l'.boundary = l.boundary →
      (∀ i, fs'.dir (.entry i) = fs.dir (.entry i)) → Accounted (A ++ op.batch) fs'.dir l' := by
    intro hbatch hb hkeep
    rw [hbatch, List.append_nil]
    exact ⟨hrel, hintact, h.limit, fun i => by rw [hkeep i, hb]; exact h.written i⟩
  cases PlainLog.took_of_step hop with
  | nothing s =>
    have hfs : FsStorage.exec (.append s []) fs = .ok () (fs.after (appendOps [])) :=
      append_eq [] fs
    obtain rfl := eq_of_ok hexec hfs
    exact hother rfl rfl fun _ => rfl
  | append s e es ha =>
    have hfs : FsStorage.exec (.append s (e :: es)) fs = .ok () (fs.after (appendOps (e :: es))) :=
      append_eq (e :: es) fs
    obtain rfl := eq_of_ok hexec hfs
    refine ⟨hrel, hintact, fun x hx => ?_, fun i => written_append h ha i⟩
    rcases List.mem_append.mp hx with hx | hx
    · exact h.limit x hx
    · obtain ⟨-, -, hc, -, hlim⟩ := ha
      have := hc.index_mem hx
      omega
  | compact c hc =>
    have hfs : FsStorage.exec (.compact c) fs = _ := h.rel.compact_run hc
    obtain rfl := eq_of_ok hexec hfs
    rw [show A ++ PlainLog.Op.batch (.compact c) = A from List.append_nil A]
    exact ⟨hrel, hintact, h.limit, fun i => written_compact h hc i⟩
  | createSnapshot | setHardstate | setApplied | reopen =>
    exact hother rfl rfl (exec_keeps_entries hexec (by simp))

/-- **Run**: the account of a sequence of operations is all that they append. -/
theorem Accounted.forM (ops : List PlainLog.Op) : ∀ {A : List Entry} {fs fs' : Fs}
    {l l' : PlainLog}, Accounted A fs.dir l → ops.foldlM PlainLog.step? l = some l' →
    ops.forM FsStorage.exec fs = .ok () fs' →
    Accounted (A ++ ops.flatMap PlainLog.Op.batch) fs'.dir l' := by
  induction ops with
  | nil =>
    intro A fs fs' l l' h hrun hfs
    obtain rfl := Option.some.inj hrun
    obtain rfl := eq_of_ok (m := pure ()) (a := ()) rfl hfs
    rwa [List.flatMap_nil, List.append_nil]
  | cons op ops ih =>
    intro A fs fs' l l' h hrun hfs
    rw [List.foldlM_cons] at hrun
    obtain ⟨l₁, hop, hrest⟩ := Option.bind_eq_some_iff.mp hrun
    obtain ⟨fs₁, hexec, -⟩ := exec_rel h.rel hop
    have hcons : (op :: ops).forM FsStorage.exec fs = ops.forM FsStorage.exec fs₁ := by
      show (FsStorage.exec op >>= fun _ => ops.forM FsStorage.exec) fs = _
      rw [bind_of_ok hexec]
    rw [List.flatMap_cons, ← List.append_assoc]
    exact ih (h.exec hop hexec) hrest (hcons.symm.trans hfs)

theorem Reaches.accounted {ops : List PlainLog.Op} {fs : Fs} (h : Reaches ops fs)
    (hl : ops.foldlM PlainLog.step? PlainLog.initial = some l) :
    Accounted (ops.flatMap PlainLog.Op.batch) fs.dir l := by
  unfold Reaches at h
  rw [bind_of_ok (ioResult_of_ok withDataDir_emptyDir)] at h
  exact Accounted.forM ops (A := []) accounted_newStore hl h

/-! ## What can be observed -/

theorem Accounted.readFirst (h : Accounted A d l) : readFirstIndex d = .ok (l.boundary + 1) :=
  h.rel.holds.readFirst

theorem Accounted.readLast (h : Accounted A d l) : readLastIndex d = .ok l.lastIndex := by
  rw [h.rel.holds.readLast]
  simp only [PlainLog.firstIndex, PlainLog.lastIndex]
  congr 1
  omega

/-- If the log is as long as it ever was, no file lies behind it. -/
theorem Accounted.entry_none (h : Accounted A d l) (hA : ∀ e ∈ A, e.index ≤ l.lastIndex) {i : Nat}
    (hi : l.lastIndex < i) : d (.entry i) = none := by
  rw [← Option.not_isSome_iff_eq_none, h.written]
  intro hw
  obtain ⟨-, e, he, hle⟩ := hw
  have := hA e he
  omega

/-- Otherwise the file right behind it is still there. -/
theorem Accounted.entry_isSome (h : Accounted A d l) {e : Entry} (he : e ∈ A)
    (hlt : l.lastIndex < e.index) : (d (.entry (l.lastIndex + 1))).isSome := by
  refine (h.written _).mpr ⟨?_, e, he, hlt⟩
  simp only [PlainLog.lastIndex]
  omega

theorem Accounted.unobservable_iff (h : Accounted A d l) :
    Unobservable d ↔ ∀ e ∈ A, e.index ≤ l.lastIndex := by
  constructor
  · intro hd e he
    by_contra hlt
    have hlim := h.limit e he
    obtain ⟨x, hx, -⟩ := h.intact.readEntry (h.entry_isSome he (by omega))
    exact (hd _ _ (l.lastIndex + 1) h.readFirst h.readLast (by omega) (by omega)).1 x.term
      (term_of_readEntry hx)
  · intro hA first last i hfirst hlast hi _
    obtain rfl := Except.ok.inj (h.readFirst.symm.trans hfirst)
    obtain rfl := Except.ok.inj (h.readLast.symm.trans hlast)
    have hnone := h.entry_none hA hi
    have hb : l.boundary ≤ l.lastIndex := by
      simp only [PlainLog.lastIndex]
      omega
    -- the missing file stops `compact` before it writes anything
    obtain ⟨k, hk⟩ := readEntries_of_none (l.boundary + 1)
      (i + 1 - (l.boundary + 1)) (by omega) (by omega) hnone
    have hcompact : StorageExt.compact (⟨d⟩ : FsStorage) i
        = { result := .error (.err (.Io k)), store := ⟨d⟩, ops := [] } := by
      show call (compact i) ⟨d⟩ = _
      unfold call
      rw [compact_of_error hfirst (by omega) hk]
    rw [hcompact]
    exact ⟨term_off_boundary hnone (by omega) hfirst (by omega) h.rel.compacted, ⟨_, rfl⟩, hfirst,
      hlast, rfl, fun _ _ _ => rfl⟩

/-- Stores that agree, with nothing behind their logs, have the same files. -/
theorem Accounted.dir_eq {A' : List Entry} (h : Accounted A d l) (h' : Accounted A' d' l')
    (hA : ∀ e ∈ A, e.index ≤ l.lastIndex) (hA' : ∀ e ∈ A', e.index ≤ l'.lastIndex)
    (hagree : Agree d d') : d = d' := by
  have hboundary : l.boundary + 1 = l'.boundary + 1 :=
    Except.ok.inj ((h.readFirst.symm.trans hagree.firstIndex).trans h'.readFirst)
  have hlast : l.lastIndex = l'.lastIndex :=
    Except.ok.inj ((h.readLast.symm.trans hagree.lastIndex).trans h'.readLast)
  refine h.intact.ext h'.intact ?_ hagree.hardState hagree.snapshot fun i => ?_
  · intro name hname
    cases name with
    | term => exact hagree.boundaryTerm
    | first => exact hagree.firstIndex
    | last => exact hagree.lastIndex
    | applied => exact hagree.applied
    | hardstate | snapshot | entry => exact hname.elim
  · rcases Nat.lt_or_ge l.boundary i with hlo | hlo
    · rcases Nat.lt_or_ge l.lastIndex i with hhi | hhi
      · rw [readEntry_of_none (h.entry_none hA hhi),
          readEntry_of_none (h'.entry_none hA' (by omega))]
      · exact hagree.live _ _ i h.readFirst h.readLast hlo hhi
    · rw [readEntry_of_none (h.rel.below i hlo), readEntry_of_none (h'.rel.below i (by omega))]

omit [Protobuf] in
theorem number_of_reply {s s' : FsStorage} {r r' : Except RaftError Nat} {n : Nat}
    (h : ((ask s r').reply Reply.number).result = ((ask s' r).reply Reply.number).result)
    (hr : r' = .ok n) : r = .ok n := by
  subst hr
  cases r with
  | ok m =>
    injection h with h
    injection h with h
    rw [h]
  | error k => cases h

/-- A leftover file tells a store from one without. -/
theorem Accounted.replies_eq_iff {A' : List Entry} (h : Accounted A d l)
    (h' : Accounted A' d' l') (hA' : ∀ e ∈ A', e.index ≤ l'.lastIndex) (hagree : Agree d d') :
    (∀ calls, StorageExt.replies (⟨d⟩ : FsStorage) calls
        = StorageExt.replies (⟨d'⟩ : FsStorage) calls) ↔
      ∀ e ∈ A, e.index ≤ l.lastIndex := by
  constructor
  · intro hreplies e he
    by_contra hlt
    have hlast : l.lastIndex = l'.lastIndex :=
      Except.ok.inj ((h.readLast.symm.trans hagree.lastIndex).trans h'.readLast)
    have hb : l'.boundary ≤ l'.lastIndex := by
      simp only [PlainLog.lastIndex]
      omega
    obtain ⟨x, hx, -⟩ := h.intact.readEntry (h.entry_isSome he (by omega))
    have hterm := term_of_readEntry hx
    refine term_off_boundary (h'.entry_none hA' (Nat.lt_succ_self _)) (by omega) h'.readFirst
      (by omega) h'.rel.compacted x.term ?_
    have hask : ((ask ⟨d⟩ (FsStorage.term d (l.lastIndex + 1))).reply Reply.number).result
        = ((ask ⟨d'⟩ (FsStorage.term d' (l.lastIndex + 1))).reply Reply.number).result :=
      (List.cons.inj (hreplies [.term (l.lastIndex + 1)])).1
    rw [← hlast]
    exact number_of_reply hask hterm
  · intro hA calls
    rw [h.dir_eq h' hA hA' hagree]

/-- **Truncated entries are unobservable exactly if there are none**: after any
operations that make sense, nothing shows behind the last index, and the store
answers like every store that agrees with it and has nothing behind its own
log, if and only if no entry was ever appended with a higher index. -/
theorem truncated_unobservable_iff (ops : List PlainLog.Op) (l : PlainLog)
    (h : ops.foldlM PlainLog.step? PlainLog.initial = some l) :
    ∃ fs, Reaches ops fs ∧ (Unobservable fs.dir ↔ l.AsLongAsEver ops) ∧
      ∀ ops' l' fs', ops'.foldlM PlainLog.step? PlainLog.initial = some l' → Reaches ops' fs' →
        l'.AsLongAsEver ops' → Agree fs.dir fs'.dir →
        ((∀ calls, StorageExt.replies (⟨fs.dir⟩ : FsStorage) calls
            = StorageExt.replies (⟨fs'.dir⟩ : FsStorage) calls) ↔ l.AsLongAsEver ops) := by
  obtain ⟨fs, hrun, -⟩ := fsStorage_refines_plainLog ops l h
  have hacc := Reaches.accounted hrun h
  refine ⟨fs, hrun, hacc.unobservable_iff, fun ops' l' fs' h' hrun' hlong hagree => ?_⟩
  exact hacc.replies_eq_iff (hrun'.accounted h') hlong hagree

end

end FsStorage

namespace FsStorage

open scoped Proto3

def replacedEntries : List Entry :=
  [{ term := 1, index := 1 }, { term := 1, index := 2 }, { term := 1, index := 3 }]

/-- Three entries, of which the last two are replaced by one. -/
def shortened : List PlainLog.Op :=
  [.append 1 replacedEntries, .append 2 [{ term := 2, index := 2 }]]

/-- And then a third entry again. -/
def regrown : List PlainLog.Op := shortened ++ [.append 3 [{ term := 2, index := 3 }]]

theorem truncated_unobservable_iff_regrown :
    ∃ l fs, regrown.foldlM PlainLog.step? PlainLog.initial = some l ∧ Reaches regrown fs ∧
      Unobservable fs.dir := by
  obtain ⟨l, hl⟩ : ∃ l, regrown.foldlM PlainLog.step? PlainLog.initial = some l :=
    Option.isSome_iff_exists.mp (by decide)
  have hlast : (regrown.foldlM PlainLog.step? PlainLog.initial).map (·.lastIndex) = some 3 := by
    decide
  obtain ⟨fs, hrun, hiff, -⟩ := truncated_unobservable_iff _ l hl
  refine ⟨l, fs, hl, hrun, hiff.mpr ?_⟩
  rw [hl] at hlast
  have hlast : l.lastIndex = 3 := Option.some.inj hlast
  unfold PlainLog.AsLongAsEver
  rw [hlast]
  decide

/-- The files of the shortened log. -/
def shortenedFs : Fs :=
  ((Fs.after { dir := emptyDir, ops := [] } initOps).after (appendOps replacedEntries)).after
    (appendOps [{ term := 2, index := 2 }])

/-- The third entry is in the log no more, and still found. -/
theorem shortened_shows_replaced :
    Reaches shortened shortenedFs ∧ FsStorage.lastIndex shortenedFs.dir = .ok 2 ∧
      FsStorage.term shortenedFs.dir 3 = .ok 1 ∧
      (StorageExt.compact (⟨shortenedFs.dir⟩ : FsStorage) 3).result = .ok () ∧
      FsStorage.firstIndex (StorageExt.compact (⟨shortenedFs.dir⟩ : FsStorage) 3).store.dir
        = .ok 4 ∧
      ¬ Unobservable shortenedFs.dir := by
  have hrun : Reaches shortened shortenedFs := by
    unfold Reaches
    rw [bind_of_ok (ioResult_of_ok (withDataDir_of_missing (by rfl)))]
    show (append replacedEntries >>= fun _ => append [{ term := 2, index := 2 }] >>= fun _ => pure ())
      _ = _
    rw [bind_of_ok (append_eq ..), bind_of_ok (append_eq ..)]
    rfl
  have hterm : FsStorage.term shortenedFs.dir 3 = .ok 1 := by decide +kernel
  refine ⟨hrun, by decide +kernel, hterm, by decide +kernel, by decide +kernel, fun h => ?_⟩
  exact (h 1 2 3 (by decide +kernel) (by decide +kernel) (by decide) (by decide)).1 1 hterm

end FsStorage

end SawtoothRaft
