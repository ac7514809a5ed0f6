import SawtoothRaft.Storage.Crash
import SawtoothRaft.Storage.Truncated

/-!
# Appending what has been compacted

A batch may begin below the first index, when a leader repeats entries that
the follower has compacted already. `append` does not look at the first index:
it writes every entry and takes the index of the last one for the end of the
log. So files come to lie below the boundary again, where `term` finds them,
and a batch that ends there moves the end of the log back behind its
beginning.

What should happen is that such entries are passed over
(`NotResurrected`). `append_below_first_iff` says for which batches this is
what can be seen: those that begin at the boundary itself and reach into the
log, and those that repeat nothing but the boundary of an empty log.

Nothing is assumed of the terms here.
-/

namespace SawtoothRaft

open Lib

namespace FsStorage

variable [Protobuf]

/-! ## The stores in question -/

/-- The stores reached by contiguous appends and compactions in range. -/
inductive Grown : FsStorage → Prop
  | new : Grown newStore
  | append {s : FsStorage} {first last start : Nat} {batch : List Entry} (h : Grown s)
    (hfirst : FsStorage.firstIndex s.dir = .ok first)
    (hlast : FsStorage.lastIndex s.dir = .ok last) (hlo : first ≤ start) (hhi : start ≤ last + 1)
    (hc : Contiguous start batch) (hlim : start + batch.length < 2 ^ 64) :
    Grown (StorageExt.append s batch).store
  | compact {s : FsStorage} {first last c : Nat} (h : Grown s)
    (hfirst : FsStorage.firstIndex s.dir = .ok first)
    (hlast : FsStorage.lastIndex s.dir = .ok last) (hlo : first ≤ c) (hhi : c ≤ last) :
    Grown (StorageExt.compact s c).store

/-- The directory holds the log, and nothing below it. -/
structure Trimmed (d : Dir) (first : Nat) (es : List Entry) : Prop where
  holds : Holds d first es
  below : ∀ i, i < first → d (.entry i) = none
  intact : Intact (fun _ => True) d
  limit : first + es.length < 2 ^ 64

section
variable {s : FsStorage} {d : Dir} {first last start c : Nat} {es batch : List Entry}

theorem trimmed_newStore : Trimmed newStore.dir 1 [] where
  holds := rel_init.holds
  below i _ := newStore_entry i
  intact := intact_newStore
  limit := by simp

theorem Trimmed.append (h : Trimmed s.dir first es) (hlo : first ≤ start)
    (hhi : start ≤ first + es.length) (hc : Contiguous start batch)
    (hlim : start + batch.length < 2 ^ 64) :
    ∃ es', Trimmed (StorageExt.append s batch).store.dir first es' := by
  have hintact : Intact (fun _ => True) (StorageExt.append s batch).store.dir :=
    h.intact.serve (c := .append batch) fun _ _ => trivial
  rw [append_dir] at hintact ⊢
  by_cases hne : batch = []
  · subst hne
    exact ⟨es, h⟩
  · refine ⟨_, h.holds.append hc hne hlo hhi hlim, fun i hi => ?_, hintact, ?_⟩
    · exact ((appended s.dir hc).kept i (by omega)).trans (h.below i hi)
    · rw [List.length_append, List.length_take]
      omega

theorem Trimmed.compact (h : Trimmed s.dir first es) (hlo : first ≤ c)
    (hhi : c < first + es.length) :
    ∃ es', Trimmed (StorageExt.compact s c).store.dir (c + 1) es' := by
  have hintact : Intact (fun _ => True) (StorageExt.compact s c).store.dir :=
    h.intact.serve (c := .compact c) trivial
  have hcont := h.holds.contiguous.take (c + 1 - first)
  have hlen : (es.take (c + 1 - first)).length = c + 1 - first := by
    rw [List.length_take]
    omega
  have hne : es.take (c + 1 - first) ≠ [] := by
    intro hnil
    rw [hnil] at hlen
    simp at hlen
    omega
  obtain ⟨e, he⟩ : ∃ e, (es.take (c + 1 - first)).getLast? = some e :=
    ⟨_, List.getLast?_eq_some_getLast hne⟩
  have hidx : e.index = c := by
    have := hcont.index_getLast he
    omega
  have hcomp := compacted s.dir hcont he
  have hdir : (StorageExt.compact s c).store.dir
      = replay s.dir (compactOps (es.take (c + 1 - first))) := by
    show (call (FsStorage.compact c) s).store.dir = _
    unfold call
    have hrun : FsStorage.compact c { dir := s.dir, ops := [] } = _ :=
      compact_eq h.holds.readFirst hlo (h.holds.readEntries_eq hlo hhi) hcont
    rw [hrun]
    rfl
  rw [hdir] at hintact ⊢
  have hlimit := h.limit
  have hstart : first + (c + 1 - first) = c + 1 := by omega
  refine ⟨es.drop (c + 1 - first), ?_, fun i hi => ?_, hintact, ?_⟩
  · have := h.holds.drop (n := c + 1 - first) (by omega) ?_
      (hcomp.other .last (by simp) (by simp) (by simp)) fun i hi => hcomp.kept i (by omega)
    · rwa [hstart] at this
    · rw [hstart]
      refine readU64_of_eq (n := c + 1) ?_ (by omega)
      rw [hcomp.firstFile, hidx]
  · refine hcomp.gone i (by omega) ?_
    rcases Nat.lt_or_ge i first with hb | hb
    · exact Or.inr (h.below i hb)
    · exact Or.inl hb
  · rw [List.length_drop]
    omega

/-- **Run**: a store so reached holds a log, and no file below it. -/
theorem Grown.trimmed (h : Grown s) : ∃ first es, Trimmed s.dir first es := by
  induction h with
  | new => exact ⟨1, [], trimmed_newStore⟩
  | append _ hfirst hlast hlo hhi hc hlim ih =>
    obtain ⟨first, es, ih⟩ := ih
    have hf := Except.ok.inj (ih.holds.firstIndex_eq.symm.trans hfirst)
    have hl := Except.ok.inj (ih.holds.lastIndex_eq.symm.trans hlast)
    have := ih.holds.pos
    exact ⟨first, ih.append (by omega) (by omega) hc hlim⟩
  | compact _ hfirst hlast hlo hhi ih =>
    obtain ⟨first, es, ih⟩ := ih
    have hf := Except.ok.inj (ih.holds.firstIndex_eq.symm.trans hfirst)
    have hl := Except.ok.inj (ih.holds.lastIndex_eq.symm.trans hlast)
    have := ih.holds.pos
    exact ⟨_, ih.compact (by omega) (by omega)⟩

end

/-! ## A batch that begins below the log -/

/-- Of a batch that begins at `start`, below the first index, nothing is to be
seen but what lies in the log. -/
structure NotResurrected (d d' : Dir) (first start : Nat) (batch : List Entry) : Prop where
  firstIndex : FsStorage.firstIndex d' = .ok first
  lastIndex : ∃ last, FsStorage.lastIndex d' = .ok last ∧ first ≤ last + 1
  stale : start + batch.length ≤ first → ∀ c : Call, c.IsQuery →
    (StorageExt.serve (⟨d'⟩ : FsStorage) c).result = (StorageExt.serve (⟨d⟩ : FsStorage) c).result
  live : first < start + batch.length → Sees d' first (batch.drop (first - start))
  older : ∀ i t, 0 < i → i < first - 1 → FsStorage.term d' i ≠ .ok t

/-- The batch begins at the boundary and reaches into the log, or it is the
boundary of an empty log, with its term. -/
def Repeats (d : Dir) (first last start : Nat) (batch : List Entry) : Prop :=
  batch = [] ∨ start + 1 = first ∧ (2 ≤ batch.length ∨
    last + 1 = first ∧ ∃ e, batch = [e] ∧ FsStorage.term d start = .ok e.term)

section
variable {d d' : Dir} {first start : Nat} {es batch : List Entry}

/-- What can be asked of a store depends on the files that are read. -/
theorem serve_congr (hother : ∀ name, name ≠ .last → (∀ i, name ≠ .entry i) → d' name = d name)
    (hlast : FsStorage.lastIndex d' = FsStorage.lastIndex d)
    (hterm : ∀ i, FsStorage.term d' i = FsStorage.term d i)
    (hentries : ∀ low high m, FsStorage.entries d' low high m = FsStorage.entries d low high m)
    {c : Call} (hc : c.IsQuery) :
    (StorageExt.serve (⟨d'⟩ : FsStorage) c).result
      = (StorageExt.serve (⟨d⟩ : FsStorage) c).result := by
  have hresult : ∀ {α : Type} {r r' : Except RaftError α} (f : α → Reply), r' = r →
      ((ask (⟨d'⟩ : FsStorage) r').reply f).result
        = ((ask (⟨d⟩ : FsStorage) r).reply f).result := by
    intro α r r' f h
    rw [h]
    rfl
  have hsnap : readSnapshot d' = readSnapshot d :=
    readPb_congr (hother .snapshot (by simp) (by simp))
  cases c with
  | initialState =>
    refine hresult _ ?_
    unfold FsStorage.initialState readRaftState readConfState
    rw [hsnap, show readHardState d' = readHardState d from
      readPb_congr (hother .hardstate (by simp) (by simp))]
  | entries low high m => exact hresult _ (hentries low high m)
  | term idx => exact hresult _ (hterm idx)
  | firstIndex =>
    refine hresult _ (congrArg ioQuery ?_)
    exact readU64_congr (hother .first (by simp) (by simp))
  | lastIndex => exact hresult _ hlast
  | snapshot => exact hresult _ (congrArg ioQuery hsnap)
  | applied =>
    refine hresult _ (congrArg ioQuery ?_)
    exact readU64_congr (hother .applied (by simp) (by simp))
  | setHardstate | applySnapshot | createSnapshot | compact | append | setApplied =>
    exact absurd hc (by simp [Call.IsQuery])

theorem Trimmed.older (h : Trimmed d first es)
    (hother : ∀ name, name ≠ .last → (∀ i, name ≠ .entry i) → d' name = d name)
    (hkept : ∀ i, i < first - 1 → d' (.entry i) = d (.entry i)) (i t : Nat) (hpos : 0 < i)
    (hi : i < first - 1) : FsStorage.term d' i ≠ .ok t := by
  obtain ⟨compacted, -, hterm⟩ := h.intact.readNumber .term trivial
  have hfirst : readFirstIndex d' = .ok first :=
    (readU64_congr (hother .first (by simp) (by simp))).trans h.holds.readFirst
  have hterm' : readCompactedTerm d' = .ok compacted :=
    (readU64_congr (hother .term (by simp) (by simp))).trans hterm
  have hnone : d' (.entry i) = none := (hkept i hi).trans (h.below i (by omega))
  exact term_off_boundary hnone hpos hfirst (by omega) hterm' t

/-- A batch that reaches into the log from below leaves its upper part as the
log. -/
theorem Trimmed.live (h : Trimmed d first es) (happ : Appended d d' start batch)
    (hlt : start < first) (hc : Contiguous start batch) (hlim : start + batch.length < 2 ^ 64)
    (hreach : first < start + batch.length) : Sees d' first (batch.drop (first - start)) := by
  have hne : batch ≠ [] := by
    intro hnil
    rw [hnil] at hreach
    simp at hreach
    omega
  refine Holds.sees ⟨?_, ?_, h.holds.pos, ?_, ?_⟩
  · exact (readU64_congr (happ.other .first (by simp) (by simp))).trans h.holds.readFirst
  · rw [happ.readLast hc hne hlim, List.length_drop]
    congr 1
    omega
  · have := hc.drop (n := first - start) (by omega)
    rwa [show start + (first - start) = first by omega] at this
  · intro k e he
    rw [List.getElem?_drop] at he
    have := happ.readEntry_eq he
    rwa [show start + (first - start + k) = first + k by omega] at this

theorem repeats_of_notResurrected (h : Trimmed d first es) (happ : Appended d d' start batch)
    (hpos : 1 ≤ start) (hlt : start < first) (hc : Contiguous start batch)
    (hlim : start + batch.length < 2 ^ 64) (hnot : NotResurrected d d' first start batch) :
    Repeats d first (first + es.length - 1) start batch := by
  rcases batch with _ | ⟨e, rest⟩
  · exact Or.inl rfl
  have hfile : readEntry d' start = .ok e := happ.readEntry_eq (k := 0) rfl
  have hterm := term_of_readEntry hfile
  right
  constructor
  · -- otherwise the batch's first entry is found before the boundary
    by_contra hne
    exact hnot.older start e.term hpos (by omega) hterm
  · rcases rest with _ | ⟨x, rest⟩
    · right
      -- a single entry ends below the log, and nothing may change
      have hsame := hnot.stale (by simp; omega)
      have hlast : FsStorage.lastIndex d = .ok start :=
        number_of_reply (hsame .lastIndex trivial)
          (ioQuery_eq_ok.mpr (happ.readLast hc (by simp) hlim))
      have hterm' : FsStorage.term d start = .ok e.term :=
        number_of_reply (hsame (.term start) trivial) hterm
      have := Except.ok.inj (hlast.symm.trans h.holds.lastIndex_eq)
      exact ⟨by omega, e, rfl, hterm'⟩
    · left
      simp

theorem notResurrected_of_repeats (h : Trimmed d first es) (happ : Appended d d' start batch)
    (hpos : 1 ≤ start) (hlt : start < first) (hc : Contiguous start batch) (hne : batch ≠ [])
    (hlim : start + batch.length < 2 ^ 64) (hstart : start + 1 = first)
    (hrep : 2 ≤ batch.length ∨ first + es.length - 1 + 1 = first ∧
      ∃ e, batch = [e] ∧ FsStorage.term d start = .ok e.term) :
    NotResurrected d d' first start batch := by
  have hreadFirst : readFirstIndex d' = readFirstIndex d :=
    readU64_congr (happ.other .first (by simp) (by simp))
  have hlen : 1 ≤ batch.length := List.length_pos_iff.mpr hne
  refine ⟨?_, ⟨_, ioQuery_eq_ok.mpr (happ.readLast hc hne hlim), by omega⟩, fun hstale => ?_,
    h.live happ hlt hc hlim, h.older happ.other fun i hi => happ.kept i (by omega)⟩
  · exact ioQuery_eq_ok.mpr (hreadFirst.trans h.holds.readFirst)
  -- one entry: the boundary of an empty log is written into its file
  rcases hrep with hrep | ⟨hempty, e, rfl, hterm⟩
  · omega
  have hone : [e].length = 1 := rfl
  have hlast' := happ.readLast hc hne hlim
  have hlast := h.holds.readLast
  intro c hcq
  refine serve_congr happ.other ?_ (fun i => ?_) (fun low high m => ?_) hcq
  · rw [FsStorage.lastIndex, FsStorage.lastIndex, hlast', hlast]
    congr 2
    omega
  · by_cases hi : i = start
    · subst hi
      rw [hterm]
      exact term_of_readEntry (happ.readEntry_eq (k := 0) rfl)
    · have hentry : readEntry d' i = readEntry d i := readPb_congr (happ.kept i (by omega))
      have hcompacted : readCompactedTerm d' = readCompactedTerm d :=
        readU64_congr (happ.other .term (by simp) (by simp))
      unfold FsStorage.term FsStorage.firstIndex
      rw [hentry, hreadFirst, hcompacted]
  · -- the log is empty before and after, so that no file is opened
    have hclosed : ∀ {d : Dir} {last : Nat}, readFirstIndex d = .ok first →
        readLastIndex d = .ok last → last < first →
        FsStorage.entries d low high m = errCompacted := by
      intro d last hf hl hgt
      unfold FsStorage.entries
      rw [hf, hl]
      by_cases hlow : low > high
      · rw [if_pos hlow]
      · rw [if_neg hlow]
        show (if first > last then errCompacted else _) = _
        rw [if_pos hgt]
    rw [hclosed (hreadFirst.trans h.holds.readFirst) hlast' (by omega),
      hclosed h.holds.readFirst hlast (by omega)]

end

/-- **Compacted entries are passed over exactly if** the batch is empty, or
begins at the boundary and reaches into the log, or is the boundary of an empty
log with its own term. -/
theorem append_below_first_iff {s : FsStorage} (h : Grown s) {first last start : Nat}
    {batch : List Entry} (hfirst : FsStorage.firstIndex s.dir = .ok first)
    (hlast : FsStorage.lastIndex s.dir = .ok last) (hpos : 1 ≤ start) (hlt : start < first)
    (hc : Contiguous start batch) (hlim : start + batch.length < 2 ^ 64) :
    NotResurrected s.dir (StorageExt.append s batch).store.dir first start batch ↔
      Repeats s.dir first last start batch := by
  obtain ⟨first', es, htrim⟩ := h.trimmed
  obtain rfl := Except.ok.inj (hfirst.symm.trans htrim.holds.firstIndex_eq)
  obtain rfl := Except.ok.inj (hlast.symm.trans htrim.holds.lastIndex_eq)
  rw [append_dir]
  have happ := appended s.dir hc
  constructor
  · exact repeats_of_notResurrected htrim happ hpos hlt hc hlim
  · intro hrep
    by_cases hne : batch = []
    · subst hne
      refine ⟨hfirst, ⟨_, hlast, by omega⟩, fun _ _ _ => rfl, ?_, ?_⟩
      · intro hreach
        simp at hreach
        omega
      · exact htrim.older (fun _ _ _ => rfl) fun _ _ => rfl
    · obtain ⟨hstart, hrep⟩ := hrep.resolve_left hne
      exact notResurrected_of_repeats htrim happ hpos hlt hc hne hlim hstart hrep

end FsStorage

namespace FsStorage

open scoped Proto3

/-- Three entries, the first two of which are compacted away. -/
def trimmedStore : FsStorage :=
  (StorageExt.compact (StorageExt.append newStore replacedEntries).store 2).store

theorem trimmedStore_grown : Grown trimmedStore := by
  have hfirst : FsStorage.firstIndex newStore.dir = .ok 1 := by decide +kernel
  have hlast : FsStorage.lastIndex newStore.dir = .ok 0 := by decide +kernel
  have hcont : Contiguous 1 replacedEntries := by decide
  have happend : Grown (StorageExt.append newStore replacedEntries).store :=
    .append .new hfirst hlast (by decide) (by decide) hcont (by decide)
  have hfirst' : FsStorage.firstIndex (StorageExt.append newStore replacedEntries).store.dir
      = .ok 1 := by decide +kernel
  have hlast' : FsStorage.lastIndex (StorageExt.append newStore replacedEntries).store.dir
      = .ok 3 := by decide +kernel
  exact .compact happend hfirst' hlast' (by decide) (by decide)

/-- A batch from the boundary on, with a new third entry. -/
theorem append_below_first_iff_reaching :
    NotResurrected trimmedStore.dir
      (StorageExt.append trimmedStore
        [{ term := 1, index := 2 }, { term := 2, index := 3 }]).store.dir 3 2
      [{ term := 1, index := 2 }, { term := 2, index := 3 }] := by
  have hlast : FsStorage.lastIndex trimmedStore.dir = .ok 3 := by decide +kernel
  exact (append_below_first_iff trimmedStore_grown (by decide +kernel) hlast (by decide)
    (by decide) (by decide) (by decide)).mpr (Or.inr ⟨rfl, Or.inl (by decide)⟩)

/-- The first entry is sent once more: it is found again, and the log ends
before it begins. -/
theorem append_resurrects_first :
    Grown trimmedStore ∧ FsStorage.firstIndex trimmedStore.dir = .ok 3 ∧
      FsStorage.term trimmedStore.dir 1 = .error (.Store .Compacted) ∧
      FsStorage.lastIndex (StorageExt.append trimmedStore
        [{ term := 1, index := 1 }]).store.dir = .ok 1 ∧
      FsStorage.term (StorageExt.append trimmedStore
        [{ term := 1, index := 1 }]).store.dir 1 = .ok 1 ∧
      ¬ NotResurrected trimmedStore.dir (StorageExt.append trimmedStore
        [{ term := 1, index := 1 }]).store.dir 3 1 [{ term := 1, index := 1 }] := by
  have hterm : FsStorage.term (StorageExt.append trimmedStore
      [{ term := 1, index := 1 }]).store.dir 1 = .ok 1 := by decide +kernel
  refine ⟨trimmedStore_grown, by decide +kernel, by decide +kernel, by decide +kernel, hterm,
    fun hnot => ?_⟩
  exact hnot.older 1 1 (by decide) (by decide) hterm

end FsStorage

end SawtoothRaft
