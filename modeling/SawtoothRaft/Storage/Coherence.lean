import SawtoothRaft.Storage.CachedStorage
import SawtoothRaft.Storage.FsSpec

/-!
# The cache in front of `FsStorage` cannot be seen

A client of a storage sees the answers to its calls and nothing else. `replies`
lists them for a sequence of calls, and the result of this module is that the
list is the same with and without the cache (`cached_replies_eq`), failing
calls and mutators that stop half-way included.

The invariant is `Coherent`: every remembered answer is what the directory
would answer now. An entry in the LRU cache needs more than that, because a
hit skips the bounds check of `FsStorage::entries`: it must lie within the
bounds of the log and be filed under its own index (`Stored`). The latter is
where the assumption on the directory enters, and the mutators keep it
(`WellIndexed`).

For an empty range the two do differ: the cache has the answer `[]` at once,
where an emptied log answers `Compacted`. Hence `Call.Proper`.
-/

namespace SawtoothRaft

open Lib

/-! ## Calls and their answers -/

/-- A call of a method of `StorageExt`. -/
inductive Call where
  | initialState
  | entries (low high maxSize : Nat)
  | term (idx : Nat)
  | firstIndex
  | lastIndex
  | snapshot
  | setHardstate (hardState : HardState)
  | applySnapshot (snapshot : Snapshot)
  | createSnapshot (index : Nat) (confState : Option ConfState) (data : Bytes)
  | compact (compactIndex : Nat)
  | append (entries : List Entry)
  | applied
  | setApplied (applied : Nat)

/-- The value a successful call returns. -/
inductive Reply where
  | raftState (rs : RaftState)
  | entries (es : List Entry)
  | number (n : Nat)
  | snapshot (s : Snapshot)
  | unit
  deriving DecidableEq

def Outcome.reply {S α : Type} (o : Outcome S α) (f : α → Reply) : Outcome S Reply :=
  { result := o.result.map f, store := o.store, ops := o.ops }

def StorageExt.serve {S : Type} [StorageExt S] (s : S) : Call → Outcome S Reply
  | .initialState => (StorageExt.initialState s).reply .raftState
  | .entries low high maxSize => (StorageExt.entries s low high maxSize).reply .entries
  | .term idx => (StorageExt.term s idx).reply .number
  | .firstIndex => (StorageExt.firstIndex s).reply .number
  | .lastIndex => (StorageExt.lastIndex s).reply .number
  | .snapshot => (StorageExt.snapshot s).reply .snapshot
  | .setHardstate hardState => (StorageExt.setHardstate s hardState).reply fun _ => .unit
  | .applySnapshot snapshot => (StorageExt.applySnapshot s snapshot).reply fun _ => .unit
  | .createSnapshot index confState data =>
    (StorageExt.createSnapshot s index confState data).reply .snapshot
  | .compact compactIndex => (StorageExt.compact s compactIndex).reply fun _ => .unit
  | .append entries => (StorageExt.append s entries).reply fun _ => .unit
  | .applied => (StorageExt.applied s).reply .number
  | .setApplied applied => (StorageExt.setApplied s applied).reply fun _ => .unit

/-- The answers to a sequence of calls, one after the other. -/
def StorageExt.replies {S : Type} [StorageExt S] (s : S) : List Call → List (Except Fault Reply)
  | [] => []
  | c :: cs =>
    let o := StorageExt.serve s c
    o.result :: StorageExt.replies o.store cs

/-- Ranges are not empty. -/
def Call.Proper : Call → Prop
  | .entries low high _ => low < high
  | _ => True

namespace CachedStorage

variable [Protobuf] {C : Type → Type} [L : LruCache cacheSize C] {α : Type}

open FsStorage (readEntry readEntries readFirstIndex readLastIndex ask call Traced StoreOp)

/-! ## Coherence -/

/-- Every entry file holds an entry of its own index. -/
def WellIndexed (d : Dir) : Prop := ∀ i e, readEntry d i = .ok e → e.index = i

/-- The entry is in the log, and filed under its index. -/
structure Stored (d : Dir) (e : Entry) : Prop where
  file : readEntry d e.index = .ok e
  bounds : ∃ first last, readFirstIndex d = .ok first ∧ readLastIndex d = .ok last ∧
    first ≤ e.index ∧ e.index ≤ last

/-- Whatever is remembered is what the directory answers. -/
structure Coherent (d : Dir) (cache : StorageCache C) : Prop where
  initialState : ∀ a, cache.initialState = some a → FsStorage.initialState d = .ok a
  firstIndex : ∀ a, cache.firstIndex = some a → FsStorage.firstIndex d = .ok a
  lastIndex : ∀ a, cache.lastIndex = some a → FsStorage.lastIndex d = .ok a
  snapshot : ∀ a, cache.snapshot = some a → FsStorage.snapshot d = .ok a
  entries : ∀ c, cache.entries = some c → ∀ e ∈ L.contents c, Stored d e
  terms : ∀ p ∈ L.contents cache.terms, FsStorage.term d p.1 = .ok p.2

/-- An empty cache is coherent with any directory. -/
theorem coherent_fresh (d : Dir) : Coherent d (StorageCache.fresh : StorageCache C) where
  initialState := by simp [StorageCache.fresh]
  firstIndex := by simp [StorageCache.fresh]
  lastIndex := by simp [StorageCache.fresh]
  snapshot := by simp [StorageCache.fresh]
  entries := by simp [StorageCache.fresh]
  terms := by simp [StorageCache.fresh, L.contents_empty]

/-- After a reset nothing is remembered. -/
theorem coherent_reset (d : Dir) (cache : StorageCache C) : Coherent d cache.reset where
  initialState := by simp [StorageCache.reset]
  firstIndex := by simp [StorageCache.reset]
  lastIndex := by simp [StorageCache.reset]
  snapshot := by simp [StorageCache.reset]
  entries := by
    intro c hc e he
    obtain ⟨c₀, -, rfl⟩ := Option.map_eq_some_iff.mp hc
    simp [EntryCache.clear, L.contents_evictAll] at he
  terms := by simp [StorageCache.reset, TermCache.clear, L.contents_evictAll]

/-- `set_applied` changes a file that no remembered answer depends on. -/
theorem Coherent.congr {d d' : Dir} {cache : StorageCache C} (h : Coherent d cache)
    (hd : ∀ name, name ≠ .applied → d' name = d name) : Coherent d' cache := by
  have hentry : ∀ i, readEntry d' i = readEntry d i := fun i => readPb_congr (hd _ (by simp))
  have hfirst : readFirstIndex d' = readFirstIndex d := readU64_congr (hd _ (by simp))
  have hlast : readLastIndex d' = readLastIndex d := readU64_congr (hd _ (by simp))
  have hterm : FsStorage.readCompactedTerm d' = FsStorage.readCompactedTerm d :=
    readU64_congr (hd _ (by simp))
  have hhs : FsStorage.readHardState d' = FsStorage.readHardState d := readPb_congr (hd _ (by simp))
  have hsnap : FsStorage.readSnapshot d' = FsStorage.readSnapshot d := readPb_congr (hd _ (by simp))
  constructor
  · intro a ha
    rw [← h.initialState a ha]
    unfold FsStorage.initialState FsStorage.readRaftState FsStorage.readConfState
    rw [hhs, hsnap]
  · intro a ha
    rw [← h.firstIndex a ha]
    unfold FsStorage.firstIndex
    rw [hfirst]
  · intro a ha
    rw [← h.lastIndex a ha]
    unfold FsStorage.lastIndex
    rw [hlast]
  · intro a ha
    rw [← h.snapshot a ha]
    unfold FsStorage.snapshot
    rw [hsnap]
  · intro c hc e he
    obtain ⟨hfile, first, last, h1, h2, hb⟩ := h.entries c hc e he
    exact ⟨(hentry _).trans hfile, first, last, hfirst.trans h1, hlast.trans h2, hb⟩
  · intro p hp
    rw [← h.terms p hp]
    unfold FsStorage.term FsStorage.firstIndex
    rw [hentry, hfirst, hterm]

/-- A store operation keeps every entry under its own index. -/
theorem WellIndexed.apply {d : Dir} {op : FileOp} (h : WellIndexed d) (hop : StoreOp op) :
    WellIndexed (op.apply d) := by
  intro i e he
  by_cases hname : op.name = .entry i
  · cases op with
    -- a store writes an entry under its own index only
    | write name b =>
      obtain rfl : name = .entry i := hname
      obtain ⟨e₀, rfl, rfl⟩ := hop.entry i b rfl
      have hread : readEntry ((FileOp.write (.entry e₀.index)
          (Protobuf.entry.writeToBytes e₀)).apply d) e₀.index = .ok e₀ :=
        readPb_of_eq (apply_write_self ..)
      rw [← Except.ok.inj (hread.symm.trans he)]
    | remove name =>
      obtain rfl : name = .entry i := hname
      have := FsStorage.isSome_of_readEntry he
      rw [apply_remove_self] at this
      exact absurd this (by simp)
  · exact h i e ((readPb_congr (apply_of_ne hname)).symm.trans he)

theorem WellIndexed.replay {ops : List FileOp} {d : Dir} (h : WellIndexed d)
    (hops : ∀ op ∈ ops, StoreOp op) : WellIndexed (replay d ops) := by
  induction ops generalizing d with
  | nil => exact h
  | cons op ops ih =>
    rw [replay_cons]
    refine ih (h.apply (hops op (List.mem_cons_self ..))) ?_
    exact fun op' hop => hops op' (List.mem_cons_of_mem _ hop)

/-- A call leaves a well-indexed directory behind, whether or not it succeeds. -/
theorem WellIndexed.call {s : FsStorage} {m : FsM Fault α} (h : WellIndexed s.dir)
    (hm : Traced StoreOp m) : WellIndexed (FsStorage.call m s).store.dir := by
  obtain ⟨hops, hdir⟩ := hm.call s
  rw [hdir]
  exact h.replay hops

/-! ## Simulation of one call -/

/-- The cached call answers like the bare one, reaches the same directory and
leaves the cache coherent. -/
structure Sim (o : Outcome (CachedStorage C FsStorage) α) (o' : Outcome FsStorage α) : Prop where
  result : o.result = o'.result
  storage : o.store.storage = o'.store
  coherent : Coherent o.store.storage.dir o.store.cache
  wellIndexed : WellIndexed o.store.storage.dir

theorem Sim.reply {o : Outcome (CachedStorage C FsStorage) α} {o' : Outcome FsStorage α}
    (h : Sim o o') (f : α → Reply) : Sim (o.reply f) (o'.reply f) :=
  ⟨congrArg (Except.map f) h.result, h.storage, h.coherent, h.wellIndexed⟩

theorem sim_hit {s : CachedStorage C FsStorage} {cache : StorageCache C} {a : α}
    {r : Except RaftError α} (hr : r = .ok a) (hc : Coherent s.storage.dir cache)
    (hw : WellIndexed s.storage.dir) : Sim (hit s a cache) (ask s.storage r) := by
  subst hr
  exact ⟨rfl, rfl, hc, hw⟩

theorem sim_callDown {s : FsStorage} {cache : StorageCache C} {remember : α → StorageCache C}
    {r : Except RaftError α} (hc : Coherent s.dir cache)
    (hr : ∀ a, r = .ok a → Coherent s.dir (remember a)) (hw : WellIndexed s.dir) :
    Sim (callDown cache (ask s r) remember) (ask s r) := by
  cases r with
  | ok a => exact ⟨rfl, rfl, hr a rfl, hw⟩
  | error e => exact ⟨rfl, rfl, hc, hw⟩

/-- A slot that holds the store's answer, or nothing. -/
theorem sim_remembered {s : CachedStorage C FsStorage} {slot : Option α}
    {f : Dir → Except RaftError α} {remember : α → StorageCache C}
    (hslot : ∀ a, slot = some a → f s.storage.dir = .ok a) (hc : Coherent s.storage.dir s.cache)
    (hr : ∀ a, f s.storage.dir = .ok a → Coherent s.storage.dir (remember a))
    (hw : WellIndexed s.storage.dir) :
    Sim (remembered s slot (fun s => ask s (f s.dir)) remember)
      (ask s.storage (f s.storage.dir)) := by
  cases slot with
  | some a => exact sim_hit (hslot a rfl) hc hw
  | none => exact sim_callDown hc hr hw

/-- A mutator that resets the cache may do anything a store may do. -/
theorem sim_mutate {s : CachedStorage C FsStorage} {m : FsM Fault α} (hm : Traced StoreOp m)
    (hw : WellIndexed s.storage.dir) : Sim (mutate s (call m)) (call m s.storage) := by
  have hw' := hw.call hm
  unfold mutate callDown
  cases hr : (call m s.storage).result with
  | ok a => exact ⟨hr.symm, rfl, coherent_reset _ _, hw'⟩
  | error e => exact ⟨hr.symm, rfl, coherent_reset _ _, hw'⟩

theorem sim_setApplied {s : CachedStorage C FsStorage} (a : Nat)
    (hc : Coherent s.storage.dir s.cache) (hw : WellIndexed s.storage.dir) :
    Sim (pass s (call (FsStorage.setApplied a))) (call (FsStorage.setApplied a) s.storage) := by
  have hd : ∀ name, name ≠ .applied →
      replay s.storage.dir [.write .applied (u64ToBytes a)] name = s.storage.dir name :=
    fun name hn => replay_write_of_ne hn
  refine ⟨rfl, rfl, hc.congr hd, ?_⟩
  intro i e he
  exact hw i e ((readPb_congr (hd _ (by simp))).symm.trans he)

/-! ## The LRU caches -/

omit [Protobuf] in
/-- What a lookup of several indices finds, and that it stores nothing new. -/
theorem range_spec {P : Entry → Prop} : ∀ (is : List Nat) {c : C Entry},
    (∀ e ∈ L.contents c, P e) →
    (∀ e ∈ L.contents (EntryCache.range c is).2, P e) ∧
    ∀ es, (EntryCache.range c is).1 = some es →
      es.map (·.index) = is ∧ ∀ e ∈ es, P e := by
  intro is
  -- over the indices: each lookup moves entries, and a miss ends the search
  induction is with
  | nil =>
    intro c hc
    refine ⟨hc, fun es hes => ?_⟩
    obtain rfl := Option.some.inj hes
    simp
  | cons i is ih =>
    intro c hc
    have hget : ∀ e ∈ L.contents (EntryCache.get c i).2, P e :=
      fun e he => hc e (LruCache.mem_find he)
    obtain ⟨hkeep, hfound⟩ := ih hget
    unfold EntryCache.range
    cases hg : EntryCache.get c i with
    | mk r c₁ =>
      rw [hg] at hkeep hfound hget
      cases r with
      | none => exact ⟨hget, by simp⟩
      | some e =>
        refine ⟨hkeep, fun es hes => ?_⟩
        obtain ⟨rest, hrest, rfl⟩ := Option.map_eq_some_iff.mp hes
        obtain ⟨hidx, hst⟩ := hfound rest hrest
        obtain ⟨hmem, hi⟩ := LruCache.mem_of_find (congrArg Prod.fst hg)
        refine ⟨?_, List.forall_mem_cons.mpr ⟨hc e hmem, hst⟩⟩
        rw [List.map_cons, hidx, show e.index = i by simpa using hi]

theorem insertAll_spec {d : Dir} : ∀ (es : List Entry) {c : C Entry},
    (∀ e ∈ L.contents c, Stored d e) → (∀ e ∈ es, Stored d e) →
    ∀ e ∈ L.contents (EntryCache.insertAll c es), Stored d e := by
  intro es
  induction es with
  | nil => exact fun hc _ => hc
  | cons x es ih =>
    intro c hc hes
    obtain ⟨hx, hes⟩ := List.forall_mem_cons.mp hes
    show ∀ e ∈ L.contents (EntryCache.insertAll (EntryCache.insert c x) es), Stored d e
    refine ih (fun e he => ?_) hes
    rcases LruCache.mem_insert he with rfl | he
    · exact hx
    · exact hc e he

/-- Stored entries at consecutive indices are the answer to the range. -/
theorem entries_of_stored {d : Dir} {low high m : Nat} {es : List Entry} (hlt : low < high)
    (hidx : es.map (·.index) = List.range' low (high - low)) (hst : ∀ e ∈ es, Stored d e) :
    FsStorage.entries d low high m = .ok es := by
  -- the first and the last index of the range are stored, so the bounds hold between them
  have hat : ∀ i, low ≤ i → i < high → ∃ e ∈ es, e.index = i := by
    intro i hi hi'
    have : i ∈ es.map (·.index) := by
      rw [hidx, List.mem_range'_1]
      omega
    exact List.mem_map.mp this
  obtain ⟨e₁, he₁, hi₁⟩ := hat low (Nat.le_refl _) hlt
  obtain ⟨e₂, he₂, hi₂⟩ := hat (high - 1) (by omega) (by omega)
  obtain ⟨first, last, hfirst, hlast, hle, -⟩ := (hst e₁ he₁).bounds
  obtain ⟨first', last', hfirst', hlast', hle', hge'⟩ := (hst e₂ he₂).bounds
  obtain rfl := Except.ok.inj (hfirst.symm.trans hfirst')
  obtain rfl := Except.ok.inj (hlast.symm.trans hlast')
  have hread : readEntries d low (high - low) = .ok es := by
    refine FsStorage.readEntries_eq_ok.mpr ⟨?_, ?_⟩
    · have := congrArg List.length hidx
      rwa [List.length_map, List.length_range'] at this
    · intro k e he
      have hk := congrArg (·[k]?) hidx
      simp only [List.getElem?_map, he, Option.map_some] at hk
      obtain ⟨hk', hke⟩ := List.getElem?_eq_some_iff.mp hk.symm
      rw [List.getElem_range', Nat.one_mul] at hke
      rw [hke]
      exact (hst e (List.mem_of_getElem? he)).file
  exact (FsStorage.entries_eq_ok hlt).mpr
    ⟨first, last, hfirst, hlast, by omega, by omega, hread⟩

/-- And the other way round: an answer to a range consists of stored entries,
the directory being well indexed. -/
theorem stored_of_entries {d : Dir} {low high m : Nat} {es : List Entry} (hw : WellIndexed d)
    (hlt : low < high) (h : FsStorage.entries d low high m = .ok es) : ∀ e ∈ es, Stored d e := by
  obtain ⟨first, last, hfirst, hlast, hlow, hhigh, hread⟩ := (FsStorage.entries_eq_ok hlt).mp h
  obtain ⟨hlen, hfiles⟩ := FsStorage.readEntries_eq_ok.mp hread
  intro e he
  obtain ⟨k, hk, hke⟩ := List.getElem_of_mem he
  have hfile := hfiles k e (List.getElem?_eq_some_iff.mpr ⟨hk, hke⟩)
  have hidx := hw _ _ hfile
  exact ⟨hidx ▸ hfile, first, last, hfirst, hlast, by omega, by omega⟩

theorem sim_entries {s : CachedStorage C FsStorage} {low high : Nat} (m : Nat) (hlt : low < high)
    (hc : Coherent s.storage.dir s.cache) (hw : WellIndexed s.storage.dir) :
    Sim (entries s low high m) (ask s.storage (FsStorage.entries s.storage.dir low high m)) := by
  unfold entries
  split
  next c hcache =>
    obtain ⟨hkeep, hfound⟩ := range_spec (List.range' low (high - low)) (hc.entries c hcache)
    -- a hit has every index of the range, and is put back entry by entry
    split
    next es c₁ hr =>
      rw [hr] at hkeep hfound
      obtain ⟨hidx, hst⟩ := hfound es rfl
      refine sim_hit (entries_of_stored hlt hidx hst) ?_ hw
      refine { hc with entries := fun c' hc' => ?_ }
      obtain rfl := Option.some.inj hc'
      exact insertAll_spec es hkeep hst
    next c₁ hr =>
      rw [hr] at hkeep
      -- a partial hit is not used, and what the store answers is not kept
      have hc' : Coherent s.storage.dir { s.cache with entries := some c₁ } :=
        { hc with entries := fun c' hc' => by obtain rfl := Option.some.inj hc'; exact hkeep }
      exact sim_callDown hc' (fun _ _ => hc') hw
  next =>
    -- the first range ever asked for fills an empty cache
    refine sim_callDown hc (fun es hes => ?_) hw
    refine { hc with entries := fun c' hc' => ?_ }
    obtain rfl := Option.some.inj hc'
    exact insertAll_spec es (by simp [L.contents_empty]) (stored_of_entries hw hlt hes)

theorem sim_term {s : CachedStorage C FsStorage} (idx : Nat)
    (hc : Coherent s.storage.dir s.cache) (hw : WellIndexed s.storage.dir) :
    Sim (term s idx) (ask s.storage (FsStorage.term s.storage.dir idx)) := by
  unfold term TermCache.get
  cases hf : L.find (fun p => p.1 == idx) s.cache.terms with
  | mk r c₁ =>
    have hkeep : ∀ p ∈ L.contents c₁, FsStorage.term s.storage.dir p.1 = .ok p.2 := by
      intro p hp
      apply hc.terms p
      apply LruCache.mem_find (p := fun p => p.1 == idx)
      rw [hf]
      exact hp
    have hc' : Coherent s.storage.dir { s.cache with terms := c₁ } := { hc with terms := hkeep }
    cases r with
    | some p =>
      obtain ⟨hmem, hi⟩ := LruCache.mem_of_find (congrArg Prod.fst hf)
      obtain rfl : p.1 = idx := by simpa using hi
      exact sim_hit (hc.terms p hmem) hc' hw
    | none =>
      refine sim_callDown hc' (fun t ht => ?_) hw
      refine { hc with terms := fun p hp => ?_ }
      rcases LruCache.mem_insert hp with rfl | hp
      · exact ht
      · exact hkeep p hp

/-! ## All calls, and sequences of calls -/

/-- **Step**: every proper call is simulated. -/
theorem sim_serve {s : CachedStorage C FsStorage} {c : Call} (hp : c.Proper)
    (hc : Coherent s.storage.dir s.cache) (hw : WellIndexed s.storage.dir) :
    Sim (StorageExt.serve s c) (StorageExt.serve s.storage c) := by
  cases c with
  | initialState =>
    refine (sim_remembered hc.initialState hc (fun a ha => ?_) hw).reply _
    exact { hc with initialState := fun b hb => by obtain rfl := Option.some.inj hb; exact ha }
  | firstIndex =>
    refine (sim_remembered hc.firstIndex hc (fun a ha => ?_) hw).reply _
    exact { hc with firstIndex := fun b hb => by obtain rfl := Option.some.inj hb; exact ha }
  | lastIndex =>
    refine (sim_remembered hc.lastIndex hc (fun a ha => ?_) hw).reply _
    exact { hc with lastIndex := fun b hb => by obtain rfl := Option.some.inj hb; exact ha }
  | snapshot =>
    refine (sim_remembered hc.snapshot hc (fun a ha => ?_) hw).reply _
    exact { hc with snapshot := fun b hb => by obtain rfl := Option.some.inj hb; exact ha }
  | entries low high m => exact (sim_entries m hp hc hw).reply _
  | term idx => exact (sim_term idx hc hw).reply _
  | setHardstate hs =>
    exact (sim_mutate (FsStorage.setHardstate_traced FsStorage.storeOp_admits.hardState hs)
      hw).reply _
  | applySnapshot snap =>
    exact (sim_mutate (FsStorage.applySnapshot_traced
      FsStorage.storeOp_admits.toAdmitsSnapshot snap) hw).reply _
  | createSnapshot index cs data =>
    exact (sim_mutate (FsStorage.createSnapshot_traced
      FsStorage.storeOp_admits.snapshot index cs data) hw).reply _
  | compact c =>
    exact (sim_mutate (FsStorage.compact_traced FsStorage.storeOp_admits.toAdmitsSnapshot c)
      hw).reply _
  | append es =>
    exact (sim_mutate (FsStorage.append_traced FsStorage.storeOp_admits fun _ _ => trivial)
      hw).reply _
  | applied => exact (sim_callDown hc (fun _ _ => hc) hw).reply _
  | setApplied a => exact (sim_setApplied a hc hw).reply _

/-- **Run**: from a coherent cache on, the answers agree. -/
theorem replies_eq_of_coherent : ∀ (calls : List Call) {s : CachedStorage C FsStorage},
    (∀ c ∈ calls, c.Proper) → Coherent s.storage.dir s.cache → WellIndexed s.storage.dir →
    StorageExt.replies s calls = StorageExt.replies s.storage calls := by
  intro calls
  induction calls with
  | nil => exact fun _ _ _ => rfl
  | cons c calls ih =>
    intro s hp hc hw
    obtain ⟨hpc, hp⟩ := List.forall_mem_cons.mp hp
    have h := sim_serve hpc hc hw
    show (StorageExt.serve s c).result :: StorageExt.replies (StorageExt.serve s c).store calls
      = (StorageExt.serve s.storage c).result ::
        StorageExt.replies (StorageExt.serve s.storage c).store calls
    rw [ih hp h.coherent h.wellIndexed, h.result, h.storage]

/-- **The cache is invisible**: a `CachedStorage` newly put in front of a store
answers every sequence of proper calls as the bare store does. -/
theorem cached_replies_eq (d : Dir) (calls : List Call) (hd : WellIndexed d)
    (hp : ∀ c ∈ calls, c.Proper) :
    StorageExt.replies (new ⟨d⟩ : CachedStorage C FsStorage) calls
      = StorageExt.replies (⟨d⟩ : FsStorage) calls :=
  replies_eq_of_coherent calls hp (coherent_fresh d) hd

end CachedStorage

namespace CachedStorage

open scoped Proto3
open FsStorage (newStore)

/-- No entry has been written. -/
theorem newStore_wellIndexed : WellIndexed newStore.dir := by
  intro i e he
  have := FsStorage.isSome_of_readEntry he
  rw [FsStorage.newStore_entry] at this
  exact absurd this (by simp)

/-- Two reads of a range, the second a hit; a compaction; the same range again. -/
def sampleCalls : List Call :=
  [.append [{ term := 1, index := 1 }, { term := 1, index := 2 }, { term := 2, index := 3 }],
    .entries 1 3 0, .entries 1 3 0, .term 2, .compact 2, .entries 1 3 0, .term 2, .applied]

theorem cached_replies_eq_sample :
    letI := listLru cacheSize
    StorageExt.replies (new newStore : CachedStorage List FsStorage) sampleCalls
      = [.ok .unit, .ok (.entries [{ term := 1, index := 1 }, { term := 1, index := 2 }]),
          .ok (.entries [{ term := 1, index := 1 }, { term := 1, index := 2 }]), .ok (.number 1),
          .ok .unit, .error (.err (.Store .Compacted)), .ok (.number 1), .ok (.number 0)] := by
  let _ := listLru cacheSize
  have hproper : ∀ c ∈ sampleCalls, c.Proper := by
    simp [sampleCalls, Call.Proper]
  exact (cached_replies_eq newStore.dir sampleCalls newStore_wellIndexed hproper).trans
    (by decide +kernel)

end CachedStorage

end SawtoothRaft
