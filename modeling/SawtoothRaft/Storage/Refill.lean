import SawtoothRaft.Storage.ColdStart
import SawtoothRaft.Storage.Failure

/-!
# Whether a range that was read is cached

A client that asks for the same range twice expects the second answer to come
from the cache. That takes two things of the first call: that it was answered
from the cache itself, and put back, or that it was the first range ever
answered. A range that misses an entry cache that is there already is not put
into it, and since a reset leaves the entry cache there, no range is ever
cached again after the first write (`repeated_entries_iff`).

To say that the storage below is not called, a storage counts its calls
(`Counted`). The counter is of no consequence to the answers
(`serve_uncounted`).
-/

namespace SawtoothRaft

open Lib

/-- A storage that counts the calls made to it. -/
structure Counted (S : Type) where
  storage : S
  calls : Nat

namespace Counted

variable {S α : Type} [StorageExt S]

def count (s : Counted S) (f : S → Outcome S α) : Outcome (Counted S) α :=
  let o := f s.storage
  { result := o.result, store := { storage := o.store, calls := s.calls + 1 }, ops := o.ops }

instance : StorageExt (Counted S) where
  initialState s := s.count StorageExt.initialState
  entries s low high maxSize := s.count (StorageExt.entries · low high maxSize)
  term s idx := s.count (StorageExt.term · idx)
  firstIndex s := s.count StorageExt.firstIndex
  lastIndex s := s.count StorageExt.lastIndex
  snapshot s := s.count StorageExt.snapshot
  setHardstate s hardState := s.count (StorageExt.setHardstate · hardState)
  applySnapshot s snapshot := s.count (StorageExt.applySnapshot · snapshot)
  createSnapshot s index confState data :=
    s.count (StorageExt.createSnapshot · index confState data)
  compact s compactIndex := s.count (StorageExt.compact · compactIndex)
  append s entries := s.count (StorageExt.append · entries)
  applied s := s.count StorageExt.applied
  setApplied s applied := s.count (StorageExt.setApplied · applied)

end Counted

namespace CachedStorage

variable {C : Type → Type} [L : LruCache cacheSize C]

/-! ## The counter is of no consequence -/

section
variable {S α : Type} [StorageExt S]

/-- The same cache, over the storage that does not count. -/
def uncounted (s : CachedStorage C (Counted S)) : CachedStorage C S :=
  { storage := s.storage.storage, cache := s.cache }

/-- The outcome on the storage that does not count. -/
def uncount (o : Outcome (CachedStorage C (Counted S)) α) : Outcome (CachedStorage C S) α :=
  { result := o.result, store := o.store.uncounted, ops := o.ops }

omit L [StorageExt S] in
theorem uncount_callDown (s : Counted S) (f : S → Outcome S α) (cache : StorageCache C)
    (remember : α → StorageCache C) :
    uncount (callDown cache (s.count f) remember) = callDown cache (f s.storage) remember := by
  unfold callDown Counted.count uncount
  cases (f s.storage).result with
  | ok a => rfl
  | error e => rfl

omit L [StorageExt S] in
theorem uncount_remembered (s : CachedStorage C (Counted S)) (slot : Option α)
    (f : S → Outcome S α) (remember : α → StorageCache C) :
    uncount (remembered s slot (Counted.count · f) remember)
      = remembered s.uncounted slot f remember := by
  cases slot with
  | some a => rfl
  | none => exact uncount_callDown s.storage f s.cache remember

theorem uncount_entries (s : CachedStorage C (Counted S)) (low high m : Nat) :
    uncount (entries s low high m) = entries s.uncounted low high m := by
  unfold entries
  rw [show s.uncounted.cache = s.cache from rfl]
  cases s.cache.entries with
  | none => exact uncount_callDown ..
  | some c =>
    dsimp only
    cases EntryCache.range c (List.range' low (high - low)) with
    | mk r c₁ =>
      cases r with
      | some es => rfl
      | none => exact uncount_callDown ..

theorem uncount_term (s : CachedStorage C (Counted S)) (idx : Nat) :
    uncount (term s idx) = term s.uncounted idx := by
  unfold term
  rw [show s.uncounted.cache = s.cache from rfl]
  cases TermCache.get s.cache.terms idx with
  | mk r c₁ =>
    cases r with
    | some t => rfl
    | none => exact uncount_callDown ..

theorem serve_uncounted (s : CachedStorage C (Counted S)) (c : Call) :
    uncount (StorageExt.serve s c) = StorageExt.serve s.uncounted c := by
  have hreply : ∀ {β : Type} {o : Outcome (CachedStorage C (Counted S)) β}
      {o' : Outcome (CachedStorage C S) β} (f : β → Reply), uncount o = o' →
      uncount (o.reply f) = o'.reply f := by
    intro β o o' f h
    subst h
    rfl
  cases c with
  | initialState => exact hreply _ (uncount_remembered ..)
  | firstIndex => exact hreply _ (uncount_remembered ..)
  | lastIndex => exact hreply _ (uncount_remembered ..)
  | snapshot => exact hreply _ (uncount_remembered ..)
  | entries low high m => exact hreply _ (uncount_entries s low high m)
  | term idx => exact hreply _ (uncount_term s idx)
  | setHardstate | applySnapshot | createSnapshot | compact | append | applied | setApplied =>
    exact hreply _ (uncount_callDown ..)

theorem after_uncounted (calls : List Call) (s : CachedStorage C (Counted S)) :
    (StorageExt.after s calls).uncounted = StorageExt.after s.uncounted calls := by
  induction calls generalizing s with
  | nil => rfl
  | cons c calls ih =>
    show (StorageExt.after (StorageExt.serve s c).store calls).uncounted
      = StorageExt.after (StorageExt.serve s.uncounted c).store calls
    rw [ih, ← serve_uncounted]
    rfl

end

/-! ## Lookups of a range -/

/-- The indices of the cached entries, most recently used first. -/
def indices (c : C Entry) : List Nat := (L.contents c).map (·.index)

/-- A lookup of several indices only moves entries. -/
theorem perm_range (is : List Nat) : ∀ c : C Entry,
    (L.contents (EntryCache.range c is).2).Perm (L.contents c) := by
  induction is with
  | nil => exact fun c => List.Perm.refl _
  | cons i is ih =>
    intro c
    have hget : (L.contents (EntryCache.get c i).2).Perm (L.contents c) := LruCache.perm_find ..
    unfold EntryCache.range
    cases hg : EntryCache.get c i with
    | mk r c₁ =>
      rw [hg] at hget
      cases r with
      | none => exact hget
      | some e => exact (ih c₁).trans hget

theorem mem_indices_range (is : List Nat) (c : C Entry) (i : Nat) :
    i ∈ indices (EntryCache.range c is).2 ↔ i ∈ indices c :=
  ((perm_range is c).map _).mem_iff

/-- It is a hit exactly if every one of them is cached. -/
theorem range_isSome_iff (is : List Nat) : ∀ c : C Entry,
    (EntryCache.range c is).1.isSome ↔ ∀ i ∈ is, i ∈ indices c := by
  induction is with
  | nil => simp [EntryCache.range]
  | cons i is ih =>
    intro c
    have hget : ∀ j, j ∈ indices (EntryCache.get c i).2 ↔ j ∈ indices c := fun j =>
      ((LruCache.perm_find ..).map _).mem_iff
    rw [List.forall_mem_cons]
    unfold EntryCache.range
    cases hg : EntryCache.get c i with
    | mk r c₁ =>
      rw [hg] at hget
      cases r with
      | none =>
        have hmiss := (L.find_none (congrArg Prod.fst hg)).1
        have hi : i ∉ indices c := by
          intro hi
          obtain ⟨e, he, hidx⟩ := List.mem_map.mp hi
          have := hmiss e he
          simp [hidx] at this
        simp [hi]
      | some e =>
        obtain ⟨hmem, hmatch⟩ := LruCache.mem_of_find (congrArg Prod.fst hg)
        have hi : i ∈ indices c := List.mem_map.mpr ⟨e, hmem, by simpa using hmatch⟩
        show (Option.map _ (EntryCache.range c₁ is).1).isSome = true ↔ _
        rw [Option.isSome_map, ih c₁]
        simp only [hget, hi, true_and]

theorem contents_insertAll {es : List Entry} (hne : es ≠ []) (c : C Entry) :
    L.contents (EntryCache.insertAll c es) = (es.reverse ++ L.contents c).take cacheSize :=
  LruCache.contents_foldl_insert (by decide) es c hne

/-- An answer of no more than `CACHE_SIZE` entries is cached as a whole. -/
theorem mem_insertAll {es : List Entry} (hlen : es.length ≤ cacheSize) (c : C Entry) :
    ∀ e ∈ es, e ∈ L.contents (EntryCache.insertAll c es) := by
  intro e he
  rw [contents_insertAll (List.ne_nil_of_mem he), List.take_append, List.mem_append]
  left
  rw [List.take_of_length_le (by simpa using hlen)]
  exact List.mem_reverse.mpr he

/-! ## A range that is asked for twice -/

/-- There is an entry cache, and it has the whole range. -/
def Serves (cache : StorageCache C) (low high : Nat) : Prop :=
  ∃ c, cache.entries = some c ∧ ∀ i, low ≤ i → i < high → i ∈ indices c

theorem serves_iff {cache : StorageCache C} {c : C Entry} (hcache : cache.entries = some c)
    (low high : Nat) : Serves cache low high ↔
      (EntryCache.range c (List.range' low (high - low))).1.isSome := by
  rw [range_isSome_iff]
  constructor
  · intro ⟨c', hc', hall⟩ i hi
    obtain rfl := Option.some.inj (hcache.symm.trans hc')
    rw [List.mem_range'_1] at hi
    exact hall i hi.1 (by omega)
  · intro hall
    refine ⟨c, hcache, fun i hlo hhi => hall i ?_⟩
    rw [List.mem_range'_1]
    omega

/-- The storage below is not called exactly if the cache has the whole range. -/
theorem entries_calls {S : Type} [StorageExt S] (s : CachedStorage C (Counted S))
    (low high m : Nat) :
    (entries s low high m).store.storage.calls = s.storage.calls ↔ Serves s.cache low high := by
  have hdown : ∀ (cache : StorageCache C) (remember : List Entry → StorageCache C),
      (callDown cache (StorageExt.entries s.storage low high m) remember).store.storage.calls
        = s.storage.calls + 1 := by
    intro cache remember
    unfold callDown
    cases (StorageExt.entries s.storage low high m).result with
    | ok es => rfl
    | error e => rfl
  unfold entries
  split
  next c hcache =>
    rw [serves_iff hcache]
    split
    next es c₁ hr => simp [hr, hit]
    next c₁ hr => simp [hr, hdown]
  next hcache => simp [Serves, hcache, hdown]

section
variable [Protobuf] {s : CachedStorage C FsStorage} {low high m : Nat} {es : List Entry}

/-- An answer of the store has all the indices of its range. -/
theorem index_of_entries {d : Dir} (hw : WellIndexed d) (hlt : low < high)
    (h : FsStorage.entries d low high m = .ok es) :
    es.length = high - low ∧ ∀ i, low ≤ i → i < high → ∃ e ∈ es, e.index = i := by
  obtain ⟨-, -, -, -, -, -, hread⟩ := (FsStorage.entries_eq_ok hlt).mp h
  obtain ⟨hlen, hget⟩ := FsStorage.readEntries_eq_ok.mp hread
  refine ⟨hlen, fun i hlo hhi => ?_⟩
  have hk : i - low < es.length := by omega
  refine ⟨es.get ⟨i - low, hk⟩, List.get_mem _ _, ?_⟩
  rw [List.get_eq_getElem, hw _ _ (hget (i - low) _ (List.getElem?_eq_getElem hk))]
  omega

/-- After an answer the cache has the range if it had it before, or if this is
the first answer. -/
theorem serves_entries (hc : Coherent s.storage.dir s.cache) (hw : WellIndexed s.storage.dir)
    (hlt : low < high) (hsize : high - low ≤ cacheSize)
    (hes : (entries s low high m).result = .ok es) :
    Serves (entries s low high m).store.cache low high ↔
      s.cache.entries = none ∨ Serves s.cache low high := by
  have hanswer : FsStorage.entries s.storage.dir low high m = .ok es := by
    rw [(sim_entries m hlt hc hw).result] at hes
    exact FsStorage.ask_eq_ok.mp hes
  obtain ⟨hlen, hall⟩ := index_of_entries hw hlt hanswer
  -- an answer that is put into the cache is found there
  have hput : ∀ c : C Entry, ∀ i, low ≤ i → i < high →
      i ∈ indices (EntryCache.insertAll c es) := by
    intro c i hlo hhi
    obtain ⟨e, he, hidx⟩ := hall i hlo hhi
    exact List.mem_map.mpr ⟨e, mem_insertAll (by omega) c e he, hidx⟩
  unfold entries at hes ⊢
  cases hcache : s.cache.entries with
  | none =>
    simp only [hcache] at hes ⊢
    have hdown : StorageExt.entries s.storage low high m
        = { result := .ok es, store := s.storage, ops := [] } := by
      show FsStorage.ask s.storage (FsStorage.entries s.storage.dir low high m) = _
      rw [hanswer]
      rfl
    rw [hdown]
    simp only [true_or, iff_true]
    exact ⟨_, rfl, hput L.empty⟩
  | some c =>
    rw [serves_iff hcache]
    simp only [hcache] at hes ⊢
    have hkeep := mem_indices_range (List.range' low (high - low)) c
    cases hr : EntryCache.range c (List.range' low (high - low)) with
    | mk r c₁ =>
      rw [hr] at hkeep hes
      cases r with
      | some es' =>
        obtain rfl : es' = es := Except.ok.inj hes
        simp only [Option.isSome_some, or_true, iff_true]
        exact ⟨_, rfl, hput c₁⟩
      | none =>
        -- the answer of the store is not kept
        have hcache' : (callDown { s.cache with entries := some c₁ }
            (StorageExt.entries s.storage low high m)
            fun _ => { s.cache with entries := some c₁ }).store.cache.entries = some c₁ := by
          unfold callDown
          cases (StorageExt.entries s.storage low high m).result with
          | ok es => rfl
          | error e => rfl
        have hmiss := range_isSome_iff (List.range' low (high - low)) c
        rw [hr] at hmiss
        rw [serves_iff hcache', range_isSome_iff]
        simp only [hkeep, ← hmiss]
        simp

/-- A repeated range has the same answer, wherever it comes from. -/
theorem entries_repeated (hc : Coherent s.storage.dir s.cache) (hw : WellIndexed s.storage.dir)
    (hlt : low < high) (hes : (entries s low high m).result = .ok es) :
    (entries (entries s low high m).store low high m).result = .ok es := by
  have hsim := sim_entries m hlt hc hw
  have hagain := (sim_entries m hlt hsim.coherent hsim.wellIndexed).result
  rw [hsim.storage] at hagain
  rw [hagain, ← hes, hsim.result]
  rfl

end

/-- The cache over a counting store, after any calls. -/
def counting [Protobuf] (d : Dir) (history : List Call) : CachedStorage C (Counted FsStorage) :=
  StorageExt.after (new { storage := ⟨d⟩, calls := 0 }) history

/-- **A range read twice comes from the cache the second time, exactly if** no
range had been answered before the first time, or the cache had the whole
range the first time already. -/
theorem repeated_entries_iff [Protobuf] {d : Dir} (hd : WellIndexed d) (history : List Call)
    {low high m : Nat} {es : List Entry} (hlt : low < high) (hsize : high - low ≤ cacheSize)
    (hes : (StorageExt.entries (counting (C := C) d history) low high m).result = .ok es) :
    ((StorageExt.entries (StorageExt.entries (counting (C := C) d history) low high m).store
          low high m).result = .ok es ∧
      (StorageExt.entries (StorageExt.entries (counting (C := C) d history) low high m).store
          low high m).store.storage.calls
        = (StorageExt.entries (counting (C := C) d history) low high m).store.storage.calls) ↔
    ¬ Warmed (new ⟨d⟩ : CachedStorage C FsStorage) history ∨
      Serves (counting (C := C) d history).cache low high := by
  have hplain : (counting (C := C) d history).uncounted
      = StorageExt.after (new ⟨d⟩ : CachedStorage C FsStorage) history := after_uncounted history _
  obtain ⟨hc, hw⟩ := coherent_after (s := (new ⟨d⟩ : CachedStorage C FsStorage)) history
    (coherent_fresh d) hd
  have hwarm := warm_after history (new ⟨d⟩ : CachedStorage C FsStorage)
  rw [← hplain] at hc hw hwarm
  generalize counting (C := C) d history = s at *
  have hresult : ∀ s : CachedStorage C (Counted FsStorage),
      (entries s low high m).result = (entries s.uncounted low high m).result := fun s =>
    congrArg Outcome.result (uncount_entries s low high m)
  have hstore : (entries s low high m).store.uncounted = (entries s.uncounted low high m).store :=
    congrArg Outcome.store (uncount_entries s low high m)
  have hes' : (entries s.uncounted low high m).result = .ok es := (hresult s).symm.trans hes
  have hagain : (entries (entries s low high m).store low high m).result = .ok es := by
    rw [hresult, hstore]
    exact entries_repeated hc hw hlt hes'
  have hcold : ¬ Warmed (new ⟨d⟩ : CachedStorage C FsStorage) history ↔ s.cache.entries = none := by
    rw [← Option.not_isSome_iff_eq_none]
    refine not_congr (Iff.trans ?_ hwarm.symm)
    exact (or_iff_right (by simp [warm, new, StorageCache.fresh])).symm
  have hserves := serves_entries hc hw hlt hsize hes'
  rw [← hstore] at hserves
  rw [hcold]
  refine Iff.trans (and_iff_right hagain) ?_
  exact (entries_calls (entries s low high m).store low high m).trans hserves

end CachedStorage

namespace CachedStorage

open scoped Proto3
open FsStorage (newStore)

/-- One entry is appended and read, and another appended. -/
def writtenAfterRead : List Call :=
  [.append [{ term := 1, index := 1 }], .entries 1 2 0, .append [{ term := 1, index := 2 }]]

/-- The first range of all is read from the cache the second time. -/
theorem repeated_entries_iff_first :
    letI := listLru cacheSize
    WellIndexed newStore.dir ∧
    (StorageExt.entries (StorageExt.entries (counting (C := List) newStore.dir
        [.append [{ term := 1, index := 1 }]]) 1 2 0).store 1 2 0).result
      = .ok [{ term := 1, index := 1 }] ∧
    (StorageExt.entries (StorageExt.entries (counting (C := List) newStore.dir
        [.append [{ term := 1, index := 1 }]]) 1 2 0).store 1 2 0).store.storage.calls
      = (StorageExt.entries (counting (C := List) newStore.dir
          [.append [{ term := 1, index := 1 }]]) 1 2 0).store.storage.calls := by
  let _ := listLru cacheSize
  refine ⟨newStore_wellIndexed, ?_⟩
  exact (repeated_entries_iff newStore_wellIndexed [.append [{ term := 1, index := 1 }]]
    (by decide) (by decide) (by decide +kernel)).mpr (Or.inl (by simp [Warmed]))

/-- After the second append the store is asked each time: two calls for the
appends, one for the first read, and one for every further read. -/
theorem repeated_entries_call_down :
    letI := listLru cacheSize
    WellIndexed newStore.dir ∧
    (StorageExt.entries (counting (C := List) newStore.dir writtenAfterRead) 1 2 0).result
      = .ok [{ term := 1, index := 1 }] ∧
    (StorageExt.entries (counting (C := List) newStore.dir writtenAfterRead)
      1 2 0).store.storage.calls
      = 4 ∧
    (StorageExt.entries (StorageExt.entries (counting (C := List) newStore.dir writtenAfterRead)
        1 2 0).store 1 2 0).store.storage.calls = 5 := by
  let _ := listLru cacheSize
  exact ⟨newStore_wellIndexed, by decide +kernel, by decide +kernel, by decide +kernel⟩

end CachedStorage

end SawtoothRaft
