import Mathlib.Data.List.Perm.Subperm
import SawtoothRaft.Lib.Run
import SawtoothRaft.Storage.Refill

/-!
# What a hit does to the LRU caches

An LRU cache that is searched by predicate has no use for a second copy of an
element, and loses an older one for it. The term cache never has two elements
of one index: an answer is inserted only after the lookup has failed. The
entry cache inserts, after a hit, every entry it has found once more. Unless
there was nothing to insert, or the answer fills the whole cache, it then has
duplicates, and has pushed out other entries for them. So the caches stay as
they should along a run exactly if no hit in it is of that kind
(`hits_harmless_iff`).

The storage below may be any that answers a range with entries of distinct
indices and keeps doing so (`Orderly`), as `FsStorage` does
(`wellIndexed_orderly`).
-/

namespace SawtoothRaft

open Lib

namespace CachedStorage

variable {C : Type → Type} [L : LruCache cacheSize C]

/-! ## The cached indices -/

def entryIndices (cache : StorageCache C) : List Nat :=
  match cache.entries with
  | some c => indices c
  | none => []

def termIndices (cache : StorageCache C) : List Nat := (L.contents cache.terms).map (·.1)

/-- No index is cached twice. -/
structure Distinct (cache : StorageCache C) : Prop where
  entries : (entryIndices cache).Nodup
  terms : (termIndices cache).Nodup

/-- The same indices are cached. -/
structure SameIndices (cache cache' : StorageCache C) : Prop where
  entries : ∀ i, i ∈ entryIndices cache' ↔ i ∈ entryIndices cache
  terms : ∀ i, i ∈ termIndices cache' ↔ i ∈ termIndices cache

/-- The call is answered by one of the LRU caches alone. -/
def FromCache (cache : StorageCache C) : Call → Prop
  | .entries low high _ => Serves cache low high
  | .term idx => idx ∈ termIndices cache
  | _ => False

/-- A hit that leaves duplicates behind. -/
def Crowds (cache : StorageCache C) : Call → Prop
  | .entries low high _ => low < high ∧ high - low < cacheSize ∧ Serves cache low high
  | _ => False

instance (cache : StorageCache C) (low high : Nat) : Decidable (Serves cache low high) :=
  match hcache : cache.entries with
  | some _ => decidable_of_iff _ (serves_iff hcache low high).symm
  | none => isFalse fun ⟨_, hsome, _⟩ => nomatch hcache.symm.trans hsome

instance (cache : StorageCache C) : (c : Call) → Decidable (Crowds cache c)
  | .entries low high _ =>
    inferInstanceAs (Decidable (low < high ∧ high - low < cacheSize ∧ Serves cache low high))
  | .initialState | .term _ | .firstIndex | .lastIndex | .snapshot | .setHardstate _
  | .applySnapshot _ | .createSnapshot _ _ _ | .compact _ | .append _ | .applied
  | .setApplied _ => isFalse id

/-- What must hold of every call: no index is cached twice afterwards, and a
hit has left the same indices cached. -/
def Undamaged {S : Type} [StorageExt S] (s : CachedStorage C S) (c : Call) : Prop :=
  Distinct (StorageExt.serve s c).store.cache ∧
    (FromCache s.cache c → SameIndices s.cache (StorageExt.serve s c).store.cache)

/-! ## The entry cache -/

/-- After a hit the entry that was found last is at the front. -/
theorem range_front (is : List Nat) : ∀ {c : C Entry} {es : List Entry} {e : Entry},
    (EntryCache.range c is).1 = some es → es.getLast? = some e →
    ∃ rest, L.contents (EntryCache.range c is).2 = e :: rest := by
  induction is with
  | nil =>
    intro c es e hes he
    obtain rfl := Option.some.inj hes
    cases he
  | cons i is ih =>
    intro c es e hes he
    unfold EntryCache.range at hes ⊢
    cases hg : EntryCache.get c i with
    | mk r c₁ =>
      rw [hg] at hes
      cases r with
      | none => cases hes
      | some x =>
        obtain ⟨es', hes', rfl⟩ := Option.map_eq_some_iff.mp hes
        cases is with
        | nil =>
          obtain rfl := Option.some.inj hes'
          obtain rfl := Option.some.inj he
          obtain ⟨-, l₁, l₂, -, hfront⟩ := L.find_some (congrArg Prod.fst hg)
          exact ⟨l₁ ++ l₂, (congrArg (fun p => L.contents p.2) hg).symm.trans hfront⟩
        | cons j js =>
          refine ih hes' ?_
          obtain ⟨hidx, -⟩ := (range_spec (P := fun _ => True) (j :: js) (c := c₁)
            fun _ _ => trivial).2 es' hes'
          cases es' with
          | nil => cases hidx
          | cons y ys => rwa [List.getLast?_cons_cons] at he

section
variable {c : C Entry} {low n : Nat} {es : List Entry}

/-- A hit finds cached entries, at the indices asked for. -/
theorem range_hit (hes : (EntryCache.range c (List.range' low n)).1 = some es) :
    es.map (·.index) = List.range' low n ∧ ∀ i ∈ es.map (·.index), i ∈ indices c := by
  obtain ⟨hidx, hmem⟩ := (range_spec (P := fun e => e ∈ L.contents c) (List.range' low n)
    fun _ h => h).2 es hes
  refine ⟨hidx, fun i hi => ?_⟩
  obtain ⟨e, he, rfl⟩ := List.mem_map.mp hi
  exact List.mem_map_of_mem (hmem e he)

/-- A hit on part of the cache leaves duplicates. -/
theorem not_nodup_of_hit (hes : (EntryCache.range c (List.range' low n)).1 = some es)
    (hpos : 0 < n) (hlt : n < cacheSize) :
    ¬ (indices (EntryCache.insertAll (EntryCache.range c (List.range' low n)).2 es)).Nodup := by
  obtain ⟨hidx, -⟩ := range_hit hes
  have hlen : es.length = n := by simpa using congrArg List.length hidx
  have hne : es ≠ [] := by
    intro h
    rw [h] at hlen
    simp at hlen
    omega
  obtain ⟨rest, hrest⟩ := range_front _ hes (List.getLast?_eq_some_getLast hne)
  -- behind the entries just inserted comes the one that was found last
  have hfront : es.reverse ++ [es.getLast hne] <+:
      L.contents (EntryCache.insertAll (EntryCache.range c (List.range' low n)).2 es) := by
    rw [contents_insertAll hne, hrest, List.prefix_take_iff]
    refine ⟨⟨rest, by simp⟩, ?_⟩
    simp
    omega
  intro hnodup
  have hnodup' := (hfront.sublist.map Entry.index).nodup hnodup
  rw [List.map_append, List.nodup_append] at hnodup'
  exact hnodup'.2.2 _ (List.mem_map_of_mem (List.mem_reverse.mpr (List.getLast_mem hne))) _
    (by simp) rfl

/-- Any other hit leaves the same indices, each of them once. -/
theorem perm_of_hit (hes : (EntryCache.range c (List.range' low n)).1 = some es)
    (hsize : (indices c).length ≤ cacheSize) (hn : n = 0 ∨ cacheSize ≤ n) :
    (indices (EntryCache.insertAll (EntryCache.range c (List.range' low n)).2 es)).Perm
      (indices c) := by
  obtain ⟨hidx, hsub⟩ := range_hit hes
  have hlen : es.length = n := by simpa using congrArg List.length hidx
  rcases hn with rfl | hn
  · obtain rfl : es = [] := List.eq_nil_of_length_eq_zero hlen
    exact List.Perm.refl _
  · have hnodup' : (es.map (·.index)).Nodup := by
      rw [hidx]
      exact List.nodup_range'
    have hperm : (es.map (·.index)).Perm (indices c) := by
      refine (List.Nodup.subperm hnodup' hsub).perm_of_length_le ?_
      rw [List.length_map]
      omega
    have hfull : es.length = cacheSize := by
      have := hperm.length_eq
      rw [List.length_map] at this
      omega
    have hne : es ≠ [] := by
      intro h
      rw [h] at hfull
      cases hfull
    unfold indices
    rw [contents_insertAll hne, List.take_left' (by rw [List.length_reverse, hfull]),
      List.map_reverse]
    exact (List.reverse_perm _).trans hperm

end

/-! ## One call -/

/-- No index is cached twice, and the entry cache holds what it can. -/
structure Sound (cache : StorageCache C) : Prop extends Distinct cache where
  size : (entryIndices cache).length ≤ cacheSize

theorem sound_fresh : Sound (StorageCache.fresh : StorageCache C) where
  entries := List.nodup_nil
  terms := by simp [termIndices, StorageCache.fresh, L.contents_empty]
  size := Nat.zero_le _

theorem sound_reset (cache : StorageCache C) : Sound cache.reset := by
  have hentries : entryIndices cache.reset = [] := by
    unfold entryIndices StorageCache.reset
    cases cache.entries with
    | none => rfl
    | some c => simp [indices, EntryCache.clear, L.contents_evictAll]
  refine ⟨⟨?_, ?_⟩, ?_⟩
  · rw [hentries]
    exact List.nodup_nil
  · simp [termIndices, StorageCache.reset, TermCache.clear, L.contents_evictAll]
  · rw [hentries]
    exact Nat.zero_le _

/-- Only the two LRU caches matter. -/
theorem Sound.congr {cache cache' : StorageCache C} (h : Sound cache)
    (hentries : (entryIndices cache').Perm (entryIndices cache))
    (hterms : (termIndices cache').Perm (termIndices cache)) : Sound cache' where
  entries := hentries.nodup_iff.mpr h.entries
  terms := hterms.nodup_iff.mpr h.terms
  size := hentries.length_eq ▸ h.size

theorem sameIndices_of_perm {cache cache' : StorageCache C}
    (hentries : (entryIndices cache').Perm (entryIndices cache))
    (hterms : (termIndices cache').Perm (termIndices cache)) : SameIndices cache cache' where
  entries _ := hentries.mem_iff
  terms _ := hterms.mem_iff

section
variable {S α : Type} [StorageExt S] {s : CachedStorage C S}

omit L [StorageExt S] in
/-- The cache after a call down is one of the two. -/
theorem callDown_cache {P : StorageCache C → Prop} {cache : StorageCache C} {o : Outcome S α}
    {remember : α → StorageCache C} (hcache : P cache)
    (hremember : ∀ a, o.result = .ok a → P (remember a)) :
    P (callDown cache o remember).store.cache := by
  unfold callDown
  cases h : o.result with
  | ok a => exact hremember a h
  | error e => exact hcache

omit [StorageExt S] in
theorem sound_remembered {slot : Option α} {f : S → Outcome S α} {remember : α → StorageCache C}
    (h : Sound s.cache) (hentries : ∀ a, (remember a).entries = s.cache.entries)
    (hterms : ∀ a, (remember a).terms = s.cache.terms) :
    Sound (remembered s slot f remember).store.cache := by
  cases slot with
  | some a => exact h
  | none =>
    refine callDown_cache h fun a _ => h.congr ?_ ?_
    · unfold entryIndices
      rw [hentries]
    · unfold termIndices
      rw [hterms]

omit [StorageExt S] in
theorem sound_mutate (f : S → Outcome S α) : Sound (mutate s f).store.cache :=
  callDown_cache (sound_reset _) fun _ _ => sound_reset _

omit [StorageExt S] in
theorem sound_pass (f : S → Outcome S α) (h : Sound s.cache) : Sound (pass s f).store.cache :=
  callDown_cache h fun _ _ => h

/-- The term cache inserts only what it did not find. -/
theorem sound_term (h : Sound s.cache) (idx : Nat) :
    Sound (term s idx).store.cache ∧
      (idx ∈ termIndices s.cache → SameIndices s.cache (term s idx).store.cache) := by
  unfold term TermCache.get
  have hperm := LruCache.perm_find (L := L) (fun p : Nat × Nat => p.1 == idx) s.cache.terms
  cases hf : L.find (fun p : Nat × Nat => p.1 == idx) s.cache.terms with
  | mk r c₁ =>
    rw [hf] at hperm
    have hterms : (termIndices { s.cache with terms := c₁ }).Perm (termIndices s.cache) :=
      hperm.map _
    have hsound : Sound { s.cache with terms := c₁ } := h.congr (List.Perm.refl _) hterms
    cases r with
    | some p => exact ⟨hsound, fun _ => sameIndices_of_perm (List.Perm.refl _) hterms⟩
    | none =>
      have hmiss : idx ∉ termIndices s.cache := by
        intro hidx
        obtain ⟨p, hp, hpidx⟩ := List.mem_map.mp hidx
        have := (L.find_none (congrArg Prod.fst hf)).1 p hp
        simp [hpidx] at this
      refine ⟨callDown_cache hsound fun t _ => ?_, fun hidx => absurd hidx hmiss⟩
      refine { hsound with terms := ?_ }
      have hcons : termIndices { s.cache with terms := TermCache.insert c₁ idx t }
          = idx :: ((L.contents c₁).take (cacheSize - 1)).map (·.1) := by
        simp [termIndices, TermCache.insert, L.contents_insert]
      rw [hcons, List.nodup_cons]
      have hsub := (List.take_sublist (cacheSize - 1) (L.contents c₁)).map Prod.fst
      exact ⟨fun hidx => hmiss (hterms.mem_iff.mp (hsub.subset hidx)), hsub.nodup hsound.terms⟩

omit [StorageExt S] in
theorem sound_insertAll_empty {es : List Entry} (h : Sound s.cache)
    (hes : (es.map (·.index)).Nodup) :
    Sound { s.cache with entries := some (EntryCache.insertAll (L.empty : C Entry) es) } := by
  have hindices : entryIndices { s.cache with
      entries := some (EntryCache.insertAll (L.empty : C Entry) es) }
      = (es.map (·.index)).reverse.take cacheSize := by
    show (L.contents (EntryCache.insertAll (L.empty : C Entry) es)).map (·.index) = _
    by_cases hne : es = []
    · rw [hne]
      simp [EntryCache.insertAll, L.contents_empty]
    · rw [contents_insertAll hne, L.contents_empty, List.append_nil, List.map_take,
        List.map_reverse]
  refine ⟨⟨?_, h.terms⟩, ?_⟩
  · rw [hindices]
    exact (List.take_sublist ..).nodup ((List.reverse_perm _).nodup_iff.mpr hes)
  · rw [hindices, List.length_take]
    exact Nat.min_le_left ..

/-- A range, by whether the hit is one that leaves duplicates. -/
theorem sound_entries {low high m : Nat} (h : Sound s.cache)
    (hdistinct : ∀ es, (StorageExt.entries s.storage low high m).result = .ok es →
      (es.map (·.index)).Nodup) :
    (Crowds s.cache (.entries low high m) → ¬ Distinct (entries s low high m).store.cache) ∧
    (¬ Crowds s.cache (.entries low high m) → Sound (entries s low high m).store.cache ∧
      (Serves s.cache low high → SameIndices s.cache (entries s low high m).store.cache)) := by
  have hsize := h.size
  unfold entries
  cases hcache : s.cache.entries with
  | none =>
    have hserves : ¬ Serves s.cache low high := by simp [Serves, hcache]
    refine ⟨fun hcrowd => absurd hcrowd.2.2 hserves, fun _ => ⟨?_, fun hs => absurd hs hserves⟩⟩
    exact callDown_cache h fun es hes => sound_insertAll_empty h (hdistinct es hes)
  | some c =>
    have hold : entryIndices s.cache = indices c := by rw [entryIndices, hcache]
    rw [hold] at hsize
    have hserves := serves_iff hcache low high
    have hperm : (indices (EntryCache.range c (List.range' low (high - low))).2).Perm (indices c) :=
      (perm_range _ c).map _
    dsimp only
    cases hr : EntryCache.range c (List.range' low (high - low)) with
    | mk r c₁ =>
      have hes := congrArg Prod.fst hr
      rw [hr] at hperm hserves
      cases r with
      | some es =>
        constructor
        · intro hcrowd hnodup
          obtain ⟨hlt, hsmall, -⟩ := hcrowd
          have := not_nodup_of_hit hes (by omega) hsmall
          rw [hr] at this
          exact this hnodup.entries
        · intro hcrowd
          have hn : high - low = 0 ∨ cacheSize ≤ high - low := by
            by_contra hn
            exact hcrowd ⟨by omega, by omega, hserves.mpr rfl⟩
          have hentries := perm_of_hit hes hsize hn
          rw [hr, ← hold] at hentries
          exact ⟨h.congr hentries (List.Perm.refl _),
            fun _ => sameIndices_of_perm hentries (List.Perm.refl _)⟩
      | none =>
        have hmiss : ¬ Serves s.cache low high := by
          rw [hserves]
          simp
        refine ⟨fun hcrowd => absurd hcrowd.2.2 hmiss, fun _ => ⟨?_, fun hs => absurd hs hmiss⟩⟩
        rw [← hold] at hperm
        have hsound : Sound { s.cache with entries := some c₁ } :=
          h.congr hperm (List.Perm.refl _)
        exact callDown_cache hsound fun _ _ => hsound

end

/-! ## Runs -/

section
variable {S : Type} [StorageExt S]

/-- Among the storages with `I`, which they keep, a range has distinct
indices. -/
structure Orderly (I : S → Prop) : Prop where
  kept : ∀ s c, I s → I (StorageExt.serve s c).store
  distinct : ∀ s low high m es, I s → (StorageExt.entries s low high m).result = .ok es →
    (es.map (·.index)).Nodup

/-- The storage below is called at most once. -/
theorem serve_storage {I : S → Prop} (hI : Orderly I) {s : CachedStorage C S} (c : Call)
    (h : I s.storage) : I (StorageExt.serve s c).store.storage := by
  have hdown : ∀ {α : Type} (cache : StorageCache C) (o : Outcome S α)
      (remember : α → StorageCache C), I o.store → I (callDown cache o remember).store.storage := by
    intro α cache o remember ho
    unfold callDown
    cases o.result with
    | ok a => exact ho
    | error e => exact ho
  have hslot : ∀ {α : Type} (slot : Option α) (f : S → Outcome S α)
      (remember : α → StorageCache C), I (f s.storage).store →
      I (remembered s slot f remember).store.storage := by
    intro α slot f remember hf
    cases slot with
    | some a => exact h
    | none => exact hdown _ _ _ hf
  have hkept := hI.kept s.storage c h
  cases c with
  | initialState => exact hslot _ _ _ hkept
  | firstIndex => exact hslot _ _ _ hkept
  | lastIndex => exact hslot _ _ _ hkept
  | snapshot => exact hslot _ _ _ hkept
  | entries low high m =>
    show I (entries s low high m).store.storage
    unfold entries
    split
    · split
      · exact h
      · exact hdown _ _ _ hkept
    · exact hdown _ _ _ hkept
  | term idx =>
    show I (term s idx).store.storage
    unfold term
    split
    · exact h
    · exact hdown _ _ _ hkept
  | setHardstate | applySnapshot | createSnapshot | compact | append | applied | setApplied =>
    exact hdown _ _ _ hkept

/-- **Step**: from sound caches a call does damage exactly if it is a hit that
crowds, and otherwise leaves sound caches. -/
theorem undamaged_iff {I : S → Prop} (hI : Orderly I) {s : CachedStorage C S} (c : Call)
    (hs : I s.storage) (h : Sound s.cache) :
    (Undamaged s c ↔ ¬ Crowds s.cache c) ∧
      (Undamaged s c → Sound (StorageExt.serve s c).store.cache) := by
  have hother : (∀ cache : StorageCache C, ¬ FromCache cache c ∧ ¬ Crowds cache c) →
      Sound (StorageExt.serve s c).store.cache →
      (Undamaged s c ↔ ¬ Crowds s.cache c) ∧
        (Undamaged s c → Sound (StorageExt.serve s c).store.cache) := by
    intro hc hsound
    refine ⟨iff_of_true ⟨hsound.toDistinct, fun hf => absurd hf (hc _).1⟩ (hc _).2, fun _ => hsound⟩
  cases c with
  | entries low high m =>
    obtain ⟨hcrowd, hfine⟩ := sound_entries h fun es => hI.distinct s.storage low high m es hs
    have hiff : Undamaged s (.entries low high m) → ¬ Crowds s.cache (.entries low high m) :=
      fun hu hc => hcrowd hc hu.1
    refine ⟨⟨hiff, fun hc => ?_⟩, fun hu => (hfine (hiff hu)).1⟩
    obtain ⟨hsound, hsame⟩ := hfine hc
    exact ⟨hsound.toDistinct, hsame⟩
  | term idx =>
    obtain ⟨hsound, hsame⟩ := sound_term h idx
    exact ⟨iff_of_true ⟨hsound.toDistinct, hsame⟩ (by simp [Crowds]), fun _ => hsound⟩
  | initialState =>
    exact hother (by simp [FromCache, Crowds]) (sound_remembered h (fun _ => rfl) fun _ => rfl)
  | firstIndex =>
    exact hother (by simp [FromCache, Crowds]) (sound_remembered h (fun _ => rfl) fun _ => rfl)
  | lastIndex =>
    exact hother (by simp [FromCache, Crowds]) (sound_remembered h (fun _ => rfl) fun _ => rfl)
  | snapshot =>
    exact hother (by simp [FromCache, Crowds]) (sound_remembered h (fun _ => rfl) fun _ => rfl)
  | setHardstate | applySnapshot | createSnapshot | compact | append =>
    exact hother (by simp [FromCache, Crowds]) (sound_mutate _)
  | applied | setApplied => exact hother (by simp [FromCache, Crowds]) (sound_pass _ h)

/-- **Hits are harmless exactly if none of them crowds**: in a run of calls on
a new cache, no index is ever cached twice and no hit changes which indices
are cached, if and only if no range of at least one and fewer than `CACHE_SIZE`
indices is answered from the cache. -/
theorem hits_harmless_iff {I : S → Prop} (hI : Orderly I) {storage : S} (hs : I storage)
    (calls : List Call) :
    (Distinct (new storage : CachedStorage C S).cache ∧
      Meets (fun s c => (StorageExt.serve s c).store) Undamaged
        (new storage : CachedStorage C S) calls) ↔
    Meets (fun s c => (StorageExt.serve s c).store) (fun s c => ¬ Crowds s.cache c)
      (new storage : CachedStorage C S) calls := by
  refine (and_iff_right sound_fresh.toDistinct).trans ?_
  refine meets_congr (I := fun s : CachedStorage C S => I s.storage ∧ Sound s.cache) ?_ ?_
    ⟨hs, sound_fresh⟩
  · intro s c ⟨hs, h⟩ hu
    exact ⟨serve_storage hI c hs, (undamaged_iff hI c hs h).2 hu⟩
  · intro s c ⟨hs, h⟩
    exact (undamaged_iff hI c hs h).1

end

/-! ## Over `FsStorage` -/

theorem wellIndexed_orderly [Protobuf] : Orderly fun s : FsStorage => WellIndexed s.dir where
  kept s c h := by
    cases c with
    | setHardstate hs =>
      exact h.call (FsStorage.setHardstate_traced FsStorage.storeOp_admits.hardState hs)
    | applySnapshot snap =>
      exact h.call (FsStorage.applySnapshot_traced FsStorage.storeOp_admits.toAdmitsSnapshot snap)
    | createSnapshot index cs data =>
      exact h.call (FsStorage.createSnapshot_traced FsStorage.storeOp_admits.snapshot index cs data)
    | compact i =>
      exact h.call (FsStorage.compact_traced FsStorage.storeOp_admits.toAdmitsSnapshot i)
    | append es =>
      exact h.call (FsStorage.append_traced FsStorage.storeOp_admits fun _ _ => trivial)
    | setApplied a =>
      intro i e he
      exact h i e ((readPb_congr (replay_write_of_ne (by simp))).symm.trans he)
    | initialState | entries | term | firstIndex | lastIndex | snapshot | applied => exact h
  distinct s low high m es h hes := by
    have hanswer : FsStorage.entries s.dir low high m = .ok es := FsStorage.ask_eq_ok.mp hes
    by_cases hlt : low < high
    · obtain ⟨-, -, -, -, -, -, hread⟩ := (FsStorage.entries_eq_ok hlt).mp hanswer
      rw [(FsStorage.contiguous_of_readEntries h hread).map_index]
      exact List.nodup_range'
    · rw [entries_of_empty (by omega) hanswer]
      exact List.nodup_nil

end CachedStorage

namespace CachedStorage

open scoped Proto3
open FsStorage (newStore)

/-- Two entries, the first of which has been read. -/
def readOnce : List Call :=
  [.append [{ term := 1, index := 1 }, { term := 1, index := 2 }], .entries 1 2 0]

/-- A miss, hits on terms and a hit on no entries at all. -/
def missesAndTerms : List Call :=
  readOnce ++ [.entries 1 3 0, .term 1, .term 1, .entries 2 2 0]

theorem missesAndTerms_uncrowded :
    letI := listLru cacheSize
    Meets (fun s c => (StorageExt.serve s c).store) (fun s c => ¬ Crowds s.cache c)
      (new newStore : CachedStorage List FsStorage) missesAndTerms := by
  decide +kernel

/-- They do no harm. -/
theorem hits_harmless_iff_misses :
    letI := listLru cacheSize
    WellIndexed newStore.dir ∧
    Distinct (new newStore : CachedStorage List FsStorage).cache ∧
    Meets (fun s c => (StorageExt.serve s c).store) Undamaged
      (new newStore : CachedStorage List FsStorage) missesAndTerms := by
  let _ := listLru cacheSize
  exact ⟨newStore_wellIndexed,
    (hits_harmless_iff wellIndexed_orderly newStore_wellIndexed _).mpr missesAndTerms_uncrowded⟩

/-- Reading the first entry again leaves two copies of it. -/
theorem hit_leaves_duplicates :
    letI := listLru cacheSize
    WellIndexed newStore.dir ∧
    entryIndices (StorageExt.after (new newStore : CachedStorage List FsStorage) readOnce).cache
      = [1] ∧
    entryIndices (StorageExt.after (new newStore : CachedStorage List FsStorage)
      (readOnce ++ [.entries 1 2 0])).cache = [1, 1] ∧
    ¬ Meets (fun s c => (StorageExt.serve s c).store) Undamaged
      (new newStore : CachedStorage List FsStorage) (readOnce ++ [.entries 1 2 0]) := by
  let _ := listLru cacheSize
  have htwice : entryIndices (StorageExt.after (new newStore : CachedStorage List FsStorage)
      (readOnce ++ [.entries 1 2 0])).cache = [1, 1] := by decide +kernel
  refine ⟨newStore_wellIndexed, by decide +kernel, htwice, fun hmeets => ?_⟩
  have hnodup : (entryIndices (StorageExt.after (new newStore : CachedStorage List FsStorage)
      (readOnce ++ [.entries 1 2 0])).cache).Nodup := hmeets.2.2.1.1.entries
  rw [htwice] at hnodup
  exact absurd hnodup (by decide)

end CachedStorage

end SawtoothRaft
