import SawtoothRaft.Lib.Lru
import SawtoothRaft.Storage.FsStorage

/-!
# `CachedStorage`

A storage in front of another one that remembers answers. There are six
caches: four that hold one answer each, and two LRU caches, of log entries and
of terms. Every mutator except `set_applied` forgets everything before it
calls down, whether or not the call then succeeds.

Two habits of the code matter later and are modelled as they are. A full hit
on the entry cache inserts every entry it found once more. And `reset` empties
the entry cache but keeps it `Some`, after which a miss is no longer stored.

The LRU cache is the `uluru` crate's; it enters as a parameter `C` of which
only the laws in `Lib.LruCache` are known.
-/

namespace SawtoothRaft

open Lib

/-- `CACHE_SIZE` -/
def cacheSize : Nat := 16

variable {C : Type → Type} [L : LruCache cacheSize C]

namespace EntryCache

def get (c : C Entry) (index : Nat) : Option Entry × C Entry :=
  L.find (fun entry => entry.index == index) c

def insert (c : C Entry) (entry : Entry) : C Entry := L.insert entry c

def clear (c : C Entry) : C Entry := L.evictAll c

/-- The entries at the given indices, unless one of them is not cached; the
lookups up to the first miss have touched the cache by then. -/
def range (c : C Entry) : List Nat → Option (List Entry) × C Entry
  | [] => (some [], c)
  | index :: indices =>
    match get c index with
    | (some entry, c) =>
      match range c indices with
      | (r, c) => (r.map (entry :: ·), c)
    | (none, c) => (none, c)

/-- The loop that inserts a whole answer. -/
def insertAll (c : C Entry) (entries : List Entry) : C Entry := entries.foldl insert c

end EntryCache

namespace TermCache

def get (c : C (Nat × Nat)) (idx : Nat) : Option Nat × C (Nat × Nat) :=
  match L.find (fun p => p.1 == idx) c with
  | (r, c) => (r.map (·.2), c)

def insert (c : C (Nat × Nat)) (index term : Nat) : C (Nat × Nat) := L.insert (index, term) c

def clear (c : C (Nat × Nat)) : C (Nat × Nat) := L.evictAll c

end TermCache

structure StorageCache (C : Type → Type) where
  initialState : Option RaftState
  firstIndex : Option Nat
  lastIndex : Option Nat
  snapshot : Option Snapshot
  /-- `none` until the first successful `entries`, so that the storage below
  is asked at least once. -/
  entries : Option (C Entry)
  terms : C (Nat × Nat)

/-- `StorageCache::default` -/
def StorageCache.fresh : StorageCache C where
  initialState := none
  firstIndex := none
  lastIndex := none
  snapshot := none
  entries := none
  terms := L.empty

def StorageCache.reset (cache : StorageCache C) : StorageCache C where
  initialState := none
  firstIndex := none
  lastIndex := none
  snapshot := none
  entries := cache.entries.map EntryCache.clear
  terms := TermCache.clear cache.terms

structure CachedStorage (C : Type → Type) (S : Type) where
  storage : S
  cache : StorageCache C

namespace CachedStorage

variable {S α : Type} [StorageExt S]

/-- `CachedStorage::new` -/
def new (storage : S) : CachedStorage C S := { storage, cache := StorageCache.fresh }

/-- An answer from the cache. -/
def hit (s : CachedStorage C S) (a : α) (cache : StorageCache C) : Outcome (CachedStorage C S) α :=
  { result := .ok a, store := { s with cache }, ops := [] }

/-- Call down, and let `remember` put a successful answer into the cache. -/
def callDown (cache : StorageCache C) (o : Outcome S α)
    (remember : α → StorageCache C) : Outcome (CachedStorage C S) α :=
  match o.result with
  | .ok a => { result := .ok a, store := { storage := o.store, cache := remember a }, ops := o.ops }
  | .error e => { result := .error e, store := { storage := o.store, cache }, ops := o.ops }

/-- A query whose one answer is remembered: the slot, or else the call down. -/
def remembered (s : CachedStorage C S) (slot : Option α) (f : S → Outcome S α)
    (remember : α → StorageCache C) : Outcome (CachedStorage C S) α :=
  match slot with
  | some a => hit s a s.cache
  | none => callDown s.cache (f s.storage) remember

/-! ## `impl Storage for CachedStorage` -/

def initialState (s : CachedStorage C S) : Outcome (CachedStorage C S) RaftState :=
  remembered s s.cache.initialState StorageExt.initialState
    fun a => { s.cache with initialState := some a }

def entries (s : CachedStorage C S) (low high maxSize : Nat) :
    Outcome (CachedStorage C S) (List Entry) :=
  match s.cache.entries with
  | some entries =>
    match EntryCache.range entries (List.range' low (high - low)) with
    | (some range, entries) =>
      hit s range { s.cache with entries := some (EntryCache.insertAll entries range) }
    | (none, entries) =>
      let cache := { s.cache with entries := some entries }
      callDown cache (StorageExt.entries s.storage low high maxSize) fun _ => cache
  | none =>
    callDown s.cache (StorageExt.entries s.storage low high maxSize)
      fun range => { s.cache with entries := some (EntryCache.insertAll L.empty range) }

def term (s : CachedStorage C S) (idx : Nat) : Outcome (CachedStorage C S) Nat :=
  match TermCache.get s.cache.terms idx with
  | (some term, terms) => hit s term { s.cache with terms }
  | (none, terms) =>
    let cache := { s.cache with terms }
    callDown cache (StorageExt.term s.storage idx)
      fun term => { cache with terms := TermCache.insert terms idx term }

def firstIndex (s : CachedStorage C S) : Outcome (CachedStorage C S) Nat :=
  remembered s s.cache.firstIndex StorageExt.firstIndex fun a => { s.cache with firstIndex := some a }

def lastIndex (s : CachedStorage C S) : Outcome (CachedStorage C S) Nat :=
  remembered s s.cache.lastIndex StorageExt.lastIndex fun a => { s.cache with lastIndex := some a }

def snapshot (s : CachedStorage C S) : Outcome (CachedStorage C S) Snapshot :=
  remembered s s.cache.snapshot StorageExt.snapshot fun a => { s.cache with snapshot := some a }

/-! ## `impl StorageExt for CachedStorage` -/

/-- A mutator that invalidates: the reset comes before the call. -/
def mutate (s : CachedStorage C S) (f : S → Outcome S α) : Outcome (CachedStorage C S) α :=
  let cache := s.cache.reset
  callDown cache (f s.storage) fun _ => cache

/-- `applied` and `set_applied` pass the cache by. -/
def pass (s : CachedStorage C S) (f : S → Outcome S α) : Outcome (CachedStorage C S) α :=
  callDown s.cache (f s.storage) fun _ => s.cache

instance : StorageExt (CachedStorage C S) where
  initialState := initialState
  entries := entries
  term := term
  firstIndex := firstIndex
  lastIndex := lastIndex
  snapshot := snapshot
  setHardstate s hardState := mutate s (StorageExt.setHardstate · hardState)
  applySnapshot s snapshot := mutate s (StorageExt.applySnapshot · snapshot)
  createSnapshot s index confState data :=
    mutate s (StorageExt.createSnapshot · index confState data)
  compact s compactIndex := mutate s (StorageExt.compact · compactIndex)
  append s entries := mutate s (StorageExt.append · entries)
  applied s := pass s StorageExt.applied
  setApplied s applied := pass s (StorageExt.setApplied · applied)

end CachedStorage

end SawtoothRaft
