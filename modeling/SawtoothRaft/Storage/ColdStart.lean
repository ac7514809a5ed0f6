import SawtoothRaft.Storage.Coherence

/-!
# The cache after a reset

`Coherence` leaves out empty ranges, for which the cache and the store below
it may disagree. Here they are let in. Whether a cache answers an empty range
on its own depends on one thing only: whether it has an entry cache at all,
which it has from the first range on that the store has answered. `answers`
says what a cache answers, given that, and `replies_eq_answers` that it does.

A reset empties the entry cache and keeps it. So a storage that has been reset
is not in the state of a new one, and `cold_start_iff` says when this can be
seen.
-/

namespace SawtoothRaft

open Lib

/-- A question to the storage: no file changes. -/
def Call.IsQuery : Call → Prop
  | .initialState | .entries _ _ _ | .term _ | .firstIndex | .lastIndex | .snapshot
  | .applied => True
  | _ => False

/-- A mutator that resets the cache. -/
def Call.Invalidates : Call → Prop
  | .setHardstate _ | .applySnapshot _ | .createSnapshot _ _ _ | .compact _ | .append _ => True
  | _ => False

/-- The storage after a sequence of calls. -/
def StorageExt.after {S : Type} [StorageExt S] (s : S) (calls : List Call) : S :=
  calls.foldl (fun s c => (StorageExt.serve s c).store) s

namespace CachedStorage

variable [Protobuf] {C : Type → Type} [L : LruCache cacheSize C]

/-- The call asks for a range, and the store answers it. -/
def opens (d : Dir) : Call → Bool
  | .entries low high m => (FsStorage.entries d low high m).isOk
  | _ => false

/-- One of the calls asks for a range and is answered. -/
def Warmed (s : CachedStorage C FsStorage) : List Call → Prop
  | [] => False
  | c :: cs =>
    ((∃ low high m, c = .entries low high m) ∧ (StorageExt.serve s c).result.isOk = true) ∨
      Warmed (StorageExt.serve s c).store cs

/-- The first range among the calls that is empty or answered by the store is
answered by the store. -/
def Covered (d : Dir) : List Call → Prop
  | [] => True
  | .entries low high m :: cs => opens d (.entries low high m) ∨ low < high ∧ Covered d cs
  | _ :: cs => Covered d cs

/-! ## Whether there is an entry cache -/

/-- Whether there is an entry cache. -/
def warm (s : CachedStorage C FsStorage) : Bool := s.cache.entries.isSome

omit [Protobuf] L in
theorem warm_remembered {α : Type} {s : CachedStorage C FsStorage} {slot : Option α}
    {f : FsStorage → Outcome FsStorage α} {remember : α → StorageCache C}
    (h : ∀ a, (remember a).entries = s.cache.entries) :
    (remembered s slot f remember).store.warm = s.warm := by
  cases slot with
  | some a => rfl
  | none =>
    show (callDown s.cache (f s.storage) remember).store.warm = _
    unfold callDown warm
    cases (f s.storage).result with
    | ok a => exact congrArg Option.isSome (h a)
    | error e => rfl

omit [Protobuf] in
theorem warm_mutate {α : Type} (s : CachedStorage C FsStorage)
    (f : FsStorage → Outcome FsStorage α) : (mutate s f).store.warm = s.warm := by
  have hreset : s.cache.reset.entries.isSome = s.warm := Option.isSome_map
  unfold mutate callDown
  cases (f s.storage).result with
  | ok a => exact hreset
  | error e => exact hreset

omit [Protobuf] L in
theorem warm_pass {α : Type} (s : CachedStorage C FsStorage)
    (f : FsStorage → Outcome FsStorage α) : (pass s f).store.warm = s.warm := by
  unfold pass callDown
  cases (f s.storage).result with
  | ok a => rfl
  | error e => rfl

theorem warm_entries (s : CachedStorage C FsStorage) (low high m : Nat) :
    (entries s low high m).store.warm = (s.warm || (entries s low high m).result.isOk) := by
  unfold entries
  split
  next c hcache =>
    have hwarm : s.warm = true := by rw [warm, hcache]; rfl
    rw [hwarm, Bool.true_or]
    split
    next => rfl
    next =>
      unfold callDown
      cases (StorageExt.entries s.storage low high m).result with
      | ok es => rfl
      | error e => rfl
  next hcache =>
    have hcold : s.warm = false := by rw [warm, hcache]; rfl
    rw [hcold, Bool.false_or]
    unfold callDown
    cases (StorageExt.entries s.storage low high m).result with
    | ok es => rfl
    | error e => exact hcold

theorem warm_term (s : CachedStorage C FsStorage) (idx : Nat) :
    (term s idx).store.warm = s.warm := by
  unfold term
  split
  next => rfl
  next =>
    unfold callDown
    cases (StorageExt.term s.storage idx).result with
    | ok t => rfl
    | error e => rfl

/-- **Step**: an entry cache comes with the first range that is answered, and
stays. -/
theorem warm_serve (s : CachedStorage C FsStorage) (c : Call) :
    (StorageExt.serve s c).store.warm = true ↔ s.warm = true ∨
      ((∃ low high m, c = .entries low high m) ∧ (StorageExt.serve s c).result.isOk = true) := by
  have hother : (∀ low high m, c ≠ .entries low high m) →
      (StorageExt.serve s c).store.warm = s.warm →
      ((StorageExt.serve s c).store.warm = true ↔ s.warm = true ∨
        ((∃ low high m, c = .entries low high m) ∧
          (StorageExt.serve s c).result.isOk = true)) := by
    intro hne h
    rw [h]
    refine ⟨Or.inl, fun h => h.resolve_right fun h' => ?_⟩
    obtain ⟨⟨low, high, m, rfl⟩, -⟩ := h'
    exact hne low high m rfl
  cases c with
  | entries low high m =>
    have hresult : (StorageExt.serve s (.entries low high m)).result.isOk
        = (entries s low high m).result.isOk := by
      show ((entries s low high m).result.map _).isOk = _
      cases (entries s low high m).result with
      | ok es => rfl
      | error e => rfl
    rw [hresult]
    show (entries s low high m).store.warm = true ↔ _
    rw [warm_entries, Bool.or_eq_true]
    exact or_congr Iff.rfl ⟨fun h => ⟨⟨_, _, _, rfl⟩, h⟩, fun h => h.2⟩
  | initialState => exact hother (by simp) (warm_remembered fun _ => rfl)
  | firstIndex => exact hother (by simp) (warm_remembered fun _ => rfl)
  | lastIndex => exact hother (by simp) (warm_remembered fun _ => rfl)
  | snapshot => exact hother (by simp) (warm_remembered fun _ => rfl)
  | term idx => exact hother (by simp) (warm_term s idx)
  | setHardstate hs => exact hother (by simp) (warm_mutate s (StorageExt.setHardstate · hs))
  | applySnapshot snap => exact hother (by simp) (warm_mutate s (StorageExt.applySnapshot · snap))
  | createSnapshot index cs data =>
    exact hother (by simp) (warm_mutate s (StorageExt.createSnapshot · index cs data))
  | compact i => exact hother (by simp) (warm_mutate s (StorageExt.compact · i))
  | append es => exact hother (by simp) (warm_mutate s (StorageExt.append · es))
  | applied => exact hother (by simp) (warm_pass s StorageExt.applied)
  | setApplied a => exact hother (by simp) (warm_pass s (StorageExt.setApplied · a))

/-- **Run**: there is an entry cache exactly if there was one before, or one of the
calls has got a range. -/
theorem warm_after (calls : List Call) : ∀ s : CachedStorage C FsStorage,
    (StorageExt.after s calls).warm = true ↔ s.warm = true ∨ Warmed s calls := by
  induction calls with
  | nil => exact fun s => (or_iff_left id).symm
  | cons c calls ih =>
    intro s
    show (StorageExt.after (StorageExt.serve s c).store calls).warm = true ↔ _
    rw [ih, warm_serve, or_assoc]
    rfl

/-! ## What a cache answers -/

/-- The answer to a query: an empty range needs no store once there is an
entry cache. -/
def answer (d : Dir) (warm : Bool) : Call → Except Fault Reply
  | .entries low high m =>
    if warm = true ∧ high ≤ low then .ok (.entries [])
    else (StorageExt.serve (⟨d⟩ : FsStorage) (.entries low high m)).result
  | c => (StorageExt.serve (⟨d⟩ : FsStorage) c).result

def answers (d : Dir) : Bool → List Call → List (Except Fault Reply)
  | _, [] => []
  | warm, c :: cs => answer d warm c :: answers d (warm || opens d c) cs

theorem answer_of_not {d : Dir} {w : Bool} {low high m : Nat} (h : ¬ (w = true ∧ high ≤ low)) :
    answer d w (.entries low high m)
      = (StorageExt.serve (⟨d⟩ : FsStorage) (.entries low high m)).result :=
  if_neg h

theorem answer_empty {d : Dir} {low high m : Nat} (h : high ≤ low) :
    answer d true (.entries low high m) = .ok (.entries []) :=
  if_pos ⟨rfl, h⟩

/-- An empty range that the store answers has no entries. -/
theorem entries_of_empty {d : Dir} {low high m : Nat} {es : List Entry} (hle : high ≤ low)
    (h : FsStorage.entries d low high m = .ok es) : es = [] := by
  unfold FsStorage.entries at h
  split at h
  next => cases h
  next hlt =>
    obtain ⟨first, -, h⟩ := bind_eq_ok.mp h
    obtain ⟨last, -, h⟩ := bind_eq_ok.mp h
    split at h
    next => cases h
    next =>
      rw [if_pos (by omega)] at h
      exact (Except.ok.inj h).symm

/-- An empty range, by whether there is an entry cache. -/
theorem entries_empty {s : CachedStorage C FsStorage} {low high : Nat} (m : Nat)
    (hle : high ≤ low) (hc : Coherent s.storage.dir s.cache) (hw : WellIndexed s.storage.dir) :
    (StorageExt.serve s (.entries low high m)).result
        = answer s.storage.dir s.warm (.entries low high m) ∧
      (StorageExt.serve s (.entries low high m)).store.storage = s.storage ∧
      Coherent s.storage.dir (StorageExt.serve s (.entries low high m)).store.cache := by
  show ((entries s low high m).result.map _) = _ ∧ (entries s low high m).store.storage = _ ∧
    Coherent _ (entries s low high m).store.cache
  unfold entries
  split
  next c hcache =>
    have hwarm : s.warm = true := by rw [warm, hcache]; rfl
    rw [hwarm, answer_empty hle, show high - low = 0 by omega]
    refine ⟨rfl, rfl, ?_⟩
    refine { hc with entries := fun c' hc' => ?_ }
    obtain rfl := Option.some.inj hc'
    exact hc.entries c hcache
  next hcache =>
    have hcold : s.warm = false := by rw [warm, hcache]; rfl
    rw [hcold, answer_of_not (by simp)]
    have hempty : ∀ es, FsStorage.entries s.storage.dir low high m = .ok es →
        Coherent s.storage.dir { s.cache with
          entries := some (EntryCache.insertAll L.empty es) } := by
      intro es hes
      obtain rfl := entries_of_empty hle hes
      refine { hc with entries := fun c' hc' => ?_ }
      obtain rfl := Option.some.inj hc'
      simp [EntryCache.insertAll, L.contents_empty]
    have hsim := sim_callDown hc hempty hw
    refine ⟨congrArg (Except.map _) hsim.result, hsim.storage, ?_⟩
    have hcoherent := hsim.coherent
    rw [hsim.storage] at hcoherent
    exact hcoherent

/-- **Step**: any call at all leaves the cache coherent. -/
theorem coherent_serve {s : CachedStorage C FsStorage} (c : Call)
    (hc : Coherent s.storage.dir s.cache) (hw : WellIndexed s.storage.dir) :
    Coherent (StorageExt.serve s c).store.storage.dir (StorageExt.serve s c).store.cache ∧
      WellIndexed (StorageExt.serve s c).store.storage.dir := by
  by_cases hp : c.Proper
  · have hsim := sim_serve hp hc hw
    exact ⟨hsim.coherent, hsim.wellIndexed⟩
  · cases c with
    | entries low high m =>
      obtain ⟨-, hstorage, hcoherent⟩ := entries_empty m (Nat.not_lt.mp hp) hc hw
      rw [hstorage]
      exact ⟨hcoherent, hw⟩
    | _ => exact absurd trivial hp

/-- **Run**: the cache stays coherent over any calls, proper or not. -/
theorem coherent_after (calls : List Call) : ∀ {s : CachedStorage C FsStorage},
    Coherent s.storage.dir s.cache → WellIndexed s.storage.dir →
    Coherent (StorageExt.after s calls).storage.dir (StorageExt.after s calls).cache ∧
      WellIndexed (StorageExt.after s calls).storage.dir := by
  induction calls with
  | nil => exact fun hc hw => ⟨hc, hw⟩
  | cons c calls ih =>
    intro s hc hw
    obtain ⟨hc', hw'⟩ := coherent_serve c hc hw
    exact ih hc' hw'

/-- The store keeps its files under a query. -/
theorem serve_query {c : Call} (h : c.IsQuery) (s : FsStorage) :
    (StorageExt.serve s c).store = s := by
  cases c with
  | setHardstate | applySnapshot | createSnapshot | compact | append | setApplied =>
    exact absurd h (by simp [Call.IsQuery])
  | _ => rfl

theorem serve_result {s : CachedStorage C FsStorage} {c : Call} (hq : c.IsQuery)
    (hc : Coherent s.storage.dir s.cache) (hw : WellIndexed s.storage.dir) :
    (StorageExt.serve s c).result = answer s.storage.dir s.warm c ∧
      (StorageExt.serve s c).store.storage = s.storage := by
  by_cases hp : c.Proper
  · have hsim := sim_serve hp hc hw
    refine ⟨hsim.result.trans ?_, hsim.storage.trans (serve_query hq _)⟩
    cases c with
    | entries low high m => exact (answer_of_not fun h => absurd hp (Nat.not_lt.mpr h.2)).symm
    | _ => rfl
  · cases c with
    | entries low high m =>
      obtain ⟨hresult, hstorage, -⟩ := entries_empty m (Nat.not_lt.mp hp) hc hw
      exact ⟨hresult, hstorage⟩
    | _ => exact absurd trivial hp

/-- After a query there is an entry cache if there was one, or if the store
answers the range. -/
theorem warm_serve_query {s : CachedStorage C FsStorage} {c : Call} (hq : c.IsQuery)
    (hc : Coherent s.storage.dir s.cache) (hw : WellIndexed s.storage.dir) :
    (StorageExt.serve s c).store.warm = (s.warm || opens s.storage.dir c) := by
  rw [Bool.eq_iff_iff, warm_serve, Bool.or_eq_true]
  cases hwarm : s.warm with
  | true => simp
  | false =>
    refine or_congr Iff.rfl ?_
    rw [(serve_result hq hc hw).1, hwarm]
    cases c with
    | entries low high m =>
      rw [answer_of_not (by simp)]
      show _ ∧ (((FsStorage.entries s.storage.dir low high m).mapError _).map _).isOk = true ↔
        (FsStorage.entries s.storage.dir low high m).isOk = true
      cases FsStorage.entries s.storage.dir low high m with
      | ok es => exact ⟨fun _ => rfl, fun _ => ⟨⟨_, _, _, rfl⟩, rfl⟩⟩
      | error e => exact ⟨fun h => h.2, fun h => absurd h (by simp [Except.isOk, Except.toBool])⟩
    | _ => simp [opens]

/-- **Run**: the answers of a coherent cache. -/
theorem replies_eq_answers (queries : List Call) : ∀ {s : CachedStorage C FsStorage},
    (∀ q ∈ queries, q.IsQuery) → Coherent s.storage.dir s.cache → WellIndexed s.storage.dir →
    StorageExt.replies s queries = answers s.storage.dir s.warm queries := by
  induction queries with
  | nil => exact fun _ _ _ => rfl
  | cons c queries ih =>
    intro s hq hc hw
    obtain ⟨hqc, hq⟩ := List.forall_mem_cons.mp hq
    obtain ⟨hresult, hstorage⟩ := serve_result hqc hc hw
    obtain ⟨hc', hw'⟩ := coherent_serve c hc hw
    show (StorageExt.serve s c).result :: StorageExt.replies (StorageExt.serve s c).store queries
      = _ :: _
    rw [hresult, ih hq hc' hw', hstorage, warm_serve_query hqc hc hw]

/-! ## With and without an entry cache -/

/-- Having an entry cache or not makes no difference exactly if the queries
are covered. -/
theorem answers_eq_iff (d : Dir) (queries : List Call) :
    answers d true queries = answers d false queries ↔ Covered d queries := by
  induction queries with
  | nil => exact ⟨fun _ => trivial, fun _ => rfl⟩
  | cons c queries ih =>
    cases c with
    | entries low high m =>
      show _ :: answers d true queries
          = _ :: answers d (opens d (.entries low high m)) queries ↔
        opens d (.entries low high m) = true ∨ low < high ∧ Covered d queries
      rw [answer_of_not (w := false) (by simp), List.cons.injEq]
      rcases Nat.lt_or_ge low high with hlt | hle
      · -- both ask the store
        rw [answer_of_not fun h => absurd hlt (Nat.not_lt.mpr h.2)]
        cases hopens : opens d (.entries low high m) with
        | true => simp
        | false => simp [ih, hlt]
      · -- only the one without a cache does
        rw [answer_empty hle]
        show Except.ok (Reply.entries [])
          = ((FsStorage.entries d low high m).mapError Fault.err).map _ ∧ _ ↔ _
        cases hr : FsStorage.entries d low high m with
        | ok es =>
          have hopens : opens d (.entries low high m) = true := by
            show (FsStorage.entries d low high m).isOk = true
            rw [hr]
            rfl
          obtain rfl := entries_of_empty hle hr
          rw [hopens]
          exact ⟨fun _ => Or.inl rfl, fun _ => ⟨rfl, rfl⟩⟩
        | error e =>
          have hopens : opens d (.entries low high m) = false := by
            show (FsStorage.entries d low high m).isOk = false
            rw [hr]
            rfl
          rw [hopens]
          constructor
          · intro h
            cases h.1
          · intro h
            rcases h with h | h
            · cases h
            · exact absurd h.1 (Nat.not_lt.mpr hle)
    | _ =>
      show _ :: answers d true queries = _ :: answers d false queries ↔ Covered d queries
      rw [← ih, List.cons.injEq]
      exact and_iff_right rfl

/-- **A reset is a cold start, exactly if no empty range can tell.** After any
history that ends in a mutator, later queries are answered as by a new cache
over the same store if and only if no range had been answered in the history,
or the first of the ranges asked for later that is empty or answered by the
store is answered by the store. -/
theorem cold_start_iff {d : Dir} (hd : WellIndexed d) (history : List Call) {c : Call}
    (hc : c.Invalidates) {queries : List Call} (hq : ∀ q ∈ queries, q.IsQuery) :
    StorageExt.replies (StorageExt.after (new ⟨d⟩ : CachedStorage C FsStorage) (history ++ [c])) queries
      = StorageExt.replies (new (StorageExt.after (new ⟨d⟩ : CachedStorage C FsStorage)
          (history ++ [c])).storage : CachedStorage C FsStorage) queries ↔
    ¬ Warmed (new ⟨d⟩ : CachedStorage C FsStorage) history ∨
      Covered (StorageExt.after (new ⟨d⟩ : CachedStorage C FsStorage)
        (history ++ [c])).storage.dir queries := by
  obtain ⟨hcoh, hwell⟩ := coherent_after (s := (new ⟨d⟩ : CachedStorage C FsStorage))
    (history ++ [c]) (coherent_fresh d) hd
  have hwarm : (StorageExt.after (new ⟨d⟩ : CachedStorage C FsStorage) (history ++ [c])).warm = true ↔
      Warmed (new ⟨d⟩ : CachedStorage C FsStorage) history := by
    unfold StorageExt.after
    rw [List.foldl_append]
    refine (warm_serve _ c).trans ?_
    rw [show List.foldl _ _ history
      = StorageExt.after (new ⟨d⟩ : CachedStorage C FsStorage) history from rfl, warm_after]
    constructor
    · intro h
      rcases h with (h | h) | h
      · cases h
      · exact h
      · obtain ⟨⟨low, high, m, rfl⟩, -⟩ := h
        exact absurd hc (by simp [Call.Invalidates])
    · exact fun h => Or.inl (Or.inr h)
  generalize StorageExt.after (new ⟨d⟩ : CachedStorage C FsStorage) (history ++ [c]) = s at *
  rw [replies_eq_answers queries hq hcoh hwell,
    replies_eq_answers (s := (new s.storage : CachedStorage C FsStorage)) queries hq
      (coherent_fresh s.storage.dir) hwell]
  show answers s.storage.dir s.warm queries = answers s.storage.dir false queries ↔ _
  rw [← hwarm, ← answers_eq_iff]
  cases s.warm with
  | true => simp
  | false => simp

end CachedStorage

namespace CachedStorage

open scoped Proto3
open FsStorage (newStore)

/-- One entry is appended, read and compacted away. -/
def emptiedLog : List Call := [.append [{ term := 1, index := 1 }], .entries 1 2 0]

/-- Without the read, the reset storage answers like a new one. -/
theorem cold_start_iff_unread :
    letI := listLru cacheSize
    WellIndexed newStore.dir ∧
    StorageExt.replies (StorageExt.after (new newStore : CachedStorage List FsStorage)
        ([.append [{ term := 1, index := 1 }]] ++ [.compact 1])) [.entries 2 2 0, .entries 3 2 0]
      = StorageExt.replies (new (StorageExt.after (new newStore : CachedStorage List FsStorage)
          ([.append [{ term := 1, index := 1 }]] ++ [.compact 1])).storage :
            CachedStorage List FsStorage) [.entries 2 2 0, .entries 3 2 0] := by
  let _ := listLru cacheSize
  refine ⟨newStore_wellIndexed, (cold_start_iff newStore_wellIndexed _ (c := .compact 1) trivial
    ?_).mpr (Or.inl ?_)⟩
  · simp [Call.IsQuery]
  · simp [Warmed]

/-- With the read, an empty range is answered at once, where a new cache asks
the store, which has no log any more. -/
theorem reset_answers_empty_range :
    letI := listLru cacheSize
    WellIndexed newStore.dir ∧
    StorageExt.replies (StorageExt.after (new newStore : CachedStorage List FsStorage)
        (emptiedLog ++ [.compact 1])) [.entries 2 2 0] = [.ok (.entries [])] ∧
    StorageExt.replies (new (StorageExt.after (new newStore : CachedStorage List FsStorage)
        (emptiedLog ++ [.compact 1])).storage : CachedStorage List FsStorage) [.entries 2 2 0]
      = [.error (.err (.Store .Compacted))] ∧
    StorageExt.replies (StorageExt.after (new newStore : CachedStorage List FsStorage)
        (emptiedLog ++ [.compact 1])) [.entries 2 2 0]
      ≠ StorageExt.replies (new (StorageExt.after (new newStore : CachedStorage List FsStorage)
          (emptiedLog ++ [.compact 1])).storage : CachedStorage List FsStorage)
        [.entries 2 2 0] := by
  let _ := listLru cacheSize
  have hreset : StorageExt.replies (StorageExt.after (new newStore : CachedStorage List FsStorage)
      (emptiedLog ++ [.compact 1])) [.entries 2 2 0] = [.ok (.entries [])] := by decide +kernel
  have hnew : StorageExt.replies (new (StorageExt.after
      (new newStore : CachedStorage List FsStorage) (emptiedLog ++ [.compact 1])).storage :
        CachedStorage List FsStorage) [.entries 2 2 0]
      = [.error (.err (.Store .Compacted))] := by decide +kernel
  refine ⟨newStore_wellIndexed, hreset, hnew, ?_⟩
  rw [hreset, hnew]
  simp

end CachedStorage

end SawtoothRaft
