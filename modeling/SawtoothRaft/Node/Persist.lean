import SawtoothRaft.Node.Steady
import SawtoothRaft.Storage.Coherence

/-!
# What a running node does to its directory

A trace records every file operation, so the directory of a running node is
what the operations of its trace make of the directory it started with
(`Tracked`), and a crash leaves what a prefix of the trace makes of it.

The file `applied` is written by `set_applied` and by nothing else, in a
single operation right after the call. `Tidy` says so about a trace, and
`Tidy.disk` draws the consequence for every prefix: either the file holds the
index that the books have last, or the trace ends in a call to `set_applied`
that has not reached the disk.
-/

namespace SawtoothRaft

open Lib

/-! ## The directory behind the cache -/

namespace CachedStorage

variable [Protobuf] {C : Type → Type} [L : LruCache cacheSize C] {α : Type}

omit [Protobuf] in
theorem mutate_ops (s : CachedStorage C FsStorage) (f : FsStorage → Outcome FsStorage α) :
    (mutate s f).ops = (f s.storage).ops := by
  unfold mutate callDown
  cases (f s.storage).result with
  | ok a => rfl
  | error e => rfl

omit [Protobuf] in
theorem mutate_storage (s : CachedStorage C FsStorage) (f : FsStorage → Outcome FsStorage α) :
    (mutate s f).store.storage = (f s.storage).store := by
  unfold mutate callDown
  cases (f s.storage).result with
  | ok a => rfl
  | error e => rfl

/-- The store operations of a round are those of the mutators, and change the
directory as they are recorded. -/
theorem persists_ops {s : CachedStorage C FsStorage} {o : Outcome (CachedStorage C FsStorage) Unit}
    (h : Node.Persists s o) :
    (∀ op ∈ o.ops, FsStorage.StoreOp op) ∧
      o.store.storage.dir = replay s.storage.dir o.ops := by
  have hmutate : ∀ {m : FsM Fault Unit}, FsStorage.Traced FsStorage.StoreOp m →
      (∀ op ∈ (mutate s (FsStorage.call m)).ops, FsStorage.StoreOp op) ∧
      (mutate s (FsStorage.call m)).store.storage.dir
        = replay s.storage.dir (mutate s (FsStorage.call m)).ops := by
    intro m hm
    rw [mutate_ops, mutate_storage]
    exact hm.call s.storage
  cases h with
  | applySnapshot snap =>
    exact hmutate (FsStorage.applySnapshot_traced FsStorage.storeOp_admits.toAdmitsSnapshot snap)
  | append es => exact hmutate (FsStorage.append_traced FsStorage.storeOp_admits fun _ _ => trivial)
  | setHardstate hs =>
    exact hmutate (FsStorage.setHardstate_traced FsStorage.storeOp_admits.hardState hs)

end CachedStorage

/-! ## The file operations of a trace -/

/-- The file operations of a trace. -/
def fileOps (t : List Obs) : List FileOp :=
  t.filterMap fun
    | .file op => some op
    | _ => none

@[simp] theorem fileOps_append (t u : List Obs) : fileOps (t ++ u) = fileOps t ++ fileOps u :=
  List.filterMap_append ..

@[simp] theorem fileOps_files (ops : List FileOp) : fileOps (ops.map Obs.file) = ops := by
  unfold fileOps
  induction ops with
  | nil => rfl
  | cons op ops ih => exact congrArg (op :: ·) ih

/-- A prefix that reaches into a list of file operations has some of them. -/
theorem prefix_append_files {t t' : List Obs} {ops : List FileOp}
    (h : t' <+: t ++ ops.map Obs.file) :
    t' <+: t ∨ ∃ ops', ops' <+: ops ∧ t' = t ++ ops'.map Obs.file := by
  rcases le_total t'.length t.length with hle | hle
  · exact Or.inl (List.prefix_of_prefix_length_le h (List.prefix_append ..) hle)
  · obtain ⟨u, rfl⟩ := List.prefix_of_prefix_length_le (List.prefix_append ..) h hle
    have hu := (List.prefix_append_right_inj _).mp h
    refine Or.inr ⟨ops.take u.length, List.take_prefix .., ?_⟩
    rw [List.map_take, ← List.prefix_iff_eq_take.mp hu]

/-- Something else that happens is not a file operation. -/
theorem fileOps_other {o : Obs} (h : ∀ op, o ≠ .file op) : fileOps [o] = [] := by
  cases o with
  | file op => exact absurd rfl (h op)
  | _ => rfl

/-- Traces in which `set_applied` writes its file at once, and nothing else
does. -/
inductive Tidy [Protobuf] : List Obs → Prop
  | nil : Tidy []
  | other {t : List Obs} (o : Obs) (h : Tidy t) (hset : ∀ i, o ≠ .setApplied i)
    (hfile : ∀ op, o ≠ .file op) : Tidy (t ++ [o])
  | files {t : List Obs} (ops : List FileOp) (h : Tidy t)
    (hops : ∀ op ∈ ops, FsStorage.StoreOp op) : Tidy (t ++ ops.map Obs.file)
  | setApplied {t : List Obs} (i : Nat) (h : Tidy t) :
    Tidy (t ++ [.setApplied i] ++ [.file (.write .applied (u64ToBytes i))])

/-- The operations of a prefix are among those of the trace. -/
theorem fileOps_grow {t u : List Obs} (h : u <+: t) {op : FileOp} (hop : op ∈ fileOps u) :
    op ∈ fileOps t := by
  obtain ⟨v, rfl⟩ := h
  rw [fileOps_append]
  exact List.mem_append_left _ hop

/-- A tidy trace removes nothing but entries. -/
theorem Tidy.removal [Protobuf] {t : List Obs} (h : Tidy t) :
    ∀ op ∈ fileOps t, ∀ name, op = .remove name → ∃ i, name = .entry i := by
  induction h with
  | nil => simp [fileOps]
  | other o _ _ hfile ih =>
    rw [fileOps_append, fileOps_other hfile, List.append_nil]
    exact ih
  | files ops _ hops ih =>
    intro op hop
    rw [fileOps_append, fileOps_files] at hop
    rcases List.mem_append.mp hop with hop | hop
    · exact ih op hop
    · exact (hops op hop).removal
  | setApplied i _ ih =>
    intro op hop
    rw [fileOps_append, fileOps_append, fileOps_other (by simp), List.append_nil] at hop
    rcases List.mem_append.mp hop with hop | hop
    · exact ih op hop
    · rw [List.mem_singleton.mp hop]
      simp

namespace Node

/-- The directory of the node is what its trace made of `d`. -/
def Tracked [Protobuf] {C : Type → Type} (d : Dir) (n : Node (CachedStorage C FsStorage)) : Prop :=
  Tidy n.trace ∧ n.store.storage.dir = replay d (fileOps n.trace)

theorem tracked_closed [Protobuf] {C : Type → Type} [L : LruCache cacheSize C] (d : Dir) :
    Closed (Tracked (C := C) d) where
  leader _ _ h := h
  follower _ _ h := h
  queue _ _ h := h
  peers _ _ h := h
  record n o ho h := by
    refine ⟨h.1.other o ho.ne_setApplied ho.ne_file, ?_⟩
    rw [add_trace, fileOps_append, fileOps_other ho.ne_file, List.append_nil]
    exact h.2
  entry n e h := by
    refine ⟨h.1.other _ (by simp) (by simp), ?_⟩
    rw [add_trace, fileOps_append, fileOps_other (by simp), List.append_nil]
    exact h.2
  stored n o ho h := by
    obtain ⟨hops, hdir⟩ := CachedStorage.persists_ops ho
    refine ⟨h.1.files o.ops hops, ?_⟩
    rw [stored_trace, fileOps_append, fileOps_files, replay_append, ← h.2]
    exact hdir
  confirmed n i q h := by
    refine ⟨h.1.setApplied i, ?_⟩
    show replay n.store.storage.dir [.write .applied (u64ToBytes i)]
      = replay d (fileOps (n.trace ++ [.setApplied i] ++ [.file (.write .applied (u64ToBytes i))]))
    rw [fileOps_append, fileOps_append, replay_append, replay_append, ← h.2]
    rfl

end Node

/-! ## What a prefix of a tidy trace leaves in `applied` -/

/-- The notification that is being handled, and those whose index has reached
the disk. -/
def ledgerStep (l : Option BlockId × List BlockId) : Obs → Option BlockId × List BlockId
  | .blockCommit b => (some b, l.2)
  | .blockNew _ | .blockValid _ | .peerMessage _ | .tick | .ready _ => (none, l.2)
  | .file op => if op.name = .applied then (l.1, l.2 ++ l.1.toList) else l
  | _ => l

def ledger (t : List Obs) : Option BlockId × List BlockId := t.foldl ledgerStep (none, [])

/-- The notifications handled, in order: each with its index on disk. -/
def acknowledged (t : List Obs) : List BlockId := (ledger t).2

theorem ledger_snoc (t : List Obs) (o : Obs) : ledger (t ++ [o]) = ledgerStep (ledger t) o := by
  simp only [ledger, List.foldl_append, List.foldl_cons, List.foldl_nil]

/-- The contents of `applied` after the calls recorded in the books. -/
def appliedFile (d : Dir) (applied : List Nat) : Option Bytes :=
  match applied.getLast? with
  | some i => some (u64ToBytes i)
  | none => d .applied

/-- Disk and books agree. -/
structure Synced (d : Dir) (t : List Obs) : Prop where
  ledger : ledger t = ((books t).current, (books t).handled)
  file : replay d (fileOps t) .applied = appliedFile d (books t).applied

theorem Synced.other {d : Dir} {t : List Obs} {o : Obs} (h : Synced d t)
    (hset : ∀ i, o ≠ .setApplied i) (hfile : ∀ op, o ≠ .file op) : Synced d (t ++ [o]) := by
  have hbooks : (books (t ++ [o])).applied = (books t).applied ∧
      ledgerStep ((books t).current, (books t).handled) o
        = ((books (t ++ [o])).current, (books (t ++ [o])).handled) := by
    rw [books_snoc]
    cases o with
    | setApplied i => exact absurd rfl (hset i)
    | file op => exact absurd rfl (hfile op)
    | _ => exact ⟨rfl, rfl⟩
  refine ⟨?_, ?_⟩
  · rw [ledger_snoc, h.ledger, hbooks.2]
  · rw [fileOps_append, fileOps_other hfile, List.append_nil, hbooks.1, h.file]

theorem Synced.files {d : Dir} {t : List Obs} {ops : List FileOp} (h : Synced d t)
    (hops : ∀ op ∈ ops, op.name ≠ .applied) : Synced d (t ++ ops.map Obs.file) := by
  refine ⟨?_, ?_⟩
  · have hfold : ∀ (ops : List FileOp) (l : Option BlockId × List BlockId),
        (∀ op ∈ ops, op.name ≠ .applied) → (ops.map Obs.file).foldl ledgerStep l = l := by
      intro ops
      induction ops with
      | nil => exact fun l _ => rfl
      | cons op ops ih =>
        intro l hops
        obtain ⟨hop, hops⟩ := List.forall_mem_cons.mp hops
        rw [List.map_cons, List.foldl_cons]
        rw [show ledgerStep l (.file op) = l from if_neg hop]
        exact ih l hops
    rw [books_files, ← h.ledger]
    show (t ++ ops.map Obs.file).foldl ledgerStep (none, []) = _
    rw [List.foldl_append]
    exact hfold ops _ hops
  · rw [books_files, ← h.file, fileOps_append, fileOps_files, replay_append]
    exact replay_of_ne hops

theorem Synced.setApplied {d : Dir} {t : List Obs} (i : Nat) (h : Synced d t) :
    Synced d (t ++ [.setApplied i] ++ [.file (.write .applied (u64ToBytes i))]) := by
  refine ⟨?_, ?_⟩
  · rw [ledger_snoc, ledger_snoc, h.ledger, books_snoc, books_snoc]
    rfl
  · have hops : fileOps [.file (.write .applied (u64ToBytes i))]
        = [.write .applied (u64ToBytes i)] := rfl
    have hlast : ((books t).applied ++ [i]).getLast? = some i := by simp
    rw [fileOps_append, replay_append, hops, replay_write_self, books_snoc, books_snoc]
    show _ = appliedFile d ((books t).applied ++ [i])
    unfold appliedFile
    rw [hlast]

/-- Every prefix of a tidy trace is synced, or it ends in a call to
`set_applied` that has not written its file yet. -/
theorem Tidy.disk [Protobuf] (d : Dir) {t : List Obs} (h : Tidy t) :
    ∀ t', t' <+: t → Synced d t' ∨ ∃ t'' i, t' = t'' ++ [.setApplied i] ∧ Synced d t'' := by
  -- the whole trace first: every constructor leaves disk and books in step
  have hself : ∀ {t}, Tidy t → Synced d t := by
    intro t h
    induction h with
    | nil => exact ⟨rfl, rfl⟩
    | other o _ hset hfile ih => exact ih.other hset hfile
    | files ops _ hops ih => exact ih.files fun op hop => (hops op hop).name
    | setApplied i _ ih => exact ih.setApplied i
  induction h with
  | nil =>
    intro t' ht'
    rw [List.prefix_nil.mp ht']
    exact Or.inl (hself .nil)
  | other o h hset hfile ih =>
    intro t' ht'
    rcases List.prefix_concat_iff.mp ht' with rfl | ht'
    · exact Or.inl ((hself h).other hset hfile)
    · exact ih t' ht'
  | files ops h hops ih =>
    intro t' ht'
    rcases prefix_append_files ht' with ht' | ⟨ops', hops', rfl⟩
    · exact ih t' ht'
    · exact Or.inl ((hself h).files fun op hop => (hops op (hops'.subset hop)).name)
  | setApplied i h ih =>
    intro t' ht'
    rcases List.prefix_concat_iff.mp ht' with rfl | ht'
    · exact Or.inl ((hself h).setApplied i)
    · rcases List.prefix_concat_iff.mp ht' with rfl | ht'
      -- the one moment at which they differ
      · exact Or.inr ⟨_, i, rfl, hself h⟩
      · exact ih t' ht'

end SawtoothRaft
