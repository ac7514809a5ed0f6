import SawtoothRaft.Node.Opening
import SawtoothRaft.Node.Persist

/-!
# The life of a node: sessions, crashes and restarts

A life is a sequence of sessions over one directory. A session opens the
store, loads the configuration and runs a new node; it ends at any point, in
the middle of the opening or of a handler as well, and the next one finds the
directory as the file operations done by then have left it. On each start Raft
delivers the committed log from beyond the applied index that it was
configured with.

The invariant (`Safe`) splits the blocks of the log in two: `done`, which have
been confirmed one after the other over all sessions and whose last index is
the one on disk, and `rest`, of which at most the first has ever been passed to
`commit_block`.
-/

namespace SawtoothRaft

open Lib

/-! ## Committed logs -/

/-- The committed log of a Raft group. -/
structure CommittedLog where
  entries : List Entry
  increasing : entries.Pairwise (fun e e' => e.index < e'.index)
  positive : ∀ e ∈ entries, 0 < e.index
  u64 : ∀ e ∈ entries, e.index < 2 ^ 64

namespace CommittedLog

def blocks (log : CommittedLog) : List (BlockId × Nat) := blocksOf log.entries

/-- The entries with a greater index. -/
def after (log : CommittedLog) (applied : Nat) : List Entry :=
  log.entries.filter fun e => decide (applied < e.index)

end CommittedLog

/-- The last index of a list of blocks, 0 if there is none. -/
def lastIndexOf (ps : List (BlockId × Nat)) : Nat := (ps.getLast?.map (·.2)).getD 0

/-! ## Sessions and lives -/

/-- The directory once `t` has happened. -/
def dirAt (t : List Obs) : Dir := replay emptyDir (fileOps t)

/-- The applied index on disk; a file that has not been written yet counts
as 0. -/
def appliedAt (t : List Obs) : Nat :=
  match FsStorage.readApplied (dirAt t) with
  | .ok applied => applied
  | .error _ => 0

section
variable [Protobuf] [Formats]

/-- The traces of a session on the directory `d`: it may not get beyond
opening the store. -/
inductive Session (C : Type → Type) [LruCache cacheSize C] (log : CommittedLog) (d : Dir) :
    List Obs → Prop
  | opening : Session C log d ((createStorage (C := C) d).ops.map Obs.file)
  | running {raftDefault : RaftConfig} {peerId : PeerId} {settings : Except ServiceError Settings}
    {node : Node (CachedStorage C FsStorage)} {applied : Nat} {env : Env} {inputs : List Input}
    (hstart : startEngine C raftDefault d peerId settings = .ok (node, applied))
    (hlog : (books ((Sys.start node).run env inputs).node.trace).entries <+: log.after applied) :
    Session C log d ((createStorage (C := C) d).ops.map Obs.file
      ++ ((Sys.start node).run env inputs).node.trace)

/-- What has happened in the sessions so far. Each is cut off somewhere, and
the next one starts on the directory it has left. -/
inductive Life (C : Type → Type) [LruCache cacheSize C] (log : CommittedLog) :
    List (List Obs) → Prop
  | nil : Life C log []
  | crash {ts : List (List Obs)} {t : List Obs} (h : Life C log ts)
    (ht : Session C log (dirAt ts.flatten) t) (k : Nat) : Life C log (ts ++ [t.take k])

end

/-- The block entries of a session that were passed to `commit_block`. -/
def passed (t : List Obs) : List (BlockId × Nat) :=
  (books t).delivered.take (books t).commits.length

/-- The block entries of a session whose notification was handled. -/
def settled (t : List Obs) : List (BlockId × Nat) :=
  (books t).delivered.take (acknowledged t).length

/-! ## Logs and their blocks -/

theorem blocksOf_filter (i : Nat) (es : List Entry) :
    blocksOf (es.filter fun e => decide (i < e.index))
      = (blocksOf es).filter fun p => decide (i < p.2) := by
  unfold blocksOf
  rw [List.filterMap_filter, List.filter_filterMap]
  congr 1
  funext e
  by_cases hb : Node.IsBlock e
  · by_cases hi : i < e.index
    · simp [blockOf, hb, hi, Option.filter]
    · simp [blockOf, hb, hi, Option.filter]
  · simp [blockOf, hb]

theorem blockOf_eq_some {e : Entry} {p : BlockId × Nat} (h : blockOf e = some p) :
    p.2 = e.index := by
  unfold blockOf at h
  split at h
  · rw [← Option.some.inj h]
  · exact absurd h (by simp)

namespace CommittedLog

variable (log : CommittedLog)

theorem blocks_increasing : log.blocks.Pairwise fun p q => p.2 < q.2 := by
  refine List.Pairwise.filterMap blockOf ?_ log.increasing
  intro e e' h p hp q hq
  rw [blockOf_eq_some hp, blockOf_eq_some hq]
  exact h

theorem mem_blocks {p : BlockId × Nat} (h : p ∈ log.blocks) : 0 < p.2 ∧ p.2 < 2 ^ 64 := by
  obtain ⟨e, he, hp⟩ := List.mem_filterMap.mp h
  rw [blockOf_eq_some hp]
  exact ⟨log.positive e he, log.u64 e he⟩

end CommittedLog

theorem lastIndexOf_append (ps qs : List (BlockId × Nat)) :
    lastIndexOf (ps ++ qs) = (qs.getLast?.map (·.2)).getD (lastIndexOf ps) := by
  unfold lastIndexOf
  rw [List.getLast?_append]
  cases qs.getLast? with
  | none => rfl
  | some q => rfl

/-- In increasing order the last index is the greatest. -/
theorem le_lastIndexOf {ps : List (BlockId × Nat)} (h : ps.Pairwise fun p q => p.2 < q.2)
    {p : BlockId × Nat} (hp : p ∈ ps) : p.2 ≤ lastIndexOf ps := by
  induction ps using List.reverseRecOn with
  | nil => exact absurd hp (by simp)
  | append_singleton ps q ih =>
    rw [lastIndexOf_append]
    show p.2 ≤ q.2
    rcases List.mem_append.mp hp with hp | hp
    · exact Nat.le_of_lt ((List.pairwise_append.mp h).2.2 p hp q (List.mem_singleton_self q))
    · rw [List.mem_singleton.mp hp]

theorem lastIndexOf_mem (ps : List (BlockId × Nat)) :
    ps = [] ∧ lastIndexOf ps = 0 ∨ ∃ p ∈ ps, lastIndexOf ps = p.2 := by
  cases h : ps.getLast? with
  | none => exact Or.inl ⟨List.getLast?_eq_none_iff.mp h, by simp [lastIndexOf, h]⟩
  | some p => exact Or.inr ⟨p, List.mem_of_getLast? h, by simp [lastIndexOf, h]⟩

/-- Of the blocks of a log those beyond the last one done are left. -/
theorem CommittedLog.lt_of_rest (log : CommittedLog) {done rest : List (BlockId × Nat)}
    (h : log.blocks = done ++ rest) {p : BlockId × Nat} (hp : p ∈ rest) :
    lastIndexOf done < p.2 := by
  have hinc := log.blocks_increasing
  rw [h] at hinc
  rcases lastIndexOf_mem done with ⟨-, hzero⟩ | ⟨q, hq, hlast⟩
  · rw [hzero]
    exact (log.mem_blocks (h ▸ List.mem_append_right _ hp)).1
  · rw [hlast]
    exact (List.pairwise_append.mp hinc).2.2 q hq p hp

theorem CommittedLog.le_of_done (log : CommittedLog) {done rest : List (BlockId × Nat)}
    (h : log.blocks = done ++ rest) {p : BlockId × Nat} (hp : p ∈ done) :
    p.2 ≤ lastIndexOf done := by
  have hinc := log.blocks_increasing
  rw [h] at hinc
  exact le_lastIndexOf (List.pairwise_append.mp hinc).1 hp

/-- What Raft delivers after a restart. -/
theorem CommittedLog.blocksOf_after (log : CommittedLog) {done rest : List (BlockId × Nat)}
    (h : log.blocks = done ++ rest) : blocksOf (log.after (lastIndexOf done)) = rest := by
  have hdone : done.filter (fun p => decide (lastIndexOf done < p.2)) = [] := by
    rw [List.filter_eq_nil_iff]
    intro p hp
    simpa using log.le_of_done h hp
  have hrest : rest.filter (fun p => decide (lastIndexOf done < p.2)) = rest := by
    rw [List.filter_eq_self]
    intro p hp
    simpa using log.lt_of_rest h hp
  show blocksOf (log.entries.filter _) = rest
  rw [blocksOf_filter]
  show log.blocks.filter _ = rest
  rw [h, List.filter_append, hdone, hrest, List.nil_append]

/-! ## Within a session -/

theorem entries_grow {t u : List Obs} (h : u <+: t) : (books u).entries <+: (books t).entries := by
  have hstep : ∀ bk o, Books.entries bk <+: (bk.record o).entries := by
    intro bk o
    cases o with
    | entry e => exact List.prefix_append ..
    | _ => exact List.prefix_refl _
  exact foldl_grows Books.entries hstep h {}

theorem acknowledged_grows {t u : List Obs} (h : u <+: t) : acknowledged u <+: acknowledged t := by
  have hstep : ∀ l o, l.2 <+: (ledgerStep l o).2 := by
    intro l o
    cases o with
    | file op =>
      show l.2 <+: (if op.name = .applied then (l.1, l.2 ++ l.1.toList) else l).2
      split
      · exact List.prefix_append ..
      · exact List.prefix_refl _
    | _ => exact List.prefix_refl _
  exact foldl_grows (fun l => l.2) hstep h (none, [])

theorem settled_grows {t u : List Obs} (h : u <+: t) : settled u <+: settled t := by
  have hdelivered : (books u).delivered <+: (books t).delivered :=
    (entries_grow h).filterMap blockOf
  refine List.prefix_take_iff.mpr ⟨(List.take_prefix ..).trans hdelivered, ?_⟩
  exact Nat.le_trans (List.length_take_le ..) (acknowledged_grows h).length_le

/-- A point of a run on the directory `d`: the delivered blocks are `popped`,
which have been settled, and then `queue`, of which `c` is being committed. -/
structure Piece (d : Dir) (u : List Obs) (popped queue : List (BlockId × Nat))
    (c : Option BlockId) : Prop where
  delivered : (books u).delivered = popped ++ queue
  acknowledged : acknowledged u = popped.map (·.1)
  commits : (books u).commits = popped.map (·.1) ++ c.toList
  front : ∀ b, c = some b → ∃ i rest, queue = (b, i) :: rest
  file : replay d (fileOps u) .applied = appliedFile d (popped.map (·.2))

theorem Synced.piece {d : Dir} {u : List Obs} (h : Synced d u) (hs : Sound (books u)) :
    ∃ popped queue c, Piece d u popped queue c := by
  obtain ⟨popped, queue, c, hbal⟩ := hs
  refine ⟨popped, queue, c, hbal.delivered, ?_, hbal.commits, hbal.front, ?_⟩
  · show (SawtoothRaft.ledger u).2 = _
    rw [h.ledger, hbal.handled]
  · rw [h.file, hbal.applied]

/-- A call to `set_applied` that has not reached the disk changes nothing. -/
theorem Piece.setApplied {d : Dir} {u : List Obs} {popped queue : List (BlockId × Nat)}
    {c : Option BlockId} (h : Piece d u popped queue c) (i : Nat) :
    Piece d (u ++ [.setApplied i]) popped queue c := by
  have hops : fileOps (u ++ [.setApplied i]) = fileOps u := by
    rw [fileOps_append, fileOps_other (by simp), List.append_nil]
  refine ⟨?_, ?_, ?_, h.front, by rw [hops]; exact h.file⟩
  · rw [books_snoc]
    exact h.delivered
  · show (ledger (u ++ [.setApplied i])).2 = _
    rw [ledger_snoc]
    exact h.acknowledged
  · rw [books_snoc]
    exact h.commits

theorem exists_piece [Protobuf] (d : Dir) {t u : List Obs} (htidy : Tidy t) (hok : TraceOk t)
    (hu : u <+: t) : ∃ popped queue c, Piece d u popped queue c := by
  rcases htidy.disk d u hu with h | ⟨u', i, rfl, h⟩
  · exact h.piece (hok u hu)
  · obtain ⟨popped, queue, c, hpiece⟩ := h.piece (hok u' ((List.prefix_append ..).trans hu))
    exact ⟨popped, queue, c, hpiece.setApplied i⟩

section
variable {d : Dir} {u : List Obs} {popped queue : List (BlockId × Nat)} {c : Option BlockId}

theorem Piece.settled (h : Piece d u popped queue c) : settled u = popped := by
  unfold SawtoothRaft.settled
  rw [h.delivered, h.acknowledged, List.length_map, List.take_left]

theorem Piece.passed (h : Piece d u popped queue c) :
    passed u = popped ++ queue.take c.toList.length := by
  unfold SawtoothRaft.passed
  rw [h.delivered, h.commits, List.length_append, List.length_map, List.take_length_add_append]

theorem Piece.passed_ids (h : Piece d u popped queue c) :
    (SawtoothRaft.passed u).map (·.1) = (books u).commits := by
  rw [h.passed, h.commits, List.map_append]
  congr 1
  cases hc : c with
  | none => rfl
  | some b =>
    obtain ⟨i, rest, rfl⟩ := h.front b hc
    rfl

end

/-- What the records of one session say about each other. -/
structure Consistent (t : List Obs) : Prop where
  passed : (passed t).map (·.1) = (books t).commits
  settled : (settled t).map (·.1) = acknowledged t
  order : SawtoothRaft.settled t <+: SawtoothRaft.passed t

theorem Piece.consistent {d : Dir} {u : List Obs} {popped queue : List (BlockId × Nat)}
    {c : Option BlockId} (h : Piece d u popped queue c) : Consistent u := by
  refine ⟨h.passed_ids, by rw [h.settled, h.acknowledged], ?_⟩
  rw [h.settled, h.passed]
  exact List.prefix_append ..

/-- Opening the store is not in the books. -/
theorem books_opening (ops : List FileOp) (u : List Obs) :
    books (ops.map Obs.file ++ u) = books u := by
  have h : books (ops.map Obs.file) = {} := books_files [] ops
  unfold books at h ⊢
  rw [List.foldl_append, h]

theorem acknowledged_opening (ops : List FileOp) (u : List Obs) :
    acknowledged (ops.map Obs.file ++ u) = acknowledged u := by
  have h : ledger (ops.map Obs.file) = (none, []) := by
    unfold ledger
    induction ops with
    | nil => rfl
    | cons op ops ih =>
      rw [List.map_cons, List.foldl_cons]
      have hstep : ledgerStep (none, []) (.file op) = (none, []) := ite_self _
      rw [hstep]
      exact ih
  unfold acknowledged ledger at *
  rw [List.foldl_append, h]

theorem passed_opening (ops : List FileOp) (u : List Obs) :
    passed (ops.map Obs.file ++ u) = passed u := by
  unfold passed
  rw [books_opening]

theorem settled_opening (ops : List FileOp) (u : List Obs) :
    settled (ops.map Obs.file ++ u) = settled u := by
  unfold settled
  rw [books_opening, acknowledged_opening]

theorem Consistent.opening {u : List Obs} (h : Consistent u) (ops : List FileOp) :
    Consistent (ops.map Obs.file ++ u) := by
  refine ⟨?_, ?_, ?_⟩
  · rw [passed_opening, books_opening]
    exact h.passed
  · rw [settled_opening, acknowledged_opening]
    exact h.settled
  · rw [settled_opening, passed_opening]
    exact h.order

/-! ## From session to session -/

theorem CommittedLog.lastIndexOf_lt (log : CommittedLog) {done rest : List (BlockId × Nat)}
    (h : log.blocks = done ++ rest) : lastIndexOf done < 2 ^ 64 := by
  rcases lastIndexOf_mem done with ⟨-, hzero⟩ | ⟨p, hp, hlast⟩
  · rw [hzero]
    omega
  · rw [hlast]
    exact (log.mem_blocks (h ▸ List.mem_append_left _ hp)).2

theorem dirAt_append (t u : List Obs) : dirAt (t ++ u) = replay (dirAt t) (fileOps u) := by
  unfold dirAt
  rw [fileOps_append, replay_append]

/-- What settling some blocks makes of the file `applied`. -/
theorem Piece.appliedIs {d : Dir} {u : List Obs} {done popped queue : List (BlockId × Nat)}
    {c : Option BlockId} (h : Piece d u popped queue c) (hd : AppliedIs d (lastIndexOf done)) :
    AppliedIs (replay d (fileOps u)) (lastIndexOf (done ++ popped)) := by
  unfold AppliedIs
  rw [h.file, lastIndexOf_append]
  unfold appliedFile
  rw [List.getLast?_map]
  cases popped.getLast? with
  | none => exact hd
  | some p => exact Or.inl rfl

section
variable [Protobuf]

/-- The invariant of a life. -/
structure Safe (log : CommittedLog) (ts : List (List Obs)) (done rest : List (BlockId × Nat)) :
    Prop where
  blocks : log.blocks = done ++ rest
  confirmed : ts.flatMap settled = done
  ahead : ∀ p ∈ ts.flatMap passed, p ∈ done ∨ rest.head? = some p
  consistent : ∀ t ∈ ts, Consistent t
  disk : Disk (lastIndexOf done) (dirAt ts.flatten)

/-- One more session, in which the blocks `popped` are settled. -/
theorem Safe.snoc {log : CommittedLog} {ts : List (List Obs)} {t : List Obs}
    {done popped rest : List (BlockId × Nat)} (h : Safe log ts done (popped ++ rest))
    (hsettled : settled t = popped)
    (hpassed : ∀ p ∈ passed t, p ∈ popped ∨ rest.head? = some p) (hconsistent : Consistent t)
    (hdisk : Disk (lastIndexOf (done ++ popped)) (replay (dirAt ts.flatten) (fileOps t))) :
    Safe log (ts ++ [t]) (done ++ popped) rest := by
  refine ⟨?_, ?_, ?_, ?_, ?_⟩
  · rw [h.blocks, List.append_assoc]
  · rw [List.flatMap_append, h.confirmed, List.flatMap_singleton, hsettled]
  · intro p hp
    rw [List.flatMap_append, List.flatMap_singleton] at hp
    rcases List.mem_append.mp hp with hp | hp
    · rcases h.ahead p hp with hp | hp
      · exact Or.inl (List.mem_append_left _ hp)
      · -- the block ahead of the earlier sessions may be settled by now
        cases popped with
        | nil => exact Or.inr hp
        | cons q popped =>
          obtain rfl : q = p := Option.some.inj hp
          exact Or.inl (by simp)
    · rcases hpassed p hp with hp | hp
      · exact Or.inl (List.mem_append_right _ hp)
      · exact Or.inr hp
  · intro t' ht'
    rcases List.mem_append.mp ht' with ht' | ht'
    · exact h.consistent t' ht'
    · rw [List.mem_singleton.mp ht']
      exact hconsistent
  · rw [List.flatten_append, List.flatten_singleton, dirAt_append]
    exact hdisk

variable {C : Type → Type} [LruCache cacheSize C]

/-- A session that ends while the store is being opened settles nothing. -/
theorem Safe.opening {log : CommittedLog} {ts : List (List Obs)} {done rest : List (BlockId × Nat)}
    (h : Safe log ts done rest) (k : Nat) :
    Safe log (ts ++ [((createStorage (C := C) (dirAt ts.flatten)).ops.take k).map Obs.file])
      done rest := by
  generalize hops : (createStorage (C := C) (dirAt ts.flatten)).ops.take k = ops
  have hsettled : settled (ops.map Obs.file) = [] := by
    have := settled_opening ops []
    rwa [List.append_nil] at this
  have hpassed : passed (ops.map Obs.file) = [] := by
    have := passed_opening ops []
    rwa [List.append_nil] at this
  have hconsistent : Consistent (ops.map Obs.file) := by
    have : Consistent [] := ⟨rfl, rfl, List.nil_prefix⟩
    have := this.opening ops
    rwa [List.append_nil] at this
  have hsafe : Safe log (ts ++ [ops.map Obs.file]) (done ++ []) rest := by
    refine h.snoc hsettled (by simp [hpassed]) hconsistent ?_
    rw [fileOps_files, List.append_nil, ← hops]
    exact h.disk.opening k
  rwa [List.append_nil] at hsafe

variable [Formats]

/-- A session that ends after the node has started. -/
theorem Safe.running {log : CommittedLog} {ts : List (List Obs)} {done rest : List (BlockId × Nat)}
    (h : Safe log ts done rest) {raftDefault : RaftConfig} {peerId : PeerId}
    {settings : Except ServiceError Settings} {node : Node (CachedStorage C FsStorage)}
    {applied : Nat} {env : Env} {inputs : List Input}
    (hstart : startEngine C raftDefault (dirAt ts.flatten) peerId settings = .ok (node, applied))
    (hlog : (books ((Sys.start node).run env inputs).node.trace).entries <+: log.after applied)
    {u : List Obs} (hu : u <+: ((Sys.start node).run env inputs).node.trace) :
    ∃ done' rest', Safe log (ts ++ [(createStorage (C := C) (dirAt ts.flatten)).ops.map Obs.file
      ++ u]) done' rest' := by
  obtain ⟨happlied, hpresent⟩ := h.disk.opened (C := C)
  obtain ⟨_, _, -, -, hstarted⟩ := startEngine_eq_ok hstart
  obtain ⟨hnew, htrace⟩ := hstarted.isNew
  have hdir := hstarted.dir
  have hread := hstarted.applied
  generalize hd : replay (dirAt ts.flatten) (createStorage (C := C) (dirAt ts.flatten)).ops = d
    at happlied hpresent hread hdir
  -- Raft goes on behind the last block settled
  rw [happlied.eq_of_read (log.lastIndexOf_lt h.blocks) hread] at hlog
  -- the run, from its first state on
  have htracked : Node.Tracked d node := by
    refine ⟨htrace ▸ .nil, ?_⟩
    rw [htrace]
    exact hdir
  have htidy : Tidy ((Sys.start node).run env inputs).node.trace :=
    (Node.run_closed (Node.tracked_closed d) hnew htracked inputs).1
  have hok := Node.reachable_traceOk ⟨env, inputs, node, hnew, rfl⟩
  obtain ⟨popped, queue, c, hpiece⟩ := exists_piece d htidy hok hu
  -- what has been delivered are the first of the blocks left
  obtain ⟨rest', hrest, hqueue⟩ : ∃ rest', rest = popped ++ rest' ∧ queue <+: rest' := by
    have hdelivered := ((entries_grow hu).trans hlog).filterMap blockOf
    rw [show List.filterMap blockOf (log.after (lastIndexOf done)) = rest from
      log.blocksOf_after h.blocks] at hdelivered
    obtain ⟨v, hv⟩ := hdelivered
    refine ⟨queue ++ v, ?_, List.prefix_append ..⟩
    rw [← hv, ← List.append_assoc, ← hpiece.delivered]
    rfl
  subst hrest
  refine ⟨done ++ popped, rest', h.snoc ?_ ?_ ?_ ?_⟩
  · rw [settled_opening, hpiece.settled]
  · intro p hp
    rw [passed_opening, hpiece.passed] at hp
    rcases List.mem_append.mp hp with hp | hp
    · exact Or.inl hp
    · -- at most one block has been passed on without being settled
      cases hc : c with
      | none => simp [hc] at hp
      | some b =>
        obtain ⟨i, queue', rfl⟩ := hpiece.front b hc
        obtain ⟨v, rfl⟩ := hqueue
        have : p = (b, i) := by simpa [hc] using hp
        exact Or.inr (by rw [this]; rfl)
  · exact hpiece.consistent.opening _
  · rw [fileOps_append, fileOps_files, replay_append, hd]
    exact ⟨hpiece.appliedIs happlied, Or.inl (hpresent.replay fun op hop =>
      htidy.removal op (fileOps_grow hu hop))⟩

/-- **Step**: one more session, cut off anywhere. -/
theorem Safe.session {log : CommittedLog} {ts : List (List Obs)} {done rest : List (BlockId × Nat)}
    (h : Safe log ts done rest) {t : List Obs} (ht : Session C log (dirAt ts.flatten) t) (k : Nat) :
    ∃ done' rest', Safe log (ts ++ [t.take k]) done' rest' := by
  cases ht with
  | opening =>
    rw [← List.map_take]
    exact ⟨done, rest, h.opening k⟩
  | running hstart hlog =>
    rw [List.take_append, ← List.map_take, List.length_map]
    rcases le_total k (createStorage (C := C) (dirAt ts.flatten)).ops.length with hk | hk
    · rw [Nat.sub_eq_zero_of_le hk, List.take_zero, List.append_nil]
      exact ⟨done, rest, h.opening k⟩
    · rw [List.take_of_length_le hk]
      exact h.running hstart hlog (List.take_prefix ..)

/-- **Run**: every life is safe. -/
theorem Life.safe {log : CommittedLog} {ts : List (List Obs)} (h : Life C log ts) :
    ∃ done rest, Safe log ts done rest := by
  induction h with
  | nil =>
    refine ⟨[], log.blocks, rfl, rfl, by simp, by simp, Or.inr ⟨rfl, rfl⟩, Or.inr ⟨rfl, ?_⟩⟩
    exact Or.inl rfl
  | crash _ ht k ih =>
    obtain ⟨done, rest, hsafe⟩ := ih
    exact hsafe.session ht k

/-- An earlier moment of a life is a life, in which less has been settled. -/
theorem Life.earlier {log : CommittedLog} {ts : List (List Obs)} (h : Life C log ts) {t : List Obs}
    (ht : t <+: ts.flatten) :
    ∃ ts', Life C log ts' ∧ ts'.flatten = t ∧ ts'.flatMap settled <+: ts.flatMap settled := by
  induction h with
  | nil => exact ⟨[], .nil, (List.prefix_nil.mp ht).symm, List.prefix_refl _⟩
  | @crash ts T h hT k ih =>
    rw [List.flatten_append, List.flatten_singleton] at ht
    rw [List.flatMap_append, List.flatMap_singleton]
    -- either the last session has not begun
    rcases le_total t.length ts.flatten.length with hle | hle
    · obtain ⟨ts', hlife, hts', hset⟩ :=
        ih (List.prefix_of_prefix_length_le ht (List.prefix_append ..) hle)
      exact ⟨ts', hlife, hts', hset.trans (List.prefix_append ..)⟩
    · -- the moment lies in the last session
      obtain ⟨u, rfl⟩ := List.prefix_of_prefix_length_le (List.prefix_append ..) ht hle
      have hu := (List.prefix_append_right_inj _).mp ht
      have htake : u = T.take u.length :=
        List.prefix_iff_eq_take.mp (hu.trans (List.take_prefix ..))
      refine ⟨ts ++ [T.take u.length], h.crash hT _, ?_, ?_⟩
      · rw [List.flatten_append, List.flatten_singleton, ← htake]
      · rw [List.flatMap_append, List.flatMap_singleton, ← htake]
        exact (List.prefix_append_right_inj _).mpr (settled_grows hu)

omit [Formats] in
theorem Safe.appliedAt {log : CommittedLog} {ts : List (List Obs)}
    {done rest : List (BlockId × Nat)} (h : Safe log ts done rest) :
    appliedAt ts.flatten = lastIndexOf done := by
  unfold SawtoothRaft.appliedAt
  rcases h.disk.1 with hfile | ⟨hfile, hzero⟩
  · have := readU64_of_eq hfile (log.lastIndexOf_lt h.blocks)
    unfold FsStorage.readApplied
    rw [this]
  · unfold FsStorage.readApplied readU64FromFile fsRead
    rw [hfile, hzero]
    rfl

/-- **No committed block is lost.** Whatever has happened in the sessions of a
node, the index on disk has never gone back, and it is the index of the last
block entry whose notification was handled, or 0. Every block entry up to it
was passed to `commit_block` and confirmed in one of the sessions. Of the block
entries beyond it, which are delivered again, at most one has been passed on
before.

The sessions may have been cut off anywhere, so this is about every moment. -/
theorem no_block_lost {log : CommittedLog} {ts : List (List Obs)} (h : Life C log ts) :
    (∀ t ∈ ts, (passed t).map (·.1) = (books t).commits ∧
      (settled t).map (·.1) = acknowledged t) ∧
    (∀ t t', t <+: t' → t' <+: ts.flatten → appliedAt t ≤ appliedAt t') ∧
    (ts.flatMap settled = [] ∧ appliedAt ts.flatten = 0 ∨
      ∃ p, (ts.flatMap settled).getLast? = some p ∧ appliedAt ts.flatten = p.2) ∧
    (∀ p ∈ log.blocks, p.2 ≤ appliedAt ts.flatten → ∃ t ∈ ts, p ∈ passed t ∧ p ∈ settled t) ∧
    ∀ p ∈ blocksOf (log.after (appliedAt ts.flatten)),
      ∀ q ∈ blocksOf (log.after (appliedAt ts.flatten)),
        p ∈ ts.flatMap passed → q ∈ ts.flatMap passed → p = q := by
  obtain ⟨done, rest, hsafe⟩ := h.safe
  refine ⟨fun t ht => ⟨(hsafe.consistent t ht).passed, (hsafe.consistent t ht).settled⟩,
    ?_, ?_, ?_, ?_⟩
  · intro t t' htt' ht'
    -- both moments are lives, and the later one has settled what the earlier one has
    obtain ⟨ts', hlife', rfl, -⟩ := h.earlier ht'
    obtain ⟨ts'', hlife'', rfl, hset⟩ := hlife'.earlier htt'
    obtain ⟨done', rest', hsafe'⟩ := hlife'.safe
    obtain ⟨done'', rest'', hsafe''⟩ := hlife''.safe
    rw [hsafe'.appliedAt, hsafe''.appliedAt]
    rw [hsafe'.confirmed, hsafe''.confirmed] at hset
    rcases lastIndexOf_mem done'' with ⟨-, hzero⟩ | ⟨p, hp, hlast⟩
    · rw [hzero]
      exact Nat.zero_le _
    · rw [hlast]
      exact log.le_of_done hsafe'.blocks (hset.subset hp)
  · rw [hsafe.confirmed, hsafe.appliedAt]
    unfold lastIndexOf
    cases hdone : done.getLast? with
    | none => exact Or.inl ⟨List.getLast?_eq_none_iff.mp hdone, rfl⟩
    | some p => exact Or.inr ⟨p, rfl, rfl⟩
  · intro p hp hle
    rw [hsafe.appliedAt] at hle
    have hdone : p ∈ done := by
      rw [hsafe.blocks] at hp
      rcases List.mem_append.mp hp with hp | hp
      · exact hp
      · exact absurd (log.lt_of_rest hsafe.blocks hp) (Nat.not_lt.mpr hle)
    rw [← hsafe.confirmed] at hdone
    obtain ⟨t, ht, hpt⟩ := List.mem_flatMap.mp hdone
    exact ⟨t, ht, (hsafe.consistent t ht).order.subset hpt, hpt⟩
  · rw [hsafe.appliedAt, log.blocksOf_after hsafe.blocks]
    -- a block beyond the index is not among those done
    have hhead : ∀ p ∈ rest, p ∈ ts.flatMap passed → rest.head? = some p := by
      intro p hp hpassed
      rcases hsafe.ahead p hpassed with hdone | hhead
      · exact absurd (log.le_of_done hsafe.blocks hdone)
          (Nat.not_le.mpr (log.lt_of_rest hsafe.blocks hp))
      · exact hhead
    intro p hp q hq hpp hqp
    exact Option.some.inj ((hhead p hp hpp).symm.trans (hhead q hq hqp))

end

section

open scoped Proto3 PlainFormats

/-- A log of an empty entry and two blocks. -/
def twoBlocks : CommittedLog where
  entries := [{ term := 2, index := 2 }, { term := 2, index := 3, data := [7] },
    { term := 2, index := 5, data := [9] }]
  increasing := by decide
  positive := by decide
  u64 := by decide

/-- Both blocks are delivered and passed on, and one of them is confirmed. -/
def firstSession : List Input :=
  [.blockValid [7], .blockValid [9],
    .processReady (some { isLeader := false, ready := { committedEntries := some twoBlocks.entries } }),
    .blockCommit [7], .processReady (some { isLeader := false })]

/-- The engine of peer 1 starts on the directory, with the settings of the
block `head`, and handles the inputs: the trace, the index it started at, and
how it ends. -/
def sessionOn (settingsAt : BlockId → Settings) (head : BlockId) (d : Dir) (inputs : List Input) :
    Except Panic (List Obs × Nat × Status) :=
  letI := listLru cacheSize
  (startEngine List {} d (Node.peerOf 1) (.ok (settingsAt head))).map fun p =>
    let s := (Sys.start p.1).run (Env.obliging [7] settingsAt) inputs
    ((createStorage (C := List) d).ops.map Obs.file ++ s.node.trace, p.2, s.status)

theorem session_of_sessionOn {log : CommittedLog} {settingsAt : BlockId → Settings}
    {head : BlockId} {d : Dir} {inputs : List Input} {t : List Obs} {applied : Nat}
    {status : Status} (h : sessionOn settingsAt head d inputs = .ok (t, applied, status))
    (hlog : (books t).entries <+: log.after applied) :
    letI := listLru cacheSize
    Session List log d t := by
  let _ := listLru cacheSize
  unfold sessionOn at h
  cases hstart : startEngine List {} d (Node.peerOf 1) (.ok (settingsAt head)) with
  | error p => rw [hstart] at h; exact nomatch h
  | ok p =>
    rw [hstart] at h
    obtain ⟨rfl, happlied⟩ := Prod.mk.inj (Except.ok.inj h)
    obtain ⟨rfl, -⟩ := Prod.mk.inj happlied
    rw [books_opening] at hlog
    exact Session.running hstart hlog

/-- A trace of nothing when the engine does not start. -/
def traceOf (r : Except Panic (List Obs × Nat × Status)) : List Obs :=
  match r with
  | .ok (t, _) => t
  | .error _ => []

def firstTrace : List Obs := traceOf (sessionOn (fun _ => twoPeersSetting) [] emptyDir firstSession)

/-- The next session, in which the rest of the log is delivered again. -/
def secondSession : List Input :=
  [.processReady (some { isLeader := false, ready :=
    { committedEntries := some (twoBlocks.after 3) } })]

def secondTrace : List Obs :=
  traceOf (sessionOn (fun _ => twoPeersSetting) [] (dirAt firstTrace) secondSession)

theorem twoSessions :
    letI := listLru cacheSize
    Life List twoBlocks [firstTrace, secondTrace] := by
  let _ := listLru cacheSize
  have hfirst : sessionOn (fun _ => twoPeersSetting) [] emptyDir firstSession
      = .ok (firstTrace, 0, .running) := by decide +kernel
  have hsecond : sessionOn (fun _ => twoPeersSetting) [] (dirAt firstTrace) secondSession
      = .ok (secondTrace, 3, .running) := by decide +kernel
  have h₁ : Life List twoBlocks ([] ++ [firstTrace.take firstTrace.length]) :=
    Life.nil.crash (session_of_sessionOn hfirst (by decide +kernel)) _
  rw [List.take_length, List.nil_append] at h₁
  have h₂ : Life List twoBlocks ([firstTrace] ++ [secondTrace.take secondTrace.length]) := by
    refine h₁.crash ?_ _
    rw [List.flatten_singleton]
    exact session_of_sessionOn hsecond (by decide +kernel)
  rwa [List.take_length] at h₂

/-- The block at index 3 was confirmed in the first session, and the block at
index 5 is the only one to be passed on again. -/
theorem no_block_lost_twoSessions : appliedAt [firstTrace, secondTrace].flatten = 3 ∧
    ([9], 5) ∈ [firstTrace, secondTrace].flatMap passed ∧
    (∃ t ∈ [firstTrace, secondTrace], ([7], 3) ∈ passed t ∧ ([7], 3) ∈ settled t) ∧
    ∀ q ∈ blocksOf (twoBlocks.after 3), q ∈ [firstTrace, secondTrace].flatMap passed →
      ([9], 5) = q := by
  let _ := listLru cacheSize
  have happlied : appliedAt [firstTrace, secondTrace].flatten = 3 := by decide +kernel
  have hpassed : ([9], 5) ∈ [firstTrace, secondTrace].flatMap passed := by decide +kernel
  obtain ⟨-, -, -, hkept, hahead⟩ := no_block_lost twoSessions
  rw [happlied] at hkept hahead
  refine ⟨happlied, hpassed, hkept ([7], 3) (by decide +kernel) (by decide), ?_⟩
  exact fun q hq hq' => hahead ([9], 5) (by decide +kernel) q hq hpassed hq'

end

end SawtoothRaft
