import SawtoothRaft.Lib.Destutter
import SawtoothRaft.Node.Life
import SawtoothRaft.Node.Liveness

/-!
# Replicas of one log

The nodes of a Raft group are handed the same committed log, each at its own
pace and with its own crashes. What a node has passed to `commit_block` over
its life is the log up to a point, every block once or several times in a row
(`committed`). So the chains of two nodes never fork, and one of them has
confirmed whatever the other one has, up to the smaller of the two indexes on
disk.

A session takes up the log behind the blocks that have been confirmed
(`Safe.passed_left`), and at most one more has been passed on by then, so it is
an attempt in the sense of `Lib.destutter_attempt`.
-/

namespace SawtoothRaft

open Lib

/-- The blocks of a life that were passed to `commit_block`, without the
repetitions that stand next to each other. -/
def committed (ts : List (List Obs)) : List (BlockId × Nat) :=
  (ts.flatMap passed).destutter (· ≠ ·)

/-! ## The blocks of one session -/

theorem CommittedLog.blocks_nodup (log : CommittedLog) : log.blocks.Nodup :=
  log.blocks_increasing.imp fun hlt heq => absurd (congrArg (·.2) heq) (Nat.ne_of_lt hlt)

/-- Of two nodes the one with the greater index has confirmed no less. -/
theorem CommittedLog.done_prefix (log : CommittedLog) {done rest done' rest' : List (BlockId × Nat)}
    (h : log.blocks = done ++ rest) (h' : log.blocks = done' ++ rest')
    (hle : lastIndexOf done ≤ lastIndexOf done') : done <+: done' := by
  have hlog : done <+: log.blocks := h ▸ List.prefix_append ..
  have hlog' : done' <+: log.blocks := h' ▸ List.prefix_append ..
  rcases List.prefix_or_prefix_of_prefix hlog hlog' with hpre | ⟨v, rfl⟩
  · exact hpre
  · cases v with
    | nil => rw [List.append_nil]
    | cons p v =>
      -- a block that only the first has confirmed lies beyond the second's index
      have hbeyond : p ∈ rest' := by
        rw [h, List.append_assoc] at h'
        rw [← List.append_cancel_left h']
        simp
      have hdone := log.le_of_done h (List.mem_append_right _ (List.mem_cons_self ..))
      exact absurd (log.lt_of_rest h' hbeyond) (Nat.not_lt.mpr (Nat.le_trans hdone hle))

theorem commits_grow {t u : List Obs} (h : u <+: t) : (books u).commits <+: (books t).commits := by
  have hstep : ∀ bk o, Books.commits bk <+: (bk.record o).commits := by
    intro bk o
    cases o with
    | commitBlock b => exact List.prefix_append ..
    | _ => exact List.prefix_refl _
  exact foldl_grows Books.commits hstep h {}

theorem passed_grows {t u : List Obs} (h : u <+: t) : passed u <+: passed t := by
  have hdelivered : (books u).delivered <+: (books t).delivered :=
    (entries_grow h).filterMap blockOf
  refine List.prefix_take_iff.mpr ⟨(List.take_prefix ..).trans hdelivered, ?_⟩
  exact Nat.le_trans (List.length_take_le ..) (commits_grow h).length_le

variable {C : Type → Type} [LruCache cacheSize C]

section
variable [Protobuf] [Formats]

/-- A session goes on behind the blocks that have been confirmed. -/
theorem Safe.passed_left {log : CommittedLog} {ts : List (List Obs)}
    {done rest : List (BlockId × Nat)} (h : Safe log ts done rest) {t : List Obs}
    (ht : Session C log (dirAt ts.flatten) t) : passed t <+: rest := by
  cases ht with
  | opening =>
    have hnone := passed_opening (createStorage (C := C) (dirAt ts.flatten)).ops []
    rw [List.append_nil] at hnone
    rw [hnone]
    exact List.nil_prefix
  | running hstart hlog =>
    obtain ⟨_, _, -, -, hstarted⟩ := startEngine_eq_ok hstart
    have happlied := (h.disk.opened (C := C)).1.eq_of_read (log.lastIndexOf_lt h.blocks)
      hstarted.applied
    rw [happlied] at hlog
    rw [passed_opening, ← log.blocksOf_after h.blocks]
    exact (List.take_prefix ..).trans (hlog.filterMap blockOf)

omit [Formats] in
/-- Of the blocks a session has passed on, one at most is not confirmed. -/
theorem Safe.passed_next {log : CommittedLog} {ts : List (List Obs)}
    {done popped rest : List (BlockId × Nat)} {t : List Obs}
    (h : Safe log (ts ++ [t]) (done ++ popped) rest) (hsettled : settled t = popped)
    (hpassed : passed t <+: popped ++ rest) :
    popped.length ≤ (passed t).length ∧ (passed t).length ≤ popped.length + 1 := by
  have hin : t ∈ ts ++ [t] := List.mem_append_right _ (List.mem_singleton_self t)
  have horder := (h.consistent t hin).order
  rw [hsettled] at horder
  refine ⟨horder.length_le, ?_⟩
  by_contra hlong
  rw [Nat.not_le] at hlong
  -- the second block of what is left would have been passed on
  obtain ⟨q, hget⟩ : ∃ q, (passed t)[popped.length + 1] = q := ⟨_, rfl⟩
  have hrest : rest[1]? = some q := by
    have hat := List.prefix_iff_getElem?.mp hpassed (popped.length + 1) hlong
    rwa [List.getElem?_append_right (by omega), Nat.add_sub_cancel_left, hget] at hat
  have hq : q ∈ rest := List.mem_of_getElem? hrest
  have hpassedq : q ∈ (ts ++ [t]).flatMap passed :=
    List.mem_flatMap.mpr ⟨t, hin, hget ▸ List.getElem_mem hlong⟩
  rcases h.ahead q hpassedq with hdone | hhead
  · exact Nat.not_le.mpr (log.lt_of_rest h.blocks hq) (log.le_of_done h.blocks hdone)
  · -- it is the first one as well
    have hnodup := log.blocks_nodup
    rw [h.blocks] at hnodup
    have hnodup := (List.nodup_append.mp hnodup).2.1
    rw [List.head?_eq_getElem?] at hhead
    have hone : 1 < rest.length := (List.getElem?_eq_some_iff.mp hrest).1
    have hsame := (List.getElem?_inj hone hnodup).mp (hrest.trans hhead.symm)
    exact absurd hsame (by decide)

/-! ## The blocks of a life -/

/-- A session that takes up the log where `rest` is left of it: the blocks
`popped` are settled in it, and perhaps one more is passed on. -/
structure Attempt (rest : List (BlockId × Nat)) (t : List Obs) (popped rest' : List (BlockId × Nat)) :
    Prop where
  left : rest = popped ++ rest'
  settled : settled t = popped
  passed : passed t <+: rest
  least : popped.length ≤ (SawtoothRaft.passed t).length
  most : (SawtoothRaft.passed t).length ≤ popped.length + 1

/-- What has been passed on in order to get `done` confirmed. -/
def Reached (log : CommittedLog) (ts : List (List Obs)) (done : List (BlockId × Nat)) : Prop :=
  ∃ m, done.length ≤ m ∧ m ≤ done.length + 1 ∧ committed ts = log.blocks.take m

omit [Protobuf] [Formats] in
/-- One more attempt. -/
theorem Reached.attempt {log : CommittedLog} {ts : List (List Obs)}
    {done rest popped rest' : List (BlockId × Nat)} {t : List Obs} (h : Reached log ts done)
    (hblocks : log.blocks = done ++ rest) (ht : Attempt rest t popped rest') :
    Reached log (ts ++ [t]) (done ++ popped) := by
  obtain ⟨m, hle, hlt, hcommitted⟩ := h
  have hleast := ht.least
  have hmost := ht.most
  refine ⟨max m (done.length + (passed t).length), ?_, ?_, ?_⟩
  · rw [List.length_append]
    omega
  · rw [List.length_append]
    omega
  · unfold committed
    rw [List.flatMap_append, List.flatMap_singleton]
    refine destutter_attempt log.blocks_nodup hcommitted ?_ hle hlt
    rw [hblocks, List.drop_left]
    exact ht.passed

omit [Protobuf] [Formats] in
theorem Reached.onLog {log : CommittedLog} {ts : List (List Obs)} {done : List (BlockId × Nat)}
    (h : Reached log ts done) : committed ts <+: log.blocks := by
  obtain ⟨m, -, -, hcommitted⟩ := h
  rw [hcommitted]
  exact List.take_prefix ..

omit [Protobuf] [Formats] in
theorem Reached.done {log : CommittedLog} {ts : List (List Obs)} {done rest : List (BlockId × Nat)}
    (h : Reached log ts done) (hblocks : log.blocks = done ++ rest) :
    done <+: committed ts ∧ (committed ts).length ≤ done.length + 1 := by
  obtain ⟨m, hle, hlt, hcommitted⟩ := h
  rw [hcommitted]
  refine ⟨List.prefix_take_iff.mpr ⟨?_, hle⟩, (List.length_take_le ..).trans hlt⟩
  rw [hblocks]
  exact List.prefix_append ..

/-- The blocks confirmed, and what has been passed on to get there. -/
structure Traversed (log : CommittedLog) (ts : List (List Obs)) (done rest : List (BlockId × Nat)) :
    Prop where
  safe : Safe log ts done rest
  reached : Reached log ts done

/-- **Step**: one more session, cut off anywhere. -/
theorem Traversed.session {log : CommittedLog} {ts : List (List Obs)}
    {done rest : List (BlockId × Nat)} (h : Traversed log ts done rest) {t : List Obs}
    (ht : Session C log (dirAt ts.flatten) t) (k : Nat) :
    ∃ done' rest', Traversed log (ts ++ [t.take k]) done' rest' := by
  obtain ⟨done', rest', hsafe'⟩ := h.safe.session ht k
  have hpassed := (passed_grows (List.take_prefix k t)).trans (h.safe.passed_left ht)
  generalize t.take k = u at hsafe' hpassed
  -- what is confirmed now is what was, and then the blocks settled in the session
  have hdone : done' = done ++ settled u := by
    rw [← hsafe'.confirmed, List.flatMap_append, List.flatMap_singleton, h.safe.confirmed]
  subst hdone
  have hrest : rest = settled u ++ rest' := by
    have hblocks := h.safe.blocks.symm.trans hsafe'.blocks
    rw [List.append_assoc] at hblocks
    exact List.append_cancel_left hblocks
  obtain ⟨hfrom, hto⟩ := hsafe'.passed_next rfl (hrest ▸ hpassed)
  exact ⟨done ++ settled u, rest', hsafe',
    h.reached.attempt h.safe.blocks ⟨hrest, rfl, hpassed, hfrom, hto⟩⟩

/-- **Run**: every life goes through the log. -/
theorem Life.traversed {log : CommittedLog} {ts : List (List Obs)} (h : Life C log ts) :
    ∃ done rest, Traversed log ts done rest := by
  induction h with
  | nil =>
    have hnil : Life C log [] := .nil
    obtain ⟨done, rest, hsafe⟩ := hnil.safe
    obtain rfl : done = [] := hsafe.confirmed.symm
    exact ⟨[], rest, hsafe, 0, Nat.le_refl _, Nat.zero_le _, rfl⟩
  | crash _ ht k ih =>
    obtain ⟨done, rest, htraversed⟩ := ih
    exact htraversed.session ht k

omit [Formats] in
theorem Traversed.calls {log : CommittedLog} {ts : List (List Obs)}
    {done rest : List (BlockId × Nat)} (h : Traversed log ts done rest) :
    (ts.flatMap fun t => (books t).commits) = (ts.flatMap passed).map (·.1) := by
  rw [List.map_flatMap]
  exact List.flatMap_congr fun t ht => (h.safe.consistent t ht).passed.symm

/-- **Replicas do not fork.** Two nodes of a group, whose caches may differ,
with any sessions and crashes behind them. The blocks that the first one has
passed to `commit_block` are those of the committed log in its order, up to
some point, without a gap; a block is only ever passed on again right after
itself. The confirmed ones come first among them and all but the last one are
confirmed. The same blocks have been passed on by the second node, or those
that have are among the first node's, again in the same order. And if the index
on disk is not greater on the first node, the second one has confirmed all that
the first one has. -/
theorem replicas_agree {C' : Type → Type} [LruCache cacheSize C'] {log : CommittedLog}
    {ts ts' : List (List Obs)} (h : Life C log ts) (h' : Life C' log ts') :
    (ts.flatMap fun t => (books t).commits) = (ts.flatMap passed).map (·.1) ∧
    committed ts <+: log.blocks ∧
    ts.flatMap settled <+: committed ts ∧
    (committed ts).length ≤ (ts.flatMap settled).length + 1 ∧
    (committed ts <+: committed ts' ∨ committed ts' <+: committed ts) ∧
    (appliedAt ts.flatten ≤ appliedAt ts'.flatten →
      ts.flatMap settled <+: ts'.flatMap settled) := by
  obtain ⟨done, rest, ht⟩ := h.traversed
  obtain ⟨done', rest', ht'⟩ := h'.traversed
  obtain ⟨hdone, hlength⟩ := ht.reached.done ht.safe.blocks
  rw [← ht.safe.confirmed] at hdone hlength
  refine ⟨ht.calls, ht.reached.onLog, hdone, hlength,
    List.prefix_or_prefix_of_prefix ht.reached.onLog ht'.reached.onLog, ?_⟩
  intro hle
  rw [ht.safe.appliedAt, ht'.safe.appliedAt] at hle
  rw [ht.safe.confirmed, ht'.safe.confirmed]
  exact log.done_prefix ht.safe.blocks ht'.safe.blocks hle

/-! ## To the end of the log -/

omit [Formats] in
theorem Tidy.synced {t : List Obs} (h : Tidy t) (d : Dir) : Synced d t := by
  induction h with
  | nil => exact ⟨rfl, rfl⟩
  | other o _ hset hfile ih => exact ih.other hset hfile
  | files ops _ hops ih => exact ih.files fun op hop => (hops op hop).name
  | setApplied i _ ih => exact ih.setApplied i

/-- A node that has started goes on: every block applied is settled. -/
theorem settled_of_applied {d : Dir} {node : Node (CachedStorage C FsStorage)}
    (hnew : Sys.IsNew node) (htracked : Node.Tracked d node) {env : Env} {inputs : Nat → Input}
    (h : Node.Fair env node inputs) (k : Nat) :
    settled (Node.runTo env node inputs k).node.trace
      = (books (Node.runTo env node inputs k).node.trace).delivered.take
          (Node.appliedBy env node inputs k) := by
  have htidy : Tidy (Node.runTo env node inputs k).node.trace :=
    (Node.run_closed (Node.tracked_closed d) hnew htracked ((List.range k).map inputs)).1
  obtain ⟨_, _, -, hkept⟩ := h.good hnew k
  obtain ⟨popped, hbal⟩ := hkept.rest.balanced
  have hledger : (acknowledged (Node.runTo env node inputs k).node.trace).length
      = popped.length := by
    show (ledger _).2.length = _
    rw [(htidy.synced d).ledger, hbal.handled, List.length_map]
  rw [settled, hledger, Node.appliedBy, hbal.applied, List.length_map]

/-- **A node gets to the end of the log.** Whatever sessions and crashes a node
has behind it, once it runs on, with a validator that does its part and rounds in
which it may commit, and Raft delivers the rest of the log, there is a moment from
which on every block entry of the log has been passed to `commit_block` and
confirmed, in the order of the log, and the last of their indexes is on disk. -/
theorem whole_log_settled {log : CommittedLog} {ts : List (List Obs)} (h : Life C log ts)
    {raftDefault : RaftConfig} {peerId : PeerId} {settings : Except ServiceError Settings}
    {node : Node (CachedStorage C FsStorage)} {applied : Nat}
    (hstart : startEngine C raftDefault (dirAt ts.flatten) peerId settings = .ok (node, applied))
    {env : Env} {inputs : Nat → Input} (hfair : Node.Fair env node inputs)
    (hlog : ∀ k, (books (Node.runTo env node inputs k).node.trace).entries <+: log.after applied)
    (hall : ∃ k, (books (Node.runTo env node inputs k).node.trace).entries = log.after applied) :
    ∃ k, ∀ j, k ≤ j →
      let last := (createStorage (C := C) (dirAt ts.flatten)).ops.map Obs.file
        ++ (Node.runTo env node inputs j).node.trace
      Life C log (ts ++ [last]) ∧ (ts ++ [last]).flatMap settled = log.blocks ∧
      committed (ts ++ [last]) = log.blocks ∧
      appliedAt (ts ++ [last]).flatten = lastIndexOf log.blocks := by
  obtain ⟨done, rest, hsafe⟩ := h.safe
  obtain ⟨_, _, -, -, hstarted⟩ := startEngine_eq_ok hstart
  obtain ⟨hnew, htrace⟩ := hstarted.isNew
  have happlied := (hsafe.disk.opened (C := C)).1.eq_of_read (log.lastIndexOf_lt hsafe.blocks)
    hstarted.applied
  have htracked : Node.Tracked node.store.storage.dir node := by
    refine ⟨htrace ▸ .nil, ?_⟩
    rw [htrace]
    rfl
  -- what is left of the log has been delivered, and a while later it is applied
  obtain ⟨k, hk⟩ := hall
  have hdelivered : (books (Node.runTo env node inputs k).node.trace).delivered = rest := by
    show blocksOf (books _).entries = rest
    rw [hk, happlied, log.blocksOf_after hsafe.blocks]
  obtain ⟨j₀, hkj₀, hcount⟩ := Node.eventually_caught_up hfair hnew k
  refine ⟨j₀, fun j hj => ?_⟩
  have hsettled : settled (Node.runTo env node inputs j).node.trace = rest := by
    have hmore : rest <+: (books (Node.runTo env node inputs j).node.trace).delivered := by
      rw [← hdelivered]
      exact (books_extends (Node.runTo_grows hnew (hkj₀.trans hj))).delivered
    have hless : (books (Node.runTo env node inputs j).node.trace).delivered <+: rest := by
      rw [← log.blocksOf_after hsafe.blocks, ← happlied]
      exact (hlog j).filterMap blockOf
    rw [settled_of_applied hnew htracked hfair, hless.eq_of_length_le hmore.length_le]
    rw [hdelivered] at hcount
    exact List.take_of_length_le (hcount.trans (Node.appliedBy_mono hnew hj))
  intro last
  have hsession : Session C log (dirAt ts.flatten) last := Session.running hstart (hlog j)
  have hlife : Life C log (ts ++ [last]) := by
    have := h.crash hsession last.length
    rwa [List.take_length] at this
  obtain ⟨done', rest', htraversed⟩ := hlife.traversed
  have hdone : done' = log.blocks := by
    rw [← htraversed.safe.confirmed, List.flatMap_append, List.flatMap_singleton, hsafe.confirmed,
      settled_opening, hsettled, hsafe.blocks]
  refine ⟨hlife, htraversed.safe.confirmed.trans hdone, ?_, hdone ▸ htraversed.safe.appliedAt⟩
  obtain ⟨m, hm, -, hcommitted⟩ := htraversed.reached
  rw [hcommitted]
  exact List.take_of_length_le (hdone ▸ hm)

end

namespace Node

theorem oneBlock_entries {S : Type} [StorageExt S] [Protobuf] [Formats]
    {id : BlockId} {settings : BlockId → Settings} {node : Node S} {e : Entry} (hnew : Sys.IsNew node)
    (h : AtRest (runTo (Env.obliging id settings) node (oneBlock e) 3)) (k : Nat) :
    (books (runTo (Env.obliging id settings) node (oneBlock e) k).node.trace).entries
      <+: (books (runTo (Env.obliging id settings) node (oneBlock e) 3).node.trace).entries := by
  rcases le_total k 3 with hle | hge
  · exact entries_grow (runTo_grows hnew hle)
  · obtain ⟨d, rfl⟩ := Nat.exists_eq_add_of_le' hge
    rw [(oneBlock_over h d).2]

end Node

section

open scoped Proto3 PlainFormats

/-- A node whose first session has not ended yet. -/
theorem oneSession :
    letI := listLru cacheSize
    Life List twoBlocks [firstTrace] := by
  let _ := listLru cacheSize
  have hfirst : sessionOn (fun _ => twoPeersSetting) [] emptyDir firstSession
      = .ok (firstTrace, 0, .running) := by decide +kernel
  have h : Life List twoBlocks ([] ++ [firstTrace.take firstTrace.length]) :=
    Life.nil.crash (session_of_sessionOn hfirst (by decide +kernel)) _
  rwa [List.take_length] at h

/-- It is restarted before it has confirmed the second block, which is then
delivered and passed on again. -/
def repeatingSession : List Input := .blockValid [9] :: secondSession

def repeatingTrace : List Obs :=
  traceOf (sessionOn (fun _ => twoPeersSetting) [] (dirAt firstTrace) repeatingSession)

theorem repeatedBlock :
    letI := listLru cacheSize
    Life List twoBlocks [firstTrace, repeatingTrace] := by
  let _ := listLru cacheSize
  have hsecond : sessionOn (fun _ => twoPeersSetting) [] (dirAt firstTrace) repeatingSession
      = .ok (repeatingTrace, 3, .running) := by decide +kernel
  have h : Life List twoBlocks ([firstTrace] ++ [repeatingTrace.take repeatingTrace.length]) := by
    refine oneSession.crash ?_ _
    rw [List.flatten_singleton]
    exact session_of_sessionOn hsecond (by decide +kernel)
  rwa [List.take_length] at h

theorem replicas_agree_twoBlocks :
    [firstTrace, repeatingTrace].flatMap passed = [([7], 3), ([9], 5), ([9], 5)] ∧
    committed [firstTrace, repeatingTrace] <+: twoBlocks.blocks ∧
    [firstTrace, repeatingTrace].flatMap settled <+: [firstTrace].flatMap settled := by
  let _ := listLru cacheSize
  have hagree := replicas_agree repeatedBlock oneSession
  exact ⟨by decide +kernel, hagree.2.1, hagree.2.2.2.2.2 (by decide +kernel)⟩

/-- The node after the first session, and the index it starts at. -/
def restarted : Except Panic (Node (CachedStorage List FsStorage) × Nat) :=
  letI := listLru cacheSize
  startEngine List {} (dirAt [firstTrace].flatten) (Node.peerOf 1) (.ok twoPeersSetting)

/-- What the node has come to after `k` steps, in which it is handed the second
block again and confirms it. -/
def restartedAt (k : Nat) : Except Panic (Sys (CachedStorage List FsStorage)) :=
  letI := listLru cacheSize
  restarted.map fun p => Node.runTo (Env.obliging [7] fun _ => twoPeersSetting) p.1
    (Node.oneBlock { term := 2, index := 5, data := [9] }) k

theorem whole_log_settled_restarted :
    letI := listLru cacheSize
    ∃ node, restarted = .ok (node, 3) ∧ ∃ k, ∀ j, k ≤ j →
      let last := (createStorage (C := List) (dirAt [firstTrace].flatten)).ops.map Obs.file
        ++ (Node.runTo (Env.obliging [7] fun _ => twoPeersSetting) node
          (Node.oneBlock { term := 2, index := 5, data := [9] }) j).node.trace
      Life List twoBlocks ([firstTrace] ++ [last]) ∧
      ([firstTrace] ++ [last]).flatMap settled = twoBlocks.blocks := by
  let _ := listLru cacheSize
  have happlied : restarted.map (·.2) = .ok 3 := by decide +kernel
  have hrest : ∀ k ∈ [0, 1, 3], (restartedAt k).map (fun s => decide (Node.AtRest s))
      = .ok true := by
    decide +kernel
  have hwork : (restartedAt 2).map (fun s => decide (Node.AtWork s [9])) = .ok true := by
    decide +kernel
  have hentries : (restartedAt 3).map (fun s => (books s.node.trace).entries)
      = .ok (twoBlocks.after 3) := by
    decide +kernel
  unfold restartedAt at hrest hwork hentries
  cases hstart : restarted with
  | error p => rw [hstart] at happlied; exact nomatch happlied
  | ok p =>
    obtain ⟨node, applied⟩ := p
    rw [hstart] at happlied hrest hwork hentries
    obtain rfl : applied = 3 := Except.ok.inj happlied
    have hentries := Except.ok.inj hentries
    have hrest : ∀ k ∈ [0, 1, 3], Node.AtRest _ := fun k hk =>
      of_decide_eq_true (Except.ok.inj (hrest k hk))
    obtain ⟨_, _, -, -, hstarted⟩ := startEngine_eq_ok hstart
    have hnew := hstarted.isNew.1
    obtain ⟨k, hk⟩ := whole_log_settled oneSession hstart
      (Node.oneBlock_fair hrest (of_decide_eq_true (Except.ok.inj hwork)))
      (fun k => hentries ▸ Node.oneBlock_entries hnew (hrest 3 (by simp)) k) ⟨3, hentries⟩
    exact ⟨node, rfl, k, fun j hj => ⟨(hk j hj).1, (hk j hj).2.1⟩⟩

end

end SawtoothRaft
