import SawtoothRaft.Node.Replicas
import SawtoothRaft.Storage.FirstOpening

/-!
# Numbers that are cut short

`fs::write` is not atomic: a crash may leave any beginning of what was to be
written. A beginning of the eight bytes of a number is not taken for a number. A
beginning of a message may be taken for another message, though, and an entry that
is cut before its data is one without a block (`entry_cut_short`): Raft would deliver
it, and the block would be lost. So a life is `TornLife` when its sessions break off
in the middle of writing a number; the messages are written whole or not at all.

Of the numbers it is `applied` that Raft is told at a start. Once it is damaged,
nothing ever writes the file again but the node that cannot start for it (`Damaged`).
So a life with torn numbers is as safe as one without, or it is over
(`torn_life_safe`). As long as the first opening has not been completed, even the file
`applied` may be torn, because the next opening starts over.
-/

namespace SawtoothRaft

open Lib

/-! ## Lives with torn writes -/

/-- What is left of a trace that breaks off, possibly half-way through the write of a
number. -/
def BrokenOff (t u : List Obs) : Prop :=
  u <+: t ∨ ∃ before name payload part, FileName.IsNumber name ∧
    before ++ [.file (.write name payload)] <+: t ∧ part <+: payload ∧
    u = before ++ [.file (.write name part)]

/-- What has happened in the sessions so far. Each breaks off somewhere, and the
next one starts on the directory it has left. As in a `Life`, Raft delivers the
committed log behind the index that it is told. -/
inductive TornLife [Protobuf] [Formats] (C : Type → Type) [LruCache cacheSize C]
    (log : CommittedLog) : List (List Obs) → Prop
  | nil : TornLife C log []
  | crash {ts : List (List Obs)} {t u : List Obs} (h : TornLife C log ts)
    (ht : Session C log (dirAt ts.flatten) t) (hu : BrokenOff t u) : TornLife C log (ts ++ [u])

/-- The file `applied` holds something that is not a number, in a directory that
is not initialised again. -/
structure Damaged (d : Dir) : Prop where
  present : Present d
  applied : ∃ b, d .applied = some b ∧ b.length ≠ 8

/-- The directory of a store whose applied index is `i`. As long as its first
opening has not been completed, there may be anything in `applied`. -/
def Worn [Protobuf] (i : Nat) (d : Dir) : Prop :=
  Present d ∧ AppliedIs d i ∨ FsStorage.Fresh d ∧ i = 0

/-! ## Breaking off -/

theorem brokenOff_nil {u : List Obs} (h : BrokenOff [] u) : u = [] := by
  rcases h with h | ⟨before, name, payload, part, -, h, -, -⟩
  · exact List.prefix_nil.mp h
  · simp at h

/-- The opening breaks off, or what comes after it. -/
theorem BrokenOff.opening {ops : List FileOp} {t u : List Obs}
    (h : BrokenOff (ops.map Obs.file ++ t) u) :
    (∃ cut, CutShort ops cut ∧ u = cut.map Obs.file) ∨
      ∃ v, BrokenOff t v ∧ u = ops.map Obs.file ++ v := by
  have hsplit : ∀ {w : List Obs}, w <+: ops.map Obs.file ++ t →
      (∃ ops', ops' <+: ops ∧ w = ops'.map Obs.file) ∨
        ∃ v, v <+: t ∧ w = ops.map Obs.file ++ v := by
    intro w hw
    rcases le_total w.length (ops.map Obs.file).length with hle | hle
    · have hpre := List.prefix_of_prefix_length_le hw (List.prefix_append ..) hle
      refine Or.inl ⟨ops.take w.length, List.take_prefix .., ?_⟩
      rw [List.map_take]
      exact List.prefix_iff_eq_take.mp hpre
    · obtain ⟨v, rfl⟩ := List.prefix_of_prefix_length_le (List.prefix_append ..) hw hle
      exact Or.inr ⟨v, (List.prefix_append_right_inj _).mp hw, rfl⟩
  rcases h with h | ⟨before, name, payload, part, hname, hpre, hpart, rfl⟩
  · rcases hsplit h with ⟨ops', hops', rfl⟩ | ⟨v, hv, rfl⟩
    · exact Or.inl ⟨ops', Or.inl hops', rfl⟩
    · exact Or.inr ⟨v, Or.inl hv, rfl⟩
  · rcases hsplit hpre with ⟨ops', hops', heq⟩ | ⟨v, hv, heq⟩
    · -- the write is one of the opening
      obtain ⟨before', last, rfl, rfl, hlast⟩ := List.map_eq_append_iff.mp heq.symm
      obtain ⟨op, rfl, hop⟩ := List.map_eq_singleton_iff.mp hlast
      obtain rfl := Obs.file.inj hop
      refine Or.inl ⟨before' ++ [.write name part], ?_, by rw [List.map_append]; rfl⟩
      exact Or.inr ⟨before', name, payload, part, hops', hpart, rfl⟩
    · rcases List.eq_nil_or_concat v with rfl | ⟨v', o, rfl⟩
      · -- it is the last one of the opening
        rw [List.append_nil] at heq
        obtain ⟨before', last, hops, rfl, hlast⟩ := List.map_eq_append_iff.mp heq.symm
        obtain ⟨op, rfl, hop⟩ := List.map_eq_singleton_iff.mp hlast
        obtain rfl := Obs.file.inj hop
        refine Or.inl ⟨before' ++ [.write name part], ?_, by rw [List.map_append]; rfl⟩
        exact Or.inr ⟨before', name, payload, part, hops ▸ List.prefix_refl _, hpart, rfl⟩
      · rw [List.concat_eq_append, ← List.append_assoc] at heq
        obtain ⟨rfl, ho⟩ := List.append_inj' heq rfl
        obtain rfl := List.singleton_inj.mp ho
        refine Or.inr ⟨v' ++ [.file (.write name part)], ?_, List.append_assoc ..⟩
        exact Or.inr ⟨v', name, payload, part, hname, by simpa using hv, hpart, rfl⟩

/-! ## Opening -/

section
variable [Protobuf] {C : Type → Type} [LruCache cacheSize C] {i : Nat} {d : Dir}

/-- A directory with a hard state and a snapshot is not written to. -/
theorem Present.ops_eq (h : Present d) : (createStorage (C := C) d).ops = [] := by
  rcases (createStorage_ops (C := C) d).2 with ⟨hmissing, -⟩ | ⟨-, hops⟩
  · exact absurd hmissing (not_missing_of_present h)
  · exact hops

theorem fresh_ops_eq (h : FsStorage.Fresh d) :
    (createStorage (C := C) d).ops = FsStorage.initOps := by
  rcases (createStorage_ops (C := C) d).2 with ⟨-, hops⟩ | ⟨hpresent, -⟩
  · exact hops
  · exact absurd h.missing hpresent

theorem worn_initOps (d : Dir) : Worn 0 (replay d FsStorage.initOps) :=
  Or.inl ⟨⟨rfl, rfl⟩, Or.inl rfl⟩

theorem Worn.opened (h : Worn i d) :
    Present (replay d (createStorage (C := C) d).ops) ∧
      AppliedIs (replay d (createStorage (C := C) d).ops) i := by
  rcases h with ⟨hpresent, happlied⟩ | ⟨hfresh, rfl⟩
  · rw [hpresent.ops_eq]
    exact ⟨hpresent, happlied⟩
  · rw [fresh_ops_eq hfresh]
    exact ⟨⟨rfl, rfl⟩, Or.inl rfl⟩

/-- An opening that breaks off. -/
theorem Worn.cutShort (hhs : Protobuf.hardState.writeToBytes default = [])
    (hsnap : Protobuf.snapshot.writeToBytes default = []) (h : Worn i d) {cut : List FileOp}
    (hcut : CutShort (createStorage (C := C) d).ops cut) : Worn i (replay d cut) := by
  rcases h with ⟨hpresent, happlied⟩ | ⟨hfresh, rfl⟩
  · rw [hpresent.ops_eq] at hcut
    rw [cutShort_nil hcut]
    exact Or.inl ⟨hpresent, happlied⟩
  · rw [fresh_ops_eq hfresh] at hcut
    rcases hfresh.cutShort hhs hsnap hcut with hfresh | rfl
    · exact Or.inr ⟨hfresh, rfl⟩
    · exact worn_initOps d

variable [Formats]

/-- No engine starts on a damaged directory, and opening it changes nothing. -/
theorem Damaged.fatal (h : Damaged d) (raftDefault : RaftConfig) (peerId : PeerId)
    (settings : Except ServiceError Settings) :
    startEngine C raftDefault d peerId settings
        = .error (.store (.err (.Io .InvalidData))) ∧ (createStorage (C := C) d).ops = [] := by
  have hops : (createStorage (C := C) d).ops = [] := h.present.ops_eq
  refine ⟨?_, hops⟩
  have hdir : (createStorage (C := C) d).store.storage.dir = d := by
    rw [(createStorage_ops d).1, hops]
    rfl
  have hread : FsStorage.readApplied d = .error .InvalidData := by
    obtain ⟨b, hb, hlen⟩ := h.applied
    unfold FsStorage.readApplied readU64FromFile fsRead
    rw [hb]
    exact if_neg hlen
  have hconfig : RaftEngineConfig.new raftDefault (createStorage (C := C) d).store
      = .error (.store (.err (.Io .InvalidData))) := by
    unfold RaftEngineConfig.new
    rw [applied_eq, hdir, hread]
    rfl
  unfold startEngine loadRaftConfig
  rw [hconfig]
  rfl

/-- A session on a damaged directory leaves it as it is. -/
theorem Damaged.session {log : CommittedLog} {t u : List Obs} (h : Damaged d)
    (ht : Session C log d t) (hu : BrokenOff t u) : u = [] := by
  cases ht with
  | opening =>
    rw [h.present.ops_eq] at hu
    exact brokenOff_nil hu
  | running hstart =>
    rw [(h.fatal (C := C) _ _ _).1] at hstart
    exact nomatch hstart

end

/-! ## A session that breaks off -/

section
variable {d : Dir} {u : List Obs} {popped queue : List (BlockId × Nat)} {c : Option BlockId}

/-- A write to another file is not noticed, complete or not. -/
theorem Piece.write (h : Piece d u popped queue c) {name : FileName} (hname : name ≠ .applied)
    (part : Bytes) : Piece d (u ++ [.file (.write name part)]) popped queue c := by
  have hledger : ledger (u ++ [.file (.write name part)]) = ledger u := by
    rw [ledger_snoc]
    exact if_neg hname
  have hops : fileOps (u ++ [.file (.write name part)]) = fileOps u ++ [.write name part] :=
    fileOps_append ..
  refine ⟨?_, ?_, ?_, h.front, ?_⟩
  · rw [books_snoc]
    exact h.delivered
  · show (ledger _).2 = _
    rw [hledger]
    exact h.acknowledged
  · rw [books_snoc]
    exact h.commits
  · rw [hops, replay_append, replay_write_of_ne hname.symm]
    exact h.file

theorem Piece.attempt (h : Piece d u popped queue c) {rest : List (BlockId × Nat)}
    (hrest : popped ++ queue <+: rest) : ∃ rest', Attempt rest u popped rest' := by
  have hpassed := h.passed
  have hone : c.toList.length ≤ 1 := by cases c <;> simp
  have hle := List.length_take_le c.toList.length queue
  obtain ⟨v, rfl⟩ := hrest
  refine ⟨queue ++ v, List.append_assoc .., h.settled, ?_, ?_, ?_⟩
  · rw [hpassed]
    refine List.IsPrefix.trans ?_ (List.prefix_append ..)
    exact (List.prefix_append_right_inj _).mpr (List.take_prefix ..)
  · rw [hpassed, List.length_append]
    omega
  · rw [hpassed, List.length_append]
    omega

/-- The file `applied` holds eight bytes, when there is one. -/
theorem Piece.length_applied (h : Piece d u popped queue c) {i : Nat} (hd : AppliedIs d i)
    {b : Bytes} (hb : replay d (fileOps u) .applied = some b) : b.length = 8 := by
  have hlen : ∀ j, (u64ToBytes j).length = 8 := fun j => by simp [u64ToBytes]
  rw [h.file] at hb
  unfold appliedFile at hb
  split at hb
  · rw [← Option.some.inj hb, hlen]
  · rcases hd with hd | ⟨hd, -⟩
    · rw [← Option.some.inj (hd.symm.trans hb), hlen]
    · rw [hd] at hb
      cases hb

end

section
variable [Protobuf]

/-- A trace that breaks off, from an intact `applied` on: it is a moment of the
trace but for the file that was being written, or the number is damaged. -/
theorem brokenOff_piece {d : Dir} {i : Nat} (hd : AppliedIs d i) (hpresent : Present d)
    {t v : List Obs} (htidy : Tidy t) (hok : TraceOk t) (hv : BrokenOff t v) :
    Damaged (replay d (fileOps v)) ∨ Present (replay d (fileOps v)) ∧
      ∃ popped queue c, Piece d v popped queue c ∧ popped ++ queue <+: (books t).delivered := by
  have hdelivered : ∀ {w popped queue c}, w <+: t → Piece d w popped queue c →
      popped ++ queue <+: (books t).delivered := by
    intro w popped queue c hw hpiece
    rw [← hpiece.delivered]
    exact (entries_grow hw).filterMap blockOf
  rcases hv with hv | ⟨before, name, payload, part, -, hpre, hpart, rfl⟩
  · obtain ⟨popped, queue, c, hpiece⟩ := exists_piece d htidy hok hv
    refine Or.inr ⟨hpresent.replay fun op hop => htidy.removal op (fileOps_grow hv hop), ?_⟩
    exact ⟨popped, queue, c, hpiece, hdelivered hv hpiece⟩
  · have hbefore := (List.prefix_append ..).trans hpre
    have hthere : Present (replay d (fileOps (before ++ [.file (.write name part)]))) := by
      refine hpresent.replay fun op hop name' hname' => ?_
      rw [fileOps_append] at hop
      rcases List.mem_append.mp hop with hop | hop
      · exact htidy.removal op (fileOps_grow hbefore hop) name' hname'
      · rw [List.mem_singleton.mp hop] at hname'
        exact nomatch hname'
    by_cases hname : name = .applied
    · subst hname
      obtain ⟨popped, queue, c, hpiece⟩ := exists_piece d htidy hok hpre
      have hfile : ∀ b, replay d (fileOps (before ++ [.file (.write .applied b)])) .applied
          = some b := by
        intro b
        rw [fileOps_append, replay_append]
        exact replay_write_self ..
      have hlen := hpiece.length_applied hd (hfile payload)
      by_cases hall : part = payload
      · subst hall
        exact Or.inr ⟨hthere, popped, queue, c, hpiece, hdelivered hpre hpiece⟩
      · refine Or.inl ⟨hthere, part, hfile part, fun hpartlen => hall ?_⟩
        exact hpart.eq_of_length (hpartlen.trans hlen.symm)
    · obtain ⟨popped, queue, c, hpiece⟩ := exists_piece d htidy hok hbefore
      exact Or.inr ⟨hthere, popped, queue, c, hpiece.write hname part,
        hdelivered hbefore hpiece⟩

variable [Formats] {C : Type → Type} [LruCache cacheSize C]

/-- What a session leaves of the log and of the directory. -/
structure Survived (log : CommittedLog) (d : Dir) (done rest : List (BlockId × Nat)) (u : List Obs)
    (popped rest' : List (BlockId × Nat)) : Prop where
  attempt : Attempt rest u popped rest'
  consistent : Consistent u
  disk : Worn (lastIndexOf (done ++ popped)) (replay d (fileOps u))

theorem Worn.session (hhs : Protobuf.hardState.writeToBytes default = [])
    (hsnap : Protobuf.snapshot.writeToBytes default = []) {log : CommittedLog}
    {done rest : List (BlockId × Nat)} (hblocks : log.blocks = done ++ rest) {d : Dir}
    (h : Worn (lastIndexOf done) d) {t u : List Obs} (ht : Session C log d t)
    (hu : BrokenOff t u) :
    Damaged (replay d (fileOps u)) ∨ ∃ popped rest', Survived log d done rest u popped rest' := by
  have hconsistent : Consistent [] := ⟨rfl, rfl, List.nil_prefix⟩
  -- the opening breaks off
  have hopening : ∀ cut, CutShort (createStorage (C := C) d).ops cut →
      ∃ popped rest', Survived log d done rest (cut.map Obs.file) popped rest' := by
    intro cut hcut
    have hpassed := passed_opening cut []
    have hsettled := settled_opening cut []
    have hcons := hconsistent.opening cut
    rw [List.append_nil] at hpassed hsettled hcons
    refine ⟨[], rest, ⟨rfl, hsettled, hpassed ▸ List.nil_prefix, Nat.zero_le _, ?_⟩, hcons, ?_⟩
    · rw [hpassed]
      exact Nat.zero_le _
    · rw [List.append_nil, fileOps_files]
      exact h.cutShort hhs hsnap hcut
  cases ht with
  | opening =>
    rcases BrokenOff.opening (t := []) (by rwa [List.append_nil]) with
      ⟨cut, hcut, rfl⟩ | ⟨v, hv, rfl⟩
    · exact Or.inr (hopening cut hcut)
    · rw [brokenOff_nil hv, List.append_nil]
      exact Or.inr (hopening _ (Or.inl (List.prefix_refl _)))
  | @running _ _ _ node applied env inputs hstart hlog =>
    rcases hu.opening with ⟨cut, hcut, rfl⟩ | ⟨v, hv, rfl⟩
    · exact Or.inr (hopening cut hcut)
    obtain ⟨hpresent, happlied⟩ := h.opened (C := C)
    obtain ⟨_, _, -, -, hstarted⟩ := startEngine_eq_ok hstart
    obtain ⟨hnew, htrace⟩ := hstarted.isNew
    have hdir := hstarted.dir
    have hread := hstarted.applied
    have hreplay : replay d (fileOps ((createStorage (C := C) d).ops.map Obs.file ++ v))
        = replay (replay d (createStorage (C := C) d).ops) (fileOps v) := by
      rw [fileOps_append, fileOps_files, replay_append]
    generalize replay d (createStorage (C := C) d).ops = d₁
      at hpresent happlied hdir hread hreplay
    rw [happlied.eq_of_read (log.lastIndexOf_lt hblocks) hread] at hlog
    have htracked : Node.Tracked d₁ node := by
      refine ⟨htrace ▸ .nil, ?_⟩
      rw [htrace]
      exact hdir
    have htidy : Tidy ((Sys.start node).run env inputs).node.trace :=
      (Node.run_closed (Node.tracked_closed d₁) hnew htracked inputs).1
    rw [hreplay]
    rcases brokenOff_piece happlied hpresent htidy
      (Node.reachable_traceOk ⟨env, inputs, node, hnew, rfl⟩) hv with
      hdamaged | ⟨hthere, popped, queue, c, hpiece, honto⟩
    · exact Or.inl hdamaged
    · have hdelivered := hlog.filterMap blockOf
      rw [show List.filterMap blockOf (log.after (lastIndexOf done)) = rest from
        log.blocksOf_after hblocks] at hdelivered
      obtain ⟨rest', hattempt⟩ := hpiece.attempt (honto.trans hdelivered)
      refine Or.inr ⟨popped, rest', ⟨hattempt.left, ?_, ?_, ?_, ?_⟩,
        hpiece.consistent.opening _, Or.inl ?_⟩
      · rw [settled_opening]
        exact hattempt.settled
      · rw [passed_opening]
        exact hattempt.passed
      · rw [passed_opening]
        exact hattempt.least
      · rw [passed_opening]
        exact hattempt.most
      · rw [hreplay]
        exact ⟨hthere, hpiece.appliedIs happlied⟩

/-! ## From session to session -/

/-- The invariant of a life that is not over. -/
structure Endured (log : CommittedLog) (ts : List (List Obs)) (done rest : List (BlockId × Nat)) :
    Prop where
  blocks : log.blocks = done ++ rest
  confirmed : ts.flatMap settled = done
  reached : Reached log ts done
  consistent : ∀ t ∈ ts, Consistent t
  disk : Worn (lastIndexOf done) (dirAt ts.flatten)

/-- **Step**: one more session, broken off anywhere. -/
theorem Endured.session (hhs : Protobuf.hardState.writeToBytes default = [])
    (hsnap : Protobuf.snapshot.writeToBytes default = []) {log : CommittedLog}
    {ts : List (List Obs)} {done rest : List (BlockId × Nat)} (h : Endured log ts done rest)
    {t u : List Obs} (ht : Session C log (dirAt ts.flatten) t) (hu : BrokenOff t u) :
    Damaged (dirAt (ts ++ [u]).flatten) ∨
      ∃ done' rest', Endured log (ts ++ [u]) done' rest' := by
  have hdir : dirAt (ts ++ [u]).flatten = replay (dirAt ts.flatten) (fileOps u) := by
    rw [List.flatten_append, List.flatten_singleton, dirAt_append]
  rcases h.disk.session hhs hsnap h.blocks ht hu with hdamaged | ⟨popped, rest', hsurvived⟩
  · exact Or.inl (hdir ▸ hdamaged)
  · have hattempt := hsurvived.attempt
    refine Or.inr ⟨done ++ popped, rest', ?_, ?_, h.reached.attempt h.blocks hattempt, ?_, ?_⟩
    · rw [h.blocks, hattempt.left, List.append_assoc]
    · rw [List.flatMap_append, List.flatMap_singleton, h.confirmed, hattempt.settled]
    · intro t' ht'
      rcases List.mem_append.mp ht' with ht' | ht'
      · exact h.consistent t' ht'
      · rw [List.mem_singleton.mp ht']
        exact hsurvived.consistent
    · rw [hdir]
      exact hsurvived.disk

/-- **Run**: every life is over or has endured. -/
theorem TornLife.endured (hhs : Protobuf.hardState.writeToBytes default = [])
    (hsnap : Protobuf.snapshot.writeToBytes default = []) {log : CommittedLog}
    {ts : List (List Obs)} (h : TornLife C log ts) :
    Damaged (dirAt ts.flatten) ∨ ∃ done rest, Endured log ts done rest := by
  induction h with
  | nil =>
    refine Or.inr ⟨[], log.blocks, rfl, rfl, ⟨0, Nat.le_refl _, Nat.zero_le _, rfl⟩, by simp, ?_⟩
    exact Or.inr ⟨⟨rfl, Or.inl rfl⟩, rfl⟩
  | crash _ ht hu ih =>
    rcases ih with hdamaged | ⟨done, rest, hendured⟩
    · rw [hdamaged.session ht hu, List.flatten_append, List.flatten_singleton, List.append_nil]
      exact Or.inl hdamaged
    · exact hendured.session hhs hsnap ht hu

/-- **Torn numbers lose no committed block.** A node is started and crashes any number
of times, also in the middle of writing a number. If the file `applied` is damaged, the
engine panics at every further start and leaves everything as it is. If not, what has
been passed to `commit_block` is the committed log up to some point, each block once or
several times in a row, the confirmed ones come first and all but the last are
confirmed; and an engine that starts goes on right behind the last block confirmed. -/
theorem torn_life_safe (hhs : Protobuf.hardState.writeToBytes default = [])
    (hsnap : Protobuf.snapshot.writeToBytes default = []) {log : CommittedLog}
    {ts : List (List Obs)} (h : TornLife C log ts) (raftDefault : RaftConfig) (peerId : PeerId)
    (settings : Except ServiceError Settings) :
    (Damaged (dirAt ts.flatten) →
      startEngine C raftDefault (dirAt ts.flatten) peerId settings
        = .error (.store (.err (.Io .InvalidData))) ∧
      (createStorage (C := C) (dirAt ts.flatten)).ops = []) ∧
    (¬ Damaged (dirAt ts.flatten) →
      (ts.flatMap fun t => (books t).commits) = (ts.flatMap passed).map (·.1) ∧
      committed ts <+: log.blocks ∧
      ts.flatMap settled <+: committed ts ∧
      (committed ts).length ≤ (ts.flatMap settled).length + 1 ∧
      ∀ node applied, startEngine C raftDefault (dirAt ts.flatten) peerId settings
        = .ok (node, applied) → applied = lastIndexOf (ts.flatMap settled)) := by
  refine ⟨fun hdamaged => hdamaged.fatal raftDefault peerId settings, fun hsound => ?_⟩
  obtain ⟨done, rest, hendured⟩ := (h.endured hhs hsnap).resolve_left hsound
  obtain ⟨hdone, hlength⟩ := hendured.reached.done hendured.blocks
  rw [hendured.confirmed]
  refine ⟨?_, hendured.reached.onLog, hdone, hlength, fun node applied hstart => ?_⟩
  · rw [List.map_flatMap]
    exact List.flatMap_congr fun t ht => (hendured.consistent t ht).passed.symm
  · obtain ⟨_, _, -, -, hstarted⟩ := startEngine_eq_ok hstart
    exact (hendured.disk.opened (C := C)).2.eq_of_read (log.lastIndexOf_lt hendured.blocks)
      hstarted.applied

end

section

open scoped Proto3 PlainFormats

/-- Why only the numbers may be torn: some beginning of what is in an entry file is read
as the entry without its data. -/
theorem entry_cut_short (e : Entry) : ∃ part, part <+: Protobuf.entry.writeToBytes e ∧
    Protobuf.entry.parseFromBytes part = some { e with data := [] } := by
  refine ⟨Protobuf.entry.writeToBytes { e with data := [] }, ?_, Protobuf.entry.parse_write _⟩
  have hfields : Proto3.entryFields { e with data := [] } <+: Proto3.entryFields e :=
    (List.prefix_append_right_inj _).mpr List.nil_prefix
  obtain ⟨rest, hrest⟩ := hfields
  refine ⟨encodeFields rest, ?_⟩
  show _ = encodeFields (Proto3.entryFields e)
  rw [← hrest]
  exact List.flatMap_append.symm

/-- The first opening breaks off with two bytes of `applied` written. -/
def brokenOpening : List Obs :=
  [.file (.write .term (u64ToBytes 0)), .file (.write .first (u64ToBytes 1)),
    .file (.write .last (u64ToBytes 0)), .file (.write .applied [0, 0])]

/-- After that the store is opened again, and the first block is confirmed. -/
def mendedTrace : List Obs :=
  traceOf (sessionOn (fun _ => twoPeersSetting) [] (dirAt brokenOpening) firstSession)

/-- The same session, but the write of its index breaks off. -/
def damagedTrace : List Obs := mendedTrace.take 16 ++ [.file (.write .applied [3])]

theorem mendedSession :
    letI := listLru cacheSize
    Session List twoBlocks (dirAt brokenOpening) mendedTrace := by
  have hsession : sessionOn (fun _ => twoPeersSetting) [] (dirAt brokenOpening) firstSession
      = .ok (mendedTrace, 0, .running) := by
    decide +kernel
  exact session_of_sessionOn hsession (by decide +kernel)

theorem brokenLife :
    letI := listLru cacheSize
    TornLife List twoBlocks [brokenOpening] := by
  let _ := listLru cacheSize
  have hopening : TornLife List twoBlocks ([] ++ [brokenOpening]) := by
    refine TornLife.nil.crash .opening (Or.inr
      ⟨brokenOpening.take 3, .applied, u64ToBytes 0, [0, 0], trivial, ?_, ?_, rfl⟩)
    · exact List.take_prefix 4 (FsStorage.initOps.map Obs.file)
    · exact ⟨[0, 0, 0, 0, 0, 0], rfl⟩
  exact hopening

/-- The life goes on after the first torn write, and ends with the second. -/
theorem torn_life_safe_mended :
    FsStorage.readApplied (dirAt brokenOpening) = .error .InvalidData ∧
    committed [brokenOpening, mendedTrace] <+: twoBlocks.blocks ∧
    [brokenOpening, mendedTrace].flatMap settled <+: committed [brokenOpening, mendedTrace] ∧
    letI := listLru cacheSize
    startEngine List {} (dirAt [brokenOpening, damagedTrace].flatten) (Node.peerOf 1)
      (.ok twoPeersSetting) = .error (.store (.err (.Io .InvalidData))) := by
  let _ := listLru cacheSize
  have hmended : TornLife List twoBlocks ([brokenOpening] ++ [mendedTrace]) :=
    brokenLife.crash mendedSession (Or.inl (List.prefix_refl _))
  have hdamaged : TornLife List twoBlocks ([brokenOpening] ++ [damagedTrace]) := by
    refine brokenLife.crash mendedSession (Or.inr
      ⟨mendedTrace.take 16, .applied, u64ToBytes 3, [3], trivial, ?_, ?_, rfl⟩)
    · decide +kernel
    · exact ⟨[0, 0, 0, 0, 0, 0, 0], by decide⟩
  have hsound : ¬ Damaged (dirAt ([brokenOpening] ++ [mendedTrace]).flatten) := by
    intro h
    obtain ⟨b, hb, hlen⟩ := h.applied
    have hthree : dirAt ([brokenOpening] ++ [mendedTrace]).flatten .applied
        = some (u64ToBytes 3) := by
      decide +kernel
    rw [hthree] at hb
    exact hlen (by rw [← Option.some.inj hb]; decide)
  have hover : Damaged (dirAt ([brokenOpening] ++ [damagedTrace]).flatten) := by
    refine ⟨⟨?_, ?_⟩, [3], ?_, by decide⟩
    · decide +kernel
    · decide +kernel
    · decide +kernel
  obtain ⟨-, hlog, hdone, -⟩ :=
    (torn_life_safe rfl rfl hmended {} (Node.peerOf 1) (.ok twoPeersSetting)).2 hsound
  obtain ⟨hdead, -⟩ :=
    (torn_life_safe rfl rfl hdamaged {} (Node.peerOf 1) (.ok twoPeersSetting)).1 hover
  exact ⟨by decide +kernel, hlog, hdone, hdead⟩

end

end SawtoothRaft
