import Mathlib.Data.List.Induction
import SawtoothRaft.Node.Run

/-!
# The books of a run, and the invariant that keeps them balanced

What a trace amounts to is kept in `Books`: the entries Raft has delivered,
the blocks passed to `commit_block`, the indices passed to `set_applied` and
the notifications they answered. `Balanced` says how these lists fit together
at any moment:

> the delivered blocks are those confirmed so far, followed by the queue; the
> indices passed to `set_applied` are theirs; and the blocks passed to
> `commit_block` are the confirmed ones and at most one more, the front of the
> queue.

`Kept c n` ties the books to the node, with `c` the block that is being
committed, and `Good n` adds that exactly one role is taken and that `c` is
the block the role says. Inside a handler `Good` is not kept: a leader that
has popped its block still says `Committing`. This is why `c` is a parameter.

`TraceOk` is the statement for every prefix of the trace, so that it also
covers the middle of a handler and a handler that panics.
-/

namespace SawtoothRaft

open Lib

/-- The block id and the index of an entry that holds a block. -/
def blockOf (e : Entry) : Option (BlockId × Nat) :=
  if Node.IsBlock e then some (e.data, e.index) else none

def blocksOf (es : List Entry) : List (BlockId × Nat) := es.filterMap blockOf

structure Books where
  /-- The entries taken up. -/
  entries : List Entry := []
  /-- The blocks passed to `commit_block`. -/
  commits : List BlockId := []
  /-- The indices passed to `set_applied`. -/
  applied : List Nat := []
  /-- The notifications that each `set_applied` answered. -/
  handled : List BlockId := []
  /-- The notification that is being handled. -/
  current : Option BlockId := none
  /-- The blocks reported as valid. -/
  valid : List BlockId := []

namespace Books

/-- The blocks delivered, with their Raft indices. -/
def delivered (bk : Books) : List (BlockId × Nat) := blocksOf bk.entries

def record (bk : Books) : Obs → Books
  | .entry e => { bk with entries := bk.entries ++ [e] }
  | .commitBlock b => { bk with commits := bk.commits ++ [b] }
  | .setApplied i =>
    { bk with applied := bk.applied ++ [i], handled := bk.handled ++ bk.current.toList }
  | .blockCommit b => { bk with current := some b }
  | .blockValid b => { bk with valid := bk.valid ++ [b], current := none }
  | .blockNew _ | .peerMessage _ | .tick | .ready _ => { bk with current := none }
  | _ => bk

/-- An observation that the books do not mention, but for the notification
that is being handled. -/
def Ignores (o : Obs) : Prop :=
  ∀ bk : Books, ∃ c, bk.record o = { bk with current := c }

theorem delivered_entry (bk : Books) (e : Entry) :
    (bk.record (.entry e)).delivered = bk.delivered ++ (blockOf e).toList := by
  simp only [delivered, record, blocksOf, List.filterMap_append]
  cases he : blockOf e with
  | some p => simp [he]
  | none => simp [he]

end Books

/-- The books at the end of a trace. -/
def books (t : List Obs) : Books := t.foldl Books.record {}

@[simp] theorem books_snoc (t : List Obs) (o : Obs) : books (t ++ [o]) = (books t).record o := by
  simp only [books, List.foldl_append, List.foldl_cons, List.foldl_nil]

/-- File operations are not in the books. -/
@[simp] theorem books_files (t : List Obs) (ops : List FileOp) :
    books (t ++ ops.map Obs.file) = books t := by
  simp only [books, List.foldl_append]
  induction ops with
  | nil => rfl
  | cons op ops ih => exact ih

def roundShown : Obs → Option Round
  | .ready round => some round
  | _ => none

/-- The rounds that Raft has shown. -/
def roundsShown (t : List Obs) : List Round := t.filterMap roundShown

theorem roundsShown_snoc (t : List Obs) (o : Obs) :
    roundsShown (t ++ [o]) = roundsShown t ++ (roundShown o).toList := by
  rw [roundsShown, List.filterMap_append]
  cases ho : roundShown o with
  | some round => simp [roundsShown, ho]
  | none => simp [roundsShown, ho]

/-! ## Balance -/

/-- The delivered blocks are `popped` and then `queue`, of which `c` is being
committed. -/
structure Balanced (popped queue : List (BlockId × Nat)) (c : Option BlockId) (bk : Books) :
    Prop where
  delivered : bk.delivered = popped ++ queue
  applied : bk.applied = popped.map (·.2)
  handled : bk.handled = popped.map (·.1)
  commits : bk.commits = popped.map (·.1) ++ c.toList
  front : ∀ b, c = some b → ∃ i rest, queue = (b, i) :: rest
  valid : ∀ b ∈ bk.commits, b ∈ bk.valid

/-- The books are balanced one way or the other. -/
def Sound (bk : Books) : Prop := ∃ popped queue c, Balanced popped queue c bk

/-- The books are balanced at every point of the trace. -/
def TraceOk (t : List Obs) : Prop := ∀ t', t' <+: t → Sound (books t')

theorem Balanced.ignore {popped queue : List (BlockId × Nat)} {c : Option BlockId} {bk : Books}
    (h : Balanced popped queue c bk) {o : Obs} (ho : Books.Ignores o) :
    Balanced popped queue c (bk.record o) := by
  obtain ⟨c', hc'⟩ := ho bk
  rw [hc']
  exact ⟨h.delivered, h.applied, h.handled, h.commits, h.front, h.valid⟩

theorem traceOk_snoc {t : List Obs} {o : Obs} (h : TraceOk t) (ho : Sound (books (t ++ [o]))) :
    TraceOk (t ++ [o]) := by
  intro t' ht'
  rcases List.prefix_concat_iff.mp ht' with rfl | ht'
  · exact ho
  · exact h t' ht'

theorem traceOk_files {t : List Obs} (h : TraceOk t) (ops : List FileOp) :
    TraceOk (t ++ ops.map Obs.file) := by
  induction ops generalizing t with
  | nil => rwa [List.map_nil, List.append_nil]
  | cons op ops ih =>
    rw [List.map_cons, List.append_cons]
    refine ih (traceOk_snoc h ?_)
    rw [books_snoc]
    exact h t (List.prefix_refl t)

/-- In balanced books the commits follow the delivered blocks. -/
theorem Sound.commits_le_delivered {bk : Books} (h : Sound bk) :
    bk.commits <+: bk.delivered.map (·.1) := by
  obtain ⟨popped, queue, c, hbal⟩ := h
  rw [hbal.commits, hbal.delivered, List.map_append]
  cases c with
  | none => exact ⟨queue.map (·.1), by simp⟩
  | some b =>
    obtain ⟨i, rest, rfl⟩ := hbal.front b rfl
    exact ⟨rest.map (·.1), by simp⟩

theorem valid_mem {b : BlockId} : ∀ t : List Obs, b ∈ (books t).valid → Obs.blockValid b ∈ t := by
  intro t
  induction t using List.reverseRecOn with
  | nil => simp [books]
  | append_singleton t o ih =>
    intro hb
    rw [books_snoc] at hb
    by_cases ho : o = .blockValid b
    · rw [ho]; simp
    · have hb' : b ∈ (books t).valid := by
        cases o with
        | blockValid b' =>
          rcases List.mem_append.mp hb with hb | hb
          · exact hb
          · exact absurd (by rw [List.mem_singleton.mp hb]) ho
        | _ => exact hb
      exact List.mem_append_left _ (ih hb')

namespace Node

variable {S : Type}

/-- The books fit the node, on which `c` is being committed. -/
structure Kept (c : Option BlockId) (n : Node S) : Prop where
  balanced : ∃ popped, Balanced popped n.blockQueue.commitQueue c (books n.trace)
  front : ∀ b, c = some b → n.blockQueue.getNextCommittable = some b
  valid : ∀ b, n.blockQueue.isValid b = true → b ∈ (books n.trace).valid
  traceOk : TraceOk n.trace

theorem Kept.ignore {c : Option BlockId} {n : Node S} (h : Kept c n) {o : Obs}
    (ho : Books.Ignores o) : Kept c (n.add o) := by
  obtain ⟨popped, hb⟩ := h.balanced
  have hb' : Balanced popped n.blockQueue.commitQueue c (books (n.trace ++ [o])) := by
    rw [books_snoc]
    exact hb.ignore ho
  refine ⟨⟨popped, hb'⟩, h.front, ?_, traceOk_snoc h.traceOk ⟨_, _, _, hb'⟩⟩
  intro b hv
  obtain ⟨c', hc'⟩ := ho (books n.trace)
  rw [add_trace, books_snoc, hc']
  exact h.valid b hv

theorem ignores_of_silent {o : Obs} (h : Silent o) : Books.Ignores o := by
  intro bk
  refine ⟨bk.current, ?_⟩
  cases o with
  | checkBlocks | summarizeBlock | finalizeBlock | cancelBlock | sendTo | getSettings | propose
  | proposeConfChange | applyConfChange | step | advance => rfl
  | _ => exact absurd h (by simp [Silent])

theorem kept_tame [StorageExt S] (c : Option BlockId) : Tame (Kept c : Node S → Prop) where
  leader _ _ h := ⟨h.balanced, h.front, h.valid, h.traceOk⟩
  follower _ _ h := ⟨h.balanced, h.front, h.valid, h.traceOk⟩
  silent _ _ ho h := h.ignore (ignores_of_silent ho)
  stored n o _ h := by
    refine ⟨?_, h.front, ?_, traceOk_files h.traceOk _⟩
    · rw [stored_trace, books_files]
      exact h.balanced
    · rw [stored_trace, books_files]
      exact h.valid

/-- What is left of the invariant once the node has stopped. -/
def Stopped (status : Status) (n : Node S) : Prop :=
  status ≠ .panicked .noBlocksInQueue ∧ TraceOk n.trace

theorem kept_fails (c : Option BlockId) :
    Fails (fun p => Stopped (.panicked p)) (Kept c : Node S → Prop) := by
  intro p n hp h
  refine ⟨?_, h.traceOk⟩
  intro h
  cases h
  exact hp trivial

/-! ## The steps that move the books -/

theorem Kept.blockNew {c : Option BlockId} {n : Node S} (h : Kept c n) (block : Block) :
    Kept c { n.add (.blockNew block) with blockQueue := n.blockQueue.blockNew block } := by
  have h' := h.ignore (o := .blockNew block) fun bk => ⟨none, rfl⟩
  refine ⟨h'.balanced, fun b hb => ?_, fun b hb => ?_, h'.traceOk⟩
  · have := h.front b hb
    rw [BlockQueue.getNextCommittable_eq_some] at this ⊢
    simpa using this
  · exact h'.valid b (by simpa using hb)

theorem Kept.blockValid {c : Option BlockId} {n : Node S} (h : Kept c n) (b : BlockId) :
    Kept c { n.add (.blockValid b) with blockQueue := n.blockQueue.blockValid b } := by
  obtain ⟨popped, hb⟩ := h.balanced
  have hb' : Balanced popped n.blockQueue.commitQueue c (books (n.trace ++ [.blockValid b])) := by
    rw [books_snoc]
    refine ⟨hb.delivered, hb.applied, hb.handled, hb.commits, hb.front, fun b' hb' => ?_⟩
    exact List.mem_append_left _ (hb.valid b' hb')
  refine ⟨⟨popped, hb'⟩, fun b' hc => ?_, fun b' hv => ?_, traceOk_snoc h.traceOk ⟨_, _, _, hb'⟩⟩
  · obtain ⟨hfront, hv⟩ := BlockQueue.getNextCommittable_eq_some.mp (h.front b' hc)
    exact BlockQueue.getNextCommittable_eq_some.mpr
      ⟨hfront, (BlockQueue.isValid_blockValid ..).mpr (Or.inr hv)⟩
  · rw [add_trace, books_snoc]
    rcases (BlockQueue.isValid_blockValid ..).mp hv with rfl | hv
    · exact List.mem_append_right _ (List.mem_singleton_self _)
    · exact List.mem_append_left _ (h.valid b' hv)

/-- An entry without a block changes nothing. -/
theorem Kept.skip {c : Option BlockId} {n : Node S} (h : Kept c n) {e : Entry}
    (he : ¬ IsBlock e) : Kept c (n.add (.entry e)) := by
  obtain ⟨popped, hb⟩ := h.balanced
  have hb' : Balanced popped n.blockQueue.commitQueue c (books (n.trace ++ [.entry e])) := by
    rw [books_snoc]
    refine ⟨?_, hb.applied, hb.handled, hb.commits, hb.front, hb.valid⟩
    rw [Books.delivered_entry, hb.delivered, blockOf, if_neg he]
    simp
  refine ⟨⟨popped, hb'⟩, h.front, ?_, traceOk_snoc h.traceOk ⟨_, _, _, hb'⟩⟩
  rw [add_trace, books_snoc]
  exact h.valid

/-- A delivered block goes to the end of the queue. -/
theorem Kept.block {c : Option BlockId} {n : Node S} (h : Kept c n) {e : Entry} (he : IsBlock e) :
    Kept c ((n.add (.entry e)).enqueue e) := by
  obtain ⟨popped, hb⟩ := h.balanced
  have hfront : ∀ b, c = some b →
      ∃ i rest, n.blockQueue.commitQueue ++ [(e.data, e.index)] = (b, i) :: rest := by
    intro b hc
    obtain ⟨i, rest, hq⟩ := hb.front b hc
    exact ⟨i, rest ++ [(e.data, e.index)], by rw [hq]; rfl⟩
  have hb' : Balanced popped (n.blockQueue.commitQueue ++ [(e.data, e.index)]) c
      (books (n.trace ++ [.entry e])) := by
    rw [books_snoc]
    refine ⟨?_, hb.applied, hb.handled, hb.commits, hfront, hb.valid⟩
    rw [Books.delivered_entry, hb.delivered, blockOf, if_pos he, List.append_assoc]
    rfl
  refine ⟨⟨popped, hb'⟩, fun b hc => ?_, ?_, traceOk_snoc h.traceOk ⟨_, _, _, hb'⟩⟩
  · refine BlockQueue.getNextCommittable_eq_some.mpr ⟨hfront b hc, ?_⟩
    exact (BlockQueue.getNextCommittable_eq_some.mp (h.front b hc)).2
  · show ∀ b, n.blockQueue.isValid b = true → b ∈ (books (n.trace ++ [.entry e])).valid
    rw [books_snoc]
    exact h.valid

/-- The committable block is passed to `commit_block`. -/
theorem Kept.commit {n : Node S} (h : Kept none n) {b : BlockId}
    (hb : n.blockQueue.getNextCommittable = some b) : Kept (some b) (n.add (.commitBlock b)) := by
  obtain ⟨popped, hbal⟩ := h.balanced
  obtain ⟨hfront, hv⟩ := BlockQueue.getNextCommittable_eq_some.mp hb
  have hbal' : Balanced popped n.blockQueue.commitQueue (some b)
      (books (n.trace ++ [.commitBlock b])) := by
    rw [books_snoc]
    refine ⟨hbal.delivered, hbal.applied, hbal.handled, ?_, ?_, ?_⟩
    · show (books n.trace).commits ++ [b] = _
      rw [hbal.commits]
      simp
    · intro _ h
      cases h
      exact hfront
    -- the queue vouches for the new one
    · intro b' hb'
      rcases List.mem_append.mp hb' with hb' | hb'
      · exact hbal.valid b' hb'
      · obtain rfl := List.mem_singleton.mp hb'
        exact h.valid _ hv
  refine ⟨⟨popped, hbal'⟩, ?_, ?_, traceOk_snoc h.traceOk ⟨_, _, _, hbal'⟩⟩
  · intro _ h
    cases h
    exact hb
  · rw [add_trace, books_snoc]
    exact h.valid

/-- The block that is being committed is confirmed: it leaves the queue, and
its index is the one stored. -/
theorem Kept.confirm [StorageExt S] {n : Node S} {b : BlockId} (h : Kept (some b) n)
    (hcur : (books n.trace).current = some b) {i : Nat} {q : BlockQueue}
    (hq : n.blockQueue.blockCommitted = some (i, q)) : Kept none (n.confirmed i q) := by
  obtain ⟨popped, hbal⟩ := h.balanced
  obtain ⟨j, rest, hqueue⟩ := hbal.front b rfl
  obtain ⟨q', hq', hrest, hvalid⟩ := BlockQueue.blockCommitted_cons hqueue
  -- what was popped is the front of the balance
  obtain ⟨rfl, rfl⟩ : i = j ∧ q = q' := by
    rw [hq'] at hq
    simpa [eq_comm] using hq
  have hbal' : Balanced (popped ++ [(b, i)]) rest none (books (n.trace ++ [.setApplied i])) := by
    rw [books_snoc]
    refine ⟨?_, ?_, ?_, ?_, by simp, hbal.valid⟩
    · show (books n.trace).delivered = _
      rw [hbal.delivered, hqueue, List.append_assoc]
      rfl
    · show (books n.trace).applied ++ [i] = _
      rw [hbal.applied]
      simp
    · show (books n.trace).handled ++ (books n.trace).current.toList = _
      rw [hbal.handled, hcur]
      simp
    · show (books n.trace).commits = _
      rw [hbal.commits]
      simp
  -- the write to `applied` follows, of which the books take no notice
  have htrace : TraceOk (n.trace ++ [.setApplied i]) := traceOk_snoc h.traceOk ⟨_, _, _, hbal'⟩
  refine ⟨⟨popped ++ [(b, i)], ?_⟩, by simp, ?_, traceOk_files htrace _⟩
  · show Balanced _ q.commitQueue none (books (n.trace ++ [.setApplied i] ++ _))
    rw [books_files, hrest]
    exact hbal'
  · intro b' hv
    show b' ∈ (books (n.trace ++ [.setApplied i] ++ _)).valid
    rw [books_files, books_snoc]
    exact h.valid b' (hvalid b' hv)

end Node

end SawtoothRaft
