import Mathlib.Logic.Function.Basic
import SawtoothRaft.Lib.Wire

/-!
# The block queue

Two notions of progress meet in `BlockQueue`. The validator reports blocks as
received and as valid, in any order (`validatorBacklog`); Raft delivers blocks
as committed, in log order (`commitQueue`). The front of the queue may be
committed once the backlog has it as valid.

`blockCommitted` takes no block id: it pops whatever is in front.
-/

namespace SawtoothRaft

open Lib

abbrev BlockId := Bytes

/-- A block as the validator announces it. The engine keeps it and looks at
nothing but its id. -/
structure Block where
  blockId : BlockId
  previousId : BlockId := []
  signerId : Bytes := []
  blockNum : Nat := 0
  payload : Bytes := []
  summary : Bytes := []
  deriving DecidableEq, Repr

structure BlockStatus where
  /-- Block received in a `BlockNew` message. -/
  block : Option Block
  /-- Block has been validated. -/
  blockValid : Bool
  deriving DecidableEq, Repr

def BlockStatus.withBlock (block : Block) : BlockStatus := { block := some block, blockValid := false }

def BlockStatus.withValid : BlockStatus := { block := none, blockValid := true }

structure BlockQueue where
  validatorBacklog : BlockId → Option BlockStatus
  /-- Blocks to commit, each with the index of its Raft entry. -/
  commitQueue : List (BlockId × Nat)

namespace BlockQueue

def new : BlockQueue := { validatorBacklog := fun _ => none, commitQueue := [] }

def blockNew (q : BlockQueue) (block : Block) : BlockQueue :=
  { q with validatorBacklog := Function.update q.validatorBacklog block.blockId <|
      match q.validatorBacklog block.blockId with
      | some status => some { status with block := some block }
      | none => some (BlockStatus.withBlock block) }

def blockValid (q : BlockQueue) (blockId : BlockId) : BlockQueue :=
  { q with validatorBacklog := Function.update q.validatorBacklog blockId <|
      match q.validatorBacklog blockId with
      | some status => some { status with blockValid := true }
      | none => some BlockStatus.withValid }

def addBlockCommit (q : BlockQueue) (blockId : BlockId) (entry : Nat) : BlockQueue :=
  { q with commitQueue := q.commitQueue ++ [(blockId, entry)] }

/-- Drop the front of the queue and return its Raft index; `none` is the panic
"No blocks in queue." -/
def blockCommitted (q : BlockQueue) : Option (Nat × BlockQueue) :=
  match q.commitQueue with
  | (blockId, entry) :: rest =>
    some (entry, { validatorBacklog := Function.update q.validatorBacklog blockId none,
                   commitQueue := rest })
  | [] => none

/-- The backlog has the block as valid. -/
def isValid (q : BlockQueue) (blockId : BlockId) : Bool :=
  match q.validatorBacklog blockId with
  | some status => status.blockValid
  | none => false

def getNextCommittable (q : BlockQueue) : Option BlockId :=
  match q.commitQueue with
  | (blockId, _) :: _ => if q.isValid blockId then some blockId else none
  | [] => none

/-! ## What the operations keep -/

@[simp] theorem blockNew_commitQueue (q : BlockQueue) (block : Block) :
    (q.blockNew block).commitQueue = q.commitQueue := rfl

@[simp] theorem blockValid_commitQueue (q : BlockQueue) (b : BlockId) :
    (q.blockValid b).commitQueue = q.commitQueue := rfl

@[simp] theorem addBlockCommit_commitQueue (q : BlockQueue) (b : BlockId) (i : Nat) :
    (q.addBlockCommit b i).commitQueue = q.commitQueue ++ [(b, i)] := rfl

@[simp] theorem isValid_addBlockCommit (q : BlockQueue) (b : BlockId) (i : Nat) (b' : BlockId) :
    (q.addBlockCommit b i).isValid b' = q.isValid b' := rfl

/-- An announcement does not change what is valid. -/
@[simp] theorem isValid_blockNew (q : BlockQueue) (block : Block) (b : BlockId) :
    (q.blockNew block).isValid b = q.isValid b := by
  simp only [isValid, blockNew]
  by_cases hb : b = block.blockId
  · subst hb
    rw [Function.update_self]
    cases q.validatorBacklog block.blockId with
    | some status => rfl
    | none => rfl
  · rw [Function.update_of_ne hb]

/-- Validation adds one block to those that are valid. -/
theorem isValid_blockValid (q : BlockQueue) (b b' : BlockId) :
    (q.blockValid b).isValid b' = true ↔ b' = b ∨ q.isValid b' = true := by
  simp only [isValid, blockValid]
  by_cases hb : b' = b
  · subst hb
    rw [Function.update_self]
    cases q.validatorBacklog b' with
    | some status => simp
    | none => simp [BlockStatus.withValid]
  · rw [Function.update_of_ne hb]
    simp [hb]

/-- A committable block is the valid front of the queue. -/
theorem getNextCommittable_eq_some {q : BlockQueue} {b : BlockId} :
    q.getNextCommittable = some b ↔
      (∃ i rest, q.commitQueue = (b, i) :: rest) ∧ q.isValid b = true := by
  unfold getNextCommittable
  cases q.commitQueue with
  | nil => simp
  | cons p rest =>
    obtain ⟨b', i⟩ := p
    by_cases hv : q.isValid b' = true
    · simp only [hv, if_true, Option.some.injEq, List.cons.injEq, Prod.mk.injEq]
      constructor
      · intro h
        obtain rfl := h
        exact ⟨⟨i, rest, ⟨rfl, rfl⟩, rfl⟩, hv⟩
      · intro h
        obtain ⟨⟨_, _, ⟨rfl, -⟩, -⟩, -⟩ := h
        rfl
    · simp only [hv, List.cons.injEq, Prod.mk.injEq]
      constructor
      · simp
      · intro h
        obtain ⟨⟨_, _, ⟨rfl, -⟩, -⟩, hv'⟩ := h
        exact absurd hv' hv

/-- Popping with something in the queue. -/
theorem blockCommitted_cons {q : BlockQueue} {b : BlockId} {i : Nat} {rest : List (BlockId × Nat)}
    (h : q.commitQueue = (b, i) :: rest) :
    ∃ q', q.blockCommitted = some (i, q') ∧ q'.commitQueue = rest ∧
      ∀ b', q'.isValid b' = true → q.isValid b' = true := by
  refine ⟨{ validatorBacklog := Function.update q.validatorBacklog b none, commitQueue := rest },
    ?_, rfl, ?_⟩
  · unfold blockCommitted
    rw [h]
  · intro b' hv
    simp only [isValid] at hv ⊢
    by_cases hb : b' = b
    · subst hb
      simp at hv
    · rwa [Function.update_of_ne hb] at hv

end BlockQueue

end SawtoothRaft
