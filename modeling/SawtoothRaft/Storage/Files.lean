import Mathlib.Algebra.Group.Nat.Defs
import Mathlib.Logic.Function.Basic
import SawtoothRaft.Lib.Bytes
import SawtoothRaft.Lib.Exec
import SawtoothRaft.Storage.Message

/-!
# The data directory and the `u64` files in it

`FsStorage` keeps its state in one directory: six files and a sub-directory
`entries` with one file per log index. A `Dir` is the contents of that
directory, and an `Fs` is a directory together with the file operations that
brought it there, oldest first. The list is what crash reasoning is about: a
crash leaves the directory as some prefix of the operations left it
(`replay`), and `FileOp.steps` cuts a write into the truncation and the
filling of the file that `fs::write` consists of.

Reading never changes anything, so readers are plain functions of the `Dir`.

A read fails with `NotFound` when the file does not exist, and the generic
readers add `InvalidData`; failures of the medium itself are not modelled.
-/

namespace SawtoothRaft

open Lib

/-- The files below `data_dir`; `entry i` is `entries/i`. -/
inductive FileName where
  | hardstate
  | snapshot
  | term
  | first
  | last
  | applied
  | entry (index : Nat)
  deriving DecidableEq, Repr

abbrev Dir := FileName → Option Bytes

/-- The directory before the first start. -/
def emptyDir : Dir := fun _ => none

/-- `io::ErrorKind`, the kinds that can occur. -/
inductive ErrorKind where
  | NotFound
  | InvalidData
  deriving DecidableEq, Repr

inductive FileOp where
  | write (name : FileName) (payload : Bytes)
  | remove (name : FileName)
  deriving DecidableEq, Repr

def FileOp.name : FileOp → FileName
  | .write name _ => name
  | .remove name => name

/-- What a file operation makes of the directory. -/
def FileOp.apply (d : Dir) : FileOp → Dir
  | .write name payload => Function.update d name (some payload)
  | .remove name => Function.update d name none

/-- The directory after a sequence of operations. -/
def replay (d : Dir) (ops : List FileOp) : Dir := ops.foldl FileOp.apply d

/-- `fs::write` opens the file truncated and then fills it; a removal is one
step. -/
def FileOp.steps : FileOp → List FileOp
  | .write name payload => [.write name [], .write name payload]
  | .remove name => [.remove name]

@[simp] theorem apply_write_self (d : Dir) (name : FileName) (b : Bytes) :
    (FileOp.write name b).apply d name = some b :=
  Function.update_self ..

@[simp] theorem apply_remove_self (d : Dir) (name : FileName) :
    (FileOp.remove name).apply d name = none :=
  Function.update_self ..

/-- An operation on another file leaves a file alone. -/
theorem apply_of_ne {d : Dir} {op : FileOp} {name : FileName} (h : op.name ≠ name) :
    op.apply d name = d name := by
  cases op with
  | write n b => exact Function.update_of_ne (fun he => h he.symm) _ _
  | remove n => exact Function.update_of_ne (fun he => h he.symm) _ _

@[simp] theorem replay_nil (d : Dir) : replay d [] = d := rfl

@[simp] theorem replay_cons (d : Dir) (op : FileOp) (ops : List FileOp) :
    replay d (op :: ops) = replay (op.apply d) ops := rfl

/-- A single write is read back, and seen nowhere else. -/
theorem replay_write_self (d : Dir) (name : FileName) (b : Bytes) :
    replay d [.write name b] name = some b :=
  apply_write_self ..

theorem replay_write_of_ne {d : Dir} {name other : FileName} {b : Bytes} (h : other ≠ name) :
    replay d [.write name b] other = d other :=
  Function.update_of_ne h _ _

theorem replay_append (d : Dir) (ops ops' : List FileOp) :
    replay d (ops ++ ops') = replay (replay d ops) ops' := by
  unfold replay
  rw [List.foldl_append]

/-- Operations on other files leave a file alone. -/
theorem replay_of_ne {d : Dir} {ops : List FileOp} {name : FileName}
    (h : ∀ op ∈ ops, op.name ≠ name) : replay d ops name = d name := by
  induction ops generalizing d with
  | nil => rfl
  | cons op ops ih =>
    rw [replay_cons, ih fun op' hop => h op' (List.mem_cons_of_mem _ hop)]
    exact apply_of_ne (h op (List.mem_cons_self ..))

/-- A directory and the operations performed on it so far. -/
structure Fs where
  dir : Dir
  ops : List FileOp

/-- Code that reads and writes the directory and may stop with an `ε`. -/
abbrev FsM (ε : Type) := EStateM ε Fs

/-- Perform one file operation. -/
def perform {ε : Type} (op : FileOp) : FsM ε Unit :=
  modify fun fs => { dir := op.apply fs.dir, ops := fs.ops ++ [op] }

/-- Run a reader on the directory as it is now. -/
def reading {ε α : Type} (f : Dir → Except ε α) : FsM ε α := fun fs =>
  match f fs.dir with
  | .ok a => .ok a fs
  | .error e => .error e fs

/-- `fs::read` -/
def fsRead (d : Dir) (name : FileName) : Except ErrorKind Bytes :=
  match d name with
  | some payload => .ok payload
  | none => .error .NotFound

/-- `fs::write` -/
def fsWrite {ε : Type} (name : FileName) (payload : Bytes) : FsM ε Unit :=
  perform (.write name payload)

/-- `fs::remove_file` -/
def fsRemoveFile (name : FileName) : FsM ErrorKind Unit := do
  let fs ← get
  match fs.dir name with
  | some _ => perform (.remove name)
  | none => throw .NotFound

/-! ## Generic readers and writers -/

/-- `u64_to_bytes`: the eight bytes of a `u64` in the byte order of the host,
taken to be little-endian. -/
def u64ToBytes (n : Nat) : Bytes := leBytes n 8

/-- `u64_from_bytes` -/
def u64FromBytes (bytes : Bytes) : Nat := bytes.foldr (fun b n => b.toNat + 256 * n) 0

theorem u64FromBytes_eq (bytes : Bytes) : u64FromBytes bytes = leValue bytes :=
  (leValue_eq_foldr bytes).symm

theorem u64FromBytes_toBytes {n : Nat} (h : n < 2 ^ 64) : u64FromBytes (u64ToBytes n) = n := by
  rw [u64FromBytes_eq, u64ToBytes, leValue_leBytes, show 256 ^ 8 = 2 ^ 64 from rfl]
  exact Nat.mod_eq_of_lt h

def readU64FromFile (d : Dir) (name : FileName) : Except ErrorKind Nat := do
  let payload ← fsRead d name
  if payload.length = 8 then pure (u64FromBytes payload)
  else throw .InvalidData

def writeU64ToFile {ε : Type} (name : FileName) (n : Nat) : FsM ε Unit :=
  fsWrite name (u64ToBytes n)

def readPbFromFile {α : Type} [Inhabited α] (codec : Codec α) (d : Dir) (name : FileName) :
    Except ErrorKind α := do
  let payload ← fsRead d name
  match codec.parseFromBytes payload with
  | some m => pure m
  | none => throw .InvalidData

/-- Serialising into memory does not fail. -/
def writePbToFile {ε α : Type} [Inhabited α] (codec : Codec α) (name : FileName) (pb : α) :
    FsM ε Unit :=
  fsWrite name (codec.writeToBytes pb)

/-- What a `u64` file holds after `writeU64ToFile`. -/
theorem readU64_of_eq {d : Dir} {name : FileName} {n : Nat}
    (h : d name = some (u64ToBytes n)) (hn : n < 2 ^ 64) : readU64FromFile d name = .ok n := by
  have hlen : (u64ToBytes n).length = 8 := by simp [u64ToBytes]
  simp only [readU64FromFile, fsRead, h, bind, Except.bind]
  rw [if_pos hlen, u64FromBytes_toBytes hn]
  rfl

/-- What a message file holds after `writePbToFile`. -/
theorem readPb_of_eq {α : Type} [Inhabited α] {codec : Codec α} {d : Dir} {name : FileName}
    {m : α} (h : d name = some (codec.writeToBytes m)) :
    readPbFromFile codec d name = .ok m := by
  simp only [readPbFromFile, fsRead, h, bind, Except.bind, codec.parse_write]
  rfl

/-- What can be read is there. -/
theorem isSome_of_readPb {α : Type} [Inhabited α] {codec : Codec α} {d : Dir} {name : FileName}
    {m : α} (h : readPbFromFile codec d name = .ok m) : (d name).isSome := by
  cases hname : d name with
  | some b => rfl
  | none =>
    simp only [readPbFromFile, fsRead, hname, bind, Except.bind] at h
    cases h

/-- A file that was truncated and never filled reads as the default message. -/
theorem readPb_truncated {α : Type} [Inhabited α] {codec : Codec α} {d : Dir} {name : FileName}
    (h : d name = some []) : readPbFromFile codec d name = .ok default := by
  simp only [readPbFromFile, fsRead, h, bind, Except.bind, codec.parse_nil]
  rfl

/-- Readers look at their own file only. -/
theorem readU64_congr {d d' : Dir} {name : FileName} (h : d' name = d name) :
    readU64FromFile d' name = readU64FromFile d name := by
  simp only [readU64FromFile, fsRead, h]

theorem readPb_congr {α : Type} [Inhabited α] {codec : Codec α} {d d' : Dir} {name : FileName}
    (h : d' name = d name) : readPbFromFile codec d' name = readPbFromFile codec d name := by
  simp only [readPbFromFile, fsRead, h]

end SawtoothRaft
