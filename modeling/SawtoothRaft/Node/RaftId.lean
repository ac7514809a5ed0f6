import SawtoothRaft.Lib.Bytes
import SawtoothRaft.Node.ConfChange

/-!
# Raft ids

`peer_id_to_raft_id` adds up eight bytes of a peer id, the last one first, each
shifted to its place. All of this is done in machine words. `addByte` is one
turn of the loop as the machine takes it, which has no result where an operation
leaves the range of its type. No turn does, and what is added up after `n` of
them is the number that the last `n` bytes are in big-endian order (`turns_eq`).
So an id stands for the last eight bytes of a peer id and for nothing else
(`raft_id_big_endian`).

The map of a new node has one place for each id. It holds the peers it was made
of exactly when no two of them end in the same eight bytes (`new_peersIn_iff`).
-/

namespace SawtoothRaft

open Lib

/-! ## Machine words -/

/-- A number that fits into a `u64` or a `usize`. -/
def inWord (n : Nat) : Option Nat := if n < 2 ^ 64 then some n else none

/-- A difference that is not negative. -/
def wordSub (a b : Nat) : Option Nat := if b ≤ a then some (a - b) else none

/-- A shift by less than the width of the word, that moves no bit out of it.
(Rust would drop such a bit.) -/
def wordShl (a k : Nat) : Option Nat := if k < 64 then inWord (a <<< k) else none

/-- A turn of the loop of `peer_id_to_raft_id`. -/
def addByte (peerId : PeerId) (u i : Nat) : Option Nat := do
  let last ← wordSub peerId.length 1
  let index ← wordSub last i
  let byte ← peerId[index]?
  let shift ← inWord (i * 8)
  let shifted ← wordShl byte.toNat shift
  inWord (u + shifted)

/-- `u` after the first `n` turns. -/
def turns (peerId : PeerId) (n : Nat) : Option Nat := (List.range n).foldlM (addByte peerId) 0

theorem inWord_eq_some {n m : Nat} : inWord n = some m ↔ n < 2 ^ 64 ∧ n = m := by
  unfold inWord
  split <;> simp_all

theorem wordSub_eq_some {a b m : Nat} : wordSub a b = some m ↔ b ≤ a ∧ a - b = m := by
  unfold wordSub
  split <;> simp_all

theorem wordShl_eq_some {a k m : Nat} :
    wordShl a k = some m ↔ k < 64 ∧ a <<< k < 2 ^ 64 ∧ a <<< k = m := by
  unfold wordShl
  split
  · simp_all [inWord_eq_some]
  · simp_all

/-- The conditions of a turn. -/
theorem addByte_eq_some {peerId : PeerId} {u i v : Nat} :
    addByte peerId u i = some v ↔ ∃ byte, peerId[peerId.length - 1 - i]? = some byte ∧
      1 ≤ peerId.length ∧ i ≤ peerId.length - 1 ∧ i * 8 < 64 ∧
      byte.toNat <<< (i * 8) < 2 ^ 64 ∧ u + byte.toNat <<< (i * 8) < 2 ^ 64 ∧
      u + byte.toNat <<< (i * 8) = v := by
  unfold addByte
  simp only [Option.bind_eq_bind, Option.bind_eq_some_iff, wordSub_eq_some, inWord_eq_some,
    wordShl_eq_some]
  constructor
  · intro h
    obtain ⟨_, ⟨hlast, rfl⟩, _, ⟨hi, rfl⟩, byte, hbyte, _, ⟨-, rfl⟩, _, ⟨hk, hs, rfl⟩, hv⟩ := h
    exact ⟨byte, hbyte, hlast, hi, hk, hs, hv⟩
  · intro h
    obtain ⟨byte, hbyte, hlast, hi, hk, hs, hv⟩ := h
    have hword : i * 8 < 2 ^ 64 := hk.trans (by decide)
    exact ⟨_, ⟨hlast, rfl⟩, _, ⟨hi, rfl⟩, byte, hbyte, _, ⟨hword, rfl⟩, _, ⟨hk, hs, rfl⟩, hv⟩

/-! ## The loop -/

section
variable {p q : PeerId}

/-- **Step**: a turn stays in range, and takes in one more byte from the end. -/
theorem addByte_eq (hp : 8 ≤ p.length) {n : Nat} (hn : n < 8) :
    addByte p (beValue (p.rtake n)) n = some (beValue (p.rtake (n + 1))) := by
  have hlen : n + 1 ≤ p.length := by omega
  obtain ⟨byte, hbyte, hvalue⟩ := beValue_rtake_succ hlen
  -- the sum bounds the shifted byte too
  have hsum : beValue (p.rtake n) + byte.toNat <<< (n * 8) < 2 ^ 64 :=
    calc beValue (p.rtake n) + byte.toNat <<< (n * 8)
      _ = beValue (p.rtake (n + 1)) := hvalue.symm
      _ < 2 ^ ((p.rtake (n + 1)).length * 8) := beValue_lt _
      _ = 2 ^ ((n + 1) * 8) := by rw [length_rtake hlen]
      _ ≤ 2 ^ 64 := Nat.pow_le_pow_right (by decide) (by omega)
  exact addByte_eq_some.mpr ⟨byte, hbyte, by omega, by omega, by omega,
    (Nat.le_add_left ..).trans_lt hsum, hsum, hvalue.symm⟩

/-- **Run**: every turn is taken. -/
theorem turns_eq (hp : 8 ≤ p.length) {n : Nat} (hn : n ≤ 8) :
    turns p n = some (beValue (p.rtake n)) := by
  induction n with
  | zero =>
    rw [List.rtake_zero]
    rfl
  | succ n ih =>
    have hbefore : turns p n = some (beValue (p.rtake n)) := ih (Nat.le_of_succ_le hn)
    unfold turns at hbefore ⊢
    rw [List.range_succ, List.foldlM_append, hbefore]
    exact (bind_pure _).trans (addByte_eq hp hn)

/-- The sum of the machine is the one of `raftIdOf`, where there is one. -/
theorem raftIdOf_of_turns {u : Nat} (h : turns p 8 = some u) : raftIdOf p = u := by
  refine foldl_of_foldlM (fun u i v hv => ?_) h
  obtain ⟨byte, hbyte, -, -, -, -, -, rfl⟩ := addByte_eq_some.mp hv
  rw [List.getD_eq_getElem?_getD, hbyte]
  rfl

theorem raftIdOf_eq (hp : 8 ≤ p.length) : raftIdOf p = beValue (p.rtake 8) :=
  raftIdOf_of_turns (turns_eq hp le_rfl)

theorem raftIdOf_inj (hp : 8 ≤ p.length) (hq : 8 ≤ q.length) :
    raftIdOf p = raftIdOf q ↔ p.rtake 8 = q.rtake 8 := by
  rw [raftIdOf_eq hp, raftIdOf_eq hq]
  exact beValue_inj ((length_rtake hp).trans (length_rtake hq).symm)

end

namespace Node

/-- **Raft ids are the last eight bytes.** Every turn of the loop stays in the
range of its types and leaves the number that the bytes so far are. At the end
this is the big-endian value of the last eight bytes, which is the same for two
peers exactly when these bytes are. -/
theorem raft_id_big_endian (p q : PeerId) (hp : 8 ≤ p.length) (hq : 8 ≤ q.length) :
    (∀ n ≤ 8, turns p n = some (beValue (p.rtake n))) ∧
    peerIdToRaftId p = .ok (beValue (p.rtake 8)) ∧
    beValue (p.rtake 8) < 2 ^ 64 ∧
    (peerIdToRaftId p = peerIdToRaftId q ↔ p.rtake 8 = q.rtake 8) := by
  refine ⟨fun n hn => turns_eq hp hn, ?_, ?_, ?_⟩
  · rw [peerIdToRaftId_eq hp, raftIdOf_eq hp]
  · have hlt := beValue_lt (p.rtake 8)
    rwa [length_rtake hp] at hlt
  · rw [peerIdToRaftId_eq hp, peerIdToRaftId_eq hq, Except.ok.injEq]
    exact raftIdOf_inj hp hq

/-- Two peer ids of different lengths that end in the same eight bytes. -/
theorem raft_id_big_endian_nine : ∃ p q : PeerId, p.length = 9 ∧ q.length = 8 ∧
    peerIdToRaftId p = .ok 0x0102030405060708 ∧ peerIdToRaftId p = peerIdToRaftId q := by
  obtain ⟨-, hvalue, -, hsame⟩ := raft_id_big_endian [9, 1, 2, 3, 4, 5, 6, 7, 8]
    [1, 2, 3, 4, 5, 6, 7, 8] (by decide) (by decide)
  exact ⟨_, _, rfl, rfl, hvalue.trans (by decide), hsame.mpr rfl⟩

/-! ## The map of a new node -/

section
variable {S : Type} {peers : List PeerId}

theorem peersIn_mapOf
    (hdistinct : ∀ p ∈ peers, ∀ q ∈ peers, raftIdOf p = raftIdOf q → p = q) :
    peersIn (mapOf peers) = peers.toFinset := by
  induction peers using List.reverseRecOn with
  | nil => rfl
  | append_singleton peers p ih =>
    have hinit : peersIn (mapOf peers) = peers.toFinset := ih fun p hp q hq =>
      hdistinct p (List.mem_append_left _ hp) q (List.mem_append_left _ hq)
    have hp : ∀ q ∈ peersIn (mapOf peers), raftIdOf p = raftIdOf q → p = q := by
      intro q hq
      rw [hinit, List.mem_toFinset] at hq
      exact hdistinct p List.mem_concat_self q (List.mem_append_left _ hq)
    calc peersIn (mapOf (peers ++ [p]))
      _ = peersIn ((mapOf peers).insert (raftIdOf p) p) := congrArg peersIn List.foldl_append
      _ = insert p (peersIn (mapOf peers)) := peersIn_insert (keyed_mapOf peers) hp
      _ = insert p peers.toFinset := congrArg (insert p) hinit
      _ = (peers ++ [p]).toFinset := by simp

theorem length_of_new {peerId : PeerId} {store : S} {period : Nat} {trace : List Obs} {n : Node S}
    (h : Node.new peerId store peers period trace = .ok n) : ∀ p ∈ peers, 8 ≤ p.length := by
  obtain ⟨pairs, hpairs, -⟩ := bind_eq_ok.mp h
  intro p hp
  obtain ⟨pair, hpair⟩ := ok_of_mapM_eq_ok hpairs p hp
  obtain ⟨id, hid, -⟩ := bind_eq_ok.mp hpair
  exact (length_of_peerIdToRaftId hid).1

/-- A new node knows every peer it is given exactly when no two of them end in
the same eight bytes. Of those that do, the later one has taken the place of
the earlier one. -/
theorem new_peersIn_iff {peerId : PeerId} {store : S} {period : Nat} {trace : List Obs}
    {n : Node S} (h : Node.new peerId store peers period trace = .ok n) :
    peersIn n.raftIdToPeerId = peers.toFinset ↔
      ∀ p ∈ peers, ∀ q ∈ peers, p.rtake 8 = q.rtake 8 → p = q := by
  have hlong : ∀ p ∈ peers, 8 ≤ p.length := length_of_new h
  rw [new_map h]
  constructor
  · intro hall p hp q hq hsame
    have hlookup : ∀ p ∈ peers, (mapOf peers).lookup (raftIdOf p) = some p := by
      intro p hp
      rw [← (keyed_mapOf peers).mem_iff, hall, List.mem_toFinset]
      exact hp
    have hid : raftIdOf p = raftIdOf q := (raftIdOf_inj (hlong p hp) (hlong q hq)).mpr hsame
    have hboth : some p = some q := by
      rw [← hlookup p hp, hid, hlookup q hq]
    exact Option.some.inj hboth
  · intro hdistinct
    exact peersIn_mapOf fun p hp q hq hid =>
      hdistinct p hp q hq ((raftIdOf_inj (hlong p hp) (hlong q hq)).mp hid)

end

end Node

end SawtoothRaft
