import SawtoothRaft.Storage.ColdStart
import SawtoothRaft.Storage.Refine

/-!
# Directories that a storage has written

Whatever calls are made to an `FsStorage`, with arguments that make sense or
not, it writes nothing but encoded values: numbers into the four number files,
messages into the others, and into an entry file an entry of that index
(`Encoded`). So every file of a directory reached in this way can be read back
(`Intact`), and two such directories that read the same are the same
(`Intact.ext`).

`P` is whatever is known of the entries that are appended.
-/

namespace SawtoothRaft

open Lib

/-- The files with a number in them. -/
def FileName.IsNumber : FileName → Prop
  | .term | .first | .last | .applied => True
  | _ => False

/-- The entries that a call appends satisfy `P`. -/
def Call.Carries (P : Entry → Prop) : Call → Prop
  | .append es => ∀ e ∈ es, P e
  | _ => True

/-- Of a number beyond the `u64`s only the remainder is written. -/
theorem u64ToBytes_mod (n : Nat) : u64ToBytes (n % 2 ^ 64) = u64ToBytes n := by
  -- eight bytes of the same value
  have hvalue : ∀ m, leValue (u64ToBytes m) = m % 2 ^ 64 := fun m => leValue_leBytes m 8
  refine (leValue_inj (by simp [u64ToBytes])).mp ?_
  rw [hvalue, hvalue, Nat.mod_mod]

namespace FsStorage

variable [Protobuf]

/-! ## Operations that encode something -/

inductive Encoded (P : Entry → Prop) : FileOp → Prop
  | number (name : FileName) (hname : name.IsNumber) (n : Nat) :
    Encoded P (.write name (u64ToBytes n))
  | hardState (hs : HardState) :
    Encoded P (.write .hardstate (Protobuf.hardState.writeToBytes hs))
  | snapshot (s : Snapshot) : Encoded P (.write .snapshot (Protobuf.snapshot.writeToBytes s))
  | entry (e : Entry) (he : P e) : Encoded P (writeEntryOp e)
  | removal (i : Nat) : Encoded P (.remove (.entry i))

variable {P : Entry → Prop}

theorem encoded_admits : Admits (Encoded P) P where
  term n := .number .term trivial n
  first n := .number .first trivial n
  last n := .number .last trivial n
  hardState := .hardState
  snapshot := .snapshot
  entry := .entry
  removal := .removal

theorem setApplied_encoded (a : Nat) : Traced (Encoded P) (setApplied a) :=
  Traced.perform (.number .applied trivial a)

/-! ## Intact directories -/

structure Intact (P : Entry → Prop) (d : Dir) : Prop where
  number : ∀ name : FileName, name.IsNumber → ∃ n, n < 2 ^ 64 ∧ d name = some (u64ToBytes n)
  hardState : ∃ hs, d .hardstate = some (Protobuf.hardState.writeToBytes hs)
  snapshot : ∃ s, d .snapshot = some (Protobuf.snapshot.writeToBytes s)
  entry : ∀ i b, d (.entry i) = some b →
    ∃ e, P e ∧ e.index = i ∧ b = Protobuf.entry.writeToBytes e

theorem Intact.apply {d : Dir} {op : FileOp} (h : Intact P d) (hop : Encoded P op) :
    Intact P (op.apply d) := by
  have hkeep : ∀ {name : FileName} {Q : Option Bytes → Prop}, Q (d name) →
      (op.name = name → Q (op.apply d name)) → Q (op.apply d name) := by
    intro name Q hQ hself
    by_cases hname : op.name = name
    · exact hself hname
    · rw [apply_of_ne hname]
      exact hQ
  constructor
  · intro name hname
    refine hkeep (Q := fun b => ∃ n, n < 2 ^ 64 ∧ b = some (u64ToBytes n)) (h.number name hname) ?_
    intro hself
    cases hop with
    | number name' _ n =>
      obtain rfl : name' = name := hself
      refine ⟨n % 2 ^ 64, Nat.mod_lt _ (by omega), ?_⟩
      rw [apply_write_self, u64ToBytes_mod]
    | hardState | snapshot | entry | removal => subst hself; exact hname.elim
  · refine hkeep (Q := fun b => ∃ hs, b = some (Protobuf.hardState.writeToBytes hs)) h.hardState ?_
    intro hself
    cases hop with
    | hardState hs => exact ⟨hs, apply_write_self ..⟩
    | number name' hname => obtain rfl : name' = .hardstate := hself; exact hname.elim
    | snapshot | entry | removal => cases hself
  · refine hkeep (Q := fun b => ∃ s, b = some (Protobuf.snapshot.writeToBytes s)) h.snapshot ?_
    intro hself
    cases hop with
    | snapshot s => exact ⟨s, apply_write_self ..⟩
    | number name' hname => obtain rfl : name' = .snapshot := hself; exact hname.elim
    | hardState | entry | removal => cases hself
  · intro i
    refine hkeep (Q := fun c => ∀ b, c = some b → ∃ e, P e ∧ e.index = i ∧
      b = Protobuf.entry.writeToBytes e) (h.entry i) ?_
    intro hself b hb
    cases hop with
    | entry e he =>
      obtain rfl : e.index = i := by injection hself
      rw [writeEntryOp, apply_write_self] at hb
      exact ⟨e, he, rfl, (Option.some.inj hb).symm⟩
    | removal j =>
      obtain rfl : j = i := by injection hself
      rw [apply_remove_self] at hb
      cases hb
    | number name' hname => obtain rfl : name' = .entry i := hself; exact hname.elim
    | hardState | snapshot => cases hself

theorem Intact.replay {ops : List FileOp} {d : Dir} (h : Intact P d)
    (hops : ∀ op ∈ ops, Encoded P op) : Intact P (replay d ops) := by
  induction ops generalizing d with
  | nil => exact h
  | cons op ops ih =>
    obtain ⟨hop, hops⟩ := List.forall_mem_cons.mp hops
    exact ih (h.apply hop) hops

/-- A call leaves an intact directory behind, whether or not it succeeds. -/
theorem Intact.call {α : Type} {m : FsM Fault α} {s : FsStorage} (h : Intact P s.dir)
    (hm : Traced (Encoded P) m) : Intact P (call m s).store.dir := by
  obtain ⟨hops, hdir⟩ := hm.call s
  rw [hdir]
  exact h.replay hops

theorem withDataDir_emptyDir : withDataDir { dir := emptyDir, ops := [] }
    = .ok () { dir := newStore.dir, ops := initOps } :=
  withDataDir_of_missing rfl

theorem intact_newStore : Intact P newStore.dir where
  number name hname := by
    cases name with
    | term => exact ⟨0, by omega, rfl⟩
    | first => exact ⟨1, by omega, rfl⟩
    | last => exact ⟨0, by omega, rfl⟩
    | applied => exact ⟨0, by omega, rfl⟩
    | hardstate | snapshot | entry => exact hname.elim
  hardState := ⟨default, rfl⟩
  snapshot := ⟨default, rfl⟩
  entry i b hb := by
    rw [newStore_entry] at hb
    cases hb

theorem append_dir (s : FsStorage) (es : List Entry) :
    (StorageExt.append s es).store.dir = SawtoothRaft.replay s.dir (appendOps es) := by
  show (call (append es) s).store.dir = _
  unfold call
  rw [append_eq]
  rfl

/-- **Step**: any call, on whatever arguments, leaves the directory intact. -/
theorem Intact.serve {s : FsStorage} (h : Intact P s.dir) {c : Call} (hc : c.Carries P) :
    Intact P (StorageExt.serve s c).store.dir := by
  cases c with
  | setHardstate hs => exact h.call (setHardstate_traced encoded_admits.hardState hs)
  | applySnapshot snap => exact h.call (applySnapshot_traced encoded_admits.toAdmitsSnapshot snap)
  | createSnapshot index cs data =>
    exact h.call (createSnapshot_traced encoded_admits.snapshot index cs data)
  | compact i => exact h.call (compact_traced encoded_admits.toAdmitsSnapshot i)
  | append es => exact h.call (append_traced encoded_admits hc)
  | setApplied a => exact h.call (setApplied_encoded a)
  | initialState | entries | term | firstIndex | lastIndex | snapshot | applied => exact h

/-- **Run**: every directory that calls can lead to. -/
theorem Intact.after (calls : List Call) : ∀ {s : FsStorage}, Intact P s.dir →
    (∀ c ∈ calls, c.Carries P) → Intact P (StorageExt.after s calls).dir := by
  induction calls with
  | nil => exact fun h _ => h
  | cons c calls ih =>
    intro s h hcalls
    obtain ⟨hc, hcalls⟩ := List.forall_mem_cons.mp hcalls
    exact ih (h.serve hc) hcalls

/-! ## Reading an intact directory -/

section
variable {d : Dir}

theorem Intact.readNumber (h : Intact P d) (name : FileName) (hname : name.IsNumber) :
    ∃ n, n < 2 ^ 64 ∧ readU64FromFile d name = .ok n := by
  obtain ⟨n, hn, hfile⟩ := h.number name hname
  exact ⟨n, hn, readU64_of_eq hfile hn⟩

theorem Intact.readHardState (h : Intact P d) : ∃ hs, readHardState d = .ok hs := by
  obtain ⟨hs, hfile⟩ := h.hardState
  exact ⟨hs, readPb_of_eq hfile⟩

theorem Intact.readEntry (h : Intact P d) {i : Nat} (hi : (d (.entry i)).isSome) :
    ∃ e, readEntry d i = .ok e ∧ e.index = i ∧ P e := by
  obtain ⟨b, hb⟩ := Option.isSome_iff_exists.mp hi
  obtain ⟨e, he, hidx, rfl⟩ := h.entry i b hb
  exact ⟨e, readPb_of_eq hb, hidx, he⟩

/-- A range is read if its files are there. -/
theorem Intact.readEntries (h : Intact P d) (low count : Nat)
    (hfiles : ∀ i, low ≤ i → i < low + count → (d (.entry i)).isSome) :
    ∃ es, FsStorage.readEntries d low count = .ok es ∧ Contiguous low es := by
  induction count generalizing low with
  | zero => exact ⟨[], rfl, trivial⟩
  | succ n ih =>
    obtain ⟨e, he, hidx, -⟩ := h.readEntry (hfiles low (Nat.le_refl _) (by omega))
    obtain ⟨es, hes, hc⟩ := ih (low + 1) fun i hi hi' => hfiles i (by omega) (by omega)
    refine ⟨e :: es, readEntries_eq_ok.mpr ?_, hidx, hc⟩
    obtain ⟨hlen, hget⟩ := readEntries_eq_ok.mp hes
    refine ⟨by rw [List.length_cons, hlen], fun k x hx => ?_⟩
    cases k with
    | zero =>
      obtain rfl := Option.some.inj hx
      exact he
    | succ k =>
      rw [List.getElem?_cons_succ] at hx
      rw [show low + (k + 1) = low + 1 + k by omega]
      exact hget k x hx

/-- And not if one of them is missing. -/
theorem readEntries_of_none (low count : Nat) {i : Nat} (hlow : low ≤ i) (hi : i < low + count)
    (h : d (.entry i) = none) : ∃ k, FsStorage.readEntries d low count = .error k := by
  cases hr : FsStorage.readEntries d low count with
  | error k => exact ⟨k, rfl⟩
  | ok es =>
    obtain ⟨hlen, hget⟩ := readEntries_eq_ok.mp hr
    have hread := hget (i - low) _ (List.getElem?_eq_getElem (by omega))
    rw [show low + (i - low) = i by omega, readEntry_of_none h] at hread
    cases hread

/-- A compaction that cannot read its range does nothing. -/
theorem compact_of_error {c first : Nat} {k : ErrorKind} {fs : Fs}
    (hfirst : readFirstIndex fs.dir = .ok first) (hle : first ≤ c)
    (hread : FsStorage.readEntries fs.dir first (c + 1 - first) = .error k) :
    compact c fs = .error (.err (.Io k)) fs := by
  unfold compact
  rw [bind_of_ok (ioResult_of_ok (reading_of_ok hfirst)), if_neg (by omega)]
  exact bind_of_error (ioResult_of_error (reading_of_error hread))

/-- Intact directories that read the same are the same. -/
theorem Intact.ext {d' : Dir} (h : Intact P d) (h' : Intact P d')
    (hnumber : ∀ name : FileName, name.IsNumber → readU64FromFile d name = readU64FromFile d' name)
    (hhardState : FsStorage.readHardState d = FsStorage.readHardState d')
    (hsnapshot : readSnapshot d = readSnapshot d')
    (hentry : ∀ i, FsStorage.readEntry d i = FsStorage.readEntry d' i) : d = d' := by
  have hnum : ∀ name : FileName, name.IsNumber → d name = d' name := by
    intro name hname
    obtain ⟨n, hn, hd⟩ := h.number name hname
    obtain ⟨n', hn', hd'⟩ := h'.number name hname
    have := hnumber name hname
    rw [readU64_of_eq hd hn, readU64_of_eq hd' hn'] at this
    rw [hd, hd', Except.ok.inj this]
  funext name
  cases name with
  | term => exact hnum .term trivial
  | first => exact hnum .first trivial
  | last => exact hnum .last trivial
  | applied => exact hnum .applied trivial
  | hardstate =>
    obtain ⟨hs, hd⟩ := h.hardState
    obtain ⟨hs', hd'⟩ := h'.hardState
    rw [FsStorage.readHardState, readPb_of_eq hd, FsStorage.readHardState,
      readPb_of_eq hd'] at hhardState
    rw [hd, hd', Except.ok.inj hhardState]
  | snapshot =>
    obtain ⟨s, hd⟩ := h.snapshot
    obtain ⟨s', hd'⟩ := h'.snapshot
    rw [readSnapshot, readPb_of_eq hd, readSnapshot, readPb_of_eq hd'] at hsnapshot
    rw [hd, hd', Except.ok.inj hsnapshot]
  | entry i =>
    have hi := hentry i
    cases hd : d (.entry i) with
    | none =>
      cases hd' : d' (.entry i) with
      | none => rfl
      | some b =>
        obtain ⟨e, he, -⟩ := h'.readEntry (i := i) (by rw [hd']; rfl)
        rw [readEntry_of_none hd, he] at hi
        cases hi
    | some b =>
      obtain ⟨e, -, -, rfl⟩ := h.entry i b hd
      rw [FsStorage.readEntry, readPb_of_eq hd] at hi
      cases hd' : d' (.entry i) with
      | none =>
        rw [readEntry_of_none hd'] at hi
        cases hi
      | some b' =>
        obtain ⟨e', -, -, rfl⟩ := h'.entry i b' hd'
        rw [FsStorage.readEntry, readPb_of_eq hd'] at hi
        rw [Except.ok.inj hi]

end

end FsStorage

end SawtoothRaft
