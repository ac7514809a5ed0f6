import Mathlib.Data.List.Basic

/-!
# Message codecs and the proto3 wire format

`Codec α` is what a program relies on when it stores messages of type `α` as
bytes: parsing gives back what was written, and the empty byte string parses
as the default message. The second law is the one that bites: a file that was
truncated and never filled is not malformed, it is the default message.

The rest of the file builds such codecs. A proto3 message is a list of
`(field number, value)` pairs in which fields holding their default are left
out; `encodeFields` and `decodeFields` are the wire format of such lists
(base-128 varints and length-delimited byte strings) and `decode_encodeFields`
is their round trip. `Codec.ofFields` lifts a round trip between messages and
field lists to a codec.
-/

namespace Lib

abbrev Bytes := List UInt8

/-- Serialisation of messages of type `α`, with the two laws its users need. -/
structure Codec (α : Type) [Inhabited α] where
  writeToBytes : α → Bytes
  parseFromBytes : Bytes → Option α
  parse_write : ∀ m, parseFromBytes (writeToBytes m) = some m
  parse_nil : parseFromBytes [] = some default

/-! ## Base-128 varints -/

/-- Base-128 digits of `n`, least significant first, the continuation bit set
on all but the last. The fuel only has to be at least `n`. -/
def varintAux : Nat → Nat → Bytes
  | 0, n => [UInt8.ofNat (n % 128)]
  | fuel + 1, n =>
    if n < 128 then [UInt8.ofNat n]
    else UInt8.ofNat (n % 128 + 128) :: varintAux fuel (n / 128)

def varint (n : Nat) : Bytes := varintAux n n

/-- Read one varint off the front. -/
def unvarint : Bytes → Option (Nat × Bytes)
  | [] => none
  | b :: bs =>
    if b.toNat < 128 then some (b.toNat, bs)
    else (unvarint bs).map fun p => (b.toNat - 128 + 128 * p.1, p.2)

theorem unvarint_varintAux (rest : Bytes) :
    ∀ (fuel n : Nat), n ≤ fuel → unvarint (varintAux fuel n ++ rest) = some (n, rest) := by
  intro fuel
  induction fuel with
  | zero =>
    intro n hn
    obtain rfl : n = 0 := by omega
    simp [varintAux, unvarint]
  | succ fuel ih =>
    intro n hn
    rw [varintAux]
    split
    next hlt =>
      have hb : (UInt8.ofNat n).toNat = n :=
        UInt8.toNat_ofNat_of_lt' (show n < 256 by omega)
      simp only [List.cons_append, List.nil_append, unvarint]
      rw [hb, if_pos hlt]
    next hge =>
      have hb : (UInt8.ofNat (n % 128 + 128)).toNat = n % 128 + 128 :=
        UInt8.toNat_ofNat_of_lt' (show n % 128 + 128 < 256 by omega)
      simp only [List.cons_append, unvarint]
      rw [hb, if_neg (by omega), ih (n / 128) (by omega)]
      have hsplit : n % 128 + 128 - 128 + 128 * (n / 128) = n := by omega
      simp only [Option.map_some, hsplit]

theorem unvarint_varint (n : Nat) (rest : Bytes) :
    unvarint (varint n ++ rest) = some (n, rest) :=
  unvarint_varintAux rest n n (Nat.le_refl n)

/-! ## Field lists -/

inductive WireValue where
  | int (n : Nat)
  | bytes (b : Bytes)
  deriving DecidableEq, Repr

/-- One field: its key (number and wire type), then its payload. -/
def encodeField : Nat × WireValue → Bytes
  | (num, .int n) => varint (8 * num) ++ varint n
  | (num, .bytes b) => varint (8 * num + 2) ++ (varint b.length ++ b)

def encodeFields (fs : List (Nat × WireValue)) : Bytes := fs.flatMap encodeField

/-- Read one field off the front. Wire types other than the two above are
not produced by the writers here and are refused. -/
def decodeField (bs : Bytes) : Option ((Nat × WireValue) × Bytes) :=
  match unvarint bs with
  | none => none
  | some (key, bs) =>
    match unvarint bs with
    | none => none
    | some (n, bs) =>
      if key % 8 = 0 then some ((key / 8, .int n), bs)
      else if key % 8 = 2 ∧ n ≤ bs.length then
        some ((key / 8, .bytes (bs.take n)), bs.drop n)
      else none

def decodeFieldsAux : Nat → Bytes → Option (List (Nat × WireValue))
  | _, [] => some []
  | 0, _ :: _ => none
  | fuel + 1, b :: bs =>
    match decodeField (b :: bs) with
    | none => none
    | some (f, rest) => (decodeFieldsAux fuel rest).map (f :: ·)

def decodeFields (bs : Bytes) : Option (List (Nat × WireValue)) :=
  decodeFieldsAux bs.length bs

theorem decodeField_encodeField (f : Nat × WireValue) (rest : Bytes) :
    decodeField (encodeField f ++ rest) = some (f, rest) := by
  obtain ⟨num, v⟩ := f
  cases v with
  | int n =>
    have hkey : 8 * num / 8 = num := by omega
    simp only [encodeField, decodeField, List.append_assoc, unvarint_varint,
      Nat.mul_mod_right, if_true, hkey]
  | bytes b =>
    have hmod : (8 * num + 2) % 8 = 2 := by omega
    have hkey : (8 * num + 2) / 8 = num := by omega
    simp [encodeField, decodeField, List.append_assoc, unvarint_varint, hmod, hkey]

theorem encodeField_ne_nil (f : Nat × WireValue) : encodeField f ≠ [] := by
  intro h
  have := decodeField_encodeField f []
  rw [h] at this
  simp [decodeField, unvarint] at this

theorem decodeFieldsAux_encodeFields :
    ∀ (fs : List (Nat × WireValue)) (fuel : Nat), (encodeFields fs).length ≤ fuel →
      decodeFieldsAux fuel (encodeFields fs) = some fs
  | [], fuel, _ => by cases fuel <;> rfl
  | f :: fs, fuel, hfuel => by
    have hcons : encodeFields (f :: fs) = encodeField f ++ encodeFields fs := rfl
    obtain ⟨b, bs, hb⟩ := List.exists_cons_of_ne_nil (encodeField_ne_nil f)
    rw [hcons, hb, List.cons_append] at hfuel ⊢
    cases fuel with
    | zero => simp at hfuel
    | succ fuel =>
      rw [decodeFieldsAux, ← List.cons_append, ← hb, decodeField_encodeField]
      simp only [List.length_cons, List.length_append] at hfuel
      dsimp only
      rw [decodeFieldsAux_encodeFields fs fuel (by omega)]
      rfl

/-- The wire format of field lists reads back. -/
theorem decode_encodeFields (fs : List (Nat × WireValue)) :
    decodeFields (encodeFields fs) = some fs :=
  decodeFieldsAux_encodeFields fs _ (Nat.le_refl _)

/-! ## Codecs from field lists -/

/-- A message type whose messages and field lists correspond has a codec. -/
def Codec.ofFields {α : Type} [Inhabited α] (toFields : α → List (Nat × WireValue))
    (ofFields : List (Nat × WireValue) → Option α)
    (h : ∀ m, ofFields (toFields m) = some m) (hd : ofFields [] = some default) : Codec α where
  writeToBytes m := encodeFields (toFields m)
  parseFromBytes bs := (decodeFields bs).bind ofFields
  parse_write m := by rw [decode_encodeFields]; exact h m
  parse_nil := hd

/-- A scalar field, left out when zero. -/
def intField (num n : Nat) : List (Nat × WireValue) :=
  if n = 0 then [] else [(num, .int n)]

/-- A byte-string field, left out when empty. -/
def bytesField (num : Nat) (b : Bytes) : List (Nat × WireValue) :=
  if b = [] then [] else [(num, .bytes b)]

end Lib
