import Mathlib.Data.List.DropRight
import Mathlib.Data.Nat.Digits.Lemmas

/-!
# Numbers as lists of bytes

A list of bytes stands for a number in two ways, with its first byte as the
least significant one (`leValue`) or as the most significant one (`beValue`).
Either way a list of `n` bytes is a number below `2 ^ (8 * n)`, and different
lists of one length are different numbers. `leBytes n k` goes back: it is the
`k` low bytes of `n`.
-/

namespace Lib

/-- The number, its least significant byte first. -/
def leValue (bytes : List UInt8) : Nat := Nat.ofDigits 256 (bytes.map UInt8.toNat)

/-- The number, its most significant byte first. -/
def beValue (bytes : List UInt8) : Nat := leValue bytes.reverse

/-- The `k` low bytes of a number. -/
def leBytes (n k : Nat) : List UInt8 := (List.range k).map fun i => UInt8.ofNat (n / 256 ^ i % 256)

@[simp] theorem length_leBytes (n k : Nat) : (leBytes n k).length = k := by
  rw [leBytes, List.length_map, List.length_range]

theorem leValue_eq_foldr (bytes : List UInt8) :
    leValue bytes = bytes.foldr (fun b n => b.toNat + 256 * n) 0 := by
  unfold leValue
  rw [Nat.ofDigits_eq_foldr, List.foldr_map]
  rfl

/-- One more byte at the other end. -/
theorem leValue_concat (bytes : List UInt8) (b : UInt8) :
    leValue (bytes ++ [b]) = leValue bytes + b.toNat <<< (bytes.length * 8) := by
  unfold leValue
  rw [List.map_append, Nat.ofDigits_append, List.length_map, List.map_singleton,
    Nat.ofDigits_singleton, Nat.shiftLeft_eq, Nat.mul_comm bytes.length, Nat.pow_mul, Nat.mul_comm]

theorem beValue_cons (b : UInt8) (bytes : List UInt8) :
    beValue (b :: bytes) = beValue bytes + b.toNat <<< (bytes.length * 8) := by
  unfold beValue
  rw [List.reverse_cons, leValue_concat, List.length_reverse]

theorem digit_lt (bytes : List UInt8) : ∀ d ∈ bytes.map UInt8.toNat, d < 256 := by
  intro d h
  obtain ⟨b, -, rfl⟩ := List.mem_map.mp h
  exact b.toNat_lt

theorem leValue_lt (bytes : List UInt8) : leValue bytes < 2 ^ (bytes.length * 8) := by
  have hlt := Nat.ofDigits_lt_base_pow_length (by decide) (digit_lt bytes)
  rw [List.length_map] at hlt
  rw [Nat.mul_comm, Nat.pow_mul]
  exact hlt

theorem beValue_lt (bytes : List UInt8) : beValue bytes < 2 ^ (bytes.length * 8) := by
  have hlt := leValue_lt bytes.reverse
  rwa [List.length_reverse] at hlt

/-- Different lists of one length are different numbers. -/
theorem leValue_inj {bytes bytes' : List UInt8} (hlen : bytes.length = bytes'.length) :
    leValue bytes = leValue bytes' ↔ bytes = bytes' := by
  constructor
  · intro h
    have hmap : bytes.map UInt8.toNat = bytes'.map UInt8.toNat :=
      Nat.ofDigits_inj_of_len_eq (by decide) (by simpa using hlen) (digit_lt bytes)
        (digit_lt bytes') h
    exact List.map_injective_iff.mpr (fun _ _ => UInt8.toNat_inj.mp) hmap
  · exact congrArg leValue

theorem beValue_inj {bytes bytes' : List UInt8} (hlen : bytes.length = bytes'.length) :
    beValue bytes = beValue bytes' ↔ bytes = bytes' := by
  unfold beValue
  rw [leValue_inj (by simpa using hlen), List.reverse_inj]

section
variable {bytes : List UInt8} {n : Nat}

theorem length_rtake (h : n ≤ bytes.length) : (bytes.rtake n).length = n := by
  unfold List.rtake
  rw [List.length_drop]
  omega

/-- One more byte from the end, which counts as much as the bytes behind it are
many. -/
theorem beValue_rtake_succ (h : n < bytes.length) :
    ∃ b, bytes[bytes.length - 1 - n]? = some b ∧
      beValue (bytes.rtake (n + 1)) = beValue (bytes.rtake n) + b.toNat <<< (n * 8) := by
  have hlt : bytes.length - 1 - n < bytes.length := by omega
  have hcons : bytes.rtake (n + 1) = bytes[bytes.length - 1 - n] :: bytes.rtake n := by
    unfold List.rtake
    rw [show bytes.length - (n + 1) = bytes.length - 1 - n by omega, List.drop_eq_getElem_cons hlt,
      show bytes.length - 1 - n + 1 = bytes.length - n by omega]
  refine ⟨bytes[bytes.length - 1 - n], List.getElem?_eq_getElem hlt, ?_⟩
  rw [hcons, beValue_cons, length_rtake h.le]

end

/-- What the low bytes of a number stand for. -/
theorem leValue_leBytes (n k : Nat) : leValue (leBytes n k) = n % 256 ^ k := by
  induction k with
  | zero => exact (Nat.mod_one n).symm
  | succ k ih =>
    have hbyte : (UInt8.ofNat (n / 256 ^ k % 256)).toNat = n / 256 ^ k % 256 :=
      UInt8.toNat_ofNat_of_lt' (Nat.mod_lt _ (by decide))
    have hsplit : leBytes n (k + 1) = leBytes n k ++ [UInt8.ofNat (n / 256 ^ k % 256)] := by
      unfold leBytes
      rw [List.range_succ, List.map_append]
      rfl
    rw [hsplit, leValue_concat, ih, length_leBytes, hbyte, Nat.shiftLeft_eq, Nat.mul_comm k,
      Nat.pow_mul, Nat.mod_pow_succ, Nat.mul_comm]

end Lib
