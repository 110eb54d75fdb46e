import Mathlib.Algebra.Group.Nat.Defs
import Mathlib.Tactic.Common

/-!
# Little-endian numbers

The bytes of a number, least significant first, at a fixed width; a wider number
is truncated.
-/

namespace Lib.LittleEndian

/-- The `count` low bytes of a number. -/
def encode : Nat → Nat → List UInt8
  | 0, _ => []
  | count + 1, number => UInt8.ofNat number :: encode count (number / 256)

/-- The number that bytes spell. -/
def decode : List UInt8 → Nat
  | [] => 0
  | byte :: rest => byte.toNat + 256 * decode rest

@[simp] theorem length_encode (count number : Nat) : (encode count number).length = count := by
  induction count generalizing number with
  | zero => rfl
  | succ count ih => simp [encode, ih]

theorem decode_encode (count number : Nat) :
    decode (encode count number) = number % 256 ^ count := by
  induction count generalizing number with
  | zero => simp [encode, decode, Nat.mod_one]
  | succ count ih =>
      have low : (UInt8.ofNat number).toNat = number % 256 := by simp
      rw [encode, decode, ih, low, Nat.pow_succ', Nat.mod_mul]

theorem encode_decode (bytes : List UInt8) : encode bytes.length (decode bytes) = bytes := by
  induction bytes with
  | nil => rfl
  | cons byte rest ih =>
      have below := byte.toNat_lt
      have low : UInt8.ofNat (byte.toNat + 256 * decode rest) = byte := by
        apply UInt8.toNat_inj.mp
        simp only [UInt8.toNat_ofNat']
        omega
      have high : (byte.toNat + 256 * decode rest) / 256 = decode rest := by omega
      rw [List.length_cons, decode, encode, low, high, ih]

theorem encode_mod (count number : Nat) :
    encode count (number % 256 ^ count) = encode count number := by
  have bytes := encode_decode (encode count number)
  rwa [length_encode, decode_encode] at bytes

theorem decode_lt (bytes : List UInt8) : decode bytes < 256 ^ bytes.length := by
  induction bytes with
  | nil => simp [decode]
  | cons byte rest ih =>
      have below := byte.toNat_lt
      rw [decode, List.length_cons, Nat.pow_succ]
      omega

theorem decode_encode_of_lt {count number : Nat} (below : number < 256 ^ count) :
    decode (encode count number) = number := by
  rw [decode_encode, Nat.mod_eq_of_lt below]

theorem eq_of_encode {count left right : Nat} (leftBelow : left < 256 ^ count)
    (rightBelow : right < 256 ^ count) (same : encode count left = encode count right) :
    left = right := by
  rw [← decode_encode_of_lt leftBelow, same, decode_encode_of_lt rightBelow]

/-- Enough bytes begin with a number. -/
theorem exists_append {bytes : List UInt8} {count : Nat} (enough : count ≤ bytes.length) :
    ∃ number rest, number < 256 ^ count ∧ bytes = encode count number ++ rest := by
  have length : (bytes.take count).length = count := by
    rw [List.length_take]
    omega
  refine ⟨decode (bytes.take count), bytes.drop count, ?_, ?_⟩
  · have below := decode_lt (bytes.take count)
    rwa [length] at below
  · have bytesEq := encode_decode (bytes.take count)
    rw [length] at bytesEq
    rw [bytesEq, List.take_append_drop]

end Lib.LittleEndian
