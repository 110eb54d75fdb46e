import RedisLite.Client.Aphelo
import RedisLite.Server.Arguments

/-!
# Integers as the Python client writes them

`str(arg)` of an integer is a numeral in the grammar of `str2int`, so that the server reads
back every integer in the range of `int64_t`.
-/

namespace RedisLite

open Lib

/-- Decimal digits take one byte each. -/
theorem utf8_ofList {chars : List Char} (digits : ∀ char ∈ chars, char.isDigit = true) :
    Aphelo.utf8 (String.ofList chars) = chars.map fun char => char.val.toUInt8 := by
  simp only [Aphelo.utf8, String.toUTF8_eq_toByteArray, String.toByteArray_ofList]
  induction chars with
  | nil => rfl
  | cons char chars ih =>
      rw [List.forall_mem_cons] at digits
      have isDigit : 48 ≤ char.val ∧ char.val ≤ 57 := by
        simpa [Char.isDigit] using digits.1
      have one : char.utf8Size = 1 := by
        rw [Char.utf8Size_eq_one_iff]
        exact UInt32.le_trans isDigit.2 (by decide)
      rw [List.utf8Encode_cons, ByteArray.data_append, Array.toList_append, ih digits.2,
        List.utf8Encode_singleton, String.utf8EncodeChar_eq_singleton one]
      simp

theorem toNat_digit {char : Char} (digit : char.isDigit = true) :
    isDigit char.val.toUInt8 = true ∧ char.val.toUInt8.toNat = char.toNat := by
  have range : 48 ≤ char.val.toNat ∧ char.val.toNat ≤ 57 := by
    simpa [Char.isDigit, UInt32.le_iff_toNat_le] using digit
  have same : char.val.toUInt8.toNat = char.toNat := by
    rw [UInt32.toNat_toUInt8, Nat.mod_eq_of_lt (by omega)]
    rfl
  refine ⟨isDigit_toNat.mpr ?_, same⟩
  rw [same]
  exact range

theorem digitsValue_digits {chars : List Char} (digits : ∀ char ∈ chars, char.isDigit = true) :
    digitsValue (chars.map fun char => char.val.toUInt8) = Nat.ofDigitChars 10 chars 0 := by
  rw [digitsValue, Nat.ofDigitChars_eq_foldl, List.foldl_map]
  apply List.foldl_ext
  intro value char member
  rw [(toNat_digit (digits char member)).2, Nat.mul_comm]
  rfl

/-- The digits of a natural number. -/
def decimalDigits (n : Nat) : Bytes := (Nat.toDigits 10 n).map fun char => char.val.toUInt8

theorem isDigit_toDigits (n : Nat) : ∀ char ∈ Nat.toDigits 10 n, char.isDigit = true :=
  fun _ member => Nat.isDigit_of_mem_toDigits (by decide) (by decide) member

/-- The numeral that `str` writes. -/
def decimal (value : Int) : Numeral where
  blank := []
  sign := match value with
    | .ofNat _ => .none
    | .negSucc _ => .minus
  digits := decimalDigits value.natAbs
  isBlank := by simp
  isDecimal := by
    intro digit member
    obtain ⟨char, charMem, rfl⟩ := List.mem_map.mp member
    exact (toNat_digit (isDigit_toDigits _ char charMem)).1
  nonempty := by
    rw [decimalDigits, ne_eq, List.map_eq_nil_iff]
    exact Nat.toDigits_ne_nil

theorem utf8_toString_nat (n : Nat) : Aphelo.utf8 (toString n) = decimalDigits n := by
  rw [Nat.toString_eq_ofList_toDigits]
  exact utf8_ofList (isDigit_toDigits n)

theorem text_decimal (value : Int) : (decimal value).text = Aphelo.utf8 (toString value) := by
  cases value with
  | ofNat n => exact (utf8_toString_nat n).symm
  | negSucc n =>
      have minus : Aphelo.utf8 (toString (Int.negSucc n)) =
          Aphelo.utf8 "-" ++ Aphelo.utf8 (toString (n + 1)) := by
        show Aphelo.utf8 ("-" ++ toString (n + 1)) = _
        simp [Aphelo.utf8]
      rw [minus, utf8_toString_nat]
      rfl

theorem value_decimal (value : Int) : (decimal value).value = value := by
  have digits : digitsValue (decimalDigits value.natAbs) = value.natAbs := by
    rw [decimalDigits, digitsValue_digits (isDigit_toDigits _), Nat.ofDigitChars_ten_toDigits]
  rw [Numeral.value, show (decimal value).digits = decimalDigits value.natAbs from rfl, digits]
  cases value with
  | ofNat n => rfl
  | negSucc n => rfl

theorem str2int_toString {value : Int} (inside : InInt64 value) :
    str2int (Aphelo.utf8 (toString value)) = some value := by
  apply str2int_eq_some.mpr
  refine .inr ⟨decimal value, text_decimal value, ?_⟩
  rw [value_decimal, clampInt64_eq inside]

end RedisLite
