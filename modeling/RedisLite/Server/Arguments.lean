import RedisLite.Server.Commands
import Mathlib.Data.List.TakeWhile

/-!
# Integer arguments

What `str2int` accepts, as a grammar: `Numeral` is the text of a decimal integer in
the form that `strtoll` reads.  `str2int` judges an argument only by where `strtoll`
stopped, so it also accepts the empty string, and a numeral beyond the range of
`int64_t` as the nearest end of the range.
-/

namespace RedisLite

open Lib

/-- The sign of a numeral. -/
inductive Sign where
  | none
  | plus
  | minus
  deriving DecidableEq, Repr

namespace Sign

/-- The bytes of a sign. -/
def text : Sign → Bytes
  | none => []
  | plus => [43]
  | minus => [45]

/-- Give a number the sign. -/
def apply : Sign → Int → Int
  | minus, value => -value
  | _, value => value

end Sign

/-- A decimal integer in words of the C library: white space, a sign and digits. -/
structure Numeral where
  blank : Bytes
  sign : Sign
  digits : Bytes
  isBlank : ∀ byte ∈ blank, isSpace byte = true
  isDecimal : ∀ digit ∈ digits, isDigit digit = true
  nonempty : digits ≠ []

namespace Numeral

/-- The bytes of a numeral. -/
def text (numeral : Numeral) : Bytes := numeral.blank ++ (numeral.sign.text ++ numeral.digits)

/-- The integer that a numeral denotes. -/
def value (numeral : Numeral) : Int := numeral.sign.apply (digitsValue numeral.digits)

end Numeral

/-- The values of `int64_t`. -/
def InInt64 (value : Int) : Prop := -2 ^ 63 ≤ value ∧ value < 2 ^ 63

theorem clampInt64_eq {value : Int} (inside : InInt64 value) : clampInt64 value = value := by
  unfold InInt64 at inside
  unfold clampInt64
  omega

/-- The string is the text of an `int64_t`. -/
def SpellsInt64 (s : Bytes) (out : Int) : Prop :=
  ∃ numeral : Numeral, numeral.text = s ∧ numeral.value = out ∧ InInt64 out

/-! ## What strtoll reads -/

theorem isDigit_toNat {byte : UInt8} : isDigit byte = true ↔ 48 ≤ byte.toNat ∧ byte.toNat ≤ 57 := by
  simp [isDigit, UInt8.le_iff_toNat_le]

theorem isSpace_toNat {byte : UInt8} :
    isSpace byte = true ↔ byte.toNat = 32 ∨ (9 ≤ byte.toNat ∧ byte.toNat ≤ 13) := by
  simp [isSpace, UInt8.le_iff_toNat_le, ← UInt8.toNat_inj]

namespace Numeral

variable (numeral : Numeral)

theorem text_ne_nil : numeral.text ≠ [] := by
  simp [text, numeral.nonempty]

theorem value_eq : numeral.value =
    if decide (numeral.sign = .minus) then -(digitsValue numeral.digits : Int)
    else digitsValue numeral.digits := by
  unfold value
  cases numeral.sign <;> rfl

/-- What follows the white space starts with a sign or a digit. -/
theorem head_cases : ∃ byte rest, numeral.sign.text ++ numeral.digits = byte :: rest ∧
    isSpace byte = false ∧ byte ≠ 0 := by
  obtain ⟨digit, digits, digitsEq⟩ := List.exists_cons_of_ne_nil numeral.nonempty
  cases numeral.sign with
  | plus => exact ⟨43, numeral.digits, rfl, by decide, by decide⟩
  | minus => exact ⟨45, numeral.digits, rfl, by decide, by decide⟩
  | none =>
      have isDecimal := isDigit_toNat.mp
        (numeral.isDecimal digit (by rw [digitsEq]; exact List.mem_cons_self))
      refine ⟨digit, digits, digitsEq, ?_, ?_⟩
      · rw [← Bool.not_eq_true, isSpace_toNat]
        omega
      · rintro rfl
        simp at isDecimal

theorem takeWhile_text : numeral.text.takeWhile isSpace = numeral.blank := by
  obtain ⟨byte, rest, tail, notSpace, -⟩ := numeral.head_cases
  rw [text, List.takeWhile_append_of_pos numeral.isBlank, tail,
    List.takeWhile_cons_of_neg (by simp [notSpace]), List.append_nil]

theorem signOf_tail : signOf (numeral.sign.text ++ numeral.digits) =
    (decide (numeral.sign = .minus), numeral.sign.text.length) := by
  obtain ⟨digit, digits, digitsEq⟩ := List.exists_cons_of_ne_nil numeral.nonempty
  cases signEq : numeral.sign with
  | plus => rfl
  | minus => rfl
  | none =>
      have isDecimal := isDigit_toNat.mp
        (numeral.isDecimal digit (by rw [digitsEq]; exact List.mem_cons_self))
      have notMinus : digit ≠ 45 := by
        rintro rfl
        simp at isDecimal
      have notPlus : digit ≠ 43 := by
        rintro rfl
        simp at isDecimal
      simp only [Sign.text, List.nil_append, digitsEq]
      unfold signOf
      split <;> simp_all

theorem strtoll_text : strtoll numeral.text = (clampInt64 numeral.value, numeral.text.length) := by
  have digits : numeral.digits.takeWhile isDigit = numeral.digits :=
    List.takeWhile_eq_self_iff.mpr numeral.isDecimal
  have tail : numeral.text.drop numeral.blank.length = numeral.sign.text ++ numeral.digits :=
    List.drop_left
  have notEmpty : numeral.digits.isEmpty = false := by simp [numeral.nonempty]
  simp only [strtoll, numeral.takeWhile_text, tail, numeral.signOf_tail, List.drop_left, digits,
    notEmpty, Bool.false_eq_true, if_false, Prod.mk.injEq]
  exact ⟨by rw [value_eq], by simp [text, Nat.add_assoc]⟩

theorem cStr_text : cStr numeral.text = numeral.text := by
  refine List.takeWhile_eq_self_iff.mpr ?_
  intro byte member
  have notZero : byte ≠ 0 := by
    rcases List.mem_append.mp member with inBlank | inTail
    · have isBlank := isSpace_toNat.mp (numeral.isBlank byte inBlank)
      rintro rfl
      simp at isBlank
    · rcases List.mem_append.mp inTail with inSign | inDigits
      · rintro rfl
        cases signEq : numeral.sign <;> simp [signEq, Sign.text] at inSign
      · have isDecimal := isDigit_toNat.mp (numeral.isDecimal byte inDigits)
        rintro rfl
        simp at isDecimal
  simpa using notZero

/-- A text is read in one way only. -/
theorem value_unique {other : Numeral} (same : numeral.text = other.text) :
    numeral.value = other.value := by
  have blank : numeral.blank = other.blank := by
    rw [← numeral.takeWhile_text, same, other.takeWhile_text]
  have tail : numeral.sign.text ++ numeral.digits = other.sign.text ++ other.digits := by
    rw [text, text, blank] at same
    exact List.append_cancel_left same
  have signs := numeral.signOf_tail
  rw [tail, other.signOf_tail, Prod.mk.injEq] at signs
  have digits : numeral.digits = other.digits := by
    have dropped := congrArg (List.drop numeral.sign.text.length) tail
    rw [List.drop_left, ← signs.2, List.drop_left] at dropped
    exact dropped
  rw [value_eq, value_eq, digits, signs.1]

end Numeral

theorem exists_sign (s : Bytes) : ∃ (sign : Sign) (tail : Bytes), s = sign.text ++ tail ∧
    signOf s = (decide (sign = .minus), sign.text.length) := by
  unfold signOf
  split
  · rename_i tail
    exact ⟨.minus, tail, rfl, rfl⟩
  · rename_i tail
    exact ⟨.plus, tail, rfl, rfl⟩
  · exact ⟨.none, s, rfl, rfl⟩

/-- `strtoll` reads the longest numeral at the start of a string, if there is one. -/
theorem strtoll_cases (s : Bytes) : strtoll s = (0, 0) ∨
    ∃ (numeral : Numeral) (rest : Bytes), numeral.text ++ rest = s ∧
      strtoll s = (clampInt64 numeral.value, numeral.text.length) := by
  obtain ⟨sign, tail, tailEq, signEq⟩ := exists_sign (s.dropWhile isSpace)
  have split : s.takeWhile isSpace ++ (sign.text ++ tail) = s := by
    rw [← tailEq]
    exact List.takeWhile_append_dropWhile
  have dropped : s.drop (s.takeWhile isSpace).length = sign.text ++ tail := by
    have equal := congrArg (List.drop (s.takeWhile isSpace).length) split
    rw [List.drop_left] at equal
    exact equal.symm
  rw [tailEq] at signEq
  by_cases empty : (tail.takeWhile isDigit).isEmpty
  · simp only [strtoll, dropped, signEq, List.drop_left, if_pos empty]
    exact .inl trivial
  · let numeral : Numeral := ⟨s.takeWhile isSpace, sign, tail.takeWhile isDigit,
      fun _ => List.mem_takeWhile_imp, fun _ => List.mem_takeWhile_imp,
      fun isNil => empty (by rw [isNil]; rfl)⟩
    refine .inr ⟨numeral, tail.dropWhile isDigit, ?_, ?_⟩
    · rw [Numeral.text, List.append_assoc, List.append_assoc, List.takeWhile_append_dropWhile]
      exact split
    · simp only [strtoll, dropped, signEq, List.drop_left, if_neg empty, numeral.value_eq]
      simp [numeral, Numeral.text, Nat.add_assoc]

/-- Where `strtoll` stops, and what it has read when that is the end of the string. -/
theorem strtoll_stops (s : Bytes) : (strtoll s).2 ≤ s.length ∧
    ((strtoll s).2 = s.length → s = [] ∨ ∃ numeral : Numeral, numeral.text = s) := by
  rcases strtoll_cases s with nothing | ⟨numeral, rest, split, read⟩
  · rw [nothing]
    exact ⟨Nat.zero_le _, fun atEnd => .inl (List.length_eq_zero_iff.mp atEnd.symm)⟩
  · have length := congrArg List.length split
    rw [List.length_append] at length
    rw [read]
    refine ⟨by simp only; omega, fun atEnd => .inr ⟨numeral, ?_⟩⟩
    have noRest : rest = [] := List.length_eq_zero_iff.mp (by simp only at atEnd; omega)
    rw [← split, noRest, List.append_nil]

theorem cStr_eq_of_length {s : Bytes} (whole : s.length ≤ (cStr s).length) : cStr s = s :=
  (List.takeWhile_prefix _).eq_of_length_le whole

/-- What `str2int` accepts: the empty string, and every numeral, with its value clamped. -/
theorem str2int_eq_some {s : Bytes} {out : Int} :
    str2int s = some out ↔ (s = [] ∧ out = 0) ∨
      ∃ numeral : Numeral, numeral.text = s ∧ clampInt64 numeral.value = out := by
  constructor
  · intro parsed
    simp only [str2int] at parsed
    split at parsed
    · rename_i whole
      have shown : cStr s = s := cStr_eq_of_length (whole ▸ (strtoll_stops (cStr s)).1)
      rw [shown] at parsed whole
      rcases (strtoll_stops s).2 whole with empty | ⟨numeral, textEq⟩
      · rw [empty] at parsed
        exact .inl ⟨empty, (Option.some.inj parsed).symm⟩
      · rw [← textEq, numeral.strtoll_text] at parsed
        exact .inr ⟨numeral, textEq, Option.some.inj parsed⟩
    · cases parsed
  · rintro (⟨rfl, rfl⟩ | ⟨numeral, rfl, rfl⟩)
    · rfl
    · simp [str2int, numeral.cStr_text, numeral.strtoll_text]

/-- On a numeral `str2int` is exact as long as the value is an `int64_t`. -/
theorem str2int_exact {s : Bytes} (nonempty : s ≠ [])
    (inside : ∀ numeral : Numeral, numeral.text = s → InInt64 numeral.value) (out : Int) :
    str2int s = some out ↔ SpellsInt64 s out := by
  rw [str2int_eq_some]
  constructor
  · rintro (⟨empty, -⟩ | ⟨numeral, textEq, valueEq⟩)
    · exact absurd empty nonempty
    · rw [clampInt64_eq (inside numeral textEq)] at valueEq
      exact ⟨numeral, textEq, valueEq, valueEq ▸ inside numeral textEq⟩
  · rintro ⟨numeral, textEq, valueEq, outInside⟩
    exact .inr ⟨numeral, textEq, by rw [valueEq, clampInt64_eq outInside]⟩

/-! ## The commands -/

section Requests

variable {D : Type} [Dbl D]

/-- The requests in which `s` stands for an integer. -/
inductive TakesInt (s : Bytes) : List Bytes → Prop where
  | ttl (key : Bytes) : TakesInt s [ascii "pexpire", key, s]
  | offset (key score name limit : Bytes) :
      TakesInt s [ascii "zquery", key, score, name, s, limit]
  | limit (key score name offset : Bytes) :
      TakesInt s [ascii "zquery", key, score, name, offset, s]

/-- The request is answered with `ERR_BAD_ARG`, and the database is left alone. -/
def Refuses (db : Db D) (cmd : List Bytes) (now : UInt64) : Prop :=
  ∀ out, ∃ text, doRequest db cmd now out = .ok (db, outErr out errBadArg text)

/-- The arguments are parsed before the database is used. -/
theorem refuses_of_none {s : Bytes} (invalid : str2int s = none) {cmd : List Bytes}
    (takes : TakesInt s cmd) (db : Db D) (now : UInt64) : Refuses db cmd now := by
  intro out
  cases takes with
  | ttl key =>
      have notSet : ascii "pexpire" ≠ ascii "set" := by decide
      have notZrem : ascii "pexpire" ≠ ascii "zrem" := by decide
      have notZscore : ascii "pexpire" ≠ ascii "zscore" := by decide
      refine ⟨ascii "expect int64", ?_⟩
      simp [doRequest, isCmd, doExpire, invalid, notSet, notZrem, notZscore]
  | offset key score name limit =>
      cases parsed : str2dbl D score with
      | none =>
          refine ⟨ascii "expect fp number", ?_⟩
          simp [doRequest, isCmd, doZquery, parsed]
      | some value =>
          refine ⟨ascii "expect int", ?_⟩
          simp [doRequest, isCmd, doZquery, parsed, invalid]
  | limit key score name offset =>
      cases parsed : str2dbl D score with
      | none =>
          refine ⟨ascii "expect fp number", ?_⟩
          simp [doRequest, isCmd, doZquery, parsed]
      | some value =>
          refine ⟨ascii "expect int", ?_⟩
          simp [doRequest, isCmd, doZquery, parsed, invalid]

variable (D) in
/-- `s` is handled as an integer argument should be: `str2int` accepts it exactly as
the `int64_t` it spells, and unless it spells one, every request that takes it as an
integer is refused. -/
structure HandledAsInt (s : Bytes) : Prop where
  parsed : ∀ out, str2int s = some out ↔ SpellsInt64 s out
  refused : (¬ ∃ out, SpellsInt64 s out) → ∀ cmd, TakesInt s cmd →
    ∀ (db : Db D) (now : UInt64), Refuses db cmd now

variable (D) in
/-- Every argument is handled as it should be, but for the empty string and the
numerals beyond the range of `int64_t`. -/
theorem handledAsInt_iff (s : Bytes) : HandledAsInt D s ↔
    s ≠ [] ∧ ∀ numeral : Numeral, numeral.text = s → InInt64 numeral.value := by
  constructor
  · intro handled
    constructor
    · intro empty
      have accepted := str2int_eq_some.mpr (.inl ⟨empty, rfl⟩)
      obtain ⟨numeral, textEq, -, -⟩ := (handled.parsed 0).mp accepted
      exact numeral.text_ne_nil (textEq.trans empty)
    · intro numeral textEq
      have accepted := str2int_eq_some.mpr (.inr ⟨numeral, textEq, rfl⟩)
      obtain ⟨other, otherText, valueEq, inside⟩ := (handled.parsed _).mp accepted
      rw [numeral.value_unique (textEq.trans otherText.symm), valueEq]
      exact inside
  · rintro ⟨nonempty, inside⟩
    have exact := str2int_exact nonempty inside
    refine ⟨exact, ?_⟩
    intro notInt cmd takes db now
    refine refuses_of_none ?_ takes db now
    rw [Option.eq_none_iff_forall_ne_some]
    intro out accepted
    exact notInt ⟨out, (exact out).mp accepted⟩

/-- The empty string spells no integer, but is accepted as 0: PEXPIRE with it gives a
key a deadline. -/
theorem empty_accepted_as_zero :
    ¬ HandledAsInt Nat [] ∧ str2int [] = some 0 ∧ (¬ ∃ out, SpellsInt64 [] out) ∧
      (do
        let (db, _) ← doRequest ({} : Db Nat) [ascii "set", ascii "k", ascii "v"] 0 []
        let (db, out) ← doRequest db [ascii "pexpire", ascii "k", []] 7 []
        return (out, db.timers.heap.map HeapItem.val) : Exec _) = .ok (outInt [] 1, [7]) := by
  have noInt : ¬ ∃ out, SpellsInt64 [] out := by
    rintro ⟨out, numeral, textEq, -⟩
    exact numeral.text_ne_nil textEq
  refine ⟨?_, rfl, noInt, rfl⟩
  intro handled
  exact noInt ⟨0, (handled.parsed 0).mp rfl⟩

end Requests

end RedisLite
