import Mathlib.Order.Nat
import RedisLite.Bytes

/-!
# Number arguments

`str2int` and `str2dbl`, the number parsers of the commands, over the C library
functions they call.  `strtoll` follows its documented behaviour.  Doubles are a
linearly ordered type, as non-NaN doubles are under `==` and `<`; what `strtod`
returns on a string and the object representation of a double come with the type.
-/

namespace RedisLite

def isSpace (byte : UInt8) : Bool := byte == 32 || (decide (9 ≤ byte) && decide (byte ≤ 13))

def isDigit (byte : UInt8) : Bool := decide (48 ≤ byte) && decide (byte ≤ 57)

/-- The sign of a number: whether it is a minus, and how many bytes it takes. -/
def signOf : Bytes → Bool × Nat
  | 45 :: _ => (true, 1)
  | 43 :: _ => (false, 1)
  | _ => (false, 0)

/-- The number that decimal digits spell. -/
def digitsValue (digits : Bytes) : Nat :=
  digits.foldl (fun value digit => value * 10 + (digit.toNat - 48)) 0

/-- Clamp to the range of `int64_t`. -/
def clampInt64 (value : Int) : Int := max (-2 ^ 63) (min (2 ^ 63 - 1) value)

/-- `strtoll(s, &endp, 10)`: the value, and how far `endp` is from the start. -/
def strtoll (s : Bytes) : Int × Nat :=
  let blank := s.takeWhile isSpace
  let rest := s.drop blank.length
  let (minus, signLen) := signOf rest
  let digits := (rest.drop signLen).takeWhile isDigit
  if digits.isEmpty then (0, 0)
  else
    let value : Int := digitsValue digits
    (clampInt64 (if minus then -value else value), blank.length + signLen + digits.length)

/-- `str2int`: the parsed `int64_t` when it returns true. -/
def str2int (s : Bytes) : Option Int :=
  let (out, endp) := strtoll (cStr s)
  if endp = s.length then some out else none

/-- What `str2int` returns is an `int64_t`. -/
theorem str2int_range {s : Bytes} {out : Int} (parsed : str2int s = some out) :
    -2 ^ 63 ≤ out ∧ out < 2 ^ 63 := by
  have range : ∀ text, -2 ^ 63 ≤ (strtoll text).1 ∧ (strtoll text).1 < 2 ^ 63 := by
    intro text
    simp only [strtoll, clampInt64]
    split
    · decide
    · simp only
      omega
  simp only [str2int] at parsed
  split at parsed
  · cases parsed
    exact range _
  · cases parsed

/-- The non-NaN doubles and the C library functions on them. -/
class Dbl (D : Type) extends LinearOrder D where
  /-- `strtod`: the value, `none` for a NaN, and how far `endp` is from the start. -/
  strtod : Bytes → Option D × Nat
  /-- The object representation. -/
  bits : D → UInt64

/-- The natural numbers, written in decimal digits with a fraction of zeros or without one.
Below `2 ^ 53` they are doubles. -/
instance : Dbl Nat where
  strtod s :=
    let digits := s.takeWhile isDigit
    let fraction := match s.drop digits.length with
      | 46 :: rest => (rest.takeWhile (· == 48)).length + 1
      | _ => 0
    (some (digitsValue digits), if digits.isEmpty then 0 else digits.length + fraction)
  bits n :=
    let exponent := n.log2
    if n = 0 then 0
    else UInt64.ofNat ((exponent + 1023) * 2 ^ 52 + (n - 2 ^ exponent) * 2 ^ (52 - exponent))

/-- `str2dbl`: the parsed double when it returns true, which excludes a NaN. -/
def str2dbl (D : Type) [Dbl D] (s : Bytes) : Option D :=
  let (out, endp) : Option D × Nat := Dbl.strtod (cStr s)
  if endp = s.length then out else none

end RedisLite
