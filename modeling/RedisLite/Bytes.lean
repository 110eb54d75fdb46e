import Mathlib.Algebra.Group.Int.Defs
import Mathlib.Algebra.Group.Nat.Defs
import Mathlib.Data.List.Lex
import Mathlib.Data.Prod.Lex
import Mathlib.Order.Lattice

/-!
# Byte strings

A `std::string` or a counted buffer is the list of its bytes.  Byte strings are
ordered lexicographically, bytes as unsigned numbers and a proper prefix first;
`memcmp` on the common length followed by the comparison of lengths decides that
order.
-/

namespace RedisLite

/-- The contents of a string or a buffer. -/
abbrev Bytes := List UInt8

/-- The bytes of a text of ASCII characters. -/
def ascii (text : String) : Bytes := text.toList.map fun char => UInt8.ofNat char.toNat

/-- A string read through `c_str()`: the bytes before the first NUL. -/
def cStr (s : Bytes) : Bytes := s.takeWhile fun byte => byte != 0

instance instLinearOrderUInt8 : LinearOrder UInt8 where
  le_refl := fun _ => UInt8.le_refl _
  le_trans := fun _ _ _ => UInt8.le_trans
  le_antisymm := fun _ _ => UInt8.le_antisymm
  le_total := UInt8.le_total
  lt_iff_le_not_ge := by
    intro lhs rhs
    rw [UInt8.lt_iff_toNat_lt, UInt8.le_iff_toNat_le, UInt8.le_iff_toNat_le]
    omega
  toDecidableLE := inferInstance
  toDecidableLT := inferInstance

def strHash (data : Bytes) : UInt64 :=
  (data.foldl (fun hash byte => (hash + byte.toUInt32) * 0x01000193) (0x811C9DC5 : UInt32)).toUInt64

/-- `memcmp` on the first `count` bytes. -/
def memcmp : Bytes → Bytes → Nat → Int
  | left :: lhs, right :: rhs, count + 1 =>
      if left = right then memcmp lhs rhs count else if left < right then -1 else 1
  | _, _, _ => 0

/-- `memcmp` on strings of one length tests equality. -/
theorem memcmp_eq_zero {lhs rhs : Bytes} (length : lhs.length = rhs.length) :
    memcmp lhs rhs lhs.length = 0 ↔ lhs = rhs := by
  induction lhs generalizing rhs with
  | nil =>
      obtain rfl := List.length_eq_zero_iff.mp length.symm
      simp [memcmp]
  | cons left lhs ih =>
      cases rhs with
      | nil => cases length
      | cons right rhs =>
          simp only [List.length_cons, Nat.add_right_cancel_iff] at length
          simp only [memcmp, List.length_cons, List.cons.injEq]
          by_cases same : left = right
          · simp [same, ih length]
          · rw [if_neg same]
            split <;> simp [same]

/-- The comparison of the common length, then of the lengths. -/
def bytesLess (lhs rhs : Bytes) : Bool :=
  let rv := memcmp lhs rhs (min lhs.length rhs.length)
  if rv ≠ 0 then decide (rv < 0) else decide (lhs.length < rhs.length)

/-- It decides the lexicographic order. -/
theorem bytesLess_eq (lhs rhs : Bytes) : bytesLess lhs rhs = decide (lhs < rhs) := by
  induction lhs generalizing rhs with
  | nil =>
      cases rhs with
      | nil => simp [bytesLess, memcmp]
      | cons right rhs => simp [bytesLess, memcmp]
  | cons left lhs ih =>
      cases rhs with
      | nil => simp [bytesLess, memcmp]
      | cons right rhs =>
          have rest := ih rhs
          simp only [bytesLess] at rest
          simp only [bytesLess, memcmp, List.length_cons, Nat.add_min_add_right,
            Nat.add_lt_add_iff_right, List.cons_lt_cons_iff]
          by_cases same : left = right
          · simp [same, rest]
          · rw [if_neg same]
            by_cases less : left < right <;> simp [less, same]

end RedisLite
