import RedisLite.Bytes
import RedisLite.Lib.Exec
import RedisLite.Lib.LittleEndian

/-!
# Serialized values

The tagged values of a response body, the functions of `server.cpp` that append
them to a buffer, and the framing of a response.
-/

namespace RedisLite

open Lib

variable {D : Type}

/-! ## Values -/

def tagNil : UInt8 := 0

/-- `TAG_ERR`: error code and message. -/
def tagErr : UInt8 := 1

def tagStr : UInt8 := 2

/-- `TAG_INT`: a 64-bit integer. -/
def tagInt : UInt8 := 3

def tagDbl : UInt8 := 4

def tagArr : UInt8 := 5

/-- A value of a response, over a type of doubles. -/
inductive Value (D : Type) where
  | nil
  | err (code : UInt32) (msg : Bytes)
  | str (bytes : Bytes)
  | int (val : Int64)
  | dbl (val : D)
  | arr (items : List (Value D))

mutual

/-- The bytes of a value. -/
def Value.encode (bits : D → UInt64) : Value D → Bytes
  | .nil => [tagNil]
  | .err code msg =>
      tagErr :: LittleEndian.encode 4 code.toNat ++ LittleEndian.encode 4 msg.length ++ msg
  | .str bytes => tagStr :: LittleEndian.encode 4 bytes.length ++ bytes
  | .int val => tagInt :: LittleEndian.encode 8 val.toUInt64.toNat
  | .dbl val => tagDbl :: LittleEndian.encode 8 (bits val).toNat
  | .arr items => tagArr :: LittleEndian.encode 4 items.length ++ Value.encodeAll bits items

/-- The bytes of consecutive values. -/
def Value.encodeAll (bits : D → UInt64) : List (Value D) → Bytes
  | [] => []
  | item :: items => item.encode bits ++ Value.encodeAll bits items

end

theorem Value.encodeAll_append (bits : D → UInt64) (front back : List (Value D)) :
    Value.encodeAll bits (front ++ back) =
      Value.encodeAll bits front ++ Value.encodeAll bits back := by
  induction front with
  | nil => rfl
  | cons item front ih => simp [Value.encodeAll, ih]

mutual

/-- Every length and count of the value fits its 32-bit field. -/
def Value.Bounded : Value D → Prop
  | .nil | .int _ | .dbl _ => True
  | .err _ msg => msg.length < 2 ^ 32
  | .str bytes => bytes.length < 2 ^ 32
  | .arr items => items.length < 2 ^ 32 ∧ Value.AllBounded items

/-- Every value of the list is bounded. -/
def Value.AllBounded : List (Value D) → Prop
  | [] => True
  | item :: items => item.Bounded ∧ Value.AllBounded items

end

theorem Value.encode_length_pos (bits : D → UInt64) (value : Value D) :
    0 < (value.encode bits).length := by
  cases value <;> simp [Value.encode]

theorem Value.length_le_encodeAll (bits : D → UInt64) (items : List (Value D)) :
    items.length ≤ (Value.encodeAll bits items).length := by
  induction items with
  | nil => simp
  | cons item items ih =>
      have positive := Value.encode_length_pos bits item
      simp only [List.length_cons, Value.encodeAll, List.length_append]
      omega

mutual

/-- A value whose encoding is shorter than `2 ^ 32` bytes is bounded. -/
theorem Value.bounded_of_length (bits : D → UInt64) : ∀ value : Value D,
    (value.encode bits).length < 2 ^ 32 → value.Bounded
  | .nil, _ | .int _, _ | .dbl _, _ => trivial
  | .err _ msg, small | .str msg, small => by
      simp only [Value.encode, List.length_append, List.length_cons] at small
      simp only [Value.Bounded]
      omega
  | .arr items, small => by
      have count := Value.length_le_encodeAll bits items
      simp only [Value.encode, List.length_append, List.length_cons] at small
      exact ⟨by omega, Value.allBounded_of_length bits items (by omega)⟩

theorem Value.allBounded_of_length (bits : D → UInt64) : ∀ items : List (Value D),
    (Value.encodeAll bits items).length < 2 ^ 32 → Value.AllBounded items
  | [], _ => trivial
  | item :: items, small => by
      simp only [Value.encodeAll, List.length_append] at small
      exact ⟨Value.bounded_of_length bits item (by omega),
        Value.allBounded_of_length bits items (by omega)⟩

end

/-! ## Buffers -/

def bufAppendU8 (buf : Bytes) (data : UInt8) : Bytes := buf ++ [data]

def bufAppendU32 (buf : Bytes) (data : UInt32) : Bytes := buf ++ LittleEndian.encode 4 data.toNat

def bufAppendI64 (buf : Bytes) (data : Int64) : Bytes :=
  buf ++ LittleEndian.encode 8 data.toUInt64.toNat

/-- `buf_append_dbl`; `bits` is the object representation of a double. -/
def bufAppendDbl (bits : D → UInt64) (buf : Bytes) (data : D) : Bytes :=
  buf ++ LittleEndian.encode 8 (bits data).toNat

/-- `memcpy(&buf[pos], bytes, size)`. -/
def bufPatch (buf : Bytes) (pos : Nat) (bytes : Bytes) : Bytes :=
  buf.take pos ++ bytes ++ buf.drop (pos + bytes.length)

def outNil (out : Bytes) : Bytes := bufAppendU8 out tagNil

def outStr (out : Bytes) (s : Bytes) : Bytes :=
  bufAppendU32 (bufAppendU8 out tagStr) (UInt32.ofNat s.length) ++ s

def outInt (out : Bytes) (val : Int64) : Bytes := bufAppendI64 (bufAppendU8 out tagInt) val

def outDbl (bits : D → UInt64) (out : Bytes) (val : D) : Bytes :=
  bufAppendDbl bits (bufAppendU8 out tagDbl) val

def outErr (out : Bytes) (code : UInt32) (msg : Bytes) : Bytes :=
  bufAppendU32 (bufAppendU32 (bufAppendU8 out tagErr) code) (UInt32.ofNat msg.length) ++ msg

def outArr (out : Bytes) (n : UInt32) : Bytes := bufAppendU32 (bufAppendU8 out tagArr) n

/-- `out_begin_arr`; the second result is the `ctx` argument of `out_end_arr`. -/
def outBeginArr (out : Bytes) : Bytes × Nat :=
  let out := bufAppendU32 (bufAppendU8 out tagArr) 0
  (out, out.length - 4)

def outEndArr (out : Bytes) (ctx : Nat) (n : UInt32) : Exec Bytes := do
  Exec.assert (decide (out[ctx - 1]? = some tagArr))
  return bufPatch out ctx (LittleEndian.encode 4 n.toNat)

section Encode

variable (bits : D → UInt64) (out : Bytes)

@[simp] theorem encode_mod_32 (n : Nat) :
    LittleEndian.encode 4 (n % 4294967296) = LittleEndian.encode 4 n :=
  LittleEndian.encode_mod 4 n

theorem outNil_eq : outNil out = out ++ (Value.nil : Value D).encode bits := by
  simp [outNil, bufAppendU8, Value.encode]

theorem outStr_eq (s : Bytes) : outStr out s = out ++ (Value.str s : Value D).encode bits := by
  simp [outStr, bufAppendU8, bufAppendU32, Value.encode]

theorem outInt_eq (val : Int64) :
    outInt out val = out ++ (Value.int val : Value D).encode bits := by
  simp [outInt, bufAppendU8, bufAppendI64, Value.encode]

theorem outDbl_eq (val : D) : outDbl bits out val = out ++ (Value.dbl val).encode bits := by
  simp [outDbl, bufAppendU8, bufAppendDbl, Value.encode]

theorem outErr_eq (code : UInt32) (msg : Bytes) :
    outErr out code msg = out ++ (Value.err code msg : Value D).encode bits := by
  simp [outErr, bufAppendU8, bufAppendU32, Value.encode]

theorem outArr_eq (items : List (Value D)) :
    outArr out (UInt32.ofNat items.length) ++ Value.encodeAll bits items =
      out ++ (Value.arr items).encode bits := by
  simp [outArr, bufAppendU8, bufAppendU32, Value.encode]

/-- An array written with its count patched in at the end. -/
theorem outEndArr_eq (items : List (Value D)) :
    outEndArr ((outBeginArr out).1 ++ Value.encodeAll bits items) (outBeginArr out).2
      (UInt32.ofNat items.length) = .ok (out ++ (Value.arr items).encode bits) := by
  have begin : (outBeginArr out).1 = (out ++ [tagArr]) ++ LittleEndian.encode 4 0 := rfl
  have ctx : (outBeginArr out).2 = (out ++ [tagArr]).length := by
    simp [outBeginArr, bufAppendU8, bufAppendU32]
  have tag : ((outBeginArr out).1 ++ Value.encodeAll bits items)[(outBeginArr out).2 - 1]? =
      some tagArr := by
    rw [begin, ctx]
    simp
  rw [outEndArr, Exec.assert_of tag, Exec.ok_bind, Exec.pure_eq_ok, begin, ctx]
  congr 1
  simp only [bufPatch, List.append_assoc, LittleEndian.length_encode, Value.encode]
  rw [← List.append_assoc out, List.take_left, List.drop_append,
    List.drop_of_length_le (by simp)]
  simp

end Encode

/-! ## Frames -/

/-- `k_max_msg` of the server. -/
def kMaxMsg : Nat := 32 * 2 ^ 20

/-- A body behind its header. -/
def frame (body : Bytes) : Bytes := LittleEndian.encode 4 body.length ++ body

/-- `ERR_UNKNOWN`: unknown command. -/
def errUnknown : UInt32 := 1

/-- `ERR_TOO_BIG`: response too big. -/
def errTooBig : UInt32 := 2

/-- `ERR_BAD_TYP`: unexpected value type. -/
def errBadTyp : UInt32 := 3

/-- `ERR_BAD_ARG`: bad arguments. -/
def errBadArg : UInt32 := 4

/-- `response_begin`; the second result is the header position. -/
def responseBegin (out : Bytes) : Bytes × Nat := (bufAppendU32 out 0, out.length)

def responseSize (out : Bytes) (header : Nat) : Nat := out.length - header - 4

/-- The part of `response_end` that replaces an oversized body. -/
def responseLimit (out : Bytes) (header : Nat) : Bytes :=
  if responseSize out header > kMaxMsg then
    outErr (out.take (header + 4)) errTooBig (ascii "response is too big.")
  else out

def responseEnd (out : Bytes) (header : Nat) : Bytes :=
  let out := responseLimit out header
  bufPatch out header (LittleEndian.encode 4 (UInt32.ofNat (responseSize out header)).toNat)

end RedisLite
