import RedisLite.Protocol.Value

/-!
# The client

`print_response` and `read_res` of `client.cpp`.  A buffer is the list of its bytes,
and reading past its end faults.  Instead of the printed text, the functions return
the values they visit.
-/

namespace RedisLite.Client

open Lib

/-- `k_max_msg` of the client. -/
def kMaxMsg : Nat := 4096

/-- A line that `print_response` prints, given by the fields it decodes: of a string, `printf`
shows the bytes before the first NUL, and of a code from `2 ^ 31` on a negative number.  `bad`
is the message "bad response". -/
inductive Visit where
  | nil
  | err (code : UInt32) (msg : Bytes)
  | str (bytes : Bytes)
  | int (val : Int64)
  | dbl (bits : UInt64)
  | arr (len : UInt32)
  | arrEnd
  | bad
  deriving DecidableEq, Repr

/-- The conversion to `int32_t`. -/
def toInt32 (n : Nat) : Int := Int.bmod n (2 ^ 32)

/-- `memcpy(&out, &data[pos], count)`. -/
def load (data : Bytes) (pos count : Nat) : Exec Nat :=
  if pos + count ≤ data.length then .ok (LittleEndian.decode ((data.drop pos).take count))
  else .error .undefined

/-- The buffer from `&data[pos]` on. -/
def restOf (data : Bytes) (pos : Nat) : Exec Bytes :=
  if pos ≤ data.length then .ok (data.drop pos) else .error .undefined

/-- What `printf` prints for `%.*s` with the arguments `len` and `arg`.  It stops at a
NUL or at the precision; the precision is an `int`, and a negative one is as if omitted. -/
def printfStr (len : UInt32) (arg : Bytes) : Exec Bytes :=
  let text := cStr arg
  if len.toInt32 < 0 then
    if text.length < arg.length then .ok text else .error .undefined
  else
    if text.length < arg.length ∨ len.toNat ≤ arg.length then .ok (text.take len.toNat)
    else .error .undefined

/-- The result of a rejected response. -/
def badResponse : Int × List Visit := (-1, [.bad])

/-- The case `TAG_ERR` of `print_response`. -/
def printErr (data : Bytes) : Exec (Int × List Visit) :=
  if data.length < 1 + 8 then .ok badResponse
  else do
    let code := UInt32.ofNat (← load data 1 4)
    let len := UInt32.ofNat (← load data (1 + 4) 4)
    if data.length < (1 + 8 + len).toNat then return badResponse
    else
      let arg ← restOf data (1 + 8)
      let _ ← printfStr len arg
      return (toInt32 (1 + 8 + len).toNat, [.err code (arg.take len.toNat)])

/-- The case `TAG_STR` of `print_response`. -/
def printStr (data : Bytes) : Exec (Int × List Visit) :=
  if data.length < 1 + 4 then .ok badResponse
  else do
    let len := UInt32.ofNat (← load data 1 4)
    if data.length < (1 + 4 + len).toNat then return badResponse
    else
      let arg ← restOf data (1 + 4)
      let _ ← printfStr len arg
      return (toInt32 (1 + 4 + len).toNat, [.str (arg.take len.toNat)])

/-- The case `TAG_INT` of `print_response`. -/
def printInt (data : Bytes) : Exec (Int × List Visit) :=
  if data.length < 1 + 8 then .ok badResponse
  else do
    let val := (UInt64.ofNat (← load data 1 8)).toInt64
    return (1 + 8, [.int val])

/-- The case `TAG_DBL` of `print_response`. -/
def printDbl (data : Bytes) : Exec (Int × List Visit) :=
  if data.length < 1 + 8 then .ok badResponse
  else do
    let val := UInt64.ofNat (← load data 1 8)
    return (1 + 8, [.dbl val])

/-- One turn of the loop over the items of an array, with the variables `i` and
`arr_bytes` and the lines so far. -/
def printArrTurn (print : Bytes → Exec (Int × List Visit)) (data : Bytes) (len : UInt32) :
    Nat × Nat × List Visit → Exec (Step (Nat × Nat × List Visit) (Int × List Visit))
  | (i, arrBytes, visits) =>
      if i < len.toNat then do
        let (rv, more) ← print (← restOf data arrBytes)
        if rv < 0 then return .done (rv, visits ++ more)
        else return .next (i + 1, arrBytes + rv.toNat, visits ++ more)
      else .ok (.done (toInt32 arrBytes, visits ++ [.arrEnd]))

/-- The case `TAG_ARR` of `print_response`, over the recursive call. -/
def printArr (print : Bytes → Exec (Int × List Visit)) (data : Bytes) :
    Exec (Int × List Visit) :=
  if data.length < 1 + 4 then .ok badResponse
  else do
    let len := UInt32.ofNat (← load data 1 4)
    loop (printArrTurn print data len) (len.toNat + 1) (0, 1 + 4, [.arr len])

/-- `print_response`; `depth` bounds the recursion. -/
def printResponse : Nat → Bytes → Exec (Int × List Visit)
  | 0, _ => .error .fuel
  | depth + 1, data =>
      match data[0]? with
      | none => .ok badResponse
      | some tag =>
          if tag = tagNil then .ok (1, [.nil])
          else if tag = tagErr then printErr data
          else if tag = tagStr then printStr data
          else if tag = tagInt then printInt data
          else if tag = tagDbl then printDbl data
          else if tag = tagArr then printArr (printResponse depth) data
          else .ok badResponse

/-- `read_full`: the bytes read and the rest of the stream, or -1 when it ends early. -/
def readFull (stream : Bytes) (n : Nat) : Option (Bytes × Bytes) :=
  if n ≤ stream.length then some (stream.take n, stream.drop n) else none

/-- `read_res` on the bytes that the server sends before it closes the stream. -/
def readRes (stream : Bytes) : Exec (Int × List Visit) :=
  match readFull stream 4 with
  | none => .ok (-1, [])
  | some (header, stream) =>
      let len := LittleEndian.decode header
      if len > kMaxMsg then .ok (-1, [])
      else
        match readFull stream len with
        | none => .ok (-1, [])
        | some (body, _) => do
            let (rv, visits) ← printResponse (len + 1) body
            if rv > 0 ∧ rv ≠ len then return (-1, visits ++ [.bad]) else return (rv, visits)

end RedisLite.Client
