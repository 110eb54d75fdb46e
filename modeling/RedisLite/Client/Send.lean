import Mathlib.Algebra.Order.BigOperators.Group.List
import Mathlib.Algebra.Order.Ring.Nat
import RedisLite.Client.Core
import RedisLite.Protocol.Request

/-!
# The encoders of requests

Three encoders of the request format: `send_req` of `client.cpp`, `pack_command` of
`benchmark.cpp` and the packing in `ApheloClient._execute` of `aphelo.py`.
-/

namespace RedisLite

open Lib

/-- The loop that adds up the length of a body in 32-bit arithmetic; `send_req` and
`pack_command` have the same one. -/
def bodyLen (cmd : List Bytes) : UInt32 :=
  cmd.foldl (fun len str => len + UInt32.ofNat (4 + str.length)) 4

namespace Client

/-- `memcpy(&buf[pos], bytes, size)` into an array. -/
def copyTo (buf : Bytes) (pos : Nat) (bytes : Bytes) : Exec Bytes :=
  if pos + bytes.length ≤ buf.length then .ok (bufPatch buf pos bytes) else .error .undefined

/-- One turn of the loop of `write_all`, with the bytes left, the number of calls and the
bytes written.  `write call n` is what a call of `write` with `n` bytes returns. -/
def writeAllTurn (write : Nat → Nat → Int) :
    Bytes × Nat × Bytes → Exec (Step (Bytes × Nat × Bytes) (Option Bytes))
  | (buf, call, sent) =>
      if buf.length > 0 then do
        let rv := write call buf.length
        if rv ≤ 0 then return .done none
        else
          Exec.assert (decide (rv ≤ buf.length))
          return .next (buf.drop rv.toNat, call + 1, sent ++ buf.take rv.toNat)
      else .ok (.done (some sent))

/-- `write_all`: the bytes written when it returns 0, and `none` when it returns -1. -/
def writeAll (buf : Bytes) (write : Nat → Nat → Int) : Exec (Option Bytes) :=
  loop (writeAllTurn write) (buf.length + 1) (buf, 0, [])

/-- The loop of `send_req` that copies the strings. -/
def sendReqLoop : Bytes → Nat → List Bytes → Exec Bytes
  | wbuf, _, [] => .ok wbuf
  | wbuf, cur, str :: cmd => do
      let p := UInt32.ofNat str.length
      let wbuf ← copyTo wbuf cur (LittleEndian.encode 4 p.toNat)
      let wbuf ← copyTo wbuf (cur + 4) str
      sendReqLoop wbuf (cur + 4 + str.length) cmd

/-- `send_req`: the bytes written when it returns 0, and `none` when it returns -1.
`wbuf` is what the local array holds at first. -/
def sendReq (wbuf : Bytes) (cmd : List Bytes) (write : Nat → Nat → Int) :
    Exec (Option Bytes) :=
  let len := bodyLen cmd
  if len.toNat > kMaxMsg then .ok none
  else do
    let wbuf ← copyTo wbuf 0 (LittleEndian.encode 4 len.toNat)
    let n := UInt32.ofNat cmd.length
    let wbuf ← copyTo wbuf 4 (LittleEndian.encode 4 n.toNat)
    let wbuf ← sendReqLoop wbuf 8 cmd
    writeAll (wbuf.take (4 + len.toNat)) write

end Client

namespace Benchmark

def packCommand (buf : Bytes) (args : List Bytes) : Bytes :=
  let buf := buf ++ LittleEndian.encode 4 (bodyLen args).toNat
  let nstr := UInt32.ofNat args.length
  let buf := buf ++ LittleEndian.encode 4 nstr.toNat
  args.foldl (fun buf str =>
    let slen := UInt32.ofNat str.length
    buf ++ LittleEndian.encode 4 slen.toNat ++ str) buf

end Benchmark

namespace Aphelo

/-- `str(arg).encode('utf-8')`, for the text `str(arg)`. -/
def utf8 (text : String) : Bytes := text.toUTF8.data.toList

/-- `struct.pack('<I', n)`, which raises an error when the number does not fit. -/
def structPack (n : Nat) : Option Bytes :=
  if n < 2 ^ 32 then some (LittleEndian.encode 4 n) else none

/-- The loop of `_execute` that packs the strings. -/
def packStrings : Bytes → List Bytes → Option Bytes
  | msg, [] => some msg
  | msg, b :: rest => do packStrings (msg ++ (← structPack b.length) ++ b) rest

/-- The part of `ApheloClient._execute` that packs a command: what it passes to
`sendall`, and `none` when it raises an error. -/
def execute (args : List String) : Option Bytes := do
  let argsBytes := args.map utf8
  let bodyLen := 4 + (argsBytes.map fun b => 4 + b.length).sum
  let msg := (← structPack bodyLen) ++ (← structPack argsBytes.length)
  packStrings msg argsBytes

end Aphelo

/-! ## The length -/

theorem length_encodeArgs (cmd : List Bytes) :
    (encodeArgs cmd).length = (cmd.map fun str => 4 + str.length).sum := by
  induction cmd with
  | nil => rfl
  | cons str cmd ih => simp [encodeArgs_cons, ih]; omega

theorem length_requestBody (cmd : List Bytes) :
    (requestBody cmd).length = 4 + (encodeArgs cmd).length := by
  simp [requestBody]

/-- Without overflow the computed length is that of the body. -/
theorem bodyLen_eq {cmd : List Bytes} (small : (requestBody cmd).length < 2 ^ 32) :
    (bodyLen cmd).toNat = (requestBody cmd).length := by
  have sum : ∀ (cmd : List Bytes) (len : UInt32), len.toNat + (encodeArgs cmd).length < 2 ^ 32 →
      (cmd.foldl (fun len str => len + UInt32.ofNat (4 + str.length)) len).toNat =
        len.toNat + (encodeArgs cmd).length := by
    intro cmd
    induction cmd with
    | nil => simp [encodeArgs]
    | cons str cmd ih =>
        intro len below
        rw [encodeArgs_cons, List.length_append, List.length_append,
          LittleEndian.length_encode] at below ⊢
        have step : (len + UInt32.ofNat (4 + str.length)).toNat = len.toNat + (4 + str.length) := by
          rw [UInt32.toNat_add, UInt32.toNat_ofNat', Nat.mod_eq_of_lt (by omega),
            Nat.mod_eq_of_lt (by omega)]
        rw [List.foldl_cons, ih _ (by omega), step]
        omega
  rw [length_requestBody] at small ⊢
  exact sum cmd 4 small

/-- The count and the lengths of a short body fit their fields. -/
theorem lengths_lt {cmd : List Bytes} (small : (requestBody cmd).length < 2 ^ 32) :
    cmd.length < 2 ^ 32 ∧ ∀ str ∈ cmd, str.length < 2 ^ 32 := by
  rw [length_requestBody, length_encodeArgs] at small
  constructor
  · have count : cmd.length ≤ (cmd.map fun str => 4 + str.length).sum := by
      clear small
      induction cmd with
      | nil => simp
      | cons str cmd ih =>
          simp only [List.length_cons, List.map_cons, List.sum_cons]
          omega
    omega
  · intro str member
    have part : 4 + str.length ≤ (cmd.map fun str => 4 + str.length).sum :=
      List.single_le_sum (fun _ _ => Nat.zero_le _) _
        (List.mem_map_of_mem (f := fun str : Bytes => 4 + str.length) member)
    omega

namespace Client

/-! ## The client -/

theorem copyTo_eq {front old bytes : Bytes} (room : bytes.length ≤ old.length) :
    copyTo (front ++ old) front.length bytes =
      .ok (front ++ bytes ++ old.drop bytes.length) := by
  have inside : front.length + bytes.length ≤ (front ++ old).length := by
    rw [List.length_append]
    omega
  rw [copyTo, if_pos inside, bufPatch, List.take_left, List.drop_append,
    List.drop_eq_nil_of_le (Nat.le_add_right _ _), Nat.add_sub_cancel_left, List.nil_append]

/-- The loop writes the strings behind one another. -/
theorem sendReqLoop_eq {cmd : List Bytes} (lengths : ∀ str ∈ cmd, str.length < 2 ^ 32) :
    ∀ {front old : Bytes}, (encodeArgs cmd).length ≤ old.length →
      sendReqLoop (front ++ old) front.length cmd =
        .ok (front ++ encodeArgs cmd ++ old.drop (encodeArgs cmd).length) := by
  induction cmd with
  | nil =>
      intro front old _
      simp [sendReqLoop, encodeArgs]
  | cons str cmd ih =>
      intro front old room
      simp only [List.forall_mem_cons] at lengths
      have fits : (UInt32.ofNat str.length).toNat = str.length := by
        rw [UInt32.toNat_ofNat', Nat.mod_eq_of_lt lengths.1]
      rw [encodeArgs_cons] at room ⊢
      simp only [List.length_append, LittleEndian.length_encode] at room
      have header : copyTo (front ++ old) front.length (LittleEndian.encode 4 str.length) =
          .ok (front ++ LittleEndian.encode 4 str.length ++ old.drop 4) := by
        rw [copyTo_eq (by rw [LittleEndian.length_encode]; omega), LittleEndian.length_encode]
      have place : front.length + 4 =
          (front ++ LittleEndian.encode 4 str.length).length := by simp
      have content : copyTo (front ++ LittleEndian.encode 4 str.length ++ old.drop 4)
          (front.length + 4) str =
          .ok (front ++ LittleEndian.encode 4 str.length ++ str ++
            (old.drop 4).drop str.length) := by
        rw [place]
        exact copyTo_eq (by rw [List.length_drop]; omega)
      have next : front.length + 4 + str.length =
          (front ++ LittleEndian.encode 4 str.length ++ str).length := by simp; omega
      have others := @ih lengths.2 (front ++ LittleEndian.encode 4 str.length ++ str)
        ((old.drop 4).drop str.length) (by simp only [List.length_drop]; omega)
      simp only [sendReqLoop, fits, header, Exec.ok_bind, content]
      rw [next, others]
      simp only [List.append_assoc, List.length_append, LittleEndian.length_encode,
        List.drop_drop, Nat.add_assoc]

/-- A call of `write` accepts no more than it is given. -/
def Legal (write : Nat → Nat → Int) : Prop := ∀ call n, write call n ≤ n

/-- Some call of `write` fails or writes nothing. -/
def Fails (write : Nat → Nat → Int) : Prop := ∃ call n, 0 < n ∧ write call n ≤ 0

/-- `write_all` writes the whole buffer or fails. -/
theorem writeAll_spec {write : Nat → Nat → Int} (legal : Legal write) (buf : Bytes) :
    Exec.Returns (writeAll buf write) fun sent =>
      sent = none ∧ Fails write ∨ sent = some buf := by
  refine loop_returns (fun state : Bytes × Nat × Bytes => state.2.2 ++ state.1 = buf)
    (fun state => state.1.length) ?_ _ _ rfl (Nat.lt_succ_self _)
  rintro ⟨left, call, sent⟩ whole
  have whole : sent ++ left = buf := whole
  by_cases more : left.length > 0
  · simp only [writeAllTurn, if_pos more]
    by_cases failed : write call left.length ≤ 0
    · rw [if_pos failed, Exec.pure_eq_ok, Exec.returns_ok]
      exact .inl ⟨rfl, call, left.length, more, failed⟩
    · have bound := legal call left.length
      rw [if_neg failed, Exec.assert_of bound, Exec.ok_bind, Exec.pure_eq_ok, Exec.returns_ok]
      constructor
      · simp only [List.append_assoc, List.take_append_drop]
        exact whole
      · simp only [List.length_drop]
        omega
  · simp only [writeAllTurn, if_neg more, Exec.returns_ok, Step.holds_done]
    have empty : left = [] := List.length_eq_zero_iff.mp (by omega)
    rw [empty, List.append_nil] at whole
    exact .inr (congrArg some whole)

/-- `send_req` stays inside its array and writes the frame of the command or fails. -/
theorem sendReq_spec {write : Nat → Nat → Int} (legal : Legal write) {cmd : List Bytes}
    (small : (requestBody cmd).length < 2 ^ 32) {wbuf : Bytes}
    (size : wbuf.length = 4 + kMaxMsg) :
    Exec.Returns (sendReq wbuf cmd write) fun sent =>
      sent = none ∧ ((requestBody cmd).length > kMaxMsg ∨ Fails write) ∨
      sent = some (frame (requestBody cmd)) := by
  have lengths := lengths_lt small
  have len := bodyLen_eq small
  have count : (UInt32.ofNat cmd.length).toNat = cmd.length := by
    rw [UInt32.toNat_ofNat', Nat.mod_eq_of_lt lengths.1]
  simp only [sendReq, len, count]
  by_cases long : (requestBody cmd).length > kMaxMsg
  · rw [if_pos long, Exec.returns_ok]
    exact .inl ⟨rfl, .inl long⟩
  · have parts := length_requestBody cmd
    let header := LittleEndian.encode 4 (requestBody cmd).length
    let number := LittleEndian.encode 4 cmd.length
    have first : copyTo wbuf 0 header = .ok (header ++ wbuf.drop 4) :=
      @copyTo_eq [] wbuf header (by simp only [header, LittleEndian.length_encode]; omega)
    have second : copyTo (header ++ wbuf.drop 4) 4 number =
        .ok (header ++ number ++ wbuf.drop 8) := by
      have copied := @copyTo_eq header (wbuf.drop 4) number
        (by simp only [number, LittleEndian.length_encode, List.length_drop]; omega)
      rwa [List.drop_drop] at copied
    have strings : sendReqLoop (header ++ number ++ wbuf.drop 8) 8 cmd =
        .ok (header ++ number ++ encodeArgs cmd ++
          (wbuf.drop 8).drop (encodeArgs cmd).length) := by
      have room : (encodeArgs cmd).length ≤ (wbuf.drop 8).length := by
        rw [List.length_drop]
        omega
      exact @sendReqLoop_eq cmd lengths.2 (header ++ number) (wbuf.drop 8) room
    have whole : header ++ number ++ encodeArgs cmd = frame (requestBody cmd) := by
      simp only [frame, requestBody, header, number, List.append_assoc]
    have cut : (frame (requestBody cmd) ++ (wbuf.drop 8).drop (encodeArgs cmd).length).take
        (4 + (requestBody cmd).length) = frame (requestBody cmd) := by
      apply List.take_left'
      simp [frame]
    rw [if_neg long, first, Exec.ok_bind, second, Exec.ok_bind, strings, Exec.ok_bind, whole, cut]
    apply (writeAll_spec legal _).mono
    rintro sent (⟨failed, fails⟩ | written)
    · exact .inl ⟨failed, .inr fails⟩
    · exact .inr written

/-- A copy that returns is inside the array. -/
theorem copyTo_eq_ok {buf bytes after : Bytes} {pos : Nat}
    (call : copyTo buf pos bytes = .ok after) :
    pos + bytes.length ≤ buf.length ∧ after.length = buf.length := by
  unfold copyTo at call
  split at call
  · rename_i inside
    cases call
    refine ⟨inside, ?_⟩
    simp only [bufPatch, List.length_append, List.length_take, List.length_drop]
    omega
  · cases call

/-- A loop that returns has stayed inside the array. -/
theorem sendReqLoop_inside : ∀ {cmd : List Bytes} {wbuf after : Bytes} {cur : Nat},
    sendReqLoop wbuf cur cmd = .ok after → cur ≤ wbuf.length →
    cur + (encodeArgs cmd).length ≤ wbuf.length
  | [], _, _, _, _, inside => inside
  | str :: cmd, wbuf, after, cur, call, _ => by
      simp only [sendReqLoop, Exec.bind_eq_ok] at call
      obtain ⟨first, firstEq, second, secondEq, rest⟩ := call
      obtain ⟨-, firstLength⟩ := copyTo_eq_ok firstEq
      obtain ⟨inside, secondLength⟩ := copyTo_eq_ok secondEq
      have others := sendReqLoop_inside rest (by omega)
      simp only [encodeArgs_cons, List.length_append, LittleEndian.length_encode]
      omega

/-- A command that `send_req` accepts has a short body, and its frame is sent. -/
theorem sendReq_accepted {write : Nat → Nat → Int} (legal : Legal write) {cmd : List Bytes}
    {wbuf sent : Bytes} (size : wbuf.length = 4 + kMaxMsg)
    (accepted : sendReq wbuf cmd write = .ok (some sent)) :
    sent = frame (requestBody cmd) ∧ (requestBody cmd).length ≤ kMaxMsg := by
  -- the strings fit the array, also if the 32-bit length is wrong
  have short : (requestBody cmd).length ≤ kMaxMsg := by
    simp only [sendReq] at accepted
    split at accepted
    · cases accepted
    · simp only [Exec.bind_eq_ok] at accepted
      obtain ⟨first, firstEq, second, secondEq, third, thirdEq, -⟩ := accepted
      obtain ⟨-, firstLength⟩ := copyTo_eq_ok firstEq
      obtain ⟨-, secondLength⟩ := copyTo_eq_ok secondEq
      have inside := sendReqLoop_inside thirdEq (by unfold kMaxMsg at size; omega)
      rw [length_requestBody]
      omega
  refine ⟨?_, short⟩
  have small : (requestBody cmd).length < 2 ^ 32 := by
    unfold kMaxMsg at short
    omega
  rcases (sendReq_spec legal small size).of_eq_ok accepted with ⟨failed, -⟩ | written
  · cases failed
  · exact Option.some.inj written

end Client

/-! ## The other encoders -/

/-- `pack_command` appends the frame of the command. -/
theorem Benchmark.packCommand_eq {cmd : List Bytes}
    (small : (requestBody cmd).length < 2 ^ 32) (buf : Bytes) :
    packCommand buf cmd = buf ++ frame (requestBody cmd) := by
  have strings : ∀ (cmd : List Bytes) (buf : Bytes), (∀ str ∈ cmd, str.length < 2 ^ 32) →
      cmd.foldl (fun buf str => buf ++ LittleEndian.encode 4 (UInt32.ofNat str.length).toNat ++ str)
        buf = buf ++ encodeArgs cmd := by
    intro cmd
    induction cmd with
    | nil => simp [encodeArgs]
    | cons str cmd ih =>
        intro buf lengths
        simp only [List.forall_mem_cons] at lengths
        rw [List.foldl_cons, ih _ lengths.2, UInt32.toNat_ofNat', Nat.mod_eq_of_lt lengths.1,
          encodeArgs_cons]
        simp only [List.append_assoc]
  have lengths := lengths_lt small
  simp only [packCommand, bodyLen_eq small]
  rw [strings _ _ lengths.2, UInt32.toNat_ofNat', Nat.mod_eq_of_lt lengths.1]
  simp only [frame, requestBody, List.append_assoc]

namespace Aphelo

theorem packStrings_eq {cmd : List Bytes} (lengths : ∀ str ∈ cmd, str.length < 2 ^ 32) :
    ∀ msg, packStrings msg cmd = some (msg ++ encodeArgs cmd) := by
  induction cmd with
  | nil => simp [packStrings, encodeArgs]
  | cons str cmd ih =>
      intro msg
      simp only [List.forall_mem_cons] at lengths
      simp only [packStrings, structPack, if_pos lengths.1, Option.bind_eq_bind,
        Option.bind_some]
      rw [ih lengths.2, encodeArgs_cons]
      simp only [List.append_assoc]

/-- `_execute` passes the frame of the command to `sendall`. -/
theorem execute_eq {args : List String}
    (small : (requestBody (args.map utf8)).length < 2 ^ 32) :
    execute args = some (frame (requestBody (args.map utf8))) := by
  have lengths := lengths_lt small
  have len : 4 + ((args.map utf8).map fun b => 4 + b.length).sum =
      (requestBody (args.map utf8)).length := by
    rw [length_requestBody, length_encodeArgs]
  simp only [execute, len, structPack, if_pos small, if_pos lengths.1, Option.bind_eq_bind,
    Option.bind_some]
  rw [packStrings_eq lengths.2]
  simp only [frame, requestBody, List.append_assoc]

end Aphelo

/-! ## One grammar -/

/-- `parse_req` returns on every buffer without reading past its end and accepts exactly
the bodies of commands.  For a command within the limits the three encoders write one
frame, whose body `parse_req` takes back to the command. -/
theorem parseReq_encoders :
    (∀ data, Exec.Returns (parseReq data) fun result => ∀ cmd,
      result = some cmd ↔ cmd.length ≤ kMaxArgs ∧ (∀ str ∈ cmd, str.length < 2 ^ 32) ∧
        data = LittleEndian.encode 4 cmd.length ++
          cmd.flatMap fun str => LittleEndian.encode 4 str.length ++ str) ∧
    ∀ cmd : List Bytes, cmd.length ≤ kMaxArgs → (requestBody cmd).length < 2 ^ 32 →
      (∀ wbuf write, wbuf.length = 4 + Client.kMaxMsg → Client.Legal write →
        Exec.Returns (Client.sendReq wbuf cmd write) fun sent =>
          sent = none ∧ ((requestBody cmd).length > Client.kMaxMsg ∨ Client.Fails write) ∨
          sent = some (frame (requestBody cmd))) ∧
      (∀ buf, Benchmark.packCommand buf cmd = buf ++ frame (requestBody cmd)) ∧
      (∀ args : List String, args.map Aphelo.utf8 = cmd →
        Aphelo.execute args = some (frame (requestBody cmd))) ∧
      parseReq (requestBody cmd) = .ok (some cmd) := by
  constructor
  · intro data
    refine (parseReq_spec data).mono fun result accepts cmd => (accepts cmd).trans ?_
    constructor
    · intro request
      exact ⟨request.count_le, request.lengths, request.body_eq⟩
    · rintro ⟨count, lengths, equal⟩
      exact ⟨count, lengths, equal⟩
  · intro cmd count small
    refine ⟨?_, ?_, ?_, ?_⟩
    · intro wbuf write size legal
      exact Client.sendReq_spec legal small size
    · intro buf
      exact Benchmark.packCommand_eq small buf
    · rintro args rfl
      exact Aphelo.execute_eq small
    · obtain ⟨result, call, accepts⟩ := parseReq_spec (requestBody cmd)
      rw [call, (accepts cmd).mpr ⟨count, (lengths_lt small).2, rfl⟩]

/-- The command GET of the key "k", with complete writes. -/
theorem parseReq_encoders_get :
    (Exec.Returns (Client.sendReq (List.replicate (4 + Client.kMaxMsg) 0)
        [ascii "get", ascii "k"] fun _ n => n) fun sent =>
      sent = none ∧ ((requestBody [ascii "get", ascii "k"]).length > Client.kMaxMsg ∨
        Client.Fails fun _ n => n) ∨
      sent = some (frame (requestBody [ascii "get", ascii "k"]))) ∧
    Aphelo.execute ["get", "k"] = some (frame (requestBody [ascii "get", ascii "k"])) ∧
    parseReq (requestBody [ascii "get", ascii "k"]) = .ok (some [ascii "get", ascii "k"]) := by
  obtain ⟨client, -, aphelo, parsed⟩ :=
    parseReq_encoders.2 [ascii "get", ascii "k"] (by decide) (by decide)
  refine ⟨client _ _ List.length_replicate fun _ _ => le_refl _, ?_, parsed⟩
  exact aphelo ["get", "k"] (by decide)

end RedisLite
