import RedisLite.Client.Send
import RedisLite.Lib.Pieces

/-!
# The Python client

`ApheloClient` of `aphelo.py`: a call of `_execute` sends a command, receives one response
and unpacks it.  A method is a function of the socket that returns a value or raises an
error; the socket keeps what it has sent and received when an error is raised.
-/

namespace RedisLite.Aphelo

open Lib

/-! ## The socket -/

/-- The socket of a client: the bytes that it has sent, how many more the connection takes
before it fails, the bytes that are still to arrive, and whether the connection fails after
them instead of ending. -/
structure Sock where
  sent : Bytes := []
  room : Nat
  arriving : Pieces UInt8
  fails : Bool := false

/-- The values that `_execute` returns; a float is given by its bits. -/
inductive PyValue where
  | none
  | str (text : String)
  | int (val : Int)
  | float (bits : UInt64)
  deriving DecidableEq, Repr

/-- The errors that `_execute` raises. -/
inductive PyError where
  | structError
  | indexError
  | unicodeDecodeError
  | osError
  | connectionError (text : String)
  | apheloError (text : String)
  deriving DecidableEq, Repr

/-- A computation that uses the socket and returns a value or raises an error. -/
def Py (α : Type) : Type := Sock → Except PyError α × Sock

instance : Monad Py where
  pure value := fun sock => (.ok value, sock)
  bind first rest := fun sock =>
    match first sock with
    | (.ok value, sock) => rest value sock
    | (.error error, sock) => (.error error, sock)

/-- Return or raise what was computed without the socket. -/
def Py.lift {α : Type} (result : Except PyError α) : Py α := fun sock => (result, sock)

theorem bind_ok {α β : Type} {first : Py α} {rest : α → Py β} {sock after : Sock} {value : α}
    (call : first sock = (.ok value, after)) : (first >>= rest) sock = rest value after := by
  simp only [bind, call]

theorem bind_error {α β : Type} {first : Py α} {rest : α → Py β} {sock after : Sock}
    {error : PyError} (call : first sock = (.error error, after)) :
    (first >>= rest) sock = (.error error, after) := by
  simp only [bind, call]

/-- `sock.sendall`. -/
def sendall (msg : Bytes) : Py Unit := fun sock =>
  if msg.length ≤ sock.room then
    (.ok (), { sock with sent := sock.sent ++ msg, room := sock.room - msg.length })
  else (.error .osError, { sock with sent := sock.sent ++ msg.take sock.room, room := 0 })

/-- `sock.recv`. -/
def recv (n : Nat) : Py Bytes := fun sock =>
  let (packet, arriving) := sock.arriving.read n
  if packet = [] ∧ sock.fails then (.error .osError, sock)
  else (.ok packet, { sock with arriving })

/-- The loop of `_recvall`, with the bytes received so far. -/
def recvallLoop (n : Nat) (data : Bytes) : Py Bytes := fun sock =>
  if data.length < n then
    match recv (n - data.length) sock with
    | (.error error, sock) => (.error error, sock)
    | (.ok packet, sock) =>
        if packet = [] then (.error (.connectionError "Connection closed by server"), sock)
        else recvallLoop n (data ++ packet) sock
  else (.ok data, sock)
termination_by n - data.length
decreasing_by
  rename_i more _ some
  have positive : 0 < packet.length := List.length_pos_iff.mpr some
  rw [List.length_append]
  omega

def recvall (n : Nat) : Py Bytes := recvallLoop n []

/-! ## Unpacking -/

/-- `payload[start:stop]`. -/
def slice (payload : Bytes) (start stop : Nat) : Bytes := (payload.take stop).drop start

/-- `struct.unpack` of one number of the given size. -/
def structUnpack (size : Nat) (bytes : Bytes) : Except PyError Nat :=
  if bytes.length = size then .ok (LittleEndian.decode bytes) else .error .structError

/-- `bytes.decode('utf-8')`. -/
def decodeUtf8 (bytes : Bytes) : Except PyError String :=
  match String.fromUTF8? ⟨bytes.toArray⟩ with
  | some text => .ok text
  | none => .error .unicodeDecodeError

/-- The text of an error with a code, `f"[{code}] {err_msg}"`. -/
def errorText (code : Nat) (errMsg : String) : String := "[" ++ toString code ++ "] " ++ errMsg

/-- The part of `_execute` that unpacks the payload. -/
def unpackResponse (payload : Bytes) : Except PyError PyValue :=
  match payload[0]? with
  | none => .error .indexError
  | some tag =>
      if tag = tagNil then .ok .none
      else if tag = tagErr then do
        let code ← structUnpack 4 (slice payload 1 5)
        let msgLen ← structUnpack 4 (slice payload 5 9)
        let errMsg ← decodeUtf8 (slice payload 9 (9 + msgLen))
        .error (.apheloError (errorText code errMsg))
      else if tag = tagStr then do
        let strLen ← structUnpack 4 (slice payload 1 5)
        let text ← decodeUtf8 (slice payload 5 (5 + strLen))
        return .str text
      else if tag = tagInt then do
        let val ← structUnpack 8 (slice payload 1 9)
        return .int (UInt64.ofNat val).toInt64.toInt
      else if tag = tagDbl then do
        let val ← structUnpack 8 (slice payload 1 9)
        return .float (UInt64.ofNat val)
      else .error (.apheloError ("Unknown response tag: " ++ toString tag.toNat))

/-- `_execute` on a socket, with the packing of `execute`. -/
def executeOn (args : List String) : Py PyValue := do
  let msg ← .lift ((execute args).elim (.error .structError) .ok)
  sendall msg
  let header ← recvall 4
  let payloadLen ← .lift (structUnpack 4 header)
  let payload ← recvall payloadLen
  .lift (unpackResponse payload)

/-- `ApheloClient.get`. -/
def get (key : String) : Py PyValue := executeOn ["get", key]

/-- `ApheloClient.set`. -/
def set (key value : String) : Py PyValue := executeOn ["set", key, value]

/-- `ApheloClient.delete`. -/
def delete (key : String) : Py PyValue := executeOn ["del", key]

/-- `ApheloClient.pexpire`. -/
def pexpire (key : String) (ttlMs : Int) : Py PyValue :=
  executeOn ["pexpire", key, toString ttlMs]

/-- `ApheloClient.zadd`, for the text of the score. -/
def zadd (zsetName score value : String) : Py PyValue :=
  executeOn ["zadd", zsetName, score, value]

/-- Calls one after the other, by a program that handles every error. -/
def session : List (List String) → Sock → List (Except PyError PyValue) × Sock
  | [], sock => ([], sock)
  | args :: calls, sock =>
      let (result, sock) := executeOn args sock
      let (results, sock) := session calls sock
      (result :: results, sock)

/-! ## Receiving -/

/-- The error of a call that finds the end of what arrives. -/
def Sock.ended (sock : Sock) : PyError :=
  if sock.fails then .osError else .connectionError "Connection closed by server"

theorem recv_ended {n : Nat} {sock : Sock} (nothing : (sock.arriving.read n).1 = []) :
    recv n sock = if sock.fails then (.error .osError, sock)
      else (.ok [], { sock with arriving := (sock.arriving.read n).2 }) := by
  simp only [recv, nothing, true_and]

/-- `_recvall` receives the next bytes of the stream, however they arrive, or all of them when
there are too few. -/
theorem recvallLoop_spec {n : Nat} (missing : Nat) {data : Bytes} {sock : Sock}
    (count : data.length + missing = n) :
    ∃ rest : Pieces UInt8,
      (missing ≤ sock.arriving.whole.length ∧ rest.whole = sock.arriving.whole.drop missing ∧
        recvallLoop n data sock = (.ok (data ++ sock.arriving.whole.take missing),
          { sock with arriving := rest })) ∨
      (sock.arriving.whole.length < missing ∧ rest.whole = [] ∧
        recvallLoop n data sock = (.error sock.ended, { sock with arriving := rest })) := by
  induction missing using Nat.strong_induction_on generalizing data sock with
  | _ missing ih =>
      rw [recvallLoop]
      by_cases more : data.length < n
      · have size : n - data.length = missing := by omega
        have parts := sock.arriving.read_append missing
        have bound := sock.arriving.length_read_le missing
        rw [if_pos more, size]
        by_cases nothing : (sock.arriving.read missing).1 = []
        · have atEnd : sock.arriving.whole = [] := by
            by_contra some
            exact Pieces.read_ne_nil (by omega) some nothing
          have short : sock.arriving.whole.length < missing := by
            rw [atEnd, List.length_nil]
            omega
          rw [nothing, List.nil_append, atEnd] at parts
          rw [recv_ended nothing, Sock.ended]
          by_cases failing : sock.fails
          · exact ⟨sock.arriving, .inr ⟨short, atEnd, by simp only [if_pos failing]⟩⟩
          · exact ⟨_, .inr ⟨short, parts, by simp only [if_neg failing, if_true]⟩⟩
        · have received : recv missing sock = (.ok (sock.arriving.read missing).1,
              { sock with arriving := (sock.arriving.read missing).2 }) := by
            simp only [recv, nothing, false_and, if_false]
          have positive : 0 < (sock.arriving.read missing).1.length :=
            List.length_pos_iff.mpr nothing
          obtain ⟨rest, further⟩ :=
            @ih (missing - (sock.arriving.read missing).1.length) (by omega)
              (data ++ (sock.arriving.read missing).1)
              { sock with arriving := (sock.arriving.read missing).2 }
              (by rw [List.length_append]; omega)
          simp only [received, if_neg nothing]
          have length : sock.arriving.whole.length = (sock.arriving.read missing).1.length +
              (sock.arriving.read missing).2.whole.length := by
            rw [← parts, List.length_append]
          refine ⟨rest, ?_⟩
          rcases further with ⟨enough, left, call⟩ | ⟨short, left, call⟩
          · have enough : missing - (sock.arriving.read missing).1.length ≤
                (sock.arriving.read missing).2.whole.length := enough
            refine .inl ⟨by omega, ?_, ?_⟩
            · rw [left, ← parts, List.drop_append, List.drop_of_length_le bound, List.nil_append]
            · rw [call, ← parts, List.take_append, List.take_of_length_le bound,
                List.append_assoc]
          · have short : (sock.arriving.read missing).2.whole.length <
                missing - (sock.arriving.read missing).1.length := short
            exact .inr ⟨by omega, left, call⟩
      · have zero : missing = 0 := by omega
        subst zero
        refine ⟨sock.arriving, .inl ⟨Nat.zero_le _, rfl, ?_⟩⟩
        rw [if_neg more, List.take_zero, List.append_nil]

theorem recvall_spec (n : Nat) (sock : Sock) :
    ∃ rest : Pieces UInt8,
      (n ≤ sock.arriving.whole.length ∧ rest.whole = sock.arriving.whole.drop n ∧
        recvall n sock = (.ok (sock.arriving.whole.take n), { sock with arriving := rest })) ∨
      (sock.arriving.whole.length < n ∧ rest.whole = [] ∧
        recvall n sock = (.error sock.ended, { sock with arriving := rest })) :=
  recvallLoop_spec n (Nat.zero_add n)

/-- What a call does once its command is packed: the command is cut off, or a response is
received and unpacked, or the stream ends before a whole response. -/
inductive Called (sock : Sock) (msg : Bytes) : Except PyError PyValue × Sock → Prop where
  | unsent (full : sock.room < msg.length) :
      Called sock msg (.error .osError,
        { sock with sent := sock.sent ++ msg.take sock.room, room := 0 })
  | answered {body : Bytes} {rest : Pieces UInt8} (fits : msg.length ≤ sock.room)
      (small : body.length < 2 ^ 32) (whole : sock.arriving.whole = frame body ++ rest.whole) :
      Called sock msg (unpackResponse body,
        { sock with sent := sock.sent ++ msg, room := sock.room - msg.length, arriving := rest })
  | ended {rest : Pieces UInt8} (fits : msg.length ≤ sock.room)
      (cut : ∀ body more, body.length < 2 ^ 32 → sock.arriving.whole ≠ frame body ++ more)
      (nothing : rest.whole = []) :
      Called sock msg (.error sock.ended,
        { sock with sent := sock.sent ++ msg, room := sock.room - msg.length, arriving := rest })

/-- Whatever the server sends, a call consumes one whole frame or all there is. -/
theorem executeOn_spec {args : List String} {msg : Bytes} (packed : execute args = some msg)
    (sock : Sock) : Called sock msg (executeOn args sock) := by
  have lifted : Py.lift ((execute args).elim (.error .structError) .ok) sock = (.ok msg, sock) := by
    rw [packed]
    rfl
  rw [executeOn, bind_ok lifted]
  by_cases fits : msg.length ≤ sock.room
  · let sending : Sock :=
      { sock with sent := sock.sent ++ msg, room := sock.room - msg.length }
    have sent : sendall msg sock = (.ok (), sending) := by rw [sendall, if_pos fits]
    rw [bind_ok sent]
    obtain ⟨afterHeader, ⟨enough, left, header⟩ | ⟨short, nothing, header⟩⟩ :=
      recvall_spec 4 sending
    · obtain ⟨len, tail, lenFits, whole⟩ := LittleEndian.exists_append enough
      have whole : sock.arriving.whole = LittleEndian.encode 4 len ++ tail := whole
      have first : sending.arriving.whole.take 4 = LittleEndian.encode 4 len := by
        show sock.arriving.whole.take 4 = _
        rw [whole, List.take_left' (LittleEndian.length_encode _ _)]
      have left : afterHeader.whole = tail := by
        rw [left]
        show sock.arriving.whole.drop 4 = _
        rw [whole, List.drop_left' (LittleEndian.length_encode _ _)]
      have unpacked : Py.lift (structUnpack 4 (sending.arriving.whole.take 4))
          { sending with arriving := afterHeader } =
          (.ok len, { sending with arriving := afterHeader }) := by
        rw [first, structUnpack, if_pos (LittleEndian.length_encode _ _),
          LittleEndian.decode_encode_of_lt lenFits]
        rfl
      rw [bind_ok header, bind_ok unpacked]
      obtain ⟨rest, ⟨enough, more, payload⟩ | ⟨short, nothing, payload⟩⟩ :=
        recvall_spec len { sending with arriving := afterHeader }
      · have enough : len ≤ afterHeader.whole.length := enough
        have more : rest.whole = afterHeader.whole.drop len := more
        rw [left] at enough more
        have size : (tail.take len).length = len := List.length_take_of_le enough
        rw [bind_ok payload]
        show Called sock msg (unpackResponse (afterHeader.whole.take len), _)
        rw [left]
        refine .answered fits (by rw [size]; exact lenFits) ?_
        rw [frame, size, more, List.append_assoc, List.take_append_drop, whole]
      · have short : afterHeader.whole.length < len := short
        rw [left] at short
        rw [bind_error payload]
        refine .ended fits ?_ nothing
        intro body more bodyFits isFrame
        rw [whole, frame, List.append_assoc] at isFrame
        obtain ⟨headerEq, tailEq⟩ := List.append_inj isFrame (by simp)
        have length := LittleEndian.eq_of_encode lenFits bodyFits headerEq
        rw [tailEq, List.length_append] at short
        omega
    · rw [bind_error header]
      refine .ended fits ?_ nothing
      intro body more _ whole
      have short : sock.arriving.whole.length < 4 := short
      rw [whole, frame, List.append_assoc, List.length_append, LittleEndian.length_encode] at short
      omega
  · have cut : sendall msg sock = (.error .osError,
        { sock with sent := sock.sent ++ msg.take sock.room, room := 0 }) := by
      rw [sendall, if_neg fits]
    rw [bind_error cut]
    exact .unsent (Nat.not_le.mp fits)

/-! ## Values -/

theorem ok_bind {α β : Type} (value : α) (rest : α → Except PyError β) :
    (Except.ok value >>= rest) = rest value := rfl

theorem decodeUtf8_utf8 (text : String) : decodeUtf8 (utf8 text) = .ok text := by
  have whole : (⟨(utf8 text).toArray⟩ : ByteArray) = text.toByteArray := rfl
  rw [decodeUtf8, whole, String.fromUTF8?, dif_pos text.isValidUTF8]
  rfl

/-- What a client makes of a value that it receives. -/
def outcome {D : Type} (bits : D → UInt64) : Value D → Except PyError PyValue
  | .nil => .ok .none
  | .err code msg => do
      let errMsg ← decodeUtf8 msg
      .error (.apheloError (errorText code.toNat errMsg))
  | .str bytes => do
      let text ← decodeUtf8 bytes
      return .str text
  | .int val => .ok (.int val.toInt)
  | .dbl val => .ok (.float (bits val))
  | .arr _ => .error (.apheloError "Unknown response tag: 5")

theorem slice_eq {payload front field back : Bytes} {start stop : Nat}
    (payload_eq : payload = front ++ (field ++ back)) (start_eq : start = front.length)
    (stop_eq : stop = front.length + field.length) : slice payload start stop = field := by
  subst payload_eq start_eq stop_eq
  rw [slice, ← List.append_assoc, List.take_left' List.length_append, List.drop_left]

theorem structUnpack_encode {size number : Nat} (small : number < 256 ^ size) :
    structUnpack size (LittleEndian.encode size number) = .ok number := by
  rw [structUnpack, if_pos (LittleEndian.length_encode _ _),
    LittleEndian.decode_encode_of_lt small]

/-- `_execute` unpacks the values that the server sends, except arrays. -/
theorem unpackResponse_encode {D : Type} (bits : D → UInt64) {value : Value D}
    (bounded : value.Bounded) : unpackResponse (value.encode bits) = outcome bits value := by
  cases value with
  | nil => rfl
  | err code msg =>
      let payload := (Value.err code msg : Value D).encode bits
      have codeEq : slice payload 1 5 = LittleEndian.encode 4 code.toNat :=
        @slice_eq payload [tagErr] _ (LittleEndian.encode 4 msg.length ++ msg) _ _
          (by simp [payload, Value.encode]) rfl (by simp)
      have lenEq : slice payload 5 9 = LittleEndian.encode 4 msg.length :=
        @slice_eq payload (tagErr :: LittleEndian.encode 4 code.toNat) _ msg _ _
          (by simp [payload, Value.encode]) (by simp) (by simp)
      have msgEq : slice payload 9 (9 + msg.length) = msg :=
        @slice_eq payload (tagErr :: LittleEndian.encode 4 code.toNat ++
          LittleEndian.encode 4 msg.length) _ [] _ _
          (by simp [payload, Value.encode]) (by simp) (by simp)
      show (structUnpack 4 (slice payload 1 5) >>= _) = _
      rw [codeEq, structUnpack_encode code.toNat_lt, ok_bind, lenEq, structUnpack_encode bounded,
        ok_bind, msgEq]
      rfl
  | str bytes =>
      let payload := (Value.str bytes : Value D).encode bits
      have lenEq : slice payload 1 5 = LittleEndian.encode 4 bytes.length :=
        @slice_eq payload [tagStr] _ bytes _ _ (by simp [payload, Value.encode]) rfl (by simp)
      have textEq : slice payload 5 (5 + bytes.length) = bytes :=
        @slice_eq payload (tagStr :: LittleEndian.encode 4 bytes.length) _ [] _ _
          (by simp [payload, Value.encode]) (by simp) (by simp)
      show (structUnpack 4 (slice payload 1 5) >>= _) = _
      rw [lenEq, structUnpack_encode bounded, ok_bind, textEq]
      rfl
  | int val =>
      let payload := (Value.int val : Value D).encode bits
      have valEq : slice payload 1 9 = LittleEndian.encode 8 val.toUInt64.toNat :=
        @slice_eq payload [tagInt] _ [] _ _ (by simp [payload, Value.encode]) rfl (by simp)
      show (structUnpack 8 (slice payload 1 9) >>= _) = _
      rw [valEq, structUnpack_encode val.toUInt64.toNat_lt]
      rw [ok_bind, UInt64.ofNat_toNat]
      rfl
  | dbl val =>
      let payload := (Value.dbl val : Value D).encode bits
      have valEq : slice payload 1 9 = LittleEndian.encode 8 (bits val).toNat :=
        @slice_eq payload [tagDbl] _ [] _ _ (by simp [payload, Value.encode]) rfl (by simp)
      show (structUnpack 8 (slice payload 1 9) >>= _) = _
      rw [valEq, structUnpack_encode (bits val).toNat_lt]
      rw [ok_bind, UInt64.ofNat_toNat]
      rfl
  | arr items => rfl

/-! ## Sessions -/

/-- The bytes of a call. -/
def callFrame (args : List String) : Bytes := frame (requestBody (args.map utf8))

/-- The connection failed or ended before the response. -/
def Lost (result : Except PyError PyValue) : Prop :=
  result = .error .osError ∨ result = .error (.connectionError "Connection closed by server")

theorem Sock.ended_lost (sock : Sock) : Lost (.error sock.ended) := by
  rw [Sock.ended]
  split
  · exact .inl rfl
  · exact .inr rfl

/-- The outcome of a session with a server whose stream is a part of the frames of the
bodies: the first `count` calls read the first bodies, and the others are lost. -/
structure Reads (sock : Sock) (calls : List (List String)) (bodies : List Bytes) (count : Nat)
    (out : List (Except PyError PyValue) × Sock) : Prop where
  count_le : count ≤ bodies.length
  results : ∃ lost, out.1 = (bodies.take count).map unpackResponse ++ lost ∧
    ∀ result ∈ lost, Lost result
  length_eq : out.1.length = calls.length
  sent : ∃ part, out.2.sent = sock.sent ++ part ∧ (calls.take count).flatMap callFrame <+: part ∧
    part <+: calls.flatMap callFrame
  /-- Nothing is lost while the connection takes the commands and brings the responses. -/
  complete : (calls.flatMap callFrame).length ≤ sock.room → ∀ n, n ≤ calls.length →
    n ≤ bodies.length → (bodies.take n).flatMap frame <+: sock.arriving.whole → n ≤ count

theorem frame_unique {left right leftRest rightRest : Bytes} (leftFits : left.length < 2 ^ 32)
    (rightFits : right.length < 2 ^ 32)
    (equal : frame left ++ leftRest = frame right ++ rightRest) :
    left = right ∧ leftRest = rightRest := by
  simp only [frame, List.append_assoc] at equal
  obtain ⟨headerEq, bodyEq⟩ := List.append_inj equal (by simp)
  exact List.append_inj bodyEq (LittleEndian.eq_of_encode leftFits rightFits headerEq)

/-- A stream that begins with the frame of a body begins with the first body. -/
theorem prefix_frames {body rest : Bytes} {bodies : List Bytes} (bodyFits : body.length < 2 ^ 32)
    (fits : ∀ body ∈ bodies, body.length < 2 ^ 32)
    (stream : frame body ++ rest <+: bodies.flatMap frame) :
    ∃ others, bodies = body :: others ∧ rest <+: others.flatMap frame := by
  obtain ⟨more, equal⟩ := stream
  cases bodies with
  | nil =>
      have length := congrArg List.length equal
      simp [frame] at length
  | cons first others =>
      rw [List.forall_mem_cons] at fits
      rw [List.append_assoc, List.flatMap_cons] at equal
      obtain ⟨rfl, same⟩ := frame_unique bodyFits fits.1 equal
      exact ⟨others, rfl, more, same⟩

/-- When the connection takes no more bytes, every call fails. -/
theorem session_full {calls : List (List String)}
    (small : ∀ args ∈ calls, (requestBody (args.map utf8)).length < 2 ^ 32) {sock : Sock}
    (full : sock.room = 0) : (session calls sock).2.sent = sock.sent ∧
      (session calls sock).1.length = calls.length ∧
      ∀ result ∈ (session calls sock).1, Lost result := by
  induction calls generalizing sock with
  | nil => exact ⟨rfl, rfl, fun _ member => absurd member List.not_mem_nil⟩
  | cons args calls ih =>
      rw [List.forall_mem_cons] at small
      have called := executeOn_spec (execute_eq small.1) sock
      have positive : 0 < (callFrame args).length := by simp [callFrame, frame]
      rw [session]
      generalize executeOn args sock = out at called ⊢
      cases called with
      | unsent =>
          obtain ⟨sent, length, lost⟩ := @ih small.2
            { sock with sent := sock.sent ++ (callFrame args).take sock.room, room := 0 } rfl
          refine ⟨?_, congrArg Nat.succ length, ?_⟩
          · refine sent.trans ?_
            show sock.sent ++ (callFrame args).take sock.room = sock.sent
            rw [full, List.take_zero, List.append_nil]
          · rw [List.forall_mem_cons]
            exact ⟨.inl rfl, lost⟩
      | answered fits => exact absurd (fits.trans_eq full) (Nat.not_le.mpr positive)
      | ended fits => exact absurd (fits.trans_eq full) (Nat.not_le.mpr positive)

/-- A session stays in step with the server: every call reads its own response or is lost. -/
theorem session_reads {calls : List (List String)}
    (small : ∀ args ∈ calls, (requestBody (args.map utf8)).length < 2 ^ 32) {sock : Sock}
    {bodies : List Bytes} (fits : ∀ body ∈ bodies, body.length < 2 ^ 32)
    (stream : sock.arriving.whole <+: bodies.flatMap frame) :
    ∃ count, Reads sock calls bodies count (session calls sock) := by
  induction calls generalizing sock bodies with
  | nil =>
      refine ⟨0, Nat.zero_le _, ⟨[], rfl, fun _ member => absurd member List.not_mem_nil⟩, rfl, ?_,
        fun _ n le _ _ => le⟩
      exact ⟨[], (List.append_nil _).symm, List.prefix_refl _, List.prefix_refl _⟩
  | cons args calls ih =>
      rw [List.forall_mem_cons] at small
      have called := executeOn_spec (execute_eq small.1) sock
      rw [session]
      generalize executeOn args sock = out at called ⊢
      cases called with
      | unsent full =>
          obtain ⟨sent, length, lost⟩ := @session_full calls small.2
            { sock with sent := sock.sent ++ (callFrame args).take sock.room, room := 0 } rfl
          refine ⟨0, Nat.zero_le _, ⟨_, rfl, ?_⟩, congrArg Nat.succ length, ?_, ?_⟩
          · rw [List.forall_mem_cons]
            exact ⟨.inl rfl, lost⟩
          · refine ⟨(callFrame args).take sock.room, sent, List.nil_prefix, ?_⟩
            rw [List.flatMap_cons]
            exact (List.take_prefix _ _).trans (List.prefix_append ..)
          · intro room
            rw [List.flatMap_cons, List.length_append] at room
            have full : sock.room < (callFrame args).length := full
            omega
      | @answered body rest room bodyFits whole =>
          rw [whole] at stream
          obtain ⟨others, rfl, further⟩ := prefix_frames bodyFits fits stream
          rw [List.forall_mem_cons] at fits
          let next : Sock := { sock with
            sent := sock.sent ++ callFrame args
            room := sock.room - (callFrame args).length
            arriving := rest }
          obtain ⟨count, reads⟩ := @ih small.2 next others fits.2 further
          obtain ⟨lost, results, isLost⟩ := reads.results
          obtain ⟨part, sent, sentAll, isPart⟩ := reads.sent
          refine ⟨count + 1, Nat.succ_le_succ reads.count_le, ⟨lost, ?_, isLost⟩,
            congrArg Nat.succ reads.length_eq, ⟨callFrame args ++ part, ?_, ?_, ?_⟩, ?_⟩
          · rw [List.take_succ_cons, List.map_cons, List.cons_append]
            exact congrArg _ results
          · rw [← List.append_assoc]
            exact sent
          · rw [List.take_succ_cons, List.flatMap_cons]
            exact List.prefix_append_right_inj _ |>.mpr sentAll
          · rw [List.flatMap_cons]
            exact List.prefix_append_right_inj _ |>.mpr isPart
          · intro enough n fewCalls fewBodies arrives
            cases n with
            | zero => exact Nat.zero_le _
            | succ n =>
                rw [List.flatMap_cons, List.length_append] at enough
                rw [List.take_succ_cons, List.flatMap_cons, whole,
                  List.prefix_append_right_inj] at arrives
                apply Nat.succ_le_succ
                refine reads.complete ?_ n (Nat.le_of_succ_le_succ fewCalls)
                  (Nat.le_of_succ_le_succ fewBodies) arrives
                show _ ≤ sock.room - (callFrame args).length
                omega
      | @ended rest room cut nothing =>
          let next : Sock := { sock with
            sent := sock.sent ++ callFrame args
            room := sock.room - (callFrame args).length
            arriving := rest }
          have atEnd : next.arriving.whole <+: ([] : List Bytes).flatMap frame := by
            rw [show next.arriving.whole = [] from nothing]
            exact List.nil_prefix
          obtain ⟨count, reads⟩ := @ih small.2 next [] (fun _ member => absurd member
            List.not_mem_nil) atEnd
          obtain ⟨lost, results, isLost⟩ := reads.results
          obtain ⟨part, sent, -, isPart⟩ := reads.sent
          rw [List.take_nil, List.map_nil, List.nil_append] at results
          refine ⟨0, Nat.zero_le _, ⟨_, rfl, ?_⟩, congrArg Nat.succ reads.length_eq,
            ⟨callFrame args ++ part, ?_, List.nil_prefix, ?_⟩, ?_⟩
          · rw [List.forall_mem_cons]
            exact ⟨sock.ended_lost, results ▸ isLost⟩
          · rw [← List.append_assoc]
            exact sent
          · rw [List.flatMap_cons]
            exact List.prefix_append_right_inj _ |>.mpr isPart
          · intro _ n _ fewBodies arrives
            cases n with
            | zero => exact Nat.le_refl _
            | succ n =>
                cases bodies with
                | nil => exact absurd fewBodies (Nat.not_succ_le_zero _)
                | cons body others =>
                    obtain ⟨more, arrived⟩ := arrives
                    rw [List.take_succ_cons, List.flatMap_cons, List.append_assoc] at arrived
                    exact absurd arrived.symm (cut body _ (fits body List.mem_cons_self))

end RedisLite.Aphelo
