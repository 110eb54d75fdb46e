import RedisLite.EventLoop.Conn

/-!
# Request streams

The bytes that a connection receives are frames of requests behind one another.
`try_one_request` decides what its incoming bytes begin with: a whole frame of a request,
a part of a frame, or a frame that is rejected.
-/

namespace RedisLite

open Lib

/-! ## Frames of requests -/

/-- A command that has a frame. -/
structure Sendable (cmd : List Bytes) : Prop where
  count_le : cmd.length ≤ kMaxArgs
  length_le : (requestBody cmd).length ≤ kMaxMsg

theorem length_frame (body : Bytes) : (frame body).length = 4 + body.length := by
  rw [frame, List.length_append, LittleEndian.length_encode]

theorem frame_inj {left right leftRest rightRest : Bytes} (leftSmall : left.length ≤ kMaxMsg)
    (rightSmall : right.length ≤ kMaxMsg)
    (equal : frame left ++ leftRest = frame right ++ rightRest) :
    left = right ∧ leftRest = rightRest := by
  unfold kMaxMsg at leftSmall rightSmall
  simp only [frame, List.append_assoc] at equal
  obtain ⟨headerEq, bodyEq⟩ := List.append_inj equal (by simp)
  have length : left.length = right.length :=
    LittleEndian.eq_of_encode (by omega) (by omega) headerEq
  exact List.append_inj bodyEq length

theorem IsRequest.unique {body : Bytes} {cmd other : List Bytes} (request : IsRequest body cmd)
    (otherRequest : IsRequest body other) : cmd = other := by
  obtain ⟨result, -, accepts⟩ := parseReq_spec body
  have found := (accepts cmd).mpr request
  rw [(accepts other).mpr otherRequest] at found
  exact (Option.some.inj found).symm

namespace Sendable

variable {cmd : List Bytes}

theorem isRequest (sendable : Sendable cmd) : IsRequest (requestBody cmd) cmd := by
  have small := sendable.length_le
  unfold kMaxMsg at small
  refine ⟨sendable.count_le, ?_, rfl⟩
  intro str member
  have part : str.length ≤ (encodeArgs cmd).length := by
    obtain ⟨front, back, rfl⟩ := List.append_of_mem member
    rw [encodeArgs_append, encodeArgs_cons]
    simp only [List.length_append]
    omega
  rw [requestBody, List.length_append] at small
  omega

end Sendable

theorem IsRequest.sendable {body : Bytes} {cmd : List Bytes} (request : IsRequest body cmd)
    (small : body.length ≤ kMaxMsg) : Sendable cmd :=
  ⟨request.count_le, by rwa [← request.body_eq]⟩

/-- The frames of requests. -/
def requestCode : PrefixCode (List Bytes) UInt8 where
  word := fun cmd => frame (requestBody cmd)
  Valid := Sendable
  unique := by
    intro left right leftRest rightRest leftValid rightValid equal
    have bodies := (frame_inj leftValid.length_le rightValid.length_le equal).1
    apply leftValid.isRequest.unique
    rw [bodies]
    exact rightValid.isRequest

/-! ## What a stream begins with -/

/-- The stream ends in the header or in the body of its first frame. -/
inductive Incomplete : Bytes → Prop where
  | header {stream : Bytes} (short : stream.length < 4) : Incomplete stream
  | body {len : Nat} {rest : Bytes} (small : len ≤ kMaxMsg) (short : rest.length < len) :
      Incomplete (LittleEndian.encode 4 len ++ rest)

/-- The first header exceeds the limit, or the first body is not a request. -/
inductive Rejected : Bytes → Prop where
  | tooLong {len : Nat} {rest : Bytes} (fits : len < 2 ^ 32) (long : kMaxMsg < len) :
      Rejected (LittleEndian.encode 4 len ++ rest)
  | badRequest {body rest : Bytes} (small : body.length ≤ kMaxMsg)
      (bad : ∀ cmd, ¬ IsRequest body cmd) : Rejected (frame body ++ rest)

/-- Every stream is incomplete, rejected or begins with the frame of a request. -/
theorem stream_cases (stream : Bytes) : Incomplete stream ∨ Rejected stream ∨
    ∃ cmd rest, Sendable cmd ∧ stream = frame (requestBody cmd) ++ rest := by
  by_cases short : stream.length < 4
  · exact .inl (.header short)
  obtain ⟨len, tail, fits, rfl⟩ := LittleEndian.exists_append (Nat.not_lt.mp short)
  by_cases long : kMaxMsg < len
  · exact .inr (.inl (.tooLong fits long))
  by_cases cut : tail.length < len
  · exact .inl (.body (Nat.not_lt.mp long) cut)
  right
  have length : (tail.take len).length = len := by
    rw [List.length_take]
    omega
  have streamEq : LittleEndian.encode 4 len ++ tail =
      frame (tail.take len) ++ tail.drop len := by
    rw [frame, length, List.append_assoc, List.take_append_drop]
  rw [streamEq]
  by_cases request : ∃ cmd, IsRequest (tail.take len) cmd
  · obtain ⟨cmd, request⟩ := request
    have sendable := request.sendable (by omega)
    exact .inr ⟨cmd, tail.drop len, sendable, by rw [← request.body_eq]⟩
  · exact .inl (.badRequest (by omega) fun cmd isRequest => request ⟨cmd, isRequest⟩)

theorem Incomplete.stuck {stream : Bytes} (incomplete : Incomplete stream) :
    requestCode.Stuck stream := by
  intro cmd rest valid equal
  have valid : Sendable cmd := valid
  have equal : stream = frame (requestBody cmd) ++ rest := equal
  have size := valid.length_le
  cases incomplete with
  | header short =>
      rw [equal, List.length_append, length_frame] at short
      omega
  | body small short =>
      unfold kMaxMsg at small size
      rw [frame, List.append_assoc] at equal
      obtain ⟨headerEq, tailEq⟩ := List.append_inj equal (by simp)
      have length := LittleEndian.eq_of_encode (by omega) (by omega) headerEq
      rw [tailEq, List.length_append] at short
      omega

theorem Rejected.stuck {stream : Bytes} (rejected : Rejected stream) :
    requestCode.Stuck stream := by
  intro cmd rest valid equal
  have valid : Sendable cmd := valid
  have equal : stream = frame (requestBody cmd) ++ rest := equal
  cases rejected with
  | tooLong fits long =>
      have size := valid.length_le
      unfold kMaxMsg at long size
      rw [frame, List.append_assoc] at equal
      have headerEq := (List.append_inj equal (by simp)).1
      have length := LittleEndian.eq_of_encode fits (by omega) headerEq
      omega
  | badRequest small bad =>
      have bodies := (frame_inj small valid.length_le equal).1
      exact bad cmd (bodies ▸ valid.isRequest)

/-! ## One request -/

variable {D : Type} [Dbl D] {db after : Db D} {conn : Conn} {now : UInt64}

/-- The connection after a request was executed; `rest` follows its frame. -/
def Conn.serve (conn : Conn) (done : Executed) (rest : Bytes) : Conn :=
  { conn with
    incoming := rest
    outgoing := conn.outgoing ++ done.response
    traffic := { conn.traffic with executed := conn.traffic.executed ++ [done] } }

theorem copyFrom_header {len : Nat} {rest : Bytes} (fits : len < 2 ^ 32) :
    ∃ header, copyFrom (LittleEndian.encode 4 len ++ rest) 0 4 = .ok header ∧
      (UInt32.ofNat (LittleEndian.decode header)).toNat = len := by
  refine ⟨LittleEndian.encode 4 len, ?_, ?_⟩
  · exact @copyFrom_eq [] (LittleEndian.encode 4 len) rest 0 4 rfl (by simp)
  · rw [LittleEndian.decode_encode_of_lt fits, UInt32.toNat_ofNat', Nat.mod_eq_of_lt fits]

theorem add_four {len : UInt32} (small : len.toNat ≤ kMaxMsg) :
    (4 + len).toNat = 4 + len.toNat := by
  unfold kMaxMsg at small
  rw [UInt32.toNat_add]
  exact Nat.mod_eq_of_lt (show 4 + len.toNat < 2 ^ 32 by omega)

/-- A part of a frame waits for more bytes. -/
theorem tryOneRequest_incomplete (incomplete : Incomplete conn.incoming) :
    tryOneRequest db conn now = .ok (db, conn, false) := by
  obtain ⟨incoming, stream⟩ : ∃ incoming, conn.incoming = incoming := ⟨_, rfl⟩
  rw [stream] at incomplete
  cases incomplete with
  | header short => rw [tryOneRequest, stream, if_pos short]
  | @body len rest small short =>
      have fits : len < 2 ^ 32 := by unfold kMaxMsg at small; omega
      obtain ⟨header, copied, lenEq⟩ := @copyFrom_header len rest fits
      have length : (LittleEndian.encode 4 len ++ rest).length = 4 + rest.length := by simp
      rw [tryOneRequest, stream, if_neg (by omega), copied]
      simp only [Exec.ok_bind, lenEq, add_four (lenEq ▸ small), length]
      rw [if_neg (by omega), if_pos (by omega), Exec.pure_eq_ok]

/-- A whole frame whose length is within the limit reaches the parser. -/
theorem tryOneRequest_frame {body rest : Bytes} (stream : conn.incoming = frame body ++ rest)
    (small : body.length ≤ kMaxMsg) :
    tryOneRequest db conn now = tryBody db conn now body := by
  have fits : body.length < 2 ^ 32 := by unfold kMaxMsg at small; omega
  obtain ⟨header, copied, lenEq⟩ := @copyFrom_header body.length (body ++ rest) fits
  have streamEq : frame body ++ rest = LittleEndian.encode 4 body.length ++ (body ++ rest) := by
    rw [frame, List.append_assoc]
  have length : (LittleEndian.encode 4 body.length ++ (body ++ rest)).length =
      4 + (body.length + rest.length) := by simp
  have request : copyFrom (LittleEndian.encode 4 body.length ++ (body ++ rest)) 4 body.length =
      .ok body := copyFrom_eq (by simp) rfl
  rw [tryOneRequest, stream, streamEq, if_neg (by omega), copied]
  simp only [Exec.ok_bind, lenEq, add_four (lenEq ▸ small), length]
  rw [if_neg (by omega), if_neg (by omega), request, Exec.ok_bind]

/-- A frame that is rejected only marks the connection. -/
theorem tryOneRequest_rejected (rejected : Rejected conn.incoming) :
    tryOneRequest db conn now = .ok (db, { conn with wantClose := true }, false) := by
  obtain ⟨incoming, stream⟩ : ∃ incoming, conn.incoming = incoming := ⟨_, rfl⟩
  rw [stream] at rejected
  cases rejected with
  | @tooLong len rest fits long =>
      obtain ⟨header, copied, lenEq⟩ := @copyFrom_header len rest fits
      have length : (LittleEndian.encode 4 len ++ rest).length = 4 + rest.length := by simp
      rw [tryOneRequest, stream, if_neg (by omega), copied]
      simp only [Exec.ok_bind, lenEq]
      rw [if_pos long, Exec.pure_eq_ok]
  | @badRequest body rest small bad =>
      rw [tryOneRequest_frame stream small]
      obtain ⟨result, call, accepts⟩ := parseReq_spec body
      cases result with
      | none => simp only [tryBody, call, Exec.ok_bind, Exec.pure_eq_ok]
      | some cmd => exact absurd ((accepts cmd).mp rfl) (bad cmd)

/-- A whole request is executed and consumed. -/
theorem tryOneRequest_served {cmd : List Bytes} {rest response : Bytes} (sendable : Sendable cmd)
    (stream : conn.incoming = frame (requestBody cmd) ++ rest)
    (call : respond db cmd now conn.outgoing = .ok (after, conn.outgoing ++ response)) :
    tryOneRequest db conn now = .ok (after, conn.serve ⟨cmd, now, response⟩ rest, true) := by
  rw [tryOneRequest_frame stream sendable.length_le]
  obtain ⟨result, parsed, accepts⟩ := parseReq_spec (requestBody cmd)
  obtain rfl := (accepts cmd).mpr sendable.isRequest
  have consumed : bufConsume conn.incoming (4 + (requestBody cmd).length) = .ok rest := by
    rw [bufConsume, stream, if_pos (by rw [List.length_append, length_frame]; omega),
      List.drop_left' (length_frame _)]
  simp only [tryBody, parsed, Exec.ok_bind, call, consumed, Exec.pure_eq_ok, List.drop_left]
  rfl

end RedisLite
