import RedisLite.Client.Decode
import RedisLite.Server.Capacity

/-!
# Responses

The part of `try_one_request` that executes a command, and the frame that it appends
to the outgoing buffer.
-/

namespace RedisLite

open Lib

variable {D : Type}

/-! ## Frames -/

/-- The value that is sent: an error in place of one that is too big. -/
def Value.limited (bits : D → UInt64) (value : Value D) : Value D :=
  if (value.encode bits).length > kMaxMsg then .err errTooBig (ascii "response is too big.")
  else value

theorem Value.length_limited_le (bits : D → UInt64) (value : Value D) :
    ((value.limited bits).encode bits).length ≤ kMaxMsg := by
  unfold Value.limited
  split
  · simp only [Value.encode]
    decide
  · omega

theorem responseBegin_eq (out : Bytes) :
    responseBegin out = (out ++ LittleEndian.encode 4 0, out.length) := rfl

section

variable (bits : D → UInt64) (out : Bytes) (value : Value D)

/-- An oversized body is cut back to the header and replaced. -/
theorem responseLimit_eq :
    responseLimit (out ++ LittleEndian.encode 4 0 ++ value.encode bits) out.length =
      out ++ LittleEndian.encode 4 0 ++ (value.limited bits).encode bits := by
  have size : responseSize (out ++ LittleEndian.encode 4 0 ++ value.encode bits) out.length =
      (value.encode bits).length := by
    simp only [responseSize, List.length_append, LittleEndian.length_encode]
    omega
  rw [responseLimit, size, Value.limited]
  split
  · rw [List.take_left' (by simp), outErr_eq bits]
  · rfl

/-- The header that was reserved receives the length of the body. -/
theorem responseEnd_eq :
    responseEnd (out ++ LittleEndian.encode 4 0 ++ value.encode bits) out.length =
      out ++ frame ((value.limited bits).encode bits) := by
  have size : responseSize (out ++ LittleEndian.encode 4 0 ++ (value.limited bits).encode bits)
      out.length = ((value.limited bits).encode bits).length := by
    simp only [responseSize, List.length_append, LittleEndian.length_encode]
    omega
  have header : LittleEndian.encode 4
      (UInt32.ofNat ((value.limited bits).encode bits).length).toNat =
      LittleEndian.encode 4 ((value.limited bits).encode bits).length := by simp
  simp only [responseEnd, responseLimit_eq, size, header, bufPatch, frame,
    LittleEndian.length_encode]
  rw [List.drop_left' (by simp), List.append_assoc out, List.take_left, List.append_assoc]

end

/-! ## Executing a command -/

variable [Dbl D]

/-- The part of `try_one_request` behind `parse_req`: execute the command and frame its
response. -/
def respond (db : Db D) (cmd : List Bytes) (now : UInt64) (outgoing : Bytes) :
    Exec (Db D × Bytes) := do
  let (outgoing, headerPos) := responseBegin outgoing
  let (db, outgoing) ← doRequest db cmd now outgoing
  return (db, responseEnd outgoing headerPos)

/-- The value that a command writes is framed. -/
theorem respond_eq {db after : Db D} {cmd : List Bytes} {now : UInt64} {out : Bytes}
    {value : Value D}
    (call : doRequest db cmd now (responseBegin out).1 =
      .ok (after, (responseBegin out).1 ++ value.encode Dbl.bits)) :
    RedisLite.respond db cmd now out =
      .ok (after, out ++ frame ((value.limited Dbl.bits).encode Dbl.bits)) := by
  have framed := responseEnd_eq Dbl.bits out value
  simp only [RedisLite.respond]
  rw [call, Exec.ok_bind, responseBegin_eq]
  rw [framed]
  rfl

/-- Executing a command appends the frame of an answer. -/
theorem Db.Denotes.respond {db : Db D} {store : Store D} (denotes : db.Denotes store)
    (fits : store.Fits) (cmd : List Bytes) (now : UInt64) (out : Bytes) :
    Exec.Returns (respond db cmd now out) fun result =>
      (∃ written, RedisLite.doRequest db cmd now (responseBegin out).1 = .ok (result.1, written)) ∧
      result.1.Denotes (store.apply now.toNat (Request.ofCmd cmd)) ∧
      ∃ value, store.Answers now (Request.ofCmd cmd) value ∧
        result.2 = out ++ frame ((value.limited Dbl.bits).encode Dbl.bits) := by
  obtain ⟨⟨after, written⟩, call, afterDenotes, value, answers, appended⟩ :=
    denotes.doRequest fits cmd now (responseBegin out).1
  have appended : written = (responseBegin out).1 ++ value.encode Dbl.bits := appended
  subst appended
  exact ⟨_, respond_eq call, ⟨_, call⟩, afterDenotes, value, answers, rfl⟩

/-- Every command that a reached database executes leaves the bytes in front unchanged
and appends one frame.  The header is the length of the body; the body is at most
`kMaxMsg` bytes and one value with exact lengths and counts, the answer unless that is
too big; and the client visits that value and returns the length. -/
theorem respond_appends_frame {history : List Event} {db : Db D} (reached : Reached history db)
    (fits : (Store.after history : Store D).Fits) (cmd : List Bytes) (now : UInt64)
    (out : Bytes) :
    Exec.Returns (respond db cmd now out) fun result => ∃ value answer : Value D,
      (Store.after history).Answers now (Request.ofCmd cmd) answer ∧
      value = answer.limited Dbl.bits ∧
      result.2 = out ++ LittleEndian.encode 4 (value.encode Dbl.bits).length ++
        value.encode Dbl.bits ∧
      (value.encode Dbl.bits).length ≤ kMaxMsg ∧ value.Bounded ∧
      Client.printResponse ((value.encode Dbl.bits).length + 1) (value.encode Dbl.bits) =
        .ok ((value.encode Dbl.bits).length, value.visits Dbl.bits) := by
  obtain ⟨⟨after, written⟩, call, -, -, value, answers, appended⟩ :=
    reached.denotes.respond fits cmd now out
  have limit := value.length_limited_le Dbl.bits
  have small : ((value.limited Dbl.bits).encode Dbl.bits).length < 2 ^ 31 := by
    unfold kMaxMsg at limit
    omega
  refine ⟨_, call, value.limited Dbl.bits, value, answers, rfl, ?_, limit, ?_, ?_⟩
  · rw [List.append_assoc]
    exact appended
  · exact Value.bounded_of_length Dbl.bits _ (by omega)
  · have decoded := Client.printResponse_encode Dbl.bits (value.limited Dbl.bits) [] _
      (Nat.le_succ _) small
    rwa [List.append_nil] at decoded

/-- The response to a GET of a stored string. -/
theorem respond_appends_frame_get : ∃ db after : Db Nat,
    Reached [.request [ascii "set", ascii "k", ascii "v"] 0] db ∧
    respond db [ascii "get", ascii "k"] 0 [7] = .ok (after, [7] ++ LittleEndian.encode 4 6 ++
      (Value.str (ascii "v") : Value Nat).encode Dbl.bits) ∧
    Client.printResponse 7 ((Value.str (ascii "v") : Value Nat).encode Dbl.bits) =
      .ok (6, (Value.str (ascii "v") : Value Nat).visits Dbl.bits) := by
  obtain ⟨db, reached⟩ := exists_reached Nat [[ascii "set", ascii "k", ascii "v"]] (by decide)
  obtain ⟨⟨after, out⟩, call, value, answer, answers, isLimited, written, -, -, printed⟩ :=
    respond_appends_frame reached (Store.fits_after (by decide)) [ascii "get", ascii "k"] 0 [7]
  have isAnswer : answer = .str (ascii "v") := answers
  rw [isAnswer] at isLimited
  have isValue : value = .str (ascii "v") := isLimited
  rw [isValue] at written printed
  have written : out = _ := written
  exact ⟨db, after, reached, by rw [call, written]; rfl, printed⟩

end RedisLite
