import RedisLite.Client.Send
import RedisLite.EventLoop.Errors
import RedisLite.Server.Listing

/-!
# Answers to the client

The client sends requests of at most 4096 bytes and accepts answers of at most 4096 bytes;
the server answers with up to 32 MiB.  Whether the client accepts the answer to its request
depends on what the database holds.
-/

namespace RedisLite

open Lib

variable {D : Type} [Dbl D]

/-- A command that the client sends is one that the server takes. -/
theorem sendable_of_short {cmd : List Bytes} (short : (requestBody cmd).length ≤ Client.kMaxMsg) :
    Sendable cmd := by
  unfold Client.kMaxMsg at short
  have parts := length_requestBody cmd
  have words : 4 * cmd.length ≤ (encodeArgs cmd).length := by
    clear short parts
    induction cmd with
    | nil => exact Nat.zero_le _
    | cons str cmd ih =>
        simp only [encodeArgs_cons, List.length_append, List.length_cons,
          LittleEndian.length_encode]
        omega
  refine ⟨?_, ?_⟩
  · unfold kMaxArgs
    omega
  · unfold kMaxMsg
    omega

/-- The frame in answer to a request is accepted exactly if the answer fits the client. -/
theorem Db.Denotes.accepts_iff {db : Db D} {store : Store D} (denotes : db.Denotes store)
    (fits : store.Fits) {cmd : List Bytes} (sendable : Sendable cmd) {conn : Conn} {rest : Bytes}
    (stream : conn.incoming = frame (requestBody cmd) ++ rest) (now : UInt64) :
    Exec.Returns (tryOneRequest db conn now) fun out => ∃ response,
      out.2.1.outgoing = conn.outgoing ++ response ∧
      (Client.Accepts response ↔ db.AnswerFits store (Request.ofCmd cmd)) := by
  obtain ⟨⟨after, written⟩, call, value, writtenEq, answerFits⟩ :=
    denotes.answer_size fits cmd now (responseBegin conn.outgoing).1
  have writtenEq : written = (responseBegin conn.outgoing).1 ++ value.encode Dbl.bits := writtenEq
  subst writtenEq
  rw [tryOneRequest_served sendable stream (respond_eq call)]
  refine .of_ok ⟨_, rfl, ?_⟩
  have limit := value.length_limited_le Dbl.bits
  rw [Client.accepts_frame_iff Dbl.bits (by unfold kMaxMsg at limit; omega), ← answerFits,
    fitsClient_iff]

/-- In every reached database, the server answers a request that `send_req` has accepted with
a frame that `read_res` accepts exactly if the answer fits the client. -/
theorem client_accepts_iff {history : List Event} {db : Db D} (reached : Reached history db)
    (small : history.length < 2 ^ 64) {wbuf sent : Bytes} {cmd : List Bytes}
    {write : Nat → Nat → Int} (size : wbuf.length = 4 + Client.kMaxMsg)
    (legal : Client.Legal write) (accepted : Client.sendReq wbuf cmd write = .ok (some sent))
    {conn : Conn} {rest : Bytes} (stream : conn.incoming = sent ++ rest) (now : UInt64) :
    Exec.Returns (tryOneRequest db conn now) fun out => ∃ response,
      out.2.1.outgoing = conn.outgoing ++ response ∧
      (Client.Accepts response ↔ db.AnswerFits (Store.after history) (Request.ofCmd cmd)) := by
  obtain ⟨rfl, short⟩ := Client.sendReq_accepted legal size accepted
  exact reached.denotes.accepts_iff (Store.fits_after small) (sendable_of_short short) stream now

/-- The array of `send_req`, with zeros. -/
def zeros : Bytes := List.replicate (4 + Client.kMaxMsg) 0

/-- The request GET k, as the client sends it when every `write` is complete. -/
theorem sendReq_get : Client.sendReq zeros [ascii "get", ascii "k"] (fun _ n => n) =
    .ok (some (frame (requestBody [ascii "get", ascii "k"]))) := by
  have legal : Client.Legal fun _ n => n := fun _ _ => le_refl _
  obtain ⟨sent, call, failed | written⟩ :=
    @Client.sendReq_spec _ legal [ascii "get", ascii "k"] (by decide) zeros List.length_replicate
  · rcases failed.2 with long | ⟨_, n, positive, fails⟩
    · revert long
      decide
    · have fails : (n : Int) ≤ 0 := fails
      omega
  · rw [call, written]

/-- A connection that has received a request. -/
def asking (sent : Bytes) : Conn := { fd := 4, incoming := sent }

theorem stream_get : (asking (frame (requestBody [ascii "get", ascii "k"]))).incoming =
    frame (requestBody [ascii "get", ascii "k"]) ++ [] :=
  (List.append_nil _).symm

/-- The answer to a GET of a short stored string is accepted. -/
theorem client_accepts_iff_get : ∃ (db : Db Nat) (out : Db Nat × Conn × Bool) (response : Bytes),
    Reached [.request [ascii "set", ascii "k", ascii "v"] 0] db ∧
    tryOneRequest db (asking (frame (requestBody [ascii "get", ascii "k"]))) 0 = .ok out ∧
    out.2.1.outgoing = response ∧ Client.Accepts response := by
  obtain ⟨db, reached⟩ := exists_reached Nat [[ascii "set", ascii "k", ascii "v"]] (by decide)
  obtain ⟨out, call, response, written, accepts⟩ :=
    client_accepts_iff reached (by decide) List.length_replicate (fun _ _ => le_refl _)
      sendReq_get stream_get 0
  refine ⟨db, out, response, reached, call, written, accepts.mpr ?_⟩
  rintro str deadline ⟨⟩
  exact .of_le (by decide)

/-- Another client has stored 5000 bytes under a key; the answer to a GET of it is not
accepted. -/
theorem long_answer_rejected : ∃ (db : Db Nat) (sent : Bytes) (out : Db Nat × Conn × Bool),
    Reached [.request [ascii "set", ascii "k", List.replicate 5000 0] 0] db ∧
    Client.sendReq zeros [ascii "get", ascii "k"] (fun _ n => n) = .ok (some sent) ∧
    tryOneRequest db (asking sent) 0 = .ok out ∧
    ¬ Client.Accepts out.2.1.outgoing := by
  obtain ⟨str, isStr⟩ : ∃ str : Bytes, str = List.replicate 5000 0 := ⟨_, rfl⟩
  have length : str.length = 5000 := by rw [isStr, List.length_replicate]
  rw [← isStr]
  have small : 1 < 2 ^ 64 := by decide
  obtain ⟨db, reached⟩ := exists_reached Nat [[ascii "set", ascii "k", str]] small
  have sendable : Sendable [ascii "get", ascii "k"] := ⟨by decide, by decide⟩
  obtain ⟨out, call, response, outgoing, accepts⟩ :=
    reached.denotes.accepts_iff (Store.fits_after small) sendable stream_get 0
  refine ⟨db, _, out, reached, sendReq_get, call, ?_⟩
  have lookup : (Store.after [.request [ascii "set", ascii "k", str] 0] : Store Nat).lookup
      (ascii "k") = some ⟨.str str, none⟩ := rfl
  intro accepted
  rw [outgoing] at accepted
  rcases accepts.mp accepted str none lookup with short | long
  · rw [length] at short
    revert short
    decide
  · rw [length] at long
    revert long
    decide

end RedisLite
