import RedisLite.EventLoop.Safety
import RedisLite.Server.Errors

/-!
# Errors in runs

Every request of a run came in a frame, which bounds the strings in the database.  A frame
that is rejected and a request that is answered with an error leave the database as it was,
and only requests that list keys or members are answered with an error about the size.
-/

namespace RedisLite

open Lib

variable {D : Type} [Dbl D]

/-! ## Requests of a run -/

/-- Every request in the history came in a frame. -/
def Sent (history : List Event) : Prop := ∀ cmd now, .request cmd now ∈ history → Sendable cmd

theorem Sent.cons {event : Event} {history : List Event} (sent : Sent (event :: history)) :
    Sent history :=
  fun cmd now member => sent cmd now (List.mem_cons_of_mem _ member)

theorem Sent.sweep {history : List Event} (sent : Sent history) {evicted : List Bytes}
    {now : UInt64} : Sent (.sweep evicted now :: history) :=
  fun cmd now member => sent cmd now ((List.mem_cons.mp member).resolve_left nofun)

theorem FramesServed.sent {history after : List Event} (served : FramesServed D history after)
    (sent : Sent history) : Sent after := by
  obtain ⟨done, executes, sendable⟩ := served
  induction executes with
  | nil => exact sent
  | @snoc middle done one executes _ ih =>
      rw [List.forall_mem_append] at sendable
      intro cmd now member
      rcases List.mem_cons.mp member with same | member
      · cases same
        exact sendable.2 one (List.mem_singleton_self one)
      · exact ih sendable.1 cmd now member

/-- In every state of every run, every request came in a frame. -/
theorem Run.sent {passed : List (Moment D)} {state : LoopState D} (run : Run passed state) :
    Sent state.g.journal.history := by
  induction run with
  | start init =>
      obtain ⟨-, -, -, journal⟩ := GData.Linked.init.of_eq_ok init
      rw [journal]
      nofun
  | step run legal call ih =>
      cases run.stepped legal call with
      | interrupted => exact ih
      | polled _ _ history =>
          rw [history]
          exact ih
      | turn _ _ served => exact served.sent ih
      | timers history =>
          rw [history]
          exact ih.sweep

omit [Dbl D] in
theorem Sendable.string_fits {cmd : List Bytes} {key str : Bytes} (sendable : Sendable cmd)
    (isSet : Request.ofCmd cmd = .set key str) : Store.StringFits D (.str str) := by
  obtain rfl : cmd = [ascii "set", key, str] := Request.words_ofCmd (by rw [isSet]; rfl)
  have size := sendable.length_le
  rw [requestBody] at size
  simp only [encodeArgs_cons, List.length_append, LittleEndian.length_encode] at size
  rintro bytes ⟨⟩
  omega

theorem every_stringFits_after : {history : List Event} → Sent history →
    (Store.after history : Store D).Every (Store.StringFits D)
  | [], _ => nofun
  | .request cmd now :: earlier, sent => by
      refine (every_stringFits_after sent.cons).apply (fun _ => id) nofun now.toNat
        (Request.ofCmd cmd) ?_ nofun nofun
      intro key str isSet
      exact (sent cmd now List.mem_cons_self).string_fits isSet
  | .sweep evicted now :: earlier, sent => (every_stringFits_after sent.cons).evict evicted

/-! ## Errors -/

/-- At any point of a run, also between the requests of one `handle_read`, a frame that is
rejected leaves the database alone, and a request that is answered with an error leaves the
keys, their values and their deadlines as they were.  Only KEYS and ZQUERY are answered with
the error about the size, and GET returns every string whole. -/
theorem run_errors_change_nothing {passed : List (Moment D)} {state : LoopState D}
    (run : Run passed state) {history : List Event} {db : Db D}
    (served : FramesServed D state.g.journal.history history) (reached : Reached history db)
    (small : history.length < 2 ^ 64) (conn : Conn) (now : UInt64) :
    db.Denotes (Store.after history) ∧
    (Rejected conn.incoming →
      tryOneRequest db conn now = .ok (db, { conn with wantClose := true }, false)) ∧
    ∀ cmd rest, Sendable cmd → conn.incoming = frame (requestBody cmd) ++ rest →
      Exec.Returns (tryOneRequest db conn now) fun out => ∃ value : Value D,
        out.2.1.outgoing = conn.outgoing ++ frame (value.encode Dbl.bits) ∧
        (∀ code msg, value = .err code msg → out.1.Denotes (Store.after history) ∧
          (code = errTooBig → (Request.ofCmd cmd).Lists)) ∧
        ∀ key str deadline, Request.ofCmd cmd = .get key →
          (Store.after history : Store D).lookup key = some ⟨.str str, deadline⟩ →
          value = .str str := by
  refine ⟨reached.denotes, tryOneRequest_rejected, ?_⟩
  intro cmd rest sendable stream
  have strings : (Store.after history : Store D).Every (Store.StringFits D) :=
    every_stringFits_after (served.sent run.sent)
  obtain ⟨⟨after, out⟩, call, -, afterDenotes, value, answers, outEq⟩ :=
    reached.denotes.respond (Store.fits_after small) cmd now conn.outgoing
  have outEq : out = conn.outgoing ++ frame ((value.limited Dbl.bits).encode Dbl.bits) := outEq
  rw [outEq] at call
  rw [tryOneRequest_served sendable stream call]
  refine .of_ok ⟨value.limited Dbl.bits, rfl, ?_, ?_⟩
  · intro code msg isErr
    obtain ⟨unchanged, lists⟩ := answers.apply_eq_of_limited strings isErr now.toNat
    rw [unchanged] at afterDenotes
    exact ⟨afterDenotes, lists⟩
  · intro key str deadline isGet lookup
    rw [isGet] at answers
    exact answers.get_whole strings lookup

/-- A command that expects a sorted set, under a key at which another client has stored a
string. -/
def wrongType : Bytes := frame (requestBody [ascii "zadd", ascii "k", ascii "1", ascii "a"])

/-- The database answers with an error and keeps the string. -/
theorem run_errors_change_nothing_type : ∃ (history : List Event) (db : Db Nat)
    (out : Db Nat × Conn × Bool),
    (Store.after history : Store Nat).lookup (ascii "k") = some ⟨.str (ascii "v"), none⟩ ∧
    tryOneRequest db { fd := 5, incoming := wrongType } 0 = .ok out ∧
    out.2.1.outgoing =
      frame ((Value.err errBadTyp (ascii "expect zset") : Value Nat).encode Dbl.bits) ∧
    out.1.Denotes (Store.after history) := by
  obtain ⟨state, out, asks, history, call, outgoing⟩ :
      ∃ (state : LoopState Nat) (out : Db Nat × Conn × Bool),
        clientAsks (frame (requestBody [ascii "set", ascii "k", ascii "v"])) 100 = .ok state ∧
        state.g.journal.history =
          [.request [ascii "set", ascii "k", ascii "v"] 0, .sweep [] 0] ∧
        tryOneRequest state.g.store { fd := 5, incoming := wrongType } 0 = .ok out ∧
        out.2.1.outgoing =
          frame ((Value.err errBadTyp (ascii "expect zset") : Value Nat).encode Dbl.bits) :=
    ⟨_, _, rfl, rfl, rfl, rfl⟩
  obtain ⟨passed, run⟩ := Run.clientAsks (by decide) asks
  have sendable : Sendable [ascii "zadd", ascii "k", ascii "1", ascii "a"] :=
    ⟨by decide, by decide⟩
  obtain ⟨-, -, executes⟩ := run_errors_change_nothing run (.refl _) run.reached
    (by rw [history]; decide) { fd := 5, incoming := wrongType } 0
  obtain ⟨value, written, unchanged, -⟩ :=
    (executes _ [] sendable (List.append_nil _).symm).of_eq_ok call
  obtain ⟨code, msg, rfl⟩ : ∃ code msg, value = .err code msg := by
    rw [outgoing, List.nil_append, frame, frame] at written
    have bodies := (List.append_inj written (by simp)).2
    cases value with
    | err code msg => exact ⟨code, msg, rfl⟩
    | _ => cases bodies
  refine ⟨state.g.journal.history, state.g.store, out, ?_, call, outgoing,
    (unchanged code msg rfl).1⟩
  rw [history]
  rfl

end RedisLite
