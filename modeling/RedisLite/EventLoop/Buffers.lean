import Mathlib.Algebra.Order.BigOperators.Group.List
import Mathlib.Algebra.Order.Ring.Nat
import RedisLite.EventLoop.Effects

/-!
# The buffers of a connection

A connection reads only while it has nothing to write.  So its outgoing bytes answer the
commands of a single read, and both of its buffers stay bounded, whatever the client sends
and however little it reads.  A client that goes on reading drains the outgoing buffer.
-/

namespace RedisLite

open Lib

variable {D : Type}

/-! ## The commands of one read -/

/-- The largest number of commands that one call of `read` can complete. -/
def kMaxBatch : Nat := 64 * 1024 / 8

/-- A frame has a length, a count and what they announce. -/
theorem eight_mul_length_le (cmds : List (List Bytes)) :
    8 * cmds.length ≤ (requestCode.encode cmds).length := by
  induction cmds with
  | nil => rfl
  | cons cmd cmds ih =>
      have word : (requestCode.word cmd).length = 4 + (requestBody cmd).length := length_frame _
      have body : 4 ≤ (requestBody cmd).length := by
        rw [requestBody, List.length_append, LittleEndian.length_encode]
        exact Nat.le_add_right _ _
      rw [PrefixCode.encode_cons, List.length_append, List.length_cons, word]
      omega

theorem Incomplete.length_lt {stream : Bytes} (incomplete : Incomplete stream) :
    stream.length < 4 + kMaxMsg := by
  cases incomplete with
  | header short => omega
  | body small short =>
      rw [List.length_append, LittleEndian.length_encode]
      omega

/-- The first frame may have begun before; the others are in the new bytes. -/
theorem Incomplete.count_le {stream data rest : Bytes} {cmds : List (List Bytes)}
    (incomplete : Incomplete stream) (short : data.length ≤ 64 * 1024)
    (valid : ∀ cmd ∈ cmds, Sendable cmd)
    (consumed : stream ++ data = requestCode.encode cmds ++ rest) : cmds.length ≤ kMaxBatch := by
  cases cmds with
  | nil => exact Nat.zero_le _
  | cons cmd cmds =>
      have first := valid cmd List.mem_cons_self
      have others := eight_mul_length_le cmds
      have length := congrArg List.length consumed
      have word : (requestCode.word cmd).length = 4 + (requestBody cmd).length := length_frame _
      rw [PrefixCode.encode_cons] at length consumed
      simp only [List.length_append] at length
      have cut : stream.length < (requestCode.word cmd).length := by
        by_contra whole
        rw [Nat.not_lt] at whole
        rw [List.append_assoc] at consumed
        have isPrefix : requestCode.word cmd <+: stream ++ data := ⟨_, consumed.symm⟩
        obtain ⟨tail, streamEq⟩ :=
          List.prefix_of_prefix_length_le isPrefix (List.prefix_append stream data) whole
        exact incomplete.stuck cmd tail first streamEq.symm
      unfold kMaxBatch
      rw [List.length_cons]
      omega

/-! ## What was sent -/

/-- `handle_write` sends the first bytes of the outgoing buffer. -/
theorem handleWrite_ok {conn after : Conn} {write : Nat → WriteResult}
    (call : handleWrite conn write = .ok after) :
    ∃ n, n ≤ conn.outgoing.length ∧ after.outgoing = conn.outgoing.drop n ∧
      after.traffic.sent = conn.traffic.sent ++ conn.outgoing.take n ∧
      ∀ count, write conn.outgoing.length = .wrote count → n = count := by
  rw [handleWrite, Exec.bind_eq_ok] at call
  obtain ⟨_, _, call⟩ := call
  cases result : write conn.outgoing.length with
  | again =>
      simp only [result, Exec.pure_eq_ok] at call
      cases call
      refine ⟨0, Nat.zero_le _, rfl, (List.append_nil _).symm, ?_⟩
      intro count same
      cases same
  | error =>
      simp only [result, Exec.pure_eq_ok] at call
      cases call
      refine ⟨0, Nat.zero_le _, rfl, (List.append_nil _).symm, ?_⟩
      intro count same
      cases same
  | wrote n =>
      simp only [result, Exec.bind_eq_ok] at call
      obtain ⟨outgoing, consume, call⟩ := call
      by_cases fits : n ≤ conn.outgoing.length
      · rw [bufConsume, if_pos fits] at consume
        cases consume
        refine ⟨n, fits, ?_, ?_, fun count same => WriteResult.wrote.inj same⟩
        · split at call <;> cases call <;> rfl
        · split at call <;> cases call <;> rfl
      · rw [bufConsume, if_neg fits] at consume
        cases consume

section

variable [Dbl D] {db dbAfter : Db D} {conn after : Conn} {now : UInt64} {more : Bool}

/-- Executing a request sends nothing. -/
theorem tryOneRequest_sent (call : tryOneRequest db conn now = .ok (dbAfter, after, more)) :
    after.traffic.sent = conn.traffic.sent := by
  rw [tryOneRequest] at call
  split at call
  · cases call
    rfl
  · obtain ⟨header, -, call⟩ := Exec.bind_eq_ok.mp call
    simp only at call
    split at call
    · cases call
      rfl
    split at call
    · cases call
      rfl
    · obtain ⟨request, -, call⟩ := Exec.bind_eq_ok.mp call
      obtain ⟨parsed, -, call⟩ := Exec.bind_eq_ok.mp call
      cases parsed with
      | none =>
          cases call
          rfl
      | some cmd =>
          obtain ⟨_, -, call⟩ := Exec.bind_eq_ok.mp call
          obtain ⟨_, -, call⟩ := Exec.bind_eq_ok.mp call
          cases call
          rfl

theorem requestsLoop_sent {reading : Nat → UInt64}
    (call : requestsLoop db conn reading = .ok (dbAfter, after)) :
    after.traffic.sent = conn.traffic.sent := by
  refine @loop_ok _ _ _
    (fun state : Db D × Conn × Nat => state.2.1.traffic.sent = conn.traffic.sent)
    (fun result : Db D × Conn => result.2.traffic.sent = conn.traffic.sent) ?_ _ _ _ rfl call
  rintro ⟨middleDb, middle, count⟩ outcome same turn
  obtain ⟨⟨triedDb, tried, more⟩, one, turn⟩ := Exec.bind_eq_ok.mp turn
  have sent := (tryOneRequest_sent one).trans same
  cases more <;> cases turn <;> exact sent

/-- `handle_read` sends the first bytes of what is to be sent. -/
theorem handleRead_sent {result : ReadResult} {reading : Nat → UInt64} {write : Nat → WriteResult}
    (call : handleRead db conn result reading write = .ok (dbAfter, after)) :
    conn.traffic.sent <+: after.traffic.sent := by
  cases result with
  | again =>
      cases call
      exact List.prefix_refl _
  | error =>
      cases call
      exact List.prefix_refl _
  | bytes data =>
      rw [handleRead] at call
      simp only at call
      split at call
      · cases call
        exact List.prefix_refl _
      · obtain ⟨⟨loopDb, middle⟩, loopEq, call⟩ := Exec.bind_eq_ok.mp call
        obtain ⟨last, replyEq, call⟩ := Exec.bind_eq_ok.mp call
        cases call
        have middleSent := requestsLoop_sent loopEq
        rw [← show middle.traffic.sent = conn.traffic.sent from middleSent]
        rw [replyNow] at replyEq
        split at replyEq
        · obtain ⟨n, -, -, sent, -⟩ := handleWrite_ok replyEq
          rw [sent]
          exact List.prefix_append ..
        · cases replyEq
          exact List.prefix_refl _

end

theorem suffix_of_sent {sent left sentAfter leftAfter : Bytes}
    (same : sentAfter ++ leftAfter = sent ++ left) (further : sent <+: sentAfter) :
    leftAfter <:+ left := by
  obtain ⟨part, rfl⟩ := further
  rw [List.append_assoc] at same
  exact ⟨part, List.append_cancel_left same⟩

/-! ## The bounds -/

variable [Dbl D]

theorem Executed.Answered.length_le {history : List Event} {one : Executed}
    (answered : one.Answered D history) : one.response.length ≤ 4 + kMaxMsg := by
  obtain ⟨value, -, response⟩ := answered
  have limited := value.length_limited_le Dbl.bits
  rw [response, length_frame]
  omega

/-- The outgoing bytes answer the last commands, no more of them than one read completes. -/
def Conn.Backlog (conn : Conn) : Prop :=
  ∃ done, done <:+ conn.traffic.executed ∧ done.length ≤ kMaxBatch ∧
    conn.outgoing <:+ done.flatMap Executed.response

/-- A turn executes no more commands than one read completes. -/
theorem GData.Serves.count_le {g after : GData D} {value middle last : Conn} {turn : Turn}
    {data : Bytes} {done : List Executed}
    (serves : g.Serves value turn after middle last data done)
    (sound : value.Sound D g.journal.history) (incomplete : Incomplete value.incoming) :
    done.length ≤ kMaxBatch := by
  have before := sound.stream_eq
  have consumed := serves.reads.sound.stream_eq
  have received : middle.traffic.received = value.traffic.received ++ data := serves.reads.received
  rw [received, before, serves.executed, List.map_append, PrefixCode.encode_append,
    List.append_assoc, List.append_assoc] at consumed
  have consumed := List.append_cancel_left consumed
  rw [← @List.length_map _ _ done Executed.cmd]
  apply incomplete.count_le serves.data_le _ consumed
  intro cmd member
  obtain ⟨one, oneMem, rfl⟩ := List.mem_map.mp member
  apply serves.reads.sound.valid one
  rw [serves.executed]
  exact List.mem_append_right _ oneMem

/-- A turn keeps the backlog small: it reads only when there is none. -/
theorem GData.Took.backlog {g after : GData D} {conn : Ptr} {value middle last : Conn}
    {turn : Turn} {data : Bytes} {done : List Executed}
    (took : g.Took conn value turn after middle last)
    (serves : g.Serves value turn after middle last data done)
    (sound : value.Sound D g.journal.history) (incomplete : Incomplete value.incoming)
    (readable : turn.revents.pollin = true → value.wantRead = true)
    (backlog : value.Backlog) : last.Backlog := by
  have middleBacklog : middle.Backlog := by
    have read := took.read
    by_cases pollin : turn.revents.pollin = true
    · rw [if_pos pollin] at read
      have nothing : value.outgoing = [] := by
        have flag := sound.ready.wantRead
        rw [readable pollin] at flag
        exact List.isEmpty_iff.mp flag.symm
      have sent := handleRead_sent read
      have output := serves.reads.sound.output_eq
      rw [serves.executed, List.flatMap_append, ← sound.output_eq, nothing, List.append_nil]
        at output
      exact ⟨done, ⟨value.traffic.executed, serves.executed.symm⟩,
        serves.count_le sound incomplete, suffix_of_sent output sent⟩
    · rw [if_neg pollin] at read
      obtain ⟨-, rfl⟩ := Prod.mk.inj (Except.ok.inj read)
      exact backlog
  have write := took.write
  by_cases pollout : turn.revents.pollout = true
  · rw [if_pos pollout] at write
    obtain ⟨n, -, outgoing, -, -⟩ := handleWrite_ok write
    obtain ⟨pending, isSuffix, few, answers⟩ := middleBacklog
    refine ⟨pending, ?_, few, ?_⟩
    · rw [(serves.writes pollout).executed]
      exact isSuffix
    · rw [outgoing]
      exact (List.drop_suffix n _).trans answers
  · rw [if_neg pollout] at write
    cases write
    exact middleBacklog

/-- No connection of a run has a larger backlog. -/
theorem Run.backlog {passed : List (Moment D)} {state : LoopState D} (run : Run passed state) :
    ∀ conn value, state.g.conns.cell conn = some value → value.Backlog := by
  induction run with
  | start init =>
      obtain ⟨-, -, conns, -⟩ := GData.Linked.init.of_eq_ok init
      intro conn value live
      rw [conns] at live
      cases live
  | step run legal call ih =>
      cases run.effect legal call with
      | interrupted => exact ih
      | waited polls => exact ih
      | accepted polls cells =>
          intro conn value live
          rw [cells] at live
          split at live
          · cases live
            exact ⟨[], List.nil_suffix, Nat.zero_le _, List.nil_suffix⟩
          · exact ih conn value live
      | @turn _ _ arg _ conn value _ _ turn polled took =>
          obtain ⟨data, done, serves⟩ := run.serves legal polled took
          have readable : turn.revents.pollin = true → value.wantRead = true := by
            intro pollin
            have requested := Turn.Legal.pollin legal pollin
            rwa [polled.arg_eq] at requested
          have lastBacklog := took.backlog serves (run.sound took.live)
            (run.incomplete took.live) readable (ih conn value took.live)
          intro other new live
          rw [took.cells] at live
          split at live
          · split at live
            · cases live
            · cases live
              exact lastBacklog
          · exact ih other new live
      | timers sweep history cells =>
          intro conn value live
          rw [cells, Option.filter_eq_some_iff] at live
          exact ih conn value live.1

/-- In every state of every run the buffers of every connection are bounded, whatever the
clients send and however little they read.  The incoming bytes are less than the longest
frame; the outgoing bytes are the end of the responses to at most 8192 commands, the last
ones of the connection; and a connection with outgoing bytes does not read. -/
theorem run_bounds_buffers {passed : List (Moment D)} {state : LoopState D}
    (run : Run passed state) {conn : Ptr} {value : Conn}
    (live : state.g.conns.cell conn = some value) :
    value.incoming.length < 4 + kMaxMsg ∧ value.Backlog ∧
      value.outgoing.length ≤ kMaxBatch * (4 + kMaxMsg) ∧
      (value.outgoing ≠ [] → value.wantRead = false) := by
  have sound := run.sound live
  have backlog := run.backlog conn value live
  refine ⟨(run.incomplete live).length_lt, backlog, ?_, ?_⟩
  · obtain ⟨done, isSuffix, few, answers⟩ := backlog
    have short : ∀ one ∈ done, one.response.length ≤ 4 + kMaxMsg := by
      intro one member
      obtain ⟨earlier, -, answered⟩ := sound.answered one (isSuffix.subset member)
      exact answered.length_le
    have total : (done.flatMap Executed.response).length ≤ done.length * (4 + kMaxMsg) := by
      rw [List.length_flatMap]
      have sum := List.sum_le_card_nsmul (done.map fun one => one.response.length) (4 + kMaxMsg)
        (by
          intro length member
          obtain ⟨one, oneMem, rfl⟩ := List.mem_map.mp member
          exact short one oneMem)
      rwa [List.length_map, Nat.nsmul_eq_mul] at sum
    calc value.outgoing.length ≤ (done.flatMap Executed.response).length := answers.length_le
      _ ≤ done.length * (4 + kMaxMsg) := total
      _ ≤ kMaxBatch * (4 + kMaxMsg) := Nat.mul_le_mul_right _ few
  · intro waiting
    rw [sound.ready.wantRead]
    exact List.isEmpty_eq_false_iff.mpr waiting

/-- The client that does not read the answer yet. -/
theorem run_bounds_buffers_keys : ∃ conn : Conn, conn.outgoing.length = 9 ∧
    conn.incoming.length < 4 + kMaxMsg ∧ conn.Backlog ∧ conn.wantRead = false := by
  obtain ⟨passed, state, after, value, new, run, -, -, -, live, length, -⟩ := Run.asks
  obtain ⟨short, backlog, -, waits⟩ := run_bounds_buffers run live
  refine ⟨new, length, short, backlog, waits ?_⟩
  intro nothing
  rw [nothing] at length
  cases length

end RedisLite
