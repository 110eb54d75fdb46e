import RedisLite.EventLoop.Stream
import RedisLite.Server.Capacity

/-!
# The traffic of a connection

`handle_read` executes the commands of all whole frames that a connection has received,
in order, and appends their responses; `handle_write` moves a part of the responses to
the socket.
-/

namespace RedisLite

open Lib

variable {D : Type}

/-! ## Executed commands -/

/-- The request of an executed command. -/
def Executed.event (done : Executed) : Event := .request done.cmd done.now

/-- The response is the frame of the answer of the store after the history. -/
def Executed.Answered (D : Type) [Dbl D] (history : List Event) (done : Executed) : Prop :=
  ∃ value : Value D, (Store.after history).Answers done.now (Request.ofCmd done.cmd) value ∧
    done.response = frame ((value.limited Dbl.bits).encode Dbl.bits)

/-- Commands that are executed one after the other, after the first history and up to the
second one. -/
inductive Executes (D : Type) [Dbl D] : List Event → List Executed → List Event → Prop where
  | nil (history : List Event) : Executes D history [] history
  | snoc {history middle : List Event} {done : List Executed} {one : Executed}
      (executes : Executes D history done middle) (answered : one.Answered D middle) :
      Executes D history (done ++ [one]) (one.event :: middle)

namespace Executes

variable [Dbl D] {history after : List Event} {done : List Executed}

theorem length_eq (executes : Executes D history done after) :
    after.length = history.length + done.length := by
  induction executes with
  | nil => rfl
  | snoc _ _ ih =>
      rw [List.length_cons, List.length_append, List.length_singleton, ih]
      omega

/-- Every command was answered at its place in the history. -/
theorem exists_answered (executes : Executes D history done after) {one : Executed}
    (member : one ∈ done) :
    ∃ earlier, one.event :: earlier <:+ after ∧ one.Answered D earlier := by
  induction executes with
  | nil => cases member
  | @snoc middle done last _ answered ih =>
      rcases List.mem_append.mp member with member | member
      · obtain ⟨earlier, suffix, answer⟩ := ih member
        exact ⟨earlier, suffix.trans (List.suffix_cons _ _), answer⟩
      · obtain rfl := List.mem_singleton.mp member
        exact ⟨middle, List.suffix_refl _, answered⟩

theorem suffix (executes : Executes D history done after) : history <:+ after := by
  induction executes with
  | nil => exact List.suffix_refl _
  | snoc _ _ ih => exact ih.trans (List.suffix_cons _ _)

theorem eq_foldl (executes : Executes D history done after) :
    after = done.foldl (fun history one => one.event :: history) history := by
  induction executes with
  | nil => rfl
  | snoc _ _ ih => rw [List.foldl_append, ← ih]; rfl

end Executes

/-! ## The loop over requests -/

/-- The connection after requests were executed; `rest` follows their frames. -/
def Conn.serveAll (conn : Conn) (done : List Executed) (rest : Bytes) : Conn :=
  { conn with
    incoming := rest
    outgoing := conn.outgoing ++ done.flatMap Executed.response
    traffic := { conn.traffic with executed := conn.traffic.executed ++ done } }

theorem Conn.serveAll_nil (conn : Conn) : conn.serveAll [] conn.incoming = conn := by
  simp [Conn.serveAll]

theorem Conn.serve_serveAll (conn : Conn) (done : List Executed) (one : Executed)
    (middle rest : Bytes) :
    (conn.serveAll done middle).serve one rest = conn.serveAll (done ++ [one]) rest := by
  simp [Conn.serveAll, Conn.serve]

theorem length_requestCode (cmds : List (List Bytes)) :
    cmds.length ≤ (requestCode.encode cmds).length := by
  induction cmds with
  | nil => rfl
  | cons cmd cmds ih =>
      have word : (requestCode.word cmd).length = 4 + (requestBody cmd).length := length_frame _
      rw [PrefixCode.encode_cons, List.length_append, List.length_cons, word]
      omega

variable [Dbl D]

/-- A request is executed and answered. -/
theorem Reached.respond {history : List Event} {db : Db D} (reached : Reached history db)
    (small : history.length < 2 ^ 64) {now : UInt64} (later : clock history ≤ now)
    (cmd : List Bytes) (out : Bytes) :
    ∃ after response, RedisLite.respond db cmd now out = .ok (after, out ++ response) ∧
      Reached (.request cmd now :: history) after ∧
      Executed.Answered D history ⟨cmd, now, response⟩ := by
  have fits := Store.fits_after (D := D) small
  obtain ⟨⟨after, written⟩, call, ⟨body, request⟩, -, value, answers, writtenEq⟩ :=
    reached.denotes.respond fits cmd now out
  have writtenEq : written = out ++ frame ((value.limited Dbl.bits).encode Dbl.bits) := writtenEq
  subst writtenEq
  exact ⟨after, _, call, .request cmd now reached later fits request, value, answers, rfl⟩

/-- The outcome of the loop over requests: the frames up to `rest` were executed. -/
structure Served (history : List Event) (conn : Conn) (done : List Executed)
    (historyAfter : List Event) (db : Db D) (rest : Bytes) : Prop where
  executes : Executes D history done historyAfter
  reached : Reached historyAfter db
  stream_eq : conn.incoming = requestCode.encode (done.map Executed.cmd) ++ rest
  valid : ∀ one ∈ done, Sendable one.cmd

namespace Served

variable {history after : List Event} {conn : Conn} {done : List Executed} {db : Db D}
  {rest : Bytes}

theorem length_le (served : Served history conn done after db rest) :
    done.length + rest.length ≤ conn.incoming.length := by
  have frames := length_requestCode (done.map Executed.cmd)
  rw [List.length_map] at frames
  rw [served.stream_eq, List.length_append]
  omega

/-- One turn waits, rejects or executes one more command. -/
theorem turn (served : Served history conn done after db rest) {reading : Nat → UInt64}
    (small : history.length + conn.incoming.length < 2 ^ 64)
    (later : clock after ≤ reading done.length) :
    requestsTurn reading (db, conn.serveAll done rest, done.length) =
        .ok (.done (db, conn.serveAll done rest)) ∧ Incomplete rest ∨
    requestsTurn reading (db, conn.serveAll done rest, done.length) =
        .ok (.done (db, { conn.serveAll done rest with wantClose := true })) ∧ Rejected rest ∨
    ∃ one dbAfter tail, requestsTurn reading (db, conn.serveAll done rest, done.length) =
        .ok (.next (dbAfter, conn.serveAll (done ++ [one]) tail, done.length + 1)) ∧
      Served history conn (done ++ [one]) (one.event :: after) dbAfter tail ∧
      tail.length < rest.length ∧ one.now = reading done.length := by
  rcases stream_cases rest with incomplete | rejected | ⟨cmd, tail, sendable, restEq⟩
  · left
    have tried := @tryOneRequest_incomplete D _ db (conn.serveAll done rest)
      (reading done.length) incomplete
    simp only [requestsTurn, tried, Exec.ok_bind, Exec.pure_eq_ok]
    exact ⟨rfl, incomplete⟩
  · right; left
    have tried := @tryOneRequest_rejected D _ db (conn.serveAll done rest)
      (reading done.length) rejected
    simp only [requestsTurn, tried, Exec.ok_bind, Exec.pure_eq_ok]
    exact ⟨rfl, rejected⟩
  · right; right
    have bound := served.length_le
    have count := served.executes.length_eq
    obtain ⟨dbAfter, response, call, reached, answered⟩ := served.reached.respond (by omega)
      later cmd (conn.serveAll done rest).outgoing
    have tried := tryOneRequest_served sendable
      (show (conn.serveAll done rest).incoming = _ from restEq) call
    refine ⟨⟨cmd, reading done.length, response⟩, dbAfter, tail, ?_, ⟨?_, reached, ?_, ?_⟩, ?_, rfl⟩
    · simp only [requestsTurn, tried, Exec.ok_bind, Exec.pure_eq_ok, Conn.serve_serveAll]
      rfl
    · exact served.executes.snoc answered
    · rw [served.stream_eq, restEq, List.map_append, PrefixCode.encode_append, List.append_assoc]
      simp [requestCode]
    · intro one member
      rcases List.mem_append.mp member with member | member
      · exact served.valid one member
      · rw [List.mem_singleton.mp member]
        exact sendable
    · rw [restEq, List.length_append, length_frame]
      omega

end Served

/-- What is left when the loop over requests ends: a part of a frame, or a frame that is
rejected, and then the connection is marked. -/
def Conn.Stops (conn : Conn) : Prop :=
  Incomplete conn.incoming ∨ Rejected conn.incoming ∧ conn.wantClose = true

/-- The loop executes the commands of all whole frames. -/
theorem requestsLoop_spec {history : List Event} {db : Db D} (reached : Reached history db)
    (conn : Conn) {reading : Nat → UInt64}
    (small : history.length + conn.incoming.length < 2 ^ 64)
    (later : clock history ≤ reading 0) (grows : ∀ count, reading count ≤ reading (count + 1)) :
    Exec.Returns (requestsLoop db conn reading) fun result =>
      ∃ done historyAfter rest close, Served history conn done historyAfter result.1 rest ∧
        result.2 = { conn.serveAll done rest with wantClose := conn.wantClose || close } ∧
        (Incomplete rest ∧ close = false ∨ Rejected rest ∧ close = true) := by
  refine loop_returns (fun state : Db D × Conn × Nat => ∃ done after rest,
      Served history conn done after state.1 rest ∧ state.2.1 = conn.serveAll done rest ∧
      state.2.2 = done.length ∧ clock after ≤ reading done.length)
    (fun state => state.2.1.incoming.length) ?_ _ _
    ⟨[], history, conn.incoming, ⟨.nil history, reached, by simp, by simp⟩,
      conn.serveAll_nil.symm, rfl, later⟩ (Nat.lt_succ_self _)
  rintro ⟨db, connNow, count⟩ ⟨done, after, rest, served, connEq, countEq, later⟩
  have connEq : connNow = conn.serveAll done rest := connEq
  have countEq : count = done.length := countEq
  subst connEq countEq
  rcases served.turn small later with ⟨turnEq, incomplete⟩ | ⟨turnEq, rejected⟩ |
    ⟨one, dbAfter, tail, turnEq, servedAfter, shorter, readingEq⟩
  · rw [turnEq, Exec.returns_ok]
    exact ⟨done, after, rest, false, served, by simp [Conn.serveAll], .inl ⟨incomplete, rfl⟩⟩
  · rw [turnEq, Exec.returns_ok]
    exact ⟨done, after, rest, true, served, by simp [Conn.serveAll], .inr ⟨rejected, rfl⟩⟩
  · rw [turnEq, Exec.returns_ok]
    refine ⟨⟨done ++ [one], one.event :: after, tail, servedAfter, rfl, by simp, ?_⟩, shorter⟩
    have step : clock (one.event :: after) = reading done.length := readingEq
    rw [step, List.length_append]
    exact grows done.length

/-! ## Writing and reading -/

/-- `write` accepts no more than it is given. -/
def WriteLegal (write : Nat → WriteResult) : Prop := ∀ size n, write size = .wrote n → n ≤ size

/-- `read` returns no more than its buffer holds. -/
def ReadResult.Legal : ReadResult → Prop
  | .bytes data => data.length ≤ 64 * 1024
  | .again | .error => True

/-- The fields that reading and writing leave alone. -/
structure Conn.Keeps (conn after : Conn) : Prop where
  fd : after.fd = conn.fd
  lastActiveMs : after.lastActiveMs = conn.lastActiveMs
  eventMs : after.traffic.eventMs = conn.traffic.eventMs

/-- The readiness flags follow the outgoing buffer. -/
structure Conn.Ready (conn : Conn) : Prop where
  wantRead : conn.wantRead = conn.outgoing.isEmpty
  wantWrite : conn.wantWrite = !conn.outgoing.isEmpty

/-- What a connection has received, executed and sent, after a history of the database. -/
structure Conn.Logged (D : Type) [Dbl D] (history : List Event) (conn : Conn) : Prop where
  stream_eq : conn.traffic.received =
    requestCode.encode (conn.traffic.executed.map Executed.cmd) ++ conn.incoming
  valid : ∀ one ∈ conn.traffic.executed, Sendable one.cmd
  stops : conn.Stops
  output_eq : conn.traffic.sent ++ conn.outgoing =
    conn.traffic.executed.flatMap Executed.response
  answered : ∀ one ∈ conn.traffic.executed,
    ∃ earlier, one.event :: earlier <:+ history ∧ one.Answered D earlier

/-- The invariant of a connection. -/
structure Conn.Sound (D : Type) [Dbl D] (history : List Event) (conn : Conn) : Prop
    extends conn.Logged D history where
  ready : conn.Ready

/-- The effect of `handle_write`: a part of the outgoing bytes is sent. -/
structure Conn.Writes (conn after : Conn) : Prop where
  keeps : conn.Keeps after
  incoming : after.incoming = conn.incoming
  received : after.traffic.received = conn.traffic.received
  executed : after.traffic.executed = conn.traffic.executed
  output_eq : after.traffic.sent ++ after.outgoing = conn.traffic.sent ++ conn.outgoing
  ready : after.Ready
  close : conn.wantClose = true → after.wantClose = true

omit [Dbl D] in
/-- `handle_write` with something to write does not fail its assertion. -/
theorem handleWrite_spec {conn : Conn} {write : Nat → WriteResult} (legal : WriteLegal write)
    (nonempty : conn.outgoing ≠ []) (wantRead : conn.wantRead = false)
    (wantWrite : conn.wantWrite = true) :
    Exec.Returns (handleWrite conn write) conn.Writes := by
  have positive : conn.outgoing.length > 0 := List.length_pos_iff.mpr nonempty
  have isEmpty : conn.outgoing.isEmpty = false := by simpa using nonempty
  rw [handleWrite, Exec.assert_of positive, Exec.ok_bind]
  cases result : write conn.outgoing.length with
  | again =>
      simp only [Exec.pure_eq_ok, Exec.returns_ok]
      exact ⟨⟨rfl, rfl, rfl⟩, rfl, rfl, rfl, rfl, ⟨by rw [wantRead, isEmpty],
        by rw [wantWrite, isEmpty]; rfl⟩, id⟩
  | error =>
      simp only [Exec.pure_eq_ok, Exec.returns_ok]
      exact ⟨⟨rfl, rfl, rfl⟩, rfl, rfl, rfl, rfl, ⟨by rw [wantRead, isEmpty],
        by rw [wantWrite, isEmpty]; rfl⟩, fun _ => rfl⟩
  | wrote n =>
      have bound := legal _ _ result
      simp only [bufConsume, if_pos bound, Exec.ok_bind, Exec.pure_eq_ok, Exec.returns_ok]
      have parts : (conn.traffic.sent ++ conn.outgoing.take n) ++ conn.outgoing.drop n =
          conn.traffic.sent ++ conn.outgoing := by
        rw [List.append_assoc, List.take_append_drop]
      split
      · rename_i empty
        have empty := List.length_eq_zero_iff.mp empty
        exact ⟨⟨rfl, rfl, rfl⟩, rfl, rfl, rfl, parts, ⟨by simp only [empty]; rfl,
          by simp only [empty]; rfl⟩, id⟩
      · rename_i rest
        have rest : (conn.outgoing.drop n).isEmpty = false := by
          rw [List.isEmpty_eq_false_iff]
          exact fun empty => rest (by rw [empty]; rfl)
        exact ⟨⟨rfl, rfl, rfl⟩, rfl, rfl, rfl, parts, ⟨by simp only [rest, wantRead],
          by simp only [rest, wantWrite]; rfl⟩, id⟩

theorem Conn.Logged.writes {history : List Event} {conn after : Conn}
    (logged : conn.Logged D history) (writes : conn.Writes after) : after.Sound D history where
  stream_eq := by rw [writes.received, writes.executed, writes.incoming, logged.stream_eq]
  valid := by rw [writes.executed]; exact logged.valid
  stops := by
    rw [Conn.Stops, writes.incoming]
    exact logged.stops.imp id fun rejected => ⟨rejected.1, writes.close rejected.2⟩
  output_eq := by rw [writes.output_eq, writes.executed, logged.output_eq]
  answered := by rw [writes.executed]; exact logged.answered
  ready := writes.ready

/-- The effect of `handle_read` that received `data`. -/
structure Conn.Reads (history : List Event) (conn : Conn) (data : Bytes)
    (historyAfter : List Event) (db : Db D) (after : Conn) : Prop where
  keeps : conn.Keeps after
  sound : after.Sound D historyAfter
  reached : Reached historyAfter db
  received : after.traffic.received = conn.traffic.received ++ data
  executes : ∃ done, Executes D history done historyAfter ∧
    after.traffic.executed = conn.traffic.executed ++ done

/-- Requests of whole frames were executed between two histories. -/
def FramesServed (D : Type) [Dbl D] (history after : List Event) : Prop :=
  ∃ done, Executes D history done after ∧ ∀ one ∈ done, Sendable one.cmd

theorem FramesServed.refl (history : List Event) : FramesServed D history history :=
  ⟨[], .nil history, nofun⟩

theorem Conn.Reads.framesServed {history historyAfter : List Event} {conn after : Conn}
    {data : Bytes} {db : Db D} (reads : conn.Reads history data historyAfter db after) :
    FramesServed D history historyAfter := by
  obtain ⟨done, executes, executed⟩ := reads.executes
  refine ⟨done, executes, fun one member => reads.sound.valid one ?_⟩
  rw [executed]
  exact List.mem_append_right _ member

/-- The bytes that a result of `read` delivers. -/
def ReadResult.data : ReadResult → Bytes
  | .bytes data => data
  | .again | .error => []

namespace Conn

variable {history historyAfter : List Event} {conn : Conn} {done : List Executed} {db : Db D}
  {rest : Bytes}

/-- A connection that only may have been marked. -/
theorem Sound.reads_nothing (sound : conn.Sound D history) (reached : Reached history db)
    {close : Bool} (only : conn.wantClose = true → close = true) :
    conn.Reads history [] history db { conn with wantClose := close } where
  keeps := ⟨rfl, rfl, rfl⟩
  sound := {
    stream_eq := sound.stream_eq
    valid := sound.valid
    stops := sound.stops.imp id fun rejected => ⟨rejected.1, only rejected.2⟩
    output_eq := sound.output_eq
    answered := sound.answered
    ready := ⟨sound.ready.wantRead, sound.ready.wantWrite⟩ }
  reached := reached
  received := (List.append_nil _).symm
  executes := ⟨[], .nil history, (List.append_nil _).symm⟩

/-- The last part of `handle_read` sets the readiness flags and sends what it can. -/
theorem replyNow_spec (conn : Conn) {write : Nat → WriteResult} (legal : WriteLegal write)
    (ready : conn.outgoing = [] → conn.Ready) :
    Exec.Returns (replyNow conn write) conn.Writes := by
  by_cases empty : conn.outgoing = []
  · rw [replyNow, if_neg (by simp [empty]), Exec.returns_ok]
    exact ⟨⟨rfl, rfl, rfl⟩, rfl, rfl, rfl, rfl, ready empty, id⟩
  · rw [replyNow, if_pos (List.length_pos_iff.mpr empty)]
    apply (@handleWrite_spec { conn with wantRead := false, wantWrite := true } write legal empty
      rfl rfl).mono
    intro after writes
    exact ⟨⟨writes.keeps.fd, writes.keeps.lastActiveMs, writes.keeps.eventMs⟩, writes.incoming,
      writes.received, writes.executed, writes.output_eq, writes.ready, writes.close⟩

/-- Executing the frames that a connection holds keeps its log. -/
theorem Logged.serveAll (logged : conn.Logged D history) {data : Bytes}
    (served : Served history { conn with
      incoming := conn.incoming ++ data
      traffic := { conn.traffic with received := conn.traffic.received ++ data } }
      done historyAfter db rest) {close : Bool}
    (ends : Incomplete rest ∧ close = false ∨ Rejected rest ∧ close = true) :
    Logged D historyAfter { conn with
      incoming := rest
      outgoing := conn.outgoing ++ done.flatMap Executed.response
      wantClose := conn.wantClose || close
      traffic := { conn.traffic with
        received := conn.traffic.received ++ data
        executed := conn.traffic.executed ++ done } } where
  stream_eq := by
    have consumed : conn.incoming ++ data = requestCode.encode (done.map Executed.cmd) ++ rest :=
      served.stream_eq
    simp only [List.map_append, PrefixCode.encode_append, List.append_assoc, ← consumed]
    rw [logged.stream_eq, List.append_assoc]
  valid := by
    intro one member
    rcases List.mem_append.mp member with member | member
    · exact logged.valid one member
    · exact served.valid one member
  stops := by
    rcases ends with ⟨incomplete, -⟩ | ⟨rejected, rfl⟩
    · exact .inl incomplete
    · exact .inr ⟨rejected, Bool.or_true _⟩
  output_eq := by
    simp only [List.flatMap_append, ← logged.output_eq, List.append_assoc]
  answered := by
    intro one member
    rcases List.mem_append.mp member with member | member
    · obtain ⟨earlier, suffix, answered⟩ := logged.answered one member
      exact ⟨earlier, suffix.trans served.executes.suffix, answered⟩
    · exact served.executes.exists_answered member

/-- `handle_read` receives the data, executes the whole frames and appends the responses. -/
theorem Sound.handleRead (sound : conn.Sound D history) (reached : Reached history db)
    (result : ReadResult) {reading : Nat → UInt64} {write : Nat → WriteResult}
    (legal : WriteLegal write) (later : clock history ≤ reading 0)
    (grows : ∀ count, reading count ≤ reading (count + 1))
    (small : history.length + (conn.incoming.length + result.data.length) < 2 ^ 64) :
    Exec.Returns (handleRead db conn result reading write) fun out =>
      ∃ historyAfter, conn.Reads history result.data historyAfter out.1 out.2 := by
  cases result with
  | again =>
      refine .of_ok ⟨history, ?_⟩
      exact sound.reads_nothing reached id
  | error =>
      refine .of_ok ⟨history, ?_⟩
      exact sound.reads_nothing reached fun _ => rfl
  | bytes data =>
      by_cases empty : data.length = 0
      · obtain rfl := List.length_eq_zero_iff.mp empty
        refine .of_ok ⟨history, ?_⟩
        exact sound.reads_nothing reached fun _ => rfl
      · obtain ⟨⟨dbAfter, middle⟩, call, done, historyAfter, rest, close, served, middleEq, ends⟩ :=
          requestsLoop_spec reached { conn with
            incoming := conn.incoming ++ data
            traffic := { conn.traffic with received := conn.traffic.received ++ data } }
            (by rw [List.length_append]; exact small) later grows
        have middleEq : middle = _ := middleEq
        have logged := sound.toLogged.serveAll served ends
        have ready : middle.outgoing = [] → middle.Ready := by
          intro nothing
          rw [middleEq] at nothing ⊢
          have before : conn.outgoing = [] := (List.append_eq_nil_iff.mp nothing).1
          constructor
          · rw [nothing, ← before]
            exact sound.ready.wantRead
          · rw [nothing, ← before]
            exact sound.ready.wantWrite
        obtain ⟨after, replyEq, writes⟩ := replyNow_spec middle legal ready
        simp only [RedisLite.handleRead, if_neg empty, call, Exec.ok_bind, replyEq,
          Exec.pure_eq_ok, Exec.returns_ok]
        rw [middleEq] at writes
        refine ⟨historyAfter, ⟨writes.keeps.fd, writes.keeps.lastActiveMs, writes.keeps.eventMs⟩,
          logged.writes writes, served.reached, writes.received, done, served.executes,
          writes.executed⟩

end Conn

end RedisLite
