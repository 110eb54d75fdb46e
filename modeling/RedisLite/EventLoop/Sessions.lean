import RedisLite.Client.Aphelo
import RedisLite.Client.Receive
import RedisLite.EventLoop.Answers
import RedisLite.EventLoop.Effects

/-!
# Sessions of clients

A client and the server are connected by two streams: the server receives a part of what
the client has sent, and the client receives a part of what the server has sent, both in
pieces of any size.  Among any other clients, the server executes the commands of the
client once each and in order, and the client reads the answers to them.
-/

namespace RedisLite

open Lib

/-! ## Commands -/

/-- Bodies with their lengths in the headers determine the commands. -/
theorem requestBody_inj {left right : List Bytes} (sendable : Sendable left)
    (same : requestBody left = requestBody right) : left = right := by
  have request := sendable.isRequest
  have size := sendable.length_le
  rw [same] at request size
  unfold kMaxMsg at size
  have lengths := @lengths_lt right (by omega)
  have counts : left.length = right.length := by
    have headers := same
    rw [requestBody, requestBody] at headers
    have leftCount := sendable.count_le
    unfold kMaxArgs at leftCount
    exact LittleEndian.eq_of_encode (by omega) lengths.1 (List.append_inj headers (by simp)).1
  exact request.unique ⟨by rw [← counts]; exact sendable.count_le, lengths.2, rfl⟩

/-- The commands of a part of a stream are the first commands of the stream. -/
theorem commands_prefix {done cmds : List (List Bytes)} {rest : Bytes}
    (valid : ∀ cmd ∈ done, Sendable cmd)
    (small : ∀ cmd ∈ cmds, (requestBody cmd).length < 2 ^ 32)
    (received : requestCode.encode done ++ rest <+: cmds.flatMap fun cmd =>
      frame (requestBody cmd)) : done <+: cmds := by
  induction done generalizing cmds with
  | nil => exact List.nil_prefix
  | cons cmd done ih =>
      rw [List.forall_mem_cons] at valid
      have fits : (requestBody cmd).length < 2 ^ 32 := by
        have size := valid.1.length_le
        unfold kMaxMsg at size
        omega
      have bodies : ∀ body ∈ cmds.map requestBody, body.length < 2 ^ 32 := by
        intro body member
        obtain ⟨sent, sentMem, rfl⟩ := List.mem_map.mp member
        exact small sent sentMem
      rw [PrefixCode.encode_cons, List.append_assoc] at received
      have stream : frame (requestBody cmd) ++ (requestCode.encode done ++ rest) <+:
          (cmds.map requestBody).flatMap frame := by
        rw [List.flatMap_map]
        exact received
      obtain ⟨others, first, further⟩ := Aphelo.prefix_frames fits bodies stream
      cases cmds with
      | nil => cases first
      | cons sent cmds =>
          rw [List.map_cons, List.cons.injEq] at first
          rw [List.forall_mem_cons] at small
          obtain rfl := requestBody_inj valid.1 first.1.symm
          rw [← first.2, List.flatMap_map] at further
          exact List.cons_prefix_cons.mpr ⟨rfl, ih valid.2 small.2 further⟩

variable {D : Type} [Dbl D]

theorem Run.executes_prefix {passed : List (Moment D)} {state : LoopState D}
    (run : Run passed state) {conn : Ptr} {value : Conn}
    (live : state.g.conns.cell conn = some value) {cmds : List (List Bytes)}
    (small : ∀ cmd ∈ cmds, (requestBody cmd).length < 2 ^ 32)
    (received : value.traffic.received <+: cmds.flatMap fun cmd => frame (requestBody cmd)) :
    value.traffic.executed.map Executed.cmd <+: cmds := by
  have decodes := (run.sound live).decodes
  rw [decodes.stream_eq] at received
  exact commands_prefix decodes.valid small received

/-! ## Responses -/

/-- The body of the response. -/
def Executed.body (one : Executed) : Bytes := one.response.drop 4

theorem Executed.Answered.response_eq {history : List Event} {one : Executed}
    (answered : one.Answered D history) : one.response = frame one.body ∧
      one.body.length ≤ kMaxMsg ∧ ∃ value : Value D,
        (Store.after history).Answers one.now (Request.ofCmd one.cmd) value ∧
        one.body = (value.limited Dbl.bits).encode Dbl.bits := by
  obtain ⟨value, answers, response⟩ := answered
  have body : one.body = (value.limited Dbl.bits).encode Dbl.bits := by
    rw [Executed.body, response, frame, List.drop_left' (LittleEndian.length_encode _ _)]
  refine ⟨?_, ?_, value, answers, body⟩
  · rw [body, response]
  · rw [body]
    exact value.length_limited_le Dbl.bits

/-- The bytes that a connection has sent are a part of the frames of its responses. -/
theorem Run.sends_frames {passed : List (Moment D)} {state : LoopState D}
    (run : Run passed state) {conn : Ptr} {value : Conn}
    (live : state.g.conns.cell conn = some value) :
    value.traffic.sent <+: (value.traffic.executed.map Executed.body).flatMap frame := by
  have sound := run.sound live
  have frames : (value.traffic.executed.map Executed.body).flatMap frame =
      value.traffic.executed.flatMap Executed.response := by
    rw [List.flatMap_map]
    apply List.flatMap_congr
    intro one member
    obtain ⟨earlier, -, answered⟩ := sound.answered one member
    exact answered.response_eq.1.symm
  rw [frames, ← sound.output_eq]
  exact List.prefix_append ..

/-! ## A run with an answer -/

theorem Run.answersGet : ∃ (passed : List (Moment Nat)) (state : LoopState Nat) (value : Conn),
    Run passed state ∧ state.g.conns.cell 1 = some value ∧
    value.traffic.received = frame (requestBody [ascii "get", ascii "k"]) ∧
    value.traffic.sent = frame [tagNil] ∧ value.outgoing = [] ∧
    value.traffic.executed.map Executed.cmd = [[ascii "get", ascii "k"]] := by
  obtain ⟨passed, run⟩ := @Run.clientAsks (frame (requestBody [ascii "get", ascii "k"])) 100 _
    (by decide) rfl
  exact ⟨passed, _, _, run, rfl, rfl, rfl, rfl, rfl⟩

/-- The answer arrives in two pieces. -/
def answerPieces : Pieces UInt8 where
  pieces := [[1, 0, 0], [0, 0]]
  nonempty := by decide

/-! ## The Python client -/

/-- A call returned or raised what the answer to the command says. -/
def Told (D : Type) [Dbl D] (history : List Event) (one : Executed)
    (result : Except Aphelo.PyError Aphelo.PyValue) : Prop :=
  ∃ earlier, one.event :: earlier <:+ history ∧ ∃ value : Value D,
    (Store.after earlier).Answers one.now (Request.ofCmd one.cmd) value ∧
    result = Aphelo.outcome Dbl.bits (value.limited Dbl.bits)

/-- In every run, whatever the other clients do and however the bytes are cut: a session of
the Python client has its commands executed once each and in order, and its calls return
the answers to them in that order until the connection is lost.  No call is lost while the
connection takes the commands and brings the responses. -/
theorem aphelo_session_answers {passed : List (Moment D)} {state : LoopState D}
    (run : Run passed state) {conn : Ptr} {value : Conn}
    (live : state.g.conns.cell conn = some value) {calls : List (List String)}
    (small : ∀ args ∈ calls, (requestBody (args.map Aphelo.utf8)).length < 2 ^ 32)
    {sock : Aphelo.Sock} (fresh : sock.sent = [])
    (toServer : value.traffic.received <+: (Aphelo.session calls sock).2.sent)
    (toClient : sock.arriving.whole <+: value.traffic.sent) :
    value.traffic.executed.map Executed.cmd <+: calls.map (List.map Aphelo.utf8) ∧
    ∃ count told lost, (Aphelo.session calls sock).1 = told ++ lost ∧
      (told ++ lost).length = calls.length ∧
      List.Forall₂ (Told D state.g.journal.history) (value.traffic.executed.take count) told ∧
      (∀ result ∈ lost, Aphelo.Lost result) ∧
      ((calls.flatMap Aphelo.callFrame).length ≤ sock.room →
        ∀ n ≤ value.traffic.executed.length,
          (value.traffic.executed.take n).flatMap Executed.response <+: sock.arriving.whole →
          n ≤ told.length) := by
  have sound := run.sound live
  have answered : ∀ one ∈ value.traffic.executed, one.response = frame one.body ∧
      one.body.length < 2 ^ 32 ∧ Told D state.g.journal.history one
        (Aphelo.unpackResponse one.body) := by
    intro one member
    obtain ⟨earlier, suffix, answered⟩ := sound.answered one member
    obtain ⟨response, short, answer, answers, body⟩ := answered.response_eq
    unfold kMaxMsg at short
    refine ⟨response, by omega, earlier, suffix, answer, answers, ?_⟩
    rw [body]
    exact Aphelo.unpackResponse_encode _
      (Value.bounded_of_length Dbl.bits _ (by rw [← body]; omega))
  have fits : ∀ body ∈ value.traffic.executed.map Executed.body, body.length < 2 ^ 32 := by
    intro body member
    obtain ⟨one, oneMem, rfl⟩ := List.mem_map.mp member
    exact (answered one oneMem).2.1
  obtain ⟨count, reads⟩ := Aphelo.session_reads small fits (toClient.trans (run.sends_frames live))
  obtain ⟨lost, results, isLost⟩ := reads.results
  obtain ⟨part, sent, -, isPart⟩ := reads.sent
  have length := reads.length_eq
  rw [fresh, List.nil_append] at sent
  have ordered : value.traffic.executed.map Executed.cmd <+: calls.map (List.map Aphelo.utf8) := by
    apply run.executes_prefix live
    · intro cmd member
      obtain ⟨args, argsMem, rfl⟩ := List.mem_map.mp member
      exact small args argsMem
    · rw [List.flatMap_map]
      rw [sent] at toServer
      exact toServer.trans isPart
  have few : count ≤ value.traffic.executed.length :=
    reads.count_le.trans_eq (List.length_map _)
  refine ⟨ordered, count, _, lost, results, ?_, ?_, isLost, ?_⟩
  · rw [← results]
    exact length
  · rw [← List.map_take, List.map_map, List.forall₂_map_right_iff, List.forall₂_same]
    intro one member
    exact (answered one (List.mem_of_mem_take member)).2.2
  · intro enough n bound arrived
    rw [List.length_map, List.length_take, List.length_map, Nat.min_eq_left few]
    apply reads.complete enough n
    · have commands := ordered.length_le
      rw [List.length_map, List.length_map] at commands
      exact bound.trans commands
    · rwa [List.length_map]
    · have frames : (value.traffic.executed.take n).flatMap Executed.response =
          (value.traffic.executed.take n).flatMap fun one => frame one.body :=
        List.flatMap_congr fun one member => (answered one (List.mem_of_mem_take member)).1
      rw [frames] at arrived
      rw [← List.map_take, List.flatMap_map]
      exact arrived

/-- The client that asks for a key reads the answer. -/
theorem aphelo_session_answers_get : ∃ (history : List Event) (one : Executed)
    (result : Except Aphelo.PyError Aphelo.PyValue),
    (Aphelo.session [["get", "k"]] { room := 100, arriving := answerPieces }).1 = [result] ∧
    one.cmd = [ascii "get", ascii "k"] ∧ Told Nat history one result := by
  let sock : Aphelo.Sock := { room := 100, arriving := answerPieces }
  have small : ∀ args ∈ [["get", "k"]], (requestBody (args.map Aphelo.utf8)).length < 2 ^ 32 := by
    decide
  have arrives : sock.arriving.whole = frame [tagNil] := rfl
  obtain ⟨passed, state, value, run, live, received, sent, drained, executed⟩ := Run.answersGet
  have toServer : value.traffic.received <+: (Aphelo.session [["get", "k"]] sock).2.sent := by
    obtain ⟨count, reads⟩ := @Aphelo.session_reads [["get", "k"]] small sock [[tagNil]]
      (by decide) (List.prefix_refl _)
    have all := reads.complete (by decide) 1 (Nat.le_refl _) (Nat.le_refl _) (List.prefix_refl _)
    obtain ⟨part, sentEq, sentAll, -⟩ := reads.sent
    rw [List.take_of_length_le all] at sentAll
    rw [received, sentEq]
    exact sentAll
  obtain ⟨-, count, told, lost, results, length, tells, -, complete⟩ :=
    @aphelo_session_answers _ _ _ _ run _ _ live [["get", "k"]] small sock rfl toServer
      (by rw [arrives, sent])
  obtain ⟨one, single, cmd⟩ := List.map_eq_singleton_iff.mp executed
  have response := (run.sound live).output_eq
  rw [drained, List.append_nil, sent, single] at response
  have enough : 1 ≤ told.length := by
    apply complete (by decide) 1
    · rw [single]
      exact Nat.le_refl _
    · rw [single, arrives, response]
      exact List.prefix_refl _
  rw [List.length_append, List.length_singleton] at length
  obtain ⟨result, rfl⟩ := List.length_eq_one_iff.mp (show told.length = 1 by omega)
  obtain rfl : lost = [] := List.length_eq_zero_iff.mp (by omega)
  refine ⟨state.g.journal.history, one, result, results, cmd, ?_⟩
  have few := tells.length_eq
  rw [single, List.length_take, List.length_singleton, List.length_singleton] at few
  rw [single, List.take_of_length_le (by rw [List.length_singleton]; omega)] at tells
  exact (List.forall₂_cons.mp tells).1

/-! ## The client -/

/-- A part of a frame is not printed. -/
theorem readRes_cut {stream body : Bytes} (fits : body.length < 2 ^ 32)
    (isPart : stream <+: frame body) (cut : stream.length < (frame body).length) :
    Client.readRes stream = .ok (-1, []) := by
  by_cases short : stream.length < 4
  · rw [Client.readRes, Client.readFull, if_neg (by omega)]
  · obtain ⟨len, tail, lenFits, rfl⟩ := LittleEndian.exists_append (Nat.not_lt.mp short)
    obtain ⟨more, whole⟩ := isPart
    rw [frame, List.append_assoc] at whole
    obtain ⟨headerEq, bodyEq⟩ := List.append_inj whole (by simp)
    obtain rfl := LittleEndian.eq_of_encode lenFits fits headerEq
    rw [frame, List.length_append, List.length_append, LittleEndian.length_encode] at cut
    have header : Client.readFull (LittleEndian.encode 4 body.length ++ tail) 4 =
        some (LittleEndian.encode 4 body.length, tail) := by
      rw [Client.readFull, if_pos (by simp), List.take_left' (by simp), List.drop_left' (by simp)]
    have missing : Client.readFull tail body.length = none := by
      rw [Client.readFull, if_neg (by omega)]
    simp only [Client.readRes, header, LittleEndian.decode_encode_of_lt lenFits, missing, ite_self]

omit [Dbl D] in
theorem Value.visits_ne_nil (bits : D → UInt64) (value : Value D) : value.visits bits ≠ [] := by
  cases value <;> exact List.cons_ne_nil _ _

/-- `read_res` prints the first response of a connection when it arrives whole and is short
enough, and nothing otherwise. -/
theorem Run.prints_first {passed : List (Moment D)} {state : LoopState D}
    (run : Run passed state) {conn : Ptr} {value : Conn}
    (live : state.g.conns.cell conn = some value) {stream : Bytes}
    (toClient : stream <+: value.traffic.sent) :
    Exec.Returns (Client.readRes stream) fun out =>
      (out.2 = [] ∧ ∀ one others, value.traffic.executed = one :: others →
        one.response <+: stream → 4 + Client.kMaxMsg < one.response.length) ∨
      ∃ one others earlier, value.traffic.executed = one :: others ∧ one.response <+: stream ∧
        one.event :: earlier <:+ state.g.journal.history ∧
        ∃ answer : Value D, (Store.after earlier).Answers one.now (Request.ofCmd one.cmd) answer ∧
          out.2 = (answer.limited Dbl.bits).visits Dbl.bits := by
  have frames := toClient.trans (run.sends_frames live)
  have sound := run.sound live
  cases commands : value.traffic.executed with
  | nil =>
      rw [commands] at frames
      obtain rfl := List.prefix_nil.mp frames
      exact .of_ok (.inl ⟨rfl, nofun⟩)
  | cons one others =>
      rw [commands, List.map_cons, List.flatMap_cons] at frames
      obtain ⟨earlier, suffix, answered⟩ := sound.answered one (by
        rw [commands]
        exact List.mem_cons_self)
      obtain ⟨response, limit, answer, answers, body⟩ := answered.response_eq
      unfold kMaxMsg at limit
      by_cases whole : frame one.body <+: stream
      · obtain ⟨more, rfl⟩ := whole
        by_cases long : Client.kMaxMsg < one.body.length
        · refine ⟨_, Client.readRes_tooLong (by omega) long more, .inl ⟨rfl, ?_⟩⟩
          rintro other _ ⟨⟩ -
          rw [response, frame, List.length_append, LittleEndian.length_encode]
          omega
        · have small : ((answer.limited Dbl.bits).encode Dbl.bits).length < 2 ^ 31 := by
            rw [← body]
            omega
          have printed := Client.printResponse_encode Dbl.bits (answer.limited Dbl.bits) [] _
            (Nat.le_succ _) small
          rw [List.append_nil, ← body] at printed
          rw [Client.readRes_frame (Nat.not_lt.mp long), printed, Exec.ok_bind]
          refine ⟨_, if_neg fun both => both.2 rfl, .inr ⟨one, others, earlier, rfl, ?_, suffix,
            answer, answers, rfl⟩⟩
          rw [response]
          exact List.prefix_append ..
      · have isPart := (List.prefix_or_prefix_of_prefix frames
          (List.prefix_append ..)).resolve_right whole
        have cut : stream.length < (frame one.body).length := by
          refine Nat.lt_of_le_of_ne isPart.length_le ?_
          intro same
          rw [isPart.eq_of_length same] at whole
          exact whole (List.prefix_refl _)
        refine ⟨_, readRes_cut (by omega) isPart cut, .inl ⟨rfl, ?_⟩⟩
        rintro other _ ⟨⟩ found
        rw [response] at found
        exact absurd found whole

/-- In every run, whatever the other clients do and however the bytes are cut: the client
returns, its command is executed at most once, and what it prints is the answer to its
command, or nothing.  When the whole response arrives, the client prints the answer if the
response is short enough. -/
theorem client_prints_answer {passed : List (Moment D)} {state : LoopState D}
    (run : Run passed state) {conn : Ptr} {value : Conn}
    (live : state.g.conns.cell conn = some value) {cmd : List Bytes} {wbuf : Bytes}
    {write : Nat → Nat → Int} (small : (requestBody cmd).length < 2 ^ 32)
    (size : wbuf.length = 4 + Client.kMaxMsg) (legal : Client.Legal write)
    {arriving : Pieces UInt8} (toClient : arriving.whole <+: value.traffic.sent) :
    Exec.Returns (Client.main wbuf cmd write arriving) fun out =>
      ∀ sent, out.1 = some sent → value.traffic.received <+: sent →
        value.traffic.executed.map Executed.cmd <+: [cmd] ∧
        (out.2 = [] ∨ ∃ one earlier, value.traffic.executed = [one] ∧
          one.event :: earlier <:+ state.g.journal.history ∧ arriving.whole = one.response ∧
          ∃ answer : Value D, (Store.after earlier).Answers one.now (Request.ofCmd cmd) answer ∧
            out.2 = (answer.limited Dbl.bits).visits Dbl.bits) ∧
        ∀ one ∈ value.traffic.executed, arriving.whole = one.response →
          one.response.length ≤ 4 + Client.kMaxMsg → out.2 ≠ [] := by
  obtain ⟨sent, send, written⟩ := Client.sendReq_spec legal small size
  rw [Client.main, send, Exec.ok_bind]
  rcases written with ⟨rfl, -⟩ | rfl
  · exact .of_ok nofun
  · obtain ⟨⟨rv, visits⟩, read, prints⟩ := run.prints_first live toClient
    obtain ⟨rest, pieces, -⟩ := Client.readRes_pieces arriving
    rw [read] at pieces
    simp only [pieces, Exec.ok_bind, Exec.pure_eq_ok, Exec.returns_ok]
    rintro sent ⟨⟩ toServer
    have ordered : value.traffic.executed.map Executed.cmd <+: [cmd] := by
      refine run.executes_prefix live ?_ ?_
      · intro other member
        rwa [List.mem_singleton.mp member]
      · rwa [List.flatMap_singleton]
    refine ⟨ordered, ?_, ?_⟩
    · rcases prints with ⟨nothing, -⟩ | ⟨one, others, earlier, executed, whole, suffix, answer,
        answers, visitsEq⟩
      · exact .inl nothing
      · rw [executed, List.map_cons, List.cons_prefix_cons] at ordered
        have alone : others = [] := by
          have nothing := List.prefix_nil.mp ordered.2
          exact List.map_eq_nil_iff.mp nothing
        subst alone
        have isPart : arriving.whole <+: one.response := by
          have frames := (run.sound live).output_eq
          rw [executed, List.flatMap_singleton] at frames
          rw [← frames]
          exact toClient.trans (List.prefix_append ..)
        have same := isPart.eq_of_length (Nat.le_antisymm isPart.length_le whole.length_le)
        rw [ordered.1] at answers
        exact .inr ⟨one, earlier, executed, suffix, same, answer, answers, visitsEq⟩
    · intro one member same short nothing
      rcases prints with ⟨-, missing⟩ | ⟨first, others, earlier, -, -, -, answer, -, visitsEq⟩
      · obtain ⟨first, others, executed⟩ := List.exists_cons_of_ne_nil (List.ne_nil_of_mem member)
        have few := ordered.length_le
        rw [executed, List.length_map, List.length_cons, List.length_singleton] at few
        obtain rfl : others = [] := List.length_eq_zero_iff.mp (by omega)
        rw [executed, List.mem_singleton] at member
        subst member
        have long := missing one [] executed (by rw [same])
        omega
      · exact (answer.limited Dbl.bits).visits_ne_nil Dbl.bits (visitsEq.symm.trans nothing)

/-- The client prints the answer to its request. -/
theorem client_prints_answer_get : ∃ (history : List Event) (one : Executed) (answer : Value Nat)
    (visits : List Client.Visit),
    Client.main zeros [ascii "get", ascii "k"] (fun _ n => n) answerPieces =
      .ok (some (frame (requestBody [ascii "get", ascii "k"])), visits) ∧
    (Store.after history).Answers one.now (.get (ascii "k")) answer ∧
    visits = (answer.limited Dbl.bits).visits Dbl.bits := by
  obtain ⟨passed, state, value, run, live, received, sent, drained, executed⟩ := Run.answersGet
  have legal : Client.Legal fun _ n => n := fun _ _ => le_refl _
  have whole : answerPieces.whole = value.traffic.sent := sent.symm
  obtain ⟨⟨written, visits⟩, call, prints⟩ := client_prints_answer run live
    (show (requestBody [ascii "get", ascii "k"]).length < 2 ^ 32 by decide)
    (@List.length_replicate _ (4 + Client.kMaxMsg) 0) legal
    (show answerPieces.whole <+: value.traffic.sent by rw [whole])
  have writtenEq : written = some (frame (requestBody [ascii "get", ascii "k"])) := by
    have sending := call
    rw [Client.main, show List.replicate _ _ = zeros from rfl, sendReq_get, Exec.ok_bind,
      Exec.bind_eq_ok] at sending
    obtain ⟨_, _, same⟩ := sending
    exact (congrArg Prod.fst (Except.ok.inj same)).symm
  subst writtenEq
  obtain ⟨one, single, cmd⟩ := List.map_eq_singleton_iff.mp executed
  have response := (run.sound live).output_eq
  rw [drained, List.append_nil, single, List.flatMap_singleton] at response
  obtain ⟨-, printed, shown⟩ := prints _ rfl (by rw [received])
  have something : visits ≠ [] := by
    apply shown one
    · rw [single]
      exact List.mem_singleton_self one
    · rw [whole, response]
    · rw [← response, sent]
      decide
  obtain ⟨other, earlier, -, -, -, answer, answers, visitsEq⟩ := printed.resolve_left something
  exact ⟨earlier, other, answer, visits, call, answers, visitsEq⟩

end RedisLite
