import RedisLite.EventLoop.Runs

/-!
# What holds in every run

The traffic of every connection and the bookkeeping of the connections, in every state of
every run of the event loop.
-/

namespace RedisLite

open Lib

variable {D : Type} [Dbl D]

namespace Run

variable {passed : List (Moment D)} {state : LoopState D} {conn : Ptr} {value : Conn}

theorem sound (run : Run passed state) (live : state.g.conns.cell conn = some value) :
    value.Sound D state.g.journal.history := by
  obtain ⟨queue, sound⟩ := run.inv.sound
  exact sound.sound conn value live

theorem reached (run : Run passed state) : Reached state.g.journal.history state.g.store := by
  obtain ⟨queue, sound⟩ := run.inv.sound
  exact sound.reached

/-- Between the steps of the event loop no connection holds a rejected frame. -/
theorem incomplete (run : Run passed state) (live : state.g.conns.cell conn = some value) :
    Incomplete value.incoming := by
  rcases (run.sound live).stops with incomplete | ⟨-, marked⟩
  · exact incomplete
  · have unmarked := run.inv.isOpen conn value nofun live
    rw [marked] at unmarked
    cases unmarked

end Run

theorem uptime_of_le {now : UInt64} (early : now ≤ 10000) : Uptime now := by
  rw [UInt64.le_iff_toNat_le] at early
  have early : now.toNat ≤ 10000 := early
  show now.toNat + 5000 < 2 ^ 64 - 1
  omega

omit [Dbl D] in
theorem GData.Later.of_zero {g : GData D} (readMs : g.journal.readMs = 0)
    (later : clock g.journal.history = 0) (now : UInt64) : g.Later now := by
  have start : 0 ≤ now := UInt64.le_iff_toNat_le.mpr (Nat.zero_le _)
  constructor
  · rwa [readMs]
  · rwa [later]

/-- A client connects when the clock reads 0. -/
theorem Run.connects {g accepted : GData Nat} (init : GData.init Nat = .ok g)
    (call : loopStep ⟨g, .top⟩ (.polled 0 true (some 4) 0) = .ok ⟨accepted, .turns []⟩) :
    Run [⟨⟨g, .top⟩, .polled 0 true (some 4) 0⟩] ⟨accepted, .turns []⟩ := by
  refine (Run.start init).step ?_ call
  cases init
  intro _ fd _
  exact ⟨nofun, ⟨UInt64.le_refl _, UInt64.le_refl _⟩, uptime_of_le (by decide)⟩

/-- A round of the event loop: the timers, `poll`, and the turn of a client. -/
theorem Run.round {passed : List (Moment Nat)} {g swept polled : GData Nat} {arg : PollFd}
    {args : List PollFd} {after : LoopState Nat} (now : UInt64) (turn : Turn)
    (run : Run passed ⟨g, .turns []⟩) (later : g.Later now)
    (timers : loopStep ⟨g, .turns []⟩ (.timers now) = .ok ⟨swept, .top⟩)
    (poll : loopStep ⟨swept, .top⟩ (.polled now false none 0) =
      .ok ⟨polled, .turns (arg :: args)⟩)
    (legal : turn.Legal polled arg)
    (call : loopStep ⟨polled, .turns (arg :: args)⟩ (.turn turn) = .ok after) :
    Run (⟨⟨polled, .turns (arg :: args)⟩, .turn turn⟩ ::
      ⟨⟨swept, .top⟩, .polled now false none 0⟩ :: ⟨⟨g, .turns []⟩, .timers now⟩ :: passed)
      after := by
  have sweeps : Legal ⟨g, .turns []⟩ (.timers now) := later
  have polls : Legal ⟨swept, .top⟩ (.polled now false none 0) := nofun
  have turns : Legal ⟨polled, .turns (arg :: args)⟩ (.turn turn) := legal
  exact ((run.step sweeps timers).step polls poll).step turns call

theorem Run.accepted : ∃ passed g value, Run passed (⟨g, .turns []⟩ : LoopState Nat) ∧
    g.journal = {} ∧ g.conns.cell 1 = some value ∧ value.incoming = [] ∧
    value.traffic.received = [] ∧ value.lastActiveMs = 0 :=
  ⟨_, _, _, Run.connects rfl rfl, rfl, rfl, rfl, rfl, rfl⟩

theorem writeLegal_again : WriteLegal fun _ => .again := by
  intro size n result
  cases result

/-- A client connects when the clock reads 0, and `poll` returns for it. -/
def clientConnects : Exec (LoopState Nat) := do
  let g ← GData.init Nat
  let accepted ← loopStep ⟨g, .top⟩ (.polled 0 true (some 4) 0)
  let swept ← loopStep accepted (.timers 0)
  loopStep swept (.polled 0 false none 0)

/-- The turn of a connection whose client has sent bytes and does not read. -/
def Turn.receive (data : Bytes) (reading : Nat → UInt64) : Turn :=
  { revents := { pollin := true }, now := 0, read := .bytes data, reading := reading,
    reply := fun _ => .again, write := fun _ => .again }

/-- The turn of the client, who has not sent anything yet, is next. -/
theorem Run.clientConnects : Exec.Returns clientConnects fun state =>
    (∃ passed, Run passed state) ∧ state.phase = .turns [⟨4, true, false⟩] ∧
    state.g.journal = ⟨[.sweep [] 0], 0⟩ ∧
    ∃ conn value, state.g.fd2conn[4]? = some (some conn) ∧
      state.g.conns.cell conn = some value ∧ value.incoming = [] := by
  refine ⟨_, ?_, ⟨_, @Run.step _ _ _ _ _ (.polled 0 false none 0)
    (@Run.step _ _ _ _ _ (.timers 0) (Run.connects rfl rfl) ⟨by decide, by decide⟩ rfl) nofun
    rfl⟩, rfl, rfl, _, _, rfl, rfl, rfl⟩
  rfl

omit [Dbl D] in
/-- The commands that a turn can execute are counted for the connection of its descriptor. -/
theorem GData.small_of_owner {g : GData D} {fd size : Nat} {conn : Ptr} {value : Conn}
    (slot : g.fd2conn[fd]? = some (some conn)) (live : g.conns.cell conn = some value)
    (small : g.journal.history.length + (value.incoming.length + size) < 2 ^ 64) :
    ∀ other found, g.fd2conn[fd]? = some (some other) → g.conns.cell other = some found →
      g.journal.history.length + (found.incoming.length + size) < 2 ^ 64 := by
  intro other found otherSlot otherLive
  rw [slot] at otherSlot
  cases otherSlot
  rw [live] at otherLive
  cases otherLive
  exact small

/-- The client sends bytes, and perhaps there is an error on its socket. -/
theorem Run.receives {data : Bytes} {reading : Nat → UInt64} {after : LoopState Nat}
    {revents : Revents} (noOut : revents.pollout = false) (short : data.length ≤ 64 * 1024)
    (grows : ∀ count, reading count ≤ reading (count + 1))
    (call : (RedisLite.clientConnects >>= fun state =>
      loopStep state (.turn { Turn.receive data reading with revents := revents })) = .ok after) :
    ∃ passed, Run passed after := by
  obtain ⟨state, connects, turnEq⟩ := Exec.bind_eq_ok.mp call
  obtain ⟨⟨passed, run⟩, phase, journal, conn, value, slot, live, silent⟩ :=
    Run.clientConnects.of_eq_ok connects
  obtain ⟨g, _⟩ := state
  cases phase
  have journal : g.journal = ⟨[.sweep [] 0], 0⟩ := journal
  have later : g.Later 0 := .of_zero (by rw [journal]) (by rw [journal]; rfl) 0
  have start : 0 ≤ reading 0 := UInt64.le_iff_toNat_le.mpr (Nat.zero_le _)
  have uptime : Uptime 0 := uptime_of_le (by decide)
  refine ⟨_, run.step ?_ turnEq⟩
  refine ⟨later, uptime, fun _ => rfl, ?_, start, grows, short,
    writeLegal_again, writeLegal_again, GData.small_of_owner slot live ?_⟩
  · intro isOut
    rw [show revents.pollout = true from isOut] at noOut
    cases noOut
  · rw [journal, silent]
    show 1 + (0 + data.length) < 2 ^ 64
    omega

/-! ## Clients that take the responses -/

/-- The turn of a client who has sent bytes and takes at most `room` bytes of the responses. -/
def Turn.asks (now : UInt64) (data : Bytes) (room : Nat) : Turn :=
  { revents := { pollin := true }, now := now, read := .bytes data, reading := fun _ => now,
    reply := fun size => .wrote (min room size), write := fun _ => .again }

/-- The turn of a client who takes at most `room` bytes of the responses that are left. -/
def Turn.takes (now : UInt64) (room : Nat) : Turn :=
  { revents := { pollout := true }, now := now, reading := fun _ => now,
    reply := fun _ => .again, write := fun size => .wrote (min room size) }

theorem writeLegal_wrote (room : Nat) : WriteLegal fun size => .wrote (min room size) := by
  intro size n result
  cases result
  exact Nat.min_le_right ..

section

variable {g : GData Nat} {arg : PollFd} {now : UInt64} {conn : Ptr} {value : Conn}

theorem Turn.asks_legal {data : Bytes} (room : Nat) (later : g.Later now) (early : now ≤ 10000)
    (polled : arg.pollin = true) (short : data.length ≤ 64 * 1024)
    (slot : g.fd2conn[arg.fd]? = some (some conn)) (live : g.conns.cell conn = some value)
    (small : g.journal.history.length + (value.incoming.length + data.length) < 2 ^ 64) :
    (Turn.asks now data room).Legal g arg :=
  ⟨later, uptime_of_le early, fun _ => polled, nofun, UInt64.le_refl _, fun _ => UInt64.le_refl _,
    short, writeLegal_wrote room, writeLegal_again, GData.small_of_owner slot live small⟩

theorem Turn.takes_legal (room : Nat) (later : g.Later now) (early : now ≤ 10000)
    (polled : arg.pollout = true)
    (slot : g.fd2conn[arg.fd]? = some (some conn)) (live : g.conns.cell conn = some value)
    (small : g.journal.history.length + (value.incoming.length + 0) < 2 ^ 64) :
    (Turn.takes now room).Legal g arg :=
  ⟨later, uptime_of_le early, nofun, fun _ => polled, UInt64.le_refl _, fun _ => UInt64.le_refl _,
    trivial, writeLegal_again, writeLegal_wrote room, GData.small_of_owner slot live small⟩

end

/-- The client who connects sends bytes and takes at most `room` bytes of the responses. -/
def clientAsks (data : Bytes) (room : Nat) : Exec (LoopState Nat) := do
  let state ← clientConnects
  loopStep state (.turn (.asks 0 data room))

theorem Run.clientAsks {data : Bytes} {room : Nat} {after : LoopState Nat}
    (short : data.length ≤ 64 * 1024) (call : RedisLite.clientAsks data room = .ok after) :
    ∃ passed, Run passed after := by
  obtain ⟨state, connects, turnEq⟩ := Exec.bind_eq_ok.mp call
  obtain ⟨⟨passed, run⟩, phase, journal, conn, value, slot, live, silent⟩ :=
    Run.clientConnects.of_eq_ok connects
  obtain ⟨g, _⟩ := state
  cases phase
  have journal : g.journal = ⟨[.sweep [] 0], 0⟩ := journal
  have legal : Legal ⟨g, .turns [⟨4, true, false⟩]⟩ (.turn (.asks 0 data room)) := by
    refine Turn.asks_legal room (.of_zero (by rw [journal]) (by rw [journal]; rfl) 0) (by decide)
      rfl short slot live ?_
    rw [journal, silent]
    show 1 + (0 + data.length) < 2 ^ 64
    omega
  exact ⟨_, run.step legal turnEq⟩

theorem Conn.Logged.decodes {history : List Event} {conn : Conn}
    (logged : conn.Logged D history) :
    requestCode.Decodes conn.traffic.received (conn.traffic.executed.map Executed.cmd)
      conn.incoming where
  stream_eq := logged.stream_eq
  valid := by
    intro cmd member
    obtain ⟨one, oneMem, rfl⟩ := List.mem_map.mp member
    exact logged.valid one oneMem
  stuck := logged.stops.elim Incomplete.stuck fun rejected => rejected.1.stuck

/-! ## Requests -/

/-- The bytes received on a connection determine the commands that it has executed, however
`read` cut them.  Between the steps of the event loop they are the frames of the executed
commands and a part of a frame.  After `handle_read` they are the frames of the executed
commands and either a part of a frame or a frame that is rejected, and then the connection
is marked. -/
theorem handleRead_executes_frames {passed : List (Moment D)} {state : LoopState D}
    (run : Run passed state) {conn : Ptr} {value : Conn}
    (live : state.g.conns.cell conn = some value) :
    requestCode.Decodes value.traffic.received (value.traffic.executed.map Executed.cmd)
      value.incoming ∧ Incomplete value.incoming ∧
    ∀ data reading write, 1 ≤ data.length → data.length ≤ 64 * 1024 → WriteLegal write →
      clock state.g.journal.history ≤ reading 0 →
      (∀ count, reading count ≤ reading (count + 1)) →
      state.g.journal.history.length + (value.incoming.length + data.length) < 2 ^ 64 →
      Exec.Returns (handleRead state.g.store value (.bytes data) reading write) fun out =>
        out.2.traffic.received = value.traffic.received ++ data ∧
        requestCode.Decodes out.2.traffic.received (out.2.traffic.executed.map Executed.cmd)
          out.2.incoming ∧
        (Incomplete out.2.incoming ∨ Rejected out.2.incoming ∧ out.2.wantClose = true) ∧
        ∀ (otherPassed : List (Moment D)) (other : LoopState D) (otherConn : Ptr)
          (otherValue : Conn) (otherData : Bytes) (otherReading : Nat → UInt64)
          (otherWrite : Nat → WriteResult) (otherOut : Db D × Conn),
          Run otherPassed other → other.g.conns.cell otherConn = some otherValue →
          WriteLegal otherWrite → clock other.g.journal.history ≤ otherReading 0 →
          (∀ count, otherReading count ≤ otherReading (count + 1)) →
          other.g.journal.history.length + (otherValue.incoming.length + otherData.length) <
            2 ^ 64 →
          handleRead other.g.store otherValue (.bytes otherData) otherReading otherWrite =
            .ok otherOut →
          otherValue.traffic.received ++ otherData = value.traffic.received ++ data →
          otherOut.2.traffic.executed.map Executed.cmd = out.2.traffic.executed.map Executed.cmd ∧
            otherOut.2.incoming = out.2.incoming := by
  refine ⟨(run.sound live).decodes, run.incomplete live, ?_⟩
  intro data reading write _ _ legal later grows small
  apply ((run.sound live).handleRead run.reached (.bytes data) legal later grows small).mono
  rintro out ⟨history, reads⟩
  refine ⟨reads.received, reads.sound.decodes, reads.sound.stops, ?_⟩
  intro otherPassed other otherConn otherValue otherData otherReading otherWrite otherOut otherRun
    otherLive otherLegal otherLater otherGrows otherSmall call sameBytes
  obtain ⟨otherHistory, otherReads⟩ := ((otherRun.sound otherLive).handleRead otherRun.reached
    (.bytes otherData) otherLegal otherLater otherGrows otherSmall).of_eq_ok call
  have received : otherOut.2.traffic.received = out.2.traffic.received := by
    rw [reads.received, otherReads.received]
    exact sameBytes
  have decodes := otherReads.sound.decodes
  rw [received] at decodes
  exact decodes.unique reads.sound.decodes

/-- The frames of two commands. -/
def twoFrames : Bytes :=
  frame (requestBody [ascii "keys"]) ++ frame (requestBody [ascii "get", ascii "k"])

/-- Two frames that are cut in the second one and two that are not cut. -/
theorem handleRead_executes_frames_cut : ∃ (db otherDb : Db Nat) (conn other : Conn)
    (out otherOut : Db Nat × Conn),
    conn.incoming.length = 7 ∧ conn.traffic.received = twoFrames.take 23 ∧
    handleRead db conn (.bytes (twoFrames.drop 23)) (fun _ => 0) (fun _ => .again) = .ok out ∧
    other.traffic.received = [] ∧
    handleRead otherDb other (.bytes twoFrames) (fun _ => 0) (fun _ => .again) = .ok otherOut ∧
    out.2.traffic.executed.map Executed.cmd = [[ascii "keys"], [ascii "get", ascii "k"]] ∧
    otherOut.2.traffic.executed.map Executed.cmd = out.2.traffic.executed.map Executed.cmd ∧
    otherOut.2.incoming = out.2.incoming := by
  obtain ⟨state, value, out, asks, live, incoming, received, call, executed, later, small⟩ :
      ∃ (state : LoopState Nat) (value : Conn) (out : Db Nat × Conn),
        clientAsks (twoFrames.take 23) 100 = .ok state ∧ state.g.conns.cell 1 = some value ∧
        value.incoming.length = 7 ∧ value.traffic.received = twoFrames.take 23 ∧
        handleRead state.g.store value (.bytes (twoFrames.drop 23)) (fun _ => 0)
          (fun _ => .again) = .ok out ∧
        out.2.traffic.executed.map Executed.cmd = [[ascii "keys"], [ascii "get", ascii "k"]] ∧
        clock state.g.journal.history = 0 ∧ state.g.journal.history.length = 2 :=
    ⟨_, _, _, rfl, rfl, rfl, rfl, rfl, rfl, rfl, rfl⟩
  obtain ⟨passed, run⟩ := Run.clientAsks (by decide) asks
  obtain ⟨otherPassed, g, other, otherRun, journal, otherLive, empty, nothing, -⟩ := Run.accepted
  have otherLater : clock g.journal.history ≤ 0 := by rw [journal]; exact UInt64.le_refl _
  have otherSmall : g.journal.history.length + (other.incoming.length + twoFrames.length) <
      2 ^ 64 := by
    rw [journal, empty]
    decide
  obtain ⟨otherOut, otherCall, -⟩ := (handleRead_executes_frames otherRun otherLive).2.2 twoFrames
    (fun _ => 0) (fun _ => .again) (by decide) (by decide) writeLegal_again otherLater
    (fun _ => UInt64.le_refl _) otherSmall
  obtain ⟨-, -, -, determined⟩ := ((handleRead_executes_frames run live).2.2 (twoFrames.drop 23)
    (fun _ => 0) (fun _ => .again) (by decide) (by decide) writeLegal_again
    (by rw [later]; exact UInt64.le_refl _) (fun _ => UInt64.le_refl _)
    (by rw [small, incoming]; decide)).of_eq_ok call
  have same := determined otherPassed ⟨g, .turns []⟩ 1 other twoFrames (fun _ => 0)
    (fun _ => .again) otherOut otherRun otherLive writeLegal_again otherLater
    (fun _ => UInt64.le_refl _) otherSmall otherCall
    (by rw [nothing, received, List.nil_append, List.take_append_drop])
  exact ⟨state.g.store, g.store, value, other, out, otherOut, incoming, received, call, nothing,
    otherCall, executed, same⟩

/-! ## Responses -/

/-- In every state of every run, every connection wants to write if it has outgoing bytes
and to read otherwise; what it has sent and its outgoing bytes are the responses to the
requests that it has executed, in order, and those are the requests that it has received.
No step that the environment can cause fails an assertion. -/
theorem run_sends_responses {passed : List (Moment D)} {state : LoopState D}
    (run : Run passed state) :
    (∀ conn value, state.g.conns.cell conn = some value →
      value.wantRead = !value.wantWrite ∧ (value.wantWrite = true ↔ value.outgoing ≠ []) ∧
      value.traffic.sent ++ value.outgoing = value.traffic.executed.flatMap Executed.response ∧
      value.traffic.received =
        requestCode.encode (value.traffic.executed.map Executed.cmd) ++ value.incoming ∧
      ∀ one ∈ value.traffic.executed, ∃ earlier,
        .request one.cmd one.now :: earlier <:+ state.g.journal.history ∧
          one.Answered D earlier) ∧
    ∀ event, Legal state event → ∃ after, loopStep state event = .ok after := by
  constructor
  · intro conn value live
    have sound := run.sound live
    refine ⟨?_, ?_, sound.output_eq, sound.stream_eq, sound.answered⟩
    · rw [sound.ready.wantRead, sound.ready.wantWrite, Bool.not_not]
    · rw [sound.ready.wantWrite]
      simp
  · intro event legal
    obtain ⟨after, call, -⟩ := run.goes_on legal
    exact ⟨after, call⟩

/-- A client has asked for a key and taken three of the five bytes of the response. -/
theorem run_sends_responses_part : ∃ (passed : List (Moment Nat)) (state : LoopState Nat)
    (value : Conn), Run passed state ∧
    state.g.conns.cell 1 = some value ∧ value.wantWrite = true ∧ value.wantRead = false ∧
    value.traffic.executed.map Executed.cmd = [[ascii "get", ascii "k"]] ∧
    value.traffic.sent.length = 3 ∧ value.outgoing.length = 2 ∧
    value.traffic.sent ++ value.outgoing = value.traffic.executed.flatMap Executed.response ∧
    (∀ one ∈ value.traffic.executed, ∃ earlier,
      .request one.cmd one.now :: earlier <:+ state.g.journal.history ∧
        one.Answered Nat earlier) ∧
    ∃ after, loopStep state (.timers 0) = .ok after := by
  obtain ⟨g, value, asks, live, executed, sent, outgoing, readMs, later⟩ :
      ∃ (g : GData Nat) (value : Conn),
        clientAsks (frame (requestBody [ascii "get", ascii "k"])) 3 = .ok ⟨g, .turns []⟩ ∧
        g.conns.cell 1 = some value ∧
        value.traffic.executed.map Executed.cmd = [[ascii "get", ascii "k"]] ∧
        value.traffic.sent.length = 3 ∧ value.outgoing.length = 2 ∧ g.journal.readMs = 0 ∧
        clock g.journal.history = 0 :=
    ⟨_, _, rfl, rfl, rfl, rfl, rfl, rfl, rfl⟩
  obtain ⟨passed, run⟩ := Run.clientAsks (by decide) asks
  obtain ⟨conns, steps⟩ := run_sends_responses run
  obtain ⟨modes, wantWrite, bytes, -, answered⟩ := conns 1 value live
  have writes : value.wantWrite = true := by
    rw [wantWrite, ← List.length_pos_iff, outgoing]
    decide
  rw [writes] at modes
  have timers : Legal ⟨g, .turns []⟩ (.timers 0) := GData.Later.of_zero readMs later 0
  exact ⟨passed, _, value, run, live, writes, modes, executed, sent, outgoing, bytes, answered,
    steps (.timers 0) timers⟩

/-! ## Bookkeeping -/

/-- In every state of every run, `idle_list` is a ring whose nodes are those of the
connections that the table holds, each once, least recently active first; every poll
argument whose turn is to come finds its connection; and `process_timers` destroys exactly
the connections that have been inactive for the timeout. -/
theorem run_keeps_books {passed : List (Moment D)} {state : LoopState D}
    (run : Run passed state) :
    (∃ queue, Ring (nextOf state.g.idle) (prevOf state.g.idle) idleList queue ∧ queue.Nodup ∧
      (∀ conn, conn ∈ queue ↔ ∃ value, state.g.conns.cell conn = some value ∧
        state.g.fd2conn[value.fd]? = some (some conn)) ∧
      (∀ conn, conn ∈ queue ↔ ∃ fd : Nat, state.g.fd2conn[fd]? = some (some conn)) ∧
      queue.Pairwise fun first second => ∀ value other,
        state.g.conns.cell first = some value → state.g.conns.cell second = some other →
          value.lastActiveMs ≤ other.lastActiveMs) ∧
    (∀ arg ∈ state.phase.args, ∃ conn value, state.g.fd2conn[arg.fd]? = some (some conn) ∧
      state.g.conns.cell conn = some value) ∧
    ∀ nowMs, Legal state (.timers nowMs) →
      Exec.Returns (loopStep state (.timers nowMs)) fun after => ∀ conn value,
        after.g.conns.cell conn = some value ↔ state.g.conns.cell conn = some value ∧
          ¬ value.lastActiveMs.toNat + kIdleTimeoutMs.toNat ≤ nowMs.toNat := by
  obtain ⟨⟨queue, sound⟩, isOpen, awaits⟩ := run.inv
  refine ⟨⟨queue, sound.linked.ring, sound.linked.nodup, ?_, ?_, sound.sorted⟩, ?_, ?_⟩
  · intro conn
    rw [← sound.linked.live conn]
    constructor
    · rintro ⟨value, live⟩
      exact ⟨value, live, sound.linked.table conn value live⟩
    · rintro ⟨value, live, -⟩
      exact ⟨value, live⟩
  · intro conn
    rw [← sound.linked.live conn]
    constructor
    · rintro ⟨value, live⟩
      exact ⟨value.fd, sound.linked.table conn value live⟩
    · rintro ⟨fd, slot⟩
      obtain ⟨value, live, -⟩ := sound.linked.owned fd conn slot
      exact ⟨value, live⟩
  · intro arg member
    obtain ⟨conn, value, polled⟩ := awaits.polled arg member
    exact ⟨conn, value, polled.slot, polled.live⟩
  · intro nowMs legal
    obtain ⟨g, phase⟩ := state
    match phase, legal with
    | .turns [], legal =>
        obtain ⟨after, timersEq, -, -, -, -, cells⟩ := sound.processTimers isOpen legal
        simp only [loopStep, timersEq, Exec.ok_bind, Exec.pure_eq_ok, Exec.returns_ok]
        intro conn value
        rw [cells, Option.filter_eq_some_iff]
        simp [Conn.expired]

/-- Two clients connect when the clock reads 0, and the first one asks for the keys at 4000 and
for a key at 5000, behind the timers. -/
theorem Run.twoClients : ∃ (earlier : List (Moment Nat)) (middle last : GData Nat)
    (after : LoopState Nat) (turn : LoopEvent) (polled : Moment Nat)
    (value silent other : Conn), Run (⟨⟨last, .turns [⟨4, true, false⟩]⟩, turn⟩ :: polled ::
      ⟨⟨middle, .turns []⟩, .timers 5000⟩ :: earlier) after ∧ after.phase = .turns [] ∧
    middle.conns.cell 1 = some value ∧ value.lastActiveMs = 4000 ∧
    middle.conns.cell 2 = some silent ∧ silent.lastActiveMs = 0 ∧
    polled.state.phase = .top ∧ polled.state.g.conns.cell 1 = some other ∧
    polled.state.g.conns.cell 2 = none := by
  refine ⟨_, _, _, _, _, _, _, _, _,
    .round 5000 (.asks 5000 (frame (requestBody [ascii "get", ascii "k"])) 100)
      (@Run.step _ _ _ _ _ (.turn (.asks 4000 (frame (requestBody [ascii "keys"])) 100))
        (@Run.step _ _ _ _ _ (.polled 0 true (some 5) 0)
          (@Run.step _ _ _ _ _ (.timers 0) (Run.connects rfl rfl) ⟨by decide, by decide⟩ rfl)
          ?_ rfl)
        (Turn.asks_legal 100 ⟨by decide, by decide⟩ (by decide) rfl (by decide) rfl rfl
          (by decide)) rfl)
      ⟨by decide, by decide⟩ rfl rfl
      (Turn.asks_legal 100 ⟨by decide, by decide⟩ (by decide) rfl (by decide) rfl rfl
        (by decide)) rfl,
    rfl, rfl, rfl, rfl, rfl, rfl, rfl, rfl⟩
  rintro _ fd ⟨⟩
  refine ⟨?_, ⟨by decide, by decide⟩, uptime_of_le (by decide)⟩
  intro conn value live
  by_cases isFirst : conn = 1
  · subst isFirst
    cases live
    decide
  · cases live.symm.trans (if_neg isFirst)

/-- The timers at 5000 destroy the silent connection and keep the other one. -/
theorem run_keeps_books_two : ∃ (passed : List (Moment Nat)) (state : LoopState Nat),
    Run passed state ∧ (∃ value, state.g.conns.cell 1 = some value) ∧
    (∃ value, state.g.conns.cell 2 = some value) ∧
    Exec.Returns (loopStep state (.timers 5000)) fun after =>
      (∃ value, after.g.conns.cell 1 = some value) ∧ after.g.conns.cell 2 = none := by
  obtain ⟨earlier, middle, last, final, turn, polled, value, silent, other, runs, -, live, active,
    silentLive, silentSince, -⟩ := Run.twoClients
  obtain ⟨run, legal⟩ := runs.of_suffix ⟨[_, _], rfl⟩
  obtain ⟨after, call, exact⟩ := (run_keeps_books run).2.2 5000 legal
  refine ⟨_, _, run, ⟨value, live⟩, ⟨silent, silentLive⟩, after, call, ⟨value, ?_⟩, ?_⟩
  · rw [exact, active]
    exact ⟨live, by decide⟩
  · rw [Option.eq_none_iff_forall_ne_some]
    intro other otherLive
    obtain ⟨isSilent, kept⟩ := (exact 2 other).mp otherLive
    have isSilent : middle.conns.cell 2 = some other := isSilent
    rw [silentLive] at isSilent
    cases isSilent
    rw [silentSince] at kept
    exact kept (by decide)

end RedisLite
