import RedisLite.EventLoop.Safety

/-!
# The effects of the steps

What a step of `main` does, stated once with everything that it changes: the turn of a
connection runs `handle_read` and `handle_write` on that connection only, an accept adds
a connection under a new identity, and the timers remove connections and sweep the
database.  What holds in all runs is read off these statements.
-/

namespace RedisLite

open Lib

/-! ## Lists in memory -/

section

variable {mem after : Mem DList} {node target : Ptr}

theorem modify_next_eq {update : DList → DList} (call : mem.modify node update = .ok after) :
    after.next = mem.next := by
  cases live : mem.cell node with
  | none => simp [Mem.modify, live] at call
  | some cell =>
      rw [Mem.modify_eq live] at call
      cases call
      exact Mem.put_next (Mem.lt_next live) _

theorem dlistDetach_next (call : dlistDetach mem node = .ok after) : after.next = mem.next := by
  simp only [dlistDetach, Exec.bind_eq_ok] at call
  obtain ⟨_, _, _, _, _, _, _, _, middle, first, second⟩ := call
  exact (modify_next_eq second).trans (modify_next_eq first)

theorem dlistInsertBefore_next (call : dlistInsertBefore mem target node = .ok after) :
    after.next = mem.next := by
  simp only [dlistInsertBefore, Exec.bind_eq_ok] at call
  obtain ⟨_, _, _, _, _, first, _, second, _, third, fourth⟩ := call
  exact (modify_next_eq fourth).trans ((modify_next_eq third).trans
    ((modify_next_eq second).trans (modify_next_eq first)))

end

variable {D : Type}

/-- Destroying a connection allocates nothing. -/
theorem connDestroy_next {g after : GData D} {conn : Ptr} (call : connDestroy g conn = .ok after) :
    after.idle.next = g.idle.next := by
  simp only [connDestroy, Exec.bind_eq_ok] at call
  obtain ⟨_, _, table, _, idle, detach, freed, free, conns, _, result⟩ := call
  cases result
  have same : freed.next = idle.next := by
    cases live : idle.cell conn with
    | none => simp [Mem.free, live] at free
    | some cell =>
        rw [Mem.free_eq live] at free
        cases free
        rfl
  exact same.trans (dlistDetach_next detach)

variable [Dbl D]

/-! ## The turn of a connection -/

/-- What the turn of a connection does: `handle_read` if it is readable, which leaves
`middle`, then `handle_write` if it is writable, which leaves `last`.  The requests that
`handle_read` executed are the most recent events.  Nothing else changes. -/
structure GData.Took (g : GData D) (conn : Ptr) (value : Conn) (turn : Turn) (after : GData D)
    (middle last : Conn) : Prop where
  live : g.conns.cell conn = some value
  read : (if turn.revents.pollin then
      handleRead g.store (value.refreshed turn) turn.read turn.reading turn.reply
    else .ok (g.store, value.refreshed turn)) = .ok (after.store, middle)
  write : (if turn.revents.pollout then handleWrite middle turn.write else .ok middle) = .ok last
  history : after.journal.history =
    addRequests g.journal.history middle.traffic.executed value.traffic.executed.length
  cells : ∀ other, after.conns.cell other = if other = conn then
      if turn.revents.pollerr || last.wantClose then none else some last
    else g.conns.cell other
  idle_next : after.idle.next = g.idle.next

section

variable {g after : GData D} {conn : Ptr} {value : Conn} {turn : Turn}

omit [Dbl D] in
theorem refresh_ok (call : refresh g conn turn = .ok after)
    (live : g.conns.cell conn = some value) :
    after.conns = g.conns.put conn (value.refreshed turn) ∧ after.store = g.store ∧
      after.journal.history = g.journal.history ∧ after.idle.next = g.idle.next := by
  simp only [refresh, Mem.modify_eq live, Exec.ok_bind, Exec.bind_eq_ok] at call
  obtain ⟨detached, detach, inserted, insert, result⟩ := call
  cases result
  exact ⟨rfl, rfl, rfl, (dlistInsertBefore_next insert).trans (dlistDetach_next detach)⟩

theorem readTurn_ok (call : readTurn g conn turn = .ok after)
    (live : g.conns.cell conn = some value) :
    ∃ middle, (if turn.revents.pollin then
        handleRead g.store value turn.read turn.reading turn.reply
      else .ok (g.store, value)) = .ok (after.store, middle) ∧
      after.journal.history =
        addRequests g.journal.history middle.traffic.executed value.traffic.executed.length ∧
      (∀ other, after.conns.cell other = if other = conn then some middle
        else g.conns.cell other) ∧ after.idle.next = g.idle.next := by
  by_cases pollin : turn.revents.pollin = true
  · simp only [readTurn, if_pos pollin, Mem.read_eq live, Exec.ok_bind, Exec.bind_eq_ok] at call
    obtain ⟨⟨store, middle⟩, read, conns, write, result⟩ := call
    rw [Mem.write_eq live] at write
    cases write
    cases result
    exact ⟨middle, by rw [if_pos pollin]; exact read, rfl, fun other => Mem.put_cell .., rfl⟩
  · rw [readTurn, if_neg pollin] at call
    cases call
    refine ⟨value, by rw [if_neg pollin], ?_, ?_, rfl⟩
    · rw [addRequests, List.drop_length, List.foldl_nil]
    · intro other
      split
      · rename_i same
        rw [same, live]
      · rfl

omit [Dbl D] in
theorem writeTurn_ok (call : writeTurn g conn turn = .ok after)
    (live : g.conns.cell conn = some value) :
    ∃ last, (if turn.revents.pollout then handleWrite value turn.write else .ok value) =
        .ok last ∧ after.store = g.store ∧ after.journal = g.journal ∧
      (∀ other, after.conns.cell other = if other = conn then some last
        else g.conns.cell other) ∧ after.idle.next = g.idle.next := by
  by_cases pollout : turn.revents.pollout = true
  · simp only [writeTurn, if_pos pollout, Mem.read_eq live, Exec.ok_bind, Exec.bind_eq_ok] at call
    obtain ⟨last, written, conns, write, result⟩ := call
    rw [Mem.write_eq live] at write
    cases write
    cases result
    exact ⟨last, by rw [if_pos pollout]; exact written, rfl, rfl, fun other => Mem.put_cell .., rfl⟩
  · rw [writeTurn, if_neg pollout] at call
    cases call
    refine ⟨value, by rw [if_neg pollout], rfl, rfl, ?_, rfl⟩
    intro other
    split
    · rename_i same
      rw [same, live]
    · rfl

omit [Dbl D] in
theorem connDestroy_ok (call : connDestroy g conn = .ok after) :
    after.store = g.store ∧ after.journal = g.journal ∧ after.conns = g.conns.drop conn := by
  simp only [connDestroy, Exec.bind_eq_ok] at call
  obtain ⟨_, _, table, _, idle, _, freed, _, conns, free, result⟩ := call
  cases result
  refine ⟨rfl, rfl, ?_⟩
  cases live : g.conns.cell conn with
  | none => simp [Mem.free, live] at free
  | some cell =>
      rw [Mem.free_eq live] at free
      cases free
      rfl

omit [Dbl D] in
theorem closeTurn_ok (call : closeTurn g conn turn = .ok after)
    (live : g.conns.cell conn = some value) :
    after.store = g.store ∧ after.journal = g.journal ∧
      (∀ other, after.conns.cell other = if other = conn then
          if turn.revents.pollerr || value.wantClose then none else some value
        else g.conns.cell other) ∧ after.idle.next = g.idle.next := by
  simp only [closeTurn, Mem.read_eq live, Exec.ok_bind] at call
  by_cases close : (turn.revents.pollerr || value.wantClose) = true
  · rw [if_pos close] at call
    obtain ⟨store, journal, conns⟩ := connDestroy_ok call
    refine ⟨store, journal, fun other => ?_, connDestroy_next call⟩
    rw [conns, Mem.drop_cell, if_pos close]
  · rw [if_neg close] at call
    cases call
    refine ⟨rfl, rfl, fun other => ?_, rfl⟩
    split
    · rename_i same
      rw [same, live]
    · rfl

/-- A turn that returns does what `Took` says. -/
theorem connTurn_took {fd : Nat} (call : connTurn g fd turn = .ok after)
    (slot : g.fd2conn[fd]? = some (some conn)) (live : g.conns.cell conn = some value) :
    ∃ middle last, g.Took conn value turn after middle last := by
  simp only [connTurn, slot, Exec.deref_some, Exec.ok_bind, Exec.bind_eq_ok] at call
  obtain ⟨first, refreshEq, second, readEq, third, writeEq, closeEq⟩ := call
  obtain ⟨firstConns, firstStore, firstHistory, firstNext⟩ := refresh_ok refreshEq live
  have firstLive : first.conns.cell conn = some (value.refreshed turn) := by
    rw [firstConns, Mem.put_self]
  obtain ⟨middle, read, secondHistory, secondCells, secondNext⟩ := readTurn_ok readEq firstLive
  have secondLive : second.conns.cell conn = some middle := by rw [secondCells, if_pos rfl]
  obtain ⟨last, write, thirdStore, thirdJournal, thirdCells, thirdNext⟩ :=
    writeTurn_ok writeEq secondLive
  have thirdLive : third.conns.cell conn = some last := by rw [thirdCells, if_pos rfl]
  obtain ⟨store, journal, cells, next⟩ := closeTurn_ok closeEq thirdLive
  refine ⟨middle, last, live, ?_, write, ?_, fun other => ?_, ?_⟩
  · rw [firstStore] at read
    rw [store, thirdStore]
    exact read
  · rw [journal, thirdJournal, secondHistory, firstHistory]
    rfl
  · rw [cells]
    by_cases same : other = conn
    · rw [if_pos same, if_pos same]
    · rw [if_neg same, if_neg same, thirdCells, if_neg same, secondCells, if_neg same, firstConns,
        Mem.put_ne _ same]
  · rw [next, thirdNext, secondNext, firstNext]

end

/-! ## The steps of runs -/

/-- A connection as `handle_accept` makes it. -/
def Conn.accepted (fd : Nat) (now : UInt64) : Conn :=
  { fd := fd, wantRead := true, lastActiveMs := now, traffic := { eventMs := now } }

/-- What a step of a run does, with everything that it changes. -/
inductive Effect : LoopState D → LoopEvent → LoopState D → Prop where
  | interrupted {g : GData D} {timerMs : UInt64} :
      Effect ⟨g, .top⟩ (.interrupted timerMs) ⟨g, .top⟩
  | waited {g : GData D} {timerMs acceptMs : UInt64} {listen : Bool} {connfd : Option Nat}
      {args : List PollFd} (polls : pollArgs g.conns g.fd2conn = .ok args) :
      Effect ⟨g, .top⟩ (.polled timerMs listen connfd acceptMs) ⟨g, .turns args⟩
  /-- The identity of the new connection was never used. -/
  | accepted {g after : GData D} {timerMs acceptMs : UInt64} {fd : Nat} {args : List PollFd}
      (polls : pollArgs g.conns g.fd2conn = .ok args)
      (cells : ∀ other, after.conns.cell other = if other = g.idle.next then
          some (.accepted fd acceptMs)
        else g.conns.cell other)
      (slots : ∀ query other : Nat, g.fd2conn[query]? = some (some other) →
        after.fd2conn[query]? = some (some other))
      (store : after.store = g.store) (history : after.journal.history = g.journal.history)
      (idle_next : after.idle.next = g.idle.next + 1) :
      Effect ⟨g, .top⟩ (.polled timerMs true (some fd) acceptMs) ⟨after, .turns args⟩
  | turn {g after : GData D} {arg : PollFd} {args : List PollFd} {conn : Ptr}
      {value middle last : Conn} {turn : Turn} (polled : arg.Of g conn value)
      (took : g.Took conn value turn after middle last) :
      Effect ⟨g, .turns (arg :: args)⟩ (.turn turn) ⟨after, .turns args⟩
  | timers {g after : GData D} {nowMs : UInt64} (sweep : processTtl g.store nowMs = .ok after.store)
      (history : after.journal.history =
        .sweep (g.store.evicted after.store) nowMs :: g.journal.history)
      (cells : ∀ conn, after.conns.cell conn = (g.conns.cell conn).filter fun value =>
        !value.expired nowMs)
      (idle_next : after.idle.next = g.idle.next) :
      Effect ⟨g, .turns []⟩ (.timers nowMs) ⟨after, .top⟩

omit [Dbl D] in
/-- Handling the listening socket. -/
theorem acceptConn_ok {g after : GData D} {connfd : Option Nat} {now : UInt64}
    (call : acceptConn g connfd now = .ok after) :
    connfd = none ∧ after = g ∨ ∃ fd, connfd = some fd ∧
      (∀ other, after.conns.cell other = if other = g.idle.next then
          some (.accepted fd now)
        else g.conns.cell other) ∧
      (∀ query other : Nat, g.fd2conn[query]? = some (some other) →
        after.fd2conn[query]? = some (some other)) ∧
      after.store = g.store ∧ after.journal.history = g.journal.history ∧
      after.idle.next = g.idle.next + 1 := by
  cases connfd with
  | none =>
      cases call
      exact .inl ⟨rfl, rfl⟩
  | some fd =>
      right
      simp only [acceptConn, handleAccept, Mem.alloc, Exec.bind_eq_ok] at call
      obtain ⟨⟨opened, conn⟩, ⟨idle, insert, openedEq⟩, call⟩ := call
      cases openedEq
      simp only [Exec.bind_eq_ok] at call
      obtain ⟨new, read, slot, free, _, isFree, table, set, result⟩ := call
      cases result
      have newEq : new = .accepted fd now := by
        rw [Mem.read_eq (Mem.put_self ..)] at read
        exact (Except.ok.inj read).symm
      subst newEq
      simp only [show (Conn.accepted fd now).fd = fd from rfl] at free set
      refine ⟨fd, rfl, fun other => Mem.put_cell .., ?_, rfl, rfl, ?_⟩
      · intro query other isOther
        have kept : (resizeFor g.fd2conn fd)[query]? = some (some other) :=
          GData.Linked.resizeFor_eq_some.mpr isOther
        have different : query ≠ fd := by
          rintro rfl
          rw [kept, Exec.deref_some] at free
          cases free
          cases isFree
        rw [setConn] at set
        split at set
        · cases set
          show ((resizeFor g.fd2conn fd).set fd (some g.idle.next))[query]? = _
          rw [List.getElem?_set_ne different.symm]
          exact kept
        · cases set
      · have next : (g.idle.put g.idle.next {}).next = g.idle.next + 1 := by
          show max g.idle.next (g.idle.next + 1) = g.idle.next + 1
          omega
        exact (dlistInsertBefore_next insert).trans next

omit [Dbl D] in
/-- The loop over the idle list allocates nothing. -/
theorem processIdle_next {g after : GData D} {now : UInt64}
    (call : processIdle g now = .ok after) : after.idle.next = g.idle.next := by
  refine @loop_ok _ _ _ (fun middle => middle.idle.next = g.idle.next)
    (fun after => after.idle.next = g.idle.next) ?_ _ _ _ rfl call
  intro middle outcome same turn
  simp only [processIdleTurn, Exec.bind_eq_ok] at turn
  obtain ⟨front, -, turn⟩ := turn
  cases front with
  | none =>
      cases turn
      exact same
  | some front =>
      obtain ⟨conn, timeout⟩ := front
      simp only at turn
      split at turn
      · cases turn
        exact same
      · obtain ⟨destroyed, destroy, result⟩ := Exec.bind_eq_ok.mp turn
        cases result
        exact (connDestroy_next destroy).trans same

theorem GData.Sound.processTimers_next {g after : GData D} {queue : List Ptr}
    (sound : g.Sound queue) (isOpen : g.OpenBut none) {now : UInt64}
    (call : RedisLite.processTimers g now = .ok after) :
    after.idle.next = g.idle.next := by
  obtain ⟨middle, idleEq, -, -, store, -⟩ := sound.processIdle isOpen now
  simp only [RedisLite.processTimers, idleEq, Exec.ok_bind, Exec.bind_eq_ok] at call
  obtain ⟨swept, -, result⟩ := call
  cases result
  show middle.idle.next = g.idle.next
  exact processIdle_next idleEq

/-- What the steps of runs do. -/
theorem Run.effect {passed : List (Moment D)} {state after : LoopState D} {event : LoopEvent}
    (run : Run passed state) (legal : Legal state event) (call : loopStep state event = .ok after) :
    Effect state event after := by
  obtain ⟨g, phase⟩ := state
  obtain ⟨⟨queue, sound⟩, isOpen, awaits⟩ := run.inv
  have sound : g.Sound queue := sound
  match phase, event, legal, awaits with
  | .top, .interrupted timerMs, _, _ =>
      simp only [loopStep, Exec.bind_eq_ok] at call
      obtain ⟨_, _, _, _, result⟩ := call
      cases result
      exact .interrupted
  | .top, .polled timerMs false connfd acceptMs, _, _ =>
      obtain ⟨args, polls, call⟩ := Exec.bind_eq_ok.mp call
      obtain ⟨timeout, -, call⟩ := Exec.bind_eq_ok.mp call
      cases call
      exact .waited polls
  | .top, .polled timerMs true connfd acceptMs, _, _ =>
      obtain ⟨args, polls, call⟩ := Exec.bind_eq_ok.mp call
      obtain ⟨timeout, -, call⟩ := Exec.bind_eq_ok.mp call
      obtain ⟨opened, accept, result⟩ := Exec.bind_eq_ok.mp call
      cases result
      rcases acceptConn_ok (show acceptConn g connfd acceptMs = .ok opened from accept) with
        ⟨rfl, rfl⟩ | ⟨fd, rfl, cells, slots, store, history, next⟩
      · exact .waited polls
      · exact .accepted polls cells slots store history next
  | .turns (arg :: args), .turn turn, _, awaits =>
      obtain ⟨conn, value, polled⟩ := Awaits.polled awaits arg List.mem_cons_self
      obtain ⟨taken, turnEq, result⟩ := Exec.bind_eq_ok.mp call
      cases result
      obtain ⟨middle, last, took⟩ := connTurn_took turnEq polled.slot polled.live
      exact .turn polled took
  | .turns [], .timers nowMs, legal, _ =>
      obtain ⟨timed, timersEq, result⟩ := Exec.bind_eq_ok.mp call
      cases result
      obtain ⟨_, sweep, journal, cells⟩ : (∃ queue, timed.Sound queue) ∧
          processTtl g.store nowMs = .ok timed.store ∧
          timed.journal = ⟨.sweep (g.store.evicted timed.store) nowMs :: g.journal.history, nowMs⟩ ∧
          ∀ conn, timed.conns.cell conn = (g.conns.cell conn).filter fun value =>
            !value.expired nowMs := by
        obtain ⟨afterSound, -, sweep, journal, cells⟩ :=
          (sound.processTimers isOpen legal).of_eq_ok timersEq
        exact ⟨afterSound, sweep, journal, cells⟩
      exact .timers sweep (by rw [journal]) cells (sound.processTimers_next isOpen timersEq)

/-! ## The connections of runs -/

theorem Run.conn_lt {passed : List (Moment D)} {state : LoopState D} (run : Run passed state)
    {conn : Ptr} {value : Conn} (live : state.g.conns.cell conn = some value) :
    conn < state.g.idle.next := by
  obtain ⟨queue, sound⟩ := run.inv.sound
  have member := (sound.linked.live conn).mp ⟨value, live⟩
  obtain ⟨cell, found⟩ := sound.linked.idle_live (List.mem_cons_of_mem _ member)
  exact Mem.lt_next found

/-! ## The turns of runs -/

/-- What is known of a turn in a run: `handle_read` received `data` and executed `done`. -/
structure GData.Serves (g : GData D) (value : Conn) (turn : Turn) (after : GData D)
    (middle last : Conn) (data : Bytes) (done : List Executed) : Prop where
  data_le : data.length ≤ 64 * 1024
  silent : turn.revents.pollin = false → data = []
  reads : (value.refreshed turn).Reads g.journal.history data after.journal.history after.store
    middle
  executes : Executes D g.journal.history done after.journal.history
  executed : middle.traffic.executed = value.traffic.executed ++ done
  writes : turn.revents.pollout = true → middle.Writes last

omit [Dbl D] in
theorem ReadResult.length_data_le {result : ReadResult} (legal : result.Legal) :
    result.data.length ≤ 64 * 1024 := by
  cases result with
  | bytes data => exact legal
  | again => exact Nat.zero_le _
  | error => exact Nat.zero_le _

theorem Conn.Sound.refreshed {history : List Event} {value : Conn} (sound : value.Sound D history)
    (turn : Turn) : (value.refreshed turn).Sound D history where
  stream_eq := sound.stream_eq
  valid := sound.valid
  stops := sound.stops
  output_eq := sound.output_eq
  answered := sound.answered
  ready := ⟨sound.ready.wantRead, sound.ready.wantWrite⟩

/-- A turn of a run serves its connection. -/
theorem Run.serves {passed : List (Moment D)} {g after : GData D} {arg : PollFd}
    {args : List PollFd} {conn : Ptr} {value middle last : Conn} {turn : Turn}
    (run : Run passed ⟨g, .turns (arg :: args)⟩) (legal : turn.Legal g arg)
    (polled : arg.Of g conn value) (took : g.Took conn value turn after middle last) :
    ∃ data done, g.Serves value turn after middle last data done := by
  have sound : value.Sound D g.journal.history := run.sound took.live
  have refreshed := sound.refreshed turn
  by_cases pollin : turn.revents.pollin = true
  · have read := took.read
    rw [if_pos pollin] at read
    have later : clock g.journal.history ≤ turn.reading 0 :=
      UInt64.le_trans legal.later.clock_le legal.start
    obtain ⟨history, reads⟩ := (refreshed.handleRead run.reached turn.read legal.reply later
      legal.grows (legal.small conn value polled.slot polled.live)).of_eq_ok read
    have reads : (value.refreshed turn).Reads g.journal.history turn.read.data history after.store
      middle := reads
    obtain ⟨done, executes, executed⟩ := reads.executes
    have executed : middle.traffic.executed = value.traffic.executed ++ done := executed
    have historyEq : after.journal.history = history := by
      rw [took.history, addRequests, executed, List.drop_left, executes.eq_foldl]
      rfl
    refine ⟨turn.read.data, done, ReadResult.length_data_le legal.read, ?_, ?_, ?_, executed, ?_⟩
    · intro silent
      rw [pollin] at silent
      cases silent
    · rw [historyEq]
      exact reads
    · rw [historyEq]
      exact executes
    · intro pollout
      have noPollin := (legal.not_both sound polled.arg_eq pollout).2
      rw [pollin] at noPollin
      cases noPollin
  · have read := took.read
    rw [if_neg pollin] at read
    obtain ⟨storeEq, rfl⟩ := Prod.mk.inj (Except.ok.inj read)
    have historyEq : after.journal.history = g.journal.history := by
      rw [took.history]
      show addRequests g.journal.history value.traffic.executed _ = _
      rw [addRequests, List.drop_length, List.foldl_nil]
    have nothing := refreshed.reads_nothing run.reached
      (show value.wantClose = true → value.wantClose = true from id)
    refine ⟨[], [], Nat.zero_le _, fun _ => rfl, ?_, ?_, (List.append_nil _).symm, ?_⟩
    · rw [historyEq, ← storeEq]
      exact nothing
    · rw [historyEq]
      exact .nil _
    · intro pollout
      have write := took.write
      rw [if_pos pollout] at write
      have wanted := (legal.not_both sound polled.arg_eq pollout).1
      have nonempty : value.outgoing.isEmpty = false := by
        have flag := sound.ready.wantWrite
        rw [wanted] at flag
        simpa using flag
      exact (@handleWrite_spec (value.refreshed turn) turn.write legal.write
        (List.isEmpty_eq_false_iff.mp nonempty) (refreshed.ready.wantRead.trans nonempty)
        wanted).of_eq_ok write

/-! ## A run with a request -/

/-- A client asks for the keys and does not read the answer yet. -/
def askKeys : Turn := .receive (frame (requestBody [ascii "keys"])) fun _ => 0

/-- The connection before and after that turn. -/
theorem Run.asks : ∃ (passed : List (Moment Nat)) (state after : LoopState Nat)
    (value new : Conn), Run (⟨state, .turn askKeys⟩ :: passed) after ∧ after.phase = .turns [] ∧
    state.g.conns.cell 1 = some value ∧ value.outgoing = [] ∧
    after.g.conns.cell 1 = some new ∧ new.outgoing.length = 9 ∧
    new.traffic.executed.map Executed.cmd = [[ascii "keys"]] := by
  refine ⟨_, _, _, _, _, .round 0 askKeys (Run.connects rfl rfl) ⟨by decide, by decide⟩ rfl rfl
    ⟨⟨by decide, by decide⟩, uptime_of_le (by decide), fun _ => rfl, nofun, by decide,
      fun _ => UInt64.le_refl _, ?_, writeLegal_again, writeLegal_again,
      GData.small_of_owner rfl rfl (by decide)⟩ rfl,
    rfl, rfl, rfl, rfl, rfl, rfl⟩
  show (frame (requestBody [ascii "keys"])).length ≤ 64 * 1024
  decide

end RedisLite
