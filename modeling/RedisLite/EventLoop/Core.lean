import RedisLite.EventLoop.Conn

/-!
# The event loop

`g_data` with its connections, the list functions of `list.h` and the parts of `main`:
accepting a connection, the turn of a polled connection, and the timers.  The head of
`idle_list` is the list node 0; every other list node has the identity of its connection.
-/

namespace RedisLite

open Lib

/-! ## Doubly linked lists -/

/-- `struct DList`. -/
structure DList where
  prev : Option Ptr := none
  next : Option Ptr := none

def dlistInit (mem : Mem DList) (node : Ptr) : Exec (Mem DList) :=
  mem.write node { prev := some node, next := some node }

def dlistEmpty (mem : Mem DList) (node : Ptr) : Exec Bool := do
  return decide ((← mem.read node).next = some node)

def dlistDetach (mem : Mem DList) (node : Ptr) : Exec (Mem DList) := do
  let prev ← Exec.deref (← mem.read node).prev
  let next ← Exec.deref (← mem.read node).next
  let mem ← mem.modify prev fun cell => { cell with next := some next }
  mem.modify next fun cell => { cell with prev := some prev }

def dlistInsertBefore (mem : Mem DList) (target rookie : Ptr) : Exec (Mem DList) := do
  let prev ← Exec.deref (← mem.read target).prev
  let mem ← mem.modify prev fun cell => { cell with next := some rookie }
  let mem ← mem.modify rookie fun cell => { cell with prev := some prev }
  let mem ← mem.modify rookie fun cell => { cell with next := some target }
  mem.modify target fun cell => { cell with prev := some rookie }

/-! ## The global data -/

/-- What has happened to the server.  The functions add to it and never read it. -/
structure Journal where
  /-- The requests and sweeps so far, most recent first. -/
  history : List Event := []
  /-- The last clock reading of an accept, of the turn of a connection or of the timers. -/
  readMs : UInt64 := 0

/-- `g_data`; `store` is the key-value part. -/
structure GData (D : Type) where
  store : Db D := {}
  fd2conn : List (Option Ptr) := []
  idle : Mem DList
  conns : Mem Conn := .empty
  journal : Journal := {}

/-- `&g_data.idle_list`. -/
def idleList : Ptr := 0

variable {D : Type}

/-- `g_data` after `dlist_init(&g_data.idle_list)`. -/
def GData.init (D : Type) : Exec (GData D) := do
  let (idle, _) := (Mem.empty : Mem DList).alloc {}
  return { idle := ← dlistInit idle idleList }

/-- `g_data.fd2conn[fd] = conn`. -/
def setConn (fd2conn : List (Option Ptr)) (fd : Nat) (conn : Option Ptr) :
    Exec (List (Option Ptr)) :=
  if fd < fd2conn.length then .ok (fd2conn.set fd conn) else .error .undefined

def connDestroy (g : GData D) (conn : Ptr) : Exec (GData D) := do
  let fd := (← g.conns.read conn).fd
  let fd2conn ← setConn g.fd2conn fd none
  let idle ← dlistDetach g.idle conn
  let idle ← idle.free conn
  let conns ← g.conns.free conn
  return { g with fd2conn := fd2conn, idle := idle, conns := conns }

/-- `handle_accept`; `connfd` is the descriptor that `accept` returns, if any. -/
def handleAccept (g : GData D) (connfd : Option Nat) (now : UInt64) :
    Exec (GData D × Option Ptr) := do
  match connfd with
  | none => return (g, none)
  | some connfd =>
      let (idle, conn) := g.idle.alloc {}
      let conns := g.conns.put conn
        { fd := connfd, wantRead := true, lastActiveMs := now, traffic := { eventMs := now } }
      let idle ← dlistInsertBefore idle idleList conn
      let journal := { g.journal with readMs := now }
      return ({ g with idle := idle, conns := conns, journal := journal }, some conn)

/-- `fd2conn.resize(fd + 1)` where that is longer. -/
def resizeFor (fd2conn : List (Option Ptr)) (fd : Nat) : List (Option Ptr) :=
  if fd2conn.length ≤ fd then fd2conn ++ List.replicate (fd + 1 - fd2conn.length) none else fd2conn

/-- The part of `main` that handles the listening socket. -/
def acceptConn (g : GData D) (connfd : Option Nat) (now : UInt64) : Exec (GData D) := do
  match ← handleAccept g connfd now with
  | (g, none) => return g
  | (g, some conn) =>
      let fd := (← g.conns.read conn).fd
      let fd2conn := resizeFor g.fd2conn fd
      Exec.assert (decide ((← Exec.deref fd2conn[fd]?) = none))
      return { g with fd2conn := ← setConn fd2conn fd (some conn) }

/-! ## Polling -/

/-- `struct pollfd` of a connection, which also asks for `POLLERR`. -/
structure PollFd where
  fd : Nat
  pollin : Bool
  pollout : Bool

/-- The loop of `main` that builds the poll arguments of the connections. -/
def pollArgs (conns : Mem Conn) : List (Option Ptr) → Exec (List PollFd)
  | [] => .ok []
  | none :: rest => pollArgs conns rest
  | some conn :: rest => do
      let conn ← conns.read conn
      return ⟨conn.fd, conn.wantRead, conn.wantWrite⟩ :: (← pollArgs conns rest)

/-- The events that `poll` reports; `other` is one of `POLLHUP` and `POLLNVAL`. -/
structure Revents where
  pollin : Bool := false
  pollout : Bool := false
  pollerr : Bool := false
  other : Bool := false

/-- `revents == 0`. -/
def Revents.isZero (revents : Revents) : Bool :=
  !(revents.pollin || revents.pollout || revents.pollerr || revents.other)

/-- What the turn of a polled connection depends on: the reported events, the clock reading
of its start, the results of `read` and of the `write` behind it, the clock readings of the
requests, and the results of the `write` of `POLLOUT`. -/
structure Turn where
  revents : Revents
  now : UInt64
  read : ReadResult := .again
  reading : Nat → UInt64
  reply : Nat → WriteResult
  write : Nat → WriteResult

/-- `conn->last_active_ms = get_monotonic_msec()`, and the two lines that put the
connection at the end of `idle_list`. -/
def refresh (g : GData D) (conn : Ptr) (turn : Turn) : Exec (GData D) := do
  let eventMs := fun old => if turn.revents.isZero then old else turn.now
  let conns ← g.conns.modify conn fun conn =>
    { conn with
      lastActiveMs := turn.now
      traffic := { conn.traffic with eventMs := eventMs conn.traffic.eventMs } }
  let idle ← dlistDetach g.idle conn
  let idle ← dlistInsertBefore idle idleList conn
  return { g with conns := conns, idle := idle, journal := { g.journal with readMs := turn.now } }

/-- The events of the requests that were executed since there were `count`. -/
def addRequests (history : List Event) (executed : List Executed) (count : Nat) : List Event :=
  (executed.drop count).foldl (fun history one => .request one.cmd one.now :: history) history

/-- `if (ready & POLLIN) handle_read(conn)`. -/
def readTurn [Dbl D] (g : GData D) (conn : Ptr) (turn : Turn) : Exec (GData D) :=
  if turn.revents.pollin then do
    let before ← g.conns.read conn
    let (store, after) ← handleRead g.store before turn.read turn.reading turn.reply
    let history := addRequests g.journal.history after.traffic.executed
      before.traffic.executed.length
    let conns ← g.conns.write conn after
    return { g with
      store := store, conns := conns, journal := { g.journal with history := history } }
  else .ok g

/-- `if (ready & POLLOUT) handle_write(conn)`. -/
def writeTurn (g : GData D) (conn : Ptr) (turn : Turn) : Exec (GData D) :=
  if turn.revents.pollout then do
    let after ← handleWrite (← g.conns.read conn) turn.write
    return { g with conns := ← g.conns.write conn after }
  else .ok g

/-- The end of the turn: close the socket from socket error or application logic. -/
def closeTurn (g : GData D) (conn : Ptr) (turn : Turn) : Exec (GData D) := do
  if turn.revents.pollerr || (← g.conns.read conn).wantClose then connDestroy g conn
  else return g

/-- The turn of the connection with the descriptor `fd`. -/
def connTurn [Dbl D] (g : GData D) (fd : Nat) (turn : Turn) : Exec (GData D) := do
  let conn ← Exec.deref (← Exec.deref g.fd2conn[fd]?)
  let g ← refresh g conn turn
  let g ← readTurn g conn turn
  let g ← writeTurn g conn turn
  closeTurn g conn turn

/-! ## Timers -/

def kIdleTimeoutMs : UInt64 := 5 * 1000

/-- The front of `idle_list`: the value of `last_active_ms + k_idle_timeout_ms`, if any. -/
def idleTimeout (g : GData D) : Exec (Option (Ptr × UInt64)) := do
  if ← dlistEmpty g.idle idleList then return none
  else
    let conn ← Exec.deref (← g.idle.read idleList).next
    return some (conn, (← g.conns.read conn).lastActiveMs + kIdleTimeoutMs)

/-- The second part of `next_timer_ms`: the deadline of the heap is used if it is sooner. -/
def heapTimer (heap : List HeapItem) (nextMs : UInt64) : UInt64 :=
  match heap with
  | [] => nextMs
  | item :: _ => if item.val < nextMs then item.val else nextMs

/-- The last part of `next_timer_ms`, with its results as `int32_t`. -/
def pollTimeout (nextMs nowMs : UInt64) : Int32 :=
  if nextMs = -1 then -1
  else if nextMs ≤ nowMs then 0
  else (nextMs - nowMs).toUInt32.toInt32

/-- `next_timer_ms`, the timeout of `poll`. -/
def nextTimerMs (g : GData D) (nowMs : UInt64) : Exec Int32 := do
  let nextMs := match ← idleTimeout g with
    | none => -1
    | some (_, timeout) => timeout
  return pollTimeout (heapTimer g.store.timers.heap nextMs) nowMs

/-- One turn of the first loop of `process_timers`. -/
def processIdleTurn (nowMs : UInt64) (g : GData D) : Exec (Step (GData D) (GData D)) := do
  match ← idleTimeout g with
  | none => return .done g
  | some (conn, nextTimeout) =>
      if nextTimeout > nowMs then
        return .done g
      else return .next (← connDestroy g conn)

/-- The first loop of `process_timers`; every turn destroys a connection. -/
def processIdle (g : GData D) (nowMs : UInt64) : Exec (GData D) :=
  loop (processIdleTurn nowMs) (g.idle.next + 1) g

def processTimers [LinearOrder D] (g : GData D) (nowMs : UInt64) : Exec (GData D) := do
  let g ← processIdle g nowMs
  let store ← processTtl g.store nowMs
  let history := .sweep (g.store.evicted store) nowMs :: g.journal.history
  return { g with store := store, journal := { history := history, readMs := nowMs } }

end RedisLite
