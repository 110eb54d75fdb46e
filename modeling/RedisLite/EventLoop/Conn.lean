import RedisLite.Lib.PrefixCode
import RedisLite.Protocol.Request
import RedisLite.Server.Respond

/-!
# Connections

`struct Conn` with its buffers, and the functions of `server.cpp` that read requests from
a connection and write responses to it.  The results of system calls are arguments.
-/

namespace RedisLite

open Lib

/-! ## The state of a connection -/

/-- A command that was executed, the clock reading of its execution and the frame that
answers it. -/
structure Executed where
  cmd : List Bytes
  now : UInt64
  response : Bytes

/-- What has happened on a connection.  The functions add to it and never read it. -/
structure Traffic where
  /-- The bytes that `read` returned. -/
  received : Bytes := []
  executed : List Executed := []
  /-- The bytes that `write` accepted. -/
  sent : Bytes := []
  /-- The clock reading of the last event, or of the accept. -/
  eventMs : UInt64 := 0

/-- `struct Conn` without `idle_node`. -/
structure Conn where
  fd : Nat
  wantRead : Bool := false
  wantWrite : Bool := false
  wantClose : Bool := false
  incoming : Bytes := []
  outgoing : Bytes := []
  lastActiveMs : UInt64 := 0
  traffic : Traffic := {}

def bufConsume (buf : Bytes) (n : Nat) : Exec Bytes :=
  if n ≤ buf.length then .ok (buf.drop n) else .error .undefined

/-- The result of `read`: no data yet, an error, or bytes; none at the end of the stream. -/
inductive ReadResult where
  | again
  | error
  | bytes (data : Bytes)

/-- The result of `write`: no room yet, an error, or the number of bytes accepted. -/
inductive WriteResult where
  | again
  | error
  | wrote (n : Nat)

/-! ## Requests and responses -/

variable {D : Type} [Dbl D]

/-- The part of `try_one_request` for a whole frame with the body `request`. -/
def tryBody (db : Db D) (conn : Conn) (now : UInt64) (request : Bytes) :
    Exec (Db D × Conn × Bool) := do
  match ← parseReq request with
  | none =>
      return (db, { conn with wantClose := true }, false)
  | some cmd =>
      let (db, outgoing) ← respond db cmd now conn.outgoing
      let incoming ← bufConsume conn.incoming (4 + request.length)
      let response := outgoing.drop conn.outgoing.length
      let traffic := { conn.traffic with
        executed := conn.traffic.executed ++ [⟨cmd, now, response⟩] }
      return (db, { conn with incoming := incoming, outgoing := outgoing, traffic := traffic },
        true)

/-- `try_one_request` at the clock reading `now`. -/
def tryOneRequest (db : Db D) (conn : Conn) (now : UInt64) : Exec (Db D × Conn × Bool) :=
  if conn.incoming.length < 4 then .ok (db, conn, false)
  else do
    let len := UInt32.ofNat (LittleEndian.decode (← copyFrom conn.incoming 0 4))
    if len.toNat > kMaxMsg then
      return (db, { conn with wantClose := true }, false)
    else if (4 + len).toNat > conn.incoming.length then return (db, conn, false)
    else tryBody db conn now (← copyFrom conn.incoming 4 len.toNat)

omit [Dbl D] in
/-- `handle_write`; `write size` is what `write` of `size` bytes returns. -/
def handleWrite (conn : Conn) (write : Nat → WriteResult) : Exec Conn := do
  Exec.assert (decide (conn.outgoing.length > 0))
  match write conn.outgoing.length with
  | .again => return conn
  | .error => return { conn with wantClose := true }
  | .wrote n =>
      let outgoing ← bufConsume conn.outgoing n
      let traffic := { conn.traffic with sent := conn.traffic.sent ++ conn.outgoing.take n }
      let conn := { conn with outgoing := outgoing, traffic := traffic }
      return if outgoing.length = 0 then { conn with wantRead := true, wantWrite := false }
        else conn

/-- One turn of `while (try_one_request(conn)) {}`, with the number of requests so far.
`reading i` is what the clock reads while request `i` is executed. -/
def requestsTurn (reading : Nat → UInt64) :
    Db D × Conn × Nat → Exec (Step (Db D × Conn × Nat) (Db D × Conn))
  | (db, conn, count) => do
      let (db, conn, more) ← tryOneRequest db conn (reading count)
      return if more then .next (db, conn, count + 1) else .done (db, conn)

/-- `while (try_one_request(conn)) {}`; a turn that goes on consumes incoming bytes. -/
def requestsLoop (db : Db D) (conn : Conn) (reading : Nat → UInt64) : Exec (Db D × Conn) :=
  loop (requestsTurn reading) (conn.incoming.length + 1) (db, conn, 0)

/-- The last part of `handle_read`. -/
def replyNow (conn : Conn) (write : Nat → WriteResult) : Exec Conn :=
  if conn.outgoing.length > 0 then
    handleWrite { conn with wantRead := false, wantWrite := true } write
  else .ok conn

def handleRead (db : Db D) (conn : Conn) (result : ReadResult) (reading : Nat → UInt64)
    (write : Nat → WriteResult) : Exec (Db D × Conn) := do
  match result with
  | .again => return (db, conn)
  | .error => return (db, { conn with wantClose := true })
  | .bytes data =>
      if data.length = 0 then return (db, { conn with wantClose := true })
      else
        let traffic := { conn.traffic with received := conn.traffic.received ++ data }
        let conn := { conn with incoming := conn.incoming ++ data, traffic := traffic }
        let (db, conn) ← requestsLoop db conn reading
        return (db, ← replyNow conn write)

end RedisLite
