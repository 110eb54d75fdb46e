import RedisLite.EventLoop.Idle
import RedisLite.EventLoop.Traffic

/-!
# The turns of the connections

`GData.Sound` is the invariant of the event loop: the bookkeeping, the order of the idle
list, the database and every connection.  Accepting a connection and the turn of a polled
connection keep it.
-/

namespace RedisLite

open Lib

variable {D : Type} [Dbl D]

/-! ## The invariant -/

/-- The reading is not earlier than any before. -/
structure GData.Later {D : Type} (g : GData D) (now : UInt64) : Prop where
  readMs_le : g.journal.readMs ≤ now
  clock_le : clock g.journal.history ≤ now

/-- The reading is more than the idle timeout below the largest 64-bit number. -/
def Uptime (now : UInt64) : Prop := now.toNat + kIdleTimeoutMs.toNat < 2 ^ 64 - 1

/-- The connections in `queue` are those that are live, least recently active first. -/
structure GData.Sound (g : GData D) (queue : List Ptr) : Prop where
  linked : g.Linked queue
  sorted : queue.Pairwise fun first second => ∀ value other,
    g.conns.cell first = some value → g.conns.cell second = some other →
      value.lastActiveMs ≤ other.lastActiveMs
  recent : ∀ conn value, g.conns.cell conn = some value →
    value.lastActiveMs ≤ g.journal.readMs
  uptime : ∀ conn value, g.conns.cell conn = some value → Uptime value.lastActiveMs
  reached : Reached g.journal.history g.store
  sound : ∀ conn value, g.conns.cell conn = some value → value.Sound D g.journal.history

/-- No connection is marked, except perhaps one. -/
def GData.OpenBut {D : Type} (g : GData D) (but : Option Ptr) : Prop :=
  ∀ conn value, some conn ≠ but → g.conns.cell conn = some value → value.wantClose = false

/-- A longer history answers the same commands. -/
theorem Conn.Sound.mono {history after : List Event} {conn : Conn}
    (sound : conn.Sound D history) (suffix : history <:+ after) : conn.Sound D after where
  toLogged := {
    stream_eq := sound.stream_eq
    valid := sound.valid
    stops := sound.stops
    output_eq := sound.output_eq
    answered := fun one member =>
      have ⟨earlier, place, answered⟩ := sound.answered one member
      ⟨earlier, place.trans suffix, answered⟩ }
  ready := sound.ready

theorem Conn.sound_new (history : List Event) (fd : Nat) (now : UInt64) :
    Conn.Sound D history
      { fd := fd, wantRead := true, lastActiveMs := now, traffic := { eventMs := now } } where
  stream_eq := rfl
  valid := by simp
  stops := .inl (.header (by simp))
  output_eq := rfl
  answered := by simp
  ready := ⟨rfl, rfl⟩

namespace GData.Sound

variable {g after : GData D} {queue front back : List Ptr} {conn : Ptr} {value new : Conn}

theorem init : Exec.Returns (GData.init D) fun g => g.Sound [] ∧ g.OpenBut none := by
  apply GData.Linked.init.mono
  rintro g ⟨linked, store, conns, journal⟩
  constructor
  · exact ⟨linked, .nil, by simp [conns], by simp [conns], by rw [journal, store]; exact .start,
      by simp [conns]⟩
  · simp [GData.OpenBut, conns]

/-- The value of a connection is replaced, and the database may have changed. -/
theorem update (sound : g.Sound queue) (live : g.conns.cell conn = some value)
    (keeps : value.fd = new.fd) (sameTime : new.lastActiveMs = value.lastActiveMs)
    (idle : after.idle = g.idle) (conns : after.conns = g.conns.put conn new)
    (fd2conn : after.fd2conn = g.fd2conn) (readMs : after.journal.readMs = g.journal.readMs)
    (suffix : g.journal.history <:+ after.journal.history)
    (reached : Reached after.journal.history after.store)
    (newSound : new.Sound D after.journal.history) : after.Sound queue := by
  have counterpart : ∀ query other, after.conns.cell query = some other →
      ∃ old, g.conns.cell query = some old ∧ other.lastActiveMs = old.lastActiveMs ∧
        other.Sound D after.journal.history := by
    intro query other found
    rw [conns, Mem.put_cell] at found
    split at found
    · rename_i same
      cases found
      exact ⟨value, same ▸ live, sameTime, newSound⟩
    · exact ⟨other, found, rfl, (sound.sound query other found).mono suffix⟩
  constructor
  · exact sound.linked.put live keeps.symm idle conns fd2conn
  · refine sound.sorted.imp fun ordered first second firstFound secondFound => ?_
    obtain ⟨old, oldFound, sameFirst, -⟩ := counterpart _ _ firstFound
    obtain ⟨other, otherFound, sameSecond, -⟩ := counterpart _ _ secondFound
    rw [sameFirst, sameSecond]
    exact ordered old other oldFound otherFound
  · intro query other found
    obtain ⟨old, oldFound, same, -⟩ := counterpart query other found
    rw [readMs, same]
    exact sound.recent query old oldFound
  · intro query other found
    obtain ⟨old, oldFound, same, -⟩ := counterpart query other found
    rw [same]
    exact sound.uptime query old oldFound
  · exact reached
  · intro query other found
    obtain ⟨old, -, -, otherSound⟩ := counterpart query other found
    exact otherSound

/-- Destroying a connection. -/
theorem connDestroy (sound : g.Sound (front ++ conn :: back))
    (live : g.conns.cell conn = some value) :
    Exec.Returns (connDestroy g conn) fun after =>
      after.Sound (front ++ back) ∧ after.conns = g.conns.drop conn ∧
      after.fd2conn = g.fd2conn.set value.fd none ∧ after.store = g.store ∧
      after.journal = g.journal := by
  apply (sound.linked.connDestroy live).mono
  rintro after ⟨linked, conns, fd2conn, store, journal⟩
  have older : ∀ query other, after.conns.cell query = some other →
      g.conns.cell query = some other := by
    intro query other found
    rw [conns, Mem.drop_cell] at found
    split at found
    · cases found
    · exact found
  refine ⟨⟨linked, ?_, ?_, ?_, ?_, ?_⟩, conns, fd2conn, store, journal⟩
  · have sublist : (front ++ back).Sublist (front ++ conn :: back) := by simp
    refine (sound.sorted.sublist sublist).imp fun ordered first second firstFound secondFound => ?_
    exact ordered first second (older _ _ firstFound) (older _ _ secondFound)
  · intro query other found
    rw [journal]
    exact sound.recent query other (older query other found)
  · exact fun query other found => sound.uptime query other (older query other found)
  · rw [journal, store]
    exact sound.reached
  · intro query other found
    rw [journal]
    exact sound.sound query other (older query other found)

/-- Handling the listening socket. -/
theorem acceptConn (sound : g.Sound queue) (isOpen : g.OpenBut none) {connfd : Option Nat}
    {now : UInt64}
    (legal : ∀ fd, connfd = some fd → g.NotOpen fd ∧ g.Later now ∧ Uptime now) :
    Exec.Returns (acceptConn g connfd now) fun after =>
      (∃ queue, after.Sound queue) ∧ after.OpenBut none ∧
      (∀ conn value, g.conns.cell conn = some value → after.conns.cell conn = some value) ∧
      (∀ conn value, after.conns.cell conn = some value → g.conns.cell conn = some value ∨
        value.lastActiveMs = value.traffic.eventMs) ∧
      ∀ query other : Nat, g.fd2conn[query]? = some (some other) →
        after.fd2conn[query]? = some (some other) := by
  apply (sound.linked.acceptConn fun fd isFd => (legal fd isFd).1).mono
  rintro after (⟨-, rfl⟩ | ⟨fd, conn, isFd, fresh, linked, conns, table, store, journal⟩)
  · exact ⟨⟨queue, sound⟩, isOpen, fun _ _ found => found, fun _ _ found => .inl found,
      fun _ _ slot => slot⟩
  obtain ⟨-, later, uptime⟩ := legal fd isFd
  have older : ∀ query other, after.conns.cell query = some other →
      query = conn ∧ other =
        { fd := fd, wantRead := true, lastActiveMs := now, traffic := { eventMs := now } } ∨
      query ≠ conn ∧ g.conns.cell query = some other := by
    intro query other found
    rw [conns, Mem.put_cell] at found
    split at found
    · rename_i same
      exact .inl ⟨same, (Option.some.inj found).symm⟩
    · rename_i different
      exact .inr ⟨different, found⟩
  have readMs : after.journal.readMs = now := by rw [journal]
  have history : after.journal.history = g.journal.history := by rw [journal]
  refine ⟨⟨queue ++ [conn], linked, ?_, ?_, ?_, ?_, ?_⟩, ?_, ?_, ?_, table⟩
  · rw [List.pairwise_append]
    refine ⟨?_, List.pairwise_singleton _ _, ?_⟩
    · refine sound.sorted.imp_of_mem fun {first second} firstMem secondMem ordered => ?_
      intro value other firstFound secondFound
      rcases older _ _ firstFound with ⟨same, -⟩ | ⟨-, firstFound⟩
      · exact absurd (same ▸ firstMem) fresh
      rcases older _ _ secondFound with ⟨same, -⟩ | ⟨-, secondFound⟩
      · exact absurd (same ▸ secondMem) fresh
      exact ordered value other firstFound secondFound
    · intro first firstMem second secondMem value other firstFound secondFound
      rcases older _ _ firstFound with ⟨same, -⟩ | ⟨-, firstFound⟩
      · exact absurd (same ▸ firstMem) fresh
      obtain rfl := List.mem_singleton.mp secondMem
      rcases older _ _ secondFound with ⟨-, rfl⟩ | ⟨different, -⟩
      · exact UInt64.le_trans (sound.recent first value firstFound) later.readMs_le
      · exact absurd rfl different
  · intro query other found
    rw [readMs]
    rcases older query other found with ⟨-, rfl⟩ | ⟨-, found⟩
    · exact UInt64.le_refl _
    · exact UInt64.le_trans (sound.recent query other found) later.readMs_le
  · intro query other found
    rcases older query other found with ⟨-, rfl⟩ | ⟨-, found⟩
    · exact uptime
    · exact sound.uptime query other found
  · rw [history, store]
    exact sound.reached
  · intro query other found
    rw [history]
    rcases older query other found with ⟨-, rfl⟩ | ⟨-, found⟩
    · exact Conn.sound_new _ fd now
    · exact sound.sound query other found
  · intro query other but found
    rcases older query other found with ⟨-, rfl⟩ | ⟨-, found⟩
    · rfl
    · exact isOpen query other but found
  · intro query other found
    rw [conns, Mem.put_ne _ _ _, found]
    rintro rfl
    have slot := (linked.live query).mpr (by simp)
    exact fresh ((sound.linked.live query).mp ⟨other, found⟩)
  · intro query other found
    rcases older query other found with ⟨-, rfl⟩ | ⟨-, found⟩
    · exact .inr rfl
    · exact .inl found

end GData.Sound

theorem GData.Sound.acceptConn_history {g after : GData D} {queue : List Ptr}
    (sound : g.Sound queue) {connfd : Option Nat} {now : UInt64}
    (legal : ∀ fd, connfd = some fd → g.NotOpen fd ∧ g.Later now ∧ Uptime now)
    (call : RedisLite.acceptConn g connfd now = .ok after) :
    after.journal.history = g.journal.history := by
  rcases (sound.linked.acceptConn fun fd isFd => (legal fd isFd).1).of_eq_ok call with
    ⟨-, rfl⟩ | ⟨fd, conn, -, -, -, -, -, -, journal⟩
  · rfl
  · rw [journal]

/-! ## One turn -/

/-- What the environment does in the turn of a poll argument: the clock does not go back,
`poll` reports requested events, errors and hang-ups only, and `read` and `write` stay
within their buffers.  The last field says that the run and the buffers are shorter than the
address space. -/
structure Turn.Legal {D : Type} (turn : Turn) (g : GData D) (arg : PollFd) : Prop where
  later : g.Later turn.now
  uptime : Uptime turn.now
  pollin : turn.revents.pollin = true → arg.pollin = true
  pollout : turn.revents.pollout = true → arg.pollout = true
  start : turn.now ≤ turn.reading 0
  grows : ∀ count, turn.reading count ≤ turn.reading (count + 1)
  read : turn.read.Legal
  reply : WriteLegal turn.reply
  write : WriteLegal turn.write
  small : ∀ conn value, g.fd2conn[arg.fd]? = some (some conn) → g.conns.cell conn = some value →
    g.journal.history.length + (value.incoming.length + turn.read.data.length) < 2 ^ 64

/-- The poll argument of a live connection. -/
structure PollFd.Of {D : Type} (g : GData D) (arg : PollFd) (conn : Ptr) (value : Conn) :
    Prop where
  slot : g.fd2conn[arg.fd]? = some (some conn)
  live : g.conns.cell conn = some value
  arg_eq : arg = ⟨value.fd, value.wantRead, value.wantWrite⟩

/-- The connection at the start of its turn. -/
def Conn.refreshed (value : Conn) (turn : Turn) : Conn :=
  { value with
    lastActiveMs := turn.now
    traffic := { value.traffic with
      eventMs := if turn.revents.isZero then value.traffic.eventMs else turn.now } }

/-- A step that only touches one connection and the database. -/
structure GData.Changes (g : GData D) (conn : Ptr) (value : Conn) (after : GData D) (new : Conn) :
    Prop where
  cell : after.conns.cell conn = some new
  others : ∀ other, other ≠ conn → after.conns.cell other = g.conns.cell other
  fd2conn : after.fd2conn = g.fd2conn
  keeps : value.Keeps new
  readMs : after.journal.readMs = g.journal.readMs
  suffix : g.journal.history <:+ after.journal.history

namespace GData.Changes

variable {g middle after : GData D} {conn : Ptr} {value other new : Conn}

omit [Dbl D] in
theorem refl (live : g.conns.cell conn = some value) : g.Changes conn value g value :=
  ⟨live, fun _ _ => rfl, rfl, ⟨rfl, rfl, rfl⟩, rfl, List.suffix_refl _⟩

omit [Dbl D] in
theorem trans (first : g.Changes conn value middle other)
    (second : middle.Changes conn other after new) : g.Changes conn value after new where
  cell := second.cell
  others := fun query different => (second.others query different).trans
    (first.others query different)
  fd2conn := second.fd2conn.trans first.fd2conn
  keeps := ⟨second.keeps.fd.trans first.keeps.fd,
    second.keeps.lastActiveMs.trans first.keeps.lastActiveMs,
    second.keeps.eventMs.trans first.keeps.eventMs⟩
  readMs := second.readMs.trans first.readMs
  suffix := first.suffix.trans second.suffix

end GData.Changes

namespace GData.Sound

variable {g after : GData D} {queue front back : List Ptr} {conn : Ptr} {value : Conn}
  {turn : Turn}

/-- The start of a turn moves the connection to the end of the idle list. -/
theorem refresh (sound : g.Sound (front ++ conn :: back)) (live : g.conns.cell conn = some value)
    (later : g.Later turn.now) (uptime : Uptime turn.now) :
    Exec.Returns (refresh g conn turn) fun after =>
      after.Sound (front ++ back ++ [conn]) ∧
      after.conns = g.conns.put conn (value.refreshed turn) ∧ after.fd2conn = g.fd2conn ∧
      after.store = g.store ∧ after.journal = { g.journal with readMs := turn.now } := by
  obtain ⟨detached, idle, detachEq, insertEq, ring, same⟩ := sound.linked.requeue
  have nodup := sound.linked.nodup
  rw [List.nodup_middle, List.nodup_cons] at nodup
  have place : ∀ query, query ∈ front ++ back ++ [conn] ↔ query ∈ front ++ conn :: back := by
    intro query
    simp only [List.mem_append, List.mem_cons, List.not_mem_nil, or_false]
    tauto
  have older : ∀ query other, (g.conns.put conn (value.refreshed turn)).cell query = some other →
      query = conn ∧ other = value.refreshed turn ∨
        query ≠ conn ∧ g.conns.cell query = some other := by
    intro query other found
    rw [Mem.put_cell] at found
    split at found
    · rename_i same
      exact .inl ⟨same, (Option.some.inj found).symm⟩
    · rename_i different
      exact .inr ⟨different, found⟩
  have linked : GData.Linked { g with conns := g.conns.put conn (value.refreshed turn) }
      (front ++ conn :: back) :=
    sound.linked.put live (show (value.refreshed turn).fd = value.fd from rfl) rfl rfl rfl
  simp only [RedisLite.refresh, Mem.modify_eq live, Exec.ok_bind, detachEq, insertEq,
    Exec.pure_eq_ok, Exec.returns_ok, and_true]
  refine ⟨⟨⟨ring, ?_, ?_, linked.table, linked.owned⟩, ?_, ?_, ?_, sound.reached, ?_⟩, rfl⟩
  · intro node
    rw [same.live, sound.linked.nodes, List.mem_cons, List.mem_cons, place]
  · intro query
    rw [place]
    exact linked.live query
  · rw [List.pairwise_append]
    refine ⟨?_, List.pairwise_singleton _ _, ?_⟩
    · have sublist : (front ++ back).Sublist (front ++ conn :: back) := by simp
      refine (sound.sorted.sublist sublist).imp_of_mem
        fun {first second} firstMem secondMem ordered => ?_
      intro one other firstFound secondFound
      rcases older _ _ firstFound with ⟨same, -⟩ | ⟨-, firstFound⟩
      · exact absurd (same ▸ firstMem) nodup.1
      rcases older _ _ secondFound with ⟨same, -⟩ | ⟨-, secondFound⟩
      · exact absurd (same ▸ secondMem) nodup.1
      exact ordered one other firstFound secondFound
    · intro first firstMem second secondMem one other firstFound secondFound
      rcases older _ _ firstFound with ⟨same, -⟩ | ⟨-, firstOld⟩
      · exact absurd (same ▸ firstMem) nodup.1
      rcases older _ _ secondFound with ⟨-, rfl⟩ | ⟨different, -⟩
      · exact UInt64.le_trans (sound.recent first one firstOld) later.readMs_le
      · exact absurd (List.mem_singleton.mp secondMem) different
  · intro query other found
    rcases older query other found with ⟨-, rfl⟩ | ⟨-, found⟩
    · exact UInt64.le_refl _
    · exact UInt64.le_trans (sound.recent query other found) later.readMs_le
  · intro query other found
    rcases older query other found with ⟨-, rfl⟩ | ⟨-, found⟩
    · exact uptime
    · exact sound.uptime query other found
  · intro query other found
    rcases older query other found with ⟨-, rfl⟩ | ⟨-, found⟩
    · have old := sound.sound conn value live
      exact ⟨⟨old.stream_eq, old.valid, old.stops, old.output_eq, old.answered⟩, old.ready.1,
        old.ready.2⟩
    · exact sound.sound query other found

/-- `handle_read` in a turn. -/
theorem readTurn (sound : g.Sound queue) (live : g.conns.cell conn = some value)
    (later : clock g.journal.history ≤ turn.reading 0)
    (grows : ∀ count, turn.reading count ≤ turn.reading (count + 1))
    (reply : WriteLegal turn.reply)
    (small : g.journal.history.length + (value.incoming.length + turn.read.data.length) < 2 ^ 64) :
    Exec.Returns (readTurn g conn turn) fun after =>
      after.Sound queue ∧ (turn.revents.pollin = false → after = g) ∧
        FramesServed D g.journal.history after.journal.history ∧
        ∃ new, g.Changes conn value after new := by
  by_cases pollin : turn.revents.pollin = true
  · obtain ⟨⟨store, new⟩, call, history, reads⟩ := (sound.sound conn value live).handleRead
      sound.reached turn.read reply later grows small
    have reads : value.Reads g.journal.history turn.read.data history store new := reads
    obtain ⟨done, executes, executed⟩ := reads.executes
    have historyEq : addRequests g.journal.history new.traffic.executed
        value.traffic.executed.length = history := by
      rw [addRequests, executed, List.drop_left, executes.eq_foldl]
      rfl
    simp only [RedisLite.readTurn, if_pos pollin, Mem.read_eq live, Exec.ok_bind, call, historyEq,
      Mem.write_eq live, Exec.pure_eq_ok, Exec.returns_ok]
    refine ⟨?_, fun isFalse => absurd (pollin.symm.trans isFalse) (by decide),
      reads.framesServed, new, ?_⟩
    · exact sound.update live reads.keeps.fd.symm reads.keeps.lastActiveMs rfl rfl rfl rfl
        executes.suffix reads.reached reads.sound
    · exact ⟨Mem.put_self .., fun _ different => Mem.put_ne _ different _, rfl, reads.keeps, rfl,
        executes.suffix⟩
  · rw [RedisLite.readTurn, if_neg pollin, Exec.returns_ok]
    exact ⟨sound, fun _ => rfl, .refl _, value, .refl live⟩

/-- `handle_write` in a turn. -/
theorem writeTurn (sound : g.Sound queue) (live : g.conns.cell conn = some value)
    (write : WriteLegal turn.write)
    (wanted : turn.revents.pollout = true → value.wantWrite = true) :
    Exec.Returns (writeTurn g conn turn) fun after =>
      after.Sound queue ∧ (turn.revents.pollout = false → after = g) ∧
        after.journal = g.journal ∧ ∃ new, g.Changes conn value after new := by
  by_cases pollout : turn.revents.pollout = true
  · have old := sound.sound conn value live
    have isEmpty : value.outgoing.isEmpty = false := by
      have flag := old.ready.wantWrite
      rw [wanted pollout] at flag
      simpa using flag
    obtain ⟨new, call, writes⟩ := handleWrite_spec write (List.isEmpty_eq_false_iff.mp isEmpty)
      (by rw [old.ready.wantRead, isEmpty]) (wanted pollout)
    simp only [RedisLite.writeTurn, if_pos pollout, Mem.read_eq live, Exec.ok_bind, call,
      Mem.write_eq live, Exec.pure_eq_ok, Exec.returns_ok]
    refine ⟨?_, fun isFalse => absurd (pollout.symm.trans isFalse) (by decide), trivial, new, ?_⟩
    · exact sound.update live writes.keeps.fd.symm writes.keeps.lastActiveMs rfl rfl rfl rfl
        (List.suffix_refl _) sound.reached (old.writes writes)
    · exact ⟨Mem.put_self .., fun _ different => Mem.put_ne _ different _, rfl, writes.keeps, rfl,
        List.suffix_refl _⟩
  · rw [RedisLite.writeTurn, if_neg pollout, Exec.returns_ok]
    exact ⟨sound, fun _ => rfl, rfl, value, .refl live⟩

/-- The end of a turn destroys a connection that is marked or has an error. -/
theorem closeTurn (sound : g.Sound queue) (live : g.conns.cell conn = some value)
    (others : g.OpenBut (some conn)) :
    Exec.Returns (closeTurn g conn turn) fun after =>
      (∃ queue, after.Sound queue) ∧ after.OpenBut none ∧ after.journal = g.journal ∧
      (after.conns = g.conns.drop conn ∧ after.fd2conn = g.fd2conn.set value.fd none ∧
          (turn.revents.pollerr || value.wantClose) = true ∨
        after = g ∧ (turn.revents.pollerr || value.wantClose) = false) := by
  simp only [RedisLite.closeTurn, Mem.read_eq live, Exec.ok_bind]
  by_cases close : (turn.revents.pollerr || value.wantClose) = true
  · obtain ⟨front, back, rfl⟩ :=
      List.append_of_mem ((sound.linked.live conn).mp ⟨value, live⟩)
    rw [if_pos close]
    apply (sound.connDestroy live).mono
    rintro after ⟨soundAfter, conns, fd2conn, -, journal⟩
    refine ⟨⟨_, soundAfter⟩, ?_, journal, .inl ⟨conns, fd2conn, close⟩⟩
    intro query other _ found
    rw [conns, Mem.drop_cell] at found
    split at found
    · cases found
    · rename_i different
      exact others query other (fun same => different (Option.some.inj same)) found
  · rw [if_neg close, Exec.pure_eq_ok, Exec.returns_ok]
    have unmarked := Bool.not_eq_true _ ▸ close
    refine ⟨⟨queue, sound⟩, ?_, rfl, .inr ⟨rfl, unmarked⟩⟩
    intro query other _ found
    by_cases same : query = conn
    · subst same
      rw [live] at found
      cases found
      exact (Bool.or_eq_false_iff.mp unmarked).2
    · exact others query other (fun equal => same (Option.some.inj equal)) found

end GData.Sound

/-- The effect of the turn of a connection: it is refreshed, or destroyed when something
happened. -/
structure GData.Turned (g : GData D) (conn : Ptr) (value : Conn) (turn : Turn)
    (after : GData D) : Prop where
  others : ∀ other, other ≠ conn → after.conns.cell other = g.conns.cell other
  slots : ∀ fd, fd ≠ value.fd → after.fd2conn[fd]? = g.fd2conn[fd]?
  refreshed : ∀ new, after.conns.cell conn = some new → (value.refreshed turn).Keeps new
  silent : turn.revents.isZero = true → ∃ new, after.conns.cell conn = some new
  suffix : g.journal.history <:+ after.journal.history
  readMs : after.journal.readMs = turn.now

/-- `POLLIN` and `POLLOUT` are not both requested. -/
theorem Turn.Legal.not_both {g : GData D} {arg : PollFd} {turn : Turn} (legal : turn.Legal g arg)
    {history : List Event} {value : Conn} (sound : value.Sound D history)
    (argEq : arg = ⟨value.fd, value.wantRead, value.wantWrite⟩)
    (pollout : turn.revents.pollout = true) :
    value.wantWrite = true ∧ turn.revents.pollin = false := by
  have wantWrite : value.wantWrite = true := by
    have requested := legal.pollout pollout
    rwa [argEq] at requested
  refine ⟨wantWrite, Bool.eq_false_iff.mpr fun pollin => ?_⟩
  have wantRead : value.wantRead = true := by
    have requested := legal.pollin pollin
    rwa [argEq] at requested
  rw [sound.ready.wantRead] at wantRead
  rw [sound.ready.wantWrite, wantRead] at wantWrite
  cases wantWrite

/-- The turn of a polled connection returns and keeps the invariant. -/
theorem GData.Sound.connTurn {g : GData D} {queue : List Ptr} {conn : Ptr} {value : Conn}
    {turn : Turn} {arg : PollFd} (sound : g.Sound queue) (isOpen : g.OpenBut none)
    (polled : arg.Of g conn value) (legal : turn.Legal g arg) :
    Exec.Returns (connTurn g arg.fd turn) fun after =>
      (∃ queue, after.Sound queue) ∧ after.OpenBut none ∧ g.Turned conn value turn after ∧
        FramesServed D g.journal.history after.journal.history := by
  obtain ⟨slot, live, argEq⟩ := polled
  obtain ⟨front, back, rfl⟩ := List.append_of_mem ((sound.linked.live conn).mp ⟨value, live⟩)
  obtain ⟨first, firstEq, firstSound, firstConns, firstTable, firstStore, firstJournal⟩ :=
    sound.refresh live legal.later legal.uptime
  have firstLive : first.conns.cell conn = some (value.refreshed turn) := by
    rw [firstConns, Mem.put_self]
  have firstHistory : first.journal.history = g.journal.history := by rw [firstJournal]
  have firstReadMs : first.journal.readMs = turn.now := by rw [firstJournal]
  obtain ⟨second, secondEq, secondSound, secondSame, served, new, secondChanges⟩ :=
    firstSound.readTurn firstLive
      (by rw [firstHistory]; exact UInt64.le_trans legal.later.clock_le legal.start)
      legal.grows legal.reply
      (by rw [firstHistory]; exact legal.small conn value slot live)
  have wanted : turn.revents.pollout = true → new.wantWrite = true := by
    intro pollout
    obtain ⟨wantWrite, noPollin⟩ := legal.not_both (sound.sound conn value live) argEq pollout
    have cell := secondChanges.cell
    rw [secondSame noPollin, firstLive] at cell
    cases cell
    exact wantWrite
  obtain ⟨third, thirdEq, thirdSound, thirdSame, thirdJournal, last, thirdChanges⟩ :=
    secondSound.writeTurn secondChanges.cell legal.write wanted
  have changes := secondChanges.trans thirdChanges
  have others : third.OpenBut (some conn) := by
    intro query other different found
    have apart : query ≠ conn := fun same => different (congrArg some same)
    rw [changes.others query apart, firstConns, Mem.put_ne _ apart] at found
    exact isOpen query other nofun found
  obtain ⟨after, afterEq, afterSound, afterOpen, journal, ends⟩ :=
    @closeTurn _ _ _ _ _ _ turn thirdSound thirdChanges.cell others
  have suffix : g.journal.history <:+ third.journal.history := by
    rw [← firstHistory]
    exact changes.suffix
  have readMs : third.journal.readMs = turn.now := changes.readMs.trans firstReadMs
  simp only [RedisLite.connTurn, slot, Exec.deref_some, Exec.ok_bind, firstEq, secondEq, thirdEq,
    afterEq, Exec.returns_ok]
  refine ⟨afterSound, afterOpen, ⟨?_, ?_, ?_, ?_, by rwa [journal], by rwa [journal]⟩, ?_⟩
  · intro other apart
    have same : third.conns.cell other = g.conns.cell other := by
      rw [changes.others other apart, firstConns, Mem.put_ne _ apart]
    rcases ends with ⟨conns, -, -⟩ | ⟨rfl, -⟩
    · rw [conns, Mem.drop_cell, if_neg apart, same]
    · exact same
  · intro fd apart
    have same : third.fd2conn = g.fd2conn := changes.fd2conn.trans firstTable
    have sameFd : last.fd = value.fd := changes.keeps.fd
    rcases ends with ⟨-, table, -⟩ | ⟨rfl, -⟩
    · rw [table, sameFd, List.getElem?_set_ne apart.symm, same]
    · rw [same]
  · intro found foundEq
    rcases ends with ⟨conns, -, -⟩ | ⟨rfl, -⟩
    · rw [conns, Mem.drop_cell, if_pos rfl] at foundEq
      cases foundEq
    · rw [changes.cell] at foundEq
      cases foundEq
      exact changes.keeps
  · intro silent
    simp only [Revents.isZero, Bool.not_eq_true', Bool.or_eq_false_iff] at silent
    obtain ⟨⟨⟨noPollin, noPollout⟩, noError⟩, -⟩ := silent
    rcases ends with ⟨-, -, closes⟩ | ⟨rfl, -⟩
    · have cell := thirdChanges.cell
      rw [thirdSame noPollout, secondSame noPollin, firstLive] at cell
      cases cell
      have unmarked := isOpen conn value nofun live
      have closes : (turn.revents.pollerr || value.wantClose) = true := closes
      rw [noError, unmarked] at closes
      cases closes
    · exact ⟨last, changes.cell⟩
  · rw [journal, thirdJournal, ← firstHistory]
    exact served

end RedisLite
