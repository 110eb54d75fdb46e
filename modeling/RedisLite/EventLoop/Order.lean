import RedisLite.EventLoop.Effects
import RedisLite.Lib.Linearization
import RedisLite.Server.Batches

/-!
# The order of the commands

The commands of all connections take effect one after the other.  The store that answers
them is a sequential object, and every run of the event loop is explained by one order of
its actions: each connection finds the commands that it has executed in that order, and
the order of an earlier state is a prefix, so that a command whose response was there
before another command was received comes first.
-/

namespace RedisLite

open Lib

variable {D : Type} [Dbl D]

/-! ## The store as a sequential object -/

/-- An action on the store: a command of a connection, or a sweep. -/
inductive Action where
  | command (conn : Ptr) (done : Executed)
  | sweep (evicted : List Bytes) (now : UInt64)

/-- The connection that an action is for. -/
def Action.conn : Action → Option Ptr
  | .command conn _ => some conn
  | .sweep _ _ => none

def Action.event : Action → Event
  | .command _ done => done.event
  | .sweep evicted now => .sweep evicted now

/-- The store performs an action: a command is answered by the response that was sent and
has its effect, and a sweep removes keys whose deadlines have passed. -/
inductive Store.Performs : Store D → Action → Store D → Prop where
  | command {store : Store D} {conn : Ptr} {done : Executed} {value : Value D}
      (answers : store.Answers done.now (Request.ofCmd done.cmd) value)
      (response : done.response = frame ((value.limited Dbl.bits).encode Dbl.bits)) :
      Performs store (.command conn done) (store.apply done.now.toNat (Request.ofCmd done.cmd))
  | sweep {store : Store D} {evicted : List Bytes} {now : UInt64}
      (due : ∀ key ∈ evicted, store.Due now key) :
      Performs store (.sweep evicted now) (store.evict evicted)

variable (D) in
/-- The store, empty at first. -/
def atomicStore : Atomic (Store D) Action where
  start := ∅
  step := Store.Performs

/-- Executed commands continue an order. -/
theorem Executes.performs {history after : List Event} {done : List Executed} {order : List Action}
    (executes : Executes D history done after) (conn : Ptr)
    (performs : (atomicStore D).Performs order (Store.after history)) :
    (atomicStore D).Performs (order ++ done.map (.command conn)) (Store.after after) := by
  induction executes with
  | nil =>
      rw [List.map_nil, List.append_nil]
      exact performs
  | @snoc middle done one _ answered ih =>
      obtain ⟨value, answers, response⟩ := answered
      rw [List.map_append, List.map_singleton, ← List.append_assoc]
      exact ih.snoc (.command answers response)

theorem Executes.event_map {history after : List Event} {done : List Executed}
    (executes : Executes D history done after) (conn : Ptr) :
    after = ((done.map (Action.command conn)).map Action.event).reverse ++ history := by
  induction executes with
  | nil => rfl
  | snoc _ _ ih =>
      rw [List.map_append, List.map_append, List.reverse_append, ih]
      rfl

/-! ## Explaining a state -/

/-- The order explains the state of the server. -/
structure Explains (D : Type) [Dbl D] (order : List Action) (g : GData D) : Prop where
  /-- The store performs the actions, and the database stands for what they leave. -/
  performs : (atomicStore D).Performs order (Store.after g.journal.history)
  denotes : g.store.Denotes (Store.after g.journal.history)
  history_eq : g.journal.history = (order.map Action.event).reverse
  /-- A connection has executed its own commands, in this order. -/
  own : ∀ conn value, g.conns.cell conn = some value →
    Atomic.own Action.conn conn order = value.traffic.executed.map (.command conn)
  /-- Identities of connections are not used again. -/
  used : ∀ action ∈ order, ∀ conn, action.conn = some conn → conn < g.idle.next

namespace Explains

variable {g after : GData D} {order : List Action}

/-- A turn of a connection adds the commands that it executed. -/
theorem turn {conn : Ptr} {value middle last : Conn} {turn : Turn} {data : Bytes}
    {done : List Executed} (explains : Explains D order g) (below : conn < g.idle.next)
    (took : g.Took conn value turn after middle last)
    (serves : g.Serves value turn after middle last data done) :
    Explains D (order ++ done.map (.command conn)) after where
  performs := serves.executes.performs conn explains.performs
  denotes := serves.reads.reached.denotes
  history_eq := by
    rw [serves.executes.event_map conn, List.map_append, List.reverse_append, explains.history_eq]
  own := by
    intro other new live
    rw [took.cells] at live
    by_cases same : other = conn
    · subst same
      have isLast : last = new := by
        rw [if_pos rfl] at live
        split at live
        · cases live
        · exact Option.some.inj live
      have executed : last.traffic.executed = middle.traffic.executed := by
        have write := took.write
        by_cases pollout : turn.revents.pollout = true
        · exact (serves.writes pollout).executed
        · rw [if_neg pollout] at write
          rw [Except.ok.inj write]
      rw [Atomic.own_append, explains.own other value took.live, Atomic.own_eq_self, ← isLast,
        executed, serves.executed, List.map_append]
      intro action member
      obtain ⟨one, -, rfl⟩ := List.mem_map.mp member
      rfl
    · rw [if_neg same] at live
      rw [Atomic.own_append, explains.own other new live, Atomic.own_eq_nil, List.append_nil]
      intro action member isOther
      obtain ⟨one, -, rfl⟩ := List.mem_map.mp member
      exact same (Option.some.inj isOther).symm
  used := by
    rw [took.idle_next]
    intro action member other isOther
    rcases List.mem_append.mp member with member | member
    · exact explains.used action member other isOther
    · obtain ⟨one, -, rfl⟩ := List.mem_map.mp member
      cases isOther
      exact below

/-- A new connection has executed nothing. -/
theorem accepted {fd : Nat} {now : UInt64} (explains : Explains D order g)
    (cells : ∀ other, after.conns.cell other = if other = g.idle.next then some (.accepted fd now)
      else g.conns.cell other)
    (store : after.store = g.store) (history : after.journal.history = g.journal.history)
    (idle_next : after.idle.next = g.idle.next + 1) : Explains D order after where
  performs := by
    rw [history]
    exact explains.performs
  denotes := by
    rw [history, store]
    exact explains.denotes
  history_eq := history.trans explains.history_eq
  own := by
    intro conn value live
    rw [cells] at live
    by_cases isNew : conn = g.idle.next
    · rw [if_pos isNew] at live
      cases live
      apply Atomic.own_eq_nil
      intro action member isOwn
      exact Nat.ne_of_lt (explains.used action member conn isOwn) isNew
    · rw [if_neg isNew] at live
      exact explains.own conn value live
  used := by
    intro action member conn isConn
    rw [idle_next]
    exact Nat.lt_succ_of_lt (explains.used action member conn isConn)

/-- The timers remove keys whose deadlines have passed. -/
theorem timers {now : UInt64} (explains : Explains D order g)
    (sweep : processTtl g.store now = .ok after.store)
    (history : after.journal.history =
      .sweep (g.store.evicted after.store) now :: g.journal.history)
    (cells : ∀ conn, after.conns.cell conn = (g.conns.cell conn).filter fun value =>
      !value.expired now)
    (idle_next : after.idle.next = g.idle.next) :
    Explains D (order ++ [.sweep (g.store.evicted after.store) now]) after where
  performs := by
    obtain ⟨keys, sweeping, -⟩ := (explains.denotes.processTtl_swept now).of_eq_ok sweep
    have due : ∀ key ∈ g.store.evicted after.store,
        (Store.after g.journal.history : Store D).Due now key := by
      intro key member
      exact sweeping.due key ((sweeping.evicted_perm explains.denotes).mem_iff.mp member)
    rw [history]
    exact explains.performs.snoc (.sweep due)
  denotes := by
    rw [history]
    exact explains.denotes.sweep sweep
  history_eq := by
    rw [history, explains.history_eq, List.map_append, List.reverse_append]
    rfl
  own := by
    intro conn value live
    rw [cells, Option.filter_eq_some_iff] at live
    rw [Atomic.own_append, explains.own conn value live.1, Atomic.own_eq_nil, List.append_nil]
    intro action member isOwn
    obtain rfl := List.mem_singleton.mp member
    cases isOwn
  used := by
    rw [idle_next]
    intro action member conn isConn
    rcases List.mem_append.mp member with member | member
    · exact explains.used action member conn isConn
    · obtain rfl := List.mem_singleton.mp member
      cases isConn

end Explains

/-! ## Runs -/

/-- Every step continues the order. -/
theorem Run.explains_step {passed : List (Moment D)} {state after : LoopState D}
    {event : LoopEvent} {order : List Action} (run : Run passed state)
    (legal : Legal state event) (call : loopStep state event = .ok after)
    (explains : Explains D order state.g) :
    ∃ more, Explains D (order ++ more) after.g := by
  have effect := run.effect legal call
  cases effect with
  | interrupted => exact ⟨[], by rwa [List.append_nil]⟩
  | waited polls => exact ⟨[], by rwa [List.append_nil]⟩
  | accepted polls cells slots store history idle_next =>
      refine ⟨[], ?_⟩
      rw [List.append_nil]
      exact explains.accepted cells store history idle_next
  | turn polled took =>
      obtain ⟨data, done, serves⟩ := run.serves legal polled took
      exact ⟨_, explains.turn (run.conn_lt took.live) took serves⟩
  | timers sweep history cells idle_next =>
      exact ⟨_, explains.timers sweep history cells idle_next⟩

/-- The server before the first connection is explained by no actions. -/
theorem Explains.init {g : GData D} (init : GData.init D = .ok g) : Explains D [] g := by
  obtain ⟨-, store, conns, journal⟩ := GData.Linked.init.of_eq_ok init
  have history : g.journal.history = [] := by rw [journal]
  refine ⟨?_, ?_, history, ?_, nofun⟩
  · rw [history]
    exact .start
  · rw [history, store]
    exact .empty
  · intro conn value live
    rw [conns] at live
    cases live

theorem Run.explains {passed : List (Moment D)} {state : LoopState D} (run : Run passed state) :
    ∃ order, Explains D order state.g := by
  induction run with
  | start init => exact ⟨[], .init init⟩
  | step run legal call ih =>
      obtain ⟨order, explains⟩ := ih
      obtain ⟨more, explainsAfter⟩ := run.explains_step legal call explains
      exact ⟨order ++ more, explainsAfter⟩

/-- Every run is linearizable.  One order of the commands of all connections, live or
destroyed, and of the sweeps explains its last state: the store performs them one after the
other, from the empty store to what the database stands for, giving the responses that were
sent, and every live connection finds the commands that it has executed in its own order.
Every state that the run passed is explained by a prefix of that order, so no command comes
before another one that was answered before it was received. -/
theorem run_linearizable {passed : List (Moment D)} {state : LoopState D}
    (run : Run passed state) :
    ∃ order, Explains D order state.g ∧
      ∀ moment ∈ passed, ∃ front, front <+: order ∧ Explains D front moment.state.g := by
  induction run with
  | start init => exact ⟨[], .init init, fun _ member => absurd member List.not_mem_nil⟩
  | @step passed state after event run legal call ih =>
      obtain ⟨order, explains, fronts⟩ := ih
      obtain ⟨more, explainsAfter⟩ := run.explains_step legal call explains
      refine ⟨order ++ more, explainsAfter, ?_⟩
      intro moment member
      rcases List.mem_cons.mp member with rfl | member
      · exact ⟨order, List.prefix_append .., explains⟩
      · obtain ⟨front, isPrefix, frontExplains⟩ := fronts moment member
        exact ⟨front, isPrefix.trans (List.prefix_append ..), frontExplains⟩

/-- The order after a client asked for the keys. -/
theorem run_linearizable_keys : ∃ (g : GData Nat) (order : List Action), Explains Nat order g ∧
    ∃ done, Atomic.own Action.conn 1 order = [.command 1 done] ∧ done.cmd = [ascii "keys"] := by
  obtain ⟨passed, state, after, value, new, run, -, -, -, live, -, executed⟩ := Run.asks
  obtain ⟨order, explains, -⟩ := run_linearizable run
  have own := explains.own 1 new live
  obtain ⟨done, single, cmd⟩ := List.map_eq_singleton_iff.mp executed
  rw [single] at own
  exact ⟨after.g, order, explains, done, own, cmd⟩

end RedisLite
