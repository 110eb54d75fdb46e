import RedisLite.EventLoop.Timers

/-!
# Runs of the event loop

The steps of `main`: `poll` with the listening socket, the turns of the polled connections
and the timers.  A run takes any steps that the environment can cause.  Every step returns,
so no assertion fails, and keeps the invariant.
-/

namespace RedisLite

open Lib

/-! ## Steps -/

/-- Where `main` is: at the top of its loop, or in the loop over the poll arguments, with
those whose turn is to come. -/
inductive Phase where
  | top
  | turns (args : List PollFd)

/-- The state of `main`. -/
structure LoopState (D : Type) where
  g : GData D
  phase : Phase

/-- What the next step depends on.  `timerMs` is the clock reading of `next_timer_ms`. -/
inductive LoopEvent where
  /-- `poll` is interrupted by a signal. -/
  | interrupted (timerMs : UInt64)
  /-- `poll` returns; `listen` tells whether the listening socket has events, and `connfd`
  is what `accept` returns then. -/
  | polled (timerMs : UInt64) (listen : Bool) (connfd : Option Nat) (acceptMs : UInt64)
  /-- The turn of the next poll argument. -/
  | turn (turn : Turn)
  /-- `process_timers`. -/
  | timers (nowMs : UInt64)

variable {D : Type} [Dbl D]

omit [Dbl D] in
/-- The part of the loop of `main` up to the handling of the listening socket. -/
def pollStep (g : GData D) (timerMs : UInt64) (listen : Bool) (connfd : Option Nat)
    (acceptMs : UInt64) : Exec (LoopState D) := do
  let args ← pollArgs g.conns g.fd2conn
  let _ ← nextTimerMs g timerMs
  let g ← if listen then acceptConn g connfd acceptMs else pure g
  return ⟨g, .turns args⟩

/-- One step of `main`.  The events of the last case do not occur. -/
def loopStep : LoopState D → LoopEvent → Exec (LoopState D)
  | ⟨g, .top⟩, .interrupted timerMs => do
      let _ ← pollArgs g.conns g.fd2conn
      let _ ← nextTimerMs g timerMs
      return ⟨g, .top⟩
  | ⟨g, .top⟩, .polled timerMs listen connfd acceptMs => pollStep g timerMs listen connfd acceptMs
  | ⟨g, .turns (arg :: args)⟩, .turn turn => do return ⟨← connTurn g arg.fd turn, .turns args⟩
  | ⟨g, .turns []⟩, .timers nowMs => do return ⟨← processTimers g nowMs, .top⟩
  | state, _ => .ok state

omit [Dbl D] in
/-- The events that the environment can cause.  `accept` returns a descriptor that is not
open, and the clock does not go back. -/
def Legal : LoopState D → LoopEvent → Prop
  | ⟨_, .top⟩, .interrupted _ => True
  | ⟨g, .top⟩, .polled _ listen connfd acceptMs => listen = true →
      ∀ fd, connfd = some fd → g.NotOpen fd ∧ g.Later acceptMs ∧ Uptime acceptMs
  | ⟨g, .turns (arg :: _)⟩, .turn turn => turn.Legal g arg
  | ⟨g, .turns []⟩, .timers nowMs => g.Later nowMs
  | _, _ => False

/-- A state that a run passed, and the event there. -/
structure Moment (D : Type) where
  state : LoopState D
  event : LoopEvent

/-- The runs of the event loop, with the states passed, most recent first. -/
inductive Run : List (Moment D) → LoopState D → Prop where
  | start {g : GData D} (init : GData.init D = .ok g) : Run [] ⟨g, .top⟩
  | step {passed : List (Moment D)} {state after : LoopState D} {event : LoopEvent}
      (run : Run passed state) (legal : Legal state event)
      (call : loopStep state event = .ok after) : Run (⟨state, event⟩ :: passed) after

/-! ## Poll arguments -/

/-- The arguments whose turn is to come belong to distinct live connections. -/
structure Awaits {D : Type} (g : GData D) (args : List PollFd) : Prop where
  nodup : (args.map PollFd.fd).Nodup
  polled : ∀ arg ∈ args, ∃ conn value, arg.Of g conn value

/-- There is a poll argument for every live connection. -/
def PollsAll {D : Type} (g : GData D) (args : List PollFd) : Prop :=
  ∀ conn value, g.conns.cell conn = some value → ∃ arg ∈ args, arg.fd = value.fd

namespace GData.Linked

variable {g after : GData D} {queue : List Ptr}

omit [Dbl D] in
/-- The arguments of a part of the table. -/
theorem pollArgs_suffix (linked : g.Linked queue) (rest : List (Option Ptr)) :
    ∀ front, g.fd2conn = front ++ rest →
      Exec.Returns (pollArgs g.conns rest) fun args =>
        Awaits g args ∧ (∀ arg ∈ args, front.length ≤ arg.fd) ∧
        ∀ conn value, g.conns.cell conn = some value → front.length ≤ value.fd →
          ∃ arg ∈ args, arg.fd = value.fd := by
  induction rest with
  | nil =>
      intro front table
      refine .of_ok ⟨⟨.nil, nofun⟩, nofun, fun conn value live above => ?_⟩
      have slot := linked.table conn value live
      rw [table, List.append_nil, List.getElem?_eq_none above] at slot
      cases slot
  | cons entry rest ih =>
      intro front table
      have splits : g.fd2conn = (front ++ [entry]) ++ rest := by rw [table, List.append_cons]
      obtain ⟨args, argsEq, awaits, above, complete⟩ := ih (front ++ [entry]) splits
      simp only [List.length_append, List.length_singleton] at above complete
      have slot : g.fd2conn[front.length]? = some entry := by rw [table]; simp
      cases entry with
      | none =>
          rw [pollArgs, argsEq, Exec.returns_ok]
          refine ⟨awaits, fun arg member => Nat.le_of_succ_le (above arg member), ?_⟩
          intro conn value live fdAbove
          apply complete conn value live
          refine Nat.lt_of_le_of_ne fdAbove fun same => ?_
          have filled := linked.table conn value live
          rw [← same, slot] at filled
          cases filled
      | some conn =>
          obtain ⟨value, live, fdEq⟩ := linked.owned front.length conn slot
          simp only [pollArgs, Mem.read_eq live, Exec.ok_bind, argsEq, Exec.pure_eq_ok,
            Exec.returns_ok]
          refine ⟨⟨?_, ?_⟩, ?_, ?_⟩
          · rw [List.map_cons, List.nodup_cons]
            refine ⟨fun member => ?_, awaits.nodup⟩
            obtain ⟨arg, argMem, same⟩ := List.mem_map.mp member
            have later := above arg argMem
            have same : arg.fd = value.fd := same
            omega
          · intro arg member
            rcases List.mem_cons.mp member with rfl | member
            · exact ⟨conn, value, by rw [fdEq]; exact slot, live, rfl⟩
            · exact awaits.polled arg member
          · intro arg member
            rcases List.mem_cons.mp member with rfl | member
            · exact Nat.le_of_eq fdEq.symm
            · exact Nat.le_of_succ_le (above arg member)
          · intro other otherValue otherLive fdAbove
            by_cases same : front.length = otherValue.fd
            · exact ⟨_, List.mem_cons_self, fdEq.trans same⟩
            · obtain ⟨arg, member, argFd⟩ := complete other otherValue otherLive (by omega)
              exact ⟨arg, List.mem_cons_of_mem _ member, argFd⟩

omit [Dbl D] in
theorem pollArgs (linked : g.Linked queue) :
    Exec.Returns (pollArgs g.conns g.fd2conn) fun args => Awaits g args ∧ PollsAll g args := by
  apply (linked.pollArgs_suffix g.fd2conn [] rfl).mono
  rintro args ⟨awaits, -, complete⟩
  exact ⟨awaits, fun conn value live => complete conn value live (Nat.zero_le _)⟩

end GData.Linked

namespace Awaits

variable {g after : GData D} {args : List PollFd} {arg : PollFd} {conn : Ptr} {value : Conn}

omit [Dbl D] in
theorem none : Awaits g [] := ⟨.nil, nofun⟩

omit [Dbl D] in
theorem accept (awaits : Awaits g args)
    (conns : ∀ conn value, g.conns.cell conn = some value → after.conns.cell conn = some value)
    (table : ∀ query other : Nat, g.fd2conn[query]? = some (some other) →
      after.fd2conn[query]? = some (some other)) : Awaits after args where
  nodup := awaits.nodup
  polled := by
    intro arg member
    obtain ⟨conn, value, polled⟩ := awaits.polled arg member
    exact ⟨conn, value, table _ _ polled.slot, conns conn value polled.live, polled.arg_eq⟩

omit [Dbl D] in
/-- A turn leaves the other polled connections alone. -/
theorem turned (awaits : Awaits g (arg :: args)) (polled : arg.Of g conn value) {turn : Turn}
    (turned : g.Turned conn value turn after) : Awaits after args where
  nodup := (List.nodup_cons.mp awaits.nodup).2
  polled := by
    intro other member
    obtain ⟨otherConn, otherValue, otherPolled⟩ :=
      awaits.polled other (List.mem_cons_of_mem _ member)
    have argFd : arg.fd = value.fd := by rw [polled.arg_eq]
    have otherFd : other.fd = otherValue.fd := by rw [otherPolled.arg_eq]
    have apart : other.fd ≠ arg.fd := by
      intro same
      apply (List.nodup_cons.mp awaits.nodup).1
      rw [← same]
      exact List.mem_map_of_mem member
    have different : otherConn ≠ conn := by
      rintro rfl
      have live := otherPolled.live
      rw [polled.live] at live
      cases live
      exact apart (otherFd.trans argFd.symm)
    refine ⟨otherConn, otherValue, ?_, ?_, otherPolled.arg_eq⟩
    · rw [turned.slots _ (argFd ▸ apart)]
      exact otherPolled.slot
    · rw [turned.others _ different]
      exact otherPolled.live

end Awaits

/-! ## The invariant of runs -/

/-- The poll arguments that are left at a place of `main`. -/
def Phase.args : Phase → List PollFd
  | .top => []
  | .turns args => args

/-- The invariant of the event loop. -/
structure LoopState.Inv (state : LoopState D) : Prop where
  sound : ∃ queue, state.g.Sound queue
  isOpen : state.g.OpenBut none
  awaits : Awaits state.g state.phase.args

/-- What a step that the environment can cause does. -/
inductive Stepped : LoopState D → LoopEvent → LoopState D → Prop where
  | interrupted {g : GData D} {timerMs : UInt64} :
      Stepped ⟨g, .top⟩ (.interrupted timerMs) ⟨g, .top⟩
  | polled {g after : GData D} {timerMs acceptMs : UInt64} {listen : Bool} {connfd : Option Nat}
      {args : List PollFd} (complete : PollsAll g args)
      (conns : ∀ conn value, after.conns.cell conn = some value →
        g.conns.cell conn = some value ∨ value.lastActiveMs = value.traffic.eventMs)
      (history : after.journal.history = g.journal.history) :
      Stepped ⟨g, .top⟩ (.polled timerMs listen connfd acceptMs) ⟨after, .turns args⟩
  | turn {g after : GData D} {arg : PollFd} {args : List PollFd} {conn : Ptr} {value : Conn}
      {turn : Turn} (polled : arg.Of g conn value) (turned : g.Turned conn value turn after)
      (served : FramesServed D g.journal.history after.journal.history) :
      Stepped ⟨g, .turns (arg :: args)⟩ (.turn turn) ⟨after, .turns args⟩
  | timers {g after : GData D} {nowMs : UInt64} {evicted : List Bytes}
      (history : after.journal.history = .sweep evicted nowMs :: g.journal.history) :
      Stepped ⟨g, .turns []⟩ (.timers nowMs) ⟨after, .top⟩

theorem GData.Sound.nextTimerMs {g : GData D} {queue : List Ptr} (sound : g.Sound queue)
    (now : UInt64) : ∃ timeout, nextTimerMs g now = .ok timeout := by
  have front := sound.idleTimeout_eq
  cases queue with
  | nil => exact ⟨_, by simp only [RedisLite.nextTimerMs, front, Exec.ok_bind]; rfl⟩
  | cons conn rest =>
      obtain ⟨value, -, timeoutEq⟩ := front
      exact ⟨_, by simp only [RedisLite.nextTimerMs, timeoutEq, Exec.ok_bind]; rfl⟩

/-- Every step that the environment can cause returns and keeps the invariant. -/
theorem LoopState.Inv.loopStep {state : LoopState D} {event : LoopEvent} (inv : state.Inv)
    (legal : Legal state event) :
    Exec.Returns (loopStep state event) fun after => after.Inv ∧ Stepped state event after := by
  obtain ⟨g, phase⟩ := state
  obtain ⟨⟨queue, sound⟩, isOpen, awaits⟩ := inv
  have sound : g.Sound queue := sound
  have isOpen : g.OpenBut none := isOpen
  cases event with
  | interrupted timerMs =>
      cases phase with
      | turns args => cases args <;> exact legal.elim
      | top =>
          obtain ⟨args, argsEq, -⟩ := sound.linked.pollArgs
          obtain ⟨timeout, timeoutEq⟩ := sound.nextTimerMs timerMs
          simp only [RedisLite.loopStep, argsEq, timeoutEq, Exec.ok_bind, Exec.pure_eq_ok,
            Exec.returns_ok]
          exact ⟨⟨⟨queue, sound⟩, isOpen, awaits⟩, .interrupted⟩
  | polled timerMs listen connfd acceptMs =>
      cases phase with
      | turns args => cases args <;> exact legal.elim
      | top =>
          obtain ⟨args, argsEq, argsAwait, complete⟩ := sound.linked.pollArgs
          obtain ⟨timeout, timeoutEq⟩ := sound.nextTimerMs timerMs
          simp only [RedisLite.loopStep, pollStep, argsEq, timeoutEq, Exec.ok_bind]
          by_cases listens : listen = true
          · obtain ⟨after, acceptEq, afterSound, afterOpen, conns, fresh, table⟩ :=
              sound.acceptConn isOpen (legal listens)
            have history := sound.acceptConn_history (legal listens) acceptEq
            rw [if_pos listens, acceptEq, Exec.ok_bind, Exec.pure_eq_ok, Exec.returns_ok]
            exact ⟨⟨afterSound, afterOpen, argsAwait.accept conns table⟩,
              .polled complete fresh history⟩
          · rw [if_neg listens, Exec.pure_eq_ok, Exec.ok_bind, Exec.pure_eq_ok, Exec.returns_ok]
            exact ⟨⟨⟨queue, sound⟩, isOpen, argsAwait⟩,
              .polled complete (fun _ _ live => .inl live) rfl⟩
  | turn turn =>
      cases phase with
      | top => exact legal.elim
      | turns args =>
          cases args with
          | nil => exact legal.elim
          | cons arg args =>
              have awaits : Awaits g (arg :: args) := awaits
              obtain ⟨conn, value, polled⟩ := awaits.polled arg List.mem_cons_self
              obtain ⟨after, turnEq, afterSound, afterOpen, turned, served⟩ :=
                sound.connTurn isOpen polled legal
              simp only [RedisLite.loopStep, turnEq, Exec.ok_bind, Exec.pure_eq_ok,
                Exec.returns_ok]
              exact ⟨⟨afterSound, afterOpen, awaits.turned polled turned⟩,
                .turn polled turned served⟩
  | timers nowMs =>
      cases phase with
      | top => exact legal.elim
      | turns args =>
          cases args with
          | cons arg args => exact legal.elim
          | nil =>
              obtain ⟨after, timersEq, afterSound, afterOpen, -, journal, -⟩ :=
                sound.processTimers isOpen legal
              simp only [RedisLite.loopStep, timersEq, Exec.ok_bind, Exec.pure_eq_ok,
                Exec.returns_ok]
              exact ⟨⟨afterSound, afterOpen, .none⟩, .timers (by rw [journal])⟩

/-- The invariant holds in every state of every run. -/
theorem Run.inv {passed : List (Moment D)} {state : LoopState D} (run : Run passed state) :
    state.Inv := by
  induction run with
  | start init =>
      obtain ⟨sound, isOpen⟩ := GData.Sound.init.of_eq_ok init
      exact ⟨⟨[], sound⟩, isOpen, .none⟩
  | step _ legal call ih => exact ((ih.loopStep legal).of_eq_ok call).1

theorem Run.stepped {passed : List (Moment D)} {state after : LoopState D} {event : LoopEvent}
    (run : Run passed state) (legal : Legal state event) (call : loopStep state event = .ok after) :
    Stepped state event after :=
  ((run.inv.loopStep legal).of_eq_ok call).2

/-- No step of a run faults: the run goes on whatever the environment does. -/
theorem Run.goes_on {passed : List (Moment D)} {state : LoopState D} (run : Run passed state)
    {event : LoopEvent} (legal : Legal state event) :
    Exec.Returns (loopStep state event) fun after => Run (⟨state, event⟩ :: passed) after := by
  obtain ⟨after, call, -⟩ := run.inv.loopStep legal
  exact ⟨after, call, .step run legal call⟩

theorem Run.of_suffix {passed earlier : List (Moment D)} {state : LoopState D}
    {moment : Moment D} (run : Run passed state) (place : moment :: earlier <:+ passed) :
    Run earlier moment.state ∧ Legal moment.state moment.event := by
  induction run with
  | start init => cases List.suffix_nil.mp place
  | step run legal call ih =>
      rcases List.suffix_cons_iff.mp place with equal | place
      · cases equal
        exact ⟨run, legal⟩
      · exact ih place

end RedisLite
