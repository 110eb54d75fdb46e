import RedisLite.EventLoop.Safety

/-!
# The eviction of silent connections

A connection is silent while `poll` reports no event for it.  The loop over the poll
arguments refreshes `last_active_ms` of silent connections too, so `process_timers` can keep
a connection that has been silent for the timeout.  Whether it does depends on the clock
readings of the turns in its round.
-/

namespace RedisLite

open Lib

variable {D : Type} [Dbl D]

/-! ## Rounds -/

/-- The moment is the turn of a connection. -/
def Moment.isTurn {D : Type} (moment : Moment D) : Bool :=
  match moment.event with
  | .turn _ => true
  | _ => false

/-- The turns since the last poll. -/
def roundTurns {D : Type} (passed : List (Moment D)) : List (Moment D) :=
  passed.takeWhile Moment.isTurn

/-- The turn of a connection without events. -/
structure Moment.SilentTurn {D : Type} (moment : Moment D) (turn : Turn) (conn : Ptr)
    (value : Conn) : Prop where
  event_eq : moment.event = .turn turn
  polled : ∃ arg args, moment.state.phase = .turns (arg :: args) ∧
    arg.Of moment.state.g conn value
  silent : turn.revents.isZero = true

/-- The turn refreshes a silent connection whose last event is as long ago as the timeout,
and the refreshed time is not. -/
def Moment.Spares {D : Type} (moment : Moment D) (now : UInt64) : Prop :=
  ∃ turn conn value, moment.SilentTurn turn conn value ∧
    value.traffic.eventMs.toNat + kIdleTimeoutMs.toNat ≤ now.toNat ∧
    now.toNat < turn.now.toNat + kIdleTimeoutMs.toNat

/-- What the connections have done in the round so far. -/
structure Rounds {D : Type} (passed : List (Moment D)) (state : LoopState D) : Prop where
  /-- A connection waits for its turn, was active at its last event or was refreshed by a
  silent turn. -/
  active : ∀ args, state.phase = .turns args →
    ∀ conn value, state.g.conns.cell conn = some value →
      (∃ arg ∈ args, arg.fd = value.fd) ∨ value.lastActiveMs = value.traffic.eventMs ∨
      ∃ moment ∈ roundTurns passed, ∃ turn old, moment.SilentTurn turn conn old ∧
        old.traffic.eventMs = value.traffic.eventMs ∧ value.lastActiveMs = turn.now
  /-- A connection that had a silent turn is live and refreshed. -/
  kept : ∀ moment ∈ roundTurns passed, ∀ turn conn old, moment.SilentTurn turn conn old →
    ∃ value, state.g.conns.cell conn = some value ∧
      value.traffic.eventMs = old.traffic.eventMs ∧ value.lastActiveMs = turn.now ∧
      ∀ arg ∈ state.phase.args, arg.fd ≠ value.fd

omit [Dbl D] in
theorem roundTurns_of_not_turn {moment : Moment D} {passed : List (Moment D)}
    (noTurn : moment.isTurn = false) : roundTurns (moment :: passed) = [] := by
  rw [roundTurns, List.takeWhile_cons_of_neg (by rw [noTurn]; decide)]

omit [Dbl D] in
theorem Rounds.top {moment : Moment D} {passed : List (Moment D)} {g : GData D}
    (noTurn : moment.isTurn = false) : Rounds (moment :: passed) ⟨g, .top⟩ where
  active := by
    intro args isTurns
    cases isTurns
  kept := by
    rw [roundTurns_of_not_turn noTurn]
    intro moment member
    cases member

omit [Dbl D] in
theorem PollFd.Of.unique {g : GData D} {arg : PollFd} {conn other : Ptr}
    {value otherValue : Conn} (polled : arg.Of g conn value)
    (otherPolled : arg.Of g other otherValue) : conn = other ∧ value = otherValue := by
  have slot := polled.slot
  rw [otherPolled.slot] at slot
  cases slot
  have live := polled.live
  rw [otherPolled.live] at live
  cases live
  exact ⟨rfl, rfl⟩

omit [Dbl D] in
/-- After a poll all connections wait for their turns, or are new. -/
theorem Rounds.polled {moment : Moment D} {passed : List (Moment D)} {g after : GData D}
    {args : List PollFd} (noTurn : moment.isTurn = false) (complete : PollsAll g args)
    (conns : ∀ conn value, after.conns.cell conn = some value →
      g.conns.cell conn = some value ∨ value.lastActiveMs = value.traffic.eventMs) :
    Rounds (moment :: passed) ⟨after, .turns args⟩ where
  active := by
    intro left isTurns conn value live
    cases isTurns
    rcases conns conn value live with old | new
    · exact .inl (complete conn value old)
    · exact .inr (.inl new)
  kept := by
    rw [roundTurns_of_not_turn noTurn]
    intro moment member
    cases member

/-- A turn adds itself to its round. -/
theorem Rounds.turn {passed : List (Moment D)} {g after : GData D} {queue : List Ptr}
    {arg : PollFd} {args : List PollFd} {conn : Ptr} {value : Conn} {turn : Turn}
    (rounds : Rounds passed ⟨g, .turns (arg :: args)⟩) (sound : g.Sound queue)
    (awaits : Awaits g (arg :: args)) (polled : arg.Of g conn value)
    (turned : g.Turned conn value turn after) :
    Rounds (⟨⟨g, .turns (arg :: args)⟩, .turn turn⟩ :: passed) ⟨after, .turns args⟩ := by
  have argFd : arg.fd = value.fd := by rw [polled.arg_eq]
  have round : roundTurns (⟨⟨g, .turns (arg :: args)⟩, .turn turn⟩ :: passed) =
      ⟨⟨g, .turns (arg :: args)⟩, .turn turn⟩ :: roundTurns passed := rfl
  have nodup := awaits.nodup
  rw [List.map_cons, List.nodup_cons] at nodup
  constructor
  · intro left isTurns other found live
    cases isTurns
    by_cases same : other = conn
    · subst same
      have keeps := turned.refreshed found live
      by_cases silent : turn.revents.isZero = true
      · right; right
        refine ⟨_, List.mem_cons_self, turn, value, ⟨rfl, ⟨arg, args, rfl, polled⟩, silent⟩, ?_,
          keeps.lastActiveMs⟩
        rw [keeps.eventMs]
        exact (if_pos silent).symm
      · right; left
        rw [keeps.lastActiveMs, keeps.eventMs]
        exact (if_neg silent).symm
    · have before : g.conns.cell other = some found := by
        rw [← turned.others other same]
        exact live
      rcases rounds.active _ rfl other found before with ⟨waiting, member, fd⟩ | active |
        ⟨moment, member, spared⟩
      · rcases List.mem_cons.mp member with rfl | member
        · have slot := sound.linked.table other found before
          rw [← fd, polled.slot] at slot
          cases slot
          exact absurd rfl same
        · exact .inl ⟨waiting, member, fd⟩
      · exact .inr (.inl active)
      · exact .inr (.inr ⟨moment, List.mem_cons_of_mem _ member, spared⟩)
  · intro moment member otherTurn other old silentTurn
    rw [round] at member
    rcases List.mem_cons.mp member with rfl | member
    · obtain ⟨eventEq, ⟨otherArg, otherArgs, phaseEq, otherPolled⟩, silent⟩ := silentTurn
      cases eventEq
      cases phaseEq
      obtain ⟨rfl, rfl⟩ := polled.unique otherPolled
      obtain ⟨new, live⟩ := turned.silent silent
      have keeps := turned.refreshed new live
      refine ⟨new, live, ?_, keeps.lastActiveMs, fun waiting waitingMem sameFd => ?_⟩
      · rw [keeps.eventMs]
        exact if_pos silent
      · apply nodup.1
        have newFd : new.fd = value.fd := keeps.fd
        rw [argFd, ← newFd, ← sameFd]
        exact List.mem_map_of_mem waitingMem
    · obtain ⟨kept, live, eventMs, lastActiveMs, apart⟩ :=
        rounds.kept moment member otherTurn other old silentTurn
      have different : other ≠ conn := by
        rintro rfl
        have live : g.conns.cell other = some kept := live
        rw [polled.live] at live
        cases live
        exact apart arg List.mem_cons_self argFd
      refine ⟨kept, ?_, eventMs, lastActiveMs, fun waiting waitingMem =>
        apart waiting (List.mem_cons_of_mem _ waitingMem)⟩
      rw [turned.others other different]
      exact live

/-- The invariant of rounds holds in every state of every run. -/
theorem Run.rounds {passed : List (Moment D)} {state : LoopState D} (run : Run passed state) :
    Rounds passed state := by
  induction run with
  | start init =>
      constructor
      · intro args isTurns
        cases isTurns
      · intro moment member
        cases member
  | step run legal call ih =>
      obtain ⟨⟨queue, sound⟩, -, awaits⟩ := run.inv
      cases run.stepped legal call with
      | interrupted => exact .top rfl
      | polled complete conns => exact .polled rfl complete conns
      | turn polled turned => exact ih.turn sound awaits polled turned
      | timers => exact .top rfl

/-! ## Eviction -/

/-- A call of `process_timers` leaves no connection whose last event, or accept, is as long
ago as the timeout. -/
def Moment.EvictsSilent (moment : Moment D) : Prop :=
  ∀ now after, moment.event = .timers now → loopStep moment.state moment.event = .ok after →
    ∀ conn value, after.g.conns.cell conn = some value →
      now.toNat < value.traffic.eventMs.toNat + kIdleTimeoutMs.toNat

/-- A call of `process_timers` after the turns of a round. -/
theorem Run.evictsSilent_iff {passed : List (Moment D)} {state : LoopState D}
    (run : Run passed state) {now : UInt64} (legal : Legal state (.timers now)) :
    Moment.EvictsSilent ⟨state, .timers now⟩ ↔
      ∀ moment ∈ roundTurns passed, ¬ moment.Spares now := by
  obtain ⟨g, phase⟩ := state
  obtain ⟨⟨queue, sound⟩, isOpen, -⟩ := run.inv
  match phase, legal with
  | .turns [], legal =>
      obtain ⟨after, timersEq, -, -, -, -, cells⟩ := sound.processTimers isOpen legal
      have call : loopStep ⟨g, .turns []⟩ (.timers now) = .ok ⟨after, .top⟩ := by
        simp only [loopStep, timersEq, Exec.ok_bind, Exec.pure_eq_ok]
      have survives : ∀ conn value, after.conns.cell conn = some value ↔
          g.conns.cell conn = some value ∧
            now.toNat < value.lastActiveMs.toNat + kIdleTimeoutMs.toNat := by
        intro conn value
        rw [cells, Option.filter_eq_some_iff]
        simp [Conn.expired]
      constructor
      · intro evicts moment member
        rintro ⟨turn, conn, old, silentTurn, overdue, refreshed⟩
        obtain ⟨value, live, eventMs, lastActiveMs, -⟩ :=
          run.rounds.kept moment member turn conn old silentTurn
        have kept := (survives conn value).mpr ⟨live, by rw [lastActiveMs]; exact refreshed⟩
        have recent := evicts now ⟨after, .top⟩ rfl call conn value kept
        rw [eventMs] at recent
        omega
      · intro spares otherNow other eventEq otherCall conn value kept
        cases eventEq
        have otherCall : loopStep ⟨g, .turns []⟩ (.timers now) = .ok other := otherCall
        rw [call] at otherCall
        cases otherCall
        obtain ⟨live, recent⟩ := (survives conn value).mp kept
        rcases run.rounds.active [] rfl conn value live with ⟨arg, member, -⟩ | active |
          ⟨moment, member, turn, old, silentTurn, eventMs, lastActiveMs⟩
        · cases member
        · rwa [← active]
        · by_contra overdue
          rw [← eventMs] at overdue
          rw [lastActiveMs] at recent
          exact spares moment member ⟨turn, conn, old, silentTurn, Nat.not_lt.mp overdue, recent⟩

/-- In a run, every call of `process_timers` destroys every connection that has been silent
for the timeout exactly if no turn of a silent connection spares it in the round of the
call. -/
theorem run_evicts_silent_iff {passed : List (Moment D)} {state : LoopState D}
    (run : Run passed state) :
    (∀ moment ∈ passed, moment.EvictsSilent) ↔
      ∀ moment earlier, moment :: earlier <:+ passed → ∀ now, moment.event = .timers now →
        ∀ turn ∈ roundTurns earlier, ¬ turn.Spares now := by
  have pointwise : ∀ moment earlier, moment :: earlier <:+ passed →
      (moment.EvictsSilent ↔ ∀ now, moment.event = .timers now →
        ∀ turn ∈ roundTurns earlier, ¬ turn.Spares now) := by
    rintro ⟨before, event⟩ earlier place
    obtain ⟨runBefore, legal⟩ := run.of_suffix place
    constructor
    · rintro evicts now rfl
      exact (runBefore.evictsSilent_iff legal).mp evicts
    · intro spares now after isTimers
      cases isTimers
      exact (runBefore.evictsSilent_iff legal).mpr (spares now rfl) now after rfl
  constructor
  · intro evicts moment earlier place
    exact (pointwise moment earlier place).mp (evicts moment (place.mem List.mem_cons_self))
  · intro spares moment member
    obtain ⟨front, earlier, rfl⟩ := List.append_of_mem member
    have place := List.suffix_append front (moment :: earlier)
    exact (pointwise moment earlier place).mpr (spares moment earlier place)

/-! ## A silent client -/

/-- The turn of a connection on which nothing happens. -/
def Turn.quiet (now : UInt64) : Turn :=
  { revents := {}, now := now, reading := fun _ => now, reply := fun _ => .again,
    write := fun _ => .again }

omit [Dbl D] in
theorem Turn.legal_quiet {g : GData D} {arg : PollFd} {now : UInt64} (later : g.Later now)
    (uptime : Uptime now)
    (small : ∀ conn value, g.fd2conn[arg.fd]? = some (some conn) →
      g.conns.cell conn = some value →
      g.journal.history.length + value.incoming.length < 2 ^ 64) :
    (Turn.quiet now).Legal g arg where
  later := later
  uptime := uptime
  pollin := nofun
  pollout := nofun
  start := UInt64.le_refl _
  grows := fun _ => UInt64.le_refl _
  read := trivial
  reply := writeLegal_again
  write := writeLegal_again
  small := small

/-- A client connects when the clock reads 0 and sends nothing; `poll` returns when its
timeout is over. -/
def quietEvents : List LoopEvent :=
  [.polled 0 true (some 4) 0, .timers 0, .polled 0 false none 0, .turn (.quiet 5000), .timers 5000]

/-- After these events the connection is live. -/
theorem Run.quiet : ∃ (passed : List (Moment Nat)) (state after : LoopState Nat) (value : Conn),
    Run (⟨state, .timers 5000⟩ :: passed) after ∧
    (passed.reverse.map Moment.event ++ [.timers 5000]) = quietEvents ∧
    loopStep state (.timers 5000) = .ok after ∧ after.g.conns.cell 1 = some value ∧
    value.traffic.eventMs = 0 := by
  exact ⟨_, _, _, _, @Run.step _ _ _ _ _ (.timers 5000)
    (.round 0 (.quiet 5000) (Run.connects rfl rfl) ⟨by decide, by decide⟩ rfl rfl
      (Turn.legal_quiet ⟨by decide, by decide⟩ (uptime_of_le (by decide))
        (@GData.small_of_owner _ _ _ 0 _ _ rfl rfl (by decide))) rfl)
    ⟨by decide, by decide⟩ rfl, rfl, rfl, rfl, rfl⟩

/-- The silent client is kept, although it has been silent for the timeout. -/
theorem silent_client_kept : ∃ (passed : List (Moment Nat)) (state : LoopState Nat),
    Run passed state ∧ passed.reverse.map Moment.event = quietEvents ∧
    ¬ ∀ moment ∈ passed, moment.EvictsSilent := by
  obtain ⟨passed, state, after, value, run, events, call, live, eventMs⟩ := Run.quiet
  refine ⟨_, after, run, ?_, fun evicts => ?_⟩
  · rw [← events, List.reverse_cons, List.map_append]
    rfl
  · have recent := evicts _ List.mem_cons_self 5000 after rfl call 1 value live
    rw [eventMs] at recent
    revert recent
    decide

/-- In its round a turn spared the silent client. -/
theorem run_evicts_silent_iff_quiet : ∃ passed : List (Moment Nat),
    ¬ ∀ moment earlier, moment :: earlier <:+ passed → ∀ now, moment.event = .timers now →
      ∀ turn ∈ roundTurns earlier, ¬ turn.Spares now := by
  obtain ⟨passed, state, after, value, run, -, call, live, eventMs⟩ := Run.quiet
  refine ⟨⟨state, .timers 5000⟩ :: passed, fun spares => ?_⟩
  have recent := (run_evicts_silent_iff run).mpr spares _ List.mem_cons_self 5000 after rfl call 1
    value live
  rw [eventMs] at recent
  revert recent
  decide

end RedisLite
