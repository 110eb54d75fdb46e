import RedisLite.EventLoop.Buffers

/-!
# Progress

No client can keep another one waiting for long: between two polls every live connection has
one turn, in which it executes a bounded number of commands.  And a client that goes on
reading receives everything: its outgoing buffer becomes empty after as many turns as it
has bytes.
-/

namespace RedisLite

open Lib

variable {D : Type}

/-! ## The turns of a round -/

/-- The connection of a poll argument. -/
def GData.owner (g : GData D) (arg : PollFd) : Option Ptr := g.fd2conn[arg.fd]?.join

/-- The connection whose turn is next. -/
def LoopState.nextConn (state : LoopState D) : Option Ptr :=
  match state.phase with
  | .turns (arg :: _) => state.g.owner arg
  | _ => none

/-- The connections of poll arguments are live and distinct. -/
theorem Awaits.owners {g : GData D} {args : List PollFd} (awaits : Awaits g args) :
    ∃ conns : List Ptr, args.map g.owner = conns.map some ∧ conns.Nodup ∧
      ∀ conn ∈ conns, ∃ value, g.conns.cell conn = some value ∧
        ∃ arg ∈ args, arg.fd = value.fd := by
  obtain ⟨nodup, polled⟩ := awaits
  induction args with
  | nil => exact ⟨[], rfl, .nil, nofun⟩
  | cons arg args ih =>
      rw [List.map_cons, List.nodup_cons] at nodup
      rw [List.forall_mem_cons] at polled
      obtain ⟨⟨conn, value, slot, live, argEq⟩, polled⟩ := polled
      obtain ⟨conns, owners, connsNodup, lives⟩ := ih nodup.2 polled
      have argFd : arg.fd = value.fd := by rw [argEq]
      refine ⟨conn :: conns, ?_, ?_, ?_⟩
      · rw [List.map_cons, List.map_cons, owners, GData.owner, slot]
        rfl
      · refine List.nodup_cons.mpr ⟨fun member => ?_, connsNodup⟩
        obtain ⟨other, otherLive, otherArg, otherMem, otherFd⟩ := lives conn member
        rw [live] at otherLive
        cases otherLive
        apply nodup.1
        rw [argFd, ← otherFd]
        exact List.mem_map_of_mem otherMem
      · intro other member
        rcases List.mem_cons.mp member with rfl | member
        · exact ⟨value, live, arg, List.mem_cons_self, argFd⟩
        · obtain ⟨otherValue, otherLive, otherArg, otherMem, otherFd⟩ := lives other member
          exact ⟨otherValue, otherLive, otherArg, List.mem_cons_of_mem _ otherMem, otherFd⟩

/-- The poll arguments are those of the live connections, each once. -/
theorem GData.Linked.owners {g : GData D} {queue : List Ptr} (linked : g.Linked queue)
    {args : List PollFd} (polls : RedisLite.pollArgs g.conns g.fd2conn = .ok args) :
    ∃ conns : List Ptr, args.map g.owner = conns.map some ∧ conns.Nodup ∧
      ∀ conn, conn ∈ conns ↔ ∃ value, g.conns.cell conn = some value := by
  obtain ⟨awaits, complete⟩ := linked.pollArgs.of_eq_ok polls
  obtain ⟨conns, owners, nodup, lives⟩ := awaits.owners
  refine ⟨conns, owners, nodup, fun conn => ⟨fun member => ?_, ?_⟩⟩
  · obtain ⟨value, live, -⟩ := lives conn member
    exact ⟨value, live⟩
  · rintro ⟨value, live⟩
    obtain ⟨arg, member, argFd⟩ := complete conn value live
    have isOwner : g.owner arg = some conn := by
      rw [GData.owner, argFd, linked.table conn value live]
      rfl
    have found : some conn ∈ conns.map some := by
      rw [← owners, ← isOwner]
      exact List.mem_map_of_mem member
    obtain ⟨other, otherMem, same⟩ := List.mem_map.mp found
    cases same
    exact otherMem

/-- The round since the last poll: its turns so far, most recent first, are those of the
first poll arguments, and the others are left. -/
structure InRound (passed : List (Moment D)) (g : GData D) (args : List PollFd)
    (turns : List (Moment D)) (polled : Moment D) (earlier : List (Moment D)) : Prop where
  passed_eq : passed = turns ++ polled :: earlier
  top : polled.state.phase = .top
  turns_eq : ∃ conns : List Ptr, conns.map some =
      (turns.map fun moment => moment.state.nextConn).reverse ++ args.map polled.state.g.owner ∧
    conns.Nodup ∧ ∀ conn, conn ∈ conns ↔ ∃ value, polled.state.g.conns.cell conn = some value
  slots : ∀ arg ∈ args, g.fd2conn[arg.fd]? = polled.state.g.fd2conn[arg.fd]?
  count_le : g.journal.history.length ≤
    polled.state.g.journal.history.length + kMaxBatch * turns.length

variable [Dbl D]

/-- Every state in the loop over the poll arguments belongs to a round. -/
theorem Run.inRound {passed : List (Moment D)} {state : LoopState D} (run : Run passed state) :
    ∀ args, state.phase = .turns args →
      ∃ turns polled earlier, InRound passed state.g args turns polled earlier := by
  induction run with
  | start init => exact nofun
  | @step passed state after event run legal call ih =>
      obtain ⟨⟨queue, sound⟩, -, awaits⟩ := run.inv
      have stepped := run.stepped legal call
      cases run.effect legal call with
      | interrupted => exact nofun
      | waited polls =>
          intro args isTurns
          cases isTurns
          obtain ⟨conns, owners, unique⟩ := sound.linked.owners polls
          exact ⟨[], _, passed, rfl, rfl, ⟨conns, owners.symm, unique⟩, fun _ _ => rfl,
            Nat.le_add_right _ _⟩
      | accepted polls cells slots store history =>
          intro args isTurns
          cases isTurns
          have polled := (sound.linked.pollArgs.of_eq_ok polls).1.polled
          obtain ⟨conns, owners, unique⟩ := sound.linked.owners polls
          refine ⟨[], _, passed, rfl, rfl, ⟨conns, owners.symm, unique⟩, ?_, ?_⟩
          · intro arg member
            obtain ⟨conn, value, isConn⟩ := polled arg member
            exact (slots _ _ isConn.slot).trans isConn.slot.symm
          · rw [history]
            exact Nat.le_add_right _ _
      | @turn g after arg args conn value middle last turn polled took =>
          intro left isTurns
          cases isTurns
          obtain ⟨turns, poll, earlier, passedEq, top, ⟨conns, turnsEq, unique⟩, slots, count⟩ :=
            ih _ rfl
          obtain ⟨data, done, serves⟩ := run.serves legal polled took
          have few := serves.count_le (run.sound took.live) (run.incomplete took.live)
          refine ⟨⟨_, _⟩ :: turns, poll, earlier, by rw [passedEq]; rfl, top,
            ⟨conns, ?_, unique⟩, ?_, ?_⟩
          · have same : poll.state.g.owner arg = g.owner arg := by
              rw [GData.owner, GData.owner, slots arg List.mem_cons_self]
            rw [turnsEq, List.map_cons, List.map_cons, List.reverse_cons, same, List.append_assoc]
            rfl
          · intro other member
            rw [← slots other (List.mem_cons_of_mem _ member)]
            cases stepped with
            | @turn _ _ _ _ _ otherValue _ otherPolled turned =>
                have argFd : arg.fd = otherValue.fd := by rw [otherPolled.arg_eq]
                have nodup : (arg.fd :: args.map PollFd.fd).Nodup := awaits.nodup
                apply turned.slots
                rw [← argFd]
                intro same
                exact (List.nodup_cons.mp nodup).1 (same ▸ List.mem_map_of_mem member)
          · have length := serves.executes.length_eq
            rw [List.length_cons, Nat.mul_succ]
            have count : g.journal.history.length ≤
                poll.state.g.journal.history.length + kMaxBatch * turns.length := count
            show after.journal.history.length ≤ _
            omega
      | timers => exact nofun

/-- When the loop over the poll arguments ends, every connection that was live at the poll
has had one turn and no other connection had any, and the round has executed at most 8192
commands for each of them.  So no client makes another one wait for more than that. -/
theorem run_serves_all {passed : List (Moment D)} {g : GData D}
    (run : Run passed ⟨g, .turns []⟩) :
    ∃ turns polled earlier, passed = turns ++ polled :: earlier ∧ polled.state.phase = .top ∧
      (∃ conns : List Ptr, (turns.map fun moment => moment.state.nextConn) = conns.map some ∧
        conns.Nodup ∧ ∀ conn, conn ∈ conns ↔
          ∃ value, polled.state.g.conns.cell conn = some value) ∧
      g.journal.history.length ≤
        polled.state.g.journal.history.length + kMaxBatch * turns.length := by
  obtain ⟨turns, polled, earlier, passedEq, top, ⟨conns, turnsEq, nodup, live⟩, -, count⟩ :=
    run.inRound [] rfl
  rw [List.map_nil, List.append_nil] at turnsEq
  refine ⟨turns, polled, earlier, passedEq, top, ⟨conns.reverse, ?_, ?_, ?_⟩, count⟩
  · rw [List.map_reverse, turnsEq, List.reverse_reverse]
  · exact List.nodup_reverse.mpr nodup
  · intro conn
    rw [List.mem_reverse, live]

/-- The round of a client after the timers destroyed the connection of another one. -/
theorem run_serves_all_two : ∃ (turns : List (Moment Nat)) (polled : Moment Nat)
    (earlier : List (Moment Nat)) (conns : List Ptr) (after : LoopState Nat),
    Run (turns ++ polled :: earlier) after ∧
    (∃ moment ∈ earlier, ∃ value, moment.state.g.conns.cell 2 = some value) ∧
    polled.state.phase = .top ∧
    (turns.map fun moment => moment.state.nextConn) = conns.map some ∧ conns.Nodup ∧
    (∀ conn, conn ∈ conns ↔ ∃ value, polled.state.g.conns.cell conn = some value) ∧
    1 ∈ conns ∧ 2 ∉ conns := by
  obtain ⟨earlier, middle, last, ⟨g, _⟩, turn, polled, value, silent, other, run, rfl, -, -,
    silentLive, -, top, live, gone⟩ := Run.twoClients
  obtain ⟨turns, found, rest, split, isTop, ⟨conns, served, nodup, complete⟩, -⟩ :=
    run_serves_all run
  -- the turn is the only one behind the last poll
  obtain ⟨rfl, rfl, rfl⟩ : turns = [⟨⟨last, .turns [⟨4, true, false⟩]⟩, turn⟩] ∧
      found = polled ∧ rest = ⟨⟨middle, .turns []⟩, .timers 5000⟩ :: earlier := by
    cases turns with
    | nil =>
        cases split
        cases isTop
    | cons first turns =>
        obtain ⟨rfl, behind⟩ := List.cons.inj split
        cases turns with
        | nil =>
            cases behind
            exact ⟨rfl, rfl, rfl⟩
        | cons second turns =>
            obtain ⟨rfl, -⟩ := List.cons.inj behind
            have noConn : polled.state.nextConn = none := by rw [LoopState.nextConn, top]
            have isConn : polled.state.nextConn ∈ conns.map some := by
              rw [← served]
              simp
            rw [noConn] at isConn
            simp at isConn
  refine ⟨_, found, _, conns, _, run, ⟨_, List.mem_cons_self, silent, silentLive⟩, top, served,
    nodup, complete, (complete 1).mpr ⟨other, live⟩, ?_⟩
  intro member
  obtain ⟨value, isLive⟩ := (complete 2).mp member
  rw [gone] at isLive
  cases isLive

/-! ## Draining -/

omit [Dbl D] in
/-- It is the turn of the connection, and `write` accepts some of its bytes. -/
def Moment.accepts (moment : Moment D) (conn : Ptr) : Bool :=
  match moment.event, moment.state.phase, moment.state.g.conns.cell conn with
  | .turn turn, .turns (arg :: _), some value =>
      decide (moment.state.g.owner arg = some conn) && turn.revents.pollout &&
        match turn.write value.outgoing.length with
        | .wrote n => decide (0 < n)
        | .again | .error => false
  | _, _, _ => false

/-- The connection has sent all responses and wants to read again. -/
structure Conn.Drained (conn : Conn) : Prop where
  outgoing : conn.outgoing = []
  wantRead : conn.wantRead = true
  wantWrite : conn.wantWrite = false
  sent : conn.traffic.sent = conn.traffic.executed.flatMap Executed.response

theorem Conn.Sound.drained {history : List Event} {conn : Conn} (sound : conn.Sound D history)
    (nothing : conn.outgoing = []) : conn.Drained where
  outgoing := nothing
  wantRead := by rw [sound.ready.wantRead, nothing]; rfl
  wantWrite := by rw [sound.ready.wantWrite, nothing]; rfl
  sent := by rw [← sound.output_eq, nothing, List.append_nil]

/-- A turn with something to write does not read, and an accepting one sends something. -/
theorem GData.Took.shrinks {g after : GData D} {arg : PollFd} {conn : Ptr}
    {value middle last : Conn} {turn : Turn} (took : g.Took conn value turn after middle last)
    (legal : turn.Legal g arg) (polled : arg.Of g conn value)
    (sound : value.Sound D g.journal.history) (waiting : value.outgoing ≠ []) :
    last.outgoing.length ≤ value.outgoing.length ∧
      ∀ n, turn.revents.pollout = true → turn.write value.outgoing.length = .wrote n → 0 < n →
        last.outgoing.length < value.outgoing.length := by
  have noPollin : turn.revents.pollin = false := by
    refine Bool.eq_false_iff.mpr fun pollin => waiting ?_
    have requested := legal.pollin pollin
    rw [polled.arg_eq] at requested
    have flag := sound.ready.wantRead
    rw [show value.wantRead = true from requested] at flag
    exact List.isEmpty_iff.mp flag.symm
  have positive := List.length_pos_iff.mpr waiting
  have read := took.read
  rw [noPollin, if_neg (by decide)] at read
  obtain ⟨-, rfl⟩ := Prod.mk.inj (Except.ok.inj read)
  have write := took.write
  by_cases pollout : turn.revents.pollout = true
  · rw [if_pos pollout] at write
    obtain ⟨n, fits, outgoing, -, count⟩ := handleWrite_ok write
    have outgoing : last.outgoing = value.outgoing.drop n := outgoing
    have fits : n ≤ value.outgoing.length := fits
    rw [outgoing, List.length_drop]
    refine ⟨Nat.sub_le _ _, ?_⟩
    intro accepted _ wrote some
    have same : n = accepted := count accepted wrote
    omega
  · rw [if_neg pollout] at write
    cases write
    exact ⟨Nat.le_refl _, fun _ isPollout => absurd isPollout pollout⟩

/-- A step leaves a waiting connection, destroys it or sends a part of what it has to send. -/
theorem Run.shrinks {passed : List (Moment D)} {state after : LoopState D} {event : LoopEvent}
    (run : Run passed state) (legal : Legal state event) (call : loopStep state event = .ok after)
    {conn : Ptr} {value : Conn} (live : state.g.conns.cell conn = some value)
    (waiting : value.outgoing ≠ []) :
    after.g.conns.cell conn = none ∨ ∃ new, after.g.conns.cell conn = some new ∧
      new.outgoing.length + (if Moment.accepts ⟨state, event⟩ conn then 1 else 0) ≤
        value.outgoing.length := by
  cases run.effect legal call with
  | interrupted => exact .inr ⟨value, live, Nat.le_refl _⟩
  | waited polls => exact .inr ⟨value, live, Nat.le_refl _⟩
  | accepted polls cells =>
      refine .inr ⟨value, ?_, Nat.le_refl _⟩
      rw [cells, if_neg (Nat.ne_of_lt (run.conn_lt live)), live]
  | @turn g after arg args other otherValue middle last turn polled took =>
      have owner : g.owner arg = some other := by rw [GData.owner, polled.slot]; rfl
      rw [took.cells]
      by_cases same : conn = other
      · subst same
        have live : g.conns.cell conn = some value := live
        obtain rfl : otherValue = value := Option.some.inj (took.live.symm.trans live)
        rw [if_pos rfl]
        by_cases close : (turn.revents.pollerr || last.wantClose) = true
        · exact .inl (if_pos close)
        · right
          refine ⟨last, if_neg close, ?_⟩
          obtain ⟨atMost, less⟩ := took.shrinks legal polled (run.sound took.live) waiting
          split
          · rename_i accepts
            simp only [Moment.accepts, live, owner, decide_true, Bool.true_and] at accepts
            obtain ⟨pollout, wrote⟩ := Bool.and_eq_true_iff.mp accepts
            split at wrote
            · rename_i n isWrote
              exact less n pollout isWrote (of_decide_eq_true wrote)
            · cases wrote
            · cases wrote
          · exact atMost
      · right
        rw [if_neg same]
        refine ⟨value, live, ?_⟩
        have notOwn : Moment.accepts ⟨⟨g, .turns (arg :: args)⟩, .turn turn⟩ conn = false := by
          have live : g.conns.cell conn = some value := live
          have different : ¬ other = conn := fun equal => same equal.symm
          simp [Moment.accepts, live, owner, different]
        rw [notOwn]
        exact Nat.le_refl _
  | @timers g after nowMs sweep history cells =>
      have live : g.conns.cell conn = some value := live
      rw [cells, live, Option.filter_some]
      cases expired : value.expired nowMs with
      | true => exact .inl rfl
      | false => exact .inr ⟨value, rfl, Nat.le_refl _⟩

/-- A destroyed connection does not come back: its identity is not used again. -/
theorem Run.stays_dead {passed : List (Moment D)} {state after : LoopState D} {event : LoopEvent}
    (run : Run passed state) (legal : Legal state event) (call : loopStep state event = .ok after)
    {conn : Ptr} (dead : state.g.conns.cell conn = none) (used : conn < state.g.idle.next) :
    after.g.conns.cell conn = none ∧ conn < after.g.idle.next := by
  cases run.effect legal call with
  | interrupted => exact ⟨dead, used⟩
  | waited polls => exact ⟨dead, used⟩
  | accepted polls cells slots store history idle_next =>
      rw [cells, if_neg (Nat.ne_of_lt used), idle_next]
      exact ⟨dead, Nat.lt_succ_of_lt used⟩
  | @turn _ _ _ _ other _ _ _ _ polled took =>
      have different : conn ≠ other := by
        rintro rfl
        have live := took.live
        rw [dead] at live
        cases live
      rw [took.cells, if_neg different, took.idle_next]
      exact ⟨dead, used⟩
  | timers sweep history cells idle_next =>
      rw [cells, idle_next]
      exact ⟨by rw [dead]; rfl, used⟩

/-- What a part of a run does for a connection that had `size` bytes to send: it destroys the
connection, or drains it at some state, or still sends. -/
inductive Draining (conn : Ptr) (size : Nat) (moments : List (Moment D)) (state : LoopState D) :
    Prop where
  | dead (dead : state.g.conns.cell conn = none) (used : conn < state.g.idle.next)
  | drained {at_ : LoopState D} {new : Conn}
      (passed : at_ = state ∨ ∃ moment ∈ moments, moment.state = at_)
      (live : at_.g.conns.cell conn = some new) (drained : new.Drained)
  | sending {new : Conn} (live : state.g.conns.cell conn = some new) (waiting : new.outgoing ≠ [])
      (sends : new.outgoing.length + moments.countP (Moment.accepts · conn) ≤ size)

theorem Draining.of_live {passed : List (Moment D)} {state : LoopState D} (run : Run passed state)
    {conn : Ptr} {value : Conn} (live : state.g.conns.cell conn = some value)
    {moments : List (Moment D)} {size : Nat}
    (sends : value.outgoing.length + moments.countP (Moment.accepts · conn) ≤ size) :
    Draining conn size moments state := by
  by_cases nothing : value.outgoing = []
  · exact .drained (.inl rfl) live ((run.sound live).drained nothing)
  · exact .sending live nothing sends

theorem Draining.step {passed moments : List (Moment D)} {state after : LoopState D}
    {event : LoopEvent} {conn : Ptr} {size : Nat} (draining : Draining conn size moments state)
    (run : Run passed state) (legal : Legal state event) (call : loopStep state event = .ok after) :
    Draining conn size (⟨state, event⟩ :: moments) after := by
  cases draining with
  | dead dead used =>
      obtain ⟨deadAfter, usedAfter⟩ := run.stays_dead legal call dead used
      exact .dead deadAfter usedAfter
  | drained passes live drained =>
      refine .drained (.inr ?_) live drained
      rcases passes with rfl | ⟨moment, member, same⟩
      · exact ⟨_, List.mem_cons_self, rfl⟩
      · exact ⟨moment, List.mem_cons_of_mem _ member, same⟩
  | @sending new live waiting sends =>
      rcases run.shrinks legal call live waiting with dead | ⟨last, lastLive, less⟩
      · have used := run.conn_lt live
        have grows : state.g.idle.next ≤ after.g.idle.next := by
          cases run.effect legal call with
          | interrupted => exact Nat.le_refl _
          | waited polls => exact Nat.le_refl _
          | accepted polls cells slots store history idle_next =>
              rw [idle_next]
              exact Nat.le_succ _
          | turn polled took => exact Nat.le_of_eq took.idle_next.symm
          | timers sweep history cells idle_next => exact Nat.le_of_eq idle_next.symm
        exact .dead dead (Nat.lt_of_lt_of_le used grows)
      · apply Draining.of_live (run.step legal call) lastLive
        rw [List.countP_cons]
        omega

/-- A client that goes on reading receives everything.  When a connection has had as many
turns in which `write` accepted some of its bytes as it had bytes to send, it has been
destroyed, or there was a state in which all its responses were sent and it wanted to read
again. -/
theorem run_drains {recent earlier : List (Moment D)} {start : Moment D} {after : LoopState D}
    (run : Run (recent ++ start :: earlier) after) {conn : Ptr} {value : Conn}
    (live : start.state.g.conns.cell conn = some value)
    (many : value.outgoing.length ≤ (recent ++ [start]).countP (Moment.accepts · conn)) :
    after.g.conns.cell conn = none ∨
      ∃ state, (state = after ∨ ∃ moment ∈ recent ++ [start], moment.state = state) ∧
        ∃ new, state.g.conns.cell conn = some new ∧ new.Drained := by
  have draining : Draining conn value.outgoing.length (recent ++ [start]) after := by
    clear many
    induction recent generalizing after with
    | nil =>
        cases run with
        | step run legal call =>
            have start := @Draining.of_live _ _ _ _ run _ _ live [] _ (Nat.le_refl _)
            exact start.step run legal call
    | cons moment recent ih =>
        cases run with
        | step run legal call => exact (ih run).step run legal call
  cases draining with
  | dead dead used => exact .inl dead
  | drained passes live drained => exact .inr ⟨_, passes, _, live, drained⟩
  | sending live waiting sends =>
      have positive := List.length_pos_iff.mpr waiting
      omega

/-- A client takes three of five bytes at once and one more in each of the next two rounds. -/
theorem Run.takesAll : ∃ (recent earlier : List (Moment Nat)) (start : Moment Nat)
    (after : LoopState Nat) (value new : Conn), Run (recent ++ start :: earlier) after ∧
    start.state.g.conns.cell 1 = some value ∧ value.outgoing.length = 2 ∧
    (recent ++ [start]).countP (Moment.accepts · 1) = 2 ∧
    after.g.conns.cell 1 = some new := by
  exact ⟨[_, _, _, _, _], _, _, _, _, _,
    .round 0 (.takes 0 1)
      (.round 0 (.takes 0 1)
        (.round 0 (.asks 0 (frame (requestBody [ascii "get", ascii "k"])) 3)
          (Run.connects rfl rfl) ⟨by decide, by decide⟩ rfl rfl
          (Turn.asks_legal 3 ⟨by decide, by decide⟩ (by decide) rfl (by decide) rfl rfl
            (by decide)) rfl)
        ⟨by decide, by decide⟩ rfl rfl
        (Turn.takes_legal 1 ⟨by decide, by decide⟩ (by decide) rfl rfl rfl (by decide)) rfl)
      ⟨by decide, by decide⟩ rfl rfl
      (Turn.takes_legal 1 ⟨by decide, by decide⟩ (by decide) rfl rfl rfl (by decide)) rfl,
    rfl, rfl, rfl, rfl⟩

/-- The client of a connection with two bytes to send takes one of them in each round. -/
theorem run_drains_part : ∃ (recent earlier : List (Moment Nat)) (start : Moment Nat)
    (after : LoopState Nat) (value : Conn),
    Run (recent ++ start :: earlier) after ∧ start.state.g.conns.cell 1 = some value ∧
    value.outgoing.length = 2 ∧ (recent ++ [start]).countP (Moment.accepts · 1) = 2 ∧
    after.g.conns.cell 1 ≠ none ∧
      ∃ state, (state = after ∨ ∃ moment ∈ recent ++ [start], moment.state = state) ∧
        ∃ new, state.g.conns.cell 1 = some new ∧ new.Drained := by
  obtain ⟨recent, earlier, start, after, value, new, run, live, waiting, accepts, lastLive⟩ :=
    Run.takesAll
  have isLive : after.g.conns.cell 1 ≠ none := by
    rw [lastLive]
    exact nofun
  have drains := run_drains run live (by rw [waiting, accepts])
  exact ⟨recent, earlier, start, after, value, run, live, waiting, accepts, isLive,
    drains.resolve_left isLive⟩

end RedisLite
