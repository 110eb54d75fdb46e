import RedisLite.EventLoop.Safety
import RedisLite.Server.Freshness

/-!
# Reads of expired keys

GET does not look at deadlines.  Once `process_timers` has evicted a key, GET answers that
the key is missing; between the deadline and that call GET answers with the value.
-/

namespace RedisLite

open Lib

variable {D : Type} [Dbl D]

/-- The response to a GET of a missing key. -/
def missingResponse (D : Type) [Dbl D] : Bytes := frame ((Value.nil : Value D).encode Dbl.bits)

/-- The response to a GET of the key after a history respects the sweeps that evicted at
most `kMaxWorks` keys. -/
structure RespectsSweeps (D : Type) [Dbl D] (key : Bytes) (earlier : List Event)
    (response : Bytes) : Prop where
  /-- A key that is not missing has a deadline that no such sweep has passed, if any. -/
  present : response ≠ missingResponse D → ∃ timer, life D key earlier = some timer ∧
    ∀ deadline, timer = some deadline → ∀ evicted now, .sweep evicted now ∈ earlier →
      evicted.length ≤ kMaxWorks → now.toNat ≤ deadline
  /-- A key whose deadline such a sweep has passed is missing until it is written. -/
  missing : ∀ recent evicted now before deadline, earlier = recent ++ .sweep evicted now :: before →
    evicted.length ≤ kMaxWorks → life D key before = some (some deadline) → deadline < now.toNat →
    (∀ event ∈ recent, ¬ event.Writes key) → response = missingResponse D

theorem Executed.Answered.get_missing {earlier : List Event} {one : Executed} {key : Bytes}
    (answered : one.Answered D earlier) (isGet : one.cmd = [ascii "get", key])
    (missing : life D key earlier = none) : one.response = missingResponse D := by
  obtain ⟨value, answers, response⟩ := answered
  rw [← deadline_after, Store.deadline, Option.map_eq_none_iff] at missing
  have request : Request.ofCmd one.cmd = .get key := by rw [isGet]; rfl
  simp only [request, Store.Answers, missing] at answers
  rw [response, answers]
  rfl

/-- A GET in a run respects the sweeps. -/
theorem Executed.Answered.respectsSweeps {earlier : List Event} {db : Db D} {one : Executed}
    {key : Bytes} (answered : one.Answered D earlier) (reached : Reached earlier db)
    (isGet : one.cmd = [ascii "get", key]) : RespectsSweeps D key earlier one.response where
  present := by
    intro found
    cases isLife : life D key earlier with
    | none => exact absurd (answered.get_missing isGet isLife) found
    | some timer =>
        refine ⟨timer, rfl, ?_⟩
        rintro deadline rfl
        exact reached.le_deadline isLife
  missing := by
    rintro recent evicted now before deadline rfl few isLife passed noWrites
    exact answered.get_missing isGet (reached.life_swept few isLife passed noWrites)

/-- Every GET that is executed in a run, in a turn of `handle_read` or before, respects the
sweeps of `process_timers` up to it. -/
theorem run_get_respects_sweeps {passed : List (Moment D)} {state : LoopState D}
    (run : Run passed state) {conn : Ptr} {value : Conn}
    (live : state.g.conns.cell conn = some value) (result : ReadResult) {reading : Nat → UInt64}
    {write : Nat → WriteResult} (legal : WriteLegal write)
    (later : clock state.g.journal.history ≤ reading 0)
    (grows : ∀ count, reading count ≤ reading (count + 1))
    (small : state.g.journal.history.length + (value.incoming.length + result.data.length) <
      2 ^ 64) :
    Exec.Returns (handleRead state.g.store value result reading write) fun out =>
      ∃ history, state.g.journal.history <:+ history ∧ Reached history out.1 ∧
        ∀ one ∈ out.2.traffic.executed, ∀ key, one.cmd = [ascii "get", key] →
          ∃ earlier, .request one.cmd one.now :: earlier <:+ history ∧
            RespectsSweeps D key earlier one.response := by
  apply ((run.sound live).handleRead run.reached result legal later grows small).mono
  rintro out ⟨history, reads⟩
  obtain ⟨done, executes, -⟩ := reads.executes
  refine ⟨history, executes.suffix, reads.reached, fun one member key isGet => ?_⟩
  obtain ⟨earlier, place, answered⟩ := reads.sound.answered one member
  obtain ⟨before, reached⟩ := reads.reached.of_suffix ((List.suffix_cons _ _).trans place)
  exact ⟨earlier, place, answered.respectsSweeps reached isGet⟩

/-- A client sets a key with a TTL of 1. -/
def leaseFrames : Bytes :=
  frame (requestBody [ascii "set", ascii "k", ascii "v"]) ++
    frame (requestBody [ascii "pexpire", ascii "k", ascii "1"])

/-- The history of the two requests and of a sweep behind the deadline that evicts the key. -/
def leaseHistory : List Event :=
  [.sweep [ascii "k"] 5, .request [ascii "pexpire", ascii "k", ascii "1"] 0,
    .request [ascii "set", ascii "k", ascii "v"] 0, .sweep [] 0]

/-- The timers run when the clock reads 5, and `poll` returns for the client again. -/
def leaseEnds : Exec (LoopState Nat) := do
  let state ← clientAsks leaseFrames 100
  let swept ← loopStep state (.timers 5)
  loopStep swept (.polled 5 false none 0)

theorem Run.leaseEnds : Exec.Returns leaseEnds fun state => (∃ passed, Run passed state) ∧
    state.g.journal.history = leaseHistory := by
  obtain ⟨g, swept, after, asks, timers, polled, readMs, later, history⟩ :
      ∃ (g swept : GData Nat) (after : LoopState Nat),
        RedisLite.clientAsks leaseFrames 100 = .ok ⟨g, .turns []⟩ ∧
        loopStep ⟨g, .turns []⟩ (.timers 5) = .ok ⟨swept, .top⟩ ∧
        loopStep ⟨swept, .top⟩ (.polled 5 false none 0) = .ok after ∧
        g.journal.readMs = 0 ∧ clock g.journal.history = 0 ∧
        after.g.journal.history = leaseHistory :=
    ⟨_, _, _, rfl, rfl, rfl, rfl, rfl, rfl⟩
  obtain ⟨passed, run⟩ := Run.clientAsks (by decide) asks
  have sweeps : Legal ⟨g, .turns []⟩ (.timers 5) := GData.Later.of_zero readMs later 5
  have polls : Legal ⟨swept, .top⟩ (.polled 5 false none 0) := nofun
  refine ⟨after, ?_, ⟨_, (run.step sweeps timers).step polls polled⟩, history⟩
  rw [RedisLite.leaseEnds, asks, Exec.ok_bind, timers, Exec.ok_bind, polled]

/-- A key with a TTL of 1 is missing after the sweep at clock reading 5. -/
theorem run_get_respects_sweeps_lease : ∃ (db : Db Nat) (conn : Conn) (out : Db Nat × Conn)
    (history earlier : List Event) (one : Executed),
    handleRead db conn (.bytes (frame (requestBody [ascii "get", ascii "k"]))) (fun _ => 5)
      (fun _ => .again) = .ok out ∧
    Reached history out.1 ∧ one ∈ out.2.traffic.executed ∧ one.cmd = [ascii "get", ascii "k"] ∧
    .request one.cmd one.now :: earlier <:+ history ∧
    leaseHistory <:+ earlier ∧ RespectsSweeps Nat (ascii "k") earlier one.response ∧
    one.response = missingResponse Nat := by
  obtain ⟨state, value, out, first, second, one, ends, live, incoming, call, executed, cmd,
    response⟩ : ∃ (state : LoopState Nat) (value : Conn) (out : Db Nat × Conn)
      (first second one : Executed), leaseEnds = .ok state ∧ state.g.conns.cell 1 = some value ∧
        value.incoming = [] ∧
        handleRead state.g.store value (.bytes (frame (requestBody [ascii "get", ascii "k"])))
          (fun _ => 5) (fun _ => .again) = .ok out ∧
        out.2.traffic.executed = [first, second, one] ∧ one.cmd = [ascii "get", ascii "k"] ∧
        one.response = missingResponse Nat :=
    ⟨_, _, _, _, _, _, rfl, rfl, rfl, rfl, rfl, rfl, rfl⟩
  obtain ⟨⟨passed, run⟩, history⟩ := Run.leaseEnds.of_eq_ok ends
  obtain ⟨after, before, reached, respects⟩ := (@run_get_respects_sweeps _ _ _ _ run _ _ live
    (.bytes (frame (requestBody [ascii "get", ascii "k"]))) (fun _ => 5) _ writeLegal_again
    (by rw [history]; exact UInt64.le_refl _) (fun _ => UInt64.le_refl _)
    (by rw [history, incoming]; decide)).of_eq_ok call
  have member : one ∈ out.2.traffic.executed := by rw [executed]; simp
  obtain ⟨earlier, place, swept⟩ := respects one member (ascii "k") cmd
  refine ⟨state.g.store, value, out, after, earlier, one, call, reached, member, cmd, place, ?_,
    swept, response⟩
  rw [cmd] at place
  rw [history] at before
  rcases List.suffix_or_suffix_of_suffix before place with within | within
  · rcases List.suffix_cons_iff.mp within with same | within
    · cases same
    · exact within
  · have asked := within.mem List.mem_cons_self
    simp [leaseHistory, ascii] at asked

/-- A client that sets a key with a TTL of 1 and reads it. -/
def staleRead : Bytes :=
  frame (requestBody [ascii "set", ascii "k", ascii "v"]) ++
    frame (requestBody [ascii "pexpire", ascii "k", ascii "1"]) ++
    frame (requestBody [ascii "get", ascii "k"])

/-- The clock reads 0 at the first two requests and 5 at the third one. -/
def staleReading (count : Nat) : UInt64 := if count < 2 then 0 else 5

/-- GET answers with the value at a clock reading of 5, although the deadline is 1. -/
theorem stale_get : ∃ (passed : List (Moment Nat)) (state : LoopState Nat) (conn : Ptr)
    (value : Conn) (one : Executed) (earlier : List Event),
    Run passed state ∧ state.g.conns.cell conn = some value ∧ one ∈ value.traffic.executed ∧
    .request one.cmd one.now :: earlier <:+ state.g.journal.history ∧
    one.cmd = [ascii "get", ascii "k"] ∧ one.now = 5 ∧
    life Nat (ascii "k") earlier = some (some 1) ∧
    one.response = frame ((Value.str (ascii "v") : Value Nat).encode Dbl.bits) := by
  obtain ⟨after, value, first, second, one, earlier, call, live, executed, history, facts⟩ :
      ∃ after value first second one earlier, (clientConnects >>= fun state =>
          loopStep state (.turn (.receive staleRead staleReading))) = .ok after ∧
        after.g.conns.cell 1 = some value ∧ value.traffic.executed = [first, second, one] ∧
        after.g.journal.history = .request one.cmd one.now :: earlier ∧
        one.cmd = [ascii "get", ascii "k"] ∧ one.now = 5 ∧
        life Nat (ascii "k") earlier = some (some 1) ∧
        one.response = frame ((Value.str (ascii "v") : Value Nat).encode Dbl.bits) :=
    ⟨_, _, _, _, _, _, rfl, rfl, rfl, rfl, rfl, rfl, rfl, rfl⟩
  have grows : ∀ count, staleReading count ≤ staleReading (count + 1) := by
    intro count
    unfold staleReading
    split
    · exact UInt64.le_iff_toNat_le.mpr (Nat.zero_le _)
    · rw [if_neg (by omega)]
      exact UInt64.le_refl _
  obtain ⟨passed, run⟩ := Run.receives rfl (by decide) grows call
  refine ⟨passed, after, 1, value, one, earlier, run, live, ?_, ?_, facts⟩
  · rw [executed]
    simp
  · rw [history]

end RedisLite
