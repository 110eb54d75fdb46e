import RedisLite.EventLoop.Safety

/-!
# The timeout of the poll

`next_timer_ms` looks for the earliest timer and `process_timers` acts on the timers that
are due.  The two tests differ for a key whose deadline is the current time, and the timeout
is cut to 32 bits.
-/

namespace RedisLite

open Lib

variable {D : Type} [Dbl D]

/-! ## The timeout -/

/-- A timeout cut to 32 bits is zero for the multiples of 2^32. -/
theorem toInt32_eq_zero_iff (difference : UInt64) :
    difference.toUInt32.toInt32 = 0 ↔ difference.toNat % 2 ^ 32 = 0 := by
  have cut : difference.toUInt32 = 0 ↔ difference.toNat % 2 ^ 32 = 0 := by
    rw [← UInt32.toNat_inj, UInt64.toNat_toUInt32]
    rfl
  rw [← cut]
  constructor
  · intro zero
    have back := congrArg Int32.toUInt32 zero
    rw [UInt32.toUInt32_toInt32] at back
    exact back
  · intro zero
    rw [zero]
    rfl

/-- When `poll` is asked not to sleep. -/
theorem pollTimeout_eq_zero_iff (nextMs now : UInt64) :
    pollTimeout nextMs now = 0 ↔
      nextMs ≠ -1 ∧ (nextMs ≤ now ∨ (nextMs - now).toNat % 2 ^ 32 = 0) := by
  unfold pollTimeout
  by_cases never : nextMs = -1
  · rw [if_pos never]
    simp [never]
  · rw [if_neg never]
    by_cases due : nextMs ≤ now
    · simp [never, due]
    · rw [if_neg due, toInt32_eq_zero_iff]
      simp [never, due]

theorem le_largest (time : UInt64) : time ≤ -1 := by
  rw [UInt64.le_iff_toNat_le]
  have below := time.toNat_lt
  have top : (-1 : UInt64).toNat = 2 ^ 64 - 1 := rfl
  omega

/-- `next_timer_ms` finds the earliest timer. -/
theorem heapTimer_spec (heap : List HeapItem) (idle : Option UInt64) :
    let nextMs := heapTimer heap (idle.getD (-1))
    (∀ time, time ∈ idle ∨ time ∈ heap.head?.map HeapItem.val → nextMs ≤ time) ∧
      (nextMs ≠ -1 → nextMs ∈ idle ∨ nextMs ∈ heap.head?.map HeapItem.val) := by
  cases heap with
  | nil =>
      cases idle with
      | none => simp [heapTimer]
      | some time => simp [heapTimer]
  | cons item rest =>
      simp only [heapTimer, List.head?_cons, Option.map_some, Option.mem_def, Option.some.injEq]
      split
      · rename_i sooner
        have sooner := UInt64.le_of_lt sooner
        constructor
        · rintro time (isIdle | rfl)
          · rw [isIdle] at sooner
            exact sooner
          · exact UInt64.le_refl _
        · exact fun _ => .inr rfl
      · rename_i later
        have later := UInt64.not_lt.mp later
        constructor
        · rintro time (isIdle | rfl)
          · rw [isIdle]
            exact UInt64.le_refl _
          · exact later
        · intro notNever
          cases idle with
          | none => exact absurd rfl notNever
          | some time => exact .inl rfl

/-! ## Agreement -/

/-- No timer is due for `process_timers`, and the earliest one is a multiple of 2^32
milliseconds away, zero included. -/
def Spins (idle ttl : Set UInt64) (now : UInt64) : Prop :=
  (∀ time ∈ idle, now < time) ∧ (∀ time ∈ ttl, now ≤ time) ∧
    ∃ next, (next ∈ idle ∨ next ∈ ttl) ∧ (∀ time, time ∈ idle ∨ time ∈ ttl → next ≤ time) ∧
      next ≠ -1 ∧ (next - now).toNat % 2 ^ 32 = 0

/-- A timer is due for `process_timers`. -/
def Due (idle ttl : Set UInt64) (now : UInt64) : Prop :=
  (∃ time ∈ idle, time ≤ now) ∨ ∃ time ∈ ttl, time < now

theorem not_due_iff {idle ttl : Set UInt64} {now : UInt64} :
    ¬ Due idle ttl now ↔ (∀ time ∈ idle, now < time) ∧ ∀ time ∈ ttl, now ≤ time := by
  simp [Due, not_or, UInt64.not_le, UInt64.not_lt]

section

variable {idle ttl : Set UInt64} {nextMs now : UInt64}

theorem Due.first_le (due : Due idle ttl now)
    (least : ∀ time, time ∈ idle ∨ time ∈ ttl → nextMs ≤ time) : nextMs ≤ now := by
  rcases due with ⟨time, member, le⟩ | ⟨time, member, less⟩
  · exact UInt64.le_trans (least time (.inl member)) le
  · exact UInt64.le_trans (least time (.inr member)) (UInt64.le_of_lt less)

theorem Due.ne_largest (due : Due idle ttl now)
    (least : ∀ time, time ∈ idle ∨ time ∈ ttl → nextMs ≤ time) (finite : ∀ time ∈ idle, time ≠ -1) :
    nextMs ≠ -1 := by
  rintro rfl
  rcases due with ⟨time, member, -⟩ | ⟨time, member, less⟩
  · exact finite time member (UInt64.le_antisymm (le_largest time) (least time (.inl member)))
  · have above := least time (.inr member)
    exact UInt64.not_le.mpr less (UInt64.le_trans (le_largest now) above)

theorem eq_now_of_not_due (idleOrTtl : nextMs ∈ idle ∨ nextMs ∈ ttl) (notDue : ¬ Due idle ttl now)
    (early : nextMs ≤ now) : nextMs = now := by
  obtain ⟨idleLater, ttlLater⟩ := not_due_iff.mp notDue
  rcases idleOrTtl with isIdle | isTtl
  · exact absurd early (UInt64.not_le.mpr (idleLater nextMs isIdle))
  · exact UInt64.le_antisymm early (ttlLater nextMs isTtl)

/-- The loop spins on the timer that `next_timer_ms` finds. -/
theorem spins_iff (least : ∀ time, time ∈ idle ∨ time ∈ ttl → nextMs ≤ time)
    (found : nextMs ≠ -1 → nextMs ∈ idle ∨ nextMs ∈ ttl) :
    Spins idle ttl now ↔
      ¬ Due idle ttl now ∧ nextMs ≠ -1 ∧ (nextMs - now).toNat % 2 ^ 32 = 0 := by
  rw [not_due_iff]
  constructor
  · rintro ⟨idleLater, ttlLater, next, isTimer, first, notNever, multiple⟩
    have finite : nextMs ≠ -1 := by
      rintro rfl
      exact notNever (UInt64.le_antisymm (le_largest next) (least next isTimer))
    have same : next = nextMs :=
      UInt64.le_antisymm (first nextMs (found finite)) (least next isTimer)
    rw [same] at multiple
    exact ⟨⟨idleLater, ttlLater⟩, finite, multiple⟩
  · rintro ⟨⟨idleLater, ttlLater⟩, finite, multiple⟩
    exact ⟨idleLater, ttlLater, nextMs, found finite, least, finite, multiple⟩

/-- The two due tests differ when the loop spins. -/
theorem pollTimeout_agrees_iff (least : ∀ time, time ∈ idle ∨ time ∈ ttl → nextMs ≤ time)
    (found : nextMs ≠ -1 → nextMs ∈ idle ∨ nextMs ∈ ttl) (finite : ∀ time ∈ idle, time ≠ -1) :
    (pollTimeout nextMs now = 0 ↔ Due idle ttl now) ↔ ¬ Spins idle ttl now := by
  rw [pollTimeout_eq_zero_iff, spins_iff least found]
  by_cases due : Due idle ttl now
  · simp [due, due.first_le least, due.ne_largest least finite]
  · have spins : nextMs ≠ -1 → nextMs ≤ now → (nextMs - now).toNat % 2 ^ 32 = 0 := by
      intro notNever early
      rw [eq_now_of_not_due (found notNever) due early, UInt64.sub_self]
      rfl
    simp only [due, iff_false, not_false_eq_true, true_and, not_and, not_or]
    constructor
    · exact fun sleeps notNever => (sleeps notNever).2
    · intro noMultiple notNever
      exact ⟨fun early => noMultiple notNever (spins notNever early), noMultiple notNever⟩

end

/-! ## The timers of the server -/

/-- The times at which the connections have been inactive for the timeout. -/
def GData.idleTimes {D : Type} (g : GData D) : Set UInt64 :=
  {time | ∃ conn value, g.conns.cell conn = some value ∧
    time = value.lastActiveMs + kIdleTimeoutMs}

/-- The deadlines of the keys. -/
def GData.ttlTimes {D : Type} (g : GData D) : Set UInt64 :=
  {time | ∃ item ∈ g.store.timers.heap, time = item.val}

/-- The first of some times, if there are any. -/
structure Earliest (times : Set UInt64) (first : Option UInt64) : Prop where
  mem : ∀ time ∈ first, time ∈ times
  le : ∀ time ∈ times, ∃ earliest ∈ first, earliest ≤ time

namespace GData.Sound

variable {g : GData D} {queue : List Ptr}

/-- The front of the idle list times out first. -/
theorem earliest_idle (sound : g.Sound queue) :
    ∃ idle, idleTimeout g = .ok idle ∧ Earliest g.idleTimes (idle.map Prod.snd) := by
  have front := sound.idleTimeout_eq
  cases queue with
  | nil =>
      refine ⟨none, front, nofun, ?_⟩
      rintro time ⟨conn, value, live, -⟩
      cases (sound.linked.live conn).mp ⟨value, live⟩
  | cons first rest =>
      obtain ⟨firstValue, firstLive, timeoutEq⟩ := front
      refine ⟨_, timeoutEq, ?_, ?_⟩
      · intro time isFirst
        exact ⟨first, firstValue, firstLive, (Option.some.inj isFirst).symm⟩
      · rintro time ⟨conn, value, live, rfl⟩
        refine ⟨_, rfl, ?_⟩
        have ordered : firstValue.lastActiveMs ≤ value.lastActiveMs := by
          rcases List.mem_cons.mp ((sound.linked.live conn).mp ⟨value, live⟩) with same | member
          · rw [same, firstLive] at live
            cases live
            exact UInt64.le_refl _
          · exact List.rel_of_pairwise_cons sound.sorted member firstValue value firstLive live
        rw [UInt64.le_iff_toNat_le] at ordered ⊢
        rw [(sound.uptime first firstValue firstLive).add_toNat,
          (sound.uptime conn value live).add_toNat]
        omega

/-- The first item of the heap has the first deadline. -/
theorem earliest_ttl (sound : g.Sound queue) :
    Earliest g.ttlTimes (g.store.timers.heap.head?.map HeapItem.val) where
  mem := by
    intro time isFirst
    obtain ⟨item, head, rfl⟩ := Option.map_eq_some_iff.mp isFirst
    exact ⟨item, List.mem_of_mem_head? head, rfl⟩
  le := by
    rintro time ⟨item, member, rfl⟩
    obtain ⟨first, rest, heapEq⟩ := List.exists_cons_of_ne_nil (List.ne_nil_of_mem member)
    refine ⟨first.val, by rw [heapEq]; rfl, ?_⟩
    exact sound.reached.denotes.tracks.first_le heapEq member

/-- What `next_timer_ms` computes. -/
theorem nextTimerMs_eq (sound : g.Sound queue) (now : UInt64) :
    ∃ nextMs, RedisLite.nextTimerMs g now = .ok (pollTimeout nextMs now) ∧
      (∀ time, time ∈ g.idleTimes ∨ time ∈ g.ttlTimes → nextMs ≤ time) ∧
      (nextMs ≠ -1 → nextMs ∈ g.idleTimes ∨ nextMs ∈ g.ttlTimes) := by
  obtain ⟨idle, idleEq, earliest⟩ := sound.earliest_idle
  obtain ⟨least, found⟩ := heapTimer_spec g.store.timers.heap (idle.map Prod.snd)
  refine ⟨heapTimer g.store.timers.heap ((idle.map Prod.snd).getD (-1)), ?_, ?_, ?_⟩
  · simp only [RedisLite.nextTimerMs, idleEq, Exec.ok_bind, Exec.pure_eq_ok]
    cases idle <;> rfl
  · rintro time (isIdle | isTtl)
    · obtain ⟨first, isFirst, le⟩ := earliest.le time isIdle
      exact UInt64.le_trans (least first (.inl isFirst)) le
    · obtain ⟨first, isFirst, le⟩ := sound.earliest_ttl.le time isTtl
      exact UInt64.le_trans (least first (.inr isFirst)) le
  · exact fun notNever => (found notNever).imp (earliest.mem _) (sound.earliest_ttl.mem _)

end GData.Sound

/-- The second state lacks a connection or a key of the first one. -/
def GData.Works (g after : GData D) : Prop :=
  (∃ conn value, g.conns.cell conn = some value ∧ after.conns.cell conn = none) ∨
    g.store.evicted after.store ≠ []

/-- When `process_timers` destroys a connection or evicts a key. -/
theorem GData.Sound.works_iff {g : GData D} {queue : List Ptr} (sound : g.Sound queue)
    (isOpen : g.OpenBut none) (now : UInt64) :
    Exec.Returns (RedisLite.processTimers g now) fun after =>
      (g.Works after ↔ Due g.idleTimes g.ttlTimes now) := by
  obtain ⟨middle, idleEq, -, -, store, journal, cells⟩ := sound.processIdle isOpen now
  obtain ⟨swept, sweepEq, -⟩ := sound.reached.denotes.processTtl now
  simp only [RedisLite.processTimers, idleEq, Exec.ok_bind, store, sweepEq, Exec.pure_eq_ok,
    Exec.returns_ok]
  apply or_congr
  · constructor
    · rintro ⟨conn, value, live, gone⟩
      refine ⟨_, ⟨conn, value, live, rfl⟩, ?_⟩
      have gone : middle.conns.cell conn = none := gone
      by_contra later
      have fresh := (Conn.timeout_gt_iff (sound.uptime conn value live) now).mp
        (UInt64.not_le.mp later)
      rw [cells, live, Option.filter_some, fresh] at gone
      cases gone
    · rintro ⟨time, ⟨conn, value, live, rfl⟩, due⟩
      refine ⟨conn, value, live, ?_⟩
      have expired : value.expired now = true := by
        rw [← Bool.not_eq_false, ← Conn.timeout_gt_iff (sound.uptime conn value live)]
        exact UInt64.not_lt.mpr due
      show middle.conns.cell conn = none
      rw [cells, live, Option.filter_some, expired]
      rfl
  · rw [sound.reached.denotes.evicted_ne_nil_iff sweepEq]
    constructor
    · rintro ⟨item, head, due⟩
      exact ⟨_, ⟨item, List.mem_of_mem_head? head, rfl⟩, due⟩
    · rintro ⟨time, ⟨item, member, rfl⟩, due⟩
      obtain ⟨first, rest, heapEq⟩ := List.exists_cons_of_ne_nil (List.ne_nil_of_mem member)
      exact ⟨first, by rw [heapEq]; rfl, sound.reached.denotes.first_due heapEq member due⟩

/-- In every state of every run and at every clock reading, `next_timer_ms` asks `poll` not
to sleep exactly if `process_timers` destroys a connection or evicts a key at that reading,
unless no timer is due and the earliest one is a multiple of 2^32 milliseconds away. -/
theorem run_wakes_for_work_iff {passed : List (Moment D)} {state : LoopState D}
    (run : Run passed state) (now : UInt64) :
    ∃ timeout after, nextTimerMs state.g now = .ok timeout ∧
      processTimers state.g now = .ok after ∧
      ((timeout = 0 ↔ state.g.Works after) ↔ ¬ Spins state.g.idleTimes state.g.ttlTimes now) := by
  obtain ⟨⟨queue, sound⟩, isOpen, -⟩ := run.inv
  obtain ⟨nextMs, timeoutEq, least, found⟩ := sound.nextTimerMs_eq now
  obtain ⟨after, timersEq, works⟩ := sound.works_iff isOpen now
  refine ⟨_, after, timeoutEq, timersEq, ?_⟩
  rw [works]
  apply pollTimeout_agrees_iff least found
  rintro time ⟨conn, value, live, rfl⟩ never
  have uptime := sound.uptime conn value live
  have sum := uptime.add_toNat
  rw [never] at sum
  have largest : (-1 : UInt64).toNat = 2 ^ 64 - 1 := rfl
  unfold Uptime at uptime
  omega

/-- A connection that has been inactive for exactly the timeout wakes the loop, which
destroys it. -/
theorem run_wakes_for_work_iff_idle : ∃ (g after : GData Nat) (timeout : Int32),
    nextTimerMs g 5000 = .ok timeout ∧ processTimers g 5000 = .ok after ∧
    (timeout = 0 ↔ g.Works after) := by
  obtain ⟨passed, g, value, run, -, live, -, -, active⟩ := Run.accepted
  obtain ⟨timeout, after, timeoutEq, timersEq, agrees⟩ := run_wakes_for_work_iff run 5000
  refine ⟨g, after, timeout, timeoutEq, timersEq, agrees.mpr ?_⟩
  rintro ⟨idle, -⟩
  have later := idle _ ⟨1, value, live, rfl⟩
  rw [active] at later
  revert later
  decide

/-- A client that sets a key with a TTL of 5 when the clock reads 0. -/
def expiringKey : Bytes :=
  frame (requestBody [ascii "set", ascii "k", ascii "v"]) ++
    frame (requestBody [ascii "pexpire", ascii "k", ascii "5"])

/-- When the clock reads 5, `poll` is asked not to sleep, but there is nothing to do. -/
theorem wakes_without_work : ∃ (passed : List (Moment Nat)) (state : LoopState Nat),
    Run passed state ∧ ∃ after, nextTimerMs state.g 5 = .ok 0 ∧
      processTimers state.g 5 = .ok after ∧ ¬ state.g.Works after := by
  obtain ⟨after, call, wakes, swept, timersEq, conns, evicted⟩ :
      ∃ after, (clientConnects >>= fun state =>
          loopStep state (.turn (.receive expiringKey fun _ => 0))) = .ok after ∧
        nextTimerMs after.g 5 = .ok 0 ∧ ∃ swept, processTimers after.g 5 = .ok swept ∧
        swept.conns = after.g.conns ∧ after.g.store.evicted swept.store = [] :=
    ⟨_, rfl, rfl, _, rfl, rfl, rfl⟩
  obtain ⟨passed, run⟩ := Run.receives rfl (by decide) (fun _ => UInt64.le_refl _) call
  refine ⟨passed, after, run, swept, wakes, timersEq, ?_⟩
  rintro (⟨conn, value, live, gone⟩ | evicts)
  · rw [conns, live] at gone
    cases gone
  · exact evicts evicted

end RedisLite
