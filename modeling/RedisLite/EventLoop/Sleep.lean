import Mathlib.Order.Bounds.Defs
import RedisLite.EventLoop.Wakeups

/-!
# How long the poll sleeps

`next_timer_ms` casts a 64-bit time difference to `int32_t`.  The timeout is right while the
earliest timer is less than 2^31 ms away; farther away it depends on the low 32 bits.
-/

namespace RedisLite

open Lib

variable {D : Type} [Dbl D]

/-! ## The cast -/

theorem toInt32_toInt (difference : UInt64) :
    difference.toUInt32.toInt32.toInt =
      if difference.toNat % 2 ^ 32 < 2 ^ 31 then ((difference.toNat % 2 ^ 32 : Nat) : Int)
      else ((difference.toNat % 2 ^ 32 : Nat) : Int) - 2 ^ 32 := by
  have cut : difference.toUInt32.toInt32.toInt = difference.toUInt32.toBitVec.toInt := rfl
  have low : difference.toUInt32.toBitVec.toNat = difference.toNat % 2 ^ 32 :=
    UInt64.toNat_toUInt32 difference
  rw [cut, BitVec.toInt_eq_toNat_cond, low]
  split <;> split <;> omega

/-- The timeout for a timer in the future. -/
theorem pollTimeout_future {nextMs now : UInt64} (finite : nextMs ≠ -1) (future : now < nextMs) :
    (0 < (pollTimeout nextMs now).toInt ↔
      0 < (nextMs - now).toNat % 2 ^ 32 ∧ (nextMs - now).toNat % 2 ^ 32 < 2 ^ 31) ∧
    (pollTimeout nextMs now).toInt ≤ (nextMs.toNat : Int) - now.toNat := by
  have notDue : ¬ nextMs ≤ now := UInt64.not_le.mpr future
  have difference : (nextMs - now).toNat = nextMs.toNat - now.toNat :=
    UInt64.toNat_sub_of_le _ _ (UInt64.le_of_lt future)
  rw [UInt64.lt_iff_toNat_lt] at future
  have timeout : pollTimeout nextMs now = (nextMs - now).toUInt32.toInt32 := by
    rw [pollTimeout, if_neg finite, if_neg notDue]
  rw [timeout, toInt32_toInt, difference]
  have low := Nat.mod_le (nextMs.toNat - now.toNat) (2 ^ 32)
  split <;> omega

/-! ## Sleeping until the earliest timer -/

/-- What the timeout of `poll` should be: negative without a timer, zero if the earliest
timer is due, and else positive and not beyond that timer. -/
structure SleepsRight (timers : Set UInt64) (now : UInt64) (timeout : Int32) : Prop where
  forever : timeout.toInt < 0 ↔ timers = ∅
  awake : timeout.toInt = 0 ↔ ∃ first, IsLeast timers first ∧ first ≤ now
  asleep : ∀ first, IsLeast timers first → now < first →
    0 < timeout.toInt ∧ timeout.toInt ≤ (first.toNat : Int) - now.toNat

/-- The earliest timer is not the largest number, and it is due, or its distance modulo
2^32 is positive and less than 2^31. -/
def InReach (timers : Set UInt64) (now : UInt64) : Prop :=
  timers = ∅ ∨ ∃ first, IsLeast timers first ∧ first ≠ -1 ∧
    (first ≤ now ∨
      0 < (first - now).toNat % 2 ^ 32 ∧ (first - now).toNat % 2 ^ 32 < 2 ^ 31)

section

variable {timers : Set UInt64} {nextMs now : UInt64}

theorem isLeast_unique {first other : UInt64} (isFirst : IsLeast timers first)
    (isOther : IsLeast timers other) : first = other :=
  UInt64.le_antisymm (isFirst.2 isOther.1) (isOther.2 isFirst.1)

/-- Without a timer before the largest number the timeout is -1. -/
theorem pollTimeout_never_iff (largest : ∀ time ∈ timers, time = -1) :
    SleepsRight timers now (pollTimeout (-1) now) ↔ InReach timers now := by
  have timeout : (pollTimeout (-1) now).toInt = -1 := by
    rw [pollTimeout, if_pos rfl]
    rfl
  by_cases empty : timers = ∅
  · refine iff_of_true ⟨?_, ?_, ?_⟩ (.inl empty)
    · rw [timeout]
      simp [empty]
    · rw [timeout, empty]
      simp [IsLeast]
    · intro first isFirst
      rw [empty] at isFirst
      exact absurd isFirst.1 (Set.notMem_empty first)
  · refine iff_of_false (fun right => ?_) ?_
    · exact empty (right.forever.mp (by rw [timeout]; decide))
    · rintro (isEmpty | ⟨first, isFirst, finite, -⟩)
      · exact empty isEmpty
      · exact finite (largest first isFirst.1)

/-- With an earliest timer the timeout is right exactly if that timer is in reach. -/
theorem pollTimeout_first_iff (finite : nextMs ≠ -1) (isFirst : IsLeast timers nextMs) :
    SleepsRight timers now (pollTimeout nextMs now) ↔ InReach timers now := by
  have nonempty : timers ≠ ∅ := Set.nonempty_iff_ne_empty.mp ⟨nextMs, isFirst.1⟩
  have reach : InReach timers now ↔ (nextMs ≤ now ∨
      0 < (nextMs - now).toNat % 2 ^ 32 ∧ (nextMs - now).toNat % 2 ^ 32 < 2 ^ 31) := by
    constructor
    · rintro (isEmpty | ⟨other, isOther, -, near⟩)
      · exact absurd isEmpty nonempty
      · rwa [isLeast_unique isFirst isOther]
    · exact fun near => .inr ⟨nextMs, isFirst, finite, near⟩
  rw [reach]
  by_cases due : nextMs ≤ now
  · have timeout : (pollTimeout nextMs now).toInt = 0 := by
      rw [pollTimeout, if_neg finite, if_pos due]
      rfl
    refine iff_of_true ⟨?_, ?_, ?_⟩ (.inl due)
    · simp [timeout, nonempty]
    · exact iff_of_true timeout ⟨nextMs, isFirst, due⟩
    · intro first isOther later
      rw [isLeast_unique isOther isFirst] at later
      exact absurd due (UInt64.not_le.mpr later)
  · have future := UInt64.not_le.mp due
    obtain ⟨positive, bounded⟩ := pollTimeout_future finite future
    rw [or_iff_right due, ← positive]
    constructor
    · exact fun right => (right.asleep nextMs isFirst future).1
    · intro isPositive
      refine ⟨?_, ?_, ?_⟩
      · exact iff_of_false (by omega) nonempty
      · refine iff_of_false (by omega) ?_
        rintro ⟨first, isOther, early⟩
        rw [isLeast_unique isOther isFirst] at early
        exact due early
      · intro first isOther _
        rw [isLeast_unique isOther isFirst]
        exact ⟨isPositive, bounded⟩

end

/-! ## The server -/

/-- The times of all timers. -/
def GData.timerTimes {D : Type} (g : GData D) : Set UInt64 := g.idleTimes ∪ g.ttlTimes

/-- In every state of every run and at every clock reading, the timeout that `next_timer_ms`
computes is right exactly if there is no timer or the earliest one is in reach. -/
theorem run_sleeps_right_iff {passed : List (Moment D)} {state : LoopState D}
    (run : Run passed state) (now : UInt64) :
    Exec.Returns (nextTimerMs state.g now) fun timeout =>
      SleepsRight state.g.timerTimes now timeout ↔ InReach state.g.timerTimes now := by
  obtain ⟨queue, sound⟩ := run.inv.sound
  obtain ⟨nextMs, timeoutEq, least, found⟩ := sound.nextTimerMs_eq now
  refine ⟨_, timeoutEq, ?_⟩
  by_cases never : nextMs = -1
  · rw [never] at least ⊢
    apply pollTimeout_never_iff
    exact fun time member => UInt64.le_antisymm (le_largest time) (least time member)
  · exact pollTimeout_first_iff never ⟨found never, least⟩

/-- A connection that has just been accepted is in reach. -/
theorem run_sleeps_right_iff_idle : ∃ (g : GData Nat) (timeout : Int32),
    nextTimerMs g 0 = .ok timeout ∧
    (SleepsRight g.timerTimes 0 timeout ↔ InReach g.timerTimes 0) := by
  obtain ⟨passed, g, value, run, -⟩ := Run.accepted
  obtain ⟨timeout, timeoutEq, right⟩ := run_sleeps_right_iff run 0
  exact ⟨g, timeout, timeoutEq, right⟩

/-- A client that sets a key with a TTL of 2^31 ms. -/
def distantKey : Bytes :=
  frame (requestBody [ascii "set", ascii "k", ascii "v"]) ++
    frame (requestBody [ascii "pexpire", ascii "k", ascii "2147483648"])

/-- After the connection is gone `poll` is asked to sleep forever, although the key has a
deadline. -/
theorem sleeps_past_deadline : ∃ (passed : List (Moment Nat)) (state : LoopState Nat),
    Run passed state ∧ nextTimerMs state.g 0 = .ok (-2147483648) ∧
      2147483648 ∈ state.g.timerTimes ∧
      ¬ SleepsRight state.g.timerTimes 0 (-2147483648) := by
  obtain ⟨after, call, timeoutEq, item, rest, heapEq, isDeadline⟩ :
      ∃ after, (clientConnects >>= fun state => loopStep state
          (.turn { Turn.receive distantKey fun _ => 0 with
            revents := { pollin := true, pollerr := true } })) = .ok after ∧
        nextTimerMs after.g 0 = .ok (-2147483648) ∧ ∃ item rest,
        after.g.store.timers.heap = item :: rest ∧ item.val = 2147483648 :=
    ⟨_, rfl, rfl, _, _, rfl, rfl⟩
  obtain ⟨passed, run⟩ := Run.receives rfl (by decide) (fun _ => UInt64.le_refl _) call
  have timer : 2147483648 ∈ after.g.timerTimes :=
    .inr ⟨item, by rw [heapEq]; exact List.mem_cons_self, isDeadline.symm⟩
  refine ⟨passed, after, run, timeoutEq, timer, fun right => ?_⟩
  have empty := right.forever.mp (by decide)
  rw [empty] at timer
  exact timer

end RedisLite
