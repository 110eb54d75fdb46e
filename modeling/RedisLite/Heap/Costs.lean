import Mathlib.Data.Nat.Log
import RedisLite.Heap.Repair
import RedisLite.Lib.Amortized

/-!
# The cost of the timers

`heap_up` climbs and `heap_down` descends one level in each turn, whatever the values and
the references of the items are.  So every change of a timer moves at most as many items as
the heap has levels, also when the heap is out of order.
-/

namespace RedisLite

open Lib Lib.HeapOrder

/-! ## What a change costs -/

/-- The turns of the loop in `heap_up`. -/
def heapUpTurns (timers : Timers) (pos : Nat) : Nat :=
  match timers.heap[pos]? with
  | some t => turns (heapUpTurn t) (pos + 1) (timers, pos)
  | none => 0

/-- The turns of the loop in `heap_down`. -/
def heapDownTurns (timers : Timers) (pos len : Nat) : Nat :=
  match timers.heap[pos]? with
  | some t => turns (heapDownTurn t len) (len + 1) (timers, pos)
  | none => 0

/-- The turns of the loop that `heap_update` enters. -/
def heapUpdateTurns (timers : Timers) (pos len : Nat) : Nat :=
  match timers.heap[heapParent pos]?, timers.heap[pos]? with
  | some above, some item =>
      if pos > 0 ∧ above.val > item.val then heapUpTurns timers pos
      else heapDownTurns timers pos len
  | _, _ => 0

/-- The turns of the `heap_update` in `heap_delete`. -/
def heapDeleteTurns (timers : Timers) (pos : Nat) : Nat :=
  match timers.heap.getLast? with
  | some last =>
      let heap := (timers.heap.set pos last).dropLast
      if pos < heap.length then heapUpdateTurns { timers with heap := heap } pos heap.length else 0
  | none => 0

/-- The turns of the `heap_update` in `heap_upsert`. -/
def heapUpsertTurns (timers : Timers) (pos : Option Nat) (t : HeapItem) : Nat :=
  match pos.filter fun pos => decide (pos < timers.heap.length) with
  | some pos =>
      let heap := timers.heap.set pos t
      heapUpdateTurns { timers with heap := heap } pos heap.length
  | none =>
      let heap := timers.heap ++ [t]
      heapUpdateTurns { timers with heap := heap } timers.heap.length heap.length

/-! ## Levels -/

/-- The level of a slot, where the root has level 0. -/
def level (slot : Nat) : Nat := Nat.log 2 (slot + 1)

theorem level_parent {slot : Nat} (positive : 0 < slot) :
    level slot = level (heapParent slot) + 1 := by
  have above : heapParent slot + 1 = (slot + 1) / 2 := by
    unfold heapParent
    omega
  rw [level, level, above]
  exact Nat.log_of_one_lt_of_le Nat.one_lt_two (Nat.succ_le_succ positive)

theorem level_lt {slot len bits : Nat} (inside : slot < len) (small : len < 2 ^ bits) :
    level slot < bits :=
  Nat.log_lt_of_lt_pow (Nat.succ_ne_zero slot) (Nat.lt_of_le_of_lt inside small)

/-! ## Turns -/

/-- A turn of `heap_up` that goes on moves to the parent. -/
theorem heapUpTurn_next {t : HeapItem} {state after : Timers × Nat}
    (turn : heapUpTurn t state = .ok (.next after)) :
    0 < state.2 ∧ after.2 = heapParent state.2 := by
  obtain ⟨timers, pos⟩ := state
  by_cases positive : pos > 0
  · rw [heapUpTurn, if_pos positive, Exec.bind_eq_ok] at turn
    obtain ⟨above, -, turn⟩ := turn
    by_cases less : above.val > t.val
    · rw [if_pos less, Exec.bind_eq_ok] at turn
      obtain ⟨placed, -, turn⟩ := turn
      cases turn
      exact ⟨positive, rfl⟩
    · rw [if_neg less] at turn
      cases turn
  · rw [heapUpTurn, if_neg positive] at turn
    cases turn

/-- A comparison of `heap_down` keeps the slot or takes that of the kid. -/
theorem heapSmaller_slot {heap : List HeapItem} {len kid : Nat} {min after : Nat × UInt64}
    (compared : heapSmaller heap len kid min = .ok after) :
    after.1 = min.1 ∨ after.1 = kid ∧ kid < len := by
  by_cases inside : kid < len
  · rw [heapSmaller, if_pos inside, Exec.bind_eq_ok] at compared
    obtain ⟨item, -, compared⟩ := compared
    cases compared
    split
    · exact .inr ⟨rfl, inside⟩
    · exact .inl rfl
  · rw [heapSmaller, if_neg inside] at compared
    cases compared
    exact .inl rfl

/-- A turn of `heap_down` that goes on moves to a kid. -/
theorem heapDownTurn_next {t : HeapItem} {len : Nat} {state after : Timers × Nat}
    (turn : heapDownTurn t len state = .ok (.next after)) :
    0 < after.2 ∧ heapParent after.2 = state.2 ∧ after.2 < len := by
  obtain ⟨timers, pos⟩ := state
  rw [heapDownTurn, Exec.bind_eq_ok] at turn
  obtain ⟨left, leftEq, turn⟩ := turn
  rw [Exec.bind_eq_ok] at turn
  obtain ⟨⟨minPos, minVal⟩, rightEq, turn⟩ := turn
  have leftSlot := heapSmaller_slot leftEq
  have rightSlot := heapSmaller_slot rightEq
  simp only at leftSlot rightSlot turn
  by_cases stays : minPos = pos
  · rw [if_pos stays] at turn
    cases turn
  · rw [if_neg stays, Exec.bind_eq_ok] at turn
    obtain ⟨kid, -, turn⟩ := turn
    rw [Exec.bind_eq_ok] at turn
    obtain ⟨placed, -, turn⟩ := turn
    cases turn
    have isKid : minPos = heapLeft pos ∨ minPos = heapRight pos := by omega
    have positive : 0 < minPos := by
      unfold heapLeft heapRight at isKid
      omega
    exact ⟨positive, (kid_iff positive).mpr isKid, by omega⟩

theorem heapUpTurns_le (timers : Timers) (pos : Nat) : heapUpTurns timers pos ≤ level pos := by
  cases found : timers.heap[pos]? with
  | none => simp [heapUpTurns, found]
  | some t =>
      simp only [heapUpTurns, found]
      refine turns_le (fun _ => True) (fun state : Timers × Nat => level state.2) ?_ _ trivial
      intro state after _ turn
      obtain ⟨positive, up⟩ := heapUpTurn_next turn
      rw [up, ← level_parent positive]
      exact ⟨trivial, Nat.le_refl _⟩

theorem heapDownTurns_lt (timers : Timers) {pos len bits : Nat} (inside : pos < len)
    (small : len < 2 ^ bits) : heapDownTurns timers pos len < bits := by
  have atPos := level_lt inside small
  cases found : timers.heap[pos]? with
  | none =>
      simp only [heapDownTurns, found]
      omega
  | some t =>
      simp only [heapDownTurns, found]
      have descends :
          turns (heapDownTurn t len) (len + 1) (timers, pos) ≤ bits - 1 - level pos := by
        refine turns_le (fun state : Timers × Nat => state.2 < len)
          (fun state => bits - 1 - level state.2) ?_ _ inside
        intro state after _ turn
        obtain ⟨positive, down, below⟩ := heapDownTurn_next turn
        have atKid := level_lt below small
        have deeper := level_parent positive
        rw [down] at deeper
        exact ⟨below, by omega⟩
      omega

theorem heapUpdateTurns_lt (timers : Timers) {pos len bits : Nat} (inside : pos < len)
    (small : len < 2 ^ bits) : heapUpdateTurns timers pos len < bits := by
  unfold heapUpdateTurns
  split
  · split
    · exact Nat.lt_of_le_of_lt (heapUpTurns_le timers pos) (level_lt inside small)
    · exact heapDownTurns_lt timers inside small
  · exact Nat.lt_of_le_of_lt (Nat.zero_le _) (level_lt inside small)

/-- Timers are logarithmic, whatever is in the heap: in an array of fewer than `2 ^ bits` items,
in any order and with any references, `heap_update` of any slot moves fewer than `bits` items,
`heap_delete` of any slot and `heap_upsert` of any item at most `bits`. -/
theorem timer_updates_logarithmic (timers : Timers) {bits : Nat}
    (small : timers.heap.length < 2 ^ bits) :
    (∀ pos, pos < timers.heap.length → heapUpdateTurns timers pos timers.heap.length < bits) ∧
    (∀ pos, heapDeleteTurns timers pos ≤ bits) ∧
    ∀ pos t, heapUpsertTurns timers pos t ≤ bits := by
  refine ⟨fun pos inside => heapUpdateTurns_lt timers inside small, fun pos => ?_, fun pos t => ?_⟩
  · unfold heapDeleteTurns
    split
    · rename_i last _
      simp only
      split
      · rename_i inside
        refine Nat.le_of_lt (heapUpdateTurns_lt _ inside ?_)
        rw [List.length_dropLast, List.length_set]
        omega
      · exact Nat.zero_le _
    · exact Nat.zero_le _
  · unfold heapUpsertTurns
    split
    · rename_i pos isPos
      have inside : pos < timers.heap.length := by
        simpa using (Option.filter_eq_some_iff.mp isPos).2
      refine Nat.le_of_lt (heapUpdateTurns_lt _ ?_ ?_) <;> rwa [List.length_set]
    · refine Nat.le_of_lt_succ (heapUpdateTurns_lt _ ?_ ?_) <;>
        rw [List.length_append, List.length_singleton]
      · exact Nat.lt_succ_self _
      · rw [Nat.pow_succ]
        omega

/-- Three timers of which the root is not the smallest. -/
theorem timer_updates_logarithmic_three :
    heapUpdateTurns { threeTimers with heap := threeTimers.heap.reverse } 0 3 < 2 :=
  (@timer_updates_logarithmic { threeTimers with heap := threeTimers.heap.reverse } 2
    (by decide)).1 0 (by decide)

end RedisLite
