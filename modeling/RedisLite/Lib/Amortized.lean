import Mathlib.Algebra.Order.Ring.Nat
import RedisLite.Lib.Exec

/-!
# Amortized cost

`turns` counts the turns of a loop; a potential that every turn lowers bounds them.
Over a sequence of operations the potential is what earlier operations have paid for
later ones: an operation may cost more than its own credit, the sequence may not.
-/

namespace Lib

universe u v

section Turns

variable {σ β : Type u}

/-- The number of turns after which a loop ends. -/
def turns (body : σ → Exec (Step σ β)) : Nat → σ → Nat
  | 0, _ => 0
  | fuel + 1, state =>
      match body state with
      | .ok (.next after) => turns body fuel after + 1
      | .ok (.done _) => 0
      | .error _ => 0

theorem turns_next {body : σ → Exec (Step σ β)} {state after : σ}
    (turn : body state = .ok (.next after)) (fuel : Nat) :
    turns body (fuel + 1) state = turns body fuel after + 1 := by
  simp only [turns, turn]

theorem turns_done {body : σ → Exec (Step σ β)} {state : σ} {result : β}
    (turn : body state = .ok (.done result)) (fuel : Nat) : turns body (fuel + 1) state = 0 := by
  simp only [turns, turn]

/-- A loop that ends within a bound takes fewer turns, whatever other bound it is given. -/
theorem turns_lt {body : σ → Exec (Step σ β)} {fuel : Nat} {state : σ} {result : β}
    (ends : loop body fuel state = .ok result) (other : Nat) : turns body other state < fuel := by
  induction fuel generalizing state other with
  | zero => cases ends
  | succ fuel ih =>
      rw [loop, Exec.bind_eq_ok] at ends
      obtain ⟨outcome, turn, rest⟩ := ends
      cases other with
      | zero => exact Nat.succ_pos fuel
      | succ other =>
          cases outcome with
          | next after =>
              rw [turns_next turn]
              exact Nat.succ_lt_succ (ih rest other)
          | done value =>
              rw [turns_done turn]
              exact Nat.succ_pos fuel

/-- The turns of a loop are at most the potential that every turn lowers, whether or not the
loop ends. -/
theorem turns_le {body : σ → Exec (Step σ β)} (invariant : σ → Prop) (potential : σ → Nat)
    (lowers : ∀ state after, invariant state → body state = .ok (.next after) →
      invariant after ∧ potential after + 1 ≤ potential state) :
    ∀ (fuel : Nat) {state : σ}, invariant state → turns body fuel state ≤ potential state := by
  intro fuel
  induction fuel with
  | zero => intro state _; exact Nat.zero_le _
  | succ fuel ih =>
      intro state holds
      rw [turns]
      split
      · rename_i after turn
        obtain ⟨kept, lowered⟩ := lowers state after holds turn
        have further := ih kept
        omega
      · exact Nat.zero_le _
      · exact Nat.zero_le _

/-- The turns of a loop are paid from the potential, and what is left of it is still there
when the loop ends. -/
theorem turns_add_le {body : σ → Exec (Step σ β)} (invariant : σ → Prop) (potential : σ → Nat)
    (left : β → Nat)
    (pays : ∀ state outcome, invariant state → body state = .ok outcome → outcome.Holds
      (fun after => invariant after ∧ potential after + 1 ≤ potential state)
      (fun result => left result ≤ potential state)) :
    ∀ (fuel : Nat) {state : σ} {result : β}, invariant state →
      loop body fuel state = .ok result →
      turns body fuel state + left result ≤ potential state := by
  intro fuel
  induction fuel with
  | zero => intro state result _ equal; cases equal
  | succ fuel ih =>
      intro state result holds equal
      rw [loop, Exec.bind_eq_ok] at equal
      obtain ⟨outcome, turn, rest⟩ := equal
      have paid := pays state outcome holds turn
      cases outcome with
      | next after =>
          rw [turns_next turn]
          have further := ih paid.1 rest
          have lowered := paid.2
          omega
      | done value =>
          cases rest
          rw [turns_done turn, Nat.zero_add]
          exact paid

end Turns

section Sequences

variable {σ : Type u} {ι : Type v}

/-- A sequence of operations leads from one state to another, for a total cost. -/
inductive Spends (step : σ → ι → Nat → σ → Prop) : σ → List ι → Nat → σ → Prop where
  | nil (state : σ) : Spends step state [] 0 state
  | cons {state middle after : σ} {operation : ι} {operations : List ι} {cost rest : Nat}
      (first : step state operation cost middle)
      (further : Spends step middle operations rest after) :
      Spends step state (operation :: operations) (cost + rest) after

/-- The potential method: what the operations cost is at most what they are credited and what
the potential falls by. -/
theorem Spends.amortized {step : σ → ι → Nat → σ → Prop} {state after : σ}
    {operations : List ι} {total : Nat} (spends : Spends step state operations total after)
    {invariant : σ → Prop} {potential : σ → Nat} {credit : ι → Nat} (holds : invariant state)
    (pays : ∀ state operation cost after, invariant state → step state operation cost after →
      invariant after ∧ cost + potential after ≤ potential state + credit operation) :
    total + potential after ≤ potential state + (operations.map credit).sum := by
  induction spends with
  | nil state => exact Nat.le_of_eq (Nat.add_comm _ _)
  | cons first further ih =>
      obtain ⟨kept, paid⟩ := pays _ _ _ _ holds first
      have rest := ih kept
      rw [List.map_cons, List.sum_cons]
      omega

end Sequences

end Lib
