import Mathlib.Algebra.Group.Int.Defs
import Mathlib.Algebra.Group.Nat.Defs
import Mathlib.Tactic.Common

/-!
# Executions that may fault

An imperative function is modelled as a Lean function into `Exec`.  An execution
either returns a value or stops with a `Fault`; a proof that a function returns
is therefore also a proof that it dereferences no dead pointer, leaves no array
bound and fails no assertion.

Loops are `loop`, which iterates a body under an explicit bound.  `loop_returns`
is the total-correctness rule (an invariant and a measure below the bound) and
`loop_ok` the partial one.
-/

namespace Lib

universe u v

/-- The ways in which an execution stops without a result. -/
inductive Fault where
  /-- A null or dangling dereference, or an index out of range. -/
  | undefined
  /-- A failed assertion. -/
  | assertion
  /-- The bound of a modelled loop is used up. -/
  | fuel
  deriving DecidableEq, Repr

/-- A computation that returns a value or faults. -/
abbrev Exec (α : Type u) := Except Fault α

namespace Exec

variable {α β γ : Type u}

@[simp] theorem ok_bind (value : α) (rest : α → Exec β) :
    (Except.ok value : Exec α) >>= rest = rest value := rfl

@[simp] theorem error_bind (fault : Fault) (rest : α → Exec β) :
    (Except.error fault : Exec α) >>= rest = .error fault := rfl

@[simp] theorem pure_eq_ok (value : α) : (pure value : Exec α) = .ok value := rfl

theorem bind_eq_ok {first : Exec α} {rest : α → Exec β} {result : β} :
    first >>= rest = .ok result ↔
      ∃ value, first = .ok value ∧ rest value = .ok result := by
  cases first with
  | error fault => simp
  | ok value => simp

/-- Read through a pointer that may be null. -/
def deref : Option α → Exec α
  | some value => .ok value
  | none => .error .undefined

@[simp] theorem deref_some (value : α) : deref (some value) = .ok value := rfl

@[simp] theorem deref_none : deref (none : Option α) = .error .undefined := rfl

/-- `assert(condition)`. -/
def assert (condition : Bool) : Exec PUnit.{u + 1} :=
  if condition then .ok ⟨⟩ else .error .assertion

@[simp] theorem assert_true : assert.{u} true = .ok ⟨⟩ := rfl

@[simp] theorem assert_false : assert.{u} false = .error .assertion := rfl

theorem assert_of {condition : Prop} [Decidable condition] (holds : condition) :
    assert.{u} (decide condition) = .ok ⟨⟩ := by
  rw [decide_eq_true holds]
  rfl

theorem assert_eq_ok {condition : Bool} {result : PUnit.{u + 1}} :
    assert.{u} condition = .ok result ↔ condition = true := by
  cases condition <;> simp [assert]

/-- Total correctness: the execution returns, and its result satisfies `post`. -/
def Returns (run : Exec α) (post : α → Prop) : Prop :=
  ∃ value, run = .ok value ∧ post value

theorem Returns.of_ok {value : α} {post : α → Prop} (holds : post value) :
    Returns (.ok value) post :=
  ⟨value, rfl, holds⟩

@[simp] theorem returns_ok {value : α} {post : α → Prop} :
    Returns (.ok value) post ↔ post value := by
  simp [Returns]

/-- Weaken the postcondition of an execution. -/
theorem Returns.mono {run : Exec α} {post weaker : α → Prop}
    (returns : Returns run post) (implies : ∀ value, post value → weaker value) :
    Returns run weaker := by
  obtain ⟨value, equal, holds⟩ := returns
  exact ⟨value, equal, implies value holds⟩

/-- Sequence rule: the postcondition of the first part is the precondition of
the second. -/
theorem Returns.bind {first : Exec α} {rest : α → Exec β}
    {middle : α → Prop} {post : β → Prop} (returns : Returns first middle)
    (continues : ∀ value, middle value → Returns (rest value) post) :
    Returns (first >>= rest) post := by
  obtain ⟨value, equal, holds⟩ := returns
  rw [equal, ok_bind]
  exact continues value holds

theorem Returns.of_eq_ok {run : Exec α} {post : α → Prop} {value : α}
    (returns : Returns run post) (equal : run = .ok value) : post value := by
  obtain ⟨other, otherEq, holds⟩ := returns
  rw [equal] at otherEq
  cases otherEq
  exact holds

/-- A loop without a result passes exactly when every turn does. -/
theorem forM_eq_ok {ι : Type v} {turns : List ι} {turn : ι → Exec PUnit.{u + 1}} :
    forM turns turn = .ok ⟨⟩ ↔ ∀ index ∈ turns, turn index = .ok ⟨⟩ := by
  induction turns with
  | nil => simp
  | cons index turns ih =>
      rw [List.forM_cons, bind_eq_ok, List.forall_mem_cons, ← ih]
      constructor
      · rintro ⟨⟨⟩, first, rest⟩
        exact ⟨first, rest⟩
      · rintro ⟨first, rest⟩
        exact ⟨⟨⟩, first, rest⟩

end Exec

/-! ## Loops -/

/-- What one turn of a loop decides: another turn, or the result. -/
inductive Step (σ : Type u) (β : Type v) where
  | next (state : σ)
  | done (result : β)
  deriving Repr

namespace Step

variable {σ : Type u} {β : Type v}

/-- `invariant` for a further turn, `post` for a result. -/
def Holds (invariant : σ → Prop) (post : β → Prop) : Step σ β → Prop
  | .next state => invariant state
  | .done result => post result

@[simp] theorem holds_next {invariant : σ → Prop} {post : β → Prop} {state : σ} :
    Holds invariant post (.next state) ↔ invariant state := Iff.rfl

@[simp] theorem holds_done {invariant : σ → Prop} {post : β → Prop} {result : β} :
    Holds invariant post (.done result : Step σ β) ↔ post result := Iff.rfl

end Step

section Loop

variable {σ β : Type u}

/-- Repeat `body` until it is done, for at most `fuel` turns. -/
def loop (body : σ → Exec (Step σ β)) : Nat → σ → Exec β
  | 0, _ => .error .fuel
  | fuel + 1, state =>
      body state >>= fun outcome =>
        match outcome with
        | .next state => loop body fuel state
        | .done result => .ok result

theorem loop_next {body : σ → Exec (Step σ β)} {state after : σ}
    (turn : body state = .ok (.next after)) (fuel : Nat) :
    loop body (fuel + 1) state = loop body fuel after := by
  simp [loop, turn]

theorem loop_done {body : σ → Exec (Step σ β)} {state : σ} {result : β}
    (turn : body state = .ok (.done result)) (fuel : Nat) :
    loop body (fuel + 1) state = .ok result := by
  simp [loop, turn]

/-- Total correctness of a loop.  Every turn returns, keeps the invariant and
decreases the measure, or ends with the postcondition; a bound above the measure
is then never used up. -/
theorem loop_returns {body : σ → Exec (Step σ β)} (invariant : σ → Prop)
    (measure : σ → Nat) {post : β → Prop}
    (turn : ∀ state, invariant state →
      Exec.Returns (body state) (Step.Holds
        (fun after => invariant after ∧ measure after < measure state) post)) :
    ∀ (fuel : Nat) (state : σ), invariant state → measure state < fuel →
      Exec.Returns (loop body fuel state) post := by
  intro fuel
  induction fuel with
  | zero => intro state _ below; exact absurd below (Nat.not_lt_zero _)
  | succ fuel ih =>
      intro state holds below
      obtain ⟨outcome, equal, progress⟩ := turn state holds
      cases outcome with
      | next after =>
          rw [loop_next equal]
          exact ih after progress.1 (by have := progress.2; omega)
      | done result =>
          rw [loop_done equal]
          exact .of_ok progress

/-- Partial correctness of a loop: an invariant of the turns gives the
postcondition of whatever the loop returns. -/
theorem loop_ok {body : σ → Exec (Step σ β)} (invariant : σ → Prop)
    {post : β → Prop}
    (turn : ∀ state outcome, invariant state → body state = .ok outcome →
      outcome.Holds invariant post) :
    ∀ (fuel : Nat) {state : σ} {result : β}, invariant state →
      loop body fuel state = .ok result → post result := by
  intro fuel
  induction fuel with
  | zero => intro state result _ equal; simp [loop] at equal
  | succ fuel ih =>
      intro state result holds equal
      rw [loop, Exec.bind_eq_ok] at equal
      obtain ⟨outcome, bodyEq, restEq⟩ := equal
      have progress := turn state outcome holds bodyEq
      cases outcome with
      | next after => exact ih progress restEq
      | done value =>
          cases restEq
          exact progress

/-- The states that a loop passes through. -/
inductive Passes (body : σ → Exec (Step σ β)) (start : σ) : σ → Prop where
  | start : Passes body start start
  | next {state after : σ} (passes : Passes body start state)
      (turn : body state = .ok (.next after)) : Passes body start after

/-- An invariant of the turns holds in every state that a loop passes through. -/
theorem Passes.holds {body : σ → Exec (Step σ β)} {start state : σ}
    (passes : Passes body start state) (invariant : σ → Prop) (holds : invariant start)
    (turn : ∀ state after, invariant state → body state = .ok (.next after) → invariant after) :
    invariant state := by
  induction passes with
  | start => exact holds
  | next _ turnEq ih => exact turn _ _ ih turnEq

end Loop

end Lib
