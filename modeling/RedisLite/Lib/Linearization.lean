import Mathlib.Data.List.Induction
import Mathlib.Tactic.Common

/-!
# Sequential objects

A sequential object performs one action at a time.  A concurrent system is explained by
an order of the actions of all its clients that the object can perform one after the other
and in which every client finds its own actions in its own order.
-/

namespace Lib

universe u v w

/-- An object with its actions; an action may be possible in some states only. -/
structure Atomic (σ : Type u) (α : Type v) where
  start : σ
  step : σ → α → σ → Prop

namespace Atomic

variable {σ : Type u} {α : Type v} {object : Atomic σ α}

/-- The object performs the actions one after the other. -/
inductive Performs (object : Atomic σ α) : List α → σ → Prop where
  | start : Performs object [] object.start
  | snoc {order : List α} {state after : σ} {action : α} (performs : Performs object order state)
      (step : object.step state action after) : Performs object (order ++ [action]) after

/-- The last action leads to the state. -/
theorem Performs.last {order : List α} {action : α} {state : σ}
    (performs : object.Performs (order ++ [action]) state) :
    ∃ before, object.Performs order before ∧ object.step before action state := by
  obtain ⟨whole, isWhole⟩ : ∃ whole, whole = order ++ [action] := ⟨_, rfl⟩
  rw [← isWhole] at performs
  cases performs with
  | start => exact absurd isWhole (by simp)
  | snoc performs step =>
      obtain ⟨rfl, same⟩ := List.append_inj' isWhole rfl
      cases same
      exact ⟨_, performs, step⟩

/-- Every action is performed in the state that the actions before it leave. -/
theorem Performs.split {front back : List α} {action : α} {state : σ}
    (performs : object.Performs (front ++ action :: back) state) :
    ∃ before after, object.Performs front before ∧ object.step before action after := by
  induction back using List.reverseRec generalizing state with
  | nil =>
      obtain ⟨before, performs, step⟩ := performs.last
      exact ⟨before, state, performs, step⟩
  | append_singleton back last ih =>
      rw [← List.cons_append, ← List.append_assoc] at performs
      obtain ⟨before, performs, -⟩ := performs.last
      exact ih performs

/-- What holds after some actions and is kept by each of the following ones holds at the
end. -/
theorem Performs.keeps {front back : List α} {state : σ}
    (performs : object.Performs (front ++ back) state) (holds : σ → Prop)
    (first : ∀ before, object.Performs front before → holds before)
    (kept : ∀ action ∈ back, ∀ before after, object.step before action after → holds before →
      holds after) : holds state := by
  induction back using List.reverseRec generalizing state with
  | nil =>
      rw [List.append_nil] at performs
      exact first state performs
  | append_singleton back last ih =>
      rw [← List.append_assoc] at performs
      rw [List.forall_mem_append] at kept
      obtain ⟨before, performs, step⟩ := performs.last
      exact kept.2 last (List.mem_singleton_self last) _ _ step (ih performs kept.1)

/-! ## The actions of a client -/

variable {ι : Type w} [DecidableEq ι] (owner : α → Option ι)

/-- The actions of one client, in their order. -/
def own (client : ι) (order : List α) : List α :=
  order.filter fun action => decide (owner action = some client)

@[simp] theorem own_nil (client : ι) : own owner client [] = [] := rfl

@[simp] theorem own_append (client : ι) (front back : List α) :
    own owner client (front ++ back) = own owner client front ++ own owner client back :=
  List.filter_append ..

variable {owner}

theorem own_eq_self {client : ι} {order : List α}
    (owned : ∀ action ∈ order, owner action = some client) : own owner client order = order :=
  List.filter_eq_self.mpr fun action member => decide_eq_true (owned action member)

theorem own_eq_nil {client : ι} {order : List α}
    (others : ∀ action ∈ order, owner action ≠ some client) : own owner client order = [] := by
  apply List.filter_eq_nil_iff.mpr
  intro action member isOwn
  exact others action member (of_decide_eq_true isOwn)

end Atomic

end Lib
