import RedisLite.HashTable.Load

/-!
# Enumeration

`hm_foreach` calls its callback on the nodes of both tables, at any point of a migration,
until the callback returns false.
-/

namespace RedisLite

open Lib

variable {α σ : Type}

/-! ## Callbacks -/

/-- The callback `f` with a log of its calls and answers. -/
def logged (f : HNode α → σ → Bool × σ) (node : HNode α) :
    σ × List (HNode α × Bool) → Exec (Bool × (σ × List (HNode α × Bool)))
  | (arg, log) => .ok ((f node arg).1, (f node arg).2, log ++ [(node, (f node arg).1)])

/-- The calls of a walk over nodes: all nodes, each with the answer true, or those up to and
including the first node with the answer false. -/
def Walked (nodes : List (HNode α)) (log : List (HNode α × Bool)) : Bool → Prop
  | true => log = nodes.map fun node => (node, true)
  | false => ∃ front node rest, nodes = front ++ node :: rest ∧
      log = front.map (fun node => (node, true)) ++ [(node, false)]

/-- A call that returns true before the calls of a walk. -/
theorem Walked.cons {nodes : List (HNode α)} {log : List (HNode α × Bool)} {goOn : Bool}
    (walked : Walked nodes log goOn) (node : HNode α) :
    Walked (node :: nodes) ((node, true) :: log) goOn := by
  cases goOn with
  | true =>
      have all : log = nodes.map fun node => (node, true) := walked
      show (node, true) :: log = (node :: nodes).map fun node => (node, true)
      rw [all, List.map_cons]
  | false =>
      obtain ⟨front, last, rest, split, logEq⟩ := walked
      refine ⟨node :: front, last, rest, ?_, ?_⟩
      · rw [split, List.cons_append]
      · rw [logEq, List.map_cons, List.cons_append]

/-! ## The walk -/

/-- What a walk does with a logged callback: its calls, and false only as an answer of the
callback. -/
structure Walks (f : HNode α → σ → Bool × σ) (nodes : List (HNode α))
    (log : List (HNode α × Bool)) (result : Bool × (σ × List (HNode α × Bool))) : Prop where
  calls : ∃ new, result.2.2 = log ++ new ∧ Walked nodes new result.1
  answered : result.1 = false → ∃ node arg, (f node arg).1 = false

variable {f : HNode α → σ → Bool × σ}

theorem hForeachNodes_walks (nodes : List (HNode α)) (arg : σ) (log : List (HNode α × Bool)) :
    Exec.Returns (hForeachNodes (logged f) nodes (arg, log)) (Walks f nodes log) := by
  induction nodes generalizing arg log with
  | nil => exact .of_ok ⟨⟨[], by simp, rfl⟩, by simp⟩
  | cons node rest ih =>
      simp only [hForeachNodes, logged, Exec.ok_bind]
      cases answer : (f node arg).1 with
      | false =>
          simp only [Bool.false_eq_true, if_false, Exec.pure_eq_ok, Exec.returns_ok]
          exact ⟨⟨[(node, false)], rfl, [], node, rest, rfl, rfl⟩, fun _ => ⟨node, arg, answer⟩⟩
      | true =>
          rw [if_pos rfl]
          apply (ih (f node arg).2 (log ++ [(node, true)])).mono
          rintro result ⟨⟨new, logEq, walked⟩, answered⟩
          refine ⟨⟨(node, true) :: new, ?_, walked.cons node⟩, answered⟩
          rw [logEq, List.append_assoc]
          rfl

theorem hmForeach_walks {hmap : HMap α} (valid : hmap.Valid) (arg : σ) :
    ∃ argAfter log goOn, hmForeach hmap (logged f) (arg, []) = .ok (argAfter, log) ∧
      Walked hmap.nodes log goOn ∧ (goOn = false → ∃ node arg, (f node arg).1 = false) := by
  obtain ⟨⟨goOn, argAfter, log⟩, walkEq, ⟨new, logEq, walked⟩, answered⟩ :=
    hForeachNodes_walks (f := f) hmap.nodes arg []
  cases logEq
  refine ⟨argAfter, log, goOn, ?_, walked, answered⟩
  rw [valid.hmForeach_eq, walkEq]
  rfl

end RedisLite
