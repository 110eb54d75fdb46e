import Mathlib.Data.List.Chain
import Mathlib.Data.List.Nodup
import Mathlib.Logic.Function.Basic

/-!
# Circular doubly linked lists

Links given by two partial functions form a ring through a head when following them
passes a list of distinct nodes and comes back to the head.  Unlinking a node removes it
from the list, and linking one in front of the head appends it.
-/

namespace Lib

universe u

variable {α : Type u}

/-- `second` follows `first`, in both directions. -/
def Adjacent (next prev : α → Option α) (first second : α) : Prop :=
  next first = some second ∧ prev second = some first

/-- The links form a ring through `head` that passes `nodes` in order. -/
structure Ring (next prev : α → Option α) (head : α) (nodes : List α) : Prop where
  nodup : (head :: nodes).Nodup
  chain : (head :: nodes ++ [head]).IsChain (Adjacent next prev)

variable {next prev nextAfter prevAfter : α → Option α} {head : α} {nodes : List α}

/-- A chain depends on what follows its nodes but the last, and on what precedes its
nodes but the first. -/
theorem isChain_adjacent_congr {cells : List α} (chain : cells.IsChain (Adjacent next prev))
    (sameNext : ∀ node ∈ cells.dropLast, nextAfter node = next node)
    (samePrev : ∀ node ∈ cells.tail, prevAfter node = prev node) :
    cells.IsChain (Adjacent nextAfter prevAfter) := by
  induction cells with
  | nil => exact .nil
  | cons first rest ih =>
      cases rest with
      | nil => exact .singleton first
      | cons second rest =>
          rw [List.isChain_cons_cons] at chain ⊢
          rw [List.dropLast_cons_cons] at sameNext
          rw [List.tail_cons] at samePrev
          constructor
          · exact ⟨(sameNext first List.mem_cons_self).trans chain.1.1,
              (samePrev second List.mem_cons_self).trans chain.1.2⟩
          · apply ih chain.2
            · intro node member
              exact sameNext node (List.mem_cons_of_mem first member)
            · intro node member
              exact samePrev node (List.mem_cons_of_mem second member)

namespace Ring

theorem nil (nextEq : next head = some head) (prevEq : prev head = some head) :
    Ring next prev head [] := by
  constructor
  · simp
  · exact List.isChain_cons_cons.mpr ⟨⟨nextEq, prevEq⟩, .singleton head⟩

theorem head_notMem (ring : Ring next prev head nodes) : head ∉ nodes :=
  (List.nodup_cons.mp ring.nodup).1

/-- Only the links of the head and of the nodes matter. -/
theorem congr (ring : Ring next prev head nodes)
    (sameNext : ∀ node ∈ head :: nodes, nextAfter node = next node)
    (samePrev : ∀ node ∈ head :: nodes, prevAfter node = prev node) :
    Ring nextAfter prevAfter head nodes := by
  constructor
  · exact ring.nodup
  · apply isChain_adjacent_congr ring.chain
    · intro node member
      rw [List.dropLast_concat] at member
      exact sameNext node member
    · intro node member
      rw [List.cons_append, List.tail_cons, List.mem_append, List.mem_singleton] at member
      apply samePrev
      simpa [or_comm] using member

theorem next_head (ring : Ring next prev head nodes) :
    next head = some (nodes.head?.getD head) := by
  have chain := ring.chain
  cases nodes with
  | nil => exact (List.isChain_cons_cons.mp chain).1.1
  | cons first rest => exact (List.isChain_cons_cons.mp chain).1.1

variable [DecidableEq α]

/-- Unlink a node: its neighbours are linked to each other. -/
theorem detach {front back : List α} {node : α}
    (ring : Ring next prev head (front ++ node :: back)) :
    ∃ before after, prev node = some before ∧ next node = some after ∧
      before ∈ head :: front ∧ after ∈ back ++ [head] ∧
      Ring (Function.update next before (some after))
        (Function.update prev after (some before)) head (front ++ back) := by
  obtain ⟨init, before, initEq⟩ : ∃ init before, head :: front = init ++ [before] :=
    ⟨_, _, (List.dropLast_concat_getLast (List.cons_ne_nil head front)).symm⟩
  obtain ⟨after, rest, restEq⟩ := List.exists_cons_of_ne_nil (show back ++ [head] ≠ [] by simp)
  have cells : head :: (front ++ node :: back) ++ [head] =
      init ++ before :: node :: after :: rest := by
    rw [← restEq]
    simpa using congrArg (· ++ node :: (back ++ [head])) initEq
  have chain := ring.chain
  rw [cells, List.isChain_append_cons_cons, List.isChain_cons_cons] at chain
  obtain ⟨initChain, beforeNode, nodeAfter, restChain⟩ := chain
  have nodup := ring.nodup
  have frontNodup : (init ++ [before]).Nodup := by
    rw [← initEq]
    exact nodup.sublist (by simp)
  have backNodup : (after :: rest).Nodup := by
    rw [← restEq]
    grind
  have beforeMem : before ∈ head :: front := by rw [initEq]; simp
  have afterMem : after ∈ back ++ [head] := by rw [restEq]; simp
  have joined : head :: (front ++ back) ++ [head] = init ++ before :: after :: rest := by
    rw [← restEq]
    simpa using congrArg (· ++ (back ++ [head])) initEq
  refine ⟨before, after, beforeNode.2, nodeAfter.1, beforeMem, afterMem, ?_, ?_⟩
  · exact nodup.sublist (by simp)
  · rw [joined, List.isChain_append_cons_cons]
    refine ⟨?_, ⟨Function.update_self .., Function.update_self ..⟩, ?_⟩
    · apply isChain_adjacent_congr initChain
      · intro cell member
        rw [List.dropLast_concat] at member
        apply Function.update_of_ne
        grind
      · intro cell member
        rw [← initEq, List.tail_cons] at member
        apply Function.update_of_ne
        grind
    · apply isChain_adjacent_congr restChain
      · intro cell member
        rw [← restEq, List.dropLast_concat] at member
        apply Function.update_of_ne
        grind
      · intro cell member
        rw [List.tail_cons] at member
        apply Function.update_of_ne
        grind

/-- Link a node in front of the head: it becomes the last one. -/
theorem insertBefore {rookie : α} (ring : Ring next prev head nodes)
    (fresh : rookie ∉ head :: nodes) :
    ∃ last, prev head = some last ∧ last ∈ head :: nodes ∧
      Ring (Function.update (Function.update next last (some rookie)) rookie (some head))
        (Function.update (Function.update prev rookie (some last)) head (some rookie))
        head (nodes ++ [rookie]) := by
  obtain ⟨init, last, initEq⟩ : ∃ init last, head :: nodes = init ++ [last] :=
    ⟨_, _, (List.dropLast_concat_getLast (List.cons_ne_nil head nodes)).symm⟩
  have cells : head :: nodes ++ [head] = init ++ last :: head :: [] := by
    rw [initEq, List.append_assoc]
    rfl
  have chain := ring.chain
  rw [cells, List.isChain_append_cons_cons] at chain
  obtain ⟨initChain, lastHead, -⟩ := chain
  have nodup := ring.nodup
  have initNodup : (init ++ [last]).Nodup := by rwa [← initEq]
  have lastMem : last ∈ head :: nodes := by rw [initEq]; simp
  have joined : head :: (nodes ++ [rookie]) ++ [head] = init ++ last :: rookie :: [head] := by
    simpa using congrArg (· ++ [rookie, head]) initEq
  refine ⟨last, lastHead.2, lastMem, ?_, ?_⟩
  · grind
  · rw [joined, List.isChain_append_cons_cons, List.isChain_cons_cons]
    refine ⟨?_, ⟨?_, ?_⟩, ⟨Function.update_self .., Function.update_self ..⟩, .singleton head⟩
    · apply isChain_adjacent_congr initChain
      · intro cell member
        rw [List.dropLast_concat] at member
        rw [Function.update_of_ne, Function.update_of_ne] <;> grind
      · intro cell member
        rw [← initEq, List.tail_cons] at member
        rw [Function.update_of_ne, Function.update_of_ne] <;> grind
    · rw [Function.update_of_ne, Function.update_self]
      grind
    · rw [Function.update_of_ne, Function.update_self]
      grind

end Ring

end Lib
