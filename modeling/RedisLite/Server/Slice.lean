import RedisLite.Avl.Offset
import RedisLite.Server.Walk

/-!
# The slice of ZQUERY

While the counts of the tree are exact, the nodes that ZQUERY passes are a slice of the
sorted sequence of the tuples.
-/

namespace RedisLite

open Lib Lib.Tree

variable {D : Type} [Dbl D]

/-! ## The tuples of the tree -/

theorem ZSet.Holds.tuples_eq {zset : ZSet D} {tree : BinaryTree Ptr} {cells : List (ZNode D)}
    (holds : zset.Holds tree cells) {members : Members D}
    (entries : members.entries = ↑(cells.map ZNode.entry)) :
    members.tuples = cells.map ZNode.sortKey := by
  apply Members.tuples_eq
  · rw [entries, Multiset.map_coe, List.map_map]
    rfl
  · rw [List.pairwise_map]
    exact holds.sorted.imp le_of_lt

/-! ## The nodes -/

namespace ZSet.Holds

variable {zset : ZSet D} {tree : BinaryTree Ptr} {cells : List (ZNode D)}

theorem znodeOffset_eq (holds : zset.Holds tree cells) (small : tree.numNodes < 2 ^ 32)
    {front back : List Ptr} {node : Ptr} (split : inorder tree = front ++ node :: back)
    (offset : Int) : zset.znodeOffset (some node) offset =
      .ok (atRank (inorder tree) (front.length + offset)) := by
  have found : (inorder tree)[front.length]? = some node := by
    rw [split]
    simp
  obtain ⟨result, eq, -, exact⟩ := avlOffset_spec holds.avl found offset
  rw [← exact small]
  exact eq

/-- A walk passes the nodes of the rest of the sequence. -/
theorem walk_eq (holds : zset.Holds tree cells) (small : tree.numNodes < 2 ^ 32) :
    ∀ (count : Nat) (passed queue : List Ptr) (listed : List (ZNode D)),
      inorder tree = passed ++ queue → zset.node.Reads queue listed →
        zset.walk count queue.head? = .ok (listed.take count)
  | 0, _, _, _, _, _ => rfl
  | _ + 1, _, [], listed, _, reads => by
      obtain rfl : listed = [] := List.length_eq_zero_iff.mp reads.length_eq.symm
      rfl
  | count + 1, passed, node :: queue, listed, split, reads => by
      obtain ⟨cell, rest, rfl, live, restReads⟩ := reads.exists_cons
      have next : zset.znodeOffset (some node) 1 = .ok queue.head? := by
        have index : ((passed.length : Int) + 1).toNat = passed.length + 1 := by omega
        rw [holds.znodeOffset_eq small split 1, atRank, if_pos (by omega), index, split,
          List.getElem?_append_right (by omega), Nat.add_sub_cancel_left,
          List.getElem?_cons_succ, List.head?_eq_getElem?]
      have walkEq := holds.walk_eq small count (passed ++ [node]) queue rest
        (by rw [split, List.append_cons]) restReads
      simp only [List.head?_cons, ZSet.walk, Mem.read_eq live, Exec.ok_bind, next, walkEq,
        Exec.pure_eq_ok, List.take_succ_cons]

/-- The node that `zset_seekge` and `znode_offset` find is the first one of the slice. -/
theorem zsetSeekge_slice (holds : zset.Holds tree cells) (small : tree.numNodes < 2 ^ 32)
    {members : Members D} (entries : members.entries = ↑(cells.map ZNode.entry)) (score : D)
    (name : Bytes) (offset : Int) {limit : Int} (positive : ¬ limit ≤ 0) :
    ∃ found passed queue listed, zset.zsetSeekge score name = .ok found ∧
      zset.znodeOffset found offset = .ok queue.head? ∧ inorder tree = passed ++ queue ∧
      zset.node.Reads queue listed ∧
      (listed.take ((limit.toNat + 1) / 2)).map ZNode.sortKey =
        zquerySlice members.tuples score name offset limit := by
  obtain ⟨front, back, lower, upper, seekEq, nodesEq, cellsEq, frontReads, backReads, below,
    above⟩ := holds.zsetSeekge_spec score name
  have tuplesEq := holds.tuples_eq entries
  have rank : members.tuples.countP (fun tuple => decide (tuple < toLex (score, name))) =
      lower.length := by
    rw [tuplesEq, cellsEq, List.map_append, List.countP_append, List.countP_eq_length.mpr,
      List.countP_eq_zero.mpr, List.length_map, Nat.add_zero]
    · simpa using above
    · simpa using below
  unfold zquerySlice
  rw [rank, tuplesEq, List.length_map, cellsEq]
  cases back with
  | nil =>
      obtain rfl : upper = [] := List.length_eq_zero_iff.mp backReads.length_eq.symm
      exact ⟨none, inorder tree, [], [], seekEq, rfl, by simp, .nil _, by simp⟩
  | cons node back =>
      have someAbove : upper ≠ [] := by
        rintro rfl
        cases backReads.length_eq
      have offsetEq := holds.znodeOffset_eq small nodesEq offset
      rw [frontReads.length_eq] at offsetEq
      by_cases before : (lower.length : Int) + offset < 0
      · refine ⟨some node, inorder tree, [], [], seekEq, ?_, by simp, .nil _, by simp [before]⟩
        rw [offsetEq, atRank, if_neg (by omega)]
        rfl
      · refine ⟨some node, (inorder tree).take ((lower.length : Int) + offset).toNat,
          (inorder tree).drop ((lower.length : Int) + offset).toNat,
          cells.drop ((lower.length : Int) + offset).toNat, seekEq, ?_,
          (List.take_append_drop _ _).symm, ?_, ?_⟩
        · rw [offsetEq, atRank, if_pos (by omega), List.head?_drop]
        · rw [Mem.Reads, List.map_drop, holds.reads, List.map_drop]
        · rw [if_neg (by simp [positive, someAbove, before]), ← cellsEq, List.map_take,
            List.map_drop]

/-- ZQUERY lists the nodes of the slice. -/
theorem zqueryNodes_slice (holds : zset.Holds tree cells) (small : cells.length < 2 ^ 32)
    {members : Members D} (entries : members.entries = ↑(cells.map ZNode.entry)) (score : D)
    (name : Bytes) (offset limit : Int) :
    Exec.Returns (zqueryNodes zset score name offset limit) fun nodes =>
      nodes.map ZNode.sortKey = zquerySlice members.tuples score name offset limit := by
  have size : tree.numNodes < 2 ^ 32 := by
    rw [holds.numNodes_eq]
    omega
  unfold zqueryNodes
  by_cases empty : limit ≤ 0
  · rw [if_pos empty, zquerySlice, if_pos (.inl empty)]
    exact .of_ok rfl
  · obtain ⟨found, passed, queue, listed, seekEq, offsetEq, split, reads, slice⟩ :=
      holds.zsetSeekge_slice size entries score name offset empty
    simp only [if_neg empty, seekEq, Exec.ok_bind, offsetEq,
      holds.walk_eq size _ passed queue listed split reads, Exec.returns_ok]
    exact slice

end ZSet.Holds

end RedisLite
