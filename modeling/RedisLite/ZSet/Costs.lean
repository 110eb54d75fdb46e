import RedisLite.Avl.Offset
import RedisLite.Lib.Amortized
import RedisLite.ZSet.Map

/-!
# The cost of walks in the tree

The tree of a sorted set is balanced, so every walk in it is short: the search for a place or
a tuple, the repair after an insertion, and the climb and descent of `avl_offset`, however
far away its target is and also when there is none.
-/

namespace RedisLite

open Lib Lib.Tree

variable {D : Type}

namespace ZSet

/-! ## What a walk costs -/

/-- The turns of the loop in `avl_offset`. -/
def offsetTurns (zset : ZSet D) (node : Ptr) (offset : Int) : Nat :=
  turns (avlOffsetTurn zset.tree offset) (2 * zset.tree.next + 2) (node, 0)

variable [LinearOrder D]

/-- The turns of the loop in `zset_seekge`. -/
def seekgeTurns (zset : ZSet D) (score : D) (name : Bytes) : Nat :=
  turns (zset.zsetSeekgeTurn score name) (zset.tree.next + 1) (none, zset.root)

/-- `tree_insert` up to its call of `avl_fix`. -/
def treeAttach (zset : ZSet D) (node : Ptr) : Exec AVLMem := do
  let (slot, parent) ← loop (zset.treeInsertTurn node) (zset.tree.next + 1) (.local, none)
  let tree ← slot.store zset.tree (some node)
  setParent tree (some node) parent

/-- The turns of the loops in `tree_insert` and in the `avl_fix` it calls. -/
def treeInsertTurns (zset : ZSet D) (node : Ptr) : Nat :=
  turns (zset.treeInsertTurn node) (zset.tree.next + 1) (.local, none) +
    match zset.treeAttach node with
    | .ok tree => turns avlFixTurn (tree.next + 1) (tree, node)
    | .error _ => 0

namespace Holds

variable {zset : ZSet D} {tree : BinaryTree Ptr} {cells : List (ZNode D)}

theorem height_le (holds : Holds zset tree cells) {bits : Nat}
    (small : cells.length + 1 ≤ 2 ^ bits) : tree.height ≤ 2 * bits + 1 :=
  holds.avl.balanced.height_le bits (by rwa [holds.numNodes_eq])

theorem seekgeTurns_le (holds : Holds zset tree cells) (score : D) (name : Bytes) :
    zset.seekgeTurns score name ≤ tree.height := by
  have walk := @zsetSeekgeLoop_eq D _ zset score name tree [] none (tree.height + 1)
    holds.avl.represents
    (fun other member => (holds.reads.exists_value member).imp fun _ found => found.2)
    (Nat.lt_succ_self _)
  rw [← holds.root_eq] at walk
  exact Nat.le_of_lt_succ (turns_lt walk _)

theorem offsetTurns_le (holds : Holds zset tree cells) {node : Ptr} (member : node ∈ inorder tree)
    (offset : Int) : zset.offsetTurns node offset ≤ 2 * tree.height := by
  obtain ⟨path, left, right, rfl⟩ := exists_plug member
  have depth := path.le_height (BinaryTree.node node left right).height
  rw [← Path.height_plug] at depth
  obtain ⟨found, walk, -⟩ := @avlOffset_climbs zset.tree path node left right 0 offset
    (2 * (Path.plug path (.node node left right)).height + 1) holds.avl.represents.counted
    holds.avl.nodup (by omega)
  exact Nat.le_of_lt_succ (turns_lt walk _)

/-- Searching the place of a new node, and repairing the tree from there. -/
theorem treeInsertTurns_le (holds : Holds zset tree cells) (small : cells.length < 2 ^ 64)
    (name : Bytes) (score : D) :
    (zset.znodeNew name score).1.treeInsertTurns zset.node.next ≤ 2 * tree.height := by
  let node := zset.node.next
  let new : ZNode D := { hcode := strHash name, score := score, name := name }
  let zset₁ : ZSet D := (zset.znodeNew name score).1
  have dead : node ∉ inorder tree := by
    intro member
    obtain ⟨cell, -, live⟩ := holds.reads.exists_value member
    rw [zset.node.alloc_dead] at live
    cases live
  have avl₁ : AVLTree zset₁.tree tree :=
    ⟨holds.avl.represents.put dead _, holds.avl.nodup, holds.avl.balanced⟩
  have live : zset₁.node.cell node = some new := Mem.put_self _ _ _
  have treeLive : zset₁.tree.cell node = some avlInit := Mem.put_self _ _ _
  have reads : zset₁.node.Reads (inorder tree) cells := holds.reads.put dead new
  have load : zset₁.load (slotAt []) = .ok (Tree.root tree) := congrArg Except.ok holds.root_eq
  have walk := fun fuel enough => @treeInsertLoop_eq D _ zset₁ node new live tree [] fuel
    avl₁.represents load
    (fun other member => (reads.exists_value member).imp fun _ found => found.2) enough
  have searched := Nat.le_of_lt_succ
    (turns_lt (walk (tree.height + 1) (Nat.lt_succ_self _)) (zset₁.tree.next + 1))
  have enough : tree.height < zset₁.tree.next + 1 := by
    have short := Mem.length_le_next avl₁.nodup fun other => avl₁.live
    rw [inorder_length] at short
    have := tree.height_le_numNodes
    omega
  have found := walk (zset₁.tree.next + 1) enough
  have plugged : Path.plug (Path.search (zset₁.Holding (notAbove new)) tree []) .nil = tree :=
    Path.plug_search _ tree []
  generalize Path.search (zset₁.Holding (notAbove new)) tree [] = inner at *
  have outside : node ∉ Path.others inner := by
    intro member
    rw [← plugged, Path.mem_inorder_plug] at dead
    exact dead (.inr member)
  have few : (Path.plug inner .nil).numNodes < 2 ^ 64 := by
    rw [plugged, holds.numNodes_eq]
    exact small
  obtain ⟨mem₁, mem₂, storeEq, parentEq, climbing, -⟩ :=
    attach_climbing (plugged.symm ▸ avl₁) few treeLive outside
  obtain ⟨fixed, fix, -⟩ := climbing.loop_spec (Nat.lt_succ_self inner.length)
  have repaired := Nat.le_of_lt_succ (turns_lt fix (mem₂.next + 1))
  have attached : zset₁.treeAttach node = .ok mem₂ := by
    have found : loop (zset₁.treeInsertTurn node) (zset₁.tree.next + 1) (.local, none) =
        .ok (slotAt inner, Path.parent inner) := found
    rw [treeAttach, found, Exec.ok_bind]
    show ((slotAt inner).store zset₁.tree (some node) >>= _) = _
    rw [storeEq, Exec.ok_bind]
    exact parentEq
  have depth := inner.le_height (BinaryTree.nil : BinaryTree Ptr).height
  rw [← Path.height_plug, plugged] at depth
  have searched : turns (zset₁.treeInsertTurn node) (zset₁.tree.next + 1) (.local, none) ≤
      tree.height := searched
  show zset₁.treeInsertTurns node ≤ _
  simp only [treeInsertTurns, attached]
  omega

end Holds

/-- Walks in a sorted set of fewer than `2 ^ bits` members are logarithmic: `zset_seekge` for
any tuple, `avl_offset` from any member by any offset, also to a place outside the set, and
`tree_insert` of any tuple with the `avl_fix` it calls. -/
theorem zset_walks_logarithmic {zset : ZSet D} {members : Members D}
    (reached : Reached zset members) {bits : Nat} (small : members.keys.card < 2 ^ bits) :
    (∀ score name, zset.seekgeTurns score name ≤ 2 * bits + 1) ∧
    (∀ node cell, zset.node.cell node = some cell → ∀ offset : Int,
      zset.offsetTurns node offset ≤ 4 * bits + 2) ∧
    ∀ name score, (zset.znodeNew name score).1.treeInsertTurns (zset.znodeNew name score).2 ≤
      4 * bits + 2 := by
  obtain ⟨⟨tree, cells, holds, entries⟩, few⟩ := reached.denotes
  rw [Denotes.card_eq entries] at small few
  have height := holds.height_le small
  refine ⟨?_, ?_, ?_⟩
  · intro score name
    exact (holds.seekgeTurns_le score name).trans height
  · intro node cell live offset
    have turns := holds.offsetTurns_le (holds.owned node cell live) offset
    omega
  · intro name score
    have turns := holds.treeInsertTurns_le (by omega) name score
    show (zset.znodeNew name score).1.treeInsertTurns zset.node.next ≤ _
    omega

/-- A set of three members, after a change of a score and a deletion. -/
theorem zset_walks_logarithmic_changes : ∃ (zset : ZSet Int) (cell : ZNode Int),
    Reached zset changedMembers ∧ zset.seekgeTurns 6 [99] ≤ 5 ∧
    zset.node.cell 0 = some cell ∧ cell.score = 7 ∧ zset.offsetTurns 0 (-2) ≤ 10 ∧
    (zset.znodeNew [101] 6).1.treeInsertTurns (zset.znodeNew [101] 6).2 ≤ 10 := by
  obtain ⟨zset, cell, reached, live, -, score⟩ := Reached.changes
  obtain ⟨seeks, offsets, inserts⟩ :=
    @zset_walks_logarithmic Int _ zset _ reached 2 (by decide)
  exact ⟨zset, cell, reached, seeks 6 [99], live, score, offsets 0 cell live (-2),
    inserts [101] 6⟩

end ZSet

end RedisLite
