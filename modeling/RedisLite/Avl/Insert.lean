import RedisLite.Avl.Fix

/-!
# Attaching a node

`AVLTree` is the invariant of a whole tree.  Hanging a fresh node in an empty
position and calling `avl_fix` on it keeps the invariant and inserts the node at
that position of the in-order sequence.
-/

namespace RedisLite

open Lib Lib.Tree

/-- The memory holds a valid AVL tree: right links, heights and counts, distinct
nodes, balance at every node. -/
structure AVLTree (mem : AVLMem) (tree : BinaryTree Ptr) : Prop where
  represents : Represents mem none tree
  nodup : (inorder tree).Nodup
  balanced : Balanced tree

namespace AVLTree

variable {mem : AVLMem} {tree : BinaryTree Ptr}

theorem nil (mem : AVLMem) : AVLTree mem .nil :=
  ⟨trivial, List.nodup_nil, trivial⟩

theorem live (valid : AVLTree mem tree) {node : Ptr} (member : node ∈ inorder tree) :
    ∃ cell, mem.cell node = some cell :=
  valid.represents.live member

theorem height_le (valid : AVLTree mem tree) (small : tree.numNodes < 2 ^ 64) :
    tree.height ≤ 129 :=
  valid.balanced.height_le 64 (by omega)

end AVLTree

/-- The stores of `tree_insert` hang the new node in the empty position `path` leads to,
and `avl_fix` starts there. -/
theorem attach_climbing {mem : AVLMem} {path : Path Ptr} {node : Ptr}
    (valid : AVLTree mem (Path.plug path .nil)) (small : (Path.plug path .nil).numNodes < 2 ^ 64)
    (live : mem.cell node = some avlInit) (outside : node ∉ Path.others path) :
    ∃ mem₁ mem₂, (slotAt path).store mem (some node) = .ok mem₁ ∧
      setParent mem₁ (some node) (Path.parent path) = .ok mem₂ ∧
      Climbing mem₂ node path (.node node .nil .nil) 0 ∧
      Mem.SameOutside (inorder (Path.plug path (.node node .nil .nil))) mem mem₂ := by
  obtain ⟨-, around⟩ := represents_plug.mp valid.represents
  obtain ⟨othersNodup, -, -⟩ := Path.nodup_plug.mp valid.nodup
  have height := valid.height_le small
  rw [Path.height_plug] at height
  obtain ⟨mem₁, eq₁, around₁, same₁⟩ := store_spec around.around othersNodup (some node)
  have live₁ : mem₁.cell node = some avlInit := by
    rw [same₁.cell node fun isParent => outside (Path.parent_subset_others path isParent), live]
  let mem₂ := mem₁.put node { avlInit with parent := Path.parent path }
  have same₂ : Mem.SameOutside [node] mem₁ mem₂ := .put live₁ _
  have around₂ : Around mem₂ (some node) path :=
    around₁.outside same₂ fun other member => by
      simpa using fun equal : other = node => outside (equal ▸ member)
  have stale₂ : Stale mem₂ (Path.parent path) (.node node .nil .nil) :=
    ⟨⟨1, 1, Mem.put_self _ _ _⟩, trivial, trivial⟩
  have nodup₂ : (inorder (Path.plug path (.node node .nil .nil))).Nodup := by
    rw [Path.nodup_plug]
    exact ⟨othersNodup, by simp, by simpa using outside⟩
  have repairable : path.Repairable (.node node .nil .nil) 0 :=
    .of_balanced (by simp) (by simp) (by simp) (Path.balanced_plug.mp valid.balanced).2
  have parentMem : (Path.parent path).toList ⊆
      inorder (Path.plug path (.node node .nil .nil)) := fun other member =>
    Path.mem_inorder_plug.mpr (.inr (Path.parent_subset_others path member))
  have nodeMem : [node] ⊆ inorder (Path.plug path (.node node .nil .nil)) := by
    simp [Path.mem_inorder_plug]
  refine ⟨mem₁, mem₂, eq₁, Mem.modify_eq live₁ _, ⟨root_node node .nil .nil, stale₂, around₂,
    nodup₂, repairable, ?_⟩, (same₁.mono _ parentMem).trans (same₂.mono _ nodeMem)⟩
  simp only [BinaryTree.height] at height
  omega

theorem inorder_attach (path : Path Ptr) (node : Ptr) :
    inorder (Path.climb path (.node node .nil .nil)) =
      Path.before path ++ node :: Path.after path := by
  simp [Path.inorder_climb, Path.inorder_plug]

/-- `avl_fix` on the new node inserts it at the position `path` leads to. -/
theorem Climbing.attached {mem : AVLMem} {path : Path Ptr} {node : Ptr}
    (climbing : Climbing mem node path (.node node .nil .nil) 0) :
    Exec.Returns (avlFix mem node) fun result => ∃ tree,
      root tree = some result.2 ∧ AVLTree result.1 tree ∧
        inorder tree = Path.before path ++ node :: Path.after path ∧
        Mem.SameOutside (inorder tree) mem result.1 := by
  obtain ⟨⟨after, top⟩, eq, isRoot, holds, same⟩ := climbing.avlFix_spec
  refine ⟨_, eq, _, isRoot, ⟨holds, ?_, climbing.repairable.balanced_climb⟩,
    inorder_attach path node, ?_⟩
  · rw [Path.inorder_climb]
    exact climbing.nodup
  · rwa [Path.inorder_climb]

/-- The stores of `tree_insert` followed by `avl_fix`: the new node is inserted at
the empty position `path` leads to. -/
theorem attach_spec {mem : AVLMem} {path : Path Ptr} {node : Ptr}
    (valid : AVLTree mem (Path.plug path .nil)) (small : (Path.plug path .nil).numNodes < 2 ^ 64)
    (live : mem.cell node = some avlInit) (outside : node ∉ Path.others path) :
    ∃ mem₁ mem₂, (slotAt path).store mem (some node) = .ok mem₁ ∧
      setParent mem₁ (some node) (Path.parent path) = .ok mem₂ ∧
      Exec.Returns (avlFix mem₂ node) fun result => ∃ tree,
        root tree = some result.2 ∧ AVLTree result.1 tree ∧
          inorder tree = Path.before path ++ node :: Path.after path ∧
          Mem.SameOutside (inorder tree) mem result.1 := by
  obtain ⟨mem₁, mem₂, eq₁, eq₂, climbing, same⟩ := attach_climbing valid small live outside
  obtain ⟨result, eq, tree, isRoot, validAfter, values, sameAfter⟩ := climbing.attached
  refine ⟨mem₁, mem₂, eq₁, eq₂, result, eq, tree, isRoot, validAfter, values, ?_⟩
  have sameValues : inorder tree = inorder (Path.plug path (.node node .nil .nil)) := by
    rw [values, ← inorder_attach path node, Path.inorder_climb]
  exact (sameValues ▸ same).trans sameAfter

/-- Hanging a fresh node in an empty position of a valid tree and calling `avl_fix` on it
inserts it there.  At every node that the climb visits, the heights of the subtrees
differ by at most 2. -/
theorem avlFix_inserts {mem : AVLMem} {path : Path Ptr} {node : Ptr}
    (valid : AVLTree mem (Path.plug path .nil))
    (small : (Path.plug path .nil).numNodes < 2 ^ 32 - 1)
    (live : mem.cell node = some avlInit) (outside : node ∉ Path.others path) :
    ∃ mem₁ mem₂, (slotAt path).store mem (some node) = .ok mem₁ ∧
      setParent mem₁ (some node) (Path.parent path) = .ok mem₂ ∧
      (Exec.Returns (avlFix mem₂ node) fun result => ∃ tree,
        root tree = some result.2 ∧ AVLTree result.1 tree ∧
          inorder tree = Path.before path ++ node :: Path.after path ∧
          Mem.SameOutside (inorder tree) mem result.1) ∧
      ∀ state, Passes avlFixTurn (mem₂, node) state → ∃ cell l r,
        state.1.cell state.2 = some cell ∧ avlHeight state.1 cell.left = .ok l ∧
          avlHeight state.1 cell.right = .ok r ∧ l.toNat ≤ r.toNat + 2 ∧
          r.toNat ≤ l.toNat + 2 := by
  obtain ⟨mem₁, mem₂, eq₁, eq₂, climbing, same⟩ := attach_climbing valid (by omega) live outside
  obtain ⟨result, eq, tree, isRoot, validAfter, values, sameAfter⟩ := climbing.attached
  refine ⟨mem₁, mem₂, eq₁, eq₂, ⟨result, eq, tree, isRoot, validAfter, values, ?_⟩, ?_⟩
  · have sameValues : inorder tree = inorder (Path.plug path (.node node .nil .nil)) := by
      rw [values, ← inorder_attach path node, Path.inorder_climb]
    exact (sameValues ▸ same).trans sameAfter
  · intro state passes
    obtain ⟨_, _, _, visited⟩ := climbing.passes passes
    exact visited.near

/-- A third node below the left child of the root. -/
theorem avlFix_inserts_left : ∃ mem root tree,
    avlFix (((((Mem.empty.put 0 (cellOf none (.node 1 .nil .nil) .nil)).put 1
      (cellOf (some 0) .nil .nil)).put 2 avlInit).put 1
      { cellOf (some 0) .nil .nil with left := some 2 }).put 2
      { avlInit with parent := some 1 }) 2 = .ok (mem, root) ∧
    Tree.root tree = some root ∧ AVLTree mem tree ∧ inorder tree = [2, 1, 0] := by
  have valid : AVLTree (((Mem.empty.put 0 (cellOf none (.node 1 .nil .nil) .nil)).put 1
      (cellOf (some 0) .nil .nil)).put 2 avlInit)
      (Path.plug [.inLeft 1 .nil, .inLeft 0 .nil] .nil) :=
    ⟨⟨rfl, ⟨rfl, trivial, trivial⟩, trivial⟩, by decide,
      by simp only [Path.plug, Frame.fill, Tree.Balanced, BinaryTree.height]; decide⟩
  obtain ⟨mem₁, mem₂, store, parent, ⟨⟨mem, top⟩, eq, tree, isRoot, validAfter, values, -⟩, -⟩ :=
    @avlFix_inserts _ _ 2 valid (by decide) rfl (by decide)
  cases store
  cases parent
  exact ⟨mem, top, tree, eq, isRoot, validAfter, values⟩

end RedisLite
