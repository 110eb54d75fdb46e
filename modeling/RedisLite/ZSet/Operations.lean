import RedisLite.ZSet.Valid

/-!
# Inserting, deleting and seeking

The specifications of the functions declared in `zset.h`, in terms of the in-order
contents of the tree.
-/

namespace RedisLite

open Lib Lib.Tree

namespace ZSet

variable {D : Type} [LinearOrder D]

namespace Holds

variable {zset : ZSet D} {tree : BinaryTree Ptr} {cells : List (ZNode D)}

/-- The nodes `zset_seekge` passes on their right: those below the key. -/
def below (score : D) (name : Bytes) (cell : ZNode D) : Bool :=
  decide (cell.sortKey < toLex (score, name))

/-- `znode_new`, `hm_insert` and `tree_insert` of a new name. -/
theorem insertNew_spec (holds : Holds zset tree cells) (small : cells.length < 2 ^ 64)
    {name : Bytes} (absent : ∀ cell ∈ cells, cell.name ≠ name) (score : D) :
    ∃ hmap after newTree newCells,
      hmInsert zset.hmap ⟨strHash name, zset.node.next⟩ = .ok hmap ∧
      treeInsert { (zset.znodeNew name score).1 with hmap := hmap } zset.node.next = .ok after ∧
      Holds after newTree newCells ∧
      newCells.Perm ({ hcode := strHash name, score := score, name := name } :: cells) := by
  let node := zset.node.next
  let new : ZNode D := { hcode := strHash name, score := score, name := name }
  have dead : node ∉ inorder tree := by
    intro member
    obtain ⟨cell, -, live⟩ := holds.reads.exists_value member
    rw [zset.node.alloc_dead] at live
    cases live
  obtain ⟨hmap, insertEq, hmapValid, linkPerm⟩ :=
    hmInsert_spec holds.hmap (HNode.mk (strHash name) node)
  let zset₁ : ZSet D := { (zset.znodeNew name score).1 with hmap := hmap }
  have avl₁ : AVLTree zset₁.tree tree :=
    ⟨holds.avl.represents.put dead _, holds.avl.nodup, holds.avl.balanced⟩
  have others : ∀ cell ∈ cells, cell.sortKey ≠ new.sortKey := by
    intro cell member equal
    exact absent cell member (congrArg (fun key => (ofLex key).2) equal)
  obtain ⟨mem, newTree, lower, upper, treeEq, newAvl, next, perm, rfl, newReads, newSorted⟩ :=
    @treeInsert_spec D _ zset₁ tree cells node new holds.root_eq avl₁
      (by rwa [holds.numNodes_eq]) (holds.reads.put dead new) holds.sorted (Mem.put_self _ _ _)
      (Mem.put_self _ _ _) dead others
  have permCells : (lower ++ new :: upper).Perm (new :: (lower ++ upper)) := List.perm_middle
  refine ⟨hmap, _, newTree, lower ++ new :: upper, insertEq, treeEq, ?_, permCells⟩
  exact {
    root_eq := rfl
    avl := newAvl
    reads := newReads
    sorted := newSorted
    names := by
      rw [(permCells.map _).nodup_iff, List.map_cons, List.nodup_cons]
      refine ⟨?_, holds.names⟩
      intro member
      obtain ⟨cell, cellMem, same⟩ := List.mem_map.mp member
      exact absent cell cellMem same
    hcodes := by
      intro cell member
      rcases List.mem_cons.mp (permCells.mem_iff.mp member) with rfl | member
      · rfl
      · exact holds.hcodes cell member
    hmap := hmapValid
    indexed := by
      refine (linkPerm.map _).trans (.trans ?_ perm.symm)
      exact holds.indexed.cons node
    linked := by
      intro link member cell live
      have live : (zset.node.put node new).cell link.ref = some cell := live
      rcases List.mem_cons.mp (linkPerm.mem_iff.mp member) with rfl | member
      · rw [Mem.put_self] at live
        cases live
        rfl
      · have different : link.ref ≠ node := ne_of_mem_of_not_mem
          (holds.indexed.mem_iff.mp (List.mem_map_of_mem member)) dead
        rw [Mem.put_ne _ different] at live
        exact holds.linked link member cell live
    owned := by
      intro other cell live
      have live : (zset.node.put node new).cell other = some cell := live
      apply perm.mem_iff.mpr
      by_cases isNode : other = node
      · exact isNode ▸ List.mem_cons_self
      · rw [Mem.put_ne _ isNode] at live
        exact List.mem_cons_of_mem _ (holds.owned other cell live)
    fresh := by
      have before := holds.fresh
      rw [next]
      simp only [zset₁, znodeNew, Mem.alloc, Mem.put]
      omega }

/-- `zset_insert` adds the tuple when the name is new, and otherwise replaces the
score. -/
theorem zsetInsert_spec (holds : Holds zset tree cells) (small : cells.length < 2 ^ 64)
    (name : Bytes) (score : D) :
    ∃ after added newTree newCells, zset.zsetInsert name score = .ok (after, added) ∧
      Holds after newTree newCells ∧
      match added with
      | true => (∀ cell ∈ cells, cell.name ≠ name) ∧
          newCells.Perm ({ hcode := strHash name, score := score, name := name } :: cells)
      | false => ∃ cell rest, cell.name = name ∧ cells.Perm (cell :: rest) ∧
          newCells.Perm ({ cell with score := score } :: rest) := by
  obtain ⟨hmap, found, lookupEq, looked, result⟩ := holds.zsetLookup_spec name
  cases found with
  | some node =>
      obtain ⟨cell, live, same⟩ := result
      obtain ⟨after, updateEq, newTree, newCells, rest, newHolds, perm, newPerm⟩ :=
        looked.zsetUpdate_spec small live score
      refine ⟨after, false, newTree, newCells, ?_, newHolds, cell, rest, same, perm, newPerm⟩
      simp [zsetInsert, lookupEq, updateEq]
  | none =>
      obtain ⟨links, after, newTree, newCells, insertEq, treeEq, newHolds, newPerm⟩ :=
        looked.insertNew_spec small result score
      refine ⟨after, true, newTree, newCells, ?_, newHolds, result, newPerm⟩
      have read : (zset.node.put zset.node.next
          ⟨strHash name, score, name⟩).read zset.node.next = .ok ⟨strHash name, score, name⟩ :=
        Mem.read_eq (Mem.put_self _ _ _)
      simp only [znodeNew, Mem.alloc] at treeEq
      simp [zsetInsert, lookupEq, znodeNew, Mem.alloc, read, insertEq, treeEq]

/-- `zset_delete` removes exactly its node. -/
theorem zsetDelete_spec (holds : Holds zset tree cells) (small : cells.length < 2 ^ 64)
    {node : Ptr} {cell : ZNode D} (live : zset.node.cell node = some cell) :
    Exec.Returns (zset.zsetDelete node) fun after => ∃ newTree newCells,
      Holds after newTree newCells ∧ cells.Perm (cell :: newCells) := by
  have member := holds.owned node cell live
  obtain ⟨front, back, first, value, second, treeEq, rfl, valueLive, frontReads, backReads⟩ :=
    holds.reads.exists_split member
  obtain rfl : value = cell := Option.some.inj (valueLive.symm.trans live)
  have decides := holds.decides value.name
  rw [← holds.hcodes value (by simp)] at decides
  obtain ⟨hmap, found, deleteEq, hmapValid, result⟩ := hmDelete_spec holds.hmap decides
  obtain ⟨link, rfl, linkPerm, isNode⟩ : ∃ link, found = some link ∧
      zset.hmap.nodes.Perm (link :: hmap.nodes) ∧ link.ref = node := by
    cases found with
    | none =>
        obtain ⟨link, linkMem, rfl⟩ := holds.exists_link member
        refine absurd ⟨holds.linked link linkMem value live, ?_⟩ (result.2 link linkMem)
        simp [named, live]
    | some link =>
        obtain ⟨perm, -, isNamed⟩ := result
        obtain ⟨other, -, otherLive, -⟩ := holds.link (perm.mem_iff.mpr List.mem_cons_self)
        refine ⟨link, rfl, perm, ?_⟩
        simp only [named, otherLive, decide_eq_true_eq] at isNamed
        exact holds.eq_of_name otherLive live isNamed
  obtain ⟨⟨mem, top⟩, delEq, newTree, topEq, newAvl, order, -, same⟩ :=
    avlDel_spec holds.avl (by rwa [holds.numNodes_eq]) member
  simp only at topEq newAvl same
  have nodup := holds.avl.nodup
  rw [treeEq] at nodup order
  have order : inorder newTree = front ++ back := by
    rw [order, List.erase_append_right _ (by grind), List.erase_cons_head]
  have outside : node ∉ inorder newTree := by
    rw [order]
    grind
  have indexed : (hmap.nodes.map HNode.ref).Perm (inorder newTree) := by
    have perm := (linkPerm.map HNode.ref).symm.trans holds.indexed
    rw [treeEq, List.map_cons, isNode] at perm
    rw [order]
    exact (perm.trans List.perm_middle).cons_inv
  have sublist : (first ++ second).Sublist (first ++ value :: second) := by simp
  refine ⟨⟨top, hmap, mem.drop node, zset.node.drop node⟩, ?_, newTree, first ++ second, ?_,
    List.perm_middle⟩
  · simp [zsetDelete, Mem.read_eq live, deleteEq, delEq, znodeDel, Mem.free_eq live]
  · exact {
      root_eq := topEq
      avl := ⟨newAvl.represents.drop outside, newAvl.nodup, newAvl.balanced⟩
      reads := by
        rw [order] at outside ⊢
        exact (frontReads.append backReads).drop outside
      sorted := holds.sorted.sublist sublist
      names := holds.names.sublist (sublist.map _)
      hcodes := fun cell cellMem => holds.hcodes cell (sublist.subset cellMem)
      hmap := hmapValid
      indexed := indexed
      linked := by
        intro other otherMem cell otherLive
        have different : other.ref ≠ node := ne_of_mem_of_not_mem
          (indexed.mem_iff.mp (List.mem_map_of_mem otherMem)) outside
        simp only [Mem.drop_cell, if_neg different] at otherLive
        exact holds.linked other (linkPerm.mem_iff.mpr (List.mem_cons_of_mem _ otherMem)) cell
          otherLive
      owned := by
        intro other cell otherLive
        simp only [Mem.drop_cell] at otherLive
        split at otherLive
        · cases otherLive
        · have inTree := holds.owned other cell otherLive
          rw [treeEq] at inTree
          rw [order]
          grind
      fresh := by
        simp only [Mem.drop_next]
        rw [same.next]
        exact holds.fresh }

/-- The loop of `zset_seekge` from the hole of `path`: `found` is the node after
the hole. -/
theorem zsetSeekgeLoop_eq {zset : ZSet D} {score : D} {name : Bytes} {tree : BinaryTree Ptr}
    {path : Path Ptr} {parent : Option Ptr} {fuel : Nat}
    (represents : Represents zset.tree parent tree)
    (readable : ∀ other ∈ inorder tree, ∃ cell, zset.node.cell other = some cell)
    (enough : tree.height < fuel) :
    loop (zset.zsetSeekgeTurn score name) fuel ((Path.after path).head?, Tree.root tree) =
      .ok (Path.after (Path.search (zset.Holding (below score name)) tree path)).head? := by
  obtain ⟨fuel, rfl⟩ :=
    Nat.exists_eq_add_one_of_ne_zero (Nat.ne_of_gt (Nat.zero_lt_of_lt enough))
  induction tree generalizing path parent fuel with
  | nil => exact loop_done rfl fuel
  | node cur left right leftIH rightIH =>
      obtain ⟨cell, curLive⟩ := readable cur (by simp)
      obtain ⟨curHolds, leftHolds, rightHolds⟩ := represents
      simp only [BinaryTree.height] at enough
      obtain ⟨fuel, rfl⟩ : ∃ rest, fuel = rest + 1 := ⟨fuel - 1, by omega⟩
      simp only [Path.search, holding_eq curLive]
      by_cases less : cell.sortKey < toLex (score, name)
      · have turn : zset.zsetSeekgeTurn score name ((Path.after path).head?, some cur) =
            .ok (.next ((Path.after path).head?, Tree.root right)) := by
          simp [zsetSeekgeTurn, zless_eq curLive, less, Mem.read_eq curHolds, cellOf]
        rw [root_node, loop_next turn, if_pos (by simpa [below] using less)]
        exact @rightIH (.inRight left cur :: path) _ rightHolds
          (fun other member => readable other (by simp [member])) fuel (by omega)
      · have turn : zset.zsetSeekgeTurn score name ((Path.after path).head?, some cur) =
            .ok (.next (some cur, Tree.root left)) := by
          simp [zsetSeekgeTurn, zless_eq curLive, less, Mem.read_eq curHolds, cellOf]
        rw [root_node, loop_next turn, if_neg (by simpa [below] using less)]
        exact @leftIH (.inLeft cur right :: path) _ leftHolds
          (fun other member => readable other (by simp [member])) fuel (by omega)

/-- `zset_seekge` returns the first node that is not below the key. -/
theorem zsetSeekge_spec (holds : Holds zset tree cells) (score : D) (name : Bytes) :
    ∃ front back lower upper, zset.zsetSeekge score name = .ok back.head? ∧
      inorder tree = front ++ back ∧ cells = lower ++ upper ∧
      zset.node.Reads front lower ∧ zset.node.Reads back upper ∧
      (∀ cell ∈ lower, cell.sortKey < toLex (score, name)) ∧
      (∀ cell ∈ upper, ¬ cell.sortKey < toLex (score, name)) := by
  have enough : tree.height < zset.tree.next + 1 := by
    have short := Mem.length_le_next holds.avl.nodup fun other => holds.avl.live
    rw [inorder_length] at short
    have := tree.height_le_numNodes
    omega
  have walk := @zsetSeekgeLoop_eq D _ zset score name tree [] none _ holds.avl.represents
    (fun other member => (holds.reads.exists_value member).imp fun _ found => found.2) enough
  have plugged : Path.plug (Path.search (zset.Holding (below score name)) tree []) .nil = tree :=
    Path.plug_search _ tree []
  have monotone : ∀ lhs rhs : ZNode D, lhs.sortKey < rhs.sortKey →
      below score name rhs = true → below score name lhs = true := by
    intro lhs rhs less rhsBelow
    simp only [below, decide_eq_true_eq] at rhsBelow ⊢
    exact less.trans rhsBelow
  obtain ⟨passed, failed⟩ := @Path.search_splits _ _ _ []
    (ordered holds.reads holds.sorted monotone) (by simp [Path.before]) (by simp [Path.after])
  generalize Path.search (zset.Holding (below score name)) tree [] = hole at *
  have values : inorder tree = Path.before hole ++ Path.after hole := by
    rw [← plugged, Path.inorder_plug, inorder_nil, List.append_nil]
  have reads := holds.reads
  rw [values] at reads
  obtain ⟨lower, upper, cellsEq, lowerReads, upperReads⟩ := reads.exists_append
  have passed := reads_all lowerReads passed
  have failed := reads_all upperReads fun other member => Bool.not_eq_true _ ▸ failed other member
  simp only [below, decide_eq_true_eq, decide_eq_false_iff_not] at passed failed
  refine ⟨_, _, lower, upper, ?_, values, cellsEq, lowerReads, upperReads, passed, failed⟩
  rw [zsetSeekge, holds.root_eq]
  exact walk

omit [LinearOrder D] in
/-- `tree_dispose` frees every node of a subtree and no other. -/
theorem treeDispose_spec {zset : ZSet D} {tree : BinaryTree Ptr} {parent : Option Ptr}
    {depth : Nat} (represents : Represents zset.tree parent tree) (nodup : (inorder tree).Nodup)
    (live : ∀ node ∈ inorder tree, ∃ cell, zset.node.cell node = some cell)
    (enough : tree.height ≤ depth) :
    Exec.Returns (treeDispose depth zset (Tree.root tree)) fun after =>
      after.root = zset.root ∧ after.hmap = zset.hmap ∧
      (∀ node, after.tree.cell node = if node ∈ inorder tree then none else zset.tree.cell node) ∧
      ∀ node, after.node.cell node = if node ∈ inorder tree then none else zset.node.cell node := by
  induction tree generalizing zset parent depth with
  | nil => cases depth <;> simp [treeDispose]
  | node cur left right leftIH rightIH =>
      obtain ⟨curHolds, leftHolds, rightHolds⟩ := represents
      simp only [BinaryTree.height] at enough
      obtain ⟨depth, rfl⟩ : ∃ rest, depth = rest + 1 := ⟨depth - 1, by omega⟩
      rw [inorder_node] at nodup live
      obtain ⟨zset₁, leftEq, root₁, hmap₁, tree₁, node₁⟩ := @leftIH zset (some cur) depth leftHolds
        (by grind) (fun node member => live node (by simp [member])) (by omega)
      have right₁ : Represents zset₁.tree (some cur) right := rightHolds.congr fun node member => by
        rw [tree₁, if_neg (by grind)]
      obtain ⟨zset₂, rightEq, root₂, hmap₂, tree₂, node₂⟩ := @rightIH zset₁ (some cur) depth right₁
        (by grind) (fun node member => by
          rw [node₁, if_neg (by grind)]
          exact live node (by simp [member])) (by omega)
      have cur₁ : zset₁.tree.cell cur = some (cellOf parent left right) := by
        rw [tree₁, if_neg (by grind), curHolds]
      obtain ⟨cell, curLive⟩ := live cur (by simp)
      have cur₂ : zset₂.node.cell cur = some cell := by
        rw [node₂, if_neg (by grind), node₁, if_neg (by grind), curLive]
      have leftEq : treeDispose depth zset (cellOf parent left right).left = .ok zset₁ := leftEq
      have rightEq : treeDispose depth zset₁ (cellOf parent left right).right = .ok zset₂ := rightEq
      simp only [root_node, treeDispose, Mem.read_eq curHolds, Exec.ok_bind, leftEq,
        Mem.read_eq cur₁, rightEq, znodeDel, Mem.free_eq cur₂, Exec.pure_eq_ok, Exec.returns_ok,
        inorder_node]
      refine ⟨root₂.trans root₁, hmap₂.trans hmap₁, fun node => ?_, fun node => ?_⟩
      · simp only [Mem.drop_cell, tree₂, tree₁]
        grind
      · simp only [Mem.drop_cell, node₂, node₁]
        grind

/-- `zset_clear` frees every node and leaves the empty set. -/
theorem zsetClear_spec (holds : Holds zset tree cells) :
    Exec.Returns zset.zsetClear fun after =>
      after.root = none ∧ after.hmap = {} ∧ ∀ node, after.node.cell node = none := by
  have enough : tree.height ≤ zset.tree.next + 1 := by
    have short := Mem.length_le_next holds.avl.nodup fun other => holds.avl.live
    rw [inorder_length] at short
    have := tree.height_le_numNodes
    omega
  obtain ⟨after, disposeEq, -, hmapEq, -, nodeEq⟩ :=
    @treeDispose_spec D { zset with hmap := hmClear zset.hmap } tree none _ holds.avl.represents
      holds.avl.nodup (fun node member => (holds.reads.exists_value member).imp fun _ => And.right)
      enough
  rw [← holds.root_eq] at disposeEq
  simp only [zsetClear, disposeEq, Exec.ok_bind, Exec.pure_eq_ok, Exec.returns_ok]
  refine ⟨trivial, hmapEq, fun node => ?_⟩
  rw [nodeEq]
  split
  · rfl
  · rename_i outside
    cases found : zset.node.cell node with
    | none => rfl
    | some cell => exact absurd (holds.owned node cell found) outside

end Holds

end ZSet

end RedisLite
