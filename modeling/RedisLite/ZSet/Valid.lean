import RedisLite.Avl.Delete
import RedisLite.HashTable.Valid
import RedisLite.ZSet.Core

/-!
# The sorted set invariant

`ZSet.Holds zset tree cells`: the AVL fields spell out `tree`, whose in-order
sequence has the contents `cells`, strictly increasing in (score, name); the hash
table links exactly the nodes of the tree, under the hash codes of their names.
Each function of `zset.cpp` returns and keeps the invariant, and its specification
says what it does to `cells`.
-/

namespace RedisLite

open Lib Lib.Tree

variable {D : Type}

/-- The key a node is sorted by: the score, then the name. -/
def ZNode.sortKey (cell : ZNode D) : D ×ₗ Bytes := toLex (cell.score, cell.name)

namespace ZSet

variable [LinearOrder D]

/-- The invariant of a sorted set. -/
structure Holds (zset : ZSet D) (tree : BinaryTree Ptr) (cells : List (ZNode D)) : Prop where
  root_eq : zset.root = Tree.root tree
  avl : AVLTree zset.tree tree
  reads : zset.node.Reads (inorder tree) cells
  sorted : cells.Pairwise fun lhs rhs => lhs.sortKey < rhs.sortKey
  names : (cells.map ZNode.name).Nodup
  hcodes : ∀ cell ∈ cells, cell.hcode = strHash cell.name
  hmap : zset.hmap.Valid
  indexed : (zset.hmap.nodes.map HNode.ref).Perm (inorder tree)
  linked : ∀ link ∈ zset.hmap.nodes, ∀ cell, zset.node.cell link.ref = some cell →
    link.hcode = cell.hcode
  owned : ∀ node cell, zset.node.cell node = some cell → node ∈ inorder tree
  fresh : zset.tree.next ≤ zset.node.next

theorem holds_empty : Holds ({} : ZSet D) .nil [] where
  root_eq := rfl
  avl := .nil _
  reads := .nil _
  sorted := .nil
  names := List.nodup_nil
  hcodes := by simp
  hmap := HMap.valid_empty
  indexed := .refl _
  linked := by simp
  owned := by simp
  fresh := Nat.le_refl _

/-! ## Comparison and search -/

/-- `zless` decides the order of the sort keys. -/
theorem zless_eq {zset : ZSet D} {lhs : Ptr} {cell : ZNode D}
    (live : zset.node.cell lhs = some cell) (score : D) (name : Bytes) :
    zset.zless lhs score name = .ok (decide (cell.sortKey < toLex (score, name))) := by
  have order := bytesLess_eq cell.name name
  simp only [bytesLess] at order
  simp only [zless, Mem.read_eq live, Exec.ok_bind, Exec.pure_eq_ok, ZNode.sortKey,
    Prod.Lex.toLex_lt_toLex]
  by_cases same : cell.score = score
  · rw [if_neg (by simpa using same)]
    split at order <;> rename_i differ
    · rw [if_pos differ, order]
      simp [same]
    · rw [if_neg differ, order]
      simp [same]
  · rw [if_pos same]
    simp [same]

theorem zlessNode_eq {zset : ZSet D} {lhs rhs : Ptr} {left right : ZNode D}
    (leftLive : zset.node.cell lhs = some left) (rightLive : zset.node.cell rhs = some right) :
    zset.zlessNode lhs rhs = .ok (decide (left.sortKey < right.sortKey)) := by
  simp only [zlessNode, Mem.read_eq rightLive, Exec.ok_bind, zless_eq leftLive]
  rfl

/-- The contents of a live node satisfy the test. -/
def Holding (zset : ZSet D) (test : ZNode D → Bool) (node : Ptr) : Bool :=
  (zset.node.cell node).any test

omit [LinearOrder D] in
theorem holding_eq {zset : ZSet D} {node : Ptr} {cell : ZNode D}
    (live : zset.node.cell node = some cell) (test : ZNode D → Bool) :
    zset.Holding test node = test cell := by
  simp [Holding, live]

/-- In a sorted tree, the nodes below a bound come first. -/
theorem ordered {zset : ZSet D} {nodes : List Ptr} {cells : List (ZNode D)}
    (reads : zset.node.Reads nodes cells)
    (sorted : cells.Pairwise fun lhs rhs => lhs.sortKey < rhs.sortKey) {test : ZNode D → Bool}
    (monotone : ∀ lhs rhs, lhs.sortKey < rhs.sortKey → test rhs = true → test lhs = true) :
    nodes.Pairwise fun lhs rhs =>
      zset.Holding test rhs = true → zset.Holding test lhs = true := by
  induction nodes generalizing cells with
  | nil => exact .nil
  | cons node nodes ih =>
      obtain ⟨cell, cells, rfl, live, restReads⟩ := reads.exists_cons
      rw [List.pairwise_cons] at sorted
      refine .cons ?_ (ih restReads sorted.2)
      intro other member
      obtain ⟨otherCell, otherMem, otherLive⟩ := restReads.exists_value member
      rw [holding_eq otherLive, holding_eq live]
      exact monotone cell otherCell (sorted.1 otherCell otherMem)

omit [LinearOrder D] in
theorem reads_all {zset : ZSet D} {nodes : List Ptr} {cells : List (ZNode D)}
    (reads : zset.node.Reads nodes cells) {test : ZNode D → Bool} {result : Bool}
    (all : ∀ node ∈ nodes, zset.Holding test node = result) :
    ∀ cell ∈ cells, test cell = result := by
  intro cell member
  obtain ⟨node, nodeMem, live⟩ := reads.exists_pointer member
  rw [← holding_eq live test]
  exact all node nodeMem

/-- The nodes `tree_insert` passes on their right: those not above the new node. -/
def notAbove (new : ZNode D) (cell : ZNode D) : Bool := !decide (new.sortKey < cell.sortKey)

/-- The tree search of `tree_insert` from the hole of `path`. -/
theorem treeInsertLoop_eq {zset : ZSet D} {node : Ptr} {new : ZNode D}
    (live : zset.node.cell node = some new) {tree : BinaryTree Ptr} {path : Path Ptr} {fuel : Nat}
    (holds : Represents zset.tree (Path.parent path) tree)
    (load : zset.load (slotAt path) = .ok (Tree.root tree))
    (readable : ∀ other ∈ inorder tree, ∃ cell, zset.node.cell other = some cell)
    (enough : tree.height < fuel) :
    let hole := Path.search (zset.Holding (notAbove new)) tree path
    loop (zset.treeInsertTurn node) fuel (slotAt path, Path.parent path) =
      .ok (slotAt hole, Path.parent hole) := by
  obtain ⟨fuel, rfl⟩ :=
    Nat.exists_eq_add_one_of_ne_zero (Nat.ne_of_gt (Nat.zero_lt_of_lt enough))
  induction tree generalizing path fuel with
  | nil => exact loop_done (by simp [treeInsertTurn, load, Path.search]) fuel
  | node cur left right leftIH rightIH =>
      obtain ⟨cell, curLive⟩ := readable cur (by simp)
      obtain ⟨curHolds, leftHolds, rightHolds⟩ := holds
      simp only [BinaryTree.height] at enough
      have turn : zset.treeInsertTurn node (slotAt path, Path.parent path) =
          .ok (.next (if new.sortKey < cell.sortKey then .left cur else .right cur, some cur)) := by
        simp [treeInsertTurn, load, zlessNode_eq live curLive]
      obtain ⟨fuel, rfl⟩ : ∃ rest, fuel = rest + 1 := ⟨fuel - 1, by omega⟩
      rw [loop_next turn]
      simp only [Path.search, holding_eq curLive, notAbove]
      by_cases less : new.sortKey < cell.sortKey
      · simp only [less, if_true, decide_true, Bool.not_true, Bool.false_eq_true, if_false]
        refine @leftIH (.inLeft cur right :: path) leftHolds ?_
          (fun other member => readable other (by simp [member])) fuel (by omega)
        simp [slotAt, ZSet.load, Mem.read_eq curHolds, cellOf]
      · simp only [less, if_false, decide_false, Bool.not_false, if_true]
        refine @rightIH (.inRight left cur :: path) rightHolds ?_
          (fun other member => readable other (by simp [member])) fuel (by omega)
        simp [slotAt, ZSet.load, Mem.read_eq curHolds, cellOf]

/-- `tree_insert` puts a node that is not in the tree at its place in the order. -/
theorem treeInsert_spec {zset : ZSet D} {tree : BinaryTree Ptr} {cells : List (ZNode D)}
    {node : Ptr} {new : ZNode D} (rootEq : zset.root = Tree.root tree)
    (avl : AVLTree zset.tree tree) (small : tree.numNodes < 2 ^ 64)
    (reads : zset.node.Reads (inorder tree) cells)
    (sorted : cells.Pairwise fun lhs rhs => lhs.sortKey < rhs.sortKey)
    (live : zset.node.cell node = some new) (treeLive : zset.tree.cell node = some avlInit)
    (outside : node ∉ inorder tree) (absent : ∀ cell ∈ cells, cell.sortKey ≠ new.sortKey) :
    ∃ mem after lower upper,
      zset.treeInsert node = .ok { zset with tree := mem, root := Tree.root after } ∧
      AVLTree mem after ∧ mem.next = zset.tree.next ∧ (inorder after).Perm (node :: inorder tree) ∧
      cells = lower ++ upper ∧ zset.node.Reads (inorder after) (lower ++ new :: upper) ∧
      (lower ++ new :: upper).Pairwise fun lhs rhs => lhs.sortKey < rhs.sortKey := by
  have enough : tree.height < zset.tree.next + 1 := by
    have short := Mem.length_le_next avl.nodup fun other => avl.live
    rw [inorder_length] at short
    have := tree.height_le_numNodes
    omega
  have load : zset.load (slotAt []) = .ok (Tree.root tree) := congrArg Except.ok rootEq
  have walk := @treeInsertLoop_eq D _ zset node new live tree [] _ avl.represents load
    (fun other member => (reads.exists_value member).imp fun _ found => found.2) enough
  have plugged : Path.plug (Path.search (zset.Holding (notAbove new)) tree []) .nil = tree :=
    Path.plug_search _ tree []
  have monotone : ∀ lhs rhs : ZNode D, lhs.sortKey < rhs.sortKey →
      notAbove new rhs = true → notAbove new lhs = true := by
    intro lhs rhs less rhsBelow
    simp only [notAbove, Bool.not_eq_true', decide_eq_false_iff_not] at rhsBelow ⊢
    exact fun above => rhsBelow (above.trans less)
  obtain ⟨below, above⟩ := @Path.search_splits _ _ _ [] (ordered reads sorted monotone)
    (by simp [Path.before]) (by simp [Path.after])
  generalize Path.search (zset.Holding (notAbove new)) tree [] = inner at *
  have values : inorder tree = Path.before inner ++ Path.after inner := by
    rw [← plugged, Path.inorder_plug, inorder_nil, List.append_nil]
  rw [values] at reads
  obtain ⟨lower, upper, rfl, lowerReads, upperReads⟩ := reads.exists_append
  have below := reads_all lowerReads below
  have above := reads_all upperReads fun other member => Bool.not_eq_true _ ▸ above other member
  simp only [notAbove, Bool.not_eq_true', Bool.not_eq_false', decide_eq_true_eq,
    decide_eq_false_iff_not] at below above
  have outsidePath : node ∉ Path.others inner := by
    rwa [values] at outside
  obtain ⟨mem₁, mem₂, storeEq, parentEq, ⟨mem, top⟩, fixEq, after, isRoot, avlAfter, order, same⟩ :=
    attach_spec (plugged.symm ▸ avl) (plugged.symm ▸ small) treeLive outsidePath
  have less : ∀ cell ∈ lower, cell.sortKey < new.sortKey := by
    intro cell member
    exact lt_of_le_of_ne (not_lt.mp (below cell member))
      (absent cell (List.mem_append_left _ member))
  refine ⟨mem, after, lower, upper, ?_, avlAfter, same.next, ?_, rfl, ?_, ?_⟩
  · have walk : loop (zset.treeInsertTurn node) (zset.tree.next + 1) (.local, none) =
        .ok (slotAt inner, Path.parent inner) := walk
    simp [treeInsert, walk, storeEq, parentEq, fixEq, isRoot]
  · rw [order, values]
    exact List.perm_middle
  · rw [order]
    exact lowerReads.append (Mem.Reads.cons_iff.mpr ⟨live, upperReads⟩)
  · rw [List.pairwise_append] at sorted
    rw [List.pairwise_append, List.pairwise_cons]
    refine ⟨sorted.1, ⟨above, sorted.2.1⟩, ?_⟩
    intro lhs lhsMem rhs rhsMem
    rcases List.mem_cons.mp rhsMem with rfl | rhsMem
    · exact less lhs lhsMem
    · exact sorted.2.2 lhs lhsMem rhs rhsMem

/-! ## Operations -/

omit [LinearOrder D] in
theorem hcmp_eq {zset : ZSet D} {node : Ptr} {cell : ZNode D}
    (live : zset.node.cell node = some cell) (name : Bytes) :
    zset.hcmp name node = .ok (decide (cell.name = name)) := by
  simp only [hcmp, Mem.read_eq live, Exec.ok_bind, Exec.pure_eq_ok]
  by_cases same : cell.name.length = name.length
  · rw [if_neg (by simpa using same)]
    simp only [memcmp_eq_zero same]
  · rw [if_pos same, decide_eq_false fun equal => same (congrArg List.length equal)]

/-- The test a search by name performs. -/
def named (zset : ZSet D) (name : Bytes) (ref : Ptr) : Bool :=
  match zset.node.cell ref with
  | some cell => decide (cell.name = name)
  | none => false

namespace Holds

variable {zset : ZSet D} {tree : BinaryTree Ptr} {cells : List (ZNode D)}

theorem numNodes_eq (holds : Holds zset tree cells) : tree.numNodes = cells.length := by
  rw [← inorder_length, holds.reads.length_eq]

theorem nil_of_root (holds : Holds zset tree cells) (empty : zset.root = none) :
    tree = .nil ∧ cells = [] := by
  obtain rfl := root_eq_none.mp (holds.root_eq.symm.trans empty)
  exact ⟨rfl, List.length_eq_zero_iff.mp holds.numNodes_eq.symm⟩

theorem link (holds : Holds zset tree cells) {link : HNode Ptr}
    (member : link ∈ zset.hmap.nodes) :
    ∃ cell ∈ cells, zset.node.cell link.ref = some cell ∧ link.hcode = strHash cell.name := by
  have inTree : link.ref ∈ inorder tree :=
    holds.indexed.mem_iff.mp (List.mem_map_of_mem member)
  obtain ⟨cell, cellMem, live⟩ := holds.reads.exists_value inTree
  refine ⟨cell, cellMem, live, ?_⟩
  rw [holds.linked link member cell live, holds.hcodes cell cellMem]

theorem exists_link (holds : Holds zset tree cells) {node : Ptr}
    (member : node ∈ inorder tree) : ∃ link ∈ zset.hmap.nodes, link.ref = node :=
  List.mem_map.mp (holds.indexed.mem_iff.mpr member)

theorem eq_of_name (holds : Holds zset tree cells) {node other : Ptr} {cell otherCell : ZNode D}
    (live : zset.node.cell node = some cell) (otherLive : zset.node.cell other = some otherCell)
    (same : cell.name = otherCell.name) : node = other :=
  holds.reads.eq_of_image holds.names (holds.owned node cell live)
    (holds.owned other otherCell otherLive) live otherLive same

theorem decides (holds : Holds zset tree cells) (name : Bytes) :
    Decides zset.hmap.nodes (strHash name) (zset.hcmp name) (named zset name) := by
  intro link member _
  obtain ⟨cell, -, live, -⟩ := holds.link member
  simp [hcmp_eq live, named, live]

theorem name_ne (holds : Holds zset tree cells) {name : Bytes}
    (noMatch : ∀ link ∈ zset.hmap.nodes, ¬ link.Matches (strHash name) (named zset name)) :
    ∀ cell ∈ cells, cell.name ≠ name := by
  intro cell member same
  obtain ⟨node, inTree, live⟩ := holds.reads.exists_pointer member
  obtain ⟨link, linkMem, rfl⟩ := holds.exists_link inTree
  apply noMatch link linkMem
  constructor
  · rw [holds.linked link linkMem cell live, holds.hcodes cell member, same]
  · simp [named, live, same]

theorem of_hmap (holds : Holds zset tree cells) {hmap : HMap Ptr} (valid : hmap.Valid)
    (perm : hmap.nodes.Perm zset.hmap.nodes) : Holds { zset with hmap := hmap } tree cells :=
  { holds with
    hmap := valid
    indexed := (perm.map _).trans holds.indexed
    linked := fun link member => holds.linked link (perm.mem_iff.mp member) }

/-- The hash table finds the node of a name, whatever the root is. -/
theorem hmLookup_spec (holds : Holds zset tree cells) (name : Bytes) :
    ∃ hmap found, hmLookup zset.hmap (strHash name) (zset.hcmp name) = .ok (hmap, found) ∧
      Holds { zset with hmap := hmap } tree cells ∧
      match found with
      | some link => ∃ cell, zset.node.cell link.ref = some cell ∧ cell.name = name
      | none => ∀ cell ∈ cells, cell.name ≠ name := by
  obtain ⟨hmap, found, lookupEq, valid, perm, result⟩ :=
    RedisLite.hmLookup_spec holds.hmap (holds.decides name)
  refine ⟨hmap, found, lookupEq, holds.of_hmap valid perm, ?_⟩
  cases found with
  | some link =>
      obtain ⟨cell, -, live, -⟩ := holds.link result.1
      refine ⟨cell, live, ?_⟩
      simpa [named, live] using result.2.2
  | none => exact holds.name_ne result

/-- `zset_lookup` finds the node of a name. -/
theorem zsetLookup_spec (holds : Holds zset tree cells) (name : Bytes) :
    ∃ hmap found, zset.zsetLookup name = .ok ({ zset with hmap := hmap }, found) ∧
      Holds { zset with hmap := hmap } tree cells ∧
      match found with
      | some node => ∃ cell, zset.node.cell node = some cell ∧ cell.name = name
      | none => ∀ cell ∈ cells, cell.name ≠ name := by
  by_cases empty : zset.root = none
  · obtain ⟨rfl, rfl⟩ := holds.nil_of_root empty
    have shortcut : zset.zsetLookup name = .ok (zset, none) := by
      simp [zsetLookup, empty]
    exact ⟨zset.hmap, none, shortcut, holds, by simp⟩
  · obtain ⟨top, topEq⟩ := Option.ne_none_iff_exists'.mp empty
    obtain ⟨hmap, found, lookupEq, holdsAfter, result⟩ := holds.hmLookup_spec name
    have searched : zset.zsetLookup name =
        .ok ({ zset with hmap := hmap }, found.map HNode.ref) := by
      simp [zsetLookup, topEq, lookupEq]
    refine ⟨hmap, found.map HNode.ref, searched, holdsAfter, ?_⟩
    cases found with
    | some link => exact result
    | none => exact result

/-- `zset_update` gives one node a new score. -/
theorem zsetUpdate_spec (holds : Holds zset tree cells) (small : cells.length < 2 ^ 64)
    {node : Ptr} {cell : ZNode D} (live : zset.node.cell node = some cell) (score : D) :
    Exec.Returns (zset.zsetUpdate node score) fun after => ∃ newTree newCells rest,
      Holds after newTree newCells ∧ cells.Perm (cell :: rest) ∧
        newCells.Perm ({ cell with score := score } :: rest) := by
  have member := holds.owned node cell live
  obtain ⟨front, back, first, value, second, treeEq, rfl, valueLive, frontReads, backReads⟩ :=
    holds.reads.exists_split member
  obtain rfl : value = cell := Option.some.inj (valueLive.symm.trans live)
  simp only [zsetUpdate, Mem.read_eq live, Exec.ok_bind]
  by_cases same : value.score = score
  · rw [if_pos same, Exec.pure_eq_ok, Exec.returns_ok]
    subst same
    exact ⟨tree, _, first ++ second, holds, List.perm_middle, List.perm_middle⟩
  · rw [if_neg same]
    obtain ⟨⟨mem₁, top⟩, delEq, middle, topEq, avl₁, order, ⟨old, oldLive⟩, same₁⟩ :=
      avlDel_spec holds.avl (by rwa [holds.numNodes_eq]) member
    simp only at topEq avl₁ oldLive same₁
    have nodup := holds.avl.nodup
    rw [treeEq] at nodup order
    have order : inorder middle = front ++ back := by
      rw [order, List.erase_append_right _ (by grind), List.erase_cons_head]
    have outside : node ∉ inorder middle := by
      rw [order]
      grind
    have avl₂ : AVLTree (mem₁.put node avlInit) middle :=
      ⟨avl₁.represents.put outside _, avl₁.nodup, avl₁.balanced⟩
    have middleReads : zset.node.Reads (inorder middle) (first ++ second) := by
      rw [order]
      exact frontReads.append backReads
    have numNodes : middle.numNodes < 2 ^ 64 := by
      rw [← inorder_length, middleReads.length_eq]
      simp only [List.length_append, List.length_cons] at small ⊢
      omega
    let new : ZNode D := { value with score := score }
    let zset₂ : ZSet D :=
      { zset with tree := mem₁.put node avlInit, root := top, node := zset.node.put node new }
    have sorted := holds.sorted
    have others : ∀ cell ∈ first ++ second, cell.sortKey ≠ new.sortKey := by
      intro cell cellMem equal
      have names := holds.names
      rw [List.map_append, List.map_cons, List.nodup_middle, List.nodup_cons,
        ← List.map_append] at names
      apply names.1
      rw [show value.name = cell.name from (congrArg (fun key => (ofLex key).2) equal).symm]
      exact List.mem_map_of_mem cellMem
    obtain ⟨mem, newTree, lower, upper, insertEq, newAvl, next, perm, cellsEq, newReads,
      newSorted⟩ :=
      @treeInsert_spec D _ zset₂ middle (first ++ second) node new topEq avl₂ numNodes
        (middleReads.put outside new) (sorted.sublist (by simp)) (Mem.put_self _ _ _)
        (Mem.put_self _ _ _) outside others
    have permTree : (inorder newTree).Perm (inorder tree) := by
      rw [treeEq]
      exact perm.trans (order ▸ List.perm_middle.symm)
    have permCells : (lower ++ new :: upper).Perm (new :: (first ++ second)) := by
      rw [cellsEq]
      exact List.perm_middle
    have inside : node < zset.node.next := Mem.lt_next live
    rw [delEq]
    simp only [Exec.ok_bind, Mem.write_eq oldLive, Mem.modify_eq live]
    rw [insertEq, Exec.returns_ok]
    refine ⟨newTree, lower ++ new :: upper, first ++ second, ?_, List.perm_middle, permCells⟩
    exact {
      root_eq := rfl
      avl := newAvl
      reads := newReads
      sorted := newSorted
      names := by
        have names : (new :: (first ++ second)).map ZNode.name =
            (value :: (first ++ second)).map ZNode.name := rfl
        rw [(permCells.map _).nodup_iff, names, ← (List.perm_middle.map _).nodup_iff]
        exact holds.names
      hcodes := by
        intro cell cellMem
        rcases List.mem_cons.mp (permCells.mem_iff.mp cellMem) with rfl | cellMem
        · exact holds.hcodes value (by simp)
        · exact holds.hcodes cell (by grind)
      hmap := holds.hmap
      indexed := holds.indexed.trans permTree.symm
      linked := by
        intro link linkMem cell cellLive
        by_cases isNode : link.ref = node
        · rw [show zset₂.node = zset.node.put node new from rfl, isNode, Mem.put_self] at cellLive
          cases cellLive
          exact holds.linked link linkMem value (isNode ▸ live)
        · rw [Mem.put_ne _ isNode] at cellLive
          exact holds.linked link linkMem cell cellLive
      owned := by
        intro other cell otherLive
        apply permTree.mem_iff.mpr
        by_cases isNode : other = node
        · exact isNode ▸ member
        · rw [Mem.put_ne _ isNode] at otherLive
          exact holds.owned other cell otherLive
      fresh := by
        have treeNext := (Mem.SameOutside.put oldLive avlInit).next
        simp only [zset₂] at next
        rw [next, treeNext, same₁.next, Mem.put_next inside]
        exact holds.fresh }

end Holds

end ZSet

end RedisLite
