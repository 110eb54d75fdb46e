import RedisLite.Avl.Delete

/-!
# Offset queries

`avl_offset` climbs until the target lies in the subtree of the current node and
then descends to it.  It ends on every valid tree; while the counts are exact, the
node it returns is the one whose rank differs from that of the start by the offset.
-/

namespace RedisLite

open Lib Lib.Tree

theorem cnt_toNat (tree : BinaryTree Ptr) :
    (UInt32.ofNat tree.numNodes).toNat = tree.numNodes % 2 ^ 32 := by
  rw [UInt32.toNat_ofNat']

theorem cnt_add_one_toNat (tree : BinaryTree Ptr) :
    (UInt32.ofNat tree.numNodes + 1).toNat = (tree.numNodes + 1) % 2 ^ 32 := by
  rw [UInt32.toNat_add, cnt_toNat]
  simp

/-- The memory holds the links and counts of `tree` below `parent`, a tree of any shape;
the heights do not matter. -/
def Counted (mem : AVLMem) : Option Ptr → BinaryTree Ptr → Prop
  | _, .nil => True
  | parent, .node node left right =>
      (∃ height, mem.cell node = some { cellOf parent left right with height := height }) ∧
        Counted mem (some node) left ∧ Counted mem (some node) right

theorem Represents.counted {mem : AVLMem} {parent : Option Ptr} {tree : BinaryTree Ptr}
    (holds : Represents mem parent tree) : Counted mem parent tree := by
  induction tree generalizing parent with
  | nil => trivial
  | node node left right leftIH rightIH =>
      exact ⟨⟨_, holds.1⟩, leftIH holds.2.1, rightIH holds.2.2⟩

theorem Counted.live {mem : AVLMem} {tree : BinaryTree Ptr} {parent : Option Ptr}
    (holds : Counted mem parent tree) {node : Ptr} (member : node ∈ inorder tree) :
    ∃ cell, mem.cell node = some cell := by
  induction tree generalizing parent with
  | nil => simp at member
  | node other left right leftIH rightIH =>
      simp only [inorder_node, List.mem_append, List.mem_cons] at member
      rcases member with inLeft | rfl | inRight
      · exact leftIH holds.2.1 inLeft
      · obtain ⟨height, live⟩ := holds.1
        exact ⟨_, live⟩
      · exact rightIH holds.2.2 inRight

theorem Counted.avlCnt_eq {mem : AVLMem} {tree : BinaryTree Ptr} {parent : Option Ptr}
    (holds : Counted mem parent tree) :
    avlCnt mem (root tree) = .ok (UInt32.ofNat tree.numNodes) := by
  cases tree with
  | nil => rfl
  | node node left right =>
      obtain ⟨⟨height, live⟩, -⟩ := holds
      simp [avlCnt, Mem.read_eq live, cellOf]

theorem Counted.of_plug {mem : AVLMem} {path : Path Ptr} {tree : BinaryTree Ptr}
    (holds : Counted mem none (Path.plug path tree)) : Counted mem (Path.parent path) tree := by
  induction path generalizing tree with
  | nil => exact holds
  | cons frame path ih =>
      have outer := ih holds
      cases frame with
      | inLeft value right => exact outer.2.1
      | inRight left value => exact outer.2.2

theorem Counted.reads {mem : AVLMem} {parent : Option Ptr} {node : Ptr}
    {left right : BinaryTree Ptr} (holds : Counted mem parent (.node node left right)) :
    (∃ height, mem.read node = .ok { cellOf parent left right with height := height }) ∧
      avlCnt mem (root left) = .ok (UInt32.ofNat left.numNodes) ∧
      avlCnt mem (root right) = .ok (UInt32.ofNat right.numNodes) := by
  obtain ⟨⟨height, live⟩, leftHolds, rightHolds⟩ := holds
  exact ⟨⟨height, Mem.read_eq live⟩, leftHolds.avlCnt_eq, rightHolds.avlCnt_eq⟩

/-- The target of an offset lies in the subtree, by the counts of its root. -/
def Inside (left right : BinaryTree Ptr) (pos offset : Int) : Prop :=
  pos - (left.numNodes % 2 ^ 32 : Nat) ≤ offset ∧ offset ≤ pos + (right.numNodes % 2 ^ 32 : Nat)

section Turns

variable {mem : AVLMem} {parent : Option Ptr} {node child : Ptr}
  {left right inner outer : BinaryTree Ptr} {pos offset : Int}

/-- A target ahead inside the subtree is in the right one. -/
theorem avlOffsetTurn_right
    (holds : Counted mem parent (.node node left (.node child inner outer)))
    (inside : Inside left (.node child inner outer) pos offset) (ahead : pos < offset) :
    avlOffsetTurn mem offset (node, pos) =
      .ok (.next (child, pos + (UInt32.ofNat inner.numNodes + 1).toNat)) := by
  obtain ⟨⟨height, read⟩, leftCnt, rightCnt⟩ := holds.reads
  obtain ⟨⟨childHeight, childRead⟩, innerCnt, -⟩ := holds.2.2.reads
  have enters : pos < offset ∧
      pos + (UInt32.ofNat (BinaryTree.node child inner outer).numNodes).toNat ≥ offset := by
    rw [cnt_toNat]
    exact ⟨ahead, inside.2⟩
  rw [root_node] at rightCnt
  simp only [avlOffsetTurn, if_neg (show ¬ offset = pos by omega), read, Exec.ok_bind, cellOf,
    leftCnt, rightCnt, if_pos enters, root_node, Exec.deref_some, childRead, innerCnt,
    Exec.pure_eq_ok]

/-- A target behind inside the subtree is in the left one. -/
theorem avlOffsetTurn_left
    (holds : Counted mem parent (.node node (.node child outer inner) right))
    (inside : Inside (.node child outer inner) right pos offset) (behind : offset < pos) :
    avlOffsetTurn mem offset (node, pos) =
      .ok (.next (child, pos - (UInt32.ofNat inner.numNodes + 1).toNat)) := by
  obtain ⟨⟨height, read⟩, leftCnt, rightCnt⟩ := holds.reads
  obtain ⟨⟨childHeight, childRead⟩, -, innerCnt⟩ := holds.2.1.reads
  have skips : ¬ (pos < offset ∧ pos + (UInt32.ofNat right.numNodes).toNat ≥ offset) :=
    fun both => absurd both.1 (by omega)
  have enters : pos > offset ∧
      pos - (UInt32.ofNat (BinaryTree.node child outer inner).numNodes).toNat ≤ offset := by
    rw [cnt_toNat]
    exact ⟨behind, inside.1⟩
  rw [root_node] at leftCnt
  simp only [avlOffsetTurn, if_neg (show ¬ offset = pos by omega), read, Exec.ok_bind, cellOf,
    leftCnt, rightCnt, if_neg skips, if_pos enters, root_node, Exec.deref_some, childRead,
    innerCnt, Exec.pure_eq_ok]

theorem not_inside (outside : ¬ Inside left right pos offset) :
    ¬ offset = pos ∧
      ¬ (pos < offset ∧ pos + (UInt32.ofNat right.numNodes).toNat ≥ offset) ∧
      ¬ (pos > offset ∧ pos - (UInt32.ofNat left.numNodes).toNat ≤ offset) := by
  unfold Inside at outside
  rw [cnt_toNat, cnt_toNat]
  omega

theorem avlOffsetTurn_root (holds : Counted mem none (.node node left right))
    (outside : ¬ Inside left right pos offset) :
    avlOffsetTurn mem offset (node, pos) = .ok (.done none) := by
  obtain ⟨⟨height, read⟩, leftCnt, rightCnt⟩ := holds.reads
  obtain ⟨here, notRight, notLeft⟩ := not_inside outside
  simp only [avlOffsetTurn, if_neg here, read, Exec.ok_bind, cellOf, leftCnt, rightCnt,
    if_neg notRight, if_neg notLeft, Exec.pure_eq_ok]

/-- And below the root it goes to the parent, from a left child. -/
theorem avlOffsetTurn_parent_left {path : Path Ptr} {value : Ptr} {sibling : BinaryTree Ptr}
    (holds : Counted mem none (Path.plug (.inLeft value sibling :: path) (.node node left right)))
    (nodup : (inorder (Path.plug (.inLeft value sibling :: path) (.node node left right))).Nodup)
    (outside : ¬ Inside left right pos offset) :
    avlOffsetTurn mem offset (node, pos) =
      .ok (.next (value, pos + (UInt32.ofNat right.numNodes + 1).toNat)) := by
  obtain ⟨⟨height, read⟩, leftCnt, rightCnt⟩ := holds.of_plug.reads
  obtain ⟨⟨above, parentRead⟩, -⟩ := (@Counted.of_plug _ path _ holds).reads
  obtain ⟨here, notRight, notLeft⟩ := not_inside outside
  have different : root sibling ≠ some node := by
    intro equal
    rw [Path.nodup_plug, inorder_node] at nodup
    exact nodup.2.2 node (by simp) (Path.mem_others_cons.mpr (.inr (.inl (root_mem equal))))
  simp only [avlOffsetTurn, if_neg here, read, Exec.ok_bind, cellOf, leftCnt, rightCnt,
    if_neg notRight, if_neg notLeft, Path.parent_cons, Frame.value, parentRead,
    if_neg different, Exec.pure_eq_ok]

/-- The same from a right child. -/
theorem avlOffsetTurn_parent_right {path : Path Ptr} {value : Ptr} {sibling : BinaryTree Ptr}
    (holds : Counted mem none (Path.plug (.inRight sibling value :: path) (.node node left right)))
    (outside : ¬ Inside left right pos offset) :
    avlOffsetTurn mem offset (node, pos) =
      .ok (.next (value, pos - (UInt32.ofNat left.numNodes + 1).toNat)) := by
  obtain ⟨⟨height, read⟩, leftCnt, rightCnt⟩ := holds.of_plug.reads
  obtain ⟨⟨above, parentRead⟩, -⟩ := (@Counted.of_plug _ path _ holds).reads
  obtain ⟨here, notRight, notLeft⟩ := not_inside outside
  simp only [avlOffsetTurn, if_neg here, read, Exec.ok_bind, cellOf, leftCnt, rightCnt,
    if_neg notRight, if_neg notLeft, Path.parent_cons, Frame.value, parentRead, root_node,
    if_true, Exec.pure_eq_ok]

end Turns

/-- Once the target lies in the subtree of the current node, `avl_offset` descends
to it. -/
theorem avlOffset_descends {mem : AVLMem} {parent : Option Ptr} {node : Ptr}
    {left right : BinaryTree Ptr} {pos offset : Int} {fuel : Nat}
    (holds : Counted mem parent (.node node left right)) (inside : Inside left right pos offset)
    (enough : (BinaryTree.node node left right).height < fuel) :
    ∃ found, loop (avlOffsetTurn mem offset) fuel (node, pos) = .ok (some found) ∧
      found ∈ inorder (.node node left right) ∧
      ((BinaryTree.node node left right).numNodes < 2 ^ 32 →
        (inorder (.node node left right))[(offset - pos + left.numNodes).toNat]? = some found) := by
  generalize treeEq : BinaryTree.node node left right = tree at *
  induction tree generalizing parent node left right pos fuel with
  | nil => cases treeEq
  | node value lower upper lowerIH upperIH =>
      cases treeEq
      obtain ⟨fuel, rfl⟩ :=
        Nat.exists_eq_add_one_of_ne_zero (Nat.ne_of_gt (Nat.zero_lt_of_lt enough))
      simp only [BinaryTree.height] at enough
      have bounds := inside
      unfold Inside at bounds
      by_cases here : offset = pos
      · refine ⟨value, loop_done (by simp [avlOffsetTurn, here]) fuel, by simp, fun _ => ?_⟩
        have index : (offset - pos + lower.numNodes).toNat = (inorder lower).length := by
          rw [inorder_length]
          omega
        rw [index, inorder_node]
        simp
      · by_cases ahead : pos < offset
        · cases upper with
          | nil =>
              simp only [BinaryTree.numNodes] at bounds
              omega
          | node child inner outer =>
              rw [loop_next (avlOffsetTurn_right holds inside ahead), cnt_add_one_toNat]
              simp only [BinaryTree.numNodes] at bounds
              obtain ⟨found, walk, member, exact⟩ := @upperIH _ child inner outer
                (pos + ((inner.numNodes + 1) % 2 ^ 32 : Nat)) fuel
                (by unfold Inside; omega) rfl holds.2.2 (by omega)
              refine ⟨found, walk, by simp only [inorder_node] at member ⊢; grind, fun small => ?_⟩
              simp only [BinaryTree.numNodes] at small
              have target := exact (by simp only [BinaryTree.numNodes]; omega)
              rw [inorder_node value lower, List.getElem?_append_right, List.getElem?_cons]
              · rw [if_neg (by rw [inorder_length]; omega), ← target]
                congr 1
                rw [inorder_length]
                omega
              · rw [inorder_length]
                omega
        · cases lower with
          | nil =>
              simp only [BinaryTree.numNodes] at bounds
              omega
          | node child outer inner =>
              rw [loop_next (avlOffsetTurn_left holds inside (by omega)), cnt_add_one_toNat]
              simp only [BinaryTree.numNodes] at bounds
              obtain ⟨found, walk, member, exact⟩ := @lowerIH _ child outer inner
                (pos - ((inner.numNodes + 1) % 2 ^ 32 : Nat)) fuel
                (by unfold Inside; omega) rfl holds.2.1 (by omega)
              refine ⟨found, walk, by simp only [inorder_node] at member ⊢; grind, fun small => ?_⟩
              simp only [BinaryTree.numNodes] at small
              have target := exact (by simp only [BinaryTree.numNodes]; omega)
              rw [inorder_node value, List.getElem?_append_left, ← target]
              · congr 1
                simp only [BinaryTree.numNodes]
                omega
              · rw [inorder_length]
                simp only [BinaryTree.numNodes]
                omega

/-- The node at a rank, if the rank is in the tree. -/
def atRank (nodes : List Ptr) (rank : Int) : Option Ptr :=
  if 0 ≤ rank then nodes[rank.toNat]? else none

/-- When the target lies in the subtree in the hole of a path, `avl_offset` finds it
there. -/
theorem avlOffset_inside {mem : AVLMem} {path : Path Ptr} {node : Ptr}
    {left right : BinaryTree Ptr} {pos offset : Int} {fuel : Nat}
    (holds : Counted mem none (Path.plug path (.node node left right)))
    (inside : Inside left right pos offset)
    (enough : (Path.plug path (.node node left right)).height < fuel) :
    ∃ found, loop (avlOffsetTurn mem offset) fuel (node, pos) = .ok (some found) ∧
      found ∈ inorder (Path.plug path (.node node left right)) ∧
      ((Path.plug path (.node node left right)).numNodes < 2 ^ 32 →
        some found = atRank (inorder (Path.plug path (.node node left right)))
          (offset - pos + left.numNodes + (Path.before path).length)) := by
  have height := Path.le_height path (BinaryTree.node node left right).height
  rw [Path.height_plug] at enough
  obtain ⟨found, walk, member, exact⟩ := avlOffset_descends holds.of_plug inside
    (show _ < fuel by omega)
  refine ⟨found, walk, Path.mem_inorder_plug.mpr (.inl member), fun small => ?_⟩
  rw [← inorder_length, Path.inorder_plug, List.length_append, List.length_append,
    inorder_length] at small
  have target := exact (by omega)
  have below := (List.getElem?_eq_some_iff.mp target).1
  unfold Inside at inside
  simp only [BinaryTree.numNodes] at small
  have index : (offset - pos + left.numNodes + (Path.before path).length).toNat =
      (Path.before path).length + (offset - pos + left.numNodes).toNat := by omega
  rw [atRank, if_pos (by omega), index, Path.inorder_plug, List.append_assoc,
    List.getElem?_append_right (by omega), Nat.add_sub_cancel_left,
    List.getElem?_append_left below, target]

/-- `avl_offset` from the hole of a path: `pos` is the rank difference from the start
to the current node. -/
theorem avlOffset_climbs {mem : AVLMem} {path : Path Ptr} {node : Ptr}
    {left right : BinaryTree Ptr} {pos offset : Int} {fuel : Nat}
    (holds : Counted mem none (Path.plug path (.node node left right)))
    (nodup : (inorder (Path.plug path (.node node left right))).Nodup)
    (enough : path.length + (Path.plug path (.node node left right)).height < fuel) :
    ∃ found, loop (avlOffsetTurn mem offset) fuel (node, pos) = .ok found ∧
      (∀ result, found = some result → result ∈ inorder (Path.plug path (.node node left right))) ∧
      ((Path.plug path (.node node left right)).numNodes < 2 ^ 32 →
        found = atRank (inorder (Path.plug path (.node node left right)))
          (offset - pos + left.numNodes + (Path.before path).length)) := by
  induction path generalizing node left right pos fuel with
  | nil =>
      by_cases inside : Inside left right pos offset
      · obtain ⟨found, walk, member, exact⟩ := @avlOffset_inside _ _ _ _ _ pos offset fuel holds
          inside (by omega)
        exact ⟨some found, walk, fun result same => Option.some.inj same ▸ member, exact⟩
      · obtain ⟨fuel, rfl⟩ :=
          Nat.exists_eq_add_one_of_ne_zero (Nat.ne_of_gt (Nat.zero_lt_of_lt enough))
        refine ⟨none, loop_done (avlOffsetTurn_root holds inside) fuel, by simp, fun small => ?_⟩
        unfold Inside at inside
        simp only [Path.plug_nil, BinaryTree.numNodes] at small
        unfold atRank
        by_cases nonneg : 0 ≤ offset - pos + left.numNodes + (Path.before ([] : Path Ptr)).length
        · rw [if_pos nonneg]
          refine (List.getElem?_eq_none ?_).symm
          rw [inorder_length]
          simp only [Path.plug_nil, BinaryTree.numNodes, Path.before, List.length_nil] at nonneg ⊢
          omega
        · rw [if_neg nonneg]
  | cons frame path ih =>
      by_cases inside : Inside left right pos offset
      · obtain ⟨found, walk, member, exact⟩ := @avlOffset_inside _ _ _ _ _ pos offset fuel holds
          inside (by omega)
        exact ⟨some found, walk, fun result same => Option.some.inj same ▸ member, exact⟩
      · obtain ⟨fuel, rfl⟩ :=
          Nat.exists_eq_add_one_of_ne_zero (Nat.ne_of_gt (Nat.zero_lt_of_lt enough))
        rw [List.length_cons] at enough
        have sizes : (BinaryTree.node node left right).numNodes ≤
            (inorder (Path.plug (frame :: path) (.node node left right))).length := by
          rw [Path.inorder_plug, List.length_append, List.length_append, inorder_length]
          omega
        cases frame with
        | inLeft value sibling =>
            have turn := avlOffsetTurn_parent_left holds nodup inside
            obtain ⟨found, walk, member, exact⟩ := @ih value (.node node left right) sibling
              (pos + (UInt32.ofNat right.numNodes + 1).toNat) fuel holds nodup
              (by simp only [Path.plug_cons, Frame.fill] at enough; omega)
            refine ⟨found, (loop_next turn fuel).trans walk, member, fun small => ?_⟩
            rw [inorder_length] at sizes
            refine (exact small).trans (congrArg _ ?_)
            simp only [BinaryTree.numNodes] at sizes
            rw [cnt_add_one_toNat]
            simp only [BinaryTree.numNodes, Path.before, Frame.before, List.append_nil]
            omega
        | inRight sibling value =>
            have turn := avlOffsetTurn_parent_right holds inside
            obtain ⟨found, walk, member, exact⟩ := @ih value sibling (.node node left right)
              (pos - (UInt32.ofNat left.numNodes + 1).toNat) fuel holds nodup
              (by simp only [Path.plug_cons, Frame.fill] at enough; omega)
            refine ⟨found, (loop_next turn fuel).trans walk, member, fun small => ?_⟩
            rw [inorder_length] at sizes
            refine (exact small).trans (congrArg _ ?_)
            simp only [BinaryTree.numNodes] at sizes
            rw [cnt_add_one_toNat]
            simp only [Path.before, Frame.before, List.length_append, List.length_singleton,
              inorder_length]
            omega

theorem getElem?_plug (path : Path Ptr) (node : Ptr) (left right : BinaryTree Ptr) :
    (inorder (Path.plug path (.node node left right)))[
      (Path.before path).length + left.numNodes]? = some node := by
  rw [Path.inorder_plug, inorder_node, ← inorder_length]
  simp

namespace Counted

variable {mem : AVLMem} {tree : BinaryTree Ptr} {start : Nat} {node : Ptr}

/-- `avl_offset` returns on every tree, and while the counts are exact it returns the
node at the rank of the start plus the offset. -/
theorem avlOffset_spec (counted : Counted mem none tree) (nodup : (inorder tree).Nodup)
    (found : (inorder tree)[start]? = some node) (offset : Int) :
    ∃ result, avlOffset mem node offset = .ok result ∧
      (∀ other, result = some other → other ∈ inorder tree) ∧
      (tree.numNodes < 2 ^ 32 → result = atRank (inorder tree) (start + offset)) := by
  obtain ⟨path, left, right, rfl⟩ := exists_plug (List.mem_of_getElem? found)
  have short := Mem.length_le_next nodup fun other => counted.live
  rw [inorder_length] at short
  have height := (Path.plug path (.node node left right)).height_le_numNodes
  have depth : path.length ≤ (Path.plug path (.node node left right)).numNodes := by
    have := Path.length_le_others path
    rw [← inorder_length, Path.inorder_plug]
    simp only [Path.others, List.length_append] at this ⊢
    omega
  obtain ⟨result, walk, member, exact⟩ := @avlOffset_climbs mem path node left right 0 offset
    (2 * mem.next + 2) counted nodup (by omega)
  refine ⟨result, walk, member, fun small => ?_⟩
  have rank : start = (Path.before path).length + left.numNodes := by
    apply (List.getElem?_inj (List.getElem?_eq_some_iff.mp found).1 nodup).mp
    rw [found, getElem?_plug]
  rw [exact small, rank]
  congr 1
  omega

/-- A turn that goes on adds to `pos` the difference of the ranks. -/
theorem rank_turn (counted : Counted mem none tree) (nodup : (inorder tree).Nodup)
    (small : tree.numNodes < 2 ^ 32) (found : (inorder tree)[start]? = some node)
    {pos offset : Int} {after : Ptr × Int}
    (turn : avlOffsetTurn mem offset (node, pos) = .ok (.next after)) :
    ∃ rank : Nat, (inorder tree)[rank]? = some after.1 ∧ after.2 - pos = rank - start := by
  obtain ⟨path, left, right, rfl⟩ := exists_plug (List.mem_of_getElem? found)
  have place : start = (Path.before path).length + left.numNodes := by
    apply (List.getElem?_inj (List.getElem?_eq_some_iff.mp found).1 nodup).mp
    rw [found, getElem?_plug]
  have size : left.numNodes + right.numNodes + 1 < 2 ^ 32 := by
    rw [← inorder_length, Path.inorder_plug, List.length_append, List.length_append,
      inorder_length, BinaryTree.numNodes] at small
    omega
  by_cases inside : Inside left right pos offset
  · have bounds := inside
    unfold Inside at bounds
    by_cases here : offset = pos
    · simp [avlOffsetTurn, here] at turn
    · by_cases ahead : pos < offset
      · cases right with
        | nil =>
            simp only [BinaryTree.numNodes] at bounds
            omega
        | node child inner outer =>
            rw [avlOffsetTurn_right counted.of_plug inside ahead] at turn
            cases turn
            refine ⟨_, getElem?_plug (.inRight left node :: path) child inner outer, ?_⟩
            simp only [BinaryTree.numNodes] at size
            rw [cnt_add_one_toNat, place]
            simp only [Path.before, Frame.before, List.length_append, List.length_singleton,
              inorder_length]
            omega
      · cases left with
        | nil =>
            simp only [BinaryTree.numNodes] at bounds
            omega
        | node child outer inner =>
            rw [avlOffsetTurn_left counted.of_plug inside (by omega)] at turn
            cases turn
            refine ⟨_, getElem?_plug (.inLeft node right :: path) child outer inner, ?_⟩
            simp only [BinaryTree.numNodes] at size
            rw [cnt_add_one_toNat, place]
            simp only [Path.before, Frame.before, List.append_nil, BinaryTree.numNodes]
            omega
  · cases path with
    | nil =>
        rw [avlOffsetTurn_root counted inside] at turn
        cases turn
    | cons frame path =>
        cases frame with
        | inLeft value sibling =>
            rw [avlOffsetTurn_parent_left counted nodup inside] at turn
            cases turn
            refine ⟨_, getElem?_plug path value (.node node left right) sibling, ?_⟩
            rw [cnt_add_one_toNat, place]
            simp only [Path.before, Frame.before, List.append_nil, BinaryTree.numNodes]
            omega
        | inRight sibling value =>
            rw [avlOffsetTurn_parent_right counted inside] at turn
            cases turn
            refine ⟨_, getElem?_plug path value sibling (.node node left right), ?_⟩
            rw [cnt_add_one_toNat, place]
            simp only [Path.before, Frame.before, List.length_append, List.length_singleton,
              inorder_length]
            omega

/-- In every state that `avl_offset` passes through, `pos` is the difference of the ranks
of the current node and of the start. -/
theorem passes (counted : Counted mem none tree) (nodup : (inorder tree).Nodup)
    (small : tree.numNodes < 2 ^ 32) (found : (inorder tree)[start]? = some node)
    {offset : Int} {state : Ptr × Int}
    (passes : Passes (avlOffsetTurn mem offset) (node, 0) state) :
    ∃ rank : Nat, (inorder tree)[rank]? = some state.1 ∧ state.2 = rank - start := by
  refine passes.holds (fun state => ∃ rank : Nat, (inorder tree)[rank]? = some state.1 ∧
    state.2 = rank - start) ⟨start, found, by simp⟩ ?_
  rintro ⟨current, pos⟩ after ⟨rank, place, posEq⟩ turn
  obtain ⟨next, nextPlace, moved⟩ := counted.rank_turn nodup small place turn
  have posEq : pos = rank - start := posEq
  exact ⟨next, nextPlace, by omega⟩

end Counted

theorem avlOffset_spec {mem : AVLMem} {tree : BinaryTree Ptr} (valid : AVLTree mem tree)
    {start : Nat} {node : Ptr} (found : (inorder tree)[start]? = some node) (offset : Int) :
    ∃ result, avlOffset mem node offset = .ok result ∧
      (∀ other, result = some other → other ∈ inorder tree) ∧
      (tree.numNodes < 2 ^ 32 → result = atRank (inorder tree) (start + offset)) :=
  valid.represents.counted.avlOffset_spec valid.nodup found offset

/-- `avl_offset` on a tree of any shape with right links and counts: it ends at the node
whose rank is that of the start plus the offset, or returns null exactly when that rank is
outside the tree, and `pos` never leaves the range from `-n` to `n`. -/
theorem avlOffset_atRank {mem : AVLMem} {tree : BinaryTree Ptr} (counted : Counted mem none tree)
    (nodup : (inorder tree).Nodup) (small : tree.numNodes < 2 ^ 32) {start : Nat} {node : Ptr}
    (found : (inorder tree)[start]? = some node) (offset : Int) :
    (Exec.Returns (avlOffset mem node offset) fun result =>
      (∀ other, result = some other ↔
        ∃ rank : Nat, (rank : Int) = start + offset ∧ (inorder tree)[rank]? = some other) ∧
      (result = none ↔ start + offset < 0 ∨ (tree.numNodes : Int) ≤ start + offset)) ∧
    ∀ state, Passes (avlOffsetTurn mem offset) (node, 0) state →
      -(tree.numNodes : Int) ≤ state.2 ∧ state.2 ≤ tree.numNodes := by
  constructor
  · obtain ⟨result, eq, -, exact⟩ := counted.avlOffset_spec nodup found offset
    refine ⟨result, eq, ?_⟩
    rw [exact small, atRank]
    by_cases nonneg : 0 ≤ start + offset
    · rw [if_pos nonneg]
      obtain ⟨rank, rankEq⟩ := Int.eq_ofNat_of_zero_le nonneg
      rw [rankEq, Int.toNat_natCast]
      constructor
      · intro other
        constructor
        · intro place
          exact ⟨rank, rfl, place⟩
        · rintro ⟨index, same, place⟩
          rwa [Int.ofNat_inj.mp same] at place
      · rw [List.getElem?_eq_none_iff, inorder_length]
        omega
    · rw [if_neg nonneg]
      constructor
      · intro other
        constructor
        · intro impossible
          cases impossible
        · rintro ⟨rank, same, -⟩
          omega
      · simp only [true_iff]
        omega
  · intro state passes
    obtain ⟨rank, place, posEq⟩ := counted.passes nodup small found passes
    have rankLt := (List.getElem?_eq_some_iff.mp place).1
    have startLt := (List.getElem?_eq_some_iff.mp found).1
    rw [inorder_length] at rankLt startLt
    omega

/-- From the second of three nodes in a line, one step back. -/
theorem avlOffset_atRank_line : avlOffset
    (((Mem.empty.put 0 ⟨none, some 1, none, 9, 3⟩).put 1 ⟨some 0, some 2, none, 9, 2⟩).put 2
      ⟨some 1, none, none, 9, 1⟩) 1 (-1) = .ok (some 2) := by
  have counted : Counted (((Mem.empty.put 0 ⟨none, some 1, none, 9, 3⟩).put 1
      ⟨some 0, some 2, none, 9, 2⟩).put 2 ⟨some 1, none, none, 9, 1⟩) none
      (.node 0 (.node 1 (.node 2 .nil .nil) .nil) .nil) :=
    ⟨⟨9, rfl⟩, ⟨⟨9, rfl⟩, ⟨⟨9, rfl⟩, trivial, trivial⟩, trivial⟩, trivial⟩
  obtain ⟨⟨result, eq, isNode, -⟩, -⟩ := avlOffset_atRank counted (by decide) (by decide)
    (show (inorder _)[1]? = some 1 from rfl) (-1)
  rw [eq, (isNode 2).mpr ⟨0, rfl, rfl⟩]

end RedisLite
