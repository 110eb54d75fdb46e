import RedisLite.Avl.Core
import RedisLite.Lib.Tree

/-!
# AVL nodes as trees

`Represents mem parent tree` says that the cells of `mem` spell out `tree`, a
tree of node identities, below `parent`: every child link, parent link, `height`
and `cnt` is the one the shape dictates.  `Around` says the same of the path from
a hole to the root, except that the heights and counts of the ancestors may be
out of date, which is the state in which `avl_fix` starts.

The lemmas here say how the single stores of `avl.cpp` act on these predicates.
-/

namespace RedisLite

open Lib Lib.Tree

/-- The contents of the root cell of a tree with the given subtrees. -/
def cellOf (parent : Option Ptr) (left right : BinaryTree Ptr) : AVLNode where
  parent := parent
  left := root left
  right := root right
  height := UInt32.ofNat (max left.height right.height + 1)
  cnt := UInt32.ofNat (left.numNodes + right.numNodes + 1)

/-- The memory holds `tree` below `parent`. -/
def Represents (mem : AVLMem) : Option Ptr → BinaryTree Ptr → Prop
  | _, .nil => True
  | parent, .node node left right =>
      mem.cell node = some (cellOf parent left right) ∧
        Represents mem (some node) left ∧ Represents mem (some node) right

/-- The memory holds `tree` below `parent`, except that the height and count of
its root may be out of date. -/
def Stale (mem : AVLMem) (parent : Option Ptr) : BinaryTree Ptr → Prop
  | .nil => False
  | .node node left right =>
      (∃ height cnt, mem.cell node = some ⟨parent, root left, root right, height, cnt⟩) ∧
        Represents mem (some node) left ∧ Represents mem (some node) right

theorem Represents.stale {mem : AVLMem} {parent : Option Ptr} {node : Ptr}
    {left right : BinaryTree Ptr} (holds : Represents mem parent (.node node left right)) :
    Stale mem parent (.node node left right) :=
  ⟨⟨_, _, holds.1⟩, holds.2⟩

theorem Represents.live {mem : AVLMem} {tree : BinaryTree Ptr} {parent : Option Ptr}
    (holds : Represents mem parent tree) {node : Ptr} (member : node ∈ inorder tree) :
    ∃ cell, mem.cell node = some cell := by
  induction tree generalizing parent with
  | nil => simp at member
  | node other left right leftIH rightIH =>
      simp only [inorder_node, List.mem_append, List.mem_cons] at member
      rcases member with inLeft | rfl | inRight
      · exact leftIH holds.2.1 inLeft
      · exact ⟨_, holds.1⟩
      · exact rightIH holds.2.2 inRight

theorem Represents.congr {mem after : AVLMem} {tree : BinaryTree Ptr} {parent : Option Ptr}
    (holds : Represents mem parent tree)
    (same : ∀ node ∈ inorder tree, after.cell node = mem.cell node) :
    Represents after parent tree := by
  induction tree generalizing parent with
  | nil => trivial
  | node other left right leftIH rightIH =>
      refine ⟨(same other (by simp)).trans holds.1, ?_, ?_⟩
      · exact leftIH holds.2.1 fun node member => same node (by simp [member])
      · exact rightIH holds.2.2 fun node member => same node (by simp [member])

theorem Represents.put {mem : AVLMem} {tree : BinaryTree Ptr} {parent : Option Ptr}
    (holds : Represents mem parent tree) {node : Ptr} (outside : node ∉ inorder tree)
    (cell : AVLNode) : Represents (mem.put node cell) parent tree := by
  refine holds.congr fun other member => ?_
  rw [Mem.put_cell, if_neg]
  rintro rfl
  exact outside member

theorem Represents.drop {mem : AVLMem} {tree : BinaryTree Ptr} {parent : Option Ptr}
    (holds : Represents mem parent tree) {node : Ptr} (outside : node ∉ inorder tree) :
    Represents (mem.drop node) parent tree :=
  holds.congr fun _ member => if_neg (ne_of_mem_of_not_mem member outside)

theorem Represents.outside {mem after : AVLMem} {tree : BinaryTree Ptr} {parent : Option Ptr}
    (holds : Represents mem parent tree) {owned : List Ptr}
    (same : Mem.SameOutside owned mem after) (disjoint : ∀ node ∈ inorder tree, node ∉ owned) :
    Represents after parent tree :=
  holds.congr fun node member => same.cell node (disjoint node member)

/-! ## Reading -/

@[simp] theorem avlHeight_eq {mem : AVLMem} {tree : BinaryTree Ptr} {parent : Option Ptr}
    (holds : Represents mem parent tree) :
    avlHeight mem (root tree) = .ok (UInt32.ofNat tree.height) := by
  cases tree with
  | nil => rfl
  | node node left right => simp [avlHeight, Mem.read_eq holds.1, cellOf]

@[simp] theorem avlCnt_eq {mem : AVLMem} {tree : BinaryTree Ptr} {parent : Option Ptr}
    (holds : Represents mem parent tree) :
    avlCnt mem (root tree) = .ok (UInt32.ofNat tree.numNodes) := by
  cases tree with
  | nil => rfl
  | node node left right => simp [avlCnt, Mem.read_eq holds.1, cellOf]

theorem ofNat_lt_iff {left right : Nat} (leftSmall : left < 2 ^ 32)
    (rightSmall : right < 2 ^ 32) :
    UInt32.ofNat left < UInt32.ofNat right ↔ left < right := by
  rw [UInt32.lt_iff_toNat_lt, UInt32.toNat_ofNat', UInt32.toNat_ofNat',
    Nat.mod_eq_of_lt leftSmall, Nat.mod_eq_of_lt rightSmall]

theorem ofNat_eq_iff {left right : Nat} (leftSmall : left < 2 ^ 32)
    (rightSmall : right < 2 ^ 32) :
    UInt32.ofNat left = UInt32.ofNat right ↔ left = right := by
  rw [← UInt32.toNat_inj, UInt32.toNat_ofNat', UInt32.toNat_ofNat',
    Nat.mod_eq_of_lt leftSmall, Nat.mod_eq_of_lt rightSmall]

theorem maxU32_ofNat {left right : Nat} (leftSmall : left < 2 ^ 32)
    (rightSmall : right < 2 ^ 32) :
    maxU32 (UInt32.ofNat left) (UInt32.ofNat right) = UInt32.ofNat (max left right) := by
  rw [maxU32]
  by_cases less : left < right
  · rw [if_pos ((ofNat_lt_iff leftSmall rightSmall).mpr less), Nat.max_eq_right (by omega)]
  · rw [if_neg (mt (ofNat_lt_iff leftSmall rightSmall).mp less), Nat.max_eq_left (by omega)]

/-! ## Writing -/

/-- `avl_update` stores the height and count the shape dictates. -/
theorem avlUpdate_eq {mem : AVLMem} {parent : Option Ptr} {node : Ptr}
    {left right : BinaryTree Ptr} (stale : Stale mem parent (.node node left right))
    (small : max left.height right.height < 2 ^ 32) :
    avlUpdate mem node = .ok (mem.put node (cellOf parent left right)) := by
  obtain ⟨⟨height, cnt, live⟩, leftHolds, rightHolds⟩ := stale
  have heightEq : 1 + maxU32 (UInt32.ofNat left.height) (UInt32.ofNat right.height) =
      UInt32.ofNat (max left.height right.height + 1) := by
    rw [maxU32_ofNat (by omega) (by omega), UInt32.ofNat_add, UInt32.add_comm]
    rfl
  have cntEq : 1 + UInt32.ofNat left.numNodes + UInt32.ofNat right.numNodes =
      UInt32.ofNat (left.numNodes + right.numNodes + 1) := by
    rw [UInt32.ofNat_add, UInt32.ofNat_add, UInt32.add_comm 1, UInt32.add_assoc,
      UInt32.add_assoc, UInt32.add_comm 1]
    rfl
  have leftHeight := avlHeight_eq leftHolds
  have rightHeight := avlHeight_eq rightHolds
  have leftCnt := avlCnt_eq leftHolds
  have rightCnt := avlCnt_eq rightHolds
  simp only [avlUpdate, Mem.read_eq live, Exec.ok_bind, cellOf, leftHeight, rightHeight, leftCnt,
    rightCnt, heightEq, cntEq, Mem.modify_eq live]

theorem Represents.of_put {mem : AVLMem} {parent : Option Ptr} {node : Ptr}
    {left right : BinaryTree Ptr} (leftHolds : Represents mem (some node) left)
    (rightHolds : Represents mem (some node) right)
    (nodup : (inorder (.node node left right)).Nodup) :
    Represents (mem.put node (cellOf parent left right)) parent (.node node left right) := by
  have outside : node ∉ inorder left ∧ node ∉ inorder right := by
    have apart := List.nodup_append.mp nodup
    exact ⟨fun member => apart.2.2 node member node (by simp) rfl,
      (List.nodup_cons.mp apart.2.1).1⟩
  exact ⟨by simp, leftHolds.put outside.1 _, rightHolds.put outside.2 _⟩

theorem setParent_some (mem : AVLMem) (node : Ptr) (parent : Option Ptr) :
    setParent mem (some node) parent =
      mem.modify node fun cell => { cell with parent := parent } := rfl

theorem setParent_spec {mem : AVLMem} {tree : BinaryTree Ptr} {old : Option Ptr}
    (holds : Represents mem old tree) (nodup : (inorder tree).Nodup) (parent : Option Ptr) :
    Exec.Returns (setParent mem (root tree) parent) fun after =>
      Represents after parent tree ∧ Mem.SameOutside (root tree).toList mem after := by
  cases tree with
  | nil => exact .of_ok ⟨trivial, .refl _ _⟩
  | node node left right =>
      simp only [setParent, root_node, Mem.modify_eq holds.1, Option.toList_some]
      exact .of_ok ⟨.of_put holds.2.1 holds.2.2 nodup, .put holds.1 _⟩

/-! ## Paths -/

/-- The cell of the node of a frame whose hole holds `child`. -/
def frameCell (parent child : Option Ptr) (height cnt : UInt32) : Frame Ptr → AVLNode
  | .inLeft _ right => ⟨parent, child, root right, height, cnt⟩
  | .inRight left _ => ⟨parent, root left, child, height, cnt⟩

/-- The memory holds the path around `child`, up to the heights and counts of the
ancestors. -/
def Around (mem : AVLMem) : Option Ptr → Path Ptr → Prop
  | _, [] => True
  | child, frame :: path =>
      (∃ height cnt, mem.cell frame.value =
        some (frameCell (Path.parent path) child height cnt frame)) ∧
        Represents mem (some frame.value) frame.sibling ∧ Around mem (some frame.value) path

/-- The memory holds the path around `tree`. -/
def Surrounds (mem : AVLMem) : Path Ptr → BinaryTree Ptr → Prop
  | [], _ => True
  | frame :: path, tree =>
      mem.cell frame.value = some (frameCell (Path.parent path) (root tree)
        (UInt32.ofNat (frame.fill tree).height) (UInt32.ofNat (frame.fill tree).numNodes)
        frame) ∧
        Represents mem (some frame.value) frame.sibling ∧
        Surrounds mem path (frame.fill tree)

theorem root_fill (frame : Frame Ptr) (tree : BinaryTree Ptr) :
    root (frame.fill tree) = some frame.value := by
  cases frame <;> rfl

/-- A represented tree splits into any of its subtrees and the path around it. -/
theorem represents_plug {mem : AVLMem} {path : Path Ptr} {tree : BinaryTree Ptr} :
    Represents mem none (Path.plug path tree) ↔
      Represents mem (Path.parent path) tree ∧ Surrounds mem path tree := by
  induction path generalizing tree with
  | nil => simp [Surrounds]
  | cons frame path ih =>
      rw [Path.plug_cons, ih]
      cases frame with
      | inLeft value right =>
          simp only [Frame.fill, Represents, Surrounds, frameCell, cellOf, Path.parent_cons,
            Frame.value, Frame.sibling, BinaryTree.height, BinaryTree.numNodes]
          tauto
      | inRight left value =>
          simp only [Frame.fill, Represents, Surrounds, frameCell, cellOf, Path.parent_cons,
            Frame.value, Frame.sibling, BinaryTree.height, BinaryTree.numNodes]
          tauto

theorem Surrounds.around {mem : AVLMem} {path : Path Ptr} {tree : BinaryTree Ptr}
    (holds : Surrounds mem path tree) : Around mem (root tree) path := by
  induction path generalizing tree with
  | nil => trivial
  | cons frame path ih =>
      refine ⟨⟨_, _, holds.1⟩, holds.2.1, ?_⟩
      rw [← root_fill frame tree]
      exact ih holds.2.2

/-- A path sees only the root, the height and the size of what it surrounds. -/
theorem Surrounds.replace {mem : AVLMem} {path : Path Ptr} {tree other : BinaryTree Ptr}
    (holds : Surrounds mem path tree) (sameRoot : root tree = root other)
    (sameHeight : tree.height = other.height) (sameSize : tree.numNodes = other.numNodes) :
    Surrounds mem path other := by
  induction path generalizing tree other with
  | nil => trivial
  | cons frame path ih =>
      have fillHeight : (frame.fill tree).height = (frame.fill other).height := by
        simp [sameHeight]
      have fillSize : (frame.fill tree).numNodes = (frame.fill other).numNodes := by
        cases frame <;> simp [Frame.fill, sameSize]
      refine ⟨?_, holds.2.1, ih holds.2.2 (by simp [root_fill]) fillHeight fillSize⟩
      rw [holds.1, sameRoot, fillHeight, fillSize]

theorem Around.live {mem : AVLMem} {child : Option Ptr} {path : Path Ptr}
    (holds : Around mem child path) :
    ∀ node ∈ Path.others path, ∃ cell, mem.cell node = some cell := by
  induction path generalizing child with
  | nil => simp
  | cons frame path ih =>
      obtain ⟨⟨height, cnt, live⟩, sibling, rest⟩ := holds
      intro node member
      rcases Path.mem_others_cons.mp member with rfl | inSibling | inRest
      · exact ⟨_, live⟩
      · exact sibling.live inSibling
      · exact ih rest node inRest

theorem Around.outside {mem after : AVLMem} {child : Option Ptr} {path : Path Ptr}
    (holds : Around mem child path) {owned : List Ptr}
    (same : Mem.SameOutside owned mem after)
    (disjoint : ∀ node ∈ Path.others path, node ∉ owned) : Around after child path := by
  induction path generalizing child with
  | nil => trivial
  | cons frame path ih =>
      obtain ⟨⟨height, cnt, live⟩, sibling, rest⟩ := holds
      simp only [Path.mem_others_cons] at disjoint
      refine ⟨⟨height, cnt, (same.cell _ (disjoint _ (.inl rfl))).trans live⟩, ?_, ?_⟩
      · exact sibling.outside same fun node member => disjoint node (.inr (.inl member))
      · exact ih rest fun node member => disjoint node (.inr (.inr member))

theorem Surrounds.outside {mem after : AVLMem} {path : Path Ptr} {tree : BinaryTree Ptr}
    (holds : Surrounds mem path tree) {owned : List Ptr}
    (same : Mem.SameOutside owned mem after)
    (disjoint : ∀ node ∈ Path.others path, node ∉ owned) : Surrounds after path tree := by
  induction path generalizing tree with
  | nil => trivial
  | cons frame path ih =>
      simp only [Path.mem_others_cons] at disjoint
      refine ⟨(same.cell _ (disjoint _ (.inl rfl))).trans holds.1, ?_, ?_⟩
      · exact holds.2.1.outside same fun node member => disjoint node (.inr (.inl member))
      · exact ih holds.2.2 fun node member => disjoint node (.inr (.inr member))

theorem Around.stale {mem : AVLMem} {frame : Frame Ptr} {path : Path Ptr}
    {tree : BinaryTree Ptr} (holds : Represents mem (some frame.value) tree)
    (around : Around mem (root tree) (frame :: path)) :
    Stale mem (Path.parent path) (frame.fill tree) ∧ Around mem (some frame.value) path := by
  obtain ⟨⟨height, cnt, live⟩, sibling, rest⟩ := around
  cases frame with
  | inLeft value right => exact ⟨⟨⟨height, cnt, live⟩, holds, sibling⟩, rest⟩
  | inRight left value => exact ⟨⟨⟨height, cnt, live⟩, sibling, holds⟩, rest⟩

/-- The slot that points to the hole of a path. -/
def slotAt : Path Ptr → Slot
  | [] => .local
  | .inLeft value _ :: _ => .left value
  | .inRight _ value :: _ => .right value

theorem slotOf_spec {mem : AVLMem} {node : Ptr} {path : Path Ptr}
    (around : Around mem (some node) path) (outside : node ∉ Path.others path) :
    slotOf mem (Path.parent path) node = .ok (slotAt path) := by
  cases path with
  | nil => rfl
  | cons frame path =>
      obtain ⟨⟨height, cnt, live⟩, -⟩ := around
      cases frame with
      | inLeft value right =>
          have read : mem.read value = .ok ⟨_, some node, root right, height, cnt⟩ :=
            Mem.read_eq live
          simp [slotOf, Frame.value, read, slotAt]
      | inRight left value =>
          have read : mem.read value = .ok ⟨_, root left, some node, height, cnt⟩ :=
            Mem.read_eq live
          have different : root left ≠ some node := fun equal =>
            outside (Path.mem_others_cons.mpr (.inr (.inl (root_mem equal))))
          simp [slotOf, Frame.value, read, slotAt, different]

theorem store_eq {mem : AVLMem} {parent child : Option Ptr} {height cnt : UInt32}
    {frame : Frame Ptr} (path : Path Ptr)
    (live : mem.cell frame.value = some (frameCell parent child height cnt frame))
    (new : Option Ptr) :
    (slotAt (frame :: path)).store mem new =
      .ok (mem.put frame.value (frameCell parent new height cnt frame)) := by
  cases frame with
  | inLeft value right => exact Mem.modify_eq live _
  | inRight left value => exact Mem.modify_eq live _

theorem store_spec {mem : AVLMem} {child : Option Ptr} {path : Path Ptr}
    (around : Around mem child path) (nodup : (Path.others path).Nodup) (new : Option Ptr) :
    Exec.Returns ((slotAt path).store mem new) fun after =>
      Around after new path ∧ Mem.SameOutside (Path.parent path).toList mem after := by
  cases path with
  | nil => exact .of_ok ⟨trivial, .refl _ _⟩
  | cons frame path =>
      obtain ⟨⟨height, cnt, live⟩, sibling, rest⟩ := around
      obtain ⟨⟨outSibling, outRest⟩, -⟩ := Path.nodup_others_cons.mp nodup
      have same := Mem.SameOutside.put live (frameCell (Path.parent path) new height cnt frame)
      rw [store_eq path live, Exec.returns_ok]
      refine ⟨⟨⟨height, cnt, Mem.put_self _ _ _⟩, sibling.put outSibling _, ?_⟩, same⟩
      exact rest.outside same fun other member => by
        simpa using fun equal : other = frame.value => outRest (equal ▸ member)

/-- A subtree of the same height and size may take the place of another. -/
theorem storeTree_spec {mem : AVLMem} {path : Path Ptr} {tree other : BinaryTree Ptr}
    (surrounds : Surrounds mem path tree) (nodup : (Path.others path).Nodup)
    (sameHeight : tree.height = other.height) (sameSize : tree.numNodes = other.numNodes) :
    Exec.Returns ((slotAt path).store mem (root other)) fun after =>
      Surrounds after path other ∧ Mem.SameOutside (Path.parent path).toList mem after := by
  cases path with
  | nil => exact .of_ok ⟨trivial, .refl _ _⟩
  | cons frame path =>
      obtain ⟨live, sibling, rest⟩ := surrounds
      obtain ⟨⟨outSibling, outRest⟩, -⟩ := Path.nodup_others_cons.mp nodup
      have fillHeight : (frame.fill tree).height = (frame.fill other).height := by
        simp [sameHeight]
      have fillSize : (frame.fill tree).numNodes = (frame.fill other).numNodes := by
        cases frame <;> simp [Frame.fill, sameSize]
      rw [fillHeight, fillSize] at live
      have same := Mem.SameOutside.put live (frameCell (Path.parent path) (root other)
        (UInt32.ofNat (frame.fill other).height) (UInt32.ofNat (frame.fill other).numNodes) frame)
      rw [store_eq path live, Exec.returns_ok]
      refine ⟨⟨Mem.put_self _ _ _, sibling.put outSibling _, ?_⟩, same⟩
      refine (rest.outside same fun value member => ?_).replace (by simp [root_fill]) fillHeight
        fillSize
      simpa using fun equal : value = frame.value => outRest (equal ▸ member)

end RedisLite
