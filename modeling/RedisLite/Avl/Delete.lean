import RedisLite.Avl.Insert
import Mathlib.Data.List.Basic

/-!
# Detaching a node

`avl_del_easy` detaches a node with at most one child: its only child takes its
place, and the climb starts there.  `avl_del` reduces a node with two children to
that case: the successor is detached first, and is then written over the node,
wherever the climb may have moved it.
-/

namespace RedisLite

open Lib Lib.Tree

/-- The child that `avl_del_easy` keeps. -/
def onlyChild : BinaryTree Ptr → BinaryTree Ptr → BinaryTree Ptr
  | .nil, right => right
  | left, _ => left

theorem inorder_onlyChild {left right : BinaryTree Ptr} (easy : left = .nil ∨ right = .nil) :
    inorder left ++ inorder right = inorder (onlyChild left right) := by
  rcases easy with rfl | rfl
  · rfl
  · cases left <;> simp [onlyChild]

/-- Detaching a node with at most one child. -/
theorem avlDelEasy_spec {mem : AVLMem} {path : Path Ptr} {node : Ptr}
    {left right : BinaryTree Ptr}
    (valid : AVLTree mem (Path.plug path (.node node left right)))
    (small : (Path.plug path (.node node left right)).numNodes < 2 ^ 64)
    (easy : left = .nil ∨ right = .nil) :
    Exec.Returns (avlDelEasy mem node) fun result =>
      result.2 = root (Path.climb path (onlyChild left right)) ∧
        AVLTree result.1 (Path.climb path (onlyChild left right)) ∧
        Mem.SameOutside (inorder (Path.plug path (onlyChild left right))) mem result.1 := by
  obtain ⟨⟨live, leftHolds, rightHolds⟩, surrounds⟩ := represents_plug.mp valid.represents
  obtain ⟨othersNodup, treeNodup, apart⟩ := Path.nodup_plug.mp valid.nodup
  obtain ⟨⟨leftLe, rightLe, leftBalanced, rightBalanced⟩, pathBalanced⟩ :=
    Path.balanced_plug.mp valid.balanced
  have height := valid.height_le small
  rw [Path.height_plug] at height
  generalize childEq : onlyChild left right = child
  have childHolds : Represents mem (some node) child := by
    rw [← childEq]; cases left <;> assumption
  have values : inorder left ++ inorder right = inorder child := by
    rw [← childEq, inorder_onlyChild easy]
  have childBalanced : Balanced child := by
    rw [← childEq]; cases left <;> assumption
  have childHeight : max left.height right.height = child.height := by
    rw [← childEq]
    rcases easy with rfl | rfl
    · simp [onlyChild]
    · cases left <;> simp [onlyChild]
  have rootEq : (if (root left).isSome then root left else root right) = root child := by
    rw [← childEq]; cases left <;> rfl
  have assertion : ((root left).isNone || (root right).isNone) = true := by
    rcases easy with rfl | rfl <;> simp
  have childMem : ∀ other ∈ inorder child, other ∈ inorder (.node node left right) := by
    intro other member
    rw [← values, List.mem_append] at member
    simp only [inorder_node, List.mem_append, List.mem_cons]
    tauto
  have childNodup : (inorder child).Nodup := by
    rw [← values]
    simp only [inorder_node] at treeNodup
    grind
  have nodup : (inorder (Path.plug path child)).Nodup :=
    Path.nodup_plug.mpr ⟨othersNodup, childNodup, fun other member =>
      apart other (childMem other member)⟩
  have repairable : path.Repairable child (BinaryTree.node node left right).height := by
    simp only [BinaryTree.height] at pathBalanced ⊢
    exact .of_balanced childBalanced (by omega) (by omega) pathBalanced
  obtain ⟨mem₁, eq₁, childHolds₁, same₁⟩ :=
    setParent_spec childHolds childNodup (Path.parent path)
  have rootChild : (root child).toList ⊆ inorder child := by
    intro other member
    exact root_mem (by simpa using member)
  have around₁ : Around mem₁ (some node) path :=
    surrounds.around.outside same₁ fun other member isRoot =>
      apart other (childMem other (rootChild isRoot)) member
  simp only [avlDelEasy, Mem.read_eq live, Exec.ok_bind, cellOf, assertion, Exec.assert_true,
    rootEq, eq₁]
  cases path with
  | nil =>
      have climbed : Path.climb [] child = child := rebalance_of_balanced childBalanced
      simp only [Path.parent_nil, Exec.pure_eq_ok, Exec.returns_ok, climbed]
      exact ⟨trivial, ⟨childHolds₁, childNodup, childBalanced⟩, same₁.mono _ rootChild⟩
  | cons frame path =>
      have slotEq := slotOf_spec around₁ (apart node (by simp))
      rw [Path.parent_cons] at slotEq childHolds₁
      obtain ⟨mem₂, eq₂, around₂, same₂⟩ := store_spec around₁ othersNodup (root child)
      have childHolds₂ : Represents mem₂ (some frame.value) child :=
        childHolds₁.outside same₂ fun other member isParent =>
          apart other (childMem other member) (Path.parent_subset_others _ isParent)
      obtain ⟨stale₂, rest₂⟩ := Around.stale childHolds₂ around₂
      have step := repairable.step
      rw [rebalance_of_balanced childBalanced] at step
      have small : Path.height path (max (BinaryTree.node node left right).height
          frame.sibling.height + 1) + 5 < 2 ^ 32 := by
        simp only [Path.height, BinaryTree.height] at height ⊢
        omega
      obtain ⟨⟨after, top⟩, eq₃, isRoot, holds, same₃⟩ := Climbing.avlFix_spec
        ⟨root_fill frame child, stale₂, rest₂, nodup, step, small⟩
      have climbed : Path.climb (frame :: path) child = Path.climb path (frame.fill child) := by
        rw [Path.climb, rebalance_of_balanced childBalanced]
      simp only [Path.parent_cons, slotEq, Exec.ok_bind, eq₂, eq₃, Exec.pure_eq_ok,
        Exec.returns_ok, climbed]
      refine ⟨isRoot.symm, ⟨holds, ?_, step.balanced_climb⟩, ?_⟩
      · rwa [Path.inorder_climb]
      · refine ((same₁.mono _ fun other member => ?_).trans
          (same₂.mono _ fun other member => ?_)).trans same₃
        · exact Path.mem_inorder_plug.mpr (.inl (rootChild member))
        · exact Path.mem_inorder_plug.mpr (.inr (Path.parent_subset_others _ member))

/-! ## The successor -/

/-- The walk to the leftmost node of a subtree. -/
theorem leftmost_spec {mem : AVLMem} {parent : Option Ptr} {node : Ptr}
    {left right : BinaryTree Ptr} (holds : Represents mem parent (.node node left right))
    {fuel : Nat} (enough : left.height < fuel) :
    ∃ victim path rest, loop (leftmostTurn mem) fuel node = .ok victim ∧
      BinaryTree.node node left right = Path.plug path (.node victim .nil rest) ∧
      Path.before path = [] := by
  induction left generalizing parent node right fuel with
  | nil =>
      obtain ⟨fuel, rfl⟩ := Nat.exists_eq_add_one_of_ne_zero (Nat.ne_of_gt enough)
      refine ⟨node, [], right, ?_, rfl, rfl⟩
      rw [loop_done]
      simp [leftmostTurn, Mem.read_eq holds.1, cellOf]
  | node lower inner outer innerIH =>
      obtain ⟨fuel, rfl⟩ := Nat.exists_eq_add_one_of_ne_zero (by omega : fuel ≠ 0)
      simp only [BinaryTree.height] at enough
      obtain ⟨victim, path, rest, eq, split, before⟩ := innerIH holds.2.1 (by omega : _ < fuel)
      refine ⟨victim, path ++ [.inLeft node right], rest, ?_, ?_, ?_⟩
      · rw [loop_next, eq]
        simp [leftmostTurn, Mem.read_eq holds.1, cellOf]
      · rw [Path.plug_append, ← split]
        rfl
      · simp [Path.before_append, before, Path.before, Frame.before]

/-- Every node of a tree is the root of a subtree in some place. -/
theorem exists_plug {tree : BinaryTree Ptr} {node : Ptr} (member : node ∈ inorder tree) :
    ∃ path left right, tree = Path.plug path (.node node left right) := by
  induction tree with
  | nil => simp at member
  | node value left right leftIH rightIH =>
      simp only [inorder_node, List.mem_append, List.mem_cons] at member
      rcases member with inLeft | rfl | inRight
      · obtain ⟨path, lower, upper, rfl⟩ := leftIH inLeft
        exact ⟨path ++ [.inLeft value right], lower, upper, by rw [Path.plug_append]; rfl⟩
      · exact ⟨[], left, right, rfl⟩
      · obtain ⟨path, lower, upper, rfl⟩ := rightIH inRight
        exact ⟨path ++ [.inRight left value], lower, upper, by rw [Path.plug_append]; rfl⟩

theorem root_plug_cons (frame : Frame Ptr) (path : Path Ptr) (tree other : BinaryTree Ptr) :
    root (Path.plug (frame :: path) tree) = root (Path.plug (frame :: path) other) := by
  induction path generalizing frame tree other with
  | nil => simp [root_fill]
  | cons above path ih => exact ih above (frame.fill tree) (frame.fill other)

/-- Writing a detached node over a node of the tree: the stores that end `avl_del`. -/
theorem takeOver_spec {mem : AVLMem} {tree : BinaryTree Ptr} {node victim : Ptr}
    {victimCell : AVLNode} (valid : AVLTree mem tree) (member : node ∈ inorder tree)
    (outside : victim ∉ inorder tree) (live : mem.cell victim = some victimCell) :
    ∃ cell mem₂ mem₃ mem₄ slot after final,
      mem.cell node = some cell ∧ mem.write victim cell = .ok mem₂ ∧
      setParent mem₂ cell.left (some victim) = .ok mem₃ ∧
      setParent mem₃ cell.right (some victim) = .ok mem₄ ∧
      mem₄.cell node = some cell ∧ slotOf mem₄ cell.parent node = .ok slot ∧
      slot.store mem₄ (some victim) = .ok after ∧
      (if slot = .local then some victim else root tree) = root final ∧
      AVLTree after final ∧
      (∃ front back, inorder tree = front ++ node :: back ∧
        inorder final = front ++ victim :: back) ∧
      (∃ cell, after.cell node = some cell) ∧
      Mem.SameOutside (victim :: inorder tree) mem after := by
  obtain ⟨path, left, right, rfl⟩ := exists_plug member
  obtain ⟨⟨nodeLive, leftHolds, rightHolds⟩, surrounds⟩ := represents_plug.mp valid.represents
  obtain ⟨othersNodup, treeNodup, apart⟩ := Path.nodup_plug.mp valid.nodup
  obtain ⟨treeBalanced, pathBalanced⟩ := Path.balanced_plug.mp valid.balanced
  have outsideTree : victim ∉ inorder (.node node left right) := fun inside =>
    outside (Path.mem_inorder_plug.mpr (.inl inside))
  have outsidePath : victim ∉ Path.others path := fun inside =>
    outside (Path.mem_inorder_plug.mpr (.inr inside))
  simp only [inorder_node, List.mem_append, List.mem_cons, not_or] at outsideTree treeNodup apart
  obtain ⟨outLeft, victimNe, outRight⟩ := outsideTree
  have rootLeft : (root left).toList ⊆ inorder left := fun other isRoot =>
    root_mem (by simpa using isRoot)
  have rootRight : (root right).toList ⊆ inorder right := fun other isRoot =>
    root_mem (by simpa using isRoot)
  let cell := cellOf (Path.parent path) left right
  let mem₂ := mem.put victim cell
  have same₂ : Mem.SameOutside [victim] mem mem₂ := .put live cell
  obtain ⟨mem₃, eq₃, left₃, same₃⟩ := setParent_spec (leftHolds.put outLeft cell)
    (by grind) (some victim)
  have right₃ : Represents mem₃ (some node) right :=
    (rightHolds.put outRight cell).outside same₃ fun other inRight isRoot => by
      have := rootLeft isRoot
      grind
  obtain ⟨mem₄, eq₄, right₄, same₄⟩ := setParent_spec right₃ (by grind) (some victim)
  have same : Mem.SameOutside (victim :: (inorder left ++ inorder right)) mem mem₄ :=
    ((same₂.mono _ (by simp)).trans (same₃.mono _ fun other isRoot => by
      simp [rootLeft isRoot])).trans (same₄.mono _ fun other isRoot => by simp [rootRight isRoot])
  have left₄ : Represents mem₄ (some victim) left := by
    refine left₃.outside same₄ fun other inLeft isRoot => ?_
    have := rootRight isRoot
    grind
  have node₄ : mem₄.cell node = some cell := by
    rw [same.cell node (by grind), nodeLive]
  have victim₄ : mem₄.cell victim = some cell := by
    rw [same₄.cell victim fun isRoot => outRight (rootRight isRoot),
      same₃.cell victim fun isRoot => outLeft (rootLeft isRoot), Mem.put_self]
  have surrounds₄ : Surrounds mem₄ path (.node node left right) :=
    surrounds.outside same fun other onPath inside => by grind
  have slotEq := slotOf_spec surrounds₄.around (fun onPath => apart node (by simp) onPath)
  obtain ⟨after, eq₅, surrounds₅, same₅⟩ :=
    @storeTree_spec mem₄ path _ (.node victim left right) surrounds₄ othersNodup rfl rfl
  have notParent : ∀ other, other ∉ Path.others path → other ∉ (Path.parent path).toList :=
    fun other outside isParent => outside (Path.parent_subset_others path isParent)
  refine ⟨cell, mem₂, mem₃, mem₄, slotAt path, after, Path.plug path (.node victim left right),
    nodeLive, Mem.write_eq live cell, eq₃, eq₄, node₄, slotEq, eq₅, ?_, ⟨?_, ?_, ?_⟩, ?_, ?_, ?_⟩
  · cases path with
    | nil => rfl
    | cons frame path =>
        cases frame <;> simpa [slotAt] using root_plug_cons _ path _ _
  · refine represents_plug.mpr ⟨⟨?_, ?_, ?_⟩, surrounds₅⟩
    · rw [same₅.cell victim (notParent victim outsidePath), victim₄]
    · exact left₄.outside same₅ fun other inLeft => notParent other (apart other (.inl inLeft))
    · exact right₄.outside same₅ fun other inRight =>
        notParent other (apart other (.inr (.inr inRight)))
  · refine Path.nodup_plug.mpr ⟨othersNodup, ?_, ?_⟩
    · simp only [inorder_node]
      grind
    · simp only [inorder_node, List.mem_append, List.mem_cons]
      grind
  · exact Path.balanced_plug.mpr ⟨treeBalanced, pathBalanced⟩
  · exact ⟨Path.before path ++ inorder left, inorder right ++ Path.after path,
      by simp [Path.inorder_plug], by simp [Path.inorder_plug]⟩
  · exact ⟨cell, by rw [same₅.cell node (notParent node (apart node (by simp))), node₄]⟩
  · refine (same.mono _ fun other inside => ?_).trans (same₅.mono _ fun other isParent => ?_)
    · simp only [List.mem_cons, Path.mem_inorder_plug, inorder_node, List.mem_append]
      simp only [List.mem_cons, List.mem_append] at inside
      grind
    · exact List.mem_cons_of_mem _
        (Path.mem_inorder_plug.mpr (.inr (Path.parent_subset_others _ isParent)))

/-- `avl_del` removes exactly its node and returns the new root. -/
theorem avlDel_spec {mem : AVLMem} {tree : BinaryTree Ptr} {node : Ptr}
    (valid : AVLTree mem tree) (small : tree.numNodes < 2 ^ 64) (member : node ∈ inorder tree) :
    Exec.Returns (avlDel mem node) fun result => ∃ after,
      result.2 = root after ∧ AVLTree result.1 after ∧
        inorder after = (inorder tree).erase node ∧
        (∃ cell, result.1.cell node = some cell) ∧
        Mem.SameOutside (inorder tree) mem result.1 := by
  obtain ⟨path, left, right, rfl⟩ := exists_plug member
  obtain ⟨⟨live, leftHolds, rightHolds⟩, -⟩ := represents_plug.mp valid.represents
  have nodup := valid.nodup
  have split : inorder (Path.plug path (.node node left right)) =
      (Path.before path ++ inorder left) ++ node :: (inorder right ++ Path.after path) := by
    simp [Path.inorder_plug]
  have erased : (inorder (Path.plug path (.node node left right))).erase node =
      (Path.before path ++ inorder left) ++ (inorder right ++ Path.after path) := by
    rw [split] at nodup ⊢
    rw [List.erase_append_right _ (by grind), List.erase_cons_head]
  by_cases easy : left = .nil ∨ right = .nil
  · obtain ⟨⟨after, top⟩, eq, isRoot, validAfter, same⟩ := avlDelEasy_spec valid small easy
    have values : inorder (Path.plug path (onlyChild left right)) =
        (Path.before path ++ inorder left) ++ (inorder right ++ Path.after path) := by
      simp [Path.inorder_plug, ← inorder_onlyChild easy]
    have isEasy : avlDel mem node = avlDelEasy mem node := by
      simp only [avlDel, Mem.read_eq live, Exec.ok_bind, cellOf]
      rcases easy with rfl | rfl
      · rfl
      · cases left <;> rfl
    rw [isEasy, eq, Exec.returns_ok]
    refine ⟨_, isRoot, validAfter, ?_, ⟨_, (same.cell node ?_).trans live⟩, same.mono _ ?_⟩
    · rw [Path.inorder_climb, values, erased]
    · rw [values]
      rw [split] at nodup
      grind
    · rw [values, ← erased]
      exact List.erase_subset
  · simp only [not_or] at easy
    obtain ⟨leftRoot, leftEq⟩ := Option.ne_none_iff_exists'.mp (mt root_eq_none.mp easy.1)
    obtain ⟨rightRoot, rightEq⟩ := Option.ne_none_iff_exists'.mp (mt root_eq_none.mp easy.2)
    obtain ⟨lower, upper, rfl⟩ := root_eq_some.mp rightEq
    have bound : lower.height < mem.next + 1 := by
      have lowerNodup : (inorder lower).Nodup := by
        rw [split] at nodup
        simp only [inorder_node] at nodup
        grind
      have short := Mem.length_le_next lowerNodup fun other => rightHolds.2.1.live
      rw [inorder_length] at short
      have := lower.height_le_numNodes
      omega
    obtain ⟨victim, inner, rest, walkEq, rightSplit, before⟩ := leftmost_spec rightHolds bound
    have rightValues : inorder (.node rightRoot lower upper) =
        victim :: (inorder rest ++ Path.after inner) := by
      rw [rightSplit, Path.inorder_plug, before]
      simp
    have whole : Path.plug path (.node node left (.node rightRoot lower upper)) =
        Path.plug (inner ++ .inRight left node :: path) (.node victim .nil rest) := by
      rw [Path.plug_append, ← rightSplit]
      rfl
    obtain ⟨⟨mem₁, root₁⟩, detachEq, isRoot₁, valid₁, same₁⟩ :=
      avlDelEasy_spec (whole ▸ valid) (whole ▸ small) (.inl rfl)
    generalize detachedEq : Path.climb (inner ++ .inRight left node :: path)
      (onlyChild .nil rest) = detached at isRoot₁ valid₁
    simp only at isRoot₁ valid₁ same₁
    have values₁ : inorder (Path.plug (inner ++ .inRight left node :: path)
        (onlyChild .nil rest)) = (Path.before path ++ inorder left) ++
          node :: (inorder rest ++ Path.after inner ++ Path.after path) := by
      simp [Path.inorder_plug, Path.before_append, Path.after_append, before, Path.before,
        Path.after, Frame.before, Frame.after, onlyChild]
    have detachedValues : inorder detached = (Path.before path ++ inorder left) ++
        node :: (inorder rest ++ Path.after inner ++ Path.after path) := by
      rw [← detachedEq, Path.inorder_climb, values₁]
    rw [values₁] at same₁
    rw [rightValues] at split erased
    have victimOutside : victim ∉ inorder detached := by
      rw [detachedValues]
      rw [split] at nodup
      grind
    obtain ⟨victimCell, victimLive⟩ := valid.live (show victim ∈ _ by rw [split]; simp)
    have victimLive₁ : mem₁.cell victim = some victimCell := by
      rw [same₁.cell victim (detachedValues ▸ victimOutside), victimLive]
    obtain ⟨cell, mem₂, mem₃, mem₄, slot, after, final, nodeLive₁, eq₂, eq₃, eq₄, nodeLive₄,
      slotEq, storeEq, isRoot, validAfter, ⟨front, back, detachedSplit, finalSplit⟩, nodeLive,
      same⟩ := takeOver_spec valid₁ (show node ∈ inorder detached by rw [detachedValues]; simp)
        victimOutside victimLive₁
    have placed : Path.before path ++ inorder left = front ∧
        inorder rest ++ Path.after inner ++ Path.after path = back := by
      have equal := detachedValues.symm.trans detachedSplit
      have detachedNodup := valid₁.nodup
      rw [detachedSplit] at detachedNodup
      have unique := (List.append_cons_inj_of_notMem (by grind) (by grind)).mp equal
      exact ⟨unique.1, unique.2.2⟩
    refine ⟨(after, if slot = .local then some victim else root₁), ?_, final, ?_, validAfter, ?_,
      nodeLive, ?_⟩
    · simp only [avlDel, Mem.read_eq live, Exec.ok_bind, cellOf, leftEq, root_node, walkEq,
        detachEq, Mem.read_eq nodeLive₁, eq₂, eq₃, eq₄, Mem.read_eq nodeLive₄, slotEq, storeEq,
        Exec.pure_eq_ok]
    · rw [isRoot₁]
      exact isRoot
    · rw [finalSplit, erased, ← placed.1, ← placed.2]
      simp
    · refine (same₁.mono _ ?_).trans (same.mono _ ?_)
      · rw [split]
        intro other
        simp only [List.mem_append, List.mem_cons]
        grind
      · rw [split, detachedValues]
        intro other
        simp only [List.mem_append, List.mem_cons]
        grind

/-- `avl_del` on any node of a valid tree: the in-order sequence loses exactly that node,
the other nodes keep their identities, and the result is null exactly for the only node. -/
theorem avlDel_removes {mem : AVLMem} {tree : BinaryTree Ptr} (valid : AVLTree mem tree)
    (small : tree.numNodes < 2 ^ 32) {node : Ptr} (member : node ∈ inorder tree) :
    Exec.Returns (avlDel mem node) fun result => ∃ after,
      result.2 = root after ∧ AVLTree result.1 after ∧
        inorder after = (inorder tree).erase node ∧
        (result.2 = none ↔ inorder tree = [node]) ∧
        Mem.SameOutside (inorder tree) mem result.1 := by
  obtain ⟨⟨memAfter, top⟩, eq, after, isRoot, validAfter, values, -, same⟩ :=
    avlDel_spec valid (by omega) member
  refine ⟨_, eq, after, isRoot, validAfter, values, ?_, same⟩
  have isRoot : top = root after := isRoot
  have empty : after = .nil ↔ inorder after = [] := by cases after <;> simp
  rw [isRoot, root_eq_none, empty, values]
  constructor
  · intro erased
    have perm := List.perm_cons_erase member
    rw [erased] at perm
    exact List.perm_singleton.mp perm
  · intro only
    rw [only, List.erase_cons_head]

/-- Deleting the root of a tree with both children. -/
theorem avlDel_removes_root : ∃ mem root,
    avlDel (((Mem.empty.put 0 (cellOf none (.node 1 .nil .nil) (.node 2 .nil .nil))).put 1
      (cellOf (some 0) .nil .nil)).put 2 (cellOf (some 0) .nil .nil)) 0 = .ok (mem, root) ∧
    ∃ after, root = Tree.root after ∧ AVLTree mem after ∧ inorder after = [1, 2] := by
  have valid : AVLTree (((Mem.empty.put 0 (cellOf none (.node 1 .nil .nil) (.node 2 .nil .nil))).put
      1 (cellOf (some 0) .nil .nil)).put 2 (cellOf (some 0) .nil .nil))
      (.node 0 (.node 1 .nil .nil) (.node 2 .nil .nil)) :=
    ⟨⟨rfl, ⟨rfl, trivial, trivial⟩, rfl, trivial, trivial⟩, by decide,
      by simp only [Tree.Balanced, BinaryTree.height]; decide⟩
  obtain ⟨⟨mem, top⟩, eq, after, isRoot, validAfter, values, -⟩ :=
    avlDel_removes valid (by decide) (show 0 ∈ _ by decide)
  exact ⟨mem, top, eq, after, isRoot, validAfter, values⟩

end RedisLite
