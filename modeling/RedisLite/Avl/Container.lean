import RedisLite.Avl.Delete
import Mathlib.Data.Multiset.AddSub
import Mathlib.Order.Lattice

/-!
# The container of the AVL tests

`test_avl.cpp` wraps the tree into a container of `uint32_t` values, in which a value
may occur several times, and compares it with a `std::multiset` after every change.
`container_verify` is the check; the container refines the multiset, so the check
passes after every sequence of changes.
-/

namespace RedisLite

namespace TestAvl

open Lib Lib.Tree

/-- `struct Container` and the memory of its `struct Data`: `tree` holds the AVL fields
and `val` the values, both under the identity of the `Data`. -/
structure Container where
  root : Option Ptr := none
  tree : AVLMem := .empty
  val : Mem UInt32 := .empty

/-- `new Data()` with `avl_init` and the store to `val`. -/
def dataNew (container : Container) (val : UInt32) : Container × Ptr :=
  let (vals, data) := container.val.alloc val
  ({ container with tree := container.tree.put data avlInit, val := vals }, data)

/-- `delete container_of(node, Data, node)`. -/
def dataDelete (container : Container) (node : Ptr) : Exec Container := do
  let vals ← container.val.free node
  return { container with tree := container.tree.drop node, val := vals }

/-- `*from` in `add`, where the local slot is `c.root`. -/
def load (container : Container) (slot : Slot) : Exec (Option Ptr) :=
  match slot with
  | .left parent => do return (← container.tree.read parent).left
  | .right parent => do return (← container.tree.read parent).right
  | .local => .ok container.root

/-- One turn of the tree search in `add`, with the variables `from` and `cur`. -/
def addTurn (container : Container) (val : UInt32) :
    Slot × Option Ptr → Exec (Step (Slot × Option Ptr) (Slot × Option Ptr))
  | (slot, cur) => do
      match ← load container slot with
      | some cur =>
          let nodeVal ← container.val.read cur
          return .next (if val < nodeVal then .left cur else .right cur, some cur)
      | none => return .done (slot, cur)

/-- `add`.  A store to `c.root` is overwritten by the result of `avl_fix`. -/
def add (container : Container) (val : UInt32) : Exec Container := do
  let (container, data) := dataNew container val
  let (slot, cur) ← loop (addTurn container val) (container.tree.next + 1) (.local, none)
  let tree ← slot.store container.tree (some data)
  let tree ← setParent tree (some data) cur
  let (tree, root) ← avlFix tree data
  return { container with tree := tree, root := some root }

/-- One turn of the tree search in `del`. -/
def delTurn (container : Container) (val : UInt32) :
    Option Ptr → Exec (Step (Option Ptr) (Option Ptr))
  | none => return .done none
  | some cur => do
      let nodeVal ← container.val.read cur
      if val = nodeVal then return .done (some cur)
      let cell ← container.tree.read cur
      return .next (if val < nodeVal then cell.left else cell.right)

def del (container : Container) (val : UInt32) : Exec (Container × Bool) := do
  match ← loop (delTurn container val) (container.tree.next + 1) container.root with
  | none => return (container, false)
  | some cur =>
      let (tree, root) ← avlDel container.tree cur
      return (← dataDelete { container with tree := tree, root := root } cur, true)

/-- The assertions of `avl_verify` about a child of `node`: `rightOrder` is the comparison
of the child's value with the value of `node`. -/
def verifyChild (container : Container) (node : Ptr) (child : Option Ptr)
    (rightOrder : UInt32 → Bool) : Exec PUnit.{1} :=
  match child with
  | none => .ok ⟨⟩
  | some child => do
      Exec.assert ((← container.tree.read child).parent = some node)
      Exec.assert (rightOrder (← container.val.read child))

/-- `avl_verify`; `depth` bounds the recursion. -/
def avlVerify (container : Container) : Nat → Option Ptr → Option Ptr → Exec PUnit.{1}
  | _, _, none => .ok ⟨⟩
  | 0, _, some _ => .error .fuel
  | depth + 1, parent, some node => do
      let cell ← container.tree.read node
      Exec.assert (cell.parent = parent)
      avlVerify container depth (some node) cell.left
      avlVerify container depth (some node) cell.right
      Exec.assert (cell.cnt =
        1 + (← avlCnt container.tree cell.left) + (← avlCnt container.tree cell.right))
      let l ← avlHeight container.tree cell.left
      let r ← avlHeight container.tree cell.right
      Exec.assert (l = r || l + 1 = r || l = r + 1)
      Exec.assert (cell.height = 1 + maxU32 l r)
      let val ← container.val.read node
      verifyChild container node cell.left fun child => child ≤ val
      verifyChild container node cell.right fun child => child ≥ val

/-- `extract`; `depth` bounds the recursion. -/
def extract (container : Container) :
    Nat → Option Ptr → Multiset UInt32 → Exec (Multiset UInt32)
  | _, none, extracted => .ok extracted
  | 0, some _, _ => .error .fuel
  | depth + 1, some node, extracted => do
      let extracted ← extract container depth (← container.tree.read node).left extracted
      let extracted := (← container.val.read node) ::ₘ extracted
      extract container depth (← container.tree.read node).right extracted

def containerVerify (container : Container) (ref : Multiset UInt32) : Exec PUnit.{1} := do
  avlVerify container (container.tree.next + 1) none container.root
  Exec.assert ((← avlCnt container.tree container.root).toNat = ref.card)
  let extracted ← extract container (container.tree.next + 1) container.root 0
  Exec.assert (extracted = ref)

/-- One turn of `dispose`. -/
def disposeTurn (container : Container) : Exec (Step Container Container) :=
  match container.root with
  | none => return .done container
  | some node => do
      let (tree, root) ← avlDel container.tree node
      return .next (← dataDelete { container with tree := tree, root := root } node)

def dispose (container : Container) : Exec Container :=
  loop disposeTurn (container.tree.next + 1) container

/-- A statement of the tests: a change of the container, or a check of it. -/
inductive Call where
  /-- `add(c, val); ref.insert(val);`. -/
  | add (val : UInt32)
  /-- `it = ref.find(val);`, then `assert(!del(c, val))` where there is none, and
  `assert(del(c, val)); ref.erase(it);` otherwise. -/
  | del (val : UInt32)
  /-- `container_verify(c, ref)`. -/
  | verify

/-- Execute a statement of the tests on the container and the reference. -/
def Call.run : Call → Container × Multiset UInt32 → Exec (Container × Multiset UInt32)
  | .add val, (container, ref) => do return (← TestAvl.add container val, val ::ₘ ref)
  | .del val, (container, ref) => do
      let (container, found) ← TestAvl.del container val
      Exec.assert (found = decide (val ∈ ref))
      return (container, ref.erase val)
  | .verify, (container, ref) => do
      containerVerify container ref
      return (container, ref)

/-- A test: statements on a new container, which is disposed of at the end. -/
def test (calls : List Call) : Exec Container := do
  let (container, _) ← calls.foldlM (fun state call => call.run state) ({}, 0)
  dispose container

/-! ## The check -/

/-- The value of a child stands in order to the value of its parent. -/
def ChildOrdered (val : Mem UInt32) (tree : BinaryTree Ptr) (order : UInt32 → Prop) : Prop :=
  ∀ child, root tree = some child → ∃ value, val.cell child = some value ∧ order value

/-- Every value stands in order to the values of its two children.  This says less than that
the values are sorted. -/
def LocallyOrdered (val : Mem UInt32) : BinaryTree Ptr → Prop
  | .nil => True
  | .node node left right =>
      LocallyOrdered val left ∧ LocallyOrdered val right ∧
        ∃ value, val.cell node = some value ∧
          ChildOrdered val left (· ≤ value) ∧ ChildOrdered val right (value ≤ ·)

theorem LocallyOrdered.exists_values {val : Mem UInt32} {tree : BinaryTree Ptr}
    (ordered : LocallyOrdered val tree) : ∃ values, val.Reads (inorder tree) values := by
  induction tree with
  | nil => exact ⟨[], .nil val⟩
  | node node left right leftIH rightIH =>
      obtain ⟨leftOrdered, rightOrdered, value, live, -⟩ := ordered
      obtain ⟨lower, lowerReads⟩ := leftIH leftOrdered
      obtain ⟨upper, upperReads⟩ := rightIH rightOrdered
      exact ⟨lower ++ value :: upper, lowerReads.append (Mem.Reads.cons_iff.mpr ⟨live, upperReads⟩)⟩

/-- Sorted values are ordered at every node. -/
theorem LocallyOrdered.of_sorted {val : Mem UInt32} {tree : BinaryTree Ptr} {values : List UInt32}
    (reads : val.Reads (inorder tree) values) (sorted : values.Pairwise (· ≤ ·)) :
    LocallyOrdered val tree := by
  induction tree generalizing values with
  | nil => trivial
  | node node left right leftIH rightIH =>
      rw [inorder_node] at reads
      obtain ⟨lower, rest, rfl, lowerReads, restReads⟩ := reads.exists_append
      obtain ⟨value, upper, rfl, live, upperReads⟩ := restReads.exists_cons
      rw [List.pairwise_append, List.pairwise_cons] at sorted
      obtain ⟨lowerSorted, ⟨above, upperSorted⟩, across⟩ := sorted
      refine ⟨leftIH lowerReads lowerSorted, rightIH upperReads upperSorted, value, live, ?_, ?_⟩
      · intro child isRoot
        obtain ⟨other, member, otherLive⟩ := lowerReads.exists_value (root_mem isRoot)
        exact ⟨other, otherLive, across other member value List.mem_cons_self⟩
      · intro child isRoot
        obtain ⟨other, member, otherLive⟩ := upperReads.exists_value (root_mem isRoot)
        exact ⟨other, otherLive, above other member⟩

theorem verifyChild_eq_ok {container : Container} {node : Ptr} {tree : BinaryTree Ptr}
    {order : UInt32 → Bool} (holds : Represents container.tree (some node) tree) :
    verifyChild container node (root tree) order = .ok ⟨⟩ ↔
      ChildOrdered container.val tree (fun value => order value = true) := by
  cases tree with
  | nil => simp [verifyChild, ChildOrdered]
  | node child left right =>
      simp [verifyChild, ChildOrdered, Mem.read_eq holds.1, cellOf, Exec.bind_eq_ok,
        Mem.read_eq_ok, Exec.assert_eq_ok]

theorem heights_near_iff {l r : Nat} (leftSmall : l + 1 < 2 ^ 32) (rightSmall : r + 1 < 2 ^ 32) :
    (UInt32.ofNat l = UInt32.ofNat r ∨ UInt32.ofNat l + 1 = UInt32.ofNat r ∨
      UInt32.ofNat l = UInt32.ofNat r + 1) ↔ l ≤ r + 1 ∧ r ≤ l + 1 := by
  have next : ∀ n, UInt32.ofNat n + 1 = UInt32.ofNat (n + 1) := fun n => by
    rw [UInt32.ofNat_add]
    rfl
  rw [next, next, ofNat_eq_iff (by omega) (by omega), ofNat_eq_iff (by omega) (by omega),
    ofNat_eq_iff (by omega) (by omega)]
  omega

/-- What `avl_verify` demands of a subtree. -/
structure Verified (container : Container) (parent : Option Ptr) (tree : BinaryTree Ptr) :
    Prop where
  represents : Represents container.tree parent tree
  balanced : Balanced tree
  ordered : LocallyOrdered container.val tree

theorem count_eq (left right : BinaryTree Ptr) :
    1 + UInt32.ofNat left.numNodes + UInt32.ofNat right.numNodes =
      UInt32.ofNat (left.numNodes + right.numNodes + 1) := by
  rw [UInt32.ofNat_add, UInt32.ofNat_add, UInt32.add_comm 1, UInt32.add_assoc, UInt32.add_assoc,
    UInt32.add_comm 1]
  rfl

theorem height_eq {left right : BinaryTree Ptr} (leftSmall : left.height < 2 ^ 32)
    (rightSmall : right.height < 2 ^ 32) :
    1 + maxU32 (UInt32.ofNat left.height) (UInt32.ofNat right.height) =
      UInt32.ofNat (max left.height right.height + 1) := by
  rw [maxU32_ofNat leftSmall rightSmall, UInt32.ofNat_add, UInt32.add_comm]
  rfl

/-- `avl_verify` passes on what it demands. -/
theorem Verified.passes {container : Container} {tree : BinaryTree Ptr} {parent : Option Ptr}
    (verified : Verified container parent tree) {depth : Nat} (enough : tree.height ≤ depth)
    (small : tree.height < 2 ^ 32) : avlVerify container depth parent (root tree) = .ok ⟨⟩ := by
  induction tree generalizing parent depth with
  | nil => cases depth <;> rfl
  | node node left right leftIH rightIH =>
      obtain ⟨⟨live, leftHolds, rightHolds⟩, ⟨leftNear, rightNear, leftBalanced, rightBalanced⟩,
        leftOrdered, rightOrdered, value, valueLive, leftChild, rightChild⟩ := verified
      simp only [BinaryTree.height] at enough small
      obtain ⟨depth, rfl⟩ : ∃ rest, depth = rest + 1 := ⟨depth - 1, by omega⟩
      have leftPasses := @leftIH (some node) ⟨leftHolds, leftBalanced, leftOrdered⟩ depth
        (by omega) (by omega)
      have rightPasses := @rightIH (some node) ⟨rightHolds, rightBalanced, rightOrdered⟩ depth
        (by omega) (by omega)
      have near : Exec.assert.{0} (UInt32.ofNat left.height = UInt32.ofNat right.height ||
          UInt32.ofNat left.height + 1 = UInt32.ofNat right.height ||
          UInt32.ofNat left.height = UInt32.ofNat right.height + 1) = .ok ⟨⟩ := by
        rw [Exec.assert_eq_ok]
        simpa [or_assoc] using (heights_near_iff (by omega) (by omega)).mpr ⟨leftNear, rightNear⟩
      have leftAsserted : verifyChild container node (root left) (fun child => child ≤ value) =
          .ok ⟨⟩ := (verifyChild_eq_ok leftHolds).mpr (by simpa using leftChild)
      have rightAsserted : verifyChild container node (root right) (fun child => child ≥ value) =
          .ok ⟨⟩ := (verifyChild_eq_ok rightHolds).mpr (by simpa using rightChild)
      have heights := @height_eq left right (by omega) (by omega)
      simp only [root_node, avlVerify, Mem.read_eq live, Exec.ok_bind, cellOf, decide_true,
        Exec.assert_true, leftPasses, rightPasses, avlCnt_eq leftHolds, avlCnt_eq rightHolds,
        avlHeight_eq leftHolds, avlHeight_eq rightHolds, count_eq,
        heights, Mem.read_eq valueLive, near, leftAsserted]
      exact rightAsserted

/-- What `avl_verify` passes on is what it demands, as long as no height can wrap. -/
theorem Verified.of_passes {container : Container} {depth : Nat} (small : depth < 2 ^ 32)
    {parent pointer : Option Ptr} (passes : avlVerify container depth parent pointer = .ok ⟨⟩) :
    ∃ tree, pointer = root tree ∧ tree.height ≤ depth ∧ Verified container parent tree := by
  induction depth generalizing parent pointer with
  | zero =>
      cases pointer with
      | none => exact ⟨.nil, rfl, Nat.le_refl 0, trivial, trivial, trivial⟩
      | some node => cases passes
  | succ depth ih =>
      cases pointer with
      | none => exact ⟨.nil, rfl, Nat.zero_le _, trivial, trivial, trivial⟩
      | some node =>
          simp only [avlVerify, Exec.bind_eq_ok, Mem.read_eq_ok, Exec.assert_eq_ok] at passes
          obtain ⟨cell, live, -, parentEq, ⟨⟩, leftPasses, ⟨⟩, rightPasses, leftCnt,
            leftCntEq, rightCnt, rightCntEq, -, cntEq, l, lEq, r, rEq, -, near, -, heightEq, value,
            valueLive, ⟨⟩, leftChild, rightChild⟩ := passes
          obtain ⟨left, leftRoot, leftHeight, leftHolds, leftBalanced, leftOrdered⟩ :=
            ih (by omega) leftPasses
          obtain ⟨right, rightRoot, rightHeight, rightHolds, rightBalanced, rightOrdered⟩ :=
            ih (by omega) rightPasses
          rw [leftRoot] at leftCntEq lEq leftChild
          rw [rightRoot] at rightCntEq rEq rightChild
          rw [avlCnt_eq leftHolds] at leftCntEq
          rw [avlCnt_eq rightHolds] at rightCntEq
          rw [avlHeight_eq leftHolds] at lEq
          rw [avlHeight_eq rightHolds] at rEq
          cases leftCntEq
          cases rightCntEq
          cases lEq
          cases rEq
          rw [verifyChild_eq_ok leftHolds] at leftChild
          rw [verifyChild_eq_ok rightHolds] at rightChild
          simp only [decide_eq_true_eq, Bool.or_eq_true, or_assoc] at *
          rw [heights_near_iff (by omega) (by omega)] at near
          rw [count_eq] at cntEq
          rw [height_eq (by omega) (by omega)] at heightEq
          refine ⟨.node node left right, rfl, ?_, ⟨?_, leftHolds, rightHolds⟩,
            ⟨near.1, near.2, leftBalanced, rightBalanced⟩, leftOrdered, rightOrdered, value,
            valueLive, leftChild, rightChild⟩
          · simp only [BinaryTree.height]
            omega
          · rw [live, cellOf, ← parentEq, ← leftRoot, ← rightRoot, ← heightEq, ← cntEq]

/-- `extract` collects the values of a subtree. -/
theorem extract_eq {container : Container} {tree : BinaryTree Ptr} {parent : Option Ptr}
    {values : List UInt32} (holds : Represents container.tree parent tree)
    (reads : container.val.Reads (inorder tree) values) {depth : Nat}
    (enough : tree.height ≤ depth) (extracted : Multiset UInt32) :
    extract container depth (root tree) extracted = .ok (extracted + ↑values) := by
  induction tree generalizing parent depth values extracted with
  | nil =>
      have empty := reads.length_eq
      rw [inorder_nil, List.length_nil, eq_comm, List.length_eq_zero_iff] at empty
      cases depth <;> simp [extract, empty]
  | node node left right leftIH rightIH =>
      obtain ⟨live, leftHolds, rightHolds⟩ := holds
      rw [inorder_node] at reads
      obtain ⟨lower, rest, rfl, lowerReads, restReads⟩ := reads.exists_append
      obtain ⟨value, upper, rfl, valueLive, upperReads⟩ := restReads.exists_cons
      simp only [BinaryTree.height] at enough
      obtain ⟨depth, rfl⟩ : ∃ rest, depth = rest + 1 := ⟨depth - 1, by omega⟩
      have leftEq := @leftIH (some node) lower leftHolds lowerReads depth (by omega) extracted
      have rightEq := @rightIH (some node) upper rightHolds upperReads depth (by omega)
        (value ::ₘ (extracted + ↑lower))
      simp only [root_node, extract, Mem.read_eq live, Exec.ok_bind, cellOf, leftEq,
        Mem.read_eq valueLive, rightEq]
      congr 1
      rw [← Multiset.coe_add, ← Multiset.cons_coe, Multiset.add_cons, Multiset.add_cons,
        Multiset.cons_add, Multiset.add_assoc]

/-! ### Heights

The parent links of a node lead to the root without repeating a node, also when a node
is linked twice below one parent, so no branch is longer than the memory has nodes. -/

/-- The nodes that the parent links lead through, from a node to the root. -/
inductive Ancestors (mem : AVLMem) : Option Ptr → List Ptr → Prop where
  | root : Ancestors mem none []
  | up {node : Ptr} {cell : AVLNode} {rest : List Ptr} (live : mem.cell node = some cell)
      (above : Ancestors mem cell.parent rest) : Ancestors mem (some node) (node :: rest)

namespace Ancestors

variable {mem : AVLMem} {pointer : Option Ptr} {chain : List Ptr}

theorem unique (ancestors : Ancestors mem pointer chain) {other : List Ptr}
    (others : Ancestors mem pointer other) : chain = other := by
  induction ancestors generalizing other with
  | root =>
      cases others
      rfl
  | up live above ih =>
      cases others with
      | up otherLive otherAbove =>
          rw [live] at otherLive
          cases otherLive
          rw [ih otherAbove]

theorem of_append {front back : List Ptr} {node : Ptr}
    (ancestors : Ancestors mem pointer (front ++ node :: back)) :
    Ancestors mem (some node) (node :: back) := by
  induction front generalizing pointer with
  | nil =>
      cases ancestors with
      | up live above => exact .up live above
  | cons first front ih =>
      cases ancestors with
      | up live above => exact ih above

theorem live (ancestors : Ancestors mem pointer chain) :
    ∀ node ∈ chain, ∃ cell, mem.cell node = some cell := by
  induction ancestors with
  | root => exact fun _ member => absurd member List.not_mem_nil
  | up live above ih => exact List.forall_mem_cons.mpr ⟨⟨_, live⟩, ih⟩

theorem nodup (ancestors : Ancestors mem pointer chain) : chain.Nodup := by
  induction ancestors with
  | root => exact List.nodup_nil
  | @up node cell rest live above ih =>
      refine List.nodup_cons.mpr ⟨?_, ih⟩
      intro member
      obtain ⟨front, back, rfl⟩ := List.append_of_mem member
      have same := (above.of_append).unique (.up live above)
      have lengths := congrArg List.length same
      simp only [List.length_cons, List.length_append] at lengths
      omega

/-- Some branch of a tree adds its height to the ancestors of the root. -/
theorem exists_branch {tree : BinaryTree Ptr} (ancestors : Ancestors mem pointer chain)
    (holds : Represents mem pointer tree) :
    ∃ bottom branch, Ancestors mem bottom branch ∧ branch.length = chain.length + tree.height := by
  induction tree generalizing pointer chain with
  | nil => exact ⟨pointer, chain, ancestors, rfl⟩
  | node node left right leftIH rightIH =>
      obtain ⟨live, leftHolds, rightHolds⟩ := holds
      have below : Ancestors mem (some node) (node :: chain) := .up live ancestors
      rcases Nat.le_total left.height right.height with higher | higher
      · obtain ⟨bottom, branch, found, length⟩ := rightIH below rightHolds
        refine ⟨bottom, branch, found, ?_⟩
        rw [length, BinaryTree.height, List.length_cons, Nat.max_eq_right higher]
        omega
      · obtain ⟨bottom, branch, found, length⟩ := leftIH below leftHolds
        refine ⟨bottom, branch, found, ?_⟩
        rw [length, BinaryTree.height, List.length_cons, Nat.max_eq_left higher]
        omega

end Ancestors

theorem height_le_next {mem : AVLMem} {tree : BinaryTree Ptr} (holds : Represents mem none tree) :
    tree.height ≤ mem.next := by
  obtain ⟨bottom, branch, ancestors, length⟩ := Ancestors.root.exists_branch holds
  have short := Mem.length_le_next ancestors.nodup ancestors.live
  rw [length, List.length_nil] at short
  omega

/-! ### The whole check -/

/-- `container_verify` passes when the tree passes and its values are those of the reference. -/
theorem Verified.containerVerify {container : Container} {tree : BinaryTree Ptr}
    {values : List UInt32} (verified : Verified container none tree)
    (rootEq : container.root = root tree) (reads : container.val.Reads (inorder tree) values)
    (small : tree.height < 2 ^ 32) (fits : values.length < 2 ^ 32) :
    containerVerify container ↑values = .ok ⟨⟩ := by
  have enough : tree.height ≤ container.tree.next + 1 :=
    Nat.le_succ_of_le (height_le_next verified.represents)
  have passes := verified.passes enough small
  have extracted := extract_eq verified.represents reads enough 0
  have counted : (UInt32.ofNat tree.numNodes).toNat = values.length := by
    rw [← inorder_length, reads.length_eq, UInt32.toNat_ofNat', Nat.mod_eq_of_lt fits]
  simp only [TestAvl.containerVerify, rootEq, passes, Exec.ok_bind, avlCnt_eq verified.represents,
    counted, Multiset.coe_card, decide_true, Exec.assert_true, extracted, Multiset.zero_add]

/-- What `container_verify` checks, exactly: the root leads to nodes with the right parent links,
heights and counts, subtrees are balanced, every value is in order with the values of the
children, and the values are those of the reference, fewer than `2 ^ 32`. -/
theorem containerVerify_iff {container : Container} (small : container.tree.next + 1 < 2 ^ 32)
    (ref : Multiset UInt32) :
    containerVerify container ref = .ok ⟨⟩ ↔ ∃ tree values,
      container.root = root tree ∧ Represents container.tree none tree ∧ Balanced tree ∧
        LocallyOrdered container.val tree ∧ container.val.Reads (inorder tree) values ∧
        ref = ↑values ∧ values.length < 2 ^ 32 := by
  constructor
  · intro accepted
    simp only [containerVerify, Exec.bind_eq_ok, Exec.assert_eq_ok, decide_eq_true_eq] at accepted
    obtain ⟨⟨⟩, passes, cnt, cntEq, -, counted, extracted, extractEq, same⟩ := accepted
    obtain ⟨tree, rootEq, height, verified⟩ := Verified.of_passes small passes
    obtain ⟨values, reads⟩ := verified.ordered.exists_values
    rw [rootEq, avlCnt_eq verified.represents] at cntEq
    cases cntEq
    rw [rootEq, extract_eq verified.represents reads height, Multiset.zero_add] at extractEq
    cases extractEq
    refine ⟨tree, values, rootEq, verified.represents, verified.balanced, verified.ordered, reads,
      same.symm, ?_⟩
    rw [← same, Multiset.coe_card, UInt32.toNat_ofNat'] at counted
    rw [← counted]
    exact Nat.mod_lt _ (Nat.two_pow_pos 32)
  · rintro ⟨tree, values, rootEq, represents, balanced, ordered, reads, rfl, fits⟩
    have height := height_le_next represents
    exact Verified.containerVerify ⟨represents, balanced, ordered⟩ rootEq reads (by omega) fits

/-- A value that is in order with its parent may be on the wrong side of the root: the check
passes, although the values are not sorted. -/
theorem containerVerify_iff_unsorted : ∃ container tree, ∃ values : List UInt32,
    containerVerify container ↑values = .ok ⟨⟩ ∧ container.root = root tree ∧
      container.val.Reads (inorder tree) values ∧ ¬ values.Pairwise (· ≤ ·) := by
  let tree : BinaryTree Ptr := .node 0 (.node 1 .nil (.node 2 .nil .nil)) (.node 3 .nil .nil)
  let container : Container := {
    root := some 0
    tree := (((Mem.empty.put 0 (cellOf none (.node 1 .nil (.node 2 .nil .nil))
      (.node 3 .nil .nil))).put 1 (cellOf (some 0) .nil (.node 2 .nil .nil))).put 2
      (cellOf (some 1) .nil .nil)).put 3 (cellOf (some 0) .nil .nil)
    val := (((Mem.empty.put 0 5).put 1 3).put 2 9).put 3 7 }
  refine ⟨container, tree, [3, 9, 5, 7], ?_, rfl, rfl, by decide⟩
  refine (containerVerify_iff (by decide) _).mpr ⟨tree, [3, 9, 5, 7], rfl,
    ⟨rfl, ⟨rfl, trivial, rfl, trivial, trivial⟩, rfl, trivial, trivial⟩, ?_, ?_, rfl, rfl,
    by decide⟩
  · simp only [tree, Tree.Balanced, BinaryTree.height]
    decide
  · have alone : ∀ order, ChildOrdered container.val .nil order :=
      fun order child isRoot => absurd isRoot (by simp)
    have child : ∀ node left right value order, container.val.cell node = some value →
        order value → ChildOrdered container.val (.node node left right) order :=
      fun node left right value order live holds other isRoot =>
        ⟨value, Option.some.inj isRoot ▸ live, holds⟩
    refine ⟨⟨trivial, ⟨trivial, trivial, 9, rfl, alone _, alone _⟩, 3, rfl, alone _, ?_⟩,
      ⟨trivial, trivial, 7, rfl, alone _, alone _⟩, 5, rfl, ?_, ?_⟩
    · exact child 2 _ _ 9 _ rfl (by decide)
    · exact child 1 _ _ 3 _ rfl (by decide)
    · exact child 3 _ _ 7 _ rfl (by decide)

end TestAvl

end RedisLite
