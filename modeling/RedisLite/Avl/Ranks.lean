import RedisLite.Avl.Contents
import RedisLite.Avl.Offset

/-!
# The tests of `avl_offset` pass

`test_offset.cpp` adds the values from 0 on to a container of its own, which attaches a new
node inside the tree search, and compares `avl_offset` between all pairs of nodes with the
difference of their values.  The test of every size but 0 passes; that of 0 reads through
the root of an empty container.
-/

namespace RedisLite

namespace TestOffset

open Lib Lib.Tree
open TestAvl (Container dataNew dataDelete load Holds)

/-! ## The container -/

/-- One turn of the tree search in `add`, which ends with the attachment of `data`. -/
def addTurn (container : Container) (val : UInt32) (data : Ptr) (cur : Ptr) :
    Exec (Step Ptr (AVLMem × Ptr)) := do
  let slot := if val < (← container.val.read cur) then Slot.left cur else Slot.right cur
  match ← load container slot with
  | none =>
      let tree ← slot.store container.tree (some data)
      let tree ← setParent tree (some data) (some cur)
      return .done (← avlFix tree data)
  | some next => return .next next

def add (container : Container) (val : UInt32) : Exec Container := do
  let (container, data) := dataNew container val
  match container.root with
  | none => return { container with root := some data }
  | some root =>
      let (tree, root) ← loop (addTurn container val data) container.tree.next root
      return { container with tree := tree, root := some root }

/-- `dispose`; `depth` bounds the recursion. -/
def dispose : Nat → Container → Option Ptr → Exec Container
  | _, container, none => .ok container
  | 0, _, some _ => .error .fuel
  | depth + 1, container, some node => do
      let container ← dispose depth container (← container.tree.read node).left
      let container ← dispose depth container (← container.tree.read node).right
      dataDelete container node

/-! ## The test -/

/-- The values of `i` in `for (uint32_t i = 0; i < sz; ++i)`. -/
def below (sz : UInt32) : List UInt32 := (List.range sz.toNat).map UInt32.ofNat

/-- `assert(container_of(node, Data, node)->val == val)`. -/
def checkVal (container : Container) (val : UInt32) (node : Option Ptr) : Exec PUnit.{1} := do
  Exec.assert ((← container.val.read (← Exec.deref node)) = val)

/-- The turn of the loop over `j`. -/
def checkPair (container : Container) (i : UInt32) (node : Ptr) (j : UInt32) :
    Exec PUnit.{1} := do
  let offset := (j.toNat : Int) - i.toNat
  checkVal container j (← avlOffset container.tree node offset)

/-- The turn of the loop over `i`. -/
def checkNode (container : Container) (sz : UInt32) (min : Ptr) (i : UInt32) :
    Exec PUnit.{1} := do
  let node ← avlOffset container.tree min i.toNat
  checkVal container i node
  let node ← Exec.deref node
  forM (below sz) (checkPair container i node)
  Exec.assert (← avlOffset container.tree node (-i.toNat - 1)).isNone
  Exec.assert (← avlOffset container.tree node (sz - i).toNat).isNone

/-- `test_case`, with the memory that it leaves. -/
def testCase (sz : UInt32) : Exec Container := do
  let c ← (below sz).foldlM add {}
  let min ← loop (leftmostTurn c.tree) (c.tree.next + 1) (← Exec.deref c.root)
  forM (below sz) (checkNode c sz min)
  dispose (c.tree.next + 1) c c.root

/-! ## Adding -/

/-- The search that attaches at its end does what `add` of `test_avl.cpp` does behind its
search. -/
theorem addLoop_ok {container : Container} {val : UInt32} {data : Ptr} {result : AVLMem × Ptr}
    {fuel : Nat} {cur : Ptr} {value : UInt32} (live : container.val.cell cur = some value)
    (attached : (do
      let (slot, parent) ← loop (TestAvl.addTurn container val) fuel
        (if val < value then .left cur else .right cur, some cur)
      let tree ← slot.store container.tree (some data)
      let tree ← setParent tree (some data) parent
      avlFix tree data) = .ok result) :
    loop (addTurn container val data) fuel cur = .ok result := by
  induction fuel generalizing cur value with
  | zero => simp [loop] at attached
  | succ fuel ih =>
      cases loaded : load container (if val < value then .left cur else .right cur) with
      | error fault => simp [loop, TestAvl.addTurn, loaded] at attached
      | ok found =>
          cases found with
          | none =>
              simp only [loop, TestAvl.addTurn, loaded, Exec.ok_bind, Exec.pure_eq_ok,
                Exec.bind_eq_ok] at attached
              obtain ⟨tree₁, storeEq, tree₂, parentEq, fixEq⟩ := attached
              simp [loop, addTurn, Mem.read_eq live, loaded, storeEq, parentEq, fixEq]
          | some next =>
              cases nextLive : container.val.cell next with
              | none => simp [loop, TestAvl.addTurn, loaded, Mem.read, nextLive] at attached
              | some nextValue =>
                  have turn : addTurn container val data cur = .ok (.next next) := by
                    simp [addTurn, Mem.read_eq live, loaded]
                  rw [loop_next turn]
                  refine ih nextLive ?_
                  rwa [loop_next] at attached
                  simp [TestAvl.addTurn, loaded, Mem.read_eq nextLive]

variable {container : Container} {tree : BinaryTree Ptr} {values : List UInt32}

/-- On a container with values, `add` does what `add` of `test_avl.cpp` does. -/
theorem add_eq_ok (holds : Holds container tree values) (nonempty : values ≠ []) {val : UInt32}
    {after : Container} (added : TestAvl.add container val = .ok after) :
    add container val = .ok after := by
  let container₁ := (dataNew container val).1
  let data := container.val.next
  have new : dataNew container val = (container₁, data) := rfl
  cases tree with
  | nil =>
      have empty := holds.reads.length_eq
      rw [inorder_nil, List.length_nil, eq_comm, List.length_eq_zero_iff] at empty
      exact absurd empty nonempty
  | node node left right =>
      have isRoot : container₁.root = some node := holds.root_eq
      obtain ⟨value, -, live⟩ := holds.reads.exists_value (show node ∈ inorder _ by simp)
      have live₁ : container₁.val.cell node = some value := by
        refine (Mem.put_ne _ ?_ _).trans live
        rintro rfl
        rw [container.val.alloc_dead] at live
        cases live
      simp only [TestAvl.add, new, Exec.bind_eq_ok, Exec.pure_eq_ok] at added
      obtain ⟨⟨slot, parent⟩, walk, tree₁, storeEq, tree₂, parentEq, ⟨mem, top⟩, fixEq, done⟩ :=
        added
      have turn : TestAvl.addTurn container₁ val (.local, none) =
          .ok (.next (if val < value then .left node else .right node, some node)) := by
        simp [TestAvl.addTurn, load, isRoot, Mem.read_eq live₁]
      rw [loop_next turn] at walk
      have attached : loop (addTurn container₁ val data) container₁.tree.next node =
          .ok (mem, top) := addLoop_ok live₁ (by simp [walk, storeEq, parentEq, fixEq])
      simp [add, new, isRoot, attached, done]

/-- The value added to an empty container is the root. -/
theorem add_empty (val : UInt32) (holds : Holds container .nil []) :
    Exec.Returns (add container val) fun after => ∃ newTree, Holds after newTree [val] := by
  let container₁ := (dataNew container val).1
  let data := container.val.next
  have isRoot : container₁.root = none := holds.root_eq
  have new : dataNew container val = (container₁, data) := rfl
  refine ⟨{ container₁ with root := some data }, by simp [add, new, isRoot],
    .node data .nil .nil, ?_⟩
  exact {
    root_eq := rfl
    avl := ⟨⟨Mem.put_self _ _ _, trivial, trivial⟩, by simp, by simp⟩
    reads := Mem.Reads.cons_iff.mpr ⟨Mem.put_self _ _ _, .nil _⟩
    sorted := List.pairwise_singleton _ _
    owned := by
      intro node cell live
      have live : (container.tree.put data avlInit).cell node = some cell := live
      by_cases isData : node = data
      · simp [isData]
      · rw [Mem.put_ne _ isData] at live
        exact absurd (holds.owned node cell live) List.not_mem_nil
    ownedVal := by
      intro node value live
      have live : (container.val.put data val).cell node = some value := live
      by_cases isData : node = data
      · simp [isData]
      · rw [Mem.put_ne _ isData] at live
        exact absurd (holds.ownedVal node value live) List.not_mem_nil }

/-- `add` of a value above all that are there puts it at the end. -/
theorem add_last (holds : Holds container tree values) (small : values.length < 2 ^ 64)
    {val : UInt32} (above : ∀ value ∈ values, value < val) :
    Exec.Returns (add container val) fun after =>
      ∃ newTree, Holds after newTree (values ++ [val]) := by
  by_cases empty : values = []
  · subst empty
    have isNil : tree = .nil := by
      have count := holds.numNodes_eq
      cases tree with
      | nil => rfl
      | node node left right => simp [BinaryTree.numNodes] at count
    exact add_empty val (isNil ▸ holds)
  · obtain ⟨after, added, newTree, lower, upper, rfl, newHolds⟩ := holds.add_spec small val
    refine ⟨after, add_eq_ok holds empty added, newTree, ?_⟩
    have sorted := (List.pairwise_append.mp newHolds.sorted).2.1
    rw [List.pairwise_cons] at sorted
    have noUpper : upper = [] := by
      refine List.eq_nil_iff_forall_not_mem.mpr fun value member => ?_
      exact UInt32.not_lt.mpr (sorted.1 value member)
        (above value (List.mem_append_right _ member))
    subst noUpper
    simpa using newHolds

theorem mem_below {sz i : UInt32} : i ∈ below sz ↔ i < sz := by
  rw [below, List.mem_map]
  constructor
  · rintro ⟨n, member, rfl⟩
    rw [List.mem_range] at member
    rw [UInt32.lt_iff_toNat_lt, UInt32.toNat_ofNat']
    exact Nat.lt_of_le_of_lt (Nat.mod_le _ _) member
  · intro less
    exact ⟨i.toNat, List.mem_range.mpr (UInt32.lt_iff_toNat_lt.mp less), UInt32.ofNat_toNat⟩

theorem below_getElem? {sz i : UInt32} (less : i < sz) : (below sz)[i.toNat]? = some i := by
  rw [below, List.getElem?_map, List.getElem?_range (UInt32.lt_iff_toNat_lt.mp less),
    Option.map_some, UInt32.ofNat_toNat]

theorem below_length (sz : UInt32) : (below sz).length = sz.toNat := by
  simp [below]

/-- The container of a test holds the values below its size. -/
theorem addAll_spec (n : Nat) (small : n ≤ 2 ^ 32) :
    Exec.Returns (((List.range n).map UInt32.ofNat).foldlM add {}) fun container =>
      ∃ tree, Holds container tree ((List.range n).map UInt32.ofNat) := by
  induction n with
  | zero => exact ⟨{}, rfl, .nil, TestAvl.holds_empty⟩
  | succ n ih =>
      rw [List.range_succ, List.map_append, List.foldlM_append]
      refine (ih (by omega)).bind ?_
      rintro container ⟨tree, holds⟩
      have above : ∀ value ∈ (List.range n).map UInt32.ofNat, value < UInt32.ofNat n := by
        intro value member
        obtain ⟨i, inRange, rfl⟩ := List.mem_map.mp member
        rw [List.mem_range] at inRange
        rw [UInt32.lt_iff_toNat_lt, UInt32.toNat_ofNat', UInt32.toNat_ofNat',
          Nat.mod_eq_of_lt (by omega), Nat.mod_eq_of_lt (by omega)]
        exact inRange
      obtain ⟨after, added, newTree, newHolds⟩ :=
        add_last holds (by simp only [List.length_map, List.length_range]; omega) above
      exact ⟨after, by simp [added], newTree, newHolds⟩

/-! ## The checks -/

section Checks

variable {sz : UInt32} (holds : Holds container tree (below sz))
include holds

theorem exists_rank {i : UInt32} (less : i < sz) :
    ∃ node, (inorder tree)[i.toNat]? = some node ∧ container.val.cell node = some i := by
  have reads := congrArg (fun cells => cells[i.toNat]?) holds.reads
  simp only [List.getElem?_map, below_getElem? less, Option.map_some] at reads
  exact Option.map_eq_some_iff.mp reads

theorem avlOffset_eq {i : UInt32} {node : Ptr} (found : (inorder tree)[i.toNat]? = some node)
    (offset : Int) :
    avlOffset container.tree node offset = .ok (atRank (inorder tree) (i.toNat + offset)) := by
  obtain ⟨result, eq, -, exact⟩ := avlOffset_spec holds.avl found offset
  rw [eq, exact (by rw [holds.numNodes_eq, below_length]; exact sz.toNat_lt)]

theorem checkPair_eq {i j : UInt32} {node : Ptr} (found : (inorder tree)[i.toNat]? = some node)
    (less : j < sz) : checkPair container i node j = .ok ⟨⟩ := by
  obtain ⟨other, otherFound, live⟩ := exists_rank holds less
  have rank : (i.toNat : Int) + (j.toNat - i.toNat) = j.toNat := by omega
  rw [checkPair, avlOffset_eq holds found, rank, atRank, if_pos (Int.natCast_nonneg _),
    Int.toNat_natCast, otherFound]
  simp [checkVal, Mem.read_eq live]

/-- The turn of the loop over `i` passes, from the leftmost node. -/
theorem checkNode_eq {min : Ptr} {i : UInt32} (first : (inorder tree)[0]? = some min)
    (less : i < sz) : checkNode container sz min i = .ok ⟨⟩ := by
  obtain ⟨node, found, live⟩ := exists_rank holds less
  have reached : avlOffset container.tree min i.toNat = .ok (some node) := by
    have zero : ((0 : UInt32).toNat : Int) + i.toNat = i.toNat := by simp
    rw [@avlOffset_eq _ _ _ holds 0 min first, zero, atRank, if_pos (Int.natCast_nonneg _),
      Int.toNat_natCast, found]
  have pairs : forM (below sz) (checkPair container i node) = .ok ⟨⟩ :=
    Exec.forM_eq_ok.mpr fun j member => checkPair_eq holds found (mem_below.mp member)
  have before : avlOffset container.tree node (-i.toNat - 1) = .ok none := by
    rw [avlOffset_eq holds found, atRank, if_neg (by omega)]
  have behind : avlOffset container.tree node (sz - i).toNat = .ok none := by
    have rank : (i.toNat : Int) + (sz - i).toNat = sz.toNat := by
      rw [UInt32.toNat_sub_of_le _ _ (UInt32.le_of_lt less)]
      have := UInt32.lt_iff_toNat_lt.mp less
      omega
    have length : (inorder tree).length = sz.toNat := by
      rw [holds.reads.length_eq, below_length]
    rw [avlOffset_eq holds found, rank, atRank, if_pos (Int.natCast_nonneg _), Int.toNat_natCast,
      List.getElem?_eq_none (Nat.le_of_eq length)]
  simp [checkNode, reached, checkVal, Mem.read_eq live, pairs, before, behind]

end Checks

/-! ## Disposing -/

/-- `dispose` frees the nodes of the tree and no other. -/
theorem dispose_spec {parent : Option Ptr} {depth : Nat}
    (represents : Represents container.tree parent tree) (nodup : (inorder tree).Nodup)
    (live : ∀ node ∈ inorder tree, ∃ value, container.val.cell node = some value)
    (enough : tree.height ≤ depth) :
    Exec.Returns (dispose depth container (root tree)) fun after =>
      (∀ node, after.tree.cell node =
        if node ∈ inorder tree then none else container.tree.cell node) ∧
      ∀ node, after.val.cell node =
        if node ∈ inorder tree then none else container.val.cell node := by
  induction tree generalizing container parent depth with
  | nil => cases depth <;> simp [dispose]
  | node cur left right leftIH rightIH =>
      obtain ⟨curHolds, leftHolds, rightHolds⟩ := represents
      simp only [BinaryTree.height] at enough
      obtain ⟨depth, rfl⟩ : ∃ rest, depth = rest + 1 := ⟨depth - 1, by omega⟩
      rw [inorder_node] at nodup live
      obtain ⟨container₁, leftEq, tree₁, val₁⟩ := @leftIH container (some cur) depth leftHolds
        (by grind) (fun node member => live node (by simp [member])) (by omega)
      have right₁ : Represents container₁.tree (some cur) right :=
        rightHolds.congr fun node member => by
          rw [tree₁, if_neg (by grind)]
      obtain ⟨container₂, rightEq, tree₂, val₂⟩ := @rightIH container₁ (some cur) depth right₁
        (by grind) (fun node member => by
          rw [val₁, if_neg (by grind)]
          exact live node (by simp [member])) (by omega)
      have cur₁ : container₁.tree.cell cur = some (cellOf parent left right) := by
        rw [tree₁, if_neg (by grind), curHolds]
      obtain ⟨value, curLive⟩ := live cur (by simp)
      have cur₂ : container₂.val.cell cur = some value := by
        rw [val₂, if_neg (by grind), val₁, if_neg (by grind), curLive]
      have leftEq : dispose depth container (cellOf parent left right).left = .ok container₁ :=
        leftEq
      have rightEq : dispose depth container₁ (cellOf parent left right).right = .ok container₂ :=
        rightEq
      simp only [root_node, dispose, Mem.read_eq curHolds, Exec.ok_bind, leftEq,
        Mem.read_eq cur₁, rightEq, dataDelete, Mem.free_eq cur₂, Exec.pure_eq_ok,
        Exec.returns_ok, inorder_node]
      constructor
      · intro node
        simp only [Mem.drop_cell, tree₂, tree₁]
        grind
      · intro node
        simp only [Mem.drop_cell, val₂, val₁]
        grind

/-- The tests of `avl_offset` pass for exactly the sizes above 0: from the smallest node and
from every node, `avl_offset` reaches the node of every value, one step before the first node
and one behind the last it finds nothing, and `dispose` leaves no node allocated.  The test of
size 0 reads through the root of an empty container. -/
theorem offset_tests_pass_iff (sz : UInt32) :
    ((Exec.Returns (testCase sz) fun after =>
        ∀ node, after.tree.cell node = none ∧ after.val.cell node = none) ↔ 0 < sz) ∧
      (testCase sz = .error .undefined ↔ sz = 0) := by
  obtain ⟨c, added, tree, holds⟩ := addAll_spec sz.toNat (Nat.le_of_lt sz.toNat_lt)
  have added : (below sz).foldlM add {} = .ok c := added
  have holds : Holds c tree (below sz) := holds
  by_cases zero : sz = 0
  · subst zero
    have fails : testCase 0 = .error .undefined := rfl
    rw [fails]
    refine ⟨⟨?_, fun impossible => absurd impossible (by decide)⟩, by simp⟩
    rintro ⟨after, eq, -⟩
    cases eq
  · have positive : 0 < sz := UInt32.pos_iff_ne_zero.mpr zero
    obtain ⟨node, found, -⟩ := exists_rank holds positive
    cases tree with
    | nil => cases found
    | node top left right =>
        have isRoot : c.root = some top := holds.root_eq
        have height := holds.height_lt
        obtain ⟨min, path, rest, walk, split, before⟩ :=
          @leftmost_spec _ _ _ left right holds.avl.represents (c.tree.next + 1)
            (by simp only [BinaryTree.height] at height; omega)
        have first : (inorder (.node top left right))[0]? = some min := by
          rw [split, Path.inorder_plug, before]
          rfl
        have checks : forM (below sz) (checkNode c sz min) = .ok ⟨⟩ :=
          Exec.forM_eq_ok.mpr fun i member => checkNode_eq holds first (mem_below.mp member)
        obtain ⟨after, disposed, treeFreed, valFreed⟩ := dispose_spec holds.avl.represents
          holds.avl.nodup (fun _ member => (holds.reads.exists_value member).imp fun _ => And.right)
          (Nat.le_of_lt height)
        have passes : testCase sz = .ok after := by
          have disposed : dispose (c.tree.next + 1) c (some top) = .ok after := disposed
          simp [testCase, added, isRoot, walk, checks, disposed]
        rw [passes]
        refine ⟨⟨fun _ => positive, fun _ => .of_ok fun node => ⟨?_, ?_⟩⟩, by simp [zero]⟩
        · rw [treeFreed]
          split
          · rfl
          · rename_i outside
            refine Option.eq_none_iff_forall_ne_some.mpr fun cell live => ?_
            exact outside (holds.owned node cell live)
        · rw [valFreed]
          split
          · rfl
          · rename_i outside
            refine Option.eq_none_iff_forall_ne_some.mpr fun value live => ?_
            exact outside (holds.ownedVal node value live)

end TestOffset

end RedisLite
