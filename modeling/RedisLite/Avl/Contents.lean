import RedisLite.Avl.Container

/-!
# The tests of the AVL tree pass

A container of `test_avl.cpp` holds a sorted list of values, with repetitions.  `add` and
`del` change the list as they change a multiset, whatever the order and the values, and
allocate and free exactly the nodes they link and unlink.  So no assertion of a test fails,
in any sequence of changes and checks.
-/

namespace RedisLite

namespace TestAvl

open Lib Lib.Tree

/-- The container holds the values in the nodes of the tree, sorted, and no other node. -/
structure Holds (container : Container) (tree : BinaryTree Ptr) (values : List UInt32) : Prop where
  root_eq : container.root = root tree
  avl : AVLTree container.tree tree
  reads : container.val.Reads (inorder tree) values
  sorted : values.Pairwise (· ≤ ·)
  owned : ∀ node cell, container.tree.cell node = some cell → node ∈ inorder tree
  ownedVal : ∀ node value, container.val.cell node = some value → node ∈ inorder tree

theorem holds_empty : Holds {} .nil [] where
  root_eq := rfl
  avl := .nil _
  reads := .nil _
  sorted := .nil
  owned := by
    intro node cell live
    cases live
  ownedVal := by
    intro node value live
    cases live

/-- The nodes that `add` passes on their right: those with values not above the new one. -/
def notAbove (container : Container) (val : UInt32) (node : Ptr) : Bool :=
  match container.val.cell node with
  | some value => !decide (val < value)
  | none => false

theorem notAbove_eq {container : Container} {node : Ptr} {value : UInt32}
    (live : container.val.cell node = some value) (val : UInt32) :
    notAbove container val node = !decide (val < value) := by
  simp [notAbove, live]

/-- In a sorted tree, the nodes that are not above a value come first. -/
theorem notAbove_ordered {container : Container} {nodes : List Ptr} {values : List UInt32}
    (reads : container.val.Reads nodes values) (sorted : values.Pairwise (· ≤ ·)) (val : UInt32) :
    nodes.Pairwise fun lhs rhs =>
      notAbove container val rhs = true → notAbove container val lhs = true := by
  induction nodes generalizing values with
  | nil => exact .nil
  | cons node nodes ih =>
      obtain ⟨value, values, rfl, live, restReads⟩ := reads.exists_cons
      rw [List.pairwise_cons] at sorted
      refine .cons ?_ (ih restReads sorted.2)
      intro other member
      obtain ⟨otherValue, otherMem, otherLive⟩ := restReads.exists_value member
      rw [notAbove_eq otherLive, notAbove_eq live]
      simp only [Bool.not_eq_true', decide_eq_false_iff_not, UInt32.not_lt]
      exact UInt32.le_trans (sorted.1 otherValue otherMem)

/-- The tree search of `add` from the hole of `path`. -/
theorem addLoop_eq {container : Container} {val : UInt32} {tree : BinaryTree Ptr}
    {path : Path Ptr} {fuel : Nat}
    (holds : Represents container.tree (Path.parent path) tree)
    (loaded : load container (slotAt path) = .ok (root tree))
    (readable : ∀ other ∈ inorder tree, ∃ value, container.val.cell other = some value)
    (enough : tree.height < fuel) :
    let hole := Path.search (notAbove container val) tree path
    loop (addTurn container val) fuel (slotAt path, Path.parent path) =
      .ok (slotAt hole, Path.parent hole) := by
  obtain ⟨fuel, rfl⟩ :=
    Nat.exists_eq_add_one_of_ne_zero (Nat.ne_of_gt (Nat.zero_lt_of_lt enough))
  induction tree generalizing path fuel with
  | nil => exact loop_done (by simp [addTurn, loaded, Path.search]) fuel
  | node cur left right leftIH rightIH =>
      obtain ⟨value, curLive⟩ := readable cur (by simp)
      obtain ⟨curHolds, leftHolds, rightHolds⟩ := holds
      simp only [BinaryTree.height] at enough
      have turn : addTurn container val (slotAt path, Path.parent path) =
          .ok (.next (if val < value then .left cur else .right cur, some cur)) := by
        simp [addTurn, loaded, Mem.read_eq curLive]
      obtain ⟨fuel, rfl⟩ : ∃ rest, fuel = rest + 1 := ⟨fuel - 1, by omega⟩
      rw [loop_next turn]
      simp only [Path.search, notAbove_eq curLive]
      by_cases less : val < value
      · simp only [less, if_true, decide_true, Bool.not_true, Bool.false_eq_true, if_false]
        refine @leftIH (.inLeft cur right :: path) leftHolds ?_
          (fun other member => readable other (by simp [member])) fuel (by omega)
        simp [slotAt, load, Mem.read_eq curHolds, cellOf]
      · simp only [less, if_false, decide_false, Bool.not_false, if_true]
        refine @rightIH (.inRight left cur :: path) rightHolds ?_
          (fun other member => readable other (by simp [member])) fuel (by omega)
        simp [slotAt, load, Mem.read_eq curHolds, cellOf]

namespace Holds

variable {container : Container} {tree : BinaryTree Ptr} {values : List UInt32}

theorem numNodes_eq (holds : Holds container tree values) : tree.numNodes = values.length := by
  rw [← inorder_length, holds.reads.length_eq]

theorem height_lt (holds : Holds container tree values) :
    tree.height < container.tree.next + 1 :=
  Nat.lt_succ_of_le (height_le_next holds.avl.represents)

/-- `add` puts the value at its place, behind the equal ones. -/
theorem add_spec (holds : Holds container tree values) (small : values.length < 2 ^ 64)
    (val : UInt32) :
    Exec.Returns (add container val) fun after => ∃ newTree lower upper,
      values = lower ++ upper ∧ Holds after newTree (lower ++ val :: upper) := by
  let data := container.val.next
  let container₁ := (dataNew container val).1
  have dead : data ∉ inorder tree := by
    intro member
    obtain ⟨value, -, live⟩ := holds.reads.exists_value member
    rw [container.val.alloc_dead] at live
    cases live
  have avl₁ : AVLTree container₁.tree tree :=
    ⟨holds.avl.represents.put dead _, holds.avl.nodup, holds.avl.balanced⟩
  have reads₁ : container₁.val.Reads (inorder tree) values := holds.reads.put dead val
  have loaded : load container₁ (slotAt []) = .ok (root tree) := congrArg Except.ok holds.root_eq
  have walk := @addLoop_eq container₁ val tree [] _ avl₁.represents loaded
    (fun other member => (reads₁.exists_value member).imp fun _ found => found.2)
    (Nat.lt_succ_of_le (height_le_next avl₁.represents))
  have plugged : Path.plug (Path.search (notAbove container₁ val) tree []) .nil = tree :=
    Path.plug_search _ tree []
  obtain ⟨below, above⟩ := @Path.search_splits _ _ _ []
    (notAbove_ordered reads₁ holds.sorted val) (by simp [Path.before]) (by simp [Path.after])
  generalize Path.search (notAbove container₁ val) tree [] = hole at *
  have split : inorder tree = Path.before hole ++ Path.after hole := by
    rw [← plugged, Path.inorder_plug, inorder_nil, List.append_nil]
  rw [split] at reads₁
  obtain ⟨lower, upper, rfl, lowerReads, upperReads⟩ := reads₁.exists_append
  have outside : data ∉ Path.others hole := by
    rwa [split] at dead
  obtain ⟨mem₁, mem₂, storeEq, parentEq, ⟨mem, top⟩, fixEq, newTree, isRoot, newAvl, order, same⟩ :=
    attach_spec (plugged.symm ▸ avl₁)
      (plugged.symm ▸ (by rw [holds.numNodes_eq]; exact small)) (Mem.put_self _ _ _) outside
  have walk : loop (addTurn container₁ val) (container₁.tree.next + 1) (.local, none) =
      .ok (slotAt hole, Path.parent hole) := walk
  refine ⟨{ container₁ with tree := mem, root := some top }, ?_, newTree, lower, upper, rfl, ?_⟩
  · have new : dataNew container val = (container₁, data) := rfl
    have storeEq : (slotAt hole).store container₁.tree (some data) = .ok mem₁ := storeEq
    simp [add, new, walk, storeEq, parentEq, fixEq]
  · have inside : ∀ node, node ∈ inorder newTree ↔ node = data ∨ node ∈ inorder tree := by
      intro node
      rw [order, split]
      simp only [List.mem_append, List.mem_cons]
      tauto
    exact {
      root_eq := isRoot.symm
      avl := newAvl
      reads := by
        rw [order]
        exact lowerReads.append (Mem.Reads.cons_iff.mpr ⟨Mem.put_self _ _ _, upperReads⟩)
      sorted := by
        have sorted := holds.sorted
        rw [List.pairwise_append] at sorted ⊢
        rw [List.pairwise_cons]
        have lowerLe : ∀ value ∈ lower, value ≤ val := by
          intro value member
          obtain ⟨node, nodeMem, live⟩ := lowerReads.exists_pointer member
          have passed := below node nodeMem
          rw [notAbove_eq live] at passed
          simpa using passed
        have upperGt : ∀ value ∈ upper, val ≤ value := by
          intro value member
          obtain ⟨node, nodeMem, live⟩ := upperReads.exists_pointer member
          have failed := above node nodeMem
          rw [notAbove_eq live] at failed
          exact UInt32.le_of_lt (by simpa using failed)
        refine ⟨sorted.1, ⟨upperGt, sorted.2.1⟩, ?_⟩
        intro lhs lhsMem rhs rhsMem
        rcases List.mem_cons.mp rhsMem with rfl | rhsMem
        · exact lowerLe lhs lhsMem
        · exact sorted.2.2 lhs lhsMem rhs rhsMem
      owned := by
        intro node cell live
        by_cases member : node ∈ inorder newTree
        · exact member
        · rw [same.cell node member] at live
          have live : (container.tree.put data avlInit).cell node = some cell := live
          have different : node ≠ data := fun equal => member ((inside node).mpr (.inl equal))
          rw [Mem.put_ne _ different] at live
          exact (inside node).mpr (.inr (holds.owned node cell live))
      ownedVal := by
        intro node value live
        have live : (container.val.put data val).cell node = some value := live
        by_cases isData : node = data
        · exact (inside node).mpr (.inl isData)
        · rw [Mem.put_ne _ isData] at live
          exact (inside node).mpr (.inr (holds.ownedVal node value live)) }

/-- `avl_del` and `delete` of a node take its value out. -/
theorem detach_spec (holds : Holds container tree values) (small : values.length < 2 ^ 64)
    {node : Ptr} (member : node ∈ inorder tree) :
    ∃ mem top after newTree lower value upper, avlDel container.tree node = .ok (mem, top) ∧
      dataDelete { container with tree := mem, root := top } node = .ok after ∧
      container.val.cell node = some value ∧ values = lower ++ value :: upper ∧
      Holds after newTree (lower ++ upper) := by
  obtain ⟨front, back, lower, value, upper, treeEq, rfl, live, frontReads, backReads⟩ :=
    holds.reads.exists_split member
  obtain ⟨⟨mem, top⟩, delEq, newTree, topEq, newAvl, order, -, same⟩ :=
    avlDel_spec holds.avl (by rwa [holds.numNodes_eq]) member
  simp only at topEq newAvl same
  have nodup := holds.avl.nodup
  rw [treeEq] at nodup order
  have order : inorder newTree = front ++ back := by
    rw [order, List.erase_append_right _ (by grind), List.erase_cons_head]
  have outside : node ∉ inorder newTree := by
    rw [order]
    grind
  have sublist : (lower ++ upper).Sublist (lower ++ value :: upper) := by simp
  have left : ∀ other, other ≠ node → other ∈ inorder tree → other ∈ inorder newTree := by
    intro other different inTree
    rw [treeEq] at inTree
    rw [order]
    grind
  refine ⟨mem, top, ⟨top, mem.drop node, container.val.drop node⟩, newTree, lower, value, upper,
    delEq, ?_, live, rfl, ?_⟩
  · simp [dataDelete, Mem.free_eq live]
  · exact {
      root_eq := topEq
      avl := ⟨newAvl.represents.drop outside, newAvl.nodup, newAvl.balanced⟩
      reads := by
        rw [order] at outside ⊢
        exact (frontReads.append backReads).drop outside
      sorted := holds.sorted.sublist sublist
      owned := by
        intro other cell otherLive
        rw [Mem.drop_cell] at otherLive
        split at otherLive
        · cases otherLive
        · rename_i different
          by_cases inTree : other ∈ inorder tree
          · exact left other different inTree
          · rw [same.cell other inTree] at otherLive
            exact absurd (holds.owned other cell otherLive) inTree
      ownedVal := by
        intro other otherValue otherLive
        rw [Mem.drop_cell] at otherLive
        split at otherLive
        · cases otherLive
        · rename_i different
          exact left other different (holds.ownedVal other otherValue otherLive) }

/-- The search of `del` ends at a node with the value, if there is one. -/
theorem delLoop_spec {val : UInt32} {parent : Option Ptr} {fuel : Nat}
    (represents : Represents container.tree parent tree)
    (reads : container.val.Reads (inorder tree) values) (sorted : values.Pairwise (· ≤ ·))
    (enough : tree.height < fuel) :
    Exec.Returns (loop (delTurn container val) fuel (root tree)) fun found =>
      match found with
      | some node => node ∈ inorder tree ∧ container.val.cell node = some val
      | none => val ∉ values := by
  induction tree generalizing parent fuel values with
  | nil =>
      obtain ⟨fuel, rfl⟩ : ∃ rest, fuel = rest + 1 := ⟨fuel - 1, by omega⟩
      have empty := reads.length_eq
      rw [inorder_nil, List.length_nil, eq_comm, List.length_eq_zero_iff] at empty
      refine ⟨none, loop_done rfl fuel, ?_⟩
      simp [empty]
  | node cur left right leftIH rightIH =>
      obtain ⟨curHolds, leftHolds, rightHolds⟩ := represents
      simp only [BinaryTree.height] at enough
      obtain ⟨fuel, rfl⟩ : ∃ rest, fuel = rest + 1 := ⟨fuel - 1, by omega⟩
      rw [inorder_node] at reads ⊢
      obtain ⟨lower, rest, rfl, lowerReads, restReads⟩ := reads.exists_append
      obtain ⟨value, upper, rfl, live, upperReads⟩ := restReads.exists_cons
      rw [List.pairwise_append, List.pairwise_cons] at sorted
      obtain ⟨lowerSorted, ⟨above, upperSorted⟩, across⟩ := sorted
      by_cases equal : val = value
      · have turn : delTurn container val (some cur) = .ok (.done (some cur)) := by
          simp [delTurn, Mem.read_eq live, equal]
        exact ⟨some cur, loop_done turn fuel, by simp, equal ▸ live⟩
      · have turn : delTurn container val (some cur) =
            .ok (.next (if val < value then root left else root right)) := by
          simp [delTurn, Mem.read_eq live, equal, Mem.read_eq curHolds, cellOf]
        rw [root_node, loop_next turn]
        by_cases less : val < value
        · obtain ⟨found, foundEq, result⟩ := @leftIH lower (some cur) fuel leftHolds lowerReads
            lowerSorted (by omega)
          rw [if_pos less]
          refine ⟨found, foundEq, ?_⟩
          cases found with
          | some node => exact ⟨List.mem_append_left _ result.1, result.2⟩
          | none =>
              intro member
              rcases List.mem_append.mp member with inLower | inRest
              · exact result inLower
              · rcases List.mem_cons.mp inRest with same | inUpper
                · exact equal same
                · exact UInt32.not_le.mpr less (above val inUpper)
        · obtain ⟨found, foundEq, result⟩ := @rightIH upper (some cur) fuel rightHolds upperReads
            upperSorted (by omega)
          rw [if_neg less]
          refine ⟨found, foundEq, ?_⟩
          cases found with
          | some node =>
              exact ⟨List.mem_append_right _ (List.mem_cons_of_mem _ result.1), result.2⟩
          | none =>
              intro member
              rcases List.mem_append.mp member with inLower | inRest
              · have below := across val inLower value List.mem_cons_self
                exact equal (UInt32.le_antisymm below (UInt32.not_lt.mp less))
              · rcases List.mem_cons.mp inRest with same | inUpper
                · exact equal same
                · exact result inUpper

/-- `del` takes one occurrence of the value out, if there is one. -/
theorem del_spec (holds : Holds container tree values) (small : values.length < 2 ^ 64)
    (val : UInt32) :
    Exec.Returns (del container val) fun result => result.2 = decide (val ∈ values) ∧
      ∃ newTree newValues, Holds result.1 newTree newValues ∧
        newValues.Perm (values.erase val) := by
  obtain ⟨found, foundEq, result⟩ := @delLoop_spec container tree values val none _
    holds.avl.represents holds.reads holds.sorted holds.height_lt
  rw [← holds.root_eq] at foundEq
  cases found with
  | none =>
      refine ⟨(container, false), by simp [del, foundEq], by simpa using result, tree, values,
        holds, ?_⟩
      rw [List.erase_of_not_mem result]
  | some node =>
      obtain ⟨member, live⟩ := result
      obtain ⟨mem, top, after, newTree, lower, value, upper, delEq, deleteEq, valueLive, rfl,
        newHolds⟩ := holds.detach_spec small member
      obtain rfl : value = val := Option.some.inj (valueLive.symm.trans live)
      refine ⟨(after, true), by simp [del, foundEq, delEq, deleteEq], by simp, newTree,
        lower ++ upper, newHolds, ?_⟩
      have perm : (lower ++ value :: upper).Perm (value :: (lower ++ upper)) := List.perm_middle
      simpa using (perm.erase value).symm

/-- `dispose` frees every node. -/
theorem disposeLoop_spec (holds : Holds container tree values) (small : values.length < 2 ^ 64)
    {fuel : Nat} (enough : values.length < fuel) :
    Exec.Returns (loop disposeTurn fuel container) fun after => Holds after .nil [] := by
  induction fuel generalizing container tree values with
  | zero => exact absurd enough (Nat.not_lt_zero _)
  | succ fuel ih =>
      cases tree with
      | nil =>
          have empty := holds.reads.length_eq
          rw [inorder_nil, List.length_nil, eq_comm, List.length_eq_zero_iff] at empty
          refine ⟨container, loop_done ?_ fuel, empty ▸ holds⟩
          simp [disposeTurn, holds.root_eq]
      | node node left right =>
          obtain ⟨mem, top, after, newTree, lower, value, upper, delEq, deleteEq, -, rfl,
            newHolds⟩ := holds.detach_spec small (show node ∈ _ by simp)
          have turn : disposeTurn container = .ok (.next after) := by
            simp [disposeTurn, holds.root_eq, delEq, deleteEq]
          rw [loop_next turn]
          simp only [List.length_append, List.length_cons] at small enough
          exact ih newHolds (by simp only [List.length_append]; omega)
            (by simp only [List.length_append]; omega)

theorem dispose_spec (holds : Holds container tree values) (small : values.length < 2 ^ 64) :
    Exec.Returns (dispose container) fun after => Holds after .nil [] := by
  have short := Mem.length_le_next holds.avl.nodup fun other => holds.avl.live
  rw [holds.reads.length_eq] at short
  exact holds.disposeLoop_spec small (by omega)

theorem containerVerify (holds : Holds container tree values) (fits : values.length < 2 ^ 32) :
    containerVerify container ↑values = .ok ⟨⟩ := by
  have height := holds.avl.height_le (by rw [holds.numNodes_eq]; omega)
  exact Verified.containerVerify
    ⟨holds.avl.represents, holds.avl.balanced, .of_sorted holds.reads holds.sorted⟩
    holds.root_eq holds.reads (by omega) fits

end Holds

/-! ## Tests -/

/-- The container holds the values of the reference. -/
def Agrees (state : Container × Multiset UInt32) : Prop :=
  ∃ tree values, Holds state.1 tree values ∧ state.2 = ↑values

/-- Whether a statement adds a value. -/
def Call.adds : Call → Bool
  | .add _ => true
  | .del _ => false
  | .verify => false

/-- Every statement returns, and what it does to the container it does to the reference. -/
theorem Agrees.run {state : Container × Multiset UInt32} (agrees : Agrees state) (call : Call)
    (fits : state.2.card < 2 ^ 32) :
    Exec.Returns (call.run state) fun after => Agrees after ∧
      after.2.card ≤ state.2.card + if call.adds then 1 else 0 := by
  obtain ⟨container, ref⟩ := state
  obtain ⟨tree, values, holds, rfl⟩ := agrees
  have fits : values.length < 2 ^ 32 := fits
  cases call with
  | add val =>
      obtain ⟨after, addEq, newTree, lower, upper, rfl, newHolds⟩ :=
        holds.add_spec (by omega) val
      refine ⟨(after, val ::ₘ ↑(lower ++ upper)), by simp [Call.run, addEq],
        ⟨newTree, _, newHolds, ?_⟩, by simp [Call.adds]⟩
      rw [Multiset.cons_coe, Multiset.coe_eq_coe]
      exact List.perm_middle.symm
  | del val =>
      obtain ⟨⟨after, found⟩, delEq, foundEq, newTree, newValues, newHolds, perm⟩ :=
        holds.del_spec (by omega) val
      simp only at foundEq
      have shrinks := Multiset.card_le_card (Multiset.erase_le val (values : Multiset UInt32))
      refine ⟨(after, (values : Multiset UInt32).erase val), ?_, ⟨newTree, newValues, newHolds, ?_⟩,
        Nat.le_add_right_of_le shrinks⟩
      · simp [Call.run, delEq, foundEq]
      · rw [Multiset.coe_erase, Multiset.coe_eq_coe]
        exact perm.symm
  | verify =>
      refine ⟨(container, ↑values), ?_, ⟨tree, values, holds, rfl⟩, Nat.le_add_right _ _⟩
      simp [Call.run, holds.containerVerify fits]

theorem Agrees.runs {state : Container × Multiset UInt32} (agrees : Agrees state)
    (calls : List Call) (fits : state.2.card + calls.countP Call.adds < 2 ^ 32) :
    Exec.Returns (calls.foldlM (fun state call => call.run state) state) fun after =>
      Agrees after ∧ after.2.card < 2 ^ 32 := by
  induction calls generalizing state with
  | nil => exact ⟨state, rfl, agrees, by simpa using fits⟩
  | cons call calls ih =>
      rw [List.countP_cons] at fits
      obtain ⟨after, eq, agreesAfter, grows⟩ := agrees.run call (by omega)
      rw [List.foldlM_cons, eq, Exec.ok_bind]
      exact ih agreesAfter (by omega)

/-- No assertion of a test of the AVL tree fails: every sequence of `add`, `del` and
`container_verify` with fewer than `2 ^ 32` additions returns, `del` finds exactly the values of
the reference, every check passes, and `dispose` leaves no node allocated. -/
theorem avl_tests_pass (calls : List Call) (fits : calls.countP Call.adds < 2 ^ 32) :
    Exec.Returns (test calls) fun after => after.root = none ∧
      ∀ node, after.tree.cell node = none ∧ after.val.cell node = none := by
  have start : Agrees ({}, 0) := ⟨.nil, [], holds_empty, rfl⟩
  obtain ⟨⟨container, ref⟩, eq, ⟨tree, values, holds, same⟩, small⟩ :=
    start.runs calls (by simpa using fits)
  obtain ⟨after, disposeEq, done⟩ := holds.dispose_spec (by
    have small : ref.card < 2 ^ 32 := small
    have same : ref = ↑values := same
    rw [same, Multiset.coe_card] at small
    omega)
  refine ⟨after, by simp [test, eq, disposeEq], done.root_eq, fun node => ⟨?_, ?_⟩⟩
  · refine Option.eq_none_iff_forall_ne_some.mpr fun cell live => ?_
    exact absurd (done.owned node cell live) List.not_mem_nil
  · refine Option.eq_none_iff_forall_ne_some.mpr fun value live => ?_
    exact absurd (done.ownedVal node value live) List.not_mem_nil

/-- The first statements of `main`. -/
theorem avl_tests_pass_quick :
    Exec.Returns (test [.verify, .add 123, .verify, .del 124, .del 123, .verify]) fun after =>
      after.root = none ∧ ∀ node, after.tree.cell node = none ∧ after.val.cell node = none :=
  avl_tests_pass _ (by decide)

end TestAvl

end RedisLite
