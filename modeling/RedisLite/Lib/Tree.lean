import Mathlib.Algebra.Group.Nat.Defs
import Mathlib.Data.Tree.Basic
import Mathlib.Data.List.Nodup
import Mathlib.Tactic.Common

/-!
# Height-balanced binary trees

In-order sequences, contexts and rebalancing of Mathlib's `BinaryTree`.

A `Frame` is a node with one subtree missing, and a path is the list of the
frames from a hole up to the root.  Rebalancing after one insertion or removal is
`climb`: repair the subtree in the hole, refill its frame, and continue with the
parent.  `Repairable` is the invariant of that climb.  It says that the subtree
in the hole can be repaired to within one of the height the path was balanced
for; this one condition covers both insertion and removal.
-/

namespace Lib.Tree

open BinaryTree

universe u

variable {α : Type u}

/-- The values of a tree from left to right. -/
def inorder : BinaryTree α → List α
  | .nil => []
  | .node value left right => inorder left ++ value :: inorder right

@[simp] theorem inorder_nil : inorder (.nil : BinaryTree α) = [] := rfl

@[simp] theorem inorder_node (value : α) (left right : BinaryTree α) :
    inorder (.node value left right) = inorder left ++ value :: inorder right := rfl

theorem inorder_length (tree : BinaryTree α) :
    (inorder tree).length = tree.numNodes := by
  induction tree with
  | nil => rfl
  | node value left right leftIH rightIH => simp [leftIH, rightIH]; omega

/-- The value at the root, if there is one. -/
def root : BinaryTree α → Option α
  | .nil => none
  | .node value _ _ => some value

@[simp] theorem root_nil : root (.nil : BinaryTree α) = none := rfl

@[simp] theorem root_node (value : α) (left right : BinaryTree α) :
    root (.node value left right) = some value := rfl

theorem root_mem {tree : BinaryTree α} {value : α} (isRoot : root tree = some value) :
    value ∈ inorder tree := by
  cases tree with
  | nil => simp at isRoot
  | node other left right => simp_all

theorem root_eq_none {tree : BinaryTree α} : root tree = none ↔ tree = .nil := by
  cases tree <;> simp

theorem root_eq_some {tree : BinaryTree α} {value : α} :
    root tree = some value ↔ ∃ left right, tree = .node value left right := by
  cases tree with
  | nil => simp
  | node other left right => simp [eq_comm]

/-! ## Balance -/

/-- Sibling subtrees differ in height by at most one, at every node. -/
def Balanced : BinaryTree α → Prop
  | .nil => True
  | .node _ left right =>
      left.height ≤ right.height + 1 ∧ right.height ≤ left.height + 1 ∧
        Balanced left ∧ Balanced right

@[simp] theorem balanced_nil : Balanced (.nil : BinaryTree α) := trivial

@[simp] theorem balanced_node {value : α} {left right : BinaryTree α} :
    Balanced (.node value left right) ↔
      left.height ≤ right.height + 1 ∧ right.height ≤ left.height + 1 ∧
        Balanced left ∧ Balanced right := Iff.rfl

/-- A balanced tree is at most about twice as high as a perfect one. -/
theorem Balanced.two_pow_le {tree : BinaryTree α} (balanced : Balanced tree) :
    2 ^ (tree.height / 2) ≤ tree.numNodes + 1 := by
  induction tree with
  | nil => simp
  | node value left right leftIH rightIH =>
      obtain ⟨leftLe, rightLe, leftBalanced, rightBalanced⟩ := balanced
      have leftBound := leftIH leftBalanced
      have rightBound := rightIH rightBalanced
      -- both subtrees are at least as high as the tree less two
      have half (height : Nat) (near : max left.height right.height ≤ height + 1) :
          2 ^ ((max left.height right.height + 1) / 2) ≤ 2 * 2 ^ (height / 2) := by
        rw [← Nat.pow_succ']
        exact Nat.pow_le_pow_right (by omega) (by omega)
      have leftHalf := half left.height (by omega)
      have rightHalf := half right.height (by omega)
      simp only [BinaryTree.height, BinaryTree.numNodes]
      omega

theorem Balanced.height_le {tree : BinaryTree α} (balanced : Balanced tree) (bits : Nat)
    (small : tree.numNodes + 1 ≤ 2 ^ bits) : tree.height ≤ 2 * bits + 1 := by
  have exponent : tree.height / 2 ≤ bits :=
    (Nat.pow_le_pow_iff_right (by omega)).mp (Nat.le_trans balanced.two_pow_le small)
  omega

/-- The right child becomes the root. -/
def rotateLeft : BinaryTree α → BinaryTree α
  | .node value left (.node pivot inner right) => .node pivot (.node value left inner) right
  | tree => tree

/-- The left child becomes the root. -/
def rotateRight : BinaryTree α → BinaryTree α
  | .node value (.node pivot left inner) right => .node pivot left (.node value inner right)
  | tree => tree

@[simp] theorem inorder_rotateLeft (tree : BinaryTree α) :
    inorder (rotateLeft tree) = inorder tree := by
  fun_cases rotateLeft tree <;> simp

@[simp] theorem inorder_rotateRight (tree : BinaryTree α) :
    inorder (rotateRight tree) = inorder tree := by
  fun_cases rotateRight tree <;> simp

/-- Repair a root whose left subtree is higher by two. -/
def fixLeft : BinaryTree α → BinaryTree α
  | .node value (.node pivot left inner) right =>
      if left.height < inner.height then
        rotateRight (.node value (rotateLeft (.node pivot left inner)) right)
      else
        rotateRight (.node value (.node pivot left inner) right)
  | tree => tree

/-- Repair a root whose right subtree is higher by two. -/
def fixRight : BinaryTree α → BinaryTree α
  | .node value left (.node pivot inner right) =>
      if right.height < inner.height then
        rotateLeft (.node value left (rotateRight (.node pivot inner right)))
      else
        rotateLeft (.node value left (.node pivot inner right))
  | tree => tree

/-- Repair a root whose subtrees differ in height by exactly two. -/
def rebalance : BinaryTree α → BinaryTree α
  | .nil => .nil
  | .node value left right =>
      if left.height = right.height + 2 then fixLeft (.node value left right)
      else if left.height + 2 = right.height then fixRight (.node value left right)
      else .node value left right

@[simp] theorem inorder_rebalance (tree : BinaryTree α) :
    inorder (rebalance tree) = inorder tree := by
  fun_cases rebalance tree with
  | case1 => rfl
  | case2 value left right =>
      fun_cases fixLeft (.node value left right) <;> simp_all
  | case3 value left right =>
      fun_cases fixRight (.node value left right) <;> simp_all
  | case4 => rfl

theorem rebalance_of_balanced {tree : BinaryTree α} (balanced : Balanced tree) :
    rebalance tree = tree := by
  cases tree with
  | nil => rfl
  | node value left right =>
      obtain ⟨leftLe, rightLe, _⟩ := balanced
      rw [rebalance, if_neg (by omega), if_neg (by omega)]

/-- `rebalance` restores the balance of a root whose balanced subtrees differ in
height by at most two, and loses at most one level. -/
theorem rebalance_balanced {value : α} {left right : BinaryTree α}
    (leftBalanced : Balanced left) (rightBalanced : Balanced right)
    (leftLe : left.height ≤ right.height + 2) (rightLe : right.height ≤ left.height + 2) :
    Balanced (rebalance (.node value left right)) ∧
      max left.height right.height ≤ (rebalance (.node value left right)).height ∧
      (rebalance (.node value left right)).height ≤ max left.height right.height + 1 ∧
      (left.height ≤ right.height + 1 → right.height ≤ left.height + 1 →
        (rebalance (.node value left right)).height =
          max left.height right.height + 1) := by
  by_cases leftHigh : left.height = right.height + 2
  · simp only [rebalance, if_pos leftHigh]
    cases left with
    | nil => simp at leftHigh
    | node pivot outer inner =>
        obtain ⟨outerLe, innerLe, outerBalanced, innerBalanced⟩ := leftBalanced
        simp only [BinaryTree.height] at leftHigh leftLe
        by_cases double : outer.height < inner.height
        · cases inner with
          | nil => simp at double
          | node middle near far =>
              simp only [fixLeft, if_pos double, rotateLeft, rotateRight]
              simp only [balanced_node, BinaryTree.height] at *
              grind
        · simp only [fixLeft, if_neg double, rotateRight]
          simp only [balanced_node, BinaryTree.height] at *
          grind
  · by_cases rightHigh : left.height + 2 = right.height
    · simp only [rebalance, if_neg leftHigh, if_pos rightHigh]
      cases right with
      | nil => simp at rightHigh
      | node pivot inner outer =>
          obtain ⟨innerLe, outerLe, innerBalanced, outerBalanced⟩ := rightBalanced
          simp only [BinaryTree.height] at rightHigh rightLe
          by_cases double : outer.height < inner.height
          · cases inner with
            | nil => simp at double
            | node middle near far =>
                simp only [fixRight, if_pos double, rotateLeft, rotateRight]
                simp only [balanced_node, BinaryTree.height] at *
                grind
          · simp only [fixRight, if_neg double, rotateLeft]
            simp only [balanced_node, BinaryTree.height] at *
            grind
    · simp only [rebalance, if_neg leftHigh, if_neg rightHigh, BinaryTree.height]
      exact ⟨⟨by omega, by omega, leftBalanced, rightBalanced⟩, by omega, by omega,
        fun _ _ => trivial⟩

/-! ## Contexts -/

/-- A node without one of its subtrees. -/
inductive Frame (α : Type u) where
  /-- The left subtree is missing. -/
  | inLeft (value : α) (right : BinaryTree α)
  /-- The right subtree is missing. -/
  | inRight (left : BinaryTree α) (value : α)

namespace Frame

/-- The node of a frame. -/
def value : Frame α → α
  | .inLeft value _ => value
  | .inRight _ value => value

/-- The subtree a frame keeps. -/
def sibling : Frame α → BinaryTree α
  | .inLeft _ right => right
  | .inRight left _ => left

/-- Put a subtree into the hole. -/
def fill : Frame α → BinaryTree α → BinaryTree α
  | .inLeft value right, tree => .node value tree right
  | .inRight left value, tree => .node value left tree

@[simp] theorem height_fill (frame : Frame α) (tree : BinaryTree α) :
    (frame.fill tree).height = max tree.height frame.sibling.height + 1 := by
  cases frame with
  | inLeft => rfl
  | inRight => simp [fill, sibling, Nat.max_comm]

/-- The values before the hole in a frame. -/
def before : Frame α → List α
  | .inLeft _ _ => []
  | .inRight left value => inorder left ++ [value]

/-- The values after the hole in a frame. -/
def after : Frame α → List α
  | .inLeft value right => value :: inorder right
  | .inRight _ _ => []

theorem inorder_fill (frame : Frame α) (tree : BinaryTree α) :
    inorder (frame.fill tree) = frame.before ++ inorder tree ++ frame.after := by
  cases frame <;> simp [fill, before, after]

end Frame

/-- A path from a hole to the root; its head is the parent of the hole. -/
abbrev Path (α : Type u) := List (Frame α)

namespace Path

/-- Put a subtree into the hole of a path. -/
def plug : Path α → BinaryTree α → BinaryTree α
  | [], tree => tree
  | frame :: path, tree => plug path (frame.fill tree)

@[simp] theorem plug_nil (tree : BinaryTree α) : plug [] tree = tree := rfl

@[simp] theorem plug_cons (frame : Frame α) (path : Path α) (tree : BinaryTree α) :
    plug (frame :: path) tree = plug path (frame.fill tree) := rfl

theorem plug_append (inner outer : Path α) (tree : BinaryTree α) :
    plug (inner ++ outer) tree = plug outer (plug inner tree) := by
  induction inner generalizing tree with
  | nil => rfl
  | cons frame inner ih => exact ih (frame.fill tree)

/-- The values before the hole of a path. -/
def before : Path α → List α
  | [] => []
  | frame :: path => before path ++ frame.before

/-- The values after the hole of a path. -/
def after : Path α → List α
  | [] => []
  | frame :: path => frame.after ++ after path

theorem inorder_plug (path : Path α) (tree : BinaryTree α) :
    inorder (plug path tree) = before path ++ inorder tree ++ after path := by
  induction path generalizing tree with
  | nil => simp [before, after]
  | cons frame path ih => simp [ih, Frame.inorder_fill, before, after]

/-- Every value of a path, whatever its place around the hole. -/
def others (path : Path α) : List α := before path ++ after path

@[simp] theorem others_nil : others ([] : Path α) = [] := rfl

theorem others_cons (frame : Frame α) (path : Path α) :
    (others (frame :: path)).Perm (frame.value :: (inorder frame.sibling ++ others path)) := by
  cases frame with
  | inLeft value right =>
      have swap : (before path ++ (value :: (inorder right ++ after path))).Perm
          (value :: inorder right ++ (before path ++ after path)) := by
        rw [← List.cons_append, ← List.append_assoc, ← List.append_assoc]
        exact List.perm_append_comm.append_right _
      simpa [others, before, after, Frame.before, Frame.after, Frame.value, Frame.sibling]
        using swap
  | inRight left value =>
      have swap : (before path ++ (inorder left ++ value :: after path)).Perm
          (value :: inorder left ++ (before path ++ after path)) := by
        have front : (before path ++ (inorder left ++ [value])).Perm
            ((value :: inorder left) ++ before path) :=
          List.perm_append_comm.trans (List.perm_append_comm.append_right _)
        simpa using front.append_right (after path)
      simpa [others, before, after, Frame.before, Frame.after, Frame.value, Frame.sibling]
        using swap

theorem length_le_others (path : Path α) : path.length ≤ (others path).length := by
  induction path with
  | nil => simp
  | cons frame path ih =>
      rw [(others_cons frame path).length_eq]
      simp only [List.length_cons, List.length_append]
      omega

theorem mem_others_cons {frame : Frame α} {path : Path α} {value : α} :
    value ∈ others (frame :: path) ↔
      value = frame.value ∨ value ∈ inorder frame.sibling ∨ value ∈ others path := by
  rw [(others_cons frame path).mem_iff]
  simp

theorem nodup_others_cons {frame : Frame α} {path : Path α} :
    (others (frame :: path)).Nodup ↔
      (frame.value ∉ inorder frame.sibling ∧ frame.value ∉ others path) ∧
        (inorder frame.sibling).Nodup ∧ (others path).Nodup ∧
        ∀ value ∈ inorder frame.sibling, value ∉ others path := by
  rw [(others_cons frame path).nodup_iff, List.nodup_cons, List.nodup_append]
  simp only [List.mem_append, not_or]
  constructor
  · rintro ⟨outside, sibling, rest, apart⟩
    exact ⟨outside, sibling, rest, fun value left right => apart value left value right rfl⟩
  · rintro ⟨outside, sibling, rest, apart⟩
    exact ⟨outside, sibling, rest, fun value left other right equal =>
      apart value left (equal ▸ right)⟩

theorem nodup_plug {path : Path α} {tree : BinaryTree α} :
    (inorder (plug path tree)).Nodup ↔
      (others path).Nodup ∧ (inorder tree).Nodup ∧
        ∀ value ∈ inorder tree, value ∉ others path := by
  have perm : (inorder (plug path tree)).Perm (inorder tree ++ others path) := by
    rw [inorder_plug, others, ← List.append_assoc]
    exact List.perm_append_comm.append_right _
  rw [perm.nodup_iff, List.nodup_append]
  constructor
  · rintro ⟨inside, around, apart⟩
    exact ⟨around, inside, fun value left right => apart value left value right rfl⟩
  · rintro ⟨around, inside, apart⟩
    exact ⟨inside, around, fun value left other right equal => apart value left (equal ▸ right)⟩

theorem mem_inorder_plug {path : Path α} {tree : BinaryTree α} {value : α} :
    value ∈ inorder (plug path tree) ↔ value ∈ inorder tree ∨ value ∈ others path := by
  simp only [inorder_plug, others, List.mem_append]
  tauto

/-- The node above the hole. -/
def parent : Path α → Option α
  | [] => none
  | frame :: _ => some frame.value

@[simp] theorem parent_nil : parent ([] : Path α) = none := rfl

@[simp] theorem parent_cons (frame : Frame α) (path : Path α) :
    parent (frame :: path) = some frame.value := rfl

theorem parent_subset_others (path : Path α) : (parent path).toList ⊆ others path := by
  cases path with
  | nil => simp
  | cons frame path =>
      intro value member
      rw [parent_cons, Option.toList_some, List.mem_singleton] at member
      exact mem_others_cons.mpr (.inl member)

theorem before_append (inner outer : Path α) :
    before (inner ++ outer) = before outer ++ before inner := by
  induction inner with
  | nil => simp [before]
  | cons frame inner ih => simp [before, ih]

theorem after_append (inner outer : Path α) :
    after (inner ++ outer) = after inner ++ after outer := by
  induction inner with
  | nil => simp [after]
  | cons frame inner ih => simp [after, ih]

/-- The path is balanced around a subtree of the given height. -/
def Balanced : Path α → Nat → Prop
  | [], _ => True
  | frame :: path, height =>
      height ≤ frame.sibling.height + 1 ∧ frame.sibling.height ≤ height + 1 ∧
        Tree.Balanced frame.sibling ∧
        Balanced path (max height frame.sibling.height + 1)

/-- The height of the whole tree around a subtree of the given height. -/
def height : Path α → Nat → Nat
  | [], height => height
  | frame :: path, inner => height path (max inner frame.sibling.height + 1)

theorem le_height (path : Path α) (inner : Nat) : inner + path.length ≤ path.height inner := by
  induction path generalizing inner with
  | nil => simp [height]
  | cons frame path ih =>
      have above := ih (max inner frame.sibling.height + 1)
      simp only [height, List.length_cons]
      omega

theorem height_plug (path : Path α) (tree : BinaryTree α) :
    (plug path tree).height = path.height tree.height := by
  induction path generalizing tree with
  | nil => rfl
  | cons frame path ih => simp [ih, height]

theorem balanced_plug {path : Path α} {tree : BinaryTree α} :
    Tree.Balanced (plug path tree) ↔
      Tree.Balanced tree ∧ path.Balanced tree.height := by
  induction path generalizing tree with
  | nil => simp [Path.Balanced]
  | cons frame path ih =>
      rw [plug_cons, ih, Frame.height_fill]
      cases frame <;> simp [Frame.fill, Frame.sibling, Path.Balanced] <;> tauto

/-- Repair the subtree in the hole and every ancestor of it. -/
def climb : Path α → BinaryTree α → BinaryTree α
  | [], tree => rebalance tree
  | frame :: path, tree => climb path (frame.fill (rebalance tree))

theorem inorder_climb (path : Path α) (tree : BinaryTree α) :
    inorder (climb path tree) = inorder (plug path tree) := by
  induction path generalizing tree with
  | nil => simp [climb]
  | cons frame path ih => simp [climb, ih, inorder_plug, Frame.inorder_fill]

/-- The invariant of `climb`: the subtrees of `tree` are balanced and differ by at
most two, and repairing it gives a height within one of what the path was
balanced for. -/
structure Repairable (path : Path α) (tree : BinaryTree α) (height : Nat) : Prop where
  repaired : Tree.Balanced (rebalance tree)
  le : (rebalance tree).height ≤ height + 1
  ge : height ≤ (rebalance tree).height + 1
  near : tree.height ≤ height + 2
  around : path.Balanced height

/-- One turn of the climb keeps the invariant. -/
theorem Repairable.step {frame : Frame α} {path : Path α} {tree : BinaryTree α} {height : Nat}
    (repairable : Repairable (frame :: path) tree height) :
    Repairable path (frame.fill (rebalance tree)) (max height frame.sibling.height + 1) := by
  obtain ⟨repaired, le, ge, _, siblingLe, siblingGe, siblingBalanced, around⟩ := repairable
  have spec : Tree.Balanced (rebalance (frame.fill (rebalance tree))) ∧
      max (rebalance tree).height frame.sibling.height ≤
        (rebalance (frame.fill (rebalance tree))).height ∧
      (rebalance (frame.fill (rebalance tree))).height ≤
        max (rebalance tree).height frame.sibling.height + 1 ∧
      ((rebalance tree).height ≤ frame.sibling.height + 1 →
        frame.sibling.height ≤ (rebalance tree).height + 1 →
        (rebalance (frame.fill (rebalance tree))).height =
          max (rebalance tree).height frame.sibling.height + 1) := by
    cases frame with
    | inLeft value right =>
        exact rebalance_balanced repaired siblingBalanced
          (by simp only [Frame.sibling] at *; omega) (by simp only [Frame.sibling] at *; omega)
    | inRight left value =>
        have mirrored := @rebalance_balanced _ value _ _ siblingBalanced repaired
          (by simp only [Frame.sibling] at *; omega) (by simp only [Frame.sibling] at *; omega)
        simp only [Frame.fill, Frame.sibling] at *
        rw [Nat.max_comm]
        exact ⟨mirrored.1, mirrored.2.1, mirrored.2.2.1,
          fun first second => mirrored.2.2.2 second first⟩
  exact ⟨spec.1, by omega, by omega, by rw [Frame.height_fill]; omega, around⟩

theorem Repairable.of_balanced {path : Path α} {tree : BinaryTree α} {height : Nat}
    (balanced : Tree.Balanced tree) (le : tree.height ≤ height + 1)
    (ge : height ≤ tree.height + 1) (around : path.Balanced height) :
    Repairable path tree height := by
  have same := rebalance_of_balanced balanced
  exact ⟨by rwa [same], by rwa [same], by rwa [same], by omega, around⟩

theorem Repairable.balanced_climb {path : Path α} {tree : BinaryTree α} {height : Nat}
    (repairable : Repairable path tree height) : Tree.Balanced (climb path tree) := by
  induction path generalizing tree height with
  | nil => exact repairable.repaired
  | cons frame path ih => exact ih repairable.step

/-! ## Search -/

/-- The empty position a search ends at, from a subtree in the hole of `path`. -/
def search (goRight : α → Bool) : BinaryTree α → Path α → Path α
  | .nil, path => path
  | .node value left right, path =>
      if goRight value then search goRight right (.inRight left value :: path)
      else search goRight left (.inLeft value right :: path)

theorem plug_search (goRight : α → Bool) (tree : BinaryTree α) (path : Path α) :
    plug (search goRight tree path) .nil = plug path tree := by
  induction tree generalizing path with
  | nil => rfl
  | node value left right leftIH rightIH =>
      unfold search
      split
      · exact rightIH _
      · exact leftIH _

/-- When the values that send the search right come first, the search splits the
values into those and the others. -/
theorem search_splits {goRight : α → Bool} {tree : BinaryTree α} {path : Path α}
    (ordered : (inorder tree).Pairwise fun lhs rhs => goRight rhs = true → goRight lhs = true)
    (below : ∀ value ∈ before path, goRight value = true)
    (above : ∀ value ∈ after path, ¬ goRight value = true) :
    (∀ value ∈ before (search goRight tree path), goRight value = true) ∧
      ∀ value ∈ after (search goRight tree path), ¬ goRight value = true := by
  induction tree generalizing path with
  | nil => exact ⟨below, above⟩
  | node value left right leftIH rightIH =>
      rw [inorder_node, List.pairwise_append, List.pairwise_cons] at ordered
      obtain ⟨leftOrdered, ⟨aboveValue, rightOrdered⟩, across⟩ := ordered
      unfold search
      split
      · rename_i goes
        apply rightIH rightOrdered
        · intro other member
          simp only [before, Frame.before, List.mem_append, List.mem_singleton] at member
          rcases member with member | member | rfl
          · exact below other member
          · exact across other member value List.mem_cons_self goes
          · exact goes
        · simpa [after, Frame.after] using above
      · rename_i stays
        apply leftIH leftOrdered
        · simpa [before, Frame.before] using below
        · intro other member
          simp only [after, Frame.after, List.cons_append, List.mem_cons, List.mem_append] at member
          rcases member with rfl | member | member
          · exact stays
          · exact fun goes => stays (aboveValue other member goes)
          · exact above other member

end Path

end Lib.Tree
