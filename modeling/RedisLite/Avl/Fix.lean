import RedisLite.Avl.Represents

/-!
# Rebalancing

`rot_left`, `rot_right`, `avl_fix_left`, `avl_fix_right` and `avl_fix` carry out
`rotateLeft`, `rotateRight`, `fixLeft`, `fixRight` and `climb` on the represented
tree, and touch no cell outside it.
-/

namespace RedisLite

open Lib Lib.Tree

/-! ## Rotations -/

/-- The nodes of a rotation are pairwise different: `own` is the other subtree of
`node`, and `inner` and `outer` are the subtrees of `pivot`. -/
structure Apart (node pivot : Ptr) (own inner outer : BinaryTree Ptr) : Prop where
  pivot_ne : pivot ≠ node
  node_own : node ∉ inorder own
  node_inner : node ∉ inorder inner
  node_outer : node ∉ inorder outer
  pivot_own : pivot ∉ inorder own
  pivot_inner : pivot ∉ inorder inner
  pivot_outer : pivot ∉ inorder outer
  own_inner : ∀ other ∈ inorder own, other ∉ inorder inner
  outer_inner : ∀ other ∈ inorder outer, other ∉ inorder inner
  inner_nodup : (inorder inner).Nodup

theorem Apart.of_left {node pivot : Ptr} {own inner outer : BinaryTree Ptr}
    (nodup : (inorder (.node node own (.node pivot inner outer))).Nodup) :
    Apart node pivot own inner outer := by
  simp only [inorder_node] at nodup
  constructor <;> grind

theorem Apart.of_right {node pivot : Ptr} {own inner outer : BinaryTree Ptr}
    (nodup : (inorder (.node node (.node pivot outer inner) own)).Nodup) :
    Apart node pivot own inner outer := by
  simp only [inorder_node] at nodup
  constructor <;> grind

/-- The five stores by which a rotation relinks `node`, `pivot` and `inner`.  The
functions are the field updates of the two nodes. -/
theorem relink_spec {mem : AVLMem} {node pivot : Ptr} {own inner outer : BinaryTree Ptr}
    {nodeCell pivotCell : AVLNode} {innerParent outerParent : Option Ptr}
    (apart : Apart node pivot own inner outer)
    (nodeLive : mem.cell node = some nodeCell) (pivotLive : mem.cell pivot = some pivotCell)
    (ownHolds : Represents mem (some node) own)
    (innerHolds : Represents mem innerParent inner)
    (outerHolds : Represents mem outerParent outer)
    (nodeChild nodeParent pivotParent pivotChild : AVLNode → AVLNode) :
    ∃ mem₁ mem₂ mem₃ mem₄ after : AVLMem,
      mem.modify node nodeChild = .ok mem₁ ∧
      setParent mem₁ (root inner) (some node) = .ok mem₂ ∧
      mem₂.modify pivot pivotParent = .ok mem₃ ∧
      mem₃.modify pivot pivotChild = .ok mem₄ ∧
      mem₄.modify node nodeParent = .ok after ∧
      after.cell node = some (nodeParent (nodeChild nodeCell)) ∧
      after.cell pivot = some (pivotChild (pivotParent pivotCell)) ∧
      Represents after (some node) own ∧ Represents after (some node) inner ∧
      Represents after outerParent outer ∧
      Mem.SameOutside (node :: pivot :: inorder inner) mem after := by
  let mem₁ := mem.put node (nodeChild nodeCell)
  obtain ⟨mem₂, parentEq, innerHolds₂, same₂⟩ :=
    setParent_spec (innerHolds.put apart.node_inner (nodeChild nodeCell)) apart.inner_nodup
      (some node)
  have rootInner : (root inner).toList ⊆ inorder inner := by
    intro other member
    exact root_mem (by simpa using member)
  have node₂ : mem₂.cell node = some (nodeChild nodeCell) := by
    rw [same₂.cell node fun member => apart.node_inner (rootInner member)]
    simp
  have pivot₂ : mem₂.cell pivot = some pivotCell := by
    rw [same₂.cell pivot fun member => apart.pivot_inner (rootInner member)]
    simpa [apart.pivot_ne] using pivotLive
  let mem₃ := mem₂.put pivot (pivotParent pivotCell)
  have pivot₃ : mem₃.cell pivot = some (pivotParent pivotCell) := by simp [mem₃]
  let mem₄ := mem₃.put pivot (pivotChild (pivotParent pivotCell))
  have node₄ : mem₄.cell node = some (nodeChild nodeCell) := by
    simp [mem₃, mem₄, apart.pivot_ne.symm, node₂]
  let after := mem₄.put node (nodeParent (nodeChild nodeCell))
  have same : Mem.SameOutside (node :: pivot :: inorder inner) mem after := by
    let owned := node :: pivot :: inorder inner
    have first := (Mem.SameOutside.put nodeLive (nodeChild nodeCell)).mono owned (by simp [owned])
    have second := same₂.mono owned fun other member => by simp [owned, rootInner member]
    have third := (Mem.SameOutside.put pivot₂ (pivotParent pivotCell)).mono owned
      (by simp [owned])
    have fourth := (Mem.SameOutside.put pivot₃ (pivotChild (pivotParent pivotCell))).mono owned
      (by simp [owned])
    have fifth := (Mem.SameOutside.put node₄ (nodeParent (nodeChild nodeCell))).mono owned
      (by simp [owned])
    exact (((first.trans second).trans third).trans fourth).trans fifth
  refine ⟨mem₁, mem₂, mem₃, mem₄, after, Mem.modify_eq nodeLive _, parentEq,
    Mem.modify_eq pivot₂ _, Mem.modify_eq pivot₃ _, Mem.modify_eq node₄ _, by simp [after],
    by simp [after, mem₄, apart.pivot_ne], ?_, ?_, ?_, same⟩
  · refine ownHolds.outside same fun other member => ?_
    simp only [List.mem_cons, not_or]
    exact ⟨fun equal => apart.node_own (equal ▸ member),
      fun equal => apart.pivot_own (equal ▸ member), apart.own_inner other member⟩
  · exact ((innerHolds₂.put apart.pivot_inner _).put apart.pivot_inner _).put apart.node_inner _
  · refine outerHolds.outside same fun other member => ?_
    simp only [List.mem_cons, not_or]
    exact ⟨fun equal => apart.node_outer (equal ▸ member),
      fun equal => apart.pivot_outer (equal ▸ member), apart.outer_inner other member⟩

theorem avlUpdate_spec {mem : AVLMem} {parent : Option Ptr} {node : Ptr}
    {left right : BinaryTree Ptr} (stale : Stale mem parent (.node node left right))
    (nodup : (inorder (.node node left right)).Nodup)
    (small : (BinaryTree.node node left right).height < 2 ^ 32) :
    Exec.Returns (avlUpdate mem node) fun after =>
      Represents after parent (.node node left right) ∧ Mem.SameOutside [node] mem after := by
  rw [avlUpdate_eq stale (by simp only [BinaryTree.height] at small; omega)]
  obtain ⟨⟨height, cnt, live⟩, leftHolds, rightHolds⟩ := stale
  exact .of_ok ⟨.of_put leftHolds rightHolds nodup, .put live _⟩

/-- The two `avl_update` calls that end a rotation, when `lower` has become a child
of `upper`. -/
theorem updateTwice_spec {mem : AVLMem} {parent : Option Ptr} {lower upper : Ptr}
    {lowerLeft lowerRight upperLeft upperRight : BinaryTree Ptr}
    (lowerStale : Stale mem (some upper) (.node lower lowerLeft lowerRight))
    (lowerNodup : (inorder (.node lower lowerLeft lowerRight)).Nodup)
    (upperStale : ∀ after, Represents after (some upper) (.node lower lowerLeft lowerRight) →
      Mem.SameOutside [lower] mem after →
      Stale after parent (.node upper upperLeft upperRight))
    (upperNodup : (inorder (.node upper upperLeft upperRight)).Nodup)
    (lowerSmall : (BinaryTree.node lower lowerLeft lowerRight).height < 2 ^ 32)
    (upperSmall : (BinaryTree.node upper upperLeft upperRight).height < 2 ^ 32) :
    ∃ middle after, avlUpdate mem lower = .ok middle ∧ avlUpdate middle upper = .ok after ∧
      Represents after parent (.node upper upperLeft upperRight) ∧
      Mem.SameOutside [lower, upper] mem after := by
  obtain ⟨middle, lowerEq, lowerHolds, lowerSame⟩ :=
    avlUpdate_spec lowerStale lowerNodup lowerSmall
  obtain ⟨after, upperEq, upperHolds, upperSame⟩ :=
    avlUpdate_spec (upperStale middle lowerHolds lowerSame) upperNodup upperSmall
  exact ⟨middle, after, lowerEq, upperEq, upperHolds,
    (lowerSame.mono [lower, upper] (by simp)).trans (upperSame.mono [lower, upper] (by simp))⟩

/-- `rot_left` carries out `rotateLeft`. -/
theorem rotLeft_spec {mem : AVLMem} {parent : Option Ptr} {node pivot : Ptr}
    {own inner outer : BinaryTree Ptr}
    (stale : Stale mem parent (.node node own (.node pivot inner outer)))
    (nodup : (inorder (.node node own (.node pivot inner outer))).Nodup)
    (small : (BinaryTree.node node own (.node pivot inner outer)).height + 1 < 2 ^ 32) :
    Exec.Returns (rotLeft mem node) fun result =>
      result.2 = pivot ∧
        Represents result.1 parent (.node pivot (.node node own inner) outer) ∧
        Mem.SameOutside (inorder (.node node own (.node pivot inner outer))) mem result.1 := by
  obtain ⟨⟨height, cnt, nodeLive⟩, ownHolds, pivotLive, innerHolds, outerHolds⟩ := stale
  have apart := Apart.of_left nodup
  have rotated : (inorder (.node pivot (.node node own inner) outer)).Nodup := by
    simpa using nodup
  have lowered : (inorder (.node node own inner)).Nodup := by
    simp only [inorder_node] at rotated ⊢; grind
  simp only [BinaryTree.height] at small
  obtain ⟨mem₁, mem₂, mem₃, mem₄, mem₅, eq₁, eq₂, eq₃, eq₄, eq₅, node₅, pivot₅, own₅, inner₅,
    outer₅, same₅⟩ := relink_spec apart nodeLive pivotLive ownHolds innerHolds outerHolds
      (fun cell => { cell with right := root inner })
      (fun cell => { cell with parent := some pivot })
      (fun cell => { cell with parent := parent })
      (fun cell => { cell with left := some node })
  have lowerStale : Stale mem₅ (some pivot) (.node node own inner) :=
    ⟨⟨_, _, node₅⟩, own₅, inner₅⟩
  have upperStale (after : AVLMem) (lower : Represents after (some pivot) (.node node own inner))
      (same : Mem.SameOutside [node] mem₅ after) :
      Stale after parent (.node pivot (.node node own inner) outer) := by
    refine ⟨⟨_, _, (same.cell pivot (by simpa using apart.pivot_ne)).trans pivot₅⟩, lower,
      outer₅.outside same fun other member => ?_⟩
    · simpa using fun equal : other = node => apart.node_outer (equal ▸ member)
  obtain ⟨mem₆, mem₇, eq₆, eq₇, holds₇, same₇⟩ := updateTwice_spec lowerStale lowered upperStale
    rotated (by simp only [BinaryTree.height]; omega) (by simp only [BinaryTree.height]; omega)
  refine ⟨(mem₇, pivot), ?_, rfl, holds₇, ?_⟩
  · simp only [rotLeft, Mem.read_eq nodeLive, Mem.read_eq pivotLive, Exec.ok_bind, root_node,
      Exec.deref_some, cellOf, setRight, setLeft, setParent_some, eq₁, eq₂, eq₃, eq₄, eq₅, eq₆,
      eq₇, Exec.pure_eq_ok]
  · exact (same₅.mono _ (by simp; grind)).trans (same₇.mono _ (by simp))

/-- `rot_right` carries out `rotateRight`. -/
theorem rotRight_spec {mem : AVLMem} {parent : Option Ptr} {node pivot : Ptr}
    {own inner outer : BinaryTree Ptr}
    (stale : Stale mem parent (.node node (.node pivot outer inner) own))
    (nodup : (inorder (.node node (.node pivot outer inner) own)).Nodup)
    (small : (BinaryTree.node node (.node pivot outer inner) own).height + 1 < 2 ^ 32) :
    Exec.Returns (rotRight mem node) fun result =>
      result.2 = pivot ∧
        Represents result.1 parent (.node pivot outer (.node node inner own)) ∧
        Mem.SameOutside (inorder (.node node (.node pivot outer inner) own)) mem result.1 := by
  obtain ⟨⟨height, cnt, nodeLive⟩, ⟨pivotLive, outerHolds, innerHolds⟩, ownHolds⟩ := stale
  have apart := Apart.of_right nodup
  have rotated : (inorder (.node pivot outer (.node node inner own))).Nodup := by
    simpa using nodup
  have lowered : (inorder (.node node inner own)).Nodup := by
    simp only [inorder_node] at rotated ⊢; grind
  simp only [BinaryTree.height] at small
  obtain ⟨mem₁, mem₂, mem₃, mem₄, mem₅, eq₁, eq₂, eq₃, eq₄, eq₅, node₅, pivot₅, own₅, inner₅,
    outer₅, same₅⟩ := relink_spec apart nodeLive pivotLive ownHolds innerHolds outerHolds
      (fun cell => { cell with left := root inner })
      (fun cell => { cell with parent := some pivot })
      (fun cell => { cell with parent := parent })
      (fun cell => { cell with right := some node })
  have lowerStale : Stale mem₅ (some pivot) (.node node inner own) :=
    ⟨⟨_, _, node₅⟩, inner₅, own₅⟩
  have upperStale (after : AVLMem) (lower : Represents after (some pivot) (.node node inner own))
      (same : Mem.SameOutside [node] mem₅ after) :
      Stale after parent (.node pivot outer (.node node inner own)) := by
    refine ⟨⟨_, _, (same.cell pivot (by simpa using apart.pivot_ne)).trans pivot₅⟩,
      outer₅.outside same fun other member => ?_, lower⟩
    · simpa using fun equal : other = node => apart.node_outer (equal ▸ member)
  obtain ⟨mem₆, mem₇, eq₆, eq₇, holds₇, same₇⟩ := updateTwice_spec lowerStale lowered upperStale
    rotated (by simp only [BinaryTree.height]; omega) (by simp only [BinaryTree.height]; omega)
  refine ⟨(mem₇, pivot), ?_, rfl, holds₇, ?_⟩
  · simp only [rotRight, Mem.read_eq nodeLive, Mem.read_eq pivotLive, Exec.ok_bind, root_node,
      Exec.deref_some, cellOf, setRight, setLeft, setParent_some, eq₁, eq₂, eq₃, eq₄, eq₅, eq₆,
      eq₇, Exec.pure_eq_ok]
  · exact (same₅.mono _ (by simp; grind)).trans (same₇.mono _ (by simp))

/-- A root whose left child was replaced: the cell of the root is out of date, the
subtrees are represented. -/
theorem Stale.setLeft {mem mem₁ : AVLMem} {parent : Option Ptr} {node : Ptr}
    {left fixed right : BinaryTree Ptr} (holds : Represents mem parent (.node node left right))
    (nodup : (inorder (.node node left right)).Nodup)
    (fixedHolds : Represents mem₁ (some node) fixed) (values : inorder fixed = inorder left)
    (same : Mem.SameOutside (inorder left) mem mem₁) :
    Exec.Returns (RedisLite.setLeft mem₁ node (root fixed)) fun after =>
      Stale after parent (.node node fixed right) ∧
        Mem.SameOutside (inorder (.node node left right)) mem after := by
  obtain ⟨nodeLive, -, rightHolds⟩ := holds
  have nodeLeft : node ∉ inorder left := by simp only [inorder_node] at nodup; grind
  have nodeRight : node ∉ inorder right := by simp only [inorder_node] at nodup; grind
  have rightLeft : ∀ other ∈ inorder right, other ∉ inorder left := by
    simp only [inorder_node] at nodup; grind
  have live : mem₁.cell node = some (cellOf parent left right) :=
    (same.cell node nodeLeft).trans nodeLive
  rw [RedisLite.setLeft, Mem.modify_eq live, Exec.returns_ok]
  refine ⟨⟨⟨_, _, Mem.put_self _ _ _⟩, fixedHolds.put (values ▸ nodeLeft) _,
    (rightHolds.outside same rightLeft).put nodeRight _⟩, ?_⟩
  exact (same.mono _ (by simp)).trans ((Mem.SameOutside.put live _).mono _ (by simp))

/-- A root whose right child was replaced. -/
theorem Stale.setRight {mem mem₁ : AVLMem} {parent : Option Ptr} {node : Ptr}
    {left right fixed : BinaryTree Ptr} (holds : Represents mem parent (.node node left right))
    (nodup : (inorder (.node node left right)).Nodup)
    (fixedHolds : Represents mem₁ (some node) fixed) (values : inorder fixed = inorder right)
    (same : Mem.SameOutside (inorder right) mem mem₁) :
    Exec.Returns (RedisLite.setRight mem₁ node (root fixed)) fun after =>
      Stale after parent (.node node left fixed) ∧
        Mem.SameOutside (inorder (.node node left right)) mem after := by
  obtain ⟨nodeLive, leftHolds, -⟩ := holds
  have nodeLeft : node ∉ inorder left := by simp only [inorder_node] at nodup; grind
  have nodeRight : node ∉ inorder right := by simp only [inorder_node] at nodup; grind
  have leftRight : ∀ other ∈ inorder left, other ∉ inorder right := by
    simp only [inorder_node] at nodup; grind
  have live : mem₁.cell node = some (cellOf parent left right) :=
    (same.cell node nodeRight).trans nodeLive
  rw [RedisLite.setRight, Mem.modify_eq live, Exec.returns_ok]
  refine ⟨⟨⟨_, _, Mem.put_self _ _ _⟩, (leftHolds.outside same leftRight).put nodeLeft _,
    fixedHolds.put (values ▸ nodeRight) _⟩, ?_⟩
  exact (same.mono _ (by simp)).trans ((Mem.SameOutside.put live _).mono _ (by simp))

/-- `avl_fix_left` carries out `fixLeft`. -/
theorem avlFixLeft_spec {mem : AVLMem} {parent : Option Ptr} {node : Ptr}
    {left right : BinaryTree Ptr} (holds : Represents mem parent (.node node left right))
    (nodup : (inorder (.node node left right)).Nodup)
    (high : left.height = right.height + 2)
    (small : (BinaryTree.node node left right).height + 3 < 2 ^ 32) :
    Exec.Returns (avlFixLeft mem node) fun result =>
      root (fixLeft (.node node left right)) = some result.2 ∧
        Represents result.1 parent (fixLeft (.node node left right)) ∧
        Mem.SameOutside (inorder (.node node left right)) mem result.1 := by
  cases left with
  | nil => simp at high
  | node pivot outer inner =>
      obtain ⟨nodeLive, leftHolds, rightHolds⟩ := id holds
      simp only [BinaryTree.height] at small
      have outerHeight := avlHeight_eq leftHolds.2.1
      have innerHeight := avlHeight_eq leftHolds.2.2
      have readPivot := Mem.read_eq leftHolds.1
      have compare : UInt32.ofNat outer.height < UInt32.ofNat inner.height ↔
          outer.height < inner.height := ofNat_lt_iff (by omega) (by omega)
      simp only [avlFixLeft, Mem.read_eq nodeLive, readPivot, Exec.ok_bind, cellOf, root_node,
        Exec.deref_some, outerHeight, innerHeight, compare, fixLeft]
      by_cases double : outer.height < inner.height
      · cases inner with
        | nil => simp at double
        | node middle near far =>
            simp only [BinaryTree.height] at small
            obtain ⟨⟨mem₁, fixed⟩, eq₁, fixedEq, holds₁, same₁⟩ := rotLeft_spec leftHolds.stale
              (by simp only [inorder_node] at nodup ⊢; grind)
              (by simp only [BinaryTree.height]; omega)
            obtain rfl : fixed = middle := fixedEq
            obtain ⟨mem₂, eq₂, stale₂, same₂⟩ := Stale.setLeft holds nodup holds₁ (by simp) same₁
            obtain ⟨⟨mem₃, top⟩, eq₃, topEq, holds₃, same₃⟩ := rotRight_spec stale₂
              (by simpa using nodup) (by simp only [BinaryTree.height]; omega)
            obtain rfl : top = fixed := topEq
            have stored : RedisLite.setLeft mem₁ node (some top) = .ok mem₂ := eq₂
            simp only [if_pos double, eq₁, Exec.ok_bind, stored, eq₃, Exec.returns_ok]
            exact ⟨rfl, holds₃, same₂.trans (same₃.mono _ (by simp))⟩
      · obtain ⟨⟨mem₁, top⟩, eq₁, topEq, holds₁, same₁⟩ := rotRight_spec holds.stale nodup
          (by simp only [BinaryTree.height]; omega)
        obtain rfl : top = pivot := topEq
        simp only [if_neg double, eq₁, Exec.returns_ok]
        exact ⟨rfl, holds₁, same₁⟩

/-- `avl_fix_right` carries out `fixRight`. -/
theorem avlFixRight_spec {mem : AVLMem} {parent : Option Ptr} {node : Ptr}
    {left right : BinaryTree Ptr} (holds : Represents mem parent (.node node left right))
    (nodup : (inorder (.node node left right)).Nodup)
    (high : left.height + 2 = right.height)
    (small : (BinaryTree.node node left right).height + 3 < 2 ^ 32) :
    Exec.Returns (avlFixRight mem node) fun result =>
      root (fixRight (.node node left right)) = some result.2 ∧
        Represents result.1 parent (fixRight (.node node left right)) ∧
        Mem.SameOutside (inorder (.node node left right)) mem result.1 := by
  cases right with
  | nil => simp at high
  | node pivot inner outer =>
      obtain ⟨nodeLive, leftHolds, rightHolds⟩ := id holds
      simp only [BinaryTree.height] at small
      have outerHeight := avlHeight_eq rightHolds.2.2
      have innerHeight := avlHeight_eq rightHolds.2.1
      have readPivot := Mem.read_eq rightHolds.1
      have compare : UInt32.ofNat outer.height < UInt32.ofNat inner.height ↔
          outer.height < inner.height := ofNat_lt_iff (by omega) (by omega)
      simp only [avlFixRight, Mem.read_eq nodeLive, readPivot, Exec.ok_bind, cellOf, root_node,
        Exec.deref_some, outerHeight, innerHeight, compare, fixRight]
      by_cases double : outer.height < inner.height
      · cases inner with
        | nil => simp at double
        | node middle far near =>
            simp only [BinaryTree.height] at small
            obtain ⟨⟨mem₁, fixed⟩, eq₁, fixedEq, holds₁, same₁⟩ := rotRight_spec rightHolds.stale
              (by simp only [inorder_node] at nodup ⊢; grind)
              (by simp only [BinaryTree.height]; omega)
            obtain rfl : fixed = middle := fixedEq
            obtain ⟨mem₂, eq₂, stale₂, same₂⟩ := Stale.setRight holds nodup holds₁ (by simp) same₁
            obtain ⟨⟨mem₃, top⟩, eq₃, topEq, holds₃, same₃⟩ := rotLeft_spec stale₂
              (by simpa using nodup) (by simp only [BinaryTree.height]; omega)
            obtain rfl : top = fixed := topEq
            have stored : RedisLite.setRight mem₁ node (some top) = .ok mem₂ := eq₂
            simp only [if_pos double, eq₁, Exec.ok_bind, stored, eq₃, Exec.returns_ok]
            exact ⟨rfl, holds₃, same₂.trans (same₃.mono _ (by simp))⟩
      · obtain ⟨⟨mem₁, top⟩, eq₁, topEq, holds₁, same₁⟩ := rotLeft_spec holds.stale nodup
          (by simp only [BinaryTree.height]; omega)
        obtain rfl : top = pivot := topEq
        simp only [if_neg double, eq₁, Exec.returns_ok]
        exact ⟨rfl, holds₁, same₁⟩

/-! ## The climb -/

/-- Storing the root of a repaired subtree in the slot above it. -/
theorem storeFixed_spec {mem mem₁ : AVLMem} {path : Path Ptr} {node : Ptr}
    {tree repaired : BinaryTree Ptr} (fixed : Ptr) (around : Around mem (some node) path)
    (nodup : (inorder (Path.plug path tree)).Nodup)
    (values : inorder repaired = inorder tree)
    (holds : Represents mem₁ (Path.parent path) repaired)
    (same : Mem.SameOutside (inorder tree) mem mem₁) :
    Exec.Returns ((slotAt path).store mem₁ (some fixed)) fun after =>
      Represents after (Path.parent path) repaired ∧ Around after (some fixed) path ∧
        Mem.SameOutside ((Path.parent path).toList ++ inorder tree) mem after := by
  obtain ⟨othersNodup, -, apart⟩ := Path.nodup_plug.mp nodup
  have around₁ : Around mem₁ (some node) path :=
    around.outside same fun other member inside => apart other inside member
  obtain ⟨after, eq, aroundAfter, sameAfter⟩ := store_spec around₁ othersNodup (some fixed)
  refine ⟨after, eq, holds.outside sameAfter ?_, aroundAfter, ?_⟩
  · intro other member isParent
    exact apart other (values ▸ member) (Path.parent_subset_others path isParent)
  · exact (same.mono _ (by simp)).trans (sameAfter.mono _ (by simp))

/-- A turn repairs the subtree in the hole and stores its root in the slot above. -/
theorem avlFixDifference_spec {mem : AVLMem} {path : Path Ptr} {node : Ptr}
    {left right : BinaryTree Ptr}
    (holds : Represents mem (Path.parent path) (.node node left right))
    (around : Around mem (some node) path)
    (nodup : (inorder (Path.plug path (.node node left right))).Nodup)
    (small : (BinaryTree.node node left right).height + 3 < 2 ^ 32) :
    Exec.Returns
      (avlFixDifference mem (slotAt path) node (UInt32.ofNat left.height)
        (UInt32.ofNat right.height))
      fun result =>
        root (rebalance (.node node left right)) = some result.2 ∧
          Represents result.1 (Path.parent path) (rebalance (.node node left right)) ∧
          Around result.1 (some result.2) path ∧
          Mem.SameOutside ((Path.parent path).toList ++ inorder (.node node left right)) mem
            result.1 := by
  have treeNodup := (Path.nodup_plug.mp nodup).2.1
  have heights : left.height + 4 < 2 ^ 32 ∧ right.height + 4 < 2 ^ 32 := by
    simp only [BinaryTree.height] at small; omega
  have leftHigh : UInt32.ofNat left.height = UInt32.ofNat right.height + 2 ↔
      left.height = right.height + 2 := by
    rw [← ofNat_eq_iff (by omega) (by omega), UInt32.ofNat_add]
    rfl
  have rightHigh : UInt32.ofNat left.height + 2 = UInt32.ofNat right.height ↔
      left.height + 2 = right.height := by
    rw [← ofNat_eq_iff (by omega) (by omega), UInt32.ofNat_add]
    rfl
  simp only [avlFixDifference, leftHigh, rightHigh, rebalance]
  by_cases high : left.height = right.height + 2
  · obtain ⟨⟨mem₁, fixed⟩, eq₁, isRoot, holds₁, same₁⟩ := avlFixLeft_spec holds treeNodup high small
    have values : inorder (fixLeft (.node node left right)) = inorder (.node node left right) := by
      simpa [rebalance, high] using inorder_rebalance (.node node left right)
    obtain ⟨after, eq, spec⟩ := storeFixed_spec fixed around nodup values holds₁ same₁
    simp only [if_pos high, eq₁, Exec.ok_bind, eq, Exec.pure_eq_ok, Exec.returns_ok]
    exact ⟨isRoot, spec⟩
  · by_cases low : left.height + 2 = right.height
    · obtain ⟨⟨mem₁, fixed⟩, eq₁, isRoot, holds₁, same₁⟩ :=
        avlFixRight_spec holds treeNodup low small
      have values :
          inorder (fixRight (.node node left right)) = inorder (.node node left right) := by
        simpa [rebalance, high, low] using inorder_rebalance (.node node left right)
      obtain ⟨after, eq, spec⟩ := storeFixed_spec fixed around nodup values holds₁ same₁
      simp only [if_neg high, if_pos low, eq₁, Exec.ok_bind, eq, Exec.pure_eq_ok, Exec.returns_ok]
      exact ⟨isRoot, spec⟩
    · simp only [if_neg high, if_neg low, Exec.pure_eq_ok, Exec.returns_ok]
      exact ⟨rfl, holds, around, .refl _ _⟩

/-- One turn of `avl_fix`: the subtree in the hole is rebalanced, and the loop goes
on with the parent or ends at the root. -/
theorem avlFixTurn_spec {mem : AVLMem} {path : Path Ptr} {node : Ptr}
    {left right : BinaryTree Ptr}
    (stale : Stale mem (Path.parent path) (.node node left right))
    (around : Around mem (some node) path)
    (nodup : (inorder (Path.plug path (.node node left right))).Nodup)
    (small : (BinaryTree.node node left right).height + 3 < 2 ^ 32) :
    ∃ after fixed,
      avlFixTurn (mem, node) = .ok (match Path.parent path with
        | none => .done (after, fixed)
        | some parent => .next (after, parent)) ∧
      root (rebalance (.node node left right)) = some fixed ∧
      Represents after (Path.parent path) (rebalance (.node node left right)) ∧
      Around after (some fixed) path ∧
      Mem.SameOutside ((Path.parent path).toList ++ inorder (.node node left right)) mem
        after := by
  obtain ⟨-, treeNodup, apart⟩ := Path.nodup_plug.mp nodup
  obtain ⟨mem₁, eq₁, holds₁, same₁⟩ := avlUpdate_spec stale treeNodup (by omega)
  have around₁ : Around mem₁ (some node) path :=
    around.outside same₁ fun other member inside =>
      apart other (by simp [List.mem_singleton.mp inside]) member
  obtain ⟨⟨after, fixed⟩, eq₂, isRoot, holds₂, around₂, same₂⟩ :=
    avlFixDifference_spec holds₁ around₁ nodup small
  have slotEq := slotOf_spec around (apart node (by simp))
  have leftHeight := avlHeight_eq holds₁.2.1
  have rightHeight := avlHeight_eq holds₁.2.2
  refine ⟨after, fixed, ?_, isRoot, holds₂, around₂, (same₁.mono _ (by simp)).trans same₂⟩
  obtain ⟨⟨height, cnt, live⟩, -⟩ := stale
  simp only [avlFixTurn, Mem.read_eq live, Exec.ok_bind, slotEq, eq₁, Mem.read_eq holds₁.1, cellOf,
    leftHeight, rightHeight, eq₂]
  cases Path.parent path <;> rfl

/-- The state in which a turn of `avl_fix` starts: `tree`, whose root may be out of date,
is in the hole of `path`, and repairing it on the way up is enough. -/
structure Climbing (mem : AVLMem) (node : Ptr) (path : Path Ptr) (tree : BinaryTree Ptr)
    (height : Nat) : Prop where
  isNode : root tree = some node
  stale : Stale mem (Path.parent path) tree
  around : Around mem (some node) path
  nodup : (inorder (Path.plug path tree)).Nodup
  repairable : path.Repairable tree height
  small : path.height height + 5 < 2 ^ 32

namespace Climbing

variable {mem : AVLMem} {node : Ptr} {path : Path Ptr} {tree : BinaryTree Ptr} {height : Nat}

/-- At the root the loop ends. -/
theorem root_turn (climbing : Climbing mem node [] tree height) :
    ∃ after fixed, avlFixTurn (mem, node) = .ok (.done (after, fixed)) ∧
      root (rebalance tree) = some fixed ∧ Represents after none (rebalance tree) ∧
      Mem.SameOutside (inorder tree) mem after := by
  obtain ⟨left, right, rfl⟩ := root_eq_some.mp climbing.isNode
  obtain ⟨after, fixed, turn, isRoot, holds, -, same⟩ :=
    avlFixTurn_spec climbing.stale climbing.around climbing.nodup (by
      have near := climbing.repairable.near
      have small := climbing.small
      simp only [Path.height] at small
      omega)
  exact ⟨after, fixed, turn, isRoot, holds, same⟩

/-- Below the root it goes on with the parent, whose tree is the refilled frame. -/
theorem step {frame : Frame Ptr} (climbing : Climbing mem node (frame :: path) tree height) :
    ∃ after, avlFixTurn (mem, node) = .ok (.next (after, frame.value)) ∧
      Climbing after frame.value path (frame.fill (rebalance tree))
        (max height frame.sibling.height + 1) ∧
      Mem.SameOutside (inorder (Path.plug (frame :: path) tree)) mem after := by
  obtain ⟨left, right, rfl⟩ := root_eq_some.mp climbing.isNode
  obtain ⟨after, fixed, turn, isRoot, holds, around, same⟩ :=
    avlFixTurn_spec climbing.stale climbing.around climbing.nodup (by
      have near := climbing.repairable.near
      have below := Path.le_height (frame :: path) height
      have small := climbing.small
      omega)
  rw [← isRoot] at around
  obtain ⟨stale, aroundRest⟩ := Around.stale holds around
  have values : inorder (Path.plug path (frame.fill (rebalance (.node node left right)))) =
      inorder (Path.plug (frame :: path) (.node node left right)) := by
    simp [Path.inorder_plug, Frame.inorder_fill]
  refine ⟨after, turn, ⟨root_fill _ _, stale, aroundRest, values ▸ climbing.nodup,
    climbing.repairable.step, climbing.small⟩, same.mono _ ?_⟩
  intro other member
  rw [Path.mem_inorder_plug, Path.mem_others_cons]
  simp only [Path.parent_cons, Option.toList_some, List.singleton_append, List.mem_cons] at member
  tauto

/-- The heights of the subtrees of a visited node differ by at most 2. -/
theorem near (climbing : Climbing mem node path tree height) :
    ∃ cell l r, mem.cell node = some cell ∧ avlHeight mem cell.left = .ok l ∧
      avlHeight mem cell.right = .ok r ∧ l.toNat ≤ r.toNat + 2 ∧ r.toNat ≤ l.toNat + 2 := by
  obtain ⟨left, right, rfl⟩ := root_eq_some.mp climbing.isNode
  obtain ⟨⟨cellHeight, cnt, live⟩, leftHolds, rightHolds⟩ := climbing.stale
  have repaired := climbing.repairable.repaired
  have near := climbing.repairable.near
  have below := Path.le_height path height
  have small := climbing.small
  simp only [BinaryTree.height] at near
  have differ : left.height ≤ right.height + 2 ∧ right.height ≤ left.height + 2 := by
    by_contra apart
    have same : rebalance (.node node left right) = .node node left right := by
      rw [rebalance, if_neg (by omega), if_neg (by omega)]
    rw [same] at repaired
    obtain ⟨leftLe, rightLe, -, -⟩ := repaired
    omega
  refine ⟨_, _, _, live, avlHeight_eq leftHolds, avlHeight_eq rightHolds, ?_⟩
  rw [UInt32.toNat_ofNat_of_lt' (by simp only [UInt32.size]; omega),
    UInt32.toNat_ofNat_of_lt' (by simp only [UInt32.size]; omega)]
  exact differ

/-- Every state that `avl_fix` passes through is such a state. -/
theorem passes (climbing : Climbing mem node path tree height) {state : AVLMem × Ptr}
    (passes : Passes avlFixTurn (mem, node) state) :
    ∃ path tree height, Climbing state.1 state.2 path tree height := by
  refine passes.holds (fun state => ∃ path tree height, Climbing state.1 state.2 path tree height)
    ⟨path, tree, height, climbing⟩ ?_
  rintro ⟨middle, current⟩ after ⟨path, tree, height, climbing⟩ turn
  cases path with
  | nil =>
      obtain ⟨_, _, done, -⟩ := climbing.root_turn
      rw [done] at turn
      cases turn
  | cons frame path =>
      obtain ⟨_, next, continues, -⟩ := climbing.step
      rw [next] at turn
      cases turn
      exact ⟨_, _, _, continues⟩

/-- `avl_fix` carries out `climb` and returns the root. -/
theorem loop_spec (climbing : Climbing mem node path tree height) {fuel : Nat}
    (enough : path.length < fuel) :
    Exec.Returns (loop avlFixTurn fuel (mem, node)) fun result =>
      root (Path.climb path tree) = some result.2 ∧
        Represents result.1 none (Path.climb path tree) ∧
        Mem.SameOutside (inorder (Path.plug path tree)) mem result.1 := by
  induction path generalizing mem node tree height fuel with
  | nil =>
      obtain ⟨fuel, rfl⟩ := Nat.exists_eq_add_one_of_ne_zero (Nat.ne_of_gt enough)
      obtain ⟨after, fixed, turn, isRoot, holds, same⟩ := climbing.root_turn
      rw [loop_done turn]
      exact .of_ok ⟨isRoot, holds, same⟩
  | cons frame path ih =>
      obtain ⟨fuel, rfl⟩ := Nat.exists_eq_add_one_of_ne_zero (by omega : fuel ≠ 0)
      obtain ⟨middle, turn, continues, same⟩ := climbing.step
      have values : inorder (Path.plug path (frame.fill (rebalance tree))) =
          inorder (Path.plug (frame :: path) tree) := by
        simp [Path.inorder_plug, Frame.inorder_fill]
      rw [loop_next turn]
      obtain ⟨result, eq, isRoot, holds, sameAfter⟩ := ih continues (by simp at enough; omega)
      exact ⟨result, eq, isRoot, holds, same.trans (values ▸ sameAfter)⟩

theorem avlFix_spec (climbing : Climbing mem node path tree height) :
    Exec.Returns (avlFix mem node) fun result =>
      root (Path.climb path tree) = some result.2 ∧
        Represents result.1 none (Path.climb path tree) ∧
        Mem.SameOutside (inorder (Path.plug path tree)) mem result.1 := by
  have pathShort := Path.length_le_others path
  have live : (Path.others path).length ≤ mem.next :=
    Mem.length_le_next (Path.nodup_plug.mp climbing.nodup).1 climbing.around.live
  exact climbing.loop_spec (by omega)

end Climbing

end RedisLite
