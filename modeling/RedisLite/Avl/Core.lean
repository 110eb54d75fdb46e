import RedisLite.Lib.Memory

/-!
# Intrusive AVL tree

The functions of `avl.cpp` over a memory of `AVLNode` cells.  A null pointer is
`none`; dereferencing it, or a node that is not allocated, faults.  `height` and
`cnt` are 32-bit and wrap.

A loop takes one turn for every node it visits, so it is bounded by the number of
nodes ever allocated.
-/

namespace RedisLite

open Lib

/-- `struct AVLNode`. -/
structure AVLNode where
  parent : Option Ptr := none
  left : Option Ptr := none
  right : Option Ptr := none
  height : UInt32 := 0
  cnt : UInt32 := 0
  deriving DecidableEq, Repr

/-- The AVL nodes of one tree owner. -/
abbrev AVLMem := Mem AVLNode

/-- The contents `avl_init` stores. -/
def avlInit : AVLNode := { height := 1, cnt := 1 }

def avlHeight (mem : AVLMem) : Option Ptr → Exec UInt32
  | none => .ok 0
  | some node => do return (← mem.read node).height

def avlCnt (mem : AVLMem) : Option Ptr → Exec UInt32
  | none => .ok 0
  | some node => do return (← mem.read node).cnt

/-- `max` on `uint32_t`. -/
def maxU32 (lhs rhs : UInt32) : UInt32 := if lhs < rhs then rhs else lhs

/-- `avl_update`: maintain the height and cnt fields. -/
def avlUpdate (mem : AVLMem) (node : Ptr) : Exec AVLMem := do
  let cell ← mem.read node
  let height := 1 + maxU32 (← avlHeight mem cell.left) (← avlHeight mem cell.right)
  let cnt := 1 + (← avlCnt mem cell.left) + (← avlCnt mem cell.right)
  mem.modify node fun cell => { cell with height := height, cnt := cnt }

/-- `node->parent = parent`, where `node` may be null (then nothing is stored). -/
def setParent (mem : AVLMem) (node : Option Ptr) (parent : Option Ptr) : Exec AVLMem :=
  match node with
  | none => .ok mem
  | some node => mem.modify node fun cell => { cell with parent := parent }

/-- `node->left = child`. -/
def setLeft (mem : AVLMem) (node : Ptr) (child : Option Ptr) : Exec AVLMem :=
  mem.modify node fun cell => { cell with left := child }

/-- `node->right = child`. -/
def setRight (mem : AVLMem) (node : Ptr) (child : Option Ptr) : Exec AVLMem :=
  mem.modify node fun cell => { cell with right := child }

def rotLeft (mem : AVLMem) (node : Ptr) : Exec (AVLMem × Ptr) := do
  let parent := (← mem.read node).parent
  let newNode ← Exec.deref (← mem.read node).right
  let inner := (← mem.read newNode).left
  let mem ← setRight mem node inner
  let mem ← setParent mem inner (some node)
  let mem ← setParent mem (some newNode) parent
  let mem ← setLeft mem newNode (some node)
  let mem ← setParent mem (some node) (some newNode)
  let mem ← avlUpdate mem node
  let mem ← avlUpdate mem newNode
  return (mem, newNode)

def rotRight (mem : AVLMem) (node : Ptr) : Exec (AVLMem × Ptr) := do
  let parent := (← mem.read node).parent
  let newNode ← Exec.deref (← mem.read node).left
  let inner := (← mem.read newNode).right
  let mem ← setLeft mem node inner
  let mem ← setParent mem inner (some node)
  let mem ← setParent mem (some newNode) parent
  let mem ← setRight mem newNode (some node)
  let mem ← setParent mem (some node) (some newNode)
  let mem ← avlUpdate mem node
  let mem ← avlUpdate mem newNode
  return (mem, newNode)

/-- `avl_fix_left`: the left subtree is taller by 2. -/
def avlFixLeft (mem : AVLMem) (node : Ptr) : Exec (AVLMem × Ptr) := do
  let left ← Exec.deref (← mem.read node).left
  let outer ← avlHeight mem (← mem.read left).left
  let inner ← avlHeight mem (← mem.read left).right
  if outer < inner then
    let (mem, fixed) ← rotLeft mem left
    let mem ← setLeft mem node (some fixed)
    rotRight mem node
  else
    rotRight mem node

/-- `avl_fix_right`: the right subtree is taller by 2. -/
def avlFixRight (mem : AVLMem) (node : Ptr) : Exec (AVLMem × Ptr) := do
  let right ← Exec.deref (← mem.read node).right
  let outer ← avlHeight mem (← mem.read right).right
  let inner ← avlHeight mem (← mem.read right).left
  if outer < inner then
    let (mem, fixed) ← rotRight mem right
    let mem ← setRight mem node (some fixed)
    rotLeft mem node
  else
    rotLeft mem node

/-- The variable an `AVLNode **` points to: a child slot of a node, or a local
variable of the function. -/
inductive Slot where
  | left (node : Ptr)
  | right (node : Ptr)
  | local
  deriving DecidableEq, Repr

/-- `parent->left == node ? &parent->left : &parent->right`, or the local variable
when there is no parent. -/
def slotOf (mem : AVLMem) (parent : Option Ptr) (node : Ptr) : Exec Slot :=
  match parent with
  | none => .ok .local
  | some parent => do
      if (← mem.read parent).left = some node then
        return .left parent
      else
        return .right parent

/-- `*from = node`; storing to a local variable leaves the memory as it is. -/
def Slot.store (slot : Slot) (mem : AVLMem) (node : Option Ptr) : Exec AVLMem :=
  match slot with
  | .left parent => setLeft mem parent node
  | .right parent => setRight mem parent node
  | .local => .ok mem

/-- The part of a turn of `avl_fix` that fixes the height difference of 2; the result
is what the slot holds. -/
def avlFixDifference (mem : AVLMem) (slot : Slot) (node : Ptr) (l r : UInt32) :
    Exec (AVLMem × Ptr) :=
  if l = r + 2 then do
    let (mem, fixed) ← avlFixLeft mem node
    let mem ← slot.store mem (some fixed)
    return (mem, fixed)
  else if l + 2 = r then do
    let (mem, fixed) ← avlFixRight mem node
    let mem ← slot.store mem (some fixed)
    return (mem, fixed)
  else
    return (mem, node)

/-- One turn of `avl_fix`: repair `node` and go on with its parent.  The result is
the root, which is what the local variable holds when there is no parent. -/
def avlFixTurn : AVLMem × Ptr → Exec (Step (AVLMem × Ptr) (AVLMem × Ptr))
  | (mem, node) => do
      let parent := (← mem.read node).parent
      let slot ← slotOf mem parent node
      let mem ← avlUpdate mem node
      let l ← avlHeight mem (← mem.read node).left
      let r ← avlHeight mem (← mem.read node).right
      let (mem, fixed) ← avlFixDifference mem slot node l r
      match parent with
      | none => return .done (mem, fixed)
      | some parent => return .next (mem, parent)

def avlFix (mem : AVLMem) (node : Ptr) : Exec (AVLMem × Ptr) :=
  loop avlFixTurn (mem.next + 1) (mem, node)

/-- `avl_del_easy`: detach a node where one of its children is empty. -/
def avlDelEasy (mem : AVLMem) (node : Ptr) : Exec (AVLMem × Option Ptr) := do
  let cell ← mem.read node
  Exec.assert (cell.left.isNone || cell.right.isNone)
  let child := if cell.left.isSome then cell.left else cell.right
  let parent := cell.parent
  let mem ← setParent mem child parent
  match parent with
  | none => return (mem, child)
  | some parent => do
      let slot ← slotOf mem (some parent) node
      let mem ← slot.store mem child
      let (mem, root) ← avlFix mem parent
      return (mem, some root)

/-- One turn of the walk to the leftmost node. -/
def leftmostTurn (mem : AVLMem) (victim : Ptr) : Exec (Step Ptr Ptr) := do
  match (← mem.read victim).left with
  | some left => return .next left
  | none => return .done victim

/-- `avl_del`: detach a node and return the new root of the tree. -/
def avlDel (mem : AVLMem) (node : Ptr) : Exec (AVLMem × Option Ptr) := do
  let cell ← mem.read node
  match cell.left, cell.right with
  | some _, some right => do
      let victim ← loop (leftmostTurn mem) (mem.next + 1) right
      let (mem, root) ← avlDelEasy mem victim
      let cell ← mem.read node
      let mem ← mem.write victim cell
      let mem ← setParent mem cell.left (some victim)
      let mem ← setParent mem cell.right (some victim)
      let parent := (← mem.read node).parent
      let slot ← slotOf mem parent node
      let mem ← slot.store mem (some victim)
      return (mem, if slot = .local then some victim else root)
  | _, _ => avlDelEasy mem node

/-- One turn of `avl_offset`; `pos` is the rank difference from the starting node. -/
def avlOffsetTurn (mem : AVLMem) (offset : Int) :
    Ptr × Int → Exec (Step (Ptr × Int) (Option Ptr))
  | (node, pos) => do
      if offset = pos then return .done (some node)
      let cell ← mem.read node
      let leftCnt ← avlCnt mem cell.left
      let rightCnt ← avlCnt mem cell.right
      if pos < offset ∧ pos + rightCnt.toNat ≥ offset then
        let child ← Exec.deref cell.right
        let inner ← avlCnt mem (← mem.read child).left
        return .next (child, pos + (inner + 1).toNat)
      else if pos > offset ∧ pos - leftCnt.toNat ≤ offset then
        let child ← Exec.deref cell.left
        let inner ← avlCnt mem (← mem.read child).right
        return .next (child, pos - (inner + 1).toNat)
      else
        match cell.parent with
        | none => return .done none
        | some parent =>
            if (← mem.read parent).right = some node then
              return .next (parent, pos - (leftCnt + 1).toNat)
            else
              return .next (parent, pos + (rightCnt + 1).toNat)

/-- `avl_offset`: offset into the succeeding or preceding node.  It climbs to an
ancestor and then descends, so twice the number of nodes bounds its turns. -/
def avlOffset (mem : AVLMem) (node : Ptr) (offset : Int) : Exec (Option Ptr) :=
  loop (avlOffsetTurn mem offset) (2 * mem.next + 2) (node, 0)

end RedisLite
