import RedisLite.Avl.Core
import RedisLite.Bytes
import RedisLite.HashTable.Core

/-!
# Sorted sets

The functions of `zset.cpp`.  A `ZSet` comes with the memory of its own `ZNode`s:
`tree` holds their AVL fields and `node` the others, both under the identity of
the `ZNode`, and the hash table links carry that identity.

Scores are the elements of a linearly ordered type.
-/

namespace RedisLite

open Lib

variable {D : Type}

/-- `struct ZNode` without its AVL fields; `hcode` is `hmap.hcode` and the length of
`name` is `len`. -/
structure ZNode (D : Type) where
  hcode : UInt64
  score : D
  name : Bytes
  deriving DecidableEq, Repr

/-- `struct ZSet` and the memory of its nodes. -/
structure ZSet (D : Type) where
  root : Option Ptr := none
  hmap : HMap Ptr := {}
  tree : AVLMem := .empty
  node : Mem (ZNode D) := .empty

namespace ZSet

def znodeNew (zset : ZSet D) (name : Bytes) (score : D) : ZSet D × Ptr :=
  let (nodes, node) := zset.node.alloc { hcode := strHash name, score := score, name := name }
  ({ zset with tree := zset.tree.put node avlInit, node := nodes }, node)

def znodeDel (zset : ZSet D) (node : Ptr) : Exec (ZSet D) := do
  let nodes ← zset.node.free node
  return { zset with tree := zset.tree.drop node, node := nodes }

variable [LinearOrder D]

/-- `zless`: compare a node with a `(score, name)` tuple. -/
def zless (zset : ZSet D) (lhs : Ptr) (score : D) (name : Bytes) : Exec Bool := do
  let zl ← zset.node.read lhs
  if zl.score ≠ score then return decide (zl.score < score)
  let rv := memcmp zl.name name (min zl.name.length name.length)
  if rv ≠ 0 then return decide (rv < 0)
  return decide (zl.name.length < name.length)

/-- `zless` on two nodes. -/
def zlessNode (zset : ZSet D) (lhs rhs : Ptr) : Exec Bool := do
  let zr ← zset.node.read rhs
  zless zset lhs zr.score zr.name

/-- `*from` in `tree_insert`, where the local slot is `zset->root`. -/
def load (zset : ZSet D) (slot : Slot) : Exec (Option Ptr) :=
  match slot with
  | .left parent => do return (← zset.tree.read parent).left
  | .right parent => do return (← zset.tree.read parent).right
  | .local => .ok zset.root

/-- One turn of the tree search in `tree_insert`, with the variables `from` and
`parent`. -/
def treeInsertTurn (zset : ZSet D) (node : Ptr) :
    Slot × Option Ptr → Exec (Step (Slot × Option Ptr) (Slot × Option Ptr))
  | (slot, parent) => do
      match ← zset.load slot with
      | some parent =>
          let less ← zset.zlessNode node parent
          return .next (if less then .left parent else .right parent, some parent)
      | none => return .done (slot, parent)

/-- `tree_insert`.  A store to `zset->root` is overwritten by the result of
`avl_fix`. -/
def treeInsert (zset : ZSet D) (node : Ptr) : Exec (ZSet D) := do
  let (slot, parent) ← loop (zset.treeInsertTurn node) (zset.tree.next + 1) (.local, none)
  let tree ← slot.store zset.tree (some node)
  let tree ← setParent tree (some node) parent
  let (tree, root) ← avlFix tree node
  return { zset with tree := tree, root := some root }

/-- `zset_update`: update the score of an existing node. -/
def zsetUpdate (zset : ZSet D) (node : Ptr) (score : D) : Exec (ZSet D) := do
  if (← zset.node.read node).score = score then return zset
  else
    let (tree, root) ← avlDel zset.tree node
    let tree ← tree.write node avlInit
    let nodes ← zset.node.modify node fun cell => { cell with score := score }
    treeInsert { zset with tree := tree, root := root, node := nodes } node

/-- `hcmp`: compare the name of a node with the searched one. -/
def hcmp (zset : ZSet D) (name : Bytes) (ref : Ptr) : Exec Bool := do
  let znode ← zset.node.read ref
  if znode.name.length ≠ name.length then return false
  return decide (memcmp znode.name name znode.name.length = 0)

/-- `zset_lookup`: look up by name. -/
def zsetLookup (zset : ZSet D) (name : Bytes) : Exec (ZSet D × Option Ptr) := do
  match zset.root with
  | none => return (zset, none)
  | some _ =>
      let (hmap, found) ← hmLookup zset.hmap (strHash name) (zset.hcmp name)
      return ({ zset with hmap := hmap }, found.map HNode.ref)

/-- `zset_insert`: add a new tuple, or update the score of the existing one. -/
def zsetInsert (zset : ZSet D) (name : Bytes) (score : D) : Exec (ZSet D × Bool) := do
  match ← zset.zsetLookup name with
  | (zset, some node) => return (← zset.zsetUpdate node score, false)
  | (zset, none) =>
      let (zset, node) := zset.znodeNew name score
      let hmap ← hmInsert zset.hmap ⟨(← zset.node.read node).hcode, node⟩
      return (← treeInsert { zset with hmap := hmap } node, true)

def zsetDelete (zset : ZSet D) (node : Ptr) : Exec (ZSet D) := do
  let key ← zset.node.read node
  let (hmap, found) ← hmDelete zset.hmap key.hcode (zset.hcmp key.name)
  Exec.assert found.isSome
  let (tree, root) ← avlDel zset.tree node
  znodeDel { zset with hmap := hmap, tree := tree, root := root } node

/-- One turn of the loop in `zset_seekge`, with the variables `found` and `node`. -/
def zsetSeekgeTurn (zset : ZSet D) (score : D) (name : Bytes) :
    Option Ptr × Option Ptr → Exec (Step (Option Ptr × Option Ptr) (Option Ptr))
  | (found, none) => return .done found
  | (found, some node) => do
      if ← zset.zless node score name then
        return .next (found, (← zset.tree.read node).right)
      else
        return .next (some node, (← zset.tree.read node).left)

/-- `zset_seekge`: find the first `(score, name)` tuple that is >= key. -/
def zsetSeekge (zset : ZSet D) (score : D) (name : Bytes) : Exec (Option Ptr) :=
  loop (zset.zsetSeekgeTurn score name) (zset.tree.next + 1) (none, zset.root)

omit [LinearOrder D]

/-- `znode_offset`: offset into the succeeding or preceding node. -/
def znodeOffset (zset : ZSet D) (node : Option Ptr) (offset : Int) : Exec (Option Ptr) :=
  match node with
  | some node => avlOffset zset.tree node offset
  | none => .ok none

/-- `tree_dispose`; `depth` bounds the recursion. -/
def treeDispose : Nat → ZSet D → Option Ptr → Exec (ZSet D)
  | _, zset, none => .ok zset
  | 0, _, some _ => .error .fuel
  | depth + 1, zset, some node => do
      let zset ← treeDispose depth zset (← zset.tree.read node).left
      let zset ← treeDispose depth zset (← zset.tree.read node).right
      znodeDel zset node

/-- `zset_clear`: destroy the zset. -/
def zsetClear (zset : ZSet D) : Exec (ZSet D) := do
  let zset := { zset with hmap := hmClear zset.hmap }
  let zset ← treeDispose (zset.tree.next + 1) zset zset.root
  return { zset with root := none }

end ZSet

end RedisLite
