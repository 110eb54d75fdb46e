import RedisLite.Lib.Exec
import Mathlib.Data.List.Perm.Basic

/-!
# Progressive hash table

The functions of `hashtable.cpp`.  A chain is the list of its nodes in `next`
order; an `HNode **` into a chain is an `HFrom`, the bucket and the index of the
link.  A node is identified by the record `ref` it is embedded in, so
`container_of` is the field `ref`.

The callback `eq` is passed already applied to the searched key.  It may read the
record it is called on, hence it may fault.
-/

namespace RedisLite

open Lib

/-- `struct HNode`, with the record it is embedded in. -/
structure HNode (α : Type) where
  hcode : UInt64
  ref : α
  deriving DecidableEq, Repr

/-- `struct HTab`: a null `tab` is `none`. -/
structure HTab (α : Type) where
  tab : Option (List (List (HNode α))) := none
  mask : Nat := 0
  size : Nat := 0
  deriving DecidableEq, Repr

/-- `struct HMap`. -/
structure HMap (α : Type) where
  newer : HTab α := {}
  older : HTab α := {}
  migratePos : Nat := 0
  deriving DecidableEq, Repr

/-- A link of a chain: `index` links after the head of bucket `pos`. -/
structure HFrom where
  pos : Nat
  index : Nat
  deriving DecidableEq, Repr

variable {α σ : Type}

/-- The bucket of a hash code: `hcode & mask`. -/
def bucketOf (hcode : UInt64) (mask : Nat) : Nat := hcode.toNat &&& mask

namespace HTab

/-- `tab[pos]`. -/
def chain (htab : HTab α) (pos : Nat) : Exec (List (HNode α)) := do
  let tab ← Exec.deref htab.tab
  Exec.deref tab[pos]?

/-- `tab[pos] = nodes`. -/
def setChain (htab : HTab α) (pos : Nat) (nodes : List (HNode α)) : HTab α :=
  { htab with tab := htab.tab.map fun tab => tab.set pos nodes }

/-- `*from`, for a link that is not null. -/
def node (htab : HTab α) (link : HFrom) : Exec (HNode α) := do
  Exec.deref (← htab.chain link.pos)[link.index]?

end HTab

def hInit (n : Nat) : Exec (HTab α) := do
  Exec.assert (decide (n > 0 ∧ (n - 1) &&& n = 0))
  return { tab := some (List.replicate n []), mask := n - 1, size := 0 }

def hInsert (htab : HTab α) (node : HNode α) : Exec (HTab α) := do
  let pos := bucketOf node.hcode htab.mask
  let next ← htab.chain pos
  return { htab.setChain pos (node :: next) with size := htab.size + 1 }

/-- The test of `h_lookup`: equal hash codes, then the callback. -/
def hNodeEq (cur : HNode α) (hcode : UInt64) (eq : α → Exec Bool) : Exec Bool :=
  if cur.hcode = hcode then eq cur.ref else .ok false

/-- The loop of `h_lookup` over the chain of a bucket. -/
def hLookupChain (hcode : UInt64) (eq : α → Exec Bool) : List (HNode α) → Exec (Option Nat)
  | [] => .ok none
  | cur :: rest => do
      if ← hNodeEq cur hcode eq then return some 0
      else return (← hLookupChain hcode eq rest).map (· + 1)

def hLookup (htab : HTab α) (hcode : UInt64) (eq : α → Exec Bool) : Exec (Option HFrom) :=
  match htab.tab with
  | none => .ok none
  | some _ => do
      let pos := bucketOf hcode htab.mask
      let chain ← htab.chain pos
      return (← hLookupChain hcode eq chain).map (HFrom.mk pos)

def hDetach (htab : HTab α) (link : HFrom) : Exec (HTab α × HNode α) := do
  let chain ← htab.chain link.pos
  let node ← htab.node link
  return ({ htab.setChain link.pos (chain.eraseIdx link.index) with size := htab.size - 1 },
    node)

def kRehashingWork : Nat := 128

/-- One turn of the loop in `hm_help_rehashing`, with the counter `nwork`. -/
def hmHelpTurn : HMap α × Nat → Exec (Step (HMap α × Nat) (HMap α))
  | (hmap, nwork) => do
      if nwork < kRehashingWork ∧ hmap.older.size > 0 then
        let chain ← hmap.older.chain hmap.migratePos
        if chain.isEmpty then
          return .next ({ hmap with migratePos := hmap.migratePos + 1 }, nwork)
        else
          let (older, node) ← hDetach hmap.older ⟨hmap.migratePos, 0⟩
          let newer ← hInsert hmap.newer node
          return .next ({ hmap with newer := newer, older := older }, nwork + 1)
      else
        return .done hmap

/-- The end of `hm_help_rehashing`: discard the old table if done. -/
def hmDiscardOlder (hmap : HMap α) : HMap α :=
  if hmap.older.size = 0 ∧ hmap.older.tab.isSome then { hmap with older := {} } else hmap

/-- `hm_help_rehashing`.  A turn moves a node or passes an empty slot, so the work
limit and the number of slots bound the turns. -/
def hmHelpRehashing (hmap : HMap α) : Exec (HMap α) := do
  let slots := (hmap.older.tab.getD []).length
  return hmDiscardOlder (← loop hmHelpTurn (kRehashingWork + slots + 1) (hmap, 0))

def hmTriggerRehashing (hmap : HMap α) : Exec (HMap α) := do
  let newer ← hInit ((hmap.newer.mask + 1) * 2)
  return { newer := newer, older := hmap.newer, migratePos := 0 }

def hmLookup (hmap : HMap α) (hcode : UInt64) (eq : α → Exec Bool) :
    Exec (HMap α × Option (HNode α)) := do
  let hmap ← hmHelpRehashing hmap
  match ← hLookup hmap.newer hcode eq with
  | some link => return (hmap, some (← hmap.newer.node link))
  | none =>
      match ← hLookup hmap.older hcode eq with
      | some link => return (hmap, some (← hmap.older.node link))
      | none => return (hmap, none)

def kMaxLoadFactor : Nat := 8

/-- The first lines of `hm_insert`: initialize the table if it is empty. -/
def hmInitNewer (hmap : HMap α) : Exec (HMap α) := do
  if hmap.newer.tab.isNone then return { hmap with newer := ← hInit 4 } else return hmap

/-- The load check of `hm_insert`. -/
def hmCheckLoad (hmap : HMap α) : Exec (HMap α) :=
  if hmap.older.tab.isNone ∧ hmap.newer.size ≥ (hmap.newer.mask + 1) * kMaxLoadFactor then
    hmTriggerRehashing hmap
  else .ok hmap

def hmInsert (hmap : HMap α) (node : HNode α) : Exec (HMap α) := do
  let hmap ← hmInitNewer hmap
  let hmap := { hmap with newer := ← hInsert hmap.newer node }
  let hmap ← hmCheckLoad hmap
  hmHelpRehashing hmap

def hmDelete (hmap : HMap α) (hcode : UInt64) (eq : α → Exec Bool) :
    Exec (HMap α × Option (HNode α)) := do
  let hmap ← hmHelpRehashing hmap
  match ← hLookup hmap.newer hcode eq with
  | some link =>
      let (newer, node) ← hDetach hmap.newer link
      return ({ hmap with newer := newer }, some node)
  | none =>
      match ← hLookup hmap.older hcode eq with
      | some link =>
          let (older, node) ← hDetach hmap.older link
          return ({ hmap with older := older }, some node)
      | none => return (hmap, none)

def hmClear (_ : HMap α) : HMap α := {}

def hmSize (hmap : HMap α) : Nat := hmap.newer.size + hmap.older.size

/-- The loops of `h_foreach` over the nodes of a table, with the state `arg` of the
callback; the callback's boolean says whether to go on. -/
def hForeachNodes (f : HNode α → σ → Exec (Bool × σ)) : List (HNode α) → σ → Exec (Bool × σ)
  | [], arg => .ok (true, arg)
  | node :: rest, arg => do
      let (goOn, arg) ← f node arg
      if goOn then hForeachNodes f rest arg else return (false, arg)

/-- `h_foreach`: a table whose mask is 0 is skipped. -/
def hForeach (htab : HTab α) (f : HNode α → σ → Exec (Bool × σ)) (arg : σ) : Exec (Bool × σ) :=
  if htab.mask ≠ 0 then do
    let tab ← Exec.deref htab.tab
    hForeachNodes f tab.flatten arg
  else .ok (true, arg)

/-- `hm_foreach`: the newer table first. -/
def hmForeach (hmap : HMap α) (f : HNode α → σ → Exec (Bool × σ)) (arg : σ) : Exec σ := do
  let (goOn, arg) ← hForeach hmap.newer f arg
  if goOn then return (← hForeach hmap.older f arg).2 else return arg

end RedisLite
