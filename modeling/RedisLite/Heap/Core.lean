import RedisLite.Lib.Memory

/-!
# Timer heap

The functions of `heap.cpp` and the heap helpers of `server.cpp`.  An item points
to the `heap_idx` field of an entry; these fields are the memory `heapIdx`, under
the identity of the entry, and `(size_t)-1` is `none`.
-/

namespace RedisLite

open Lib

/-- `struct HeapItem`; `ref` is the entry whose `heap_idx` the item points to. -/
structure HeapItem where
  val : UInt64
  ref : Ptr
  deriving DecidableEq, Repr

/-- `g_data.heap` and the `heap_idx` fields of the entries. -/
structure Timers where
  heap : List HeapItem := []
  heapIdx : Mem (Option Nat) := .empty

def heapParent (i : Nat) : Nat := (i + 1) / 2 - 1

def heapLeft (i : Nat) : Nat := i * 2 + 1

def heapRight (i : Nat) : Nat := i * 2 + 2

/-- `a[pos] = item; *a[pos].ref = pos`. -/
def Timers.place (timers : Timers) (pos : Nat) (item : HeapItem) : Exec Timers :=
  if pos < timers.heap.length then do
    let heapIdx ← timers.heapIdx.write item.ref (some pos)
    return { heap := timers.heap.set pos item, heapIdx := heapIdx }
  else .error .undefined

/-- One turn of the loop in `heap_up`. -/
def heapUpTurn (t : HeapItem) : Timers × Nat → Exec (Step (Timers × Nat) (Timers × Nat))
  | (timers, pos) =>
      if pos > 0 then do
        let above ← Exec.deref timers.heap[heapParent pos]?
        if above.val > t.val then
          let timers ← timers.place pos above
          return .next (timers, heapParent pos)
        else return .done (timers, pos)
      else .ok (.done (timers, pos))

def heapUp (timers : Timers) (pos : Nat) : Exec Timers := do
  let t ← Exec.deref timers.heap[pos]?
  let (timers, pos) ← loop (heapUpTurn t) (pos + 1) (timers, pos)
  timers.place pos t

/-- The test of one kid in `heap_down`, with the variables `min_pos` and `min_val`.
After the right kid `min_val` is not used any more. -/
def heapSmaller (heap : List HeapItem) (len kid : Nat) (min : Nat × UInt64) :
    Exec (Nat × UInt64) :=
  if kid < len then do
    let item ← Exec.deref heap[kid]?
    return if item.val < min.2 then (kid, item.val) else min
  else .ok min

/-- One turn of the loop in `heap_down`. -/
def heapDownTurn (t : HeapItem) (len : Nat) :
    Timers × Nat → Exec (Step (Timers × Nat) (Timers × Nat))
  | (timers, pos) => do
      let min ← heapSmaller timers.heap len (heapLeft pos) (pos, t.val)
      let (minPos, _) ← heapSmaller timers.heap len (heapRight pos) min
      if minPos = pos then return .done (timers, pos)
      else
        let kid ← Exec.deref timers.heap[minPos]?
        let timers ← timers.place pos kid
        return .next (timers, minPos)

def heapDown (timers : Timers) (pos len : Nat) : Exec Timers := do
  let t ← Exec.deref timers.heap[pos]?
  let (timers, pos) ← loop (heapDownTurn t len) (len + 1) (timers, pos)
  timers.place pos t

def heapUpdate (timers : Timers) (pos len : Nat) : Exec Timers :=
  if pos > 0 then do
    let above ← Exec.deref timers.heap[heapParent pos]?
    let item ← Exec.deref timers.heap[pos]?
    if above.val > item.val then heapUp timers pos else heapDown timers pos len
  else heapDown timers pos len

def heapDelete (timers : Timers) (pos : Nat) : Exec Timers := do
  let _ ← Exec.deref timers.heap[pos]?
  let last ← Exec.deref timers.heap.getLast?
  let heap := (timers.heap.set pos last).dropLast
  let timers := { timers with heap := heap }
  if pos < heap.length then heapUpdate timers pos heap.length else return timers

def heapUpsert (timers : Timers) (pos : Option Nat) (t : HeapItem) : Exec Timers :=
  match pos.filter fun pos => decide (pos < timers.heap.length) with
  | some pos =>
      let heap := timers.heap.set pos t
      heapUpdate { timers with heap := heap } pos heap.length
  | none =>
      let heap := timers.heap ++ [t]
      heapUpdate { timers with heap := heap } timers.heap.length heap.length

end RedisLite
