import RedisLite.Heap.Core
import RedisLite.Server.Numbers
import RedisLite.ZSet.Core

/-!
# Entries and timers

The key-value part of `g_data` and the functions of `server.cpp` on single entries.
The `heap_idx` fields of the entries are in `timers`; an entry and its `heap_idx`
are allocated and freed together, under one identity.
-/

namespace RedisLite

open Lib

/-- The value types of an entry. -/
inductive EntryType where
  | init
  | str
  | zset
  deriving DecidableEq, Repr

/-- `struct Entry` without `heap_idx`; `hcode` is `node.hcode`. -/
structure Entry (D : Type) where
  hcode : UInt64 := 0
  key : Bytes := []
  type : EntryType := .init
  str : Bytes := []
  zset : ZSet D := {}

/-- `g_data.db` and `g_data.heap`, with the entries. -/
structure Db (D : Type) where
  db : HMap Ptr := {}
  timers : Timers := {}
  entries : Mem (Entry D) := .empty

variable {D : Type}

def entryNew (db : Db D) (type : EntryType) : Db D × Ptr :=
  let (entries, ent) := db.entries.alloc { type := type }
  ({ db with
      timers := { db.timers with heapIdx := db.timers.heapIdx.put ent none }
      entries := entries }, ent)

/-- `heap_delete(g_data.heap, ent->heap_idx); ent->heap_idx = -1`. -/
def entryDropTimer (timers : Timers) (ent : Ptr) (pos : Nat) : Exec Timers := do
  let timers ← heapDelete timers pos
  return { timers with heapIdx := ← timers.heapIdx.write ent none }

/-- The first lines of `entry_del`: remove the entry from the TTL heap if it has a
timer. -/
def entryClearTimer (timers : Timers) (ent : Ptr) : Exec Timers := do
  match ← timers.heapIdx.read ent with
  | some pos => entryDropTimer timers ent pos
  | none => return timers

/-- The lines of `entry_del` that destroy the value. -/
def entryClearZset (entry : Entry D) : Exec (ZSet D) :=
  if entry.type = .zset then entry.zset.zsetClear else .ok entry.zset

def entryDel (db : Db D) (ent : Ptr) : Exec (Db D) := do
  let timers ← entryClearTimer db.timers ent
  let _ ← entryClearZset (← db.entries.read ent)
  let entries ← db.entries.free ent
  return { db with
    timers := { timers with heapIdx := timers.heapIdx.drop ent }, entries := entries }

/-- `entry_set_ttl` at the clock reading `now`. -/
def entrySetTtl (timers : Timers) (ent : Ptr) (ttlMs : Int) (now : UInt64) : Exec Timers := do
  let idx ← timers.heapIdx.read ent
  if ttlMs < 0 then
    match idx with
    | some pos => entryDropTimer timers ent pos
    | none => return timers
  else
    heapUpsert timers idx { val := now + UInt64.ofNat ttlMs.toNat, ref := ent }

/-- `entry_eq`, applied to the key searched for. -/
def entryEq (db : Db D) (key : Bytes) (ref : Ptr) : Exec Bool := do
  return decide ((← db.entries.read ref).key = key)

/-- `hnode_same`, applied to the node searched for. -/
def hnodeSame (ent : Ptr) (ref : Ptr) : Exec Bool := .ok (decide (ref = ent))

/-- `hm_lookup` of a `LookupKey` in `g_data.db`. -/
def dbLookup (db : Db D) (key : Bytes) : Exec (Db D × Option Ptr) := do
  let (hmap, found) ← hmLookup db.db (strHash key) (entryEq db key)
  return ({ db with db := hmap }, found.map HNode.ref)

/-- `hm_delete` of a `LookupKey` in `g_data.db`. -/
def dbDelete (db : Db D) (key : Bytes) : Exec (Db D × Option Ptr) := do
  let (hmap, found) ← hmDelete db.db (strHash key) (entryEq db key)
  return ({ db with db := hmap }, found.map HNode.ref)

/-- `hm_insert(&g_data.db, &ent->node)`. -/
def dbInsert (db : Db D) (ent : Ptr) : Exec (Db D) := do
  let hcode := (← db.entries.read ent).hcode
  return { db with db := ← hmInsert db.db ⟨hcode, ent⟩ }

/-- `k_max_works` of `process_timers`. -/
def kMaxWorks : Nat := 2000

/-- One turn of the TTL loop of `process_timers`, with the counter `nworks`. -/
def processTtlTurn (now : UInt64) : Db D × Nat → Exec (Step (Db D × Nat) (Db D))
  | (db, nworks) =>
      match db.timers.heap with
      | [] => .ok (.done db)
      | item :: _ =>
          if item.val < now then do
            let ent := item.ref
            let hcode := (← db.entries.read ent).hcode
            let (hmap, node) ← hmDelete db.db hcode (hnodeSame ent)
            let db := { db with db := hmap }
            match node with
            | none =>
                -- SAFE FALLBACK: the entry is in the heap, but not in its bucket
                let heapIdx ← db.timers.heapIdx.write ent none
                let db ← entryDel { db with timers := { db.timers with heapIdx := heapIdx } } ent
                return .next (db, nworks)
            | some _ =>
                let db ← entryDel db ent
                if nworks ≥ kMaxWorks then return .done db else return .next (db, nworks + 1)
          else .ok (.done db)

/-- The TTL loop of `process_timers`; a turn that removes its key also removes a heap
item. -/
def processTtl (db : Db D) (now : UInt64) : Exec (Db D) :=
  loop (processTtlTurn now) (db.timers.heap.length + 1) (db, 0)

end RedisLite
