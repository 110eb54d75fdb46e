import RedisLite.Protocol.Value
import RedisLite.Server.Core

/-!
# Commands

`do_request` and the command handlers of `server.cpp`.  Each takes the arguments,
the response buffer and, where it reads the clock, the reading.
-/

namespace RedisLite

open Lib

variable {D : Type}

def doGet (db : Db D) (cmd : List Bytes) (out : Bytes) : Exec (Db D × Bytes) := do
  match ← dbLookup db (← Exec.deref cmd[1]?) with
  | (db, none) => return (db, outNil out)
  | (db, some ent) =>
      let entry ← db.entries.read ent
      if entry.type ≠ .str then
        return (db, outErr out errBadTyp (ascii "not a string value"))
      else return (db, outStr out entry.str)

def doSet (db : Db D) (cmd : List Bytes) (out : Bytes) : Exec (Db D × Bytes) := do
  let key ← Exec.deref cmd[1]?
  let str ← Exec.deref cmd[2]?
  match ← dbLookup db key with
  | (db, some ent) =>
      let entry ← db.entries.read ent
      if entry.type ≠ .str then
        return (db, outErr out errBadTyp (ascii "a non-string value exists"))
      else
        let entries ← db.entries.write ent { entry with str := str }
        return ({ db with entries := entries }, outNil out)
  | (db, none) =>
      let (db, ent) := entryNew db .str
      let entries ← db.entries.modify ent fun entry =>
        { entry with key := key, hcode := strHash key, str := str }
      let heapIdx ← db.timers.heapIdx.write ent none
      let db ← dbInsert
        { db with entries := entries, timers := { db.timers with heapIdx := heapIdx } } ent
      return (db, outNil out)

def doDel (db : Db D) (cmd : List Bytes) (out : Bytes) : Exec (Db D × Bytes) := do
  match ← dbDelete db (← Exec.deref cmd[1]?) with
  | (db, some ent) =>
      let db ← entryDel db ent
      return (db, outInt out 1)
  | (db, none) => return (db, outInt out 0)

/-- `do_expire`: PEXPIRE key ttl_ms. -/
def doExpire (db : Db D) (cmd : List Bytes) (now : UInt64) (out : Bytes) :
    Exec (Db D × Bytes) := do
  match str2int (← Exec.deref cmd[2]?) with
  | none => return (db, outErr out errBadArg (ascii "expect int64"))
  | some ttlMs =>
      match ← dbLookup db (← Exec.deref cmd[1]?) with
      | (db, some ent) =>
          let timers ← entrySetTtl db.timers ent ttlMs now
          return ({ db with timers := timers }, outInt out 1)
      | (db, none) => return (db, outInt out 0)

/-- `do_ttl`: PTTL key. -/
def doTtl (db : Db D) (cmd : List Bytes) (now : UInt64) (out : Bytes) :
    Exec (Db D × Bytes) := do
  match ← dbLookup db (← Exec.deref cmd[1]?) with
  | (db, none) => return (db, outInt out (-2))
  | (db, some ent) =>
      match ← db.timers.heapIdx.read ent with
      | none => return (db, outInt out (-1))
      | some pos =>
          let expireAt := (← Exec.deref db.timers.heap[pos]?).val
          return (db, outInt out (if expireAt > now then (expireAt - now).toInt64 else 0))

def cbKeys (db : Db D) (node : HNode Ptr) (out : Bytes) : Exec (Bool × Bytes) := do
  return (true, outStr out (← db.entries.read node.ref).key)

def doKeys (db : Db D) (out : Bytes) : Exec (Db D × Bytes) := do
  let out := outArr out (UInt32.ofNat (hmSize db.db))
  return (db, ← hmForeach db.db (cbKeys db) out)

/-- What `expect_zset` points to: `k_empty_zset`, or the set of an entry. -/
inductive ZSetRef where
  | kEmpty
  | entry (ent : Ptr)
  deriving DecidableEq, Repr

/-- The set behind the pointer. -/
def loadZset (db : Db D) : ZSetRef → Exec (ZSet D)
  | .kEmpty => .ok {}
  | .entry ent => do return (← db.entries.read ent).zset

/-- The effect of a call on the set behind the pointer.  On `k_empty_zset`, a constant,
every call returns before it changes the set. -/
def storeZset (db : Db D) (zref : ZSetRef) (zset : ZSet D) : Exec (Db D) :=
  match zref with
  | .kEmpty => .ok db
  | .entry ent => do
      return { db with entries := ← db.entries.modify ent fun entry => { entry with zset := zset } }

/-- `expect_zset`: a non-existent key is treated as an empty zset. -/
def expectZset (db : Db D) (key : Bytes) : Exec (Db D × Option ZSetRef) := do
  match ← dbLookup db key with
  | (db, none) => return (db, some .kEmpty)
  | (db, some ent) =>
      let entry ← db.entries.read ent
      return (db, if entry.type = .zset then some (.entry ent) else none)

section Scores

variable [Dbl D]

/-- The part of `do_zadd` that looks up or creates the zset; a null result is a value
of another type. -/
def zaddEntry (db : Db D) (key : Bytes) : Exec (Db D × Option Ptr) := do
  match ← dbLookup db key with
  | (db, none) =>
      let (db, ent) := entryNew db .zset
      let entries ← db.entries.modify ent fun entry =>
        { entry with key := key, hcode := strHash key }
      let db ← dbInsert { db with entries := entries } ent
      return (db, some ent)
  | (db, some ent) =>
      let entry ← db.entries.read ent
      return (db, if entry.type = .zset then some ent else none)

/-- `do_zadd`: zadd zset score name. -/
def doZadd (db : Db D) (cmd : List Bytes) (out : Bytes) : Exec (Db D × Bytes) := do
  match str2dbl D (← Exec.deref cmd[2]?) with
  | none => return (db, outErr out errBadArg (ascii "expect float"))
  | some score =>
      match ← zaddEntry db (← Exec.deref cmd[1]?) with
      | (db, none) => return (db, outErr out errBadTyp (ascii "expect zset"))
      | (db, some ent) =>
          let name ← Exec.deref cmd[3]?
          let (zset, added) ← (← db.entries.read ent).zset.zsetInsert name score
          let db ← storeZset db (.entry ent) zset
          return (db, outInt out (if added then 1 else 0))

/-- `do_zrem`: zrem zset name. -/
def doZrem (db : Db D) (cmd : List Bytes) (out : Bytes) : Exec (Db D × Bytes) := do
  match ← expectZset db (← Exec.deref cmd[1]?) with
  | (db, none) => return (db, outErr out errBadTyp (ascii "expect zset"))
  | (db, some zref) =>
      let zset ← loadZset db zref
      match ← zset.zsetLookup (← Exec.deref cmd[2]?) with
      | (zset, some znode) =>
          let db ← storeZset db zref (← zset.zsetDelete znode)
          return (db, outInt out 1)
      | (zset, none) =>
          let db ← storeZset db zref zset
          return (db, outInt out 0)

/-- `do_zscore`: zscore zset name. -/
def doZscore (db : Db D) (cmd : List Bytes) (out : Bytes) : Exec (Db D × Bytes) := do
  match ← expectZset db (← Exec.deref cmd[1]?) with
  | (db, none) => return (db, outErr out errBadTyp (ascii "expect zset"))
  | (db, some zref) =>
      let zset ← loadZset db zref
      let (zset, znode) ← zset.zsetLookup (← Exec.deref cmd[2]?)
      let db ← storeZset db zref zset
      match znode with
      | some znode => return (db, outDbl Dbl.bits out (← zset.node.read znode).score)
      | none => return (db, outNil out)

/-- One turn of the output loop of `do_zquery`, with the variables `znode` and `n`. -/
def zqueryTurn (zset : ZSet D) (limit : Int) :
    (Bytes × Option Ptr) × Nat → Exec (Step ((Bytes × Option Ptr) × Nat) (Bytes × Nat))
  | ((out, none), n) => .ok (.done (out, n))
  | ((out, some znode), n) => do
      if n < limit then
        let cell ← zset.node.read znode
        let out := outDbl Dbl.bits (outStr out cell.name) cell.score
        let next ← zset.znodeOffset (some znode) 1
        return .next ((out, next), n + 2)
      else return .done (out, n)

/-- The part of `do_zquery` after the arguments are parsed and the set is found. -/
def zqueryOutput (zset : ZSet D) (score : D) (name : Bytes) (offset limit : Int) (out : Bytes) :
    Exec Bytes :=
  if limit ≤ 0 then .ok (outArr out 0)
  else do
    let znode ← zset.zsetSeekge score name
    let znode ← zset.znodeOffset znode offset
    let (out, ctx) := outBeginArr out
    let (out, n) ← loop (zqueryTurn zset limit) (limit.toNat + 1) ((out, znode), 0)
    outEndArr out ctx (UInt32.ofNat n)

/-- `do_zquery`: zquery zset score name offset limit. -/
def doZquery (db : Db D) (cmd : List Bytes) (out : Bytes) : Exec (Db D × Bytes) := do
  match str2dbl D (← Exec.deref cmd[2]?) with
  | none => return (db, outErr out errBadArg (ascii "expect fp number"))
  | some score =>
      let name ← Exec.deref cmd[3]?
      match str2int (← Exec.deref cmd[4]?), str2int (← Exec.deref cmd[5]?) with
      | some offset, some limit =>
          match ← expectZset db (← Exec.deref cmd[1]?) with
          | (db, none) => return (db, outErr out errBadTyp (ascii "expect zset"))
          | (db, some zref) =>
              let zset ← loadZset db zref
              return (db, ← zqueryOutput zset score name offset limit out)
      | _, _ => return (db, outErr out errBadArg (ascii "expect int"))

/-- The test of `do_request` for a command of `size` words. -/
def isCmd (cmd : List Bytes) (size : Nat) (name : String) : Bool :=
  decide (cmd.length = size) && decide (cmd[0]? = some (ascii name))

/-- `do_request` at the clock reading `now`. -/
def doRequest (db : Db D) (cmd : List Bytes) (now : UInt64) (out : Bytes) :
    Exec (Db D × Bytes) :=
  if isCmd cmd 2 "get" then doGet db cmd out
  else if isCmd cmd 3 "set" then doSet db cmd out
  else if isCmd cmd 2 "del" then doDel db cmd out
  else if isCmd cmd 1 "keys" then doKeys db out
  else if isCmd cmd 4 "zadd" then doZadd db cmd out
  else if isCmd cmd 3 "zrem" then doZrem db cmd out
  else if isCmd cmd 3 "zscore" then doZscore db cmd out
  else if isCmd cmd 6 "zquery" then doZquery db cmd out
  else if isCmd cmd 2 "del" then doDel db cmd out
  else if isCmd cmd 3 "pexpire" then doExpire db cmd now out
  else if isCmd cmd 2 "pttl" then doTtl db cmd now out
  else .ok (db, outErr out errUnknown (ascii "unknown command."))

end Scores

end RedisLite
