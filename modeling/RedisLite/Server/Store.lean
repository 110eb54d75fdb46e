import Mathlib.Data.Multiset.Sort
import RedisLite.Protocol.Value
import RedisLite.Server.Numbers
import RedisLite.ZSet.Map

/-!
# The key-value store

What the server is for: a finite map from keys to values with optional deadlines,
the effect of every request on it and the answers.  Clock readings and deadlines
are natural numbers here.
-/

namespace RedisLite

open Lib

/-! ## The map -/

/-- The value of a key. -/
inductive Data (D : Type) where
  | str (bytes : Bytes)
  | zset (members : Members D)

/-- The value of a key and its deadline. -/
structure Item (D : Type) where
  data : Data D
  deadline : Option Nat := none

/-- The contents of the server. -/
abbrev Store (D : Type) := Finmap fun _ : Bytes => Item D

variable {D : Type}

/-- The sorted set under a key: absent keys are empty, strings have none. -/
def Store.members (store : Store D) (key : Bytes) : Option (Members D) :=
  match store.lookup key with
  | none => some ∅
  | some ⟨.zset members, _⟩ => some members
  | some ⟨.str _, _⟩ => none

/-! ## Sequences of members -/

/-- The tuples of a sorted set, sorted by score and then by name. -/
def Members.tuples [Dbl D] (members : Members D) : List (D ×ₗ Bytes) :=
  (members.entries.map fun entry => toLex (entry.2, entry.1)).sort (· ≤ ·)

theorem Members.tuples_eq [Dbl D] {members : Members D} {tuples : List (D ×ₗ Bytes)}
    (entries : members.entries.map (fun entry => toLex (entry.2, entry.1)) = ↑tuples)
    (sorted : tuples.Pairwise (· ≤ ·)) : members.tuples = tuples := by
  have perm : members.tuples.Perm tuples := by
    rw [← Multiset.coe_eq_coe, Members.tuples, Multiset.sort_eq, entries]
  exact perm.eq_of_pairwise' (Multiset.pairwise_sort _ _) sorted

/-- The tuples that ZQUERY answers with: `offset` places away from the first one that is
not below `(score, name)`, as many as have a value among the first `limit` ones. -/
def zquerySlice [Dbl D] (tuples : List (D ×ₗ Bytes)) (score : D) (name : Bytes)
    (offset limit : Int) : List (D ×ₗ Bytes) :=
  let rank := tuples.countP fun tuple => decide (tuple < toLex (score, name))
  if limit ≤ 0 ∨ rank = tuples.length ∨ rank + offset < 0 then []
  else (tuples.drop (rank + offset).toNat).take ((limit.toNat + 1) / 2)

/-- The name and the score of a tuple. -/
def tuplePair (tuple : D ×ₗ Bytes) : Bytes × D := ((ofLex tuple).2, (ofLex tuple).1)

/-- The values ZQUERY lists for its pairs. -/
def Store.pairValues (pairs : List (Bytes × D)) : List (Value D) :=
  pairs.flatMap fun pair => [.str pair.1, .dbl pair.2]

/-- The values of the tuples: name, score, name, score. -/
def tupleValues (tuples : List (D ×ₗ Bytes)) : List (Value D) :=
  Store.pairValues (tuples.map tuplePair)

theorem length_tupleValues (tuples : List (D ×ₗ Bytes)) :
    (tupleValues tuples).length = 2 * tuples.length := by
  unfold tupleValues Store.pairValues
  induction tuples with
  | nil => rfl
  | cons tuple rest ih =>
      simp only [List.map_cons, List.flatMap_cons, List.length_append, List.length_cons, ih]
      simp
      omega

/-! ## Writes -/

/-- Replace the value of a key; a new key has no deadline. -/
def Store.write (store : Store D) (key : Bytes) (data : Data D) : Store D :=
  store.insert key ⟨data, (store.lookup key).bind Item.deadline⟩

/-! ## Requests -/

/-- The commands, with their arguments as sent. -/
inductive Request where
  | get (key : Bytes)
  | set (key str : Bytes)
  | del (key : Bytes)
  | keys
  | zadd (key score name : Bytes)
  | zrem (key name : Bytes)
  | zscore (key name : Bytes)
  | zquery (key score name offset limit : Bytes)
  | pexpire (key ttlMs : Bytes)
  | pttl (key : Bytes)
  | unknown
  deriving DecidableEq, Repr

/-- The request a list of words is. -/
def Request.ofCmd : List Bytes → Request
  | [word] => if word = ascii "keys" then .keys else .unknown
  | [word, key] =>
      if word = ascii "get" then .get key
      else if word = ascii "del" then .del key
      else if word = ascii "pttl" then .pttl key
      else .unknown
  | [word, key, arg] =>
      if word = ascii "set" then .set key arg
      else if word = ascii "zrem" then .zrem key arg
      else if word = ascii "zscore" then .zscore key arg
      else if word = ascii "pexpire" then .pexpire key arg
      else .unknown
  | [word, key, score, name] =>
      if word = ascii "zadd" then .zadd key score name else .unknown
  | [word, key, score, name, offset, limit] =>
      if word = ascii "zquery" then .zquery key score name offset limit else .unknown
  | _ => .unknown

/-- The deadline PEXPIRE sets at clock reading `now`: a negative TTL clears it. -/
def deadlineAfter (now : Nat) (ttlMs : Int) : Option Nat :=
  if ttlMs < 0 then none else some (now + ttlMs.toNat)

namespace Store

variable [Dbl D]

/-- The effect of a request at clock reading `now`. -/
def apply (store : Store D) (now : Nat) : Request → Store D
  | .set key str =>
      match store.lookup key with
      | some ⟨.zset _, _⟩ => store
      | _ => store.write key (.str str)
  | .del key => store.erase key
  | .zadd key score name =>
      match str2dbl D score, store.members key with
      | some score, some members => store.write key (.zset (members.insert name score))
      | _, _ => store
  | .zrem key name =>
      match store.lookup key with
      | some ⟨.zset members, _⟩ => store.write key (.zset (members.erase name))
      | _ => store
  | .pexpire key ttlMs =>
      match str2int ttlMs, store.lookup key with
      | some ttlMs, some item => store.insert key ⟨item.data, deadlineAfter now ttlMs⟩
      | _, _ => store
  | .get _ | .keys | .zscore _ _ | .zquery _ _ _ _ _ | .pttl _ | .unknown => store

/-- What PTTL computes from a deadline, in 64-bit arithmetic. -/
def ttlLeft (deadline now : UInt64) : Int64 :=
  if deadline > now then (deadline - now).toInt64 else 0

/-- An `int64` for a truth value. -/
def truth (holds : Bool) : Int64 := if holds then 1 else 0

/-- The answers to a request at clock reading `now`.  KEYS lists the keys in any order.
ZQUERY lists the slice, as long as a 32-bit count holds the number of members; of a larger
set it lists members. -/
def Answers (store : Store D) (now : UInt64) (request : Request) (value : Value D) : Prop :=
  match request with
  | .get key => value =
      match store.lookup key with
      | none => .nil
      | some ⟨.str str, _⟩ => .str str
      | some ⟨.zset _, _⟩ => .err errBadTyp (ascii "not a string value")
  | .set key _ => value =
      match store.lookup key with
      | some ⟨.zset _, _⟩ => .err errBadTyp (ascii "a non-string value exists")
      | _ => .nil
  | .del key => value = .int (truth (decide (key ∈ store)))
  | .keys => ∃ keys : List Bytes, keys.Nodup ∧ (∀ key, key ∈ keys ↔ key ∈ store) ∧
      value = .arr (keys.map .str)
  | .zadd key score name => value =
      match str2dbl D score, store.members key with
      | none, _ => .err errBadArg (ascii "expect float")
      | some _, none => .err errBadTyp (ascii "expect zset")
      | some _, some members => .int (truth (decide (name ∉ members)))
  | .zrem key name => value =
      match store.members key with
      | none => .err errBadTyp (ascii "expect zset")
      | some members => .int (truth (decide (name ∈ members)))
  | .zscore key name => value =
      match store.members key with
      | none => .err errBadTyp (ascii "expect zset")
      | some members => (members.lookup name).elim .nil .dbl
  | .zquery key score name offset limit =>
      match str2dbl D score, str2int offset, str2int limit, store.members key with
      | none, _, _, _ => value = .err errBadArg (ascii "expect fp number")
      | some score, some offset, some limit, some members => ∃ pairs : List (Bytes × D),
          value = .arr (pairValues pairs) ∧
          (∀ pair ∈ pairs, members.lookup pair.1 = some pair.2) ∧
          (members.keys.card < 2 ^ 32 →
            pairs = (zquerySlice members.tuples score name offset limit).map tuplePair)
      | some _, some _, some _, none => value = .err errBadTyp (ascii "expect zset")
      | some _, _, _, _ => value = .err errBadArg (ascii "expect int")
  | .pexpire key ttlMs => value =
      match str2int ttlMs with
      | none => .err errBadArg (ascii "expect int64")
      | some _ => .int (truth (decide (key ∈ store)))
  | .pttl key => value =
      match store.lookup key with
      | none => .int (-2)
      | some ⟨_, none⟩ => .int (-1)
      | some ⟨_, some deadline⟩ => .int (ttlLeft (UInt64.ofNat deadline) now)
  | .unknown => value = .err errUnknown (ascii "unknown command.")

omit [Dbl D] in
/-- Remove the keys an expiry sweep evicted. -/
def evict (store : Store D) (keys : List Bytes) : Store D :=
  keys.foldl (fun store key => store.erase key) store

omit [Dbl D] in
theorem lookup_evict (store : Store D) (keys : List Bytes) (key : Bytes) :
    (store.evict keys).lookup key = if key ∈ keys then none else store.lookup key := by
  induction keys generalizing store with
  | nil => simp [evict]
  | cons first keys ih =>
      have step : store.evict (first :: keys) = Store.evict (store.erase first) keys := rfl
      rw [step, ih]
      by_cases inRest : key ∈ keys
      · simp [inRest]
      · by_cases isFirst : key = first
        · subst isFirst
          simp [inRest, Finmap.lookup_erase]
        · simp [inRest, isFirst, Finmap.lookup_erase_ne isFirst]

end Store

end RedisLite
