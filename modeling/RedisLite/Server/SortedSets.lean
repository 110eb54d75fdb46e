import RedisLite.Server.Requests
import RedisLite.Server.Slice

/-!
# Sorted-set requests

The handlers of `zadd`, `zrem`, `zscore` and `zquery`, and the dispatch of
`do_request`.
-/

namespace RedisLite

open Lib Lib.Tree

variable {D : Type} [Dbl D]

theorem doRequest_zquery (db : Db D) (key score name offset limit : Bytes) (now : UInt64)
    (out : Bytes) :
    doRequest db [ascii "zquery", key, score, name, offset, limit] now out =
      doZquery db [ascii "zquery", key, score, name, offset, limit] out := by
  simp [doRequest, isCmd]

/-! ## The nodes of ZQUERY -/

namespace ZSet.Denotes

variable {zset : ZSet D} {members : Members D}

theorem lookup_live (denotes : zset.Denotes members) {node : Ptr} {cell : ZNode D}
    (live : zset.node.cell node = some cell) : members.lookup cell.name = some cell.score := by
  obtain ⟨tree, cells, holds, entries⟩ := denotes
  exact lookup_eq holds entries live

/-- The node `znode_offset` returns is live. -/
theorem znodeOffset (denotes : zset.Denotes members) {node : Ptr} {cell : ZNode D}
    (live : zset.node.cell node = some cell) (offset : Int) :
    Exec.Returns (zset.znodeOffset (some node) offset) fun result =>
      ∀ other, result = some other → ∃ cell, zset.node.cell other = some cell := by
  obtain ⟨tree, cells, holds, -⟩ := denotes
  obtain ⟨start, found⟩ := List.mem_iff_getElem?.mp (holds.owned node cell live)
  obtain ⟨result, offsetEq, member, -⟩ := avlOffset_spec holds.avl found offset
  refine ⟨result, offsetEq, ?_⟩
  intro other same
  obtain ⟨cell, -, live⟩ := holds.reads.exists_value (member other same)
  exact ⟨cell, live⟩

theorem zsetSeekge (denotes : zset.Denotes members) (score : D) (name : Bytes) :
    Exec.Returns (zset.zsetSeekge score name) fun result =>
      ∀ other, result = some other → ∃ cell, zset.node.cell other = some cell := by
  obtain ⟨tree, cells, holds, -⟩ := denotes
  obtain ⟨front, back, lower, upper, seekEq, -, -, -, reads, -⟩ := holds.zsetSeekge_spec score name
  refine ⟨back.head?, seekEq, ?_⟩
  intro other same
  obtain ⟨cell, -, live⟩ := reads.exists_value (List.mem_of_mem_head? same)
  exact ⟨cell, live⟩

/-- The nodes of a walk from a live node are members. -/
theorem walk (denotes : zset.Denotes members) : ∀ (count : Nat) (next : Option Ptr),
    (∀ node, next = some node → ∃ cell, zset.node.cell node = some cell) →
      Exec.Returns (zset.walk count next) fun cells =>
        ∀ cell ∈ cells, members.lookup cell.name = some cell.score
  | 0, _, _ => .of_ok (by simp)
  | _ + 1, none, _ => .of_ok (by simp)
  | count + 1, some node, isLive => by
      obtain ⟨cell, live⟩ := isLive node rfl
      obtain ⟨next, offsetEq, nextLive⟩ := denotes.znodeOffset live 1
      obtain ⟨cells, walkEq, found⟩ := denotes.walk count next nextLive
      simp only [ZSet.walk, Mem.read_eq live, Exec.ok_bind, offsetEq, walkEq, Exec.pure_eq_ok,
        Exec.returns_ok]
      intro other member
      rcases List.mem_cons.mp member with rfl | member
      · exact denotes.lookup_live live
      · exact found other member

/-- The nodes that ZQUERY lists are members, and the slice while the count of the members is
exact. -/
theorem zqueryNodes (denotes : zset.Denotes members) (score : D) (name : Bytes)
    (offset limit : Int) :
    Exec.Returns (zqueryNodes zset score name offset limit) fun cells =>
      (∀ cell ∈ cells, members.lookup cell.name = some cell.score) ∧
      (members.keys.card < 2 ^ 32 →
        cells.map ZNode.sortKey = zquerySlice members.tuples score name offset limit) := by
  have listed : Exec.Returns (RedisLite.zqueryNodes zset score name offset limit) fun cells =>
      ∀ cell ∈ cells, members.lookup cell.name = some cell.score := by
    unfold RedisLite.zqueryNodes
    by_cases empty : limit ≤ 0
    · rw [if_pos empty]
      exact .of_ok (by simp)
    · rw [if_neg empty]
      obtain ⟨found, seekEq, foundLive⟩ := denotes.zsetSeekge score name
      have offsets : Exec.Returns (zset.znodeOffset found offset) fun result =>
          ∀ other, result = some other → ∃ cell, zset.node.cell other = some cell := by
        cases found with
        | none => exact .of_ok (by simp)
        | some node =>
            obtain ⟨cell, live⟩ := foundLive node rfl
            exact denotes.znodeOffset live offset
      obtain ⟨first, offsetEq, firstLive⟩ := offsets
      simp only [seekEq, Exec.ok_bind, offsetEq]
      exact denotes.walk ((limit.toNat + 1) / 2) first firstLive
  obtain ⟨cells, nodesEq, found⟩ := listed
  refine ⟨cells, nodesEq, found, ?_⟩
  intro small
  obtain ⟨tree, nodes, holds, entries⟩ := denotes
  rw [ZSet.Denotes.card_eq entries] at small
  exact (holds.zqueryNodes_slice small entries score name offset limit).of_eq_ok nodesEq

/-- ZQUERY writes an array of pairs that are members, the slice while the count of the members
is exact. -/
theorem zqueryOutput (denotes : zset.Denotes members) (score : D) (name : Bytes)
    (offset limit : Int) (out : Bytes) :
    Exec.Returns (zqueryOutput zset score name offset limit out) fun after =>
      ∃ pairs : List (Bytes × D),
        after = out ++ (Value.arr (Store.pairValues pairs)).encode Dbl.bits ∧
        (∀ pair ∈ pairs, members.lookup pair.1 = some pair.2) ∧
        (members.keys.card < 2 ^ 32 →
          pairs = (zquerySlice members.tuples score name offset limit).map tuplePair) := by
  obtain ⟨cells, nodesEq, found, slice⟩ := denotes.zqueryNodes score name offset limit
  rw [zqueryOutput_nodes, nodesEq, Exec.ok_bind, Exec.returns_ok]
  refine ⟨cells.map ZNode.pair, rfl, ?_, ?_⟩
  · intro pair member
    obtain ⟨cell, cellMem, rfl⟩ := List.mem_map.mp member
    exact found cell cellMem
  · intro small
    rw [← slice small, List.map_map]
    rfl

end ZSet.Denotes

/-! ## The handlers -/

namespace Db.Denotes

variable {db : Db D} {store : Store D}

/-- Looking up or creating the sorted set of `zadd`. -/
theorem zaddEntry (denotes : db.Denotes store) (key : Bytes) :
    Exec.Returns (zaddEntry db key) fun result =>
      match result.2 with
      | none => result.1.Denotes store ∧ store.members key = none
      | some ent => ∃ members entry item, store.members key = some members ∧
          result.1.Denotes (store.write key (.zset members)) ∧
          result.1.Finds (store.write key (.zset members)) key ent entry item ∧
          entry.type = .zset ∧ entry.zset.Denotes members := by
  obtain ⟨⟨after, found⟩, lookupEq, afterDenotes, holds⟩ := denotes.dbLookup key
  simp only [RedisLite.zaddEntry, Exec.ok_bind, lookupEq]
  cases found with
  | none =>
      have lookup : store.lookup key = none := holds
      have alloc : (after.entries.put after.entries.next { type := .zset }).cell
          after.entries.next = some { type := .zset } := Mem.put_self _ _ _
      simp only [entryNew, Mem.alloc, Mem.modify_eq alloc, Exec.ok_bind]
      let new : Entry D := { hcode := strHash key, key := key, type := .zset }
      have isNew : new.Holds (.zset ∅) := ⟨rfl, .empty⟩
      let heapIdx := after.timers.heapIdx.put after.entries.next none
      obtain ⟨final, insertEq, finalDenotes, entriesEq⟩ := @dbInsert D _ after store key
        afterDenotes lookup { after.timers with heapIdx := heapIdx } _ new _
        (Mem.put_put_cell after.entries _ { type := .zset } new) rfl rfl isNew rfl
        (Mem.put_cell after.timers.heapIdx _ · none)
      simp only [new, heapIdx] at insertEq entriesEq
      simp only [insertEq, Exec.ok_bind, Exec.pure_eq_ok, Exec.returns_ok]
      have live : final.entries.cell after.entries.next =
          some { hcode := strHash key, key := key, type := .zset } := by
        rw [entriesEq, Mem.put_self]
      obtain ⟨item, found⟩ := finalDenotes.finds live
      exact ⟨∅, _, item, by simp [Store.members, lookup], finalDenotes, found, rfl, .empty⟩
  | some ent =>
      obtain ⟨entry, ⟨data, deadline⟩, found⟩ := holds
      simp only [Mem.read_eq found.live, Exec.ok_bind, Exec.pure_eq_ok, Exec.returns_ok]
      cases data with
      | str bytes =>
          have type := (found.type_str rfl).1
          rw [if_neg (by rw [type]; decide)]
          exact ⟨afterDenotes, by simp [Store.members, found.lookup]⟩
      | zset members =>
          obtain ⟨type, inner⟩ := found.type_zset rfl
          rw [if_pos type]
          have same : store.write key (.zset members) = store := Store.write_self found.lookup
          exact ⟨members, entry, _, Store.members_of_lookup found.lookup, by rwa [same],
            by rwa [same], type, inner⟩

theorem storeZset (denotes : db.Denotes store) {key : Bytes} {ent : Ptr} {entry : Entry D}
    {item : Item D} (found : db.Finds store key ent entry item) (type : entry.type = .zset)
    {zset : ZSet D} {members : Members D} (inner : zset.Denotes members) :
    Exec.Returns (storeZset db (.entry ent) zset) fun after =>
      after.Denotes (store.write key (.zset members)) := by
  simp only [RedisLite.storeZset, Mem.modify_eq found.live, Exec.ok_bind, Exec.pure_eq_ok,
    Exec.returns_ok]
  exact denotes.write found rfl rfl ⟨type, inner⟩

theorem doZadd (denotes : db.Denotes store) (fits : store.Fits) (word key score name out : Bytes)
    (now : UInt64) :
    Exec.Returns (doZadd db [word, key, score, name] out)
      (Serves store now (.zadd key score name) out) := by
  simp only [RedisLite.doZadd, List.getElem?_cons_succ, List.getElem?_cons_zero, Exec.deref_some,
    Exec.ok_bind]
  cases parsed : str2dbl D score with
  | none =>
      simp only [Exec.pure_eq_ok, Exec.returns_ok]
      refine ⟨?_, _, by simp [Store.Answers, parsed], outErr_eq _ _ _ _⟩
      simpa [Store.apply, parsed] using denotes
  | some value =>
      obtain ⟨⟨middle, found⟩, entryEq, holds⟩ := denotes.zaddEntry key
      simp only [entryEq, Exec.ok_bind]
      cases found with
      | none =>
          obtain ⟨middleDenotes, absent⟩ := holds
          simp only [Exec.pure_eq_ok, Exec.returns_ok]
          refine ⟨?_, _, by simp [Store.Answers, parsed, absent], outErr_eq _ _ _ _⟩
          simpa [Store.apply, parsed, absent] using middleDenotes
      | some ent =>
          obtain ⟨members, entry, item, isMembers, middleDenotes, found, type, inner⟩ := holds
          obtain ⟨⟨zset, added⟩, insertEq, newInner, isAdded⟩ :=
            inner.zsetInsert (fits key members isMembers) name value
          obtain ⟨after, storeEq, afterDenotes⟩ := middleDenotes.storeZset found type newInner
          simp only [Mem.read_eq found.live, Exec.ok_bind, insertEq, storeEq, Exec.pure_eq_ok,
            Exec.returns_ok]
          rw [Store.write_write] at afterDenotes
          refine ⟨?_, .int (Store.truth added), ?_, outInt_eq _ _ _⟩
          · simpa [Store.apply, parsed, isMembers] using afterDenotes
          · simp only [Store.Answers, parsed, isMembers]
            rw [show added = decide (name ∉ members) from isAdded]

/-- What `expect_zset` points to: nothing for a string, the empty set for an absent key,
else the set of the entry. -/
theorem expectZset (denotes : db.Denotes store) (key : Bytes) :
    Exec.Returns (expectZset db key) fun result =>
      result.1.Denotes store ∧
      match result.2 with
      | none => store.members key = none
      | some .kEmpty => store.lookup key = none
      | some (.entry ent) => ∃ entry members deadline,
          result.1.Finds store key ent entry ⟨.zset members, deadline⟩ := by
  obtain ⟨⟨after, found⟩, lookupEq, afterDenotes, holds⟩ := denotes.dbLookup key
  simp only [RedisLite.expectZset, Exec.ok_bind, lookupEq]
  cases found with
  | none =>
      have lookup : store.lookup key = none := holds
      simp only [Exec.pure_eq_ok, Exec.returns_ok]
      exact ⟨afterDenotes, lookup⟩
  | some ent =>
      obtain ⟨entry, ⟨data, deadline⟩, found⟩ := holds
      simp only [Mem.read_eq found.live, Exec.ok_bind, Exec.pure_eq_ok, Exec.returns_ok]
      cases data with
      | str bytes =>
          have type := (found.type_str rfl).1
          rw [if_neg (by rw [type]; decide)]
          exact ⟨afterDenotes, by simp [Store.members, found.lookup]⟩
      | zset members =>
          rw [if_pos (found.type_zset rfl).1]
          exact ⟨afterDenotes, entry, members, deadline, found⟩

/-- The set behind the pointer that `expect_zset` returns. -/
theorem loadZset {zref : ZSetRef} {key : Bytes}
    (holds : match zref with
      | .kEmpty => store.lookup key = none
      | .entry ent => ∃ entry members deadline,
          db.Finds store key ent entry ⟨.zset members, deadline⟩) :
    Exec.Returns (loadZset db zref) fun zset =>
      ∃ members, store.members key = some members ∧ zset.Denotes members := by
  cases zref with
  | kEmpty => exact .of_ok ⟨∅, by simp [Store.members, holds], .empty⟩
  | entry ent =>
      obtain ⟨entry, members, deadline, found⟩ := holds
      simp only [RedisLite.loadZset, Mem.read_eq found.live, Exec.ok_bind, Exec.pure_eq_ok,
        Exec.returns_ok]
      exact ⟨members, Store.members_of_lookup found.lookup, (found.type_zset rfl).2⟩

theorem doZrem (denotes : db.Denotes store) (fits : store.Fits) (word key name out : Bytes)
    (now : UInt64) :
    Exec.Returns (doZrem db [word, key, name] out) (Serves store now (.zrem key name) out) := by
  obtain ⟨⟨middle, zref⟩, expectEq, middleDenotes, holds⟩ := denotes.expectZset key
  simp only [RedisLite.doZrem, List.getElem?_cons_succ, List.getElem?_cons_zero, Exec.deref_some,
    Exec.ok_bind, expectEq]
  match zref, holds with
  | none, holds =>
      have absent : store.members key = none := holds
      simp only [Exec.pure_eq_ok, Exec.returns_ok]
      have untouched : store.apply now.toNat (.zrem key name) = store := by
        simp only [Store.apply, Store.members] at absent ⊢
        split at absent <;> simp_all
      exact ⟨by rwa [untouched], _, by simp [Store.Answers, absent], outErr_eq _ _ _ _⟩
  | some .kEmpty, holds =>
      have lookup : store.lookup key = none := holds
      simp only [RedisLite.loadZset, ZSet.zsetLookup, RedisLite.storeZset, Exec.ok_bind,
        Exec.pure_eq_ok, Exec.returns_ok]
      refine ⟨?_, .int 0, ?_, outInt_eq _ _ _⟩
      · simpa [Store.apply, lookup] using middleDenotes
      · have absent : name ∉ (∅ : Members D) := Finmap.notMem_empty
        simp [Store.Answers, Store.members, lookup, Store.truth, absent]
  | some (.entry ent), holds =>
      obtain ⟨entry, members, deadline, found⟩ := holds
      obtain ⟨type, inner⟩ := found.type_zset rfl
      have isMembers := Store.members_of_lookup found.lookup
      obtain ⟨⟨zset, znode⟩, lookupEq, lookedUp, sameNodes, result⟩ := inner.zsetLookup name
      simp only [RedisLite.loadZset, Mem.read_eq found.live, Exec.ok_bind, Exec.pure_eq_ok,
        lookupEq]
      cases znode with
      | none =>
          have absent : name ∉ members := Finmap.lookup_eq_none.mp result
          obtain ⟨after, storeEq, afterDenotes⟩ := middleDenotes.storeZset found type lookedUp
          simp only [storeEq, Exec.ok_bind, Exec.returns_ok]
          refine ⟨?_, .int 0, by simp [Store.Answers, isMembers, absent, Store.truth],
            outInt_eq _ _ _⟩
          simpa [Store.apply, found.lookup, Entries.erase_of_notMem absent] using afterDenotes
      | some node =>
          obtain ⟨cell, live, rfl, score⟩ := result
          have present : cell.name ∈ members := Finmap.mem_iff.mpr ⟨_, score⟩
          rw [← sameNodes] at live
          obtain ⟨shrunk, deleteEq, shrunkDenotes⟩ :=
            lookedUp.zsetDelete (fits key members isMembers) live
          obtain ⟨after, storeEq, afterDenotes⟩ := middleDenotes.storeZset found type shrunkDenotes
          simp only [deleteEq, storeEq, Exec.ok_bind, Exec.returns_ok]
          refine ⟨?_, .int 1, by simp [Store.Answers, isMembers, present, Store.truth],
            outInt_eq _ _ _⟩
          simpa [Store.apply, found.lookup] using afterDenotes

theorem doZscore (denotes : db.Denotes store) (word key name out : Bytes) (now : UInt64) :
    Exec.Returns (doZscore db [word, key, name] out) (Serves store now (.zscore key name) out) := by
  obtain ⟨⟨middle, zref⟩, expectEq, middleDenotes, holds⟩ := denotes.expectZset key
  simp only [RedisLite.doZscore, List.getElem?_cons_succ, List.getElem?_cons_zero,
    Exec.deref_some, Exec.ok_bind, expectEq]
  match zref, holds with
  | none, holds =>
      have absent : store.members key = none := holds
      simp only [Exec.pure_eq_ok, Exec.returns_ok]
      exact ⟨middleDenotes, _, by simp [Store.Answers, absent], outErr_eq _ _ _ _⟩
  | some .kEmpty, holds =>
      have lookup : store.lookup key = none := holds
      simp only [RedisLite.loadZset, ZSet.zsetLookup, RedisLite.storeZset, Exec.ok_bind,
        Exec.pure_eq_ok, Exec.returns_ok]
      exact ⟨middleDenotes, .nil, by simp [Store.Answers, Store.members, lookup], outNil_eq _ _⟩
  | some (.entry ent), holds =>
      obtain ⟨entry, members, deadline, found⟩ := holds
      obtain ⟨type, inner⟩ := found.type_zset rfl
      have isMembers := Store.members_of_lookup found.lookup
      obtain ⟨⟨zset, znode⟩, lookupEq, lookedUp, sameNodes, result⟩ := inner.zsetLookup name
      obtain ⟨after, storeEq, afterDenotes⟩ := middleDenotes.storeZset found type lookedUp
      have same : store.write key (.zset members) = store := Store.write_self found.lookup
      rw [same] at afterDenotes
      simp only [RedisLite.loadZset, Mem.read_eq found.live, Exec.ok_bind, Exec.pure_eq_ok,
        lookupEq, storeEq]
      cases znode with
      | none =>
          have absent : members.lookup name = none := result
          rw [Exec.returns_ok]
          exact ⟨afterDenotes, .nil, by simp [Store.Answers, isMembers, absent], outNil_eq _ _⟩
      | some node =>
          obtain ⟨cell, live, rfl, score⟩ := result
          have sameNodes : zset.node = entry.zset.node := sameNodes
          rw [← sameNodes] at live
          simp only [Mem.read_eq live, Exec.ok_bind, Exec.returns_ok]
          exact ⟨afterDenotes, .dbl cell.score, by simp [Store.Answers, isMembers, score],
            outDbl_eq _ _ _⟩

theorem doZquery (denotes : db.Denotes store) (word key score name offset limit out : Bytes)
    (now : UInt64) :
    Exec.Returns (doZquery db [word, key, score, name, offset, limit] out)
      (Serves store now (.zquery key score name offset limit) out) := by
  simp only [RedisLite.doZquery, List.getElem?_cons_succ, List.getElem?_cons_zero,
    Exec.deref_some, Exec.ok_bind]
  cases parsed : str2dbl D score with
  | none =>
      simp only [Exec.pure_eq_ok, Exec.returns_ok]
      exact ⟨denotes, _, by simp [Store.Answers, parsed], outErr_eq _ _ _ _⟩
  | some value =>
      cases offsetEq : str2int offset with
      | none =>
          simp only [Exec.pure_eq_ok, Exec.returns_ok]
          exact ⟨denotes, _, by simp [Store.Answers, parsed, offsetEq], outErr_eq _ _ _ _⟩
      | some offset =>
          cases limitEq : str2int limit with
          | none =>
              simp only [Exec.pure_eq_ok, Exec.returns_ok]
              exact ⟨denotes, _, by simp [Store.Answers, parsed, offsetEq, limitEq],
                outErr_eq _ _ _ _⟩
          | some limit =>
              obtain ⟨⟨middle, zref⟩, expectEq, middleDenotes, holds⟩ := denotes.expectZset key
              simp only [expectEq, Exec.ok_bind]
              cases zref with
              | none =>
                  have absent : store.members key = none := holds
                  simp only [Exec.pure_eq_ok, Exec.returns_ok]
                  exact ⟨middleDenotes, _,
                    by simp [Store.Answers, parsed, offsetEq, limitEq, absent],
                    outErr_eq _ _ _ _⟩
              | some zref =>
                  obtain ⟨zset, loadEq, members, isMembers, inner⟩ :=
                    @loadZset D _ middle store zref key (by cases zref <;> exact holds)
                  obtain ⟨after, outputEq, pairs, written, member, slice⟩ :=
                    inner.zqueryOutput value name offset limit out
                  simp only [loadEq, outputEq, Exec.ok_bind, Exec.pure_eq_ok, Exec.returns_ok]
                  refine ⟨middleDenotes, _, ?_, written⟩
                  simp only [Store.Answers, parsed, offsetEq, limitEq, isMembers]
                  exact ⟨pairs, rfl, member, slice⟩

/-! ## The dispatch -/

theorem unknownCommand (denotes : db.Denotes store) (out : Bytes) (now : UInt64) :
    Exec.Returns (.ok (db, outErr out errUnknown (ascii "unknown command.")))
      (Serves store now .unknown out) :=
  .of_ok ⟨denotes, _, rfl, outErr_eq _ _ _ _⟩

/-- `do_request` serves the request that the words are. -/
theorem doRequest (denotes : db.Denotes store) (fits : store.Fits) (cmd : List Bytes)
    (now : UInt64) (out : Bytes) :
    Exec.Returns (doRequest db cmd now out) (Serves store now (Request.ofCmd cmd) out) := by
  unfold RedisLite.doRequest
  match cmd with
  | [] => simpa [isCmd, Request.ofCmd] using denotes.unknownCommand out now
  | [word] =>
      by_cases isKeys : word = ascii "keys"
      · simpa [isCmd, Request.ofCmd, isKeys] using denotes.doKeys out now
      · simpa [isCmd, Request.ofCmd, isKeys] using denotes.unknownCommand out now
  | [word, key] =>
      simp only [isCmd, Request.ofCmd, List.length_cons, List.length_nil,
        List.getElem?_cons_zero, Option.some.injEq]
      by_cases isGet : word = ascii "get"
      · simpa [isGet] using denotes.doGet word key out now
      simp only [isGet, decide_false, Bool.and_false, Bool.false_eq_true, if_false]
      by_cases isDel : word = ascii "del"
      · simpa [isDel] using denotes.doDel word key out now
      simp only [isDel, decide_false, Bool.and_false, Bool.false_eq_true, if_false]
      by_cases isPttl : word = ascii "pttl"
      · simpa [isPttl] using denotes.doTtl word key out now
      · simpa [isPttl] using denotes.unknownCommand out now
  | [word, key, arg] =>
      simp only [isCmd, Request.ofCmd, List.length_cons, List.length_nil,
        List.getElem?_cons_zero, Option.some.injEq]
      by_cases isSet : word = ascii "set"
      · simpa [isSet] using denotes.doSet word key arg out now
      simp only [isSet, decide_false, Bool.and_false, Bool.false_eq_true, if_false]
      by_cases isZrem : word = ascii "zrem"
      · simpa [isZrem] using denotes.doZrem fits word key arg out now
      simp only [isZrem, decide_false, Bool.and_false, Bool.false_eq_true, if_false]
      by_cases isZscore : word = ascii "zscore"
      · simpa [isZscore] using denotes.doZscore word key arg out now
      simp only [isZscore, decide_false, Bool.and_false, Bool.false_eq_true, if_false]
      by_cases isPexpire : word = ascii "pexpire"
      · simpa [isPexpire] using denotes.doExpire word key arg out now
      · simpa [isPexpire] using denotes.unknownCommand out now
  | [word, key, score, name] =>
      by_cases isZadd : word = ascii "zadd"
      · simpa [isCmd, Request.ofCmd, isZadd] using denotes.doZadd fits word key score name out now
      · simpa [isCmd, Request.ofCmd, isZadd] using denotes.unknownCommand out now
  | [_, _, _, _, _] => simpa [isCmd, Request.ofCmd] using denotes.unknownCommand out now
  | [word, key, score, name, offset, limit] =>
      by_cases isZquery : word = ascii "zquery"
      · simpa [isCmd, Request.ofCmd, isZquery] using
          denotes.doZquery word key score name offset limit out now
      · simpa [isCmd, Request.ofCmd, isZquery] using denotes.unknownCommand out now
  | _ :: _ :: _ :: _ :: _ :: _ :: _ :: _ =>
      simpa [isCmd, Request.ofCmd] using denotes.unknownCommand out now

end Db.Denotes

end RedisLite
