import RedisLite.Server.Commands
import RedisLite.Server.Operations

/-!
# Requests

Every command handler, in a database that stands for a store, returns, leaves a
database that stands for the store after the request, and appends one answer to the
response buffer.
-/

namespace RedisLite

open Lib

variable {D : Type} [Dbl D]

/-! ## Facts about the store -/

namespace Store

variable {store : Store D} {key : Bytes}

/-- Every sorted set has fewer members than there are addresses. -/
def Fits (store : Store D) : Prop :=
  ∀ key members, store.members key = some members → members.keys.card < 2 ^ 64

omit [Dbl D] in
theorem insert_self {item : Item D} (lookup : store.lookup key = some item) :
    store.insert key item = store := by
  apply Finmap.ext_lookup
  intro query
  by_cases same : query = key
  · subst same
    rw [Finmap.lookup_insert, lookup]
  · rw [Finmap.lookup_insert_of_ne _ same]

omit [Dbl D] in
theorem write_self {item : Item D} (lookup : store.lookup key = some item) :
    store.write key item.data = store := by
  rw [write, lookup]
  exact insert_self lookup

omit [Dbl D] in
theorem write_write (store : Store D) (key : Bytes) (first second : Data D) :
    (store.write key first).write key second = store.write key second := by
  simp [write, Finmap.lookup_insert, Finmap.insert_insert]

omit [Dbl D] in
theorem members_of_lookup {members : Members D} {deadline : Option Nat}
    (lookup : store.lookup key = some ⟨.zset members, deadline⟩) :
    store.members key = some members := by
  simp [Store.members, lookup]

omit [Dbl D] in
theorem members_write_ne {other : Bytes} (different : other ≠ key) (data : Data D) :
    (store.write key data).members other = store.members other := by
  rw [Store.members, Store.members, write, Finmap.lookup_insert_of_ne _ different]

omit [Dbl D] in
theorem fits_empty : (∅ : Store D).Fits := by
  intro key members same
  have isEmpty : some (∅ : Members D) = some members := same
  cases isEmpty
  simp

omit [Dbl D] in
theorem Fits.write (fits : store.Fits) (key : Bytes) {data : Data D}
    (small : ∀ members, data = .zset members → members.keys.card < 2 ^ 64) :
    (store.write key data).Fits := by
  intro other members same
  by_cases isKey : other = key
  · subst isKey
    rw [Store.members, Store.write, Finmap.lookup_insert] at same
    cases data with
    | str bytes => cases same
    | zset written =>
        cases same
        exact small members rfl
  · rw [members_write_ne isKey] at same
    exact fits other members same

end Store

/-- A command serves a request: the database then stands for the store after the
request, and one answer was appended to the buffer. -/
def Serves (store : Store D) (now : UInt64) (request : Request) (out : Bytes)
    (result : Db D × Bytes) : Prop :=
  result.1.Denotes (store.apply now.toNat request) ∧
    ∃ value, store.Answers now request value ∧ result.2 = out ++ value.encode Dbl.bits

namespace Db

variable {db : Db D} {store : Store D} {key : Bytes} {ent : Ptr} {entry : Entry D}

namespace Finds

variable {item : Item D} {bytes : Bytes} {members : Members D}

omit [Dbl D] in
theorem type_str [LinearOrder D] (found : db.Finds store key ent entry item)
    (data : item.data = .str bytes) : entry.type = .str ∧ entry.str = bytes := by
  have holds := found.holds
  rwa [data] at holds

omit [Dbl D] in
theorem type_zset [LinearOrder D] (found : db.Finds store key ent entry item)
    (data : item.data = .zset members) : entry.type = .zset ∧ entry.zset.Denotes members := by
  have holds := found.holds
  rwa [data] at holds

end Finds

namespace Denotes

/-! ## Keys -/

theorem doGet (denotes : db.Denotes store) (word key out : Bytes) (now : UInt64) :
    Exec.Returns (doGet db [word, key] out) (Serves store now (.get key) out) := by
  obtain ⟨⟨after, found⟩, lookupEq, afterDenotes, holds⟩ := denotes.dbLookup key
  simp only [RedisLite.doGet, List.getElem?_cons_succ, List.getElem?_cons_zero, Exec.deref_some,
    Exec.ok_bind, lookupEq]
  cases found with
  | none =>
      have lookup : store.lookup key = none := holds
      simp only [Exec.pure_eq_ok, Exec.returns_ok]
      exact ⟨afterDenotes, .nil, by simp [Store.Answers, lookup], outNil_eq _ _⟩
  | some ent =>
      obtain ⟨entry, ⟨data, deadline⟩, found⟩ := holds
      simp only [Mem.read_eq found.live, Exec.ok_bind]
      cases data with
      | str bytes =>
          obtain ⟨type, rfl⟩ := found.type_str rfl
          rw [if_neg (not_not.mpr type), Exec.pure_eq_ok, Exec.returns_ok]
          exact ⟨afterDenotes, .str entry.str, by simp [Store.Answers, found.lookup],
            outStr_eq _ _ _⟩
      | zset members =>
          have type := (found.type_zset rfl).1
          rw [if_pos (by rw [type]; decide), Exec.pure_eq_ok, Exec.returns_ok]
          exact ⟨afterDenotes, _, by simp [Store.Answers, found.lookup], outErr_eq _ _ _ _⟩

theorem doSet (denotes : db.Denotes store) (word key str out : Bytes) (now : UInt64) :
    Exec.Returns (doSet db [word, key, str] out) (Serves store now (.set key str) out) := by
  obtain ⟨⟨after, found⟩, lookupEq, afterDenotes, holds⟩ := denotes.dbLookup key
  simp only [RedisLite.doSet, List.getElem?_cons_succ, List.getElem?_cons_zero, Exec.deref_some,
    Exec.ok_bind, lookupEq]
  cases found with
  | none =>
      have lookup : store.lookup key = none := holds
      have alloc : (after.entries.put after.entries.next { type := .str }).cell
          after.entries.next = some { type := .str } := Mem.put_self _ _ _
      have idx : (after.timers.heapIdx.put after.entries.next none).cell after.entries.next =
          some none := Mem.put_self _ _ _
      simp only [entryNew, Mem.alloc, Mem.modify_eq alloc, Mem.write_eq idx, Exec.ok_bind]
      let new : Entry D := { hcode := strHash key, key := key, type := .str, str := str }
      have isNew : new.Holds (.str str) := ⟨rfl, rfl⟩
      let heapIdx := (after.timers.heapIdx.put after.entries.next none).put after.entries.next none
      obtain ⟨final, insertEq, finalDenotes, -⟩ := @dbInsert D _ after store key afterDenotes lookup
        { after.timers with heapIdx := heapIdx } _ new _
        (Mem.put_put_cell after.entries _ { type := .str } new) rfl rfl isNew rfl
        (Mem.put_put_cell after.timers.heapIdx _ none none)
      simp only [new, heapIdx] at insertEq
      simp only [insertEq, Exec.ok_bind, Exec.pure_eq_ok, Exec.returns_ok]
      refine ⟨?_, .nil, by simp [Store.Answers, lookup], outNil_eq _ _⟩
      simpa [Store.apply, lookup] using finalDenotes
  | some ent =>
      obtain ⟨entry, ⟨data, deadline⟩, found⟩ := holds
      simp only [Mem.read_eq found.live, Exec.ok_bind]
      cases data with
      | str bytes =>
          have type := (found.type_str rfl).1
          rw [if_neg (not_not.mpr type), Mem.write_eq found.live, Exec.ok_bind, Exec.pure_eq_ok,
            Exec.returns_ok]
          refine ⟨?_, .nil, by simp [Store.Answers, found.lookup], outNil_eq _ _⟩
          simpa [Store.apply, found.lookup] using
            @Denotes.write D _ after store key ent entry _ afterDenotes found
              { entry with str := str } (.str str) rfl rfl ⟨type, rfl⟩
      | zset members =>
          have type := (found.type_zset rfl).1
          rw [if_pos (by rw [type]; decide), Exec.pure_eq_ok, Exec.returns_ok]
          refine ⟨?_, _, by simp [Store.Answers, found.lookup], outErr_eq _ _ _ _⟩
          simpa [Store.apply, found.lookup] using afterDenotes

theorem doDel (denotes : db.Denotes store) (word key out : Bytes) (now : UInt64) :
    Exec.Returns (doDel db [word, key] out) (Serves store now (.del key) out) := by
  obtain ⟨hmap, found, deleteEq, holds⟩ := denotes.linked.dbDelete_spec key
  simp only [RedisLite.doDel, List.getElem?_cons_succ, List.getElem?_cons_zero, Exec.deref_some,
    Exec.ok_bind, deleteEq]
  cases found with
  | none =>
      obtain ⟨linked, absent⟩ := holds
      have lookup := denotes.lookup_none absent
      have absent : key ∉ store := Finmap.lookup_eq_none.mp lookup
      simp only [Exec.pure_eq_ok, Exec.returns_ok]
      refine ⟨?_, .int 0, by simp [Store.Answers, absent, Store.truth], outInt_eq _ _ _⟩
      simpa [Store.apply, Entries.erase_of_notMem absent] using denotes.of_linked linked
  | some ent =>
      obtain ⟨entry, live, rfl, valid, perm⟩ := holds
      obtain ⟨item, found⟩ := denotes.finds live
      have present : entry.key ∈ store := Finmap.mem_iff.mpr ⟨item, found.lookup⟩
      obtain ⟨after, delEq, afterDenotes, -⟩ := denotes.entryDel live valid perm
      simp only [delEq, Exec.ok_bind, Exec.pure_eq_ok, Exec.returns_ok]
      exact ⟨afterDenotes, .int 1, by simp [Store.Answers, present, Store.truth],
        outInt_eq _ _ _⟩

/-- The nodes of the table are the keys of the store. -/
theorem exists_keys (denotes : db.Denotes store) :
    ∃ keys : List Bytes, keys.Nodup ∧ (∀ key, key ∈ keys ↔ key ∈ store) ∧
      keys.length = db.db.nodes.length ∧
      ∀ out, hmForeach db.db (cbKeys db) out =
        .ok (out ++ Value.encodeAll Dbl.bits (keys.map (Value.str : Bytes → Value D))) := by
  let keyOf : HNode Ptr → Bytes := fun node => ((db.entries.cell node.ref).map Entry.key).getD []
  have keyOf_eq : ∀ node ∈ db.db.nodes, ∃ entry, db.entries.cell node.ref = some entry ∧
      keyOf node = entry.key := by
    intro node member
    obtain ⟨entry, live, -⟩ := denotes.linked.live node member
    exact ⟨entry, live, by simp [keyOf, live]⟩
  refine ⟨db.db.nodes.map keyOf, ?_, ?_, List.length_map _, ?_⟩
  · refine List.Nodup.map_on ?_ (List.Nodup.of_map _ denotes.linked.nodup)
    intro node member other otherMember same
    obtain ⟨entry, live, isKey⟩ := keyOf_eq node member
    obtain ⟨otherEntry, otherLive, otherIsKey⟩ := keyOf_eq other otherMember
    rw [isKey, otherIsKey] at same
    have refs := denotes.linked.distinct _ _ _ _ live otherLive same
    exact List.inj_on_of_nodup_map denotes.linked.nodup member otherMember refs
  · intro key
    constructor
    · intro member
      obtain ⟨node, nodeMem, rfl⟩ := List.mem_map.mp member
      obtain ⟨entry, live, isKey⟩ := keyOf_eq node nodeMem
      obtain ⟨item, lookup, -⟩ := denotes.items _ _ live
      rw [isKey]
      exact Finmap.mem_iff.mpr ⟨item, lookup⟩
    · intro member
      obtain ⟨item, lookup⟩ := Finmap.mem_iff.mp member
      obtain ⟨ent, entry, live, rfl⟩ := denotes.keys key item lookup
      have nodeMem := denotes.linked.owned ent entry live
      exact List.mem_map.mpr ⟨_, nodeMem, by simp [keyOf, live]⟩
  · intro out
    have goesOn : ∀ node ∈ db.db.nodes, ∀ arg, cbKeys db node arg =
        .ok (true, outStr arg (keyOf node)) := by
      intro node member arg
      obtain ⟨entry, live, isKey⟩ := keyOf_eq node member
      simp [cbKeys, Mem.read_eq live, isKey]
    rw [hmForeach_eq denotes.linked.valid goesOn]
    congr 1
    generalize db.db.nodes = nodes
    induction nodes generalizing out with
    | nil => simp [Value.encodeAll]
    | cons node nodes ih =>
        rw [List.foldl_cons, ih, outStr_eq (D := D) Dbl.bits, List.map_cons, List.map_cons,
          Value.encodeAll, List.append_assoc]

theorem doKeys (denotes : db.Denotes store) (out : Bytes) (now : UInt64) :
    Exec.Returns (doKeys db out) (Serves store now .keys out) := by
  obtain ⟨keys, nodup, member, length, foreachEq⟩ := denotes.exists_keys
  simp only [RedisLite.doKeys, foreachEq, Exec.ok_bind, Exec.pure_eq_ok, Exec.returns_ok]
  refine ⟨denotes, .arr (keys.map .str), ⟨keys, nodup, member, rfl⟩, ?_⟩
  rw [denotes.linked.valid.hmSize_eq, ← length]
  simpa using outArr_eq (Dbl.bits : D → UInt64) out (keys.map Value.str)

/-! ## Deadlines -/

theorem doExpire (denotes : db.Denotes store) (word key ttlMs out : Bytes) (now : UInt64) :
    Exec.Returns (doExpire db [word, key, ttlMs] now out)
      (Serves store now (.pexpire key ttlMs) out) := by
  simp only [RedisLite.doExpire, List.getElem?_cons_succ, List.getElem?_cons_zero,
    Exec.deref_some, Exec.ok_bind]
  cases parsed : str2int ttlMs with
  | none =>
      simp only [Exec.pure_eq_ok, Exec.returns_ok]
      refine ⟨?_, _, by simp [Store.Answers, parsed], outErr_eq _ _ _ _⟩
      simpa [Store.apply, parsed] using denotes
  | some ttl =>
      obtain ⟨⟨after, found⟩, lookupEq, afterDenotes, holds⟩ := denotes.dbLookup key
      simp only [lookupEq, Exec.ok_bind]
      cases found with
      | none =>
          have lookup : store.lookup key = none := holds
          have absent : key ∉ store := Finmap.lookup_eq_none.mp lookup
          simp only [Exec.pure_eq_ok, Exec.returns_ok]
          refine ⟨?_, .int 0, by simp [Store.Answers, parsed, absent, Store.truth],
            outInt_eq _ _ _⟩
          simpa [Store.apply, parsed, lookup] using afterDenotes
      | some ent =>
          obtain ⟨entry, item, found⟩ := holds
          have present : key ∈ store := Finmap.mem_iff.mpr ⟨item, found.lookup⟩
          obtain ⟨timers, ttlEq, retimed⟩ := entrySetTtl_spec afterDenotes.tracks
            ((afterDenotes.live ent).mpr ⟨entry, found.live⟩) ttl now
          simp only [ttlEq, Exec.ok_bind, Exec.pure_eq_ok, Exec.returns_ok]
          have deadline : (if ttl < 0 then none else some (now + UInt64.ofNat ttl.toNat)) =
              (deadlineAfter now.toNat ttl).map UInt64.ofNat := by
            unfold deadlineAfter
            split
            · rfl
            · simp
          rw [deadline] at retimed
          refine ⟨?_, .int 1, by simp [Store.Answers, parsed, present, Store.truth],
            outInt_eq _ _ _⟩
          simpa [Store.apply, parsed, found.lookup] using afterDenotes.retime found retimed

theorem doTtl (denotes : db.Denotes store) (word key out : Bytes) (now : UInt64) :
    Exec.Returns (doTtl db [word, key] now out) (Serves store now (.pttl key) out) := by
  obtain ⟨⟨after, found⟩, lookupEq, afterDenotes, holds⟩ := denotes.dbLookup key
  simp only [RedisLite.doTtl, List.getElem?_cons_succ, List.getElem?_cons_zero, Exec.deref_some,
    Exec.ok_bind, lookupEq]
  cases found with
  | none =>
      have lookup : store.lookup key = none := holds
      simp only [Exec.pure_eq_ok, Exec.returns_ok]
      exact ⟨afterDenotes, .int (-2), by simp [Store.Answers, lookup], outInt_eq _ _ _⟩
  | some ent =>
      obtain ⟨entry, ⟨data, deadline⟩, found⟩ := holds
      have live := (afterDenotes.live ent).mpr ⟨entry, found.live⟩
      cases deadline with
      | none =>
          have cell := afterDenotes.tracks.cell_of_none live found.deadline
          simp only [Mem.read_eq cell, Exec.ok_bind, Exec.pure_eq_ok, Exec.returns_ok]
          exact ⟨afterDenotes, .int (-1), by simp [Store.Answers, found.lookup],
            outInt_eq _ _ _⟩
      | some deadline =>
          obtain ⟨pos, cell, slot⟩ := afterDenotes.tracks.exists_slot found.deadline
          simp only [Mem.read_eq cell, Exec.ok_bind, slot, Exec.deref_some, Exec.pure_eq_ok,
            Exec.returns_ok]
          exact ⟨afterDenotes, _, by simp [Store.Answers, found.lookup, Store.ttlLeft],
            outInt_eq _ _ _⟩

end Denotes

end Db

end RedisLite
