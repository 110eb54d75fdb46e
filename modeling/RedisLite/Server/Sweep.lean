import RedisLite.Server.Operations

/-!
# The expiry sweep

Every turn of the TTL loop of `process_timers` finds the entry of the first heap item
in the hash table and removes both.  A sweep therefore evicts keys whose deadline has
passed.
-/

namespace RedisLite

open Lib

variable {D : Type} [LinearOrder D]

/-- The key has a deadline that has passed. -/
def Store.Due {D : Type} (store : Store D) (now : UInt64) (key : Bytes) : Prop :=
  ∃ data deadline, store.lookup key = some ⟨data, some deadline⟩ ∧ UInt64.ofNat deadline < now

/-- The deadline of a key as the heap stores it. -/
def Store.expireAt {D : Type} (store : Store D) (key : Bytes) : Option UInt64 :=
  ((store.lookup key).bind Item.deadline).map UInt64.ofNat

theorem Store.due_iff {D : Type} {store : Store D} {now : UInt64} {key : Bytes} :
    store.Due now key ↔ ∃ expireAt, store.expireAt key = some expireAt ∧ expireAt < now := by
  unfold Due expireAt
  constructor
  · rintro ⟨data, deadline, lookup, due⟩
    exact ⟨_, by rw [lookup]; rfl, due⟩
  · rintro ⟨expireAt, isDeadline, due⟩
    obtain ⟨deadline, isItem, rfl⟩ := Option.map_eq_some_iff.mp isDeadline
    obtain ⟨⟨data, _⟩, lookup, rfl⟩ := Option.bind_eq_some_iff.mp isItem
    exact ⟨data, deadline, lookup, due⟩

namespace Db

/-- The keys of the nodes in the hash table. -/
def keys {D : Type} (db : Db D) : List Bytes :=
  db.db.nodes.filterMap fun node => (db.entries.cell node.ref).map Entry.key

/-- The keys that are in the first database only. -/
def evicted {D : Type} (before after : Db D) : List Bytes :=
  before.keys.filter fun key => decide (key ∉ after.keys)

/-- What one turn of the TTL loop does to the entry of the first item. -/
structure Evicts (db : Db D) (item : HeapItem) (entry : Entry D) (after : Db D) : Prop where
  live : db.entries.cell item.ref = some entry
  found : ∃ hmap, hmDelete db.db entry.hcode (hnodeSame item.ref) =
    .ok (hmap, some ⟨entry.hcode, item.ref⟩)
  heap : db.timers.heap.Perm (item :: after.timers.heap)
  nodes : db.db.nodes.Perm (⟨entry.hcode, item.ref⟩ :: after.db.nodes)
  entries : after.entries = db.entries.drop item.ref

namespace Denotes

variable {db after : Db D} {store : Store D} {item : HeapItem} {now : UInt64}

theorem mem_keys (denotes : db.Denotes store) {key : Bytes} : key ∈ db.keys ↔ key ∈ store := by
  rw [Db.keys, List.mem_filterMap, Finmap.mem_iff]
  constructor
  · rintro ⟨node, member, isKey⟩
    obtain ⟨entry, live, rfl⟩ := Option.map_eq_some_iff.mp isKey
    obtain ⟨item, lookup, -⟩ := denotes.items _ _ live
    exact ⟨item, lookup⟩
  · rintro ⟨item, lookup⟩
    obtain ⟨ent, entry, live, rfl⟩ := denotes.keys key item lookup
    exact ⟨_, denotes.linked.owned ent entry live, by simp [live]⟩

theorem keys_nodup (denotes : db.Denotes store) : db.keys.Nodup := by
  apply List.pairwise_filterMap.mpr
  refine List.Pairwise.imp ?_ (List.pairwise_map.mp denotes.linked.nodup)
  intro node other different key isKey otherKey isOtherKey same
  obtain ⟨entry, live, rfl⟩ := Option.map_eq_some_iff.mp isKey
  obtain ⟨otherEntry, otherLive, rfl⟩ := Option.map_eq_some_iff.mp isOtherKey
  exact different (denotes.linked.distinct _ _ _ _ live otherLive same)

theorem item_finds (denotes : db.Denotes store) (member : item ∈ db.timers.heap) :
    ∃ entry value, db.Finds store entry.key item.ref entry value ∧
      db.timers.deadline item.ref = some item.val := by
  have deadline : db.timers.deadline item.ref = some item.val :=
    denotes.tracks.deadline_eq_some.mpr member
  obtain ⟨entry, live⟩ := (denotes.live item.ref).mp (denotes.tracks.live_of_some deadline)
  obtain ⟨value, found⟩ := denotes.finds live
  exact ⟨entry, value, found, deadline⟩

/-- The due items of the heap are the due keys of the store. -/
theorem exists_due_iff (denotes : db.Denotes store) :
    (∃ item ∈ db.timers.heap, item.val < now) ↔ ∃ key, store.Due now key := by
  constructor
  · rintro ⟨item, member, due⟩
    obtain ⟨entry, value, found, deadline⟩ := denotes.item_finds member
    rw [found.deadline] at deadline
    obtain ⟨exact, isExact, same⟩ := Option.map_eq_some_iff.mp deadline
    exact ⟨entry.key, value.data, exact, by rw [found.lookup, ← isExact], by rwa [same]⟩
  · rintro ⟨key, data, deadline, lookup, due⟩
    obtain ⟨ent, entry, live, rfl⟩ := denotes.keys key _ lookup
    obtain ⟨value, found⟩ := denotes.finds live
    have sameItem := found.lookup
    rw [lookup] at sameItem
    cases sameItem
    exact ⟨_, denotes.tracks.deadline_eq_some.mp found.deadline, due⟩

theorem first_due (denotes : db.Denotes store) {rest : List HeapItem}
    (heapEq : db.timers.heap = item :: rest) {query : HeapItem}
    (member : query ∈ db.timers.heap) (due : query.val < now) : item.val < now := by
  have least := denotes.tracks.first_le heapEq member
  rw [UInt64.le_iff_toNat_le] at least
  rw [UInt64.lt_iff_toNat_lt] at due ⊢
  omega

/-- A turn of the TTL loop with a due first item. -/
theorem processTtlTurn (denotes : db.Denotes store) {rest : List HeapItem}
    (heapEq : db.timers.heap = item :: rest) (due : item.val < now) (nworks : Nat) :
    ∃ entry value after, db.Finds store entry.key item.ref entry value ∧
      processTtlTurn now (db, nworks) =
        .ok (if nworks ≥ kMaxWorks then .done after else .next (after, nworks + 1)) ∧
      db.Evicts item entry after ∧ after.Denotes (store.erase entry.key) := by
  obtain ⟨entry, value, found, deadline⟩ :=
    denotes.item_finds (heapEq ▸ List.mem_cons_self)
  obtain ⟨hmap, deleteEq, valid, perm⟩ := denotes.linked.hmDelete_same found.live
  obtain ⟨after, delEq, afterDenotes, dbEq, entriesEq, heapPerm⟩ :=
    denotes.entryDel found.live valid perm
  refine ⟨entry, value, after, found, ?_, ⟨found.live, ⟨hmap, deleteEq⟩, heapPerm _ deadline, ?_,
    entriesEq⟩, afterDenotes⟩
  · simp only [RedisLite.processTtlTurn, heapEq, if_pos due, Mem.read_eq found.live, Exec.ok_bind,
      deleteEq, delEq, Exec.pure_eq_ok]
    split <;> rfl
  · rw [dbEq]
    exact perm

omit [LinearOrder D] in
theorem processTtlTurn_done (ends : ∀ item rest, db.timers.heap = item :: rest → ¬ item.val < now)
    (nworks : Nat) : RedisLite.processTtlTurn now (db, nworks) = .ok (.done db) := by
  unfold RedisLite.processTtlTurn
  cases heapEq : db.timers.heap with
  | nil => simp only [heapEq]
  | cons item rest => simp only [heapEq, if_neg (ends item rest heapEq)]

end Denotes

/-- The state in the middle of a sweep: the keys evicted so far had passed deadlines. -/
structure Sweeping (store : Store D) (now : UInt64) (db : Db D) (keys : List Bytes) : Prop where
  denotes : db.Denotes (store.evict keys)
  nodup : keys.Nodup
  due : ∀ key ∈ keys, ∃ data deadline, store.lookup key = some ⟨data, some deadline⟩ ∧
    UInt64.ofNat deadline < now

namespace Sweeping

variable {db after : Db D} {store : Store D} {item : HeapItem} {now : UInt64} {keys : List Bytes}

theorem start (denotes : db.Denotes store) : Sweeping store now db [] :=
  ⟨denotes, List.nodup_nil, by simp⟩

theorem turn (sweeping : Sweeping store now db keys) {rest : List HeapItem}
    (heapEq : db.timers.heap = item :: rest) (due : item.val < now) (nworks : Nat) :
    ∃ entry after, RedisLite.processTtlTurn now (db, nworks) =
        .ok (if nworks ≥ kMaxWorks then .done after else .next (after, nworks + 1)) ∧
      db.Evicts item entry after ∧ Sweeping store now after (keys ++ [entry.key]) ∧
      store.expireAt entry.key = some item.val := by
  obtain ⟨entry, value, after, found, turnEq, evicts, afterDenotes⟩ :=
    sweeping.denotes.processTtlTurn heapEq due nworks
  have lookup := found.lookup
  rw [Store.lookup_evict] at lookup
  split at lookup
  · cases lookup
  · rename_i notEvicted
    have isExpireAt : store.expireAt entry.key = some item.val := by
      have deadline := sweeping.denotes.tracks.deadline_eq_some.mpr
        (heapEq ▸ List.mem_cons_self : (⟨item.val, item.ref⟩ : HeapItem) ∈ db.timers.heap)
      rw [found.deadline] at deadline
      rw [Store.expireAt, lookup]
      exact deadline
    refine ⟨entry, after, turnEq, evicts, ⟨?_, ?_, ?_⟩, isExpireAt⟩
    · rw [Store.evict, List.foldl_append]
      exact afterDenotes
    · exact List.nodup_append.mpr ⟨sweeping.nodup, List.nodup_singleton _, by
        intro key member other otherMember same
        rw [List.mem_singleton.mp otherMember] at same
        exact notEvicted (same ▸ member)⟩
    · intro key member
      rcases List.mem_append.mp member with member | member
      · exact sweeping.due key member
      · rw [List.mem_singleton.mp member]
        exact Store.due_iff.mpr ⟨item.val, isExpireAt, due⟩

/-- The keys that are gone are the evicted ones. -/
theorem mem_evicted (sweeping : Sweeping store now after keys) (denotes : db.Denotes store)
    {key : Bytes} : key ∈ db.evicted after ↔ key ∈ store ∧ key ∈ keys := by
  rw [evicted, List.mem_filter, denotes.mem_keys, decide_eq_true_iff,
    sweeping.denotes.mem_keys, ← Finmap.lookup_eq_none, Store.lookup_evict]
  apply and_congr_right
  intro present
  split
  · rename_i member
    simp [member]
  · rename_i kept
    simp [kept, Finmap.lookup_eq_none, present]

theorem evicted_perm (sweeping : Sweeping store now after keys) (denotes : db.Denotes store) :
    (db.evicted after).Perm keys := by
  apply (List.perm_ext_iff_of_nodup (denotes.keys_nodup.filter _) sweeping.nodup).mpr
  intro key
  refine (sweeping.mem_evicted denotes).trans (and_iff_right_of_imp fun member => ?_)
  obtain ⟨data, deadline, lookup, -⟩ := sweeping.due key member
  exact Finmap.mem_iff.mpr ⟨_, lookup⟩

theorem evict_eq (sweeping : Sweeping store now after keys) (denotes : db.Denotes store) :
    store.evict (db.evicted after) = store.evict keys := by
  apply Finmap.ext_lookup
  intro key
  rw [Store.lookup_evict, Store.lookup_evict]
  by_cases present : key ∈ store
  · simp only [sweeping.mem_evicted denotes, present, true_and]
  · rw [Finmap.lookup_eq_none.mpr present, ite_self, ite_self]

end Sweeping

/-- The state in the middle of a sweep of `db`: no deadline of the evicted keys is later
than one that is left in the heap, and the entries that are left are unchanged. -/
structure SweepingFrom (db : Db D) (store : Store D) (now : UInt64) (after : Db D)
    (keys : List Bytes) : Prop extends Sweeping store now after keys where
  leads : ∀ key ∈ keys, ∃ expireAt, store.expireAt key = some expireAt ∧
    ∀ item ∈ after.timers.heap, expireAt ≤ item.val
  kept : ∀ ent entry, after.entries.cell ent = some entry → db.entries.cell ent = some entry

namespace SweepingFrom

variable {db middle : Db D} {store : Store D} {item : HeapItem} {now : UInt64} {keys : List Bytes}

theorem start (denotes : db.Denotes store) : SweepingFrom db store now db [] where
  toSweeping := .start denotes
  leads := by simp
  kept := fun _ _ live => live

/-- The turn with a due first item evicts its key. -/
theorem turn (sweeping : SweepingFrom db store now middle keys) {rest : List HeapItem}
    (heapEq : middle.timers.heap = item :: rest) (due : item.val < now) (nworks : Nat) :
    ∃ entry after, RedisLite.processTtlTurn now (middle, nworks) =
        .ok (if nworks ≥ kMaxWorks then .done after else .next (after, nworks + 1)) ∧
      middle.Evicts item entry after ∧
      SweepingFrom db store now after (keys ++ [entry.key]) := by
  obtain ⟨entry, after, turnEq, evicts, afterSweeping, isExpireAt⟩ :=
    sweeping.toSweeping.turn heapEq due nworks
  have left : ∀ query ∈ after.timers.heap, query ∈ middle.timers.heap := fun query member =>
    evicts.heap.mem_iff.mpr (List.mem_cons_of_mem item member)
  refine ⟨entry, after, turnEq, evicts, afterSweeping, ?_, ?_⟩
  · intro key member
    rcases List.mem_append.mp member with member | member
    · obtain ⟨expireAt, isKey, least⟩ := sweeping.leads key member
      exact ⟨expireAt, isKey, fun query queryMem => least query (left query queryMem)⟩
    · rw [List.mem_singleton.mp member]
      refine ⟨item.val, isExpireAt, fun query queryMem => ?_⟩
      exact sweeping.denotes.tracks.first_le heapEq (left query queryMem)
  · intro ent value live
    rw [evicts.entries, Mem.drop_cell] at live
    split at live
    · cases live
    · exact sweeping.kept ent value live

end SweepingFrom

/-- The sweep returns.  It leaves no passed deadline, unless it evicts one key more than
`k_max_works`. -/
theorem Denotes.processTtl_swept {db : Db D} {store : Store D} (denotes : db.Denotes store)
    (now : UInt64) :
    Exec.Returns (processTtl db now) fun after => ∃ keys, SweepingFrom db store now after keys ∧
      ((∀ key, ¬ (store.evict keys).Due now key) ∧ keys.length ≤ kMaxWorks ∨
        keys.length = kMaxWorks + 1) := by
  refine loop_returns (fun state => ∃ keys, SweepingFrom db store now state.1 keys ∧
      keys.length = state.2 ∧ state.2 ≤ kMaxWorks)
    (fun state => state.1.timers.heap.length) ?_ _ (db, 0) ⟨[], .start denotes, rfl, by simp⟩
    (Nat.lt_succ_self _)
  rintro ⟨middle, nworks⟩ ⟨keys, sweeping, count, limit⟩
  have sweeping : SweepingFrom db store now middle keys := sweeping
  have count : keys.length = nworks := count
  have limit : nworks ≤ kMaxWorks := limit
  by_cases ends : ∀ item rest, middle.timers.heap = item :: rest → ¬ item.val < now
  · refine ⟨_, Denotes.processTtlTurn_done ends nworks, keys, sweeping, .inl ⟨?_, by omega⟩⟩
    intro key due
    obtain ⟨item, member, itemDue⟩ := sweeping.denotes.exists_due_iff.mpr ⟨key, due⟩
    obtain ⟨first, rest, heapEq⟩ := List.exists_cons_of_ne_nil (List.ne_nil_of_mem member)
    exact ends first rest heapEq (sweeping.denotes.first_due heapEq member itemDue)
  · push Not at ends
    obtain ⟨item, rest, heapEq, due⟩ := ends
    obtain ⟨entry, after, turnEq, evicts, afterSweeping⟩ := sweeping.turn heapEq due nworks
    have shorter : after.timers.heap.length < middle.timers.heap.length := by
      rw [evicts.heap.length_eq]
      exact Nat.lt_succ_self _
    have more : (keys ++ [entry.key]).length = nworks + 1 := by
      rw [List.length_append, List.length_singleton, count]
    refine ⟨_, turnEq, ?_⟩
    split
    · exact ⟨_, afterSweeping, .inr (by omega)⟩
    · exact ⟨⟨_, afterSweeping, more, by omega⟩, shorter⟩

theorem Denotes.processTtl {db : Db D} {store : Store D} (denotes : db.Denotes store)
    (now : UInt64) :
    Exec.Returns (processTtl db now) fun after => ∃ keys, Sweeping store now after keys := by
  apply (denotes.processTtl_swept now).mono
  rintro after ⟨keys, sweeping, -⟩
  exact ⟨keys, sweeping.toSweeping⟩

/-- A sweep evicts a key if the first item of the heap is due. -/
theorem Denotes.evicted_ne_nil_iff {db after : Db D} {store : Store D} (denotes : db.Denotes store)
    {now : UInt64} (call : RedisLite.processTtl db now = .ok after) :
    db.evicted after ≠ [] ↔ ∃ item ∈ db.timers.heap.head?, item.val < now := by
  obtain ⟨keys, sweeping, complete⟩ := (denotes.processTtl_swept now).of_eq_ok call
  have head : (∃ item ∈ db.timers.heap.head?, item.val < now) ↔ ∃ key, store.Due now key := by
    rw [← denotes.exists_due_iff]
    constructor
    · rintro ⟨item, first, due⟩
      exact ⟨item, List.mem_of_mem_head? first, due⟩
    · rintro ⟨item, member, due⟩
      obtain ⟨first, rest, heapEq⟩ := List.exists_cons_of_ne_nil (List.ne_nil_of_mem member)
      exact ⟨first, by rw [heapEq]; rfl, denotes.first_due heapEq member due⟩
  rw [head]
  constructor
  · intro nonempty
    obtain ⟨key, member⟩ := List.exists_mem_of_ne_nil _ nonempty
    exact ⟨key, sweeping.due key ((sweeping.mem_evicted denotes).mp member).2⟩
  · rintro ⟨key, due⟩ empty
    have noKeys : keys = [] := by
      have perm := sweeping.evicted_perm denotes
      rw [empty] at perm
      exact List.nil_perm.mp perm
    rcases complete with ⟨none, -⟩ | many
    · rw [noKeys] at none
      exact none key due
    · rw [noKeys] at many
      cases many

end Db

end RedisLite
