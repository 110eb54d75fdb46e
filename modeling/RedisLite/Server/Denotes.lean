import RedisLite.HashTable.Valid
import RedisLite.Server.Deadlines
import RedisLite.Server.Store

/-!
# The database as a store

`Db.Denotes` is the invariant of the database together with the store it stands for:
the hash table holds the nodes of the live entries, the entries have distinct keys
and hold the values of the store, and the timers are the deadlines.
-/

namespace RedisLite

open Lib

variable {D : Type}

/-! ## The hash table of entries -/

/-- The hash table holds exactly the nodes of the live entries, whose keys are
distinct. -/
structure Linked (hmap : HMap Ptr) (entries : Mem (Entry D)) : Prop where
  valid : hmap.Valid
  nodup : (hmap.nodes.map HNode.ref).Nodup
  live : ∀ node ∈ hmap.nodes, ∃ entry, entries.cell node.ref = some entry ∧
    node.hcode = entry.hcode
  owned : ∀ ent entry, entries.cell ent = some entry → ⟨entry.hcode, ent⟩ ∈ hmap.nodes
  hcodes : ∀ ent entry, entries.cell ent = some entry → entry.hcode = strHash entry.key
  distinct : ∀ ent other entry otherEntry, entries.cell ent = some entry →
    entries.cell other = some otherEntry → entry.key = otherEntry.key → ent = other

/-- What `entry_eq` decides. -/
def hasKey (entries : Mem (Entry D)) (key : Bytes) (ref : Ptr) : Bool :=
  decide ((entries.cell ref).map Entry.key = some key)

namespace Linked

variable {hmap after : HMap Ptr} {entries entriesAfter : Mem (Entry D)} {ent : Ptr}
  {entry : Entry D}

theorem empty : Linked ({} : HMap Ptr) (.empty : Mem (Entry D)) :=
  ⟨HMap.valid_empty, by simp, by simp, by simp, by simp, by simp⟩

theorem of_perm (linked : Linked hmap entries) (valid : after.Valid)
    (perm : after.nodes.Perm hmap.nodes) : Linked after entries where
  valid := valid
  nodup := (perm.map HNode.ref).nodup_iff.mpr linked.nodup
  live := fun node member => linked.live node (perm.mem_iff.mp member)
  owned := fun ent entry live => perm.mem_iff.mpr (linked.owned ent entry live)
  hcodes := linked.hcodes
  distinct := linked.distinct

/-- A new entry of a new key. -/
theorem insert (linked : Linked hmap entries) (valid : after.Valid)
    (perm : after.nodes.Perm (⟨entry.hcode, ent⟩ :: hmap.nodes))
    (dead : entries.cell ent = none)
    (cells : ∀ query, entriesAfter.cell query = if query = ent then some entry
      else entries.cell query)
    (hcode : entry.hcode = strHash entry.key)
    (absent : ∀ other otherEntry, entries.cell other = some otherEntry →
      otherEntry.key ≠ entry.key) : Linked after entriesAfter where
  valid := valid
  nodup := by
    rw [(perm.map HNode.ref).nodup_iff, List.map_cons, List.nodup_cons]
    refine ⟨?_, linked.nodup⟩
    intro member
    obtain ⟨node, nodeMem, rfl⟩ := List.mem_map.mp member
    obtain ⟨other, live, -⟩ := linked.live node nodeMem
    rw [dead] at live
    cases live
  live := by
    intro node member
    rcases List.mem_cons.mp (perm.mem_iff.mp member) with rfl | member
    · exact ⟨entry, by rw [cells, if_pos rfl], rfl⟩
    · obtain ⟨other, live, same⟩ := linked.live node member
      refine ⟨other, ?_, same⟩
      rw [cells, if_neg, live]
      rintro rfl
      rw [dead] at live
      cases live
  owned := by
    intro query queryEntry live
    rw [cells] at live
    rw [perm.mem_iff]
    split at live
    · rename_i isEnt
      cases live
      rw [isEnt]
      exact List.mem_cons_self
    · exact List.mem_cons_of_mem _ (linked.owned query queryEntry live)
  hcodes := by
    intro query queryEntry live
    rw [cells] at live
    split at live
    · cases live
      exact hcode
    · exact linked.hcodes query queryEntry live
  distinct := by
    intro query other queryEntry otherEntry live otherLive same
    rw [cells] at live otherLive
    split at live <;> split at otherLive
    · rename_i isEnt otherIsEnt
      rw [isEnt, otherIsEnt]
    · cases live
      exact absurd same.symm (absent other otherEntry otherLive)
    · cases otherLive
      exact absurd same (absent query queryEntry live)
    · exact linked.distinct query other queryEntry otherEntry live otherLive same

/-- Another value in a live entry. -/
theorem write (linked : Linked hmap entries) {new : Entry D} (live : entries.cell ent = some entry)
    (cells : ∀ query, entriesAfter.cell query = if query = ent then some new
      else entries.cell query)
    (key : new.key = entry.key) (hcode : new.hcode = entry.hcode) :
    Linked hmap entriesAfter := by
  have back : ∀ query queryEntry, entriesAfter.cell query = some queryEntry →
      ∃ old, entries.cell query = some old ∧ queryEntry.key = old.key ∧
        queryEntry.hcode = old.hcode := by
    intro query queryEntry queryLive
    rw [cells] at queryLive
    split at queryLive
    · rename_i isEnt
      cases queryLive
      exact ⟨entry, isEnt ▸ live, key, hcode⟩
    · exact ⟨queryEntry, queryLive, rfl, rfl⟩
  refine ⟨linked.valid, linked.nodup, ?_, ?_, ?_, ?_⟩
  · intro node member
    obtain ⟨old, oldLive, same⟩ := linked.live node member
    by_cases isEnt : node.ref = ent
    · rw [isEnt, live] at oldLive
      cases oldLive
      exact ⟨new, by rw [cells, if_pos isEnt], same.trans hcode.symm⟩
    · exact ⟨old, by rw [cells, if_neg isEnt, oldLive], same⟩
  · intro query queryEntry queryLive
    obtain ⟨old, oldLive, -, sameCode⟩ := back query queryEntry queryLive
    rw [sameCode]
    exact linked.owned query old oldLive
  · intro query queryEntry queryLive
    obtain ⟨old, oldLive, sameKey, sameCode⟩ := back query queryEntry queryLive
    rw [sameKey, sameCode]
    exact linked.hcodes query old oldLive
  · intro query other queryEntry otherEntry queryLive otherLive same
    obtain ⟨old, oldLive, sameKey, -⟩ := back query queryEntry queryLive
    obtain ⟨otherOld, otherOldLive, otherSameKey, -⟩ := back other otherEntry otherLive
    exact linked.distinct query other old otherOld oldLive otherOldLive
      (sameKey.symm.trans (same.trans otherSameKey))

/-- A detached entry is freed. -/
theorem remove (linked : Linked hmap entries) (valid : after.Valid)
    (perm : hmap.nodes.Perm (⟨entry.hcode, ent⟩ :: after.nodes)) :
    Linked after (entries.drop ent) := by
  have nodup := (perm.map HNode.ref).nodup_iff.mp linked.nodup
  rw [List.map_cons, List.nodup_cons] at nodup
  have back : ∀ query queryEntry, (entries.drop ent).cell query = some queryEntry →
      query ≠ ent ∧ entries.cell query = some queryEntry := by
    intro query queryEntry live
    rw [Mem.drop_cell] at live
    split at live
    · cases live
    · rename_i different
      exact ⟨different, live⟩
  refine ⟨valid, nodup.2, ?_, ?_, ?_, ?_⟩
  · intro node member
    obtain ⟨entry, live, same⟩ := linked.live node
      (perm.mem_iff.mpr (List.mem_cons_of_mem _ member))
    refine ⟨entry, ?_, same⟩
    rw [Mem.drop_cell, if_neg, live]
    intro isEnt
    exact nodup.1 (List.mem_map.mpr ⟨node, member, isEnt⟩)
  · intro query queryEntry live
    obtain ⟨different, live⟩ := back query queryEntry live
    refine (List.mem_cons.mp (perm.mem_iff.mp (linked.owned query queryEntry live))).resolve_left ?_
    intro same
    exact different (congrArg HNode.ref same)
  · intro query queryEntry live
    exact linked.hcodes query queryEntry (back query queryEntry live).2
  · intro query other queryEntry otherEntry live otherLive same
    exact linked.distinct query other queryEntry otherEntry (back query queryEntry live).2
      (back other otherEntry otherLive).2 same

theorem node_eq (linked : Linked hmap entries) {node : HNode Ptr} (member : node ∈ hmap.nodes)
    (live : entries.cell node.ref = some entry) : node = ⟨entry.hcode, node.ref⟩ := by
  obtain ⟨other, otherLive, same⟩ := linked.live node member
  rw [live] at otherLive
  cases otherLive
  rw [← same]

theorem key_of_matches {node : HNode Ptr} {key : Bytes}
    (isMatch : node.Matches (strHash key) (hasKey entries key)) :
    ∃ entry, entries.cell node.ref = some entry ∧ entry.key = key := by
  obtain ⟨entry, live, same⟩ := Option.map_eq_some_iff.mp (of_decide_eq_true isMatch.2)
  exact ⟨entry, live, same⟩

theorem key_ne (linked : Linked hmap entries) {key : Bytes}
    (noMatch : ∀ node ∈ hmap.nodes, ¬ node.Matches (strHash key) (hasKey entries key))
    (live : entries.cell ent = some entry) : entry.key ≠ key := by
  rintro rfl
  apply noMatch _ (linked.owned ent entry live)
  exact ⟨linked.hcodes ent entry live, decide_eq_true (by simp [live])⟩

end Linked

/-! ## The invariant -/

/-- The entry holds the value. -/
def Entry.Holds [LinearOrder D] (entry : Entry D) : Data D → Prop
  | .str bytes => entry.type = .str ∧ entry.str = bytes
  | .zset members => entry.type = .zset ∧ entry.zset.Denotes members

namespace Db

variable [LinearOrder D] {db : Db D} {store : Store D} {key : Bytes} {ent : Ptr}
  {entry : Entry D} {item : Item D}

/-- The database stands for the store. -/
structure Denotes (db : Db D) (store : Store D) : Prop where
  linked : Linked db.db db.entries
  tracks : db.timers.Tracks
  live : ∀ ent, db.timers.Live ent ↔ ∃ entry, db.entries.cell ent = some entry
  items : ∀ ent entry, db.entries.cell ent = some entry →
    ∃ item, store.lookup entry.key = some item ∧ entry.Holds item.data ∧
      db.timers.deadline ent = item.deadline.map UInt64.ofNat
  keys : ∀ key item, store.lookup key = some item →
    ∃ ent entry, db.entries.cell ent = some entry ∧ entry.key = key

/-- The entry of a key and the item it stands for. -/
structure Finds (db : Db D) (store : Store D) (key : Bytes) (ent : Ptr) (entry : Entry D)
    (item : Item D) : Prop where
  live : db.entries.cell ent = some entry
  key_eq : entry.key = key
  lookup : store.lookup key = some item
  holds : entry.Holds item.data
  deadline : db.timers.deadline ent = item.deadline.map UInt64.ofNat

namespace Denotes

theorem empty : Denotes ({} : Db D) ∅ where
  linked := .empty
  tracks := Timers.tracks_empty
  live := by simp [Timers.Live]
  items := by simp
  keys := by simp

theorem of_linked (denotes : db.Denotes store) {hmap : HMap Ptr}
    (linked : Linked hmap db.entries) : Denotes { db with db := hmap } store :=
  { denotes with linked := linked }

theorem finds (denotes : db.Denotes store) (live : db.entries.cell ent = some entry) :
    ∃ item, db.Finds store entry.key ent entry item := by
  obtain ⟨item, lookup, holds, deadline⟩ := denotes.items ent entry live
  exact ⟨item, live, rfl, lookup, holds, deadline⟩

theorem lookup_none (denotes : db.Denotes store)
    (absent : ∀ ent entry, db.entries.cell ent = some entry → entry.key ≠ key) :
    store.lookup key = none := by
  apply Option.eq_none_iff_forall_ne_some.mpr
  intro item found
  obtain ⟨ent, entry, live, same⟩ := denotes.keys key item found
  exact absent ent entry live same

theorem key_ne_of_lookup (denotes : db.Denotes store) (absent : store.lookup key = none)
    (live : db.entries.cell ent = some entry) : entry.key ≠ key := by
  rintro rfl
  obtain ⟨item, lookup, -⟩ := denotes.items ent entry live
  rw [absent] at lookup
  cases lookup

/-- The item of one key changes with its entry. -/
theorem change (denotes : db.Denotes store) (found : db.Finds store key ent entry item)
    {timers : Timers} {entries : Mem (Entry D)} {new : Entry D} {newItem : Item D}
    (cells : ∀ query, entries.cell query = if query = ent then some new
      else db.entries.cell query)
    (sameKey : new.key = entry.key) (sameCode : new.hcode = entry.hcode)
    (holds : new.Holds newItem.data)
    (retimed : db.timers.Retimed ent (newItem.deadline.map UInt64.ofNat) timers) :
    Denotes { db with timers := timers, entries := entries } (store.insert key newItem) := by
  have isKey : new.key = key := sameKey.trans found.key_eq
  have liveIff : ∀ query, (∃ entry, entries.cell query = some entry) ↔
      ∃ entry, db.entries.cell query = some entry := by
    intro query
    rw [cells]
    split
    · rename_i isEnt
      exact ⟨fun _ => ⟨entry, isEnt ▸ found.live⟩, fun _ => ⟨new, rfl⟩⟩
    · exact Iff.rfl
  refine ⟨denotes.linked.write found.live cells sameKey sameCode, retimed.tracks, ?_, ?_, ?_⟩
  · intro query
    rw [retimed.live, denotes.live, liveIff]
  · intro query queryEntry live
    rw [cells] at live
    split at live
    · rename_i isEnt
      subst isEnt
      cases live
      exact ⟨newItem, by rw [isKey, Finmap.lookup_insert], holds, retimed.deadline_self⟩
    · rename_i different
      obtain ⟨other, lookup, otherHolds, deadline⟩ := denotes.items query queryEntry live
      refine ⟨other, ?_, otherHolds, ?_⟩
      · rw [Finmap.lookup_insert_of_ne _ , lookup]
        intro same
        exact different (denotes.linked.distinct query ent queryEntry entry live found.live
          (same.trans found.key_eq.symm))
      · rw [retimed.deadline_ne different, deadline]
  · intro query queryItem lookup
    by_cases same : query = key
    · exact ⟨ent, new, by rw [cells, if_pos rfl], same ▸ isKey⟩
    · rw [Finmap.lookup_insert_of_ne _ same] at lookup
      obtain ⟨other, otherEntry, live, otherKey⟩ := denotes.keys query queryItem lookup
      refine ⟨other, otherEntry, ?_, otherKey⟩
      rw [cells, if_neg, live]
      rintro rfl
      rw [found.live] at live
      cases live
      exact same (otherKey.symm.trans found.key_eq)

theorem write (denotes : db.Denotes store) (found : db.Finds store key ent entry item)
    {new : Entry D} {data : Data D} (sameKey : new.key = entry.key)
    (sameCode : new.hcode = entry.hcode) (holds : new.Holds data) :
    Denotes { db with entries := db.entries.put ent new } (store.write key data) := by
  have value : store.write key data = store.insert key ⟨data, item.deadline⟩ := by
    rw [Store.write, found.lookup]
    rfl
  rw [value]
  exact denotes.change found (fun query => Mem.put_cell _ _ _ _) sameKey sameCode holds
    (.refl denotes.tracks found.deadline)

theorem retime (denotes : db.Denotes store) (found : db.Finds store key ent entry item)
    {timers : Timers} {deadline : Option Nat}
    (retimed : db.timers.Retimed ent (deadline.map UInt64.ofNat) timers) :
    Denotes { db with timers := timers } (store.insert key ⟨item.data, deadline⟩) := by
  refine denotes.change found ?_ rfl rfl found.holds retimed
  intro query
  split
  · rename_i isEnt
    rw [isEnt, found.live]
  · rfl

/-- A new entry for an absent key, without a deadline. -/
theorem insert (denotes : db.Denotes store) (absent : store.lookup key = none)
    {hmap : HMap Ptr} {timers : Timers} {entries : Mem (Entry D)} {new : Entry D} {data : Data D}
    (linked : Linked hmap entries) (dead : db.entries.cell ent = none)
    (cells : ∀ query, entries.cell query = if query = ent then some new
      else db.entries.cell query)
    (isKey : new.key = key) (holds : new.Holds data)
    (heap : timers.heap = db.timers.heap)
    (heapIdx : ∀ query, timers.heapIdx.cell query = if query = ent then some none
      else db.timers.heapIdx.cell query) :
    Denotes ⟨hmap, timers, entries⟩ (store.write key data) := by
  have value : store.write key data = store.insert key ⟨data, none⟩ := by
    rw [Store.write, absent]
    rfl
  have noDeadline : db.timers.deadline ent = none := by
    apply Option.eq_none_iff_forall_ne_some.mpr
    intro val equal
    obtain ⟨entry, live⟩ := (denotes.live ent).mp (denotes.tracks.live_of_some equal)
    rw [dead] at live
    cases live
  obtain ⟨tracks, deadlines⟩ := @Timers.Tracks.of_clear db.timers timers ent denotes.tracks
    noDeadline (fun query different => by rw [heapIdx, if_neg different])
    (fun pos => by rw [heapIdx, if_pos rfl]; simp) heap
  rw [value]
  refine ⟨linked, tracks, ?_, ?_, ?_⟩
  · intro query
    by_cases isEnt : query = ent
    · simp [Timers.Live, heapIdx, cells, isEnt]
    · have before := denotes.live query
      simpa [Timers.Live, heapIdx, cells, isEnt] using before
  · intro query queryEntry live
    simp only [deadlines]
    rw [cells] at live
    split at live
    · rename_i isEnt
      subst isEnt
      cases live
      exact ⟨⟨data, none⟩, by rw [isKey, Finmap.lookup_insert], holds, noDeadline⟩
    · obtain ⟨other, lookup, otherHolds, deadline⟩ := denotes.items query queryEntry live
      refine ⟨other, ?_, otherHolds, deadline⟩
      rw [Finmap.lookup_insert_of_ne _ (denotes.key_ne_of_lookup absent live), lookup]
  · intro query queryItem lookup
    by_cases same : query = key
    · exact ⟨ent, new, by rw [cells, if_pos rfl], same ▸ isKey⟩
    · rw [Finmap.lookup_insert_of_ne _ same] at lookup
      obtain ⟨other, otherEntry, live, otherKey⟩ := denotes.keys query queryItem lookup
      refine ⟨other, otherEntry, ?_, otherKey⟩
      rw [cells, if_neg, live]
      rintro rfl
      rw [dead] at live
      cases live

/-- A detached entry is freed after its timer. -/
theorem remove (denotes : db.Denotes store) (live : db.entries.cell ent = some entry)
    {hmap : HMap Ptr} {timers : Timers} (linked : Linked hmap (db.entries.drop ent))
    (retimed : db.timers.Retimed ent none timers) :
    Denotes ⟨hmap, { timers with heapIdx := timers.heapIdx.drop ent }, db.entries.drop ent⟩
      (store.erase entry.key) := by
  obtain ⟨tracks, deadlines⟩ := @Timers.Tracks.of_clear timers
    { timers with heapIdx := timers.heapIdx.drop ent } ent retimed.tracks retimed.deadline_self
    (fun query different => by rw [Mem.drop_cell, if_neg different])
    (fun pos => by rw [Mem.drop_cell, if_pos rfl]; simp) rfl
  have back : ∀ query queryEntry, (db.entries.drop ent).cell query = some queryEntry →
      query ≠ ent ∧ db.entries.cell query = some queryEntry := by
    intro query queryEntry queryLive
    rw [Mem.drop_cell] at queryLive
    split at queryLive
    · cases queryLive
    · rename_i different
      exact ⟨different, queryLive⟩
  refine ⟨linked, tracks, ?_, ?_, ?_⟩
  · intro query
    by_cases isEnt : query = ent
    · simp [Timers.Live, isEnt]
    · have before := (retimed.live query).trans (denotes.live query)
      simpa [Timers.Live, isEnt] using before
  · intro query queryEntry queryLive
    obtain ⟨different, queryLive⟩ := back query queryEntry queryLive
    obtain ⟨item, lookup, holds, deadline⟩ := denotes.items query queryEntry queryLive
    refine ⟨item, ?_, holds, ?_⟩
    · rw [Finmap.lookup_erase_ne, lookup]
      intro same
      exact different
        (denotes.linked.distinct query ent queryEntry entry queryLive live same)
    · rw [deadlines, retimed.deadline_ne different, deadline]
  · intro query queryItem lookup
    by_cases same : query = entry.key
    · subst same
      rw [Finmap.lookup_erase] at lookup
      cases lookup
    · rw [Finmap.lookup_erase_ne same] at lookup
      obtain ⟨other, otherEntry, otherLive, otherKey⟩ := denotes.keys query queryItem lookup
      refine ⟨other, otherEntry, ?_, otherKey⟩
      rw [Mem.drop_cell, if_neg, otherLive]
      rintro rfl
      rw [live] at otherLive
      cases otherLive
      exact same otherKey.symm

end Denotes

end Db

end RedisLite
