import RedisLite.Server.Denotes

/-!
# Operations on entries

Looking up, inserting and deleting an entry, in a database that stands for a store.
-/

namespace RedisLite

open Lib

variable {D : Type}

/-! ## Searches -/

namespace Linked

variable {db : Db D} {ent : Ptr} {entry : Entry D}

theorem decides (linked : Linked db.db db.entries) (key : Bytes) :
    Decides db.db.nodes (strHash key) (entryEq db key) (hasKey db.entries key) := by
  intro node member _
  obtain ⟨entry, live, -⟩ := linked.live node member
  simp [entryEq, Mem.read_eq live, hasKey, live]

/-- `hm_lookup` of a key finds the entry of the key. -/
theorem dbLookup_spec (linked : Linked db.db db.entries) (key : Bytes) :
    ∃ hmap found, dbLookup db key = .ok ({ db with db := hmap }, found) ∧
      Linked hmap db.entries ∧
      match found with
      | some ent => ∃ entry, db.entries.cell ent = some entry ∧ entry.key = key
      | none => ∀ ent entry, db.entries.cell ent = some entry → entry.key ≠ key := by
  obtain ⟨hmap, found, lookupEq, valid, perm, holds⟩ :=
    hmLookup_spec linked.valid (linked.decides key)
  refine ⟨hmap, found.map HNode.ref, by simp [dbLookup, lookupEq], linked.of_perm valid perm, ?_⟩
  cases found with
  | some node => exact key_of_matches holds.2
  | none => exact fun ent entry live => linked.key_ne holds live

/-- `hm_delete` of a key detaches the entry of the key. -/
theorem dbDelete_spec (linked : Linked db.db db.entries) (key : Bytes) :
    ∃ hmap found, dbDelete db key = .ok ({ db with db := hmap }, found) ∧
      match found with
      | some ent => ∃ entry, db.entries.cell ent = some entry ∧ entry.key = key ∧ hmap.Valid ∧
          db.db.nodes.Perm (⟨entry.hcode, ent⟩ :: hmap.nodes)
      | none => Linked hmap db.entries ∧
          ∀ ent entry, db.entries.cell ent = some entry → entry.key ≠ key := by
  obtain ⟨hmap, found, deleteEq, valid, holds⟩ :=
    hmDelete_spec linked.valid (linked.decides key)
  refine ⟨hmap, found.map HNode.ref, by simp [dbDelete, deleteEq], ?_⟩
  cases found with
  | some node =>
      obtain ⟨perm, isMatch⟩ := holds
      obtain ⟨entry, live, isKey⟩ := key_of_matches isMatch
      refine ⟨entry, live, isKey, valid, ?_⟩
      rw [← linked.node_eq (perm.mem_iff.mpr List.mem_cons_self) live]
      exact perm
  | none =>
      exact ⟨linked.of_perm valid holds.1.symm, fun ent entry live => linked.key_ne holds.2 live⟩

/-- `hm_delete` by `hnode_same` detaches the node of a live entry. -/
theorem hmDelete_same (linked : Linked db.db db.entries)
    (live : db.entries.cell ent = some entry) :
    ∃ hmap, hmDelete db.db entry.hcode (hnodeSame ent) = .ok (hmap, some ⟨entry.hcode, ent⟩) ∧
      hmap.Valid ∧ db.db.nodes.Perm (⟨entry.hcode, ent⟩ :: hmap.nodes) := by
  have decides : Decides db.db.nodes entry.hcode (hnodeSame ent) (fun ref => decide (ref = ent)) :=
    fun _ _ _ => rfl
  obtain ⟨hmap, found, deleteEq, valid, holds⟩ := hmDelete_spec linked.valid decides
  cases found with
  | some node =>
      obtain ⟨perm, isMatch⟩ := holds
      obtain rfl : node = ⟨entry.hcode, ent⟩ := by
        obtain ⟨hcode, ref⟩ := node
        have same : ref = ent := of_decide_eq_true isMatch.2
        rw [same, show hcode = entry.hcode from isMatch.1]
      exact ⟨hmap, deleteEq, valid, perm⟩
  | none =>
      exact absurd ⟨rfl, decide_eq_true rfl⟩ (holds.2 _ (linked.owned ent entry live))

end Linked

namespace Db

variable [LinearOrder D] {db : Db D} {store : Store D} {key : Bytes} {ent : Ptr}
  {entry : Entry D}

namespace Denotes

theorem dbLookup (denotes : db.Denotes store) (key : Bytes) :
    Exec.Returns (dbLookup db key) fun result =>
      result.1.Denotes store ∧
      match result.2 with
      | some ent => ∃ entry item, result.1.Finds store key ent entry item
      | none => store.lookup key = none := by
  obtain ⟨hmap, found, lookupEq, linked, holds⟩ := denotes.linked.dbLookup_spec key
  rw [lookupEq, Exec.returns_ok]
  have after := denotes.of_linked linked
  refine ⟨after, ?_⟩
  cases found with
  | some ent =>
      obtain ⟨entry, live, rfl⟩ := holds
      obtain ⟨item, found⟩ := after.finds live
      exact ⟨entry, item, found⟩
  | none => exact denotes.lookup_none holds

/-- Destroying the value of a live entry returns. -/
theorem entryClearZset (denotes : db.Denotes store) (live : db.entries.cell ent = some entry) :
    ∃ zset, entryClearZset entry = .ok zset := by
  obtain ⟨item, found⟩ := denotes.finds live
  have holds := found.holds
  unfold RedisLite.entryClearZset
  split
  · rename_i isZset
    cases data : item.data with
    | str bytes =>
        rw [data] at holds
        cases isZset.symm.trans holds.1
    | zset members =>
        rw [data] at holds
        obtain ⟨tree, cells, inner, -⟩ := holds.2
        obtain ⟨cleared, clearEq, -⟩ := inner.zsetClear_spec
        exact ⟨cleared, clearEq⟩
  · exact ⟨_, rfl⟩

/-- `entry_del` of a detached entry. -/
theorem entryDel (denotes : db.Denotes store) (live : db.entries.cell ent = some entry)
    {hmap : HMap Ptr} (valid : hmap.Valid)
    (perm : db.db.nodes.Perm (⟨entry.hcode, ent⟩ :: hmap.nodes)) :
    Exec.Returns (entryDel { db with db := hmap } ent) fun after =>
      after.Denotes (store.erase entry.key) ∧ after.db = hmap ∧
        after.entries = db.entries.drop ent ∧
        ∀ val, db.timers.deadline ent = some val →
          db.timers.heap.Perm (⟨val, ent⟩ :: after.timers.heap) := by
  obtain ⟨timers, clearEq, retimed⟩ :=
    entryClearTimer_spec denotes.tracks ((denotes.live ent).mpr ⟨entry, live⟩)
  obtain ⟨zset, zsetEq⟩ := denotes.entryClearZset live
  simp only [RedisLite.entryDel, clearEq, Exec.ok_bind, Mem.read_eq live, zsetEq,
    Mem.free_eq live, Exec.pure_eq_ok, Exec.returns_ok]
  exact ⟨denotes.remove live (denotes.linked.remove valid perm) retimed, trivial, trivial,
    fun val equal => retimed.heap_perm denotes.tracks equal⟩

/-- `hm_insert` of a new entry, in the cell that `entry_new` allocated. -/
theorem dbInsert (denotes : db.Denotes store) (absent : store.lookup key = none)
    {timers : Timers} {entries : Mem (Entry D)} {new : Entry D} {data : Data D}
    (cells : ∀ query, entries.cell query = if query = db.entries.next then some new
      else db.entries.cell query)
    (isKey : new.key = key) (hcode : new.hcode = strHash key) (holds : new.Holds data)
    (heap : timers.heap = db.timers.heap)
    (heapIdx : ∀ query, timers.heapIdx.cell query = if query = db.entries.next then some none
      else db.timers.heapIdx.cell query) :
    Exec.Returns (dbInsert ⟨db.db, timers, entries⟩ db.entries.next) fun after =>
      after.Denotes (store.write key data) ∧ after.entries = entries := by
  have live : entries.cell db.entries.next = some new := by rw [cells, if_pos rfl]
  obtain ⟨hmap, insertEq, valid, perm⟩ :=
    hmInsert_spec denotes.linked.valid (HNode.mk new.hcode db.entries.next)
  simp only [RedisLite.dbInsert, Mem.read_eq live, Exec.ok_bind, insertEq, Exec.pure_eq_ok,
    Exec.returns_ok, and_true]
  have linked := denotes.linked.insert valid perm (Mem.alloc_dead _) cells (isKey ▸ hcode)
    (fun other otherEntry otherLive => isKey ▸ denotes.key_ne_of_lookup absent otherLive)
  exact denotes.insert absent linked (Mem.alloc_dead _) cells isKey holds heap heapIdx

end Denotes

end Db

end RedisLite
