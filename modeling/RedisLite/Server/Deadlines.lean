import RedisLite.Heap.Operations
import RedisLite.Server.Core

/-!
# Deadlines

The timer heap and the `heap_idx` fields together are a map from entries to
deadlines.  `Timers.Tracks` is the invariant of both, `Timers.deadline` the map, and
each operation of `server.cpp` on a timer is the update of one deadline.
-/

namespace RedisLite

open Lib Lib.HeapOrder

namespace Timers

/-- The entry has a `heap_idx` field. -/
def Live (timers : Timers) (ent : Ptr) : Prop := ∃ idx, timers.heapIdx.cell ent = some idx

/-- The deadline of an entry: the value of the item at its `heap_idx`. -/
def deadline (timers : Timers) (ent : Ptr) : Option UInt64 :=
  match timers.heapIdx.cell ent with
  | some (some pos) => (timers.heap[pos]?).map HeapItem.val
  | _ => none

/-- The heap is valid, and every `heap_idx` that is set leads to an item of the
entry. -/
structure Tracks (timers : Timers) : Prop where
  valid : timers.Valid
  pointed : ∀ ent pos, timers.heapIdx.cell ent = some (some pos) →
    ∃ item, timers.heap[pos]? = some item ∧ item.ref = ent

theorem tracks_empty : ({} : Timers).Tracks := ⟨valid_empty, fun _ _ set => by cases set⟩

variable {timers before after : Timers} {ent other : Ptr}

/-- Only entries without an item need to be looked at. -/
theorem Valid.tracks (valid : timers.Valid)
    (clear : ∀ ent pos, ent ∉ timers.heap.map HeapItem.ref →
      timers.heapIdx.cell ent ≠ some (some pos)) : timers.Tracks := by
  refine ⟨valid, ?_⟩
  intro ent pos set
  by_cases member : ent ∈ timers.heap.map HeapItem.ref
  · obtain ⟨item, itemMem, rfl⟩ := List.mem_map.mp member
    obtain ⟨slot, found⟩ := List.mem_iff_getElem?.mp itemMem
    have slotEq := valid.indexed slot item found
    rw [set] at slotEq
    cases slotEq
    exact ⟨item, found, rfl⟩
  · exact absurd set (clear ent pos member)

namespace Tracks

/-- The items of the heap are the deadlines. -/
theorem deadline_eq_some (tracks : timers.Tracks) {val : UInt64} :
    timers.deadline ent = some val ↔ ⟨val, ent⟩ ∈ timers.heap := by
  constructor
  · intro equal
    unfold deadline at equal
    split at equal
    · rename_i pos set
      obtain ⟨item, found, rfl⟩ := tracks.pointed ent pos set
      rw [found, Option.map_some, Option.some.injEq] at equal
      subst equal
      exact List.mem_of_getElem? found
    · cases equal
  · intro member
    obtain ⟨slot, found⟩ := List.mem_iff_getElem?.mp member
    have set := tracks.valid.indexed slot _ found
    simp [deadline, set, found]

theorem deadline_eq_none (tracks : timers.Tracks) :
    timers.deadline ent = none ↔ ent ∉ timers.heap.map HeapItem.ref := by
  rw [Option.eq_none_iff_forall_ne_some]
  constructor
  · intro none member
    obtain ⟨⟨val, ref⟩, itemMem, rfl⟩ := List.mem_map.mp member
    exact none val (tracks.deadline_eq_some.mpr itemMem)
  · intro absent val equal
    exact absent (List.mem_map.mpr ⟨_, tracks.deadline_eq_some.mp equal, rfl⟩)

theorem deadline_congr (tracks : before.Tracks) (tracksAfter : after.Tracks)
    (same : ∀ val, (⟨val, other⟩ ∈ after.heap ↔ ⟨val, ent⟩ ∈ before.heap)) :
    after.deadline other = before.deadline ent := by
  apply Option.ext
  intro val
  rw [tracksAfter.deadline_eq_some, tracks.deadline_eq_some, same val]

theorem exists_slot (tracks : timers.Tracks) {val : UInt64}
    (equal : timers.deadline ent = some val) :
    ∃ pos, timers.heapIdx.cell ent = some (some pos) ∧ timers.heap[pos]? = some ⟨val, ent⟩ := by
  obtain ⟨pos, found⟩ := List.mem_iff_getElem?.mp (tracks.deadline_eq_some.mp equal)
  exact ⟨pos, tracks.valid.indexed pos _ found, found⟩

theorem live_of_some (tracks : timers.Tracks) {val : UInt64}
    (equal : timers.deadline ent = some val) : timers.Live ent := by
  obtain ⟨pos, set, -⟩ := tracks.exists_slot equal
  exact ⟨_, set⟩

theorem cell_of_none (tracks : timers.Tracks) (live : timers.Live ent)
    (equal : timers.deadline ent = none) : timers.heapIdx.cell ent = some none := by
  obtain ⟨idx, set⟩ := live
  cases idx with
  | none => exact set
  | some pos =>
      obtain ⟨item, found, rfl⟩ := tracks.pointed ent pos set
      exact absurd (List.mem_map.mpr ⟨item, List.mem_of_getElem? found, rfl⟩)
        (tracks.deadline_eq_none.mp equal)

theorem deadline_of_cell (tracks : timers.Tracks) {pos : Nat}
    (set : timers.heapIdx.cell ent = some (some pos)) :
    ∃ val, timers.heap[pos]? = some ⟨val, ent⟩ ∧ timers.deadline ent = some val := by
  obtain ⟨⟨val, ref⟩, found, rfl⟩ := tracks.pointed ent pos set
  exact ⟨val, found, tracks.deadline_eq_some.mpr (List.mem_of_getElem? found)⟩

theorem heap_nodup (tracks : timers.Tracks) : timers.heap.Nodup :=
  (tracks.valid.indexed.nodup).of_map _

theorem first_le (tracks : timers.Tracks) {item query : HeapItem} {rest : List HeapItem}
    (heapEq : timers.heap = item :: rest) (member : query ∈ timers.heap) :
    item.val ≤ query.val := by
  obtain ⟨slot, found⟩ := List.mem_iff_getElem?.mp member
  have inside := (List.getElem?_eq_some_iff.mp found).1
  have below := tracks.valid.ordered.first_le inside
  have first : timers.heap[0]? = some item := by rw [heapEq]; rfl
  rw [keyAt_eq first, keyAt_eq found] at below
  exact UInt64.le_iff_toNat_le.mpr below

/-- Changing the `heap_idx` of an entry without an item to "none", or removing it. -/
theorem of_clear (tracks : timers.Tracks) (absent : timers.deadline ent = none)
    (same : ∀ query, query ≠ ent → after.heapIdx.cell query = timers.heapIdx.cell query)
    (clear : ∀ pos, after.heapIdx.cell ent ≠ some (some pos)) (heap : after.heap = timers.heap) :
    after.Tracks ∧ after.deadline = timers.deadline := by
  have notMem := tracks.deadline_eq_none.mp absent
  have tracksAfter : after.Tracks := by
    refine ⟨⟨by rw [heap]; exact tracks.valid.ordered, ?_⟩, ?_⟩
    · intro slot item found
      rw [heap] at found
      have different : item.ref ≠ ent :=
        ne_of_mem_of_not_mem (List.mem_map_of_mem (List.mem_of_getElem? found)) notMem
      rw [same _ different]
      exact tracks.valid.indexed slot item found
    · intro query pos set
      by_cases isEnt : query = ent
      · exact absurd (isEnt ▸ set) (clear pos)
      · rw [same query isEnt] at set
        rw [heap]
        exact tracks.pointed query pos set
  refine ⟨tracksAfter, ?_⟩
  funext query
  exact deadline_congr tracks tracksAfter fun val => by rw [heap]

end Tracks

/-! ## The operations on a timer -/

/-- The deadline of one entry was replaced. -/
structure Retimed (before : Timers) (ent : Ptr) (value : Option UInt64) (after : Timers) :
    Prop where
  tracks : after.Tracks
  deadline : after.deadline = Function.update before.deadline ent value
  live : ∀ other, after.Live other ↔ before.Live other

namespace Retimed

variable {value : Option UInt64}

theorem refl (tracks : timers.Tracks) (same : timers.deadline ent = value) :
    Retimed timers ent value timers :=
  ⟨tracks, by rw [← same, Function.update_eq_self], fun _ => Iff.rfl⟩

theorem deadline_self (retimed : Retimed before ent value after) :
    after.deadline ent = value := by
  rw [retimed.deadline, Function.update_self]

theorem deadline_ne (retimed : Retimed before ent value after) (different : other ≠ ent) :
    after.deadline other = before.deadline other := by
  rw [retimed.deadline, Function.update_of_ne different]

/-- Taking a deadline away removes one item. -/
theorem heap_perm (retimed : Retimed before ent none after) (tracks : before.Tracks)
    {val : UInt64} (equal : before.deadline ent = some val) :
    before.heap.Perm (⟨val, ent⟩ :: after.heap) := by
  have fresh : (⟨val, ent⟩ : HeapItem) ∉ after.heap := by
    intro member
    have found := retimed.tracks.deadline_eq_some.mpr member
    rw [retimed.deadline_self] at found
    cases found
  apply (List.perm_ext_iff_of_nodup tracks.heap_nodup
    (List.nodup_cons.mpr ⟨fresh, retimed.tracks.heap_nodup⟩)).mpr
  rintro ⟨otherVal, query⟩
  rw [List.mem_cons, ← tracks.deadline_eq_some, ← retimed.tracks.deadline_eq_some]
  by_cases isEnt : query = ent
  · subst isEnt
    rw [retimed.deadline_self, equal]
    simp [eq_comm]
  · rw [retimed.deadline_ne isEnt]
    simp [isEnt]

end Retimed

theorem live_iff (valid : after.Valid)
    (same : Mem.SameOutside (after.heap.map HeapItem.ref) before.heapIdx after.heapIdx)
    (liveBefore : ∀ item ∈ after.heap, before.Live item.ref) (other : Ptr) :
    after.Live other ↔ before.Live other := by
  by_cases member : other ∈ after.heap.map HeapItem.ref
  · obtain ⟨item, itemMem, rfl⟩ := List.mem_map.mp member
    obtain ⟨slot, found⟩ := List.mem_iff_getElem?.mp itemMem
    exact ⟨fun _ => liveBefore item itemMem, fun _ => ⟨_, valid.indexed slot item found⟩⟩
  · rw [Live, Live, same.cell other member]

theorem Tracks.live_ref (tracks : timers.Tracks) {item : HeapItem} (member : item ∈ timers.heap) :
    timers.Live item.ref := by
  obtain ⟨slot, found⟩ := List.mem_iff_getElem?.mp member
  exact ⟨_, tracks.valid.indexed slot item found⟩

/-- Adding or replacing the item of an entry. -/
theorem Retimed.of_upsert (tracks : before.Tracks) (live : before.Live ent) {val : UInt64}
    {rest : List HeapItem} (valid : after.Valid) (perm : after.heap.Perm (⟨val, ent⟩ :: rest))
    (others : ∀ otherVal query, query ≠ ent →
      ((⟨otherVal, query⟩ : HeapItem) ∈ rest ↔ ⟨otherVal, query⟩ ∈ before.heap))
    (same : Mem.SameOutside (after.heap.map HeapItem.ref) before.heapIdx after.heapIdx) :
    Retimed before ent (some val) after := by
  have new : (⟨val, ent⟩ : HeapItem) ∈ after.heap := perm.mem_iff.mpr List.mem_cons_self
  have member : ∀ otherVal query, query ≠ ent →
      ((⟨otherVal, query⟩ : HeapItem) ∈ after.heap ↔ ⟨otherVal, query⟩ ∈ before.heap) := by
    intro otherVal query different
    rw [perm.mem_iff, List.mem_cons, ← others otherVal query different]
    simp [different]
  have tracksAfter : after.Tracks := by
    apply valid.tracks
    intro query pos absent set
    rw [same.cell query absent] at set
    obtain ⟨⟨otherVal, ref⟩, found, rfl⟩ := tracks.pointed query pos set
    apply absent
    by_cases isEnt : ref = ent
    · exact List.mem_map.mpr ⟨_, new, isEnt.symm⟩
    · exact List.mem_map.mpr ⟨_, (member otherVal ref isEnt).mpr (List.mem_of_getElem? found), rfl⟩
  refine ⟨tracksAfter, ?_, ?_⟩
  · funext query
    by_cases isEnt : query = ent
    · subst isEnt
      rw [Function.update_self]
      exact tracksAfter.deadline_eq_some.mpr new
    · rw [Function.update_of_ne isEnt]
      exact tracks.deadline_congr tracksAfter fun otherVal => member otherVal query isEnt
  · apply live_iff valid same
    rintro ⟨otherVal, query⟩ found
    by_cases isEnt : query = ent
    · exact isEnt ▸ live
    · exact tracks.live_ref ((member otherVal query isEnt).mp found)

/-- Removing the item of an entry and resetting its `heap_idx`. -/
theorem Retimed.of_delete (tracks : before.Tracks) (live : before.Live ent) {val : UInt64}
    (valid : after.Valid) (perm : before.heap.Perm (⟨val, ent⟩ :: after.heap))
    (same : Mem.SameOutside (after.heap.map HeapItem.ref) before.heapIdx after.heapIdx) :
    Retimed before ent none { after with heapIdx := after.heapIdx.put ent none } := by
  have distinct : ent ∉ after.heap.map HeapItem.ref :=
    (List.nodup_cons.mp ((perm.map HeapItem.ref).nodup_iff.mp tracks.valid.indexed.nodup)).1
  have validAfter : Valid { after with heapIdx := after.heapIdx.put ent none } := by
    refine ⟨valid.ordered, ?_⟩
    intro slot item found
    have different : item.ref ≠ ent :=
      ne_of_mem_of_not_mem (List.mem_map_of_mem (List.mem_of_getElem? found)) distinct
    rw [Mem.put_ne _ different]
    exact valid.indexed slot item found
  have tracksAfter : Tracks { after with heapIdx := after.heapIdx.put ent none } := by
    apply validAfter.tracks
    intro query pos absent set
    by_cases isEnt : query = ent
    · rw [isEnt, Mem.put_self] at set
      cases set
    · rw [Mem.put_ne _ isEnt, same.cell query absent] at set
      obtain ⟨item, found, rfl⟩ := tracks.pointed query pos set
      rcases List.mem_cons.mp (perm.mem_iff.mp (List.mem_of_getElem? found)) with rfl | member
      · exact isEnt rfl
      · exact absent (List.mem_map_of_mem member)
  refine ⟨tracksAfter, ?_, ?_⟩
  · funext query
    by_cases isEnt : query = ent
    · subst isEnt
      rw [Function.update_self]
      exact tracksAfter.deadline_eq_none.mpr distinct
    · rw [Function.update_of_ne isEnt]
      apply tracks.deadline_congr tracksAfter
      intro otherVal
      rw [perm.mem_iff, List.mem_cons, HeapItem.mk.injEq]
      exact ⟨Or.inr, fun member => member.resolve_left fun same => isEnt same.2⟩
  · intro query
    by_cases isEnt : query = ent
    · subst isEnt
      exact ⟨fun _ => live, fun _ => ⟨none, Mem.put_self _ _ _⟩⟩
    · rw [← live_iff valid same (fun item member =>
        tracks.live_ref (perm.mem_iff.mpr (List.mem_cons_of_mem _ member))) query,
        Live, Live, Mem.put_ne _ isEnt]

end Timers

open Timers

variable {timers : Timers} {ent : Ptr}

/-- Deleting the item of an entry and resetting its `heap_idx`. -/
theorem entryDropTimer_spec (tracks : timers.Tracks) {pos : Nat}
    (set : timers.heapIdx.cell ent = some (some pos)) :
    Exec.Returns (entryDropTimer timers ent pos) fun after => Retimed timers ent none after := by
  obtain ⟨val, found, -⟩ := tracks.deadline_of_cell set
  obtain ⟨after, deleteEq, valid, perm, same⟩ := heapDelete_spec tracks.valid found
  have live := live_iff valid same fun item member =>
    tracks.live_ref (perm.mem_iff.mpr (List.mem_cons_of_mem _ member))
  obtain ⟨old, entLive⟩ := (live ent).mpr ⟨_, set⟩
  simp only [entryDropTimer, deleteEq, Exec.ok_bind, Mem.write_eq entLive, Exec.pure_eq_ok,
    Exec.returns_ok]
  exact .of_delete tracks ⟨_, set⟩ valid perm same

/-- The first lines of `entry_del` take the deadline of the entry away. -/
theorem entryClearTimer_spec (tracks : timers.Tracks) (live : timers.Live ent) :
    Exec.Returns (entryClearTimer timers ent) fun after => Retimed timers ent none after := by
  obtain ⟨idx, set⟩ := live
  cases idx with
  | none =>
      have none : timers.deadline ent = none := by simp [Timers.deadline, set]
      simp only [entryClearTimer, Mem.read_eq set, Exec.ok_bind, Exec.pure_eq_ok, Exec.returns_ok]
      exact .refl tracks none
  | some pos =>
      simp only [entryClearTimer, Mem.read_eq set, Exec.ok_bind]
      exact entryDropTimer_spec tracks set

/-- `entry_set_ttl` sets the deadline, or takes it away when the TTL is negative. -/
theorem entrySetTtl_spec (tracks : timers.Tracks) (live : timers.Live ent) (ttlMs : Int)
    (now : UInt64) :
    Exec.Returns (entrySetTtl timers ent ttlMs now) fun after =>
      Retimed timers ent
        (if ttlMs < 0 then none else some (now + UInt64.ofNat ttlMs.toNat)) after := by
  obtain ⟨idx, set⟩ := live
  simp only [entrySetTtl, Mem.read_eq set, Exec.ok_bind]
  by_cases negative : ttlMs < 0
  · rw [if_pos negative, if_pos negative]
    cases idx with
    | none => exact .of_ok (.refl tracks (by simp [Timers.deadline, set]))
    | some pos => exact entryDropTimer_spec tracks set
  · rw [if_neg negative, if_neg negative]
    cases idx with
    | none =>
        have none : timers.deadline ent = none := by simp [Timers.deadline, set]
        obtain ⟨after, upsertEq, valid, perm, same⟩ :=
          @heapUpsert_new timers tracks.valid ⟨now + UInt64.ofNat ttlMs.toNat, ent⟩ _ set
            (tracks.deadline_eq_none.mp none)
        exact ⟨after, upsertEq,
          .of_upsert tracks ⟨_, set⟩ valid perm (fun _ _ _ => Iff.rfl) same⟩
    | some pos =>
        obtain ⟨val, found, -⟩ := tracks.deadline_of_cell set
        obtain ⟨after, upsertEq, valid, ⟨rest, oldPerm, perm⟩, same⟩ :=
          @heapUpsert_update timers tracks.valid pos ⟨val, ent⟩
            ⟨now + UInt64.ofNat ttlMs.toNat, ent⟩ found rfl
        refine ⟨after, upsertEq, .of_upsert tracks ⟨_, set⟩ valid perm ?_ same⟩
        intro otherVal query different
        rw [oldPerm.mem_iff, List.mem_cons]
        simp [different]

end RedisLite
