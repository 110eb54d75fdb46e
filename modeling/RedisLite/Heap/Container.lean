import RedisLite.Heap.Repair
import Mathlib.Data.Multiset.AddSub

/-!
# The tests of the heap pass

`test_heap.cpp` wraps the heap into a container with a `std::multimap` from values to the
`Data` that the items point to.  Every sequence of its `add`, `del` and `verify` passes all
assertions, provided that each `del` is for a value that is there.
-/

namespace RedisLite

namespace TestHeap

open Lib Lib.HeapOrder

/-- `struct Container`; the `heap_idx` fields of its `struct Data` are in `timers`, and the
pairs of `map` stand in the order of their insertion. -/
structure Container where
  timers : Timers := {}
  map : List (UInt64 × Ptr) := []

def add (container : Container) (val : UInt64) : Exec Container := do
  let (heapIdx, d) := container.timers.heapIdx.alloc none
  let map := container.map ++ [(val, d)]
  let heap := container.timers.heap ++ [{ val := val, ref := d }]
  let timers ← heapUpdate { heap := heap, heapIdx := heapIdx } (heap.length - 1) heap.length
  return { timers := timers, map := map }

/-- `del`; `at` with an index out of range throws. -/
def del (container : Container) (val : UInt64) : Exec Container := do
  let it := container.map.find? fun pair => pair.1 = val
  Exec.assert it.isSome
  let (_, d) ← Exec.deref it
  let idx ← Exec.deref (← container.timers.heapIdx.read d)
  let item ← Exec.deref container.timers.heap[idx]?
  Exec.assert (item.val = val)
  Exec.assert (item.ref = d)
  let back ← Exec.deref container.timers.heap.getLast?
  let heap := (container.timers.heap.set idx back).dropLast
  let timers := { container.timers with heap := heap }
  let timers ← if idx < heap.length then heapUpdate timers idx heap.length else .ok timers
  let heapIdx ← timers.heapIdx.free d
  return { timers := { timers with heapIdx := heapIdx }, map := container.map.erase (val, d) }

/-- `assert(kid >= c.heap.size() || c.heap[kid].val >= c.heap[i].val)`. -/
def verifyKid (heap : List HeapItem) (item : HeapItem) (kid : Nat) : Exec PUnit.{1} :=
  match heap[kid]? with
  | none => .ok ⟨⟩
  | some other => Exec.assert (other.val ≥ item.val)

/-- The assertions of `verify` about the slot `i`. -/
def verifySlot (timers : Timers) (i : Nat) : Exec PUnit.{1} := do
  let item ← Exec.deref timers.heap[i]?
  verifyKid timers.heap item (heapLeft i)
  verifyKid timers.heap item (heapRight i)
  Exec.assert ((← timers.heapIdx.read item.ref) = some i)

def verify (container : Container) : Exec PUnit.{1} := do
  Exec.assert (container.timers.heap.length = container.map.length)
  forM (List.range container.timers.heap.length) (verifySlot container.timers)

def dispose (container : Container) : Exec (Mem (Option Nat)) :=
  container.map.foldlM (fun heapIdx pair => heapIdx.free pair.2) container.timers.heapIdx

/-- A statement of the tests. -/
inductive Call where
  | add (val : UInt64)
  | del (val : UInt64)
  | verify

/-- Execute a statement of the tests. -/
def Call.run : Call → Container → Exec Container
  | .add val, container => TestHeap.add container val
  | .del val, container => TestHeap.del container val
  | .verify, container => do
      TestHeap.verify container
      return container

/-- A test: statements on a new container, which is disposed of at the end. -/
def test (calls : List Call) : Exec (Mem (Option Nat)) := do
  let container ← calls.foldlM (fun container call => call.run container) {}
  dispose container

/-- Every `del` is for a value that has been added and not deleted yet. -/
def Legal (calls : List Call) (present : Multiset UInt64) : Prop :=
  match calls with
  | [] => True
  | .add val :: calls => Legal calls (val ::ₘ present)
  | .del val :: calls => val ∈ present ∧ Legal calls (present.erase val)
  | .verify :: calls => Legal calls present

/-- The entry of the map for an item. -/
def entry (item : HeapItem) : UInt64 × Ptr := (item.val, item.ref)

/-- The heap is valid, and its items are the entries of the map, which point to all the
`Data` there are. -/
structure Holds (container : Container) : Prop where
  valid : container.timers.Valid
  entries : (container.timers.heap.map entry).Perm container.map
  owned : ∀ d stored, container.timers.heapIdx.cell d = some stored →
    d ∈ container.timers.heap.map HeapItem.ref

/-- The values in the map. -/
def Container.values (container : Container) : Multiset UInt64 := ↑(container.map.map Prod.fst)

theorem holds_empty : Holds {} where
  valid := Timers.valid_empty
  entries := .refl _
  owned := by
    intro d stored live
    cases live

/-- The assertions of `verify` about the slots describe the heap invariant. -/
theorem verifySlots_eq {timers : Timers} (verified : timers.Verified) :
    forM (List.range timers.heap.length) (verifySlot timers) = .ok ⟨⟩ := by
  have passes : ∀ i ∈ List.range timers.heap.length, verifySlot timers i = .ok ⟨⟩ := by
    intro i member
    have inside := List.mem_range.mp member
    have found := List.getElem?_eq_getElem inside
    obtain ⟨leftAbove, rightAbove, live⟩ := verified i _ found
    have kid : ∀ kid, (∀ other, timers.heap[kid]? = some other →
        other.val ≥ timers.heap[i].val) → verifyKid timers.heap timers.heap[i] kid = .ok ⟨⟩ := by
      intro kid above
      rw [verifyKid]
      cases kidFound : timers.heap[kid]? with
      | none => rfl
      | some other => exact Exec.assert_of (above other kidFound)
    simp only [verifySlot, found, Exec.deref_some, Exec.ok_bind, kid _ leftAbove,
      kid _ rightAbove, Mem.read_eq live, decide_true, Exec.assert_true]
  exact Exec.forM_eq_ok.mpr passes

theorem add_eq (container : Container) (val : UInt64) :
    let d := container.timers.heapIdx.next
    add container val = (do
      let timers ← heapUpsert
        { container.timers with heapIdx := container.timers.heapIdx.put d none } none ⟨val, d⟩
      return { timers := timers, map := container.map ++ [(val, d)] }) := by
  simp [add, heapUpsert, Mem.alloc]

namespace Holds

variable {container : Container}

theorem verify_eq (holds : Holds container) : verify container = .ok ⟨⟩ := by
  have lengths : container.timers.heap.length = container.map.length := by
    rw [← holds.entries.length_eq, List.length_map]
  simp only [verify, lengths, decide_true, Exec.assert_true, Exec.ok_bind]
  rw [← lengths]
  exact verifySlots_eq (Timers.verified_iff.mpr holds.valid)

/-- `add` adds an entry. -/
theorem add_spec (holds : Holds container) (val : UInt64) :
    Exec.Returns (add container val) fun after =>
      Holds after ∧ after.values = val ::ₘ container.values := by
  let d := container.timers.heapIdx.next
  have dead : d ∉ container.timers.heap.map HeapItem.ref := by
    intro member
    obtain ⟨item, itemMem, isRef⟩ := List.mem_map.mp member
    obtain ⟨slot, found⟩ := List.mem_iff_getElem?.mp itemMem
    have live := holds.valid.indexed slot item found
    rw [isRef, container.timers.heapIdx.alloc_dead] at live
    cases live
  have valid : Timers.Valid ⟨container.timers.heap, container.timers.heapIdx.put d none⟩ := by
    refine ⟨holds.valid.ordered, fun slot item found => ?_⟩
    have different : item.ref ≠ d :=
      ne_of_mem_of_not_mem (List.mem_map_of_mem (List.mem_of_getElem? found)) dead
    exact (Mem.put_ne _ different none).trans (holds.valid.indexed slot item found)
  obtain ⟨timers, upsertEq, after, perm, same⟩ :=
    @heapUpsert_new _ valid ⟨val, d⟩ none (Mem.put_self _ _ _) dead
  refine ⟨⟨timers, container.map ++ [(val, d)]⟩, ?_, ⟨after, ?_, ?_⟩, ?_⟩
  · simp [add_eq, upsertEq, d]
  · have perms := (perm.map entry).trans (holds.entries.cons (val, d))
    exact perms.trans (List.perm_append_singleton _ _).symm
  · intro other stored live
    by_cases member : other ∈ timers.heap.map HeapItem.ref
    · exact member
    · rw [same.cell other member] at live
      by_cases isNew : other = d
      · rw [(perm.map HeapItem.ref).mem_iff, isNew]
        exact List.mem_cons_self
      · rw [(perm.map HeapItem.ref).mem_iff]
        rw [Mem.put_ne _ isNew] at live
        exact List.mem_cons_of_mem _ (holds.owned other stored live)
  · rw [Container.values, Container.values, Multiset.cons_coe, Multiset.coe_eq_coe, List.map_append]
    exact List.perm_append_singleton _ _

/-- `del` deletes one entry of a value that is there. -/
theorem del_spec (holds : Holds container) {val : UInt64} (present : val ∈ container.values) :
    Exec.Returns (del container val) fun after =>
      Holds after ∧ after.values = container.values.erase val := by
  obtain ⟨⟨key, d⟩, findEq, pairMem⟩ : ∃ pair,
      container.map.find? (fun pair => pair.1 = val) = some pair ∧ pair ∈ container.map := by
    obtain ⟨pair, member, isVal⟩ := List.mem_map.mp (Multiset.mem_coe.mp present)
    have found : (container.map.find? fun pair => pair.1 = val).isSome :=
      List.find?_isSome.mpr ⟨pair, member, by simpa using isVal⟩
    obtain ⟨first, firstEq⟩ := Option.isSome_iff_exists.mp found
    exact ⟨first, firstEq, List.mem_of_find?_eq_some firstEq⟩
  obtain rfl : key = val := by simpa using List.find?_some findEq
  obtain ⟨item, itemMem, itemEq⟩ := List.mem_map.mp (holds.entries.mem_iff.mpr pairMem)
  obtain ⟨rfl, rfl⟩ : item.val = key ∧ item.ref = d := by simpa [entry] using itemEq
  obtain ⟨idx, found⟩ := List.mem_iff_getElem?.mp itemMem
  have live := holds.valid.indexed idx item found
  obtain ⟨timers, deleteEq, valid, perm, same⟩ := heapDelete_spec holds.valid found
  simp only [heapDelete, found, Exec.deref_some, Exec.ok_bind, Exec.bind_eq_ok] at deleteEq
  obtain ⟨back, backEq, deleteEq⟩ := deleteEq
  have outside : item.ref ∉ timers.heap.map HeapItem.ref :=
    (List.nodup_cons.mp ((perm.map HeapItem.ref).nodup_iff.mp holds.valid.indexed.nodup)).1
  have liveAfter : timers.heapIdx.cell item.ref = some (some idx) := by
    rw [same.cell _ outside, live]
  have pairEq : entry item = (item.val, item.ref) := rfl
  have entries := (perm.map entry).symm.trans holds.entries
  refine ⟨⟨{ timers with heapIdx := timers.heapIdx.drop item.ref },
    container.map.erase (item.val, item.ref)⟩, ?_, ⟨⟨valid.ordered, ?_⟩, ?_, ?_⟩, ?_⟩
  · simp only [del, findEq, Option.isSome_some, Exec.assert_true, Exec.ok_bind, Exec.deref_some,
      Mem.read_eq live, found, decide_true, backEq, Exec.pure_eq_ok]
    split
    · rename_i below
      rw [if_pos below] at deleteEq
      rw [deleteEq, Exec.ok_bind, Mem.free_eq liveAfter, Exec.ok_bind]
    · rename_i notBelow
      rw [if_neg notBelow] at deleteEq
      cases deleteEq
      rw [Mem.free_eq liveAfter, Exec.ok_bind]
  · intro slot other otherFound
    have different : other.ref ≠ item.ref :=
      ne_of_mem_of_not_mem (List.mem_map_of_mem (List.mem_of_getElem? otherFound)) outside
    rw [Mem.drop_cell, if_neg different]
    exact valid.indexed slot other otherFound
  · have erased := entries.erase (entry item)
    rwa [List.map_cons, List.erase_cons_head] at erased
  · intro other stored otherLive
    rw [Mem.drop_cell] at otherLive
    split at otherLive
    · cases otherLive
    · rename_i different
      by_cases member : other ∈ timers.heap.map HeapItem.ref
      · exact member
      · rw [same.cell other member] at otherLive
        have before := (perm.map HeapItem.ref).mem_iff.mp (holds.owned other stored otherLive)
        exact (List.mem_cons.mp before).resolve_left different
  · have perms : container.map.Perm
        ((item.val, item.ref) :: container.map.erase (item.val, item.ref)) :=
      List.perm_cons_erase pairMem
    have values := perms.map Prod.fst
    rw [List.map_cons] at values
    rw [Container.values, Container.values, Multiset.coe_erase, Multiset.coe_eq_coe]
    simpa using (values.erase item.val).symm

/-- `dispose` frees the `Data` of every entry. -/
theorem dispose_spec (holds : Holds container) :
    Exec.Returns (dispose container) fun heapIdx => ∀ d, heapIdx.cell d = none := by
  have refs : (container.map.map Prod.snd).Perm (container.timers.heap.map HeapItem.ref) := by
    have mapped := (holds.entries.map Prod.snd).symm
    rwa [List.map_map] at mapped
  have nodup := refs.nodup_iff.mpr holds.valid.indexed.nodup
  have live : ∀ d ∈ container.map.map Prod.snd, ∃ stored,
      container.timers.heapIdx.cell d = some stored := by
    intro d member
    obtain ⟨item, itemMem, rfl⟩ := List.mem_map.mp (refs.mem_iff.mp member)
    obtain ⟨slot, found⟩ := List.mem_iff_getElem?.mp itemMem
    exact ⟨_, holds.valid.indexed slot item found⟩
  have owned : ∀ d stored, container.timers.heapIdx.cell d = some stored →
      d ∈ container.map.map Prod.snd :=
    fun d stored cell => refs.mem_iff.mpr (holds.owned d stored cell)
  rw [dispose]
  generalize container.timers.heapIdx = heapIdx at live owned
  generalize container.map = pairs at nodup live owned
  induction pairs generalizing heapIdx with
  | nil =>
      refine ⟨heapIdx, rfl, fun d => ?_⟩
      refine Option.eq_none_iff_forall_ne_some.mpr fun stored cell => ?_
      exact absurd (owned d stored cell) List.not_mem_nil
  | cons pair pairs ih =>
      rw [List.map_cons, List.nodup_cons] at nodup
      obtain ⟨stored, cell⟩ := live pair.2 List.mem_cons_self
      rw [List.foldlM_cons, Mem.free_eq cell, Exec.ok_bind]
      refine ih (heapIdx.drop pair.2) nodup.2 ?_ ?_
      · intro d member
        obtain ⟨other, otherCell⟩ := live d (List.mem_cons_of_mem _ member)
        have different : d ≠ pair.2 := ne_of_mem_of_not_mem member nodup.1
        exact ⟨other, by rw [Mem.drop_cell, if_neg different, otherCell]⟩
      · intro d other otherCell
        rw [Mem.drop_cell] at otherCell
        split at otherCell
        · cases otherCell
        · rename_i different
          exact (List.mem_cons.mp (owned d other otherCell)).resolve_left different

theorem del_missing {val : UInt64} (missing : val ∉ container.values) :
    del container val = .error .assertion := by
  have notFound : (container.map.find? fun pair => pair.1 = val) = none := by
    refine List.find?_eq_none.mpr fun pair member isVal => missing ?_
    exact Multiset.mem_coe.mpr (List.mem_map.mpr ⟨pair, member, by simpa using isVal⟩)
  simp [del, notFound]

/-- The statements of a test all return when they are legal, and otherwise one of them fails
an assertion. -/
theorem runs_spec (holds : Holds container) (calls : List Call) :
    (Legal calls container.values ∧ Exec.Returns
      (calls.foldlM (fun container call => call.run container) container) Holds) ∨
    (¬ Legal calls container.values ∧
      calls.foldlM (fun container call => call.run container) container = .error .assertion) := by
  induction calls generalizing container with
  | nil => exact .inl ⟨trivial, container, rfl, holds⟩
  | cons call calls ih =>
      rw [List.foldlM_cons]
      cases call with
      | add val =>
          obtain ⟨after, eq, afterHolds, values⟩ := holds.add_spec val
          have turn : (Call.add val).run container = .ok after := eq
          rw [turn, Exec.ok_bind, Legal, ← values]
          exact ih afterHolds
      | del val =>
          by_cases present : val ∈ container.values
          · obtain ⟨after, eq, afterHolds, values⟩ := holds.del_spec present
            have turn : (Call.del val).run container = .ok after := eq
            rw [turn, Exec.ok_bind, Legal, ← values, and_iff_right present]
            exact ih afterHolds
          · have turn : (Call.del val).run container = .error .assertion := del_missing present
            rw [turn, Exec.error_bind]
            exact .inr ⟨fun legal => present legal.1, rfl⟩
      | verify =>
          have turn : Call.verify.run container = .ok container := by
            simp [Call.run, holds.verify_eq]
          rw [turn, Exec.ok_bind, Legal]
          exact ih holds

end Holds

/-- The tests of the heap pass exactly when they delete what is there: for every sequence of
`add`, `del` and `verify`, every assertion holds, every index and pointer is valid and every
`Data` is freed at the end, if and only if each `del` is for a value that has been added more
often than deleted before.  Otherwise an assertion fails. -/
theorem heap_tests_pass_iff (calls : List Call) :
    ((Exec.Returns (test calls) fun heapIdx => ∀ d, heapIdx.cell d = none) ↔ Legal calls 0) ∧
      (test calls = .error .assertion ↔ ¬ Legal calls 0) := by
  have empty : ({} : Container).values = 0 := rfl
  rcases empty ▸ holds_empty.runs_spec calls with ⟨legal, container, runs, holds⟩ | ⟨illegal, fails⟩
  · obtain ⟨heapIdx, eq, freed⟩ := holds.dispose_spec
    have passes : test calls = .ok heapIdx := by
      rw [test, runs, Exec.ok_bind, eq]
    rw [passes]
    refine ⟨⟨fun _ => legal, fun _ => .of_ok freed⟩, ?_, fun illegal => absurd legal illegal⟩
    intro fails
    cases fails
  · have stops : test calls = .error .assertion := by
      rw [test, fails, Exec.error_bind]
    rw [stops]
    refine ⟨⟨?_, fun legal => absurd legal illegal⟩, ⟨fun _ => illegal, fun _ => rfl⟩⟩
    rintro ⟨heapIdx, eq, -⟩
    cases eq

end TestHeap

end RedisLite
