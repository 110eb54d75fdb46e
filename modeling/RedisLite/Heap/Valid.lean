import RedisLite.Heap.Core
import RedisLite.Lib.HeapOrder
import Mathlib.Data.List.Nodup
import Mathlib.Order.Nat

/-!
# The heap invariant

`Timers.Valid`: the items are in heap order, they point to distinct entries, and
the `heap_idx` of the entry of every item is the index of the item.

`heap_up` and `heap_down` save one item and move others over the slot it leaves,
the hole.  `Sifting` describes these states: with the saved item put back into the
hole, the array is a permutation of the original one.
-/

namespace RedisLite

open Lib Lib.HeapOrder

/-- The deadline in a slot of an array. -/
def keyAt (heap : List HeapItem) (slot : Nat) : Nat :=
  ((heap[slot]?).map fun item => item.val.toNat).getD 0

theorem keyAt_eq {heap : List HeapItem} {slot : Nat} {item : HeapItem}
    (found : heap[slot]? = some item) : keyAt heap slot = item.val.toNat := by
  simp [keyAt, found]

theorem keyAt_set_self {heap : List HeapItem} {pos : Nat} (inside : pos < heap.length)
    (item : HeapItem) : keyAt (heap.set pos item) pos = item.val.toNat :=
  keyAt_eq (by simp [inside])

theorem keyAt_set_ne {heap : List HeapItem} {pos slot : Nat} (different : slot ≠ pos)
    (item : HeapItem) : keyAt (heap.set pos item) slot = keyAt heap slot := by
  simp [keyAt, List.getElem?_set_ne (Ne.symm different)]

namespace Timers

/-- The `heap_idx` of the entry of every item is the index of the item. -/
def Indexed (timers : Timers) : Prop :=
  ∀ slot item, timers.heap[slot]? = some item →
    timers.heapIdx.cell item.ref = some (some slot)

/-- The invariant of the heap and the indices into it. -/
structure Valid (timers : Timers) : Prop where
  ordered : Ordered timers.heap.length (keyAt timers.heap)
  indexed : timers.Indexed

theorem valid_empty : ({} : Timers).Valid :=
  ⟨fun _ _ inside => absurd inside (Nat.not_lt_zero _), fun _ _ found => by cases found⟩

theorem Indexed.nodup {timers : Timers} (indexed : timers.Indexed) :
    (timers.heap.map HeapItem.ref).Nodup := by
  rw [List.nodup_iff_injective_getElem]
  intro ⟨left, leftInside⟩ ⟨right, rightInside⟩ same
  rw [List.length_map] at leftInside rightInside
  simp only [List.getElem_map] at same
  have leftIdx := indexed left _ (List.getElem?_eq_getElem leftInside)
  have rightIdx := indexed right _ (List.getElem?_eq_getElem rightInside)
  rw [same, rightIdx] at leftIdx
  simpa using leftIdx.symm

theorem place_eq {timers : Timers} {pos : Nat} {item : HeapItem} {old : Option Nat}
    (inside : pos < timers.heap.length) (live : timers.heapIdx.cell item.ref = some old) :
    timers.place pos item = .ok
      ⟨timers.heap.set pos item, timers.heapIdx.put item.ref (some pos)⟩ := by
  simp [place, inside, Mem.write_eq live]

end Timers

/-- The state in the loops of `heap_up` and `heap_down`: `t` is the saved item and
`pos` the hole; `items` and `before` are the array and the indices at the start. -/
structure Sifting (items : List HeapItem) (before : Mem (Option Nat)) (t : HeapItem)
    (timers : Timers) (pos : Nat) : Prop where
  inside : pos < timers.heap.length
  perm : (timers.heap.set pos t).Perm items
  live : ∀ item ∈ items, ∃ old, timers.heapIdx.cell item.ref = some old
  indexed : ∀ slot item, slot ≠ pos → timers.heap[slot]? = some item →
    timers.heapIdx.cell item.ref = some (some slot)
  same : Mem.SameOutside (items.map HeapItem.ref) before timers.heapIdx

namespace Sifting

variable {items : List HeapItem} {before : Mem (Option Nat)} {t item : HeapItem}
  {timers : Timers} {pos other : Nat}

theorem length_eq (sifting : Sifting items before t timers pos) :
    timers.heap.length = items.length := by
  simpa using sifting.perm.length_eq

theorem saved_mem (sifting : Sifting items before t timers pos) : t ∈ items :=
  sifting.perm.mem_iff.mp (List.mem_set sifting.inside t)

/-- Moving the item of another slot into the hole makes that slot the hole. -/
theorem move (sifting : Sifting items before t timers pos)
    (distinct : (items.map HeapItem.ref).Nodup) (different : other ≠ pos)
    (found : timers.heap[other]? = some item) :
    ∃ after, timers.place pos item = .ok after ∧ Sifting items before t after other ∧
      keyAt (after.heap.set other t) = exchange (keyAt (timers.heap.set pos t)) pos other := by
  have inside := sifting.inside
  obtain ⟨otherInside, itemEq⟩ := List.getElem?_eq_some_iff.mp found
  let whole := timers.heap.set pos t
  have wholeOther : whole[other]? = some item := by
    rw [List.getElem?_set_ne (Ne.symm different), found]
  have itemMem : item ∈ items := sifting.perm.mem_iff.mp (List.mem_of_getElem? wholeOther)
  obtain ⟨old, live⟩ := sifting.live item itemMem
  refine ⟨_, Timers.place_eq inside live, ⟨?_, ?_, ?_, ?_, ?_⟩, ?_⟩
  · simpa using otherInside
  · refine List.Perm.trans ?_ sifting.perm
    have wholeInside : pos < whole.length := by simpa [whole] using inside
    have wholeOtherInside : other < whole.length := by simpa [whole] using otherInside
    have exchanged := List.set_set_perm wholeInside wholeOtherInside
    have atPos : whole[pos] = t := by simp [whole]
    have atOther : whole[other] = item := by
      simpa [List.getElem?_eq_getElem wholeOtherInside] using wholeOther
    rw [atPos, atOther] at exchanged
    simpa [whole] using exchanged
  · intro query member
    by_cases isItem : query.ref = item.ref
    · exact ⟨some pos, by rw [isItem, Mem.put_self]⟩
    · obtain ⟨value, queryLive⟩ := sifting.live query member
      exact ⟨value, by rw [Mem.put_ne _ isItem, queryLive]⟩
  · intro slot query notOther slotFound
    simp only [List.getElem?_set] at slotFound
    split at slotFound
    · rename_i isPos
      subst isPos
      simp only [Option.some.injEq] at slotFound
      rw [← slotFound, Mem.put_self]
    · rename_i notPos
      have refs : query.ref ≠ item.ref := by
        intro same
        have wholeSlot : whole[slot]? = some query := by
          rw [List.getElem?_set_ne notPos, slotFound]
        have nodup : (whole.map HeapItem.ref).Nodup :=
          (sifting.perm.map HeapItem.ref).nodup_iff.mpr distinct
        apply notOther
        apply (List.getElem?_inj (by simpa using (List.getElem?_eq_some_iff.mp wholeSlot).1)
          nodup).mp
        rw [List.getElem?_map, List.getElem?_map, wholeSlot, wholeOther]
        simp [same]
      rw [Mem.put_ne _ refs]
      exact sifting.indexed slot query (Ne.symm notPos) slotFound
  · refine sifting.same.trans ((Mem.SameOutside.put live (some pos)).mono _ ?_)
    simpa using ⟨item, itemMem, rfl⟩
  · funext slot
    by_cases isPos : slot = pos
    · subst isPos
      rw [exchange_left, keyAt_set_ne (Ne.symm different), keyAt_set_self inside,
        keyAt_set_ne different, keyAt_eq found]
    · by_cases isOther : slot = other
      · subst isOther
        rw [exchange_right, keyAt_set_self (by simpa using otherInside), keyAt_set_self inside]
      · rw [exchange_other _ isPos isOther, keyAt_set_ne isOther, keyAt_set_ne isPos,
          keyAt_set_ne isPos]

/-- Putting the saved item into a hole where it fits ends the sift. -/
theorem finish (sifting : Sifting items before t timers pos)
    (distinct : (items.map HeapItem.ref).Nodup)
    (ordered : Ordered timers.heap.length (keyAt (timers.heap.set pos t))) :
    Exec.Returns (timers.place pos t) fun after =>
      after.Valid ∧ after.heap.Perm items ∧
        Mem.SameOutside (items.map HeapItem.ref) before after.heapIdx := by
  have inside := sifting.inside
  obtain ⟨old, live⟩ := sifting.live t sifting.saved_mem
  rw [Timers.place_eq inside live, Exec.returns_ok]
  refine ⟨⟨by simpa using ordered, ?_⟩, sifting.perm, ?_⟩
  · intro slot query slotFound
    by_cases isPos : slot = pos
    · subst isPos
      simp only [List.getElem?_set_self inside, Option.some.injEq] at slotFound
      rw [← slotFound, Mem.put_self]
    · have refs : query.ref ≠ t.ref := by
        intro same
        have nodup : ((timers.heap.set pos t).map HeapItem.ref).Nodup :=
          (sifting.perm.map HeapItem.ref).nodup_iff.mpr distinct
        apply isPos
        apply (List.getElem?_inj (by simpa using (List.getElem?_eq_some_iff.mp slotFound).1)
          nodup).mp
        rw [List.getElem?_map, List.getElem?_map, slotFound, List.getElem?_set_self inside]
        simp [same]
      rw [Mem.put_ne _ refs]
      exact sifting.indexed slot query isPos
        (by rwa [List.getElem?_set_ne (Ne.symm isPos)] at slotFound)
  · refine sifting.same.trans ((Mem.SameOutside.put live (some pos)).mono _ ?_)
    simpa using ⟨t, sifting.saved_mem, rfl⟩

end Sifting

end RedisLite
