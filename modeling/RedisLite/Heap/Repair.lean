import RedisLite.Heap.Operations
import Mathlib.Tactic.IntervalCases

/-!
# Repair of one slot

The checks that `test_heap.cpp` makes of a heap describe exactly the invariant, and
`heap_update` restores them after any one item has been replaced.
-/

namespace RedisLite

open Lib Lib.HeapOrder

/-- The checks of `verify` in `test_heap.cpp` for every slot `i` of the array. -/
def Timers.Verified (timers : Timers) : Prop :=
  ∀ i item, timers.heap[i]? = some item →
    (∀ left, timers.heap[heapLeft i]? = some left → left.val ≥ item.val) ∧
    (∀ right, timers.heap[heapRight i]? = some right → right.val ≥ item.val) ∧
    timers.heapIdx.cell item.ref = some (some i)

/-- The test checks the order between every slot and its parent. -/
theorem Timers.verified_iff {timers : Timers} : timers.Verified ↔ timers.Valid := by
  constructor
  · intro verified
    refine ⟨?_, fun i item found => (verified i item found).2.2⟩
    intro slot positive inside
    have above := parent_lt positive
    have kid := List.getElem?_eq_getElem inside
    have found : timers.heap[parent slot]? = some timers.heap[parent slot] :=
      List.getElem?_eq_getElem (above.trans inside)
    obtain ⟨leftLe, rightLe, -⟩ := verified (parent slot) _ found
    rw [keyAt_eq kid, keyAt_eq found]
    rcases (kid_iff positive).mp rfl with isLeft | isRight
    · exact UInt64.le_iff_toNat_le.mp (leftLe _ (isLeft ▸ kid))
    · exact UInt64.le_iff_toNat_le.mp (rightLe _ (isRight ▸ kid))
  · intro valid i item found
    have below : ∀ kid other, kid = heapLeft i ∨ kid = heapRight i →
        timers.heap[kid]? = some other → other.val ≥ item.val := by
      intro kid other isKid kidFound
      have positive : 0 < kid := by
        unfold heapLeft heapRight at isKid
        omega
      have order := valid.ordered kid positive (List.getElem?_eq_some_iff.mp kidFound).1
      rw [(kid_iff positive).mpr isKid, keyAt_eq found, keyAt_eq kidFound] at order
      exact UInt64.le_iff_toNat_le.mpr order
    exact ⟨fun left => below _ left (.inl rfl), fun right => below _ right (.inr rfl),
      valid.indexed i item found⟩

/-- `heap_update` repairs a heap in which one item has been replaced by any other.  It
returns, so that every index it uses is below the length; the array is permuted, and
all checks of the test hold again. -/
theorem heapUpdate_repairs {timers : Timers} (verified : timers.Verified) {pos : Nat}
    (inside : pos < timers.heap.length) (item : HeapItem) (stored : Option Nat)
    (distinct : ∀ slot other, slot ≠ pos → timers.heap[slot]? = some other →
      other.ref ≠ item.ref) :
    Exec.Returns
      (heapUpdate ⟨timers.heap.set pos item, timers.heapIdx.put item.ref stored⟩ pos
        timers.heap.length)
      fun after => after.heap.Perm (timers.heap.set pos item) ∧ after.Verified := by
  have changed := (Timers.verified_iff.mp verified).changed inside distinct
    ⟨stored, Mem.put_self timers.heapIdx item.ref stored⟩
    fun entry other => Mem.put_ne timers.heapIdx other stored
  have repaired := heapUpdate_spec changed
  rw [List.length_set] at repaired
  exact repaired.mono fun _ updated => ⟨updated.perm, Timers.verified_iff.mpr updated.valid⟩

/-- Three timers at indices 0, 1 and 2. -/
def threeTimers : Timers where
  heap := [⟨1, 0⟩, ⟨3, 1⟩, ⟨2, 2⟩]
  heapIdx := ((Mem.empty.put 0 (some 0)).put 1 (some 1)).put 2 (some 2)

theorem threeTimers_verified : threeTimers.Verified := by
  intro i item found
  have inside : i < 3 := (List.getElem?_eq_some_iff.mp found).1
  interval_cases i <;> cases found <;> simp [threeTimers, heapLeft, heapRight]

/-- The root is replaced by a later timer of another entry, with a stale index. -/
theorem heapUpdate_repairs_root :
    Exec.Returns
      (heapUpdate ⟨threeTimers.heap.set 0 ⟨9, 7⟩, threeTimers.heapIdx.put 7 (some 5)⟩ 0 3)
      fun after => after.heap.Perm (threeTimers.heap.set 0 ⟨9, 7⟩) ∧ after.Verified :=
  heapUpdate_repairs threeTimers_verified (by decide) ⟨9, 7⟩ (some 5) (by
    intro slot other _ found
    have member := List.mem_of_getElem? found
    simp only [threeTimers, List.mem_cons, List.not_mem_nil, or_false] at member
    rcases member with rfl | rfl | rfl <;> decide)

end RedisLite
