import Mathlib.Algebra.Group.Nat.Defs
import Mathlib.Order.Lattice
import Mathlib.Logic.Equiv.Basic
import Mathlib.Tactic.Common

/-!
# Binary heap order

The order of an implicit binary heap, as a property of the function from slots to
keys, and of the states in which one slot (the hole) is out of order.  Exchanging
the hole with its parent or with its smallest child moves the hole; when the hole
fits, the heap is in order.
-/

namespace Lib.HeapOrder

universe u

/-- The parent of a slot other than the first. -/
def parent (slot : Nat) : Nat := (slot + 1) / 2 - 1

variable {K : Type u} [LinearOrder K] {count hole : Nat} {key : Nat → K}

/-- No slot is below its parent. -/
def Ordered (count : Nat) (key : Nat → K) : Prop :=
  ∀ slot, 0 < slot → slot < count → key (parent slot) ≤ key slot

/-- The slots away from the hole are in order, and those under the hole are not
below those over it. -/
structure Holed (count : Nat) (key : Nat → K) (hole : Nat) : Prop where
  away : ∀ slot, 0 < slot → slot < count → slot ≠ hole → parent slot ≠ hole →
    key (parent slot) ≤ key slot
  across : ∀ slot, 0 < slot → slot < count → parent slot = hole → 0 < hole →
    key (parent hole) ≤ key slot

/-- The key in the hole is not above the slots under it. -/
def FitsBelow (count : Nat) (key : Nat → K) (hole : Nat) : Prop :=
  ∀ slot, 0 < slot → slot < count → parent slot = hole → key hole ≤ key slot

/-- The key in the hole is not below the slot over it. -/
def FitsAbove (key : Nat → K) (hole : Nat) : Prop :=
  0 < hole → key (parent hole) ≤ key hole

theorem parent_lt {slot : Nat} (positive : 0 < slot) : parent slot < slot := by
  unfold parent
  omega

theorem Ordered.first_le (ordered : Ordered count key) {slot : Nat} (inside : slot < count) :
    key 0 ≤ key slot := by
  induction slot using Nat.strongRecOn with
  | ind slot ih =>
      rcases Nat.eq_zero_or_pos slot with rfl | positive
      · exact le_refl _
      · have less := parent_lt positive
        exact (ih (parent slot) less (by omega)).trans (ordered slot positive inside)

theorem Ordered.mono (ordered : Ordered count key) {fewer : Nat} (le : fewer ≤ count) :
    Ordered fewer key :=
  fun slot positive inside => ordered slot positive (by omega)

theorem Ordered.congr (ordered : Ordered count key) {other : Nat → K}
    (same : ∀ slot < count, other slot = key slot) : Ordered count other := by
  intro slot positive inside
  have less := parent_lt positive
  rw [same slot inside, same (parent slot) (by omega)]
  exact ordered slot positive inside

/-- Changing one slot makes it the hole. -/
theorem Ordered.holed (ordered : Ordered count key) {changed : Nat → K}
    (same : ∀ slot < count, slot ≠ hole → changed slot = key slot) (inside : hole < count) :
    Holed count changed hole where
  away := by
    intro slot positive below notHole parentNot
    have less := parent_lt positive
    rw [same slot below notHole, same (parent slot) (by omega) parentNot]
    exact ordered slot positive below
  across := by
    intro slot positive below under holePos
    have slotNot : slot ≠ hole := by
      rintro rfl
      have := parent_lt positive
      omega
    have less := parent_lt holePos
    rw [same slot below slotNot, same (parent hole) (by omega) (by omega)]
    have lower := ordered slot positive below
    rw [under] at lower
    exact (ordered hole holePos inside).trans lower

theorem Holed.ordered (holed : Holed count key hole) (above : FitsAbove key hole)
    (below : FitsBelow count key hole) : Ordered count key := by
  intro slot positive inside
  by_cases isHole : slot = hole
  · subst isHole
    exact above positive
  · by_cases under : parent slot = hole
    · rw [under]
      exact below slot positive inside under
    · exact holed.away slot positive inside isHole under

theorem Holed.fitsBelow (holed : Holed count key hole) (positive : 0 < hole)
    (less : key hole < key (parent hole)) : FitsBelow count key hole :=
  fun slot slotPos inside under =>
    less.le.trans (holed.across slot slotPos inside under positive)

/-- The keys after two slots are exchanged. -/
def exchange (key : Nat → K) (left right : Nat) : Nat → K :=
  fun slot => key (Equiv.swap left right slot)

omit [LinearOrder K] in
@[simp] theorem exchange_left (key : Nat → K) (left right : Nat) :
    exchange key left right left = key right := by
  simp [exchange]

omit [LinearOrder K] in
@[simp] theorem exchange_right (key : Nat → K) (left right : Nat) :
    exchange key left right right = key left := by
  simp [exchange]

omit [LinearOrder K] in
theorem exchange_other (key : Nat → K) {left right slot : Nat} (notLeft : slot ≠ left)
    (notRight : slot ≠ right) : exchange key left right slot = key slot := by
  simp [exchange, Equiv.swap_apply_of_ne_of_ne notLeft notRight]

/-- Exchanging a hole that is below its parent with the parent. -/
theorem Holed.up (holed : Holed count key hole) (below : FitsBelow count key hole)
    (positive : 0 < hole) (inside : hole < count) (less : key hole < key (parent hole)) :
    Holed count (exchange key hole (parent hole)) (parent hole) ∧
      FitsBelow count (exchange key hole (parent hole)) (parent hole) := by
  have parentLess := parent_lt positive
  -- the parent's other child, and the parent itself, are in order with the parent
  have siblings : ∀ slot, 0 < slot → slot < count → slot ≠ hole → parent slot = parent hole →
      key (parent hole) ≤ key slot := by
    intro slot slotPos slotInside notHole same
    have order := holed.away slot slotPos slotInside notHole (by omega)
    rwa [same] at order
  have upper : 0 < parent hole → key (parent (parent hole)) ≤ key (parent hole) := by
    intro parentPos
    have grand := parent_lt parentPos
    exact holed.away (parent hole) parentPos (by omega) (by omega) (by omega)
  refine ⟨⟨?_, ?_⟩, ?_⟩
  · intro slot slotPos slotInside notParent parentNot
    have slotNotHole : slot ≠ hole := by
      rintro rfl
      exact parentNot rfl
    rw [exchange_other key slotNotHole notParent]
    by_cases under : parent slot = hole
    · rw [under, exchange_left]
      exact holed.across slot slotPos slotInside under positive
    · rw [exchange_other key under parentNot]
      exact holed.away slot slotPos slotInside slotNotHole under
  · intro slot slotPos slotInside under parentPos
    have grand := parent_lt parentPos
    rw [exchange_other key (by omega : parent (parent hole) ≠ hole)
      (by omega : parent (parent hole) ≠ parent hole)]
    by_cases isHole : slot = hole
    · rw [isHole, exchange_left]
      exact upper parentPos
    · have slotLess := parent_lt slotPos
      rw [exchange_other key isHole (by omega)]
      exact (upper parentPos).trans (siblings slot slotPos slotInside isHole under)
  · intro slot slotPos slotInside under
    rw [exchange_right]
    by_cases isHole : slot = hole
    · rw [isHole, exchange_left]
      exact less.le
    · have slotLess := parent_lt slotPos
      rw [exchange_other key isHole (by omega)]
      exact less.le.trans (siblings slot slotPos slotInside isHole under)

/-- Exchanging a hole with the smallest slot under it. -/
theorem Holed.down (holed : Holed count key hole) (above : FitsAbove key hole) {child : Nat}
    (positive : 0 < child) (inside : child < count) (under : parent child = hole)
    (less : key child < key hole)
    (smallest : ∀ slot, 0 < slot → slot < count → parent slot = hole → key child ≤ key slot) :
    Holed count (exchange key hole child) child ∧
      FitsAbove (exchange key hole child) child := by
  have holeLess : hole < child := under ▸ parent_lt positive
  refine ⟨⟨?_, ?_⟩, ?_⟩
  · intro slot slotPos slotInside notChild parentNot
    have slotLess := parent_lt slotPos
    by_cases isHole : slot = hole
    · subst isHole
      rw [exchange_left, exchange_other key (by omega) parentNot]
      exact holed.across child positive inside under slotPos
    · rw [exchange_other key isHole notChild]
      by_cases ofHole : parent slot = hole
      · rw [ofHole, exchange_left]
        exact smallest slot slotPos slotInside ofHole
      · rw [exchange_other key ofHole parentNot]
        exact holed.away slot slotPos slotInside isHole ofHole
  · intro slot slotPos slotInside ofChild _
    have slotLess := parent_lt slotPos
    rw [under, exchange_left, exchange_other key (by omega) (by omega)]
    have order := holed.away slot slotPos slotInside (by omega) (by omega)
    rwa [ofChild] at order
  · intro _
    rw [under, exchange_left, exchange_right]
    exact less.le

end Lib.HeapOrder
