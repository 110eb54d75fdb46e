import RedisLite.Lib.Exec
import Mathlib.Data.List.Nodup
import Mathlib.Data.List.Perm.Subperm

/-!
# Allocated cells

`Mem α` is a memory of cells of one type.  A pointer is the identity of a cell:
allocation never reuses an identity, so a pointer to a freed cell stays dead and
using it faults.  That no cell at or above `next` is allocated is a field of the
structure.

A struct field whose address is handed to another component (an intrusive node)
gets a `Mem` of its own, indexed by the identity of the enclosing object;
recovering the object from the field's address is then the identity.
-/

namespace Lib

universe u

/-- The identity of an allocated cell. -/
abbrev Ptr := Nat

/-- A memory of cells of type `α`. -/
structure Mem (α : Type u) where
  cell : Nat → Option α
  next : Nat
  fresh : ∀ pointer, next ≤ pointer → cell pointer = none

namespace Mem

variable {α : Type u}

/-- The memory without cells. -/
def empty : Mem α where
  cell := fun _ => none
  next := 0
  fresh := fun _ _ => rfl

@[simp] theorem empty_cell (pointer : Nat) : (empty : Mem α).cell pointer = none := rfl

theorem lt_next {mem : Mem α} {pointer : Nat} {value : α}
    (live : mem.cell pointer = some value) : pointer < mem.next := by
  by_contra notLess
  rw [mem.fresh pointer (Nat.le_of_not_lt notLess)] at live
  cases live

/-- The memory in which `pointer` holds `value`. -/
def put (mem : Mem α) (pointer : Nat) (value : α) : Mem α where
  cell := fun query => if query = pointer then some value else mem.cell query
  next := max mem.next (pointer + 1)
  fresh := by
    intro query above
    have different : query ≠ pointer := by omega
    rw [if_neg different]
    exact mem.fresh query (by omega)

@[simp] theorem put_cell (mem : Mem α) (pointer query : Nat) (value : α) :
    (mem.put pointer value).cell query =
      if query = pointer then some value else mem.cell query := rfl

theorem put_self (mem : Mem α) (pointer : Nat) (value : α) :
    (mem.put pointer value).cell pointer = some value := if_pos rfl

theorem put_ne (mem : Mem α) {pointer query : Nat} (different : query ≠ pointer) (value : α) :
    (mem.put pointer value).cell query = mem.cell query := if_neg different

theorem put_put_cell (mem : Mem α) (pointer : Nat) (first second : α) (query : Nat) :
    ((mem.put pointer first).put pointer second).cell query =
      if query = pointer then some second else mem.cell query := by
  simp only [put_cell]
  split <;> rfl

theorem put_next {mem : Mem α} {pointer : Nat} (below : pointer < mem.next)
    (value : α) : (mem.put pointer value).next = mem.next := by
  simp only [put]
  omega

/-- The memory without the cell `pointer`. -/
def drop (mem : Mem α) (pointer : Nat) : Mem α where
  cell := fun query => if query = pointer then none else mem.cell query
  next := mem.next
  fresh := by
    intro query above
    split
    · rfl
    · exact mem.fresh query above

@[simp] theorem drop_cell (mem : Mem α) (pointer query : Nat) :
    (mem.drop pointer).cell query =
      if query = pointer then none else mem.cell query := rfl

@[simp] theorem drop_next (mem : Mem α) (pointer : Nat) :
    (mem.drop pointer).next = mem.next := rfl

/-- Dereference a pointer. -/
def read (mem : Mem α) (pointer : Nat) : Exec α := Exec.deref (mem.cell pointer)

theorem read_eq {mem : Mem α} {pointer : Nat} {value : α}
    (live : mem.cell pointer = some value) : mem.read pointer = .ok value := by
  simp [read, live]

theorem read_eq_ok {mem : Mem α} {pointer : Nat} {value : α} :
    mem.read pointer = .ok value ↔ mem.cell pointer = some value := by
  rw [read]
  cases mem.cell pointer <;> simp

/-- Replace the contents of an allocated cell. -/
def write (mem : Mem α) (pointer : Nat) (value : α) : Exec (Mem α) :=
  match mem.cell pointer with
  | some _ => .ok (mem.put pointer value)
  | none => .error .undefined

theorem write_eq {mem : Mem α} {pointer : Nat} {old : α}
    (live : mem.cell pointer = some old) (value : α) :
    mem.write pointer value = .ok (mem.put pointer value) := by
  simp [write, live]

/-- Update an allocated cell in place. -/
def modify (mem : Mem α) (pointer : Nat) (update : α → α) : Exec (Mem α) :=
  match mem.cell pointer with
  | some old => .ok (mem.put pointer (update old))
  | none => .error .undefined

theorem modify_eq {mem : Mem α} {pointer : Nat} {old : α}
    (live : mem.cell pointer = some old) (update : α → α) :
    mem.modify pointer update = .ok (mem.put pointer (update old)) := by
  simp [modify, live]

/-- The identity the next allocation returns, and the memory after it. -/
def alloc (mem : Mem α) (value : α) : Mem α × Nat :=
  (mem.put mem.next value, mem.next)

theorem alloc_dead (mem : Mem α) : mem.cell mem.next = none :=
  mem.fresh mem.next (Nat.le_refl _)

/-- Free an allocated cell. -/
def free (mem : Mem α) (pointer : Nat) : Exec (Mem α) :=
  match mem.cell pointer with
  | some _ => .ok (mem.drop pointer)
  | none => .error .undefined

theorem free_eq {mem : Mem α} {pointer : Nat} {old : α}
    (live : mem.cell pointer = some old) :
    mem.free pointer = .ok (mem.drop pointer) := by
  simp [free, live]

theorem length_le_next {mem : Mem α} {pointers : List Nat} (nodup : pointers.Nodup)
    (live : ∀ pointer ∈ pointers, ∃ value, mem.cell pointer = some value) :
    pointers.length ≤ mem.next := by
  have below : pointers ⊆ List.range mem.next := by
    intro pointer member
    obtain ⟨value, holds⟩ := live pointer member
    exact List.mem_range.mpr (lt_next holds)
  simpa using (nodup.subperm below).length_le

/-! ## Lists of cells -/

/-- The pointers hold the values, in order. -/
def Reads (mem : Mem α) (pointers : List Nat) (values : List α) : Prop :=
  pointers.map mem.cell = values.map some

namespace Reads

variable {mem after : Mem α} {pointers front back : List Nat} {values frontValues : List α}

theorem nil (mem : Mem α) : Reads mem [] [] := rfl

theorem cons_iff {pointer : Nat} {value : α} :
    Reads mem (pointer :: pointers) (value :: values) ↔
      mem.cell pointer = some value ∧ Reads mem pointers values := by
  simp [Reads]

theorem append {backValues : List α} (reads : Reads mem front frontValues)
    (others : Reads mem back backValues) :
    Reads mem (front ++ back) (frontValues ++ backValues) := by
  rw [Reads, List.map_append, List.map_append, reads, others]

theorem exists_append (reads : Reads mem (front ++ back) values) :
    ∃ first second, values = first ++ second ∧ Reads mem front first ∧
      Reads mem back second := by
  rw [Reads, List.map_append] at reads
  obtain ⟨first, second, rfl, firstEq, secondEq⟩ := List.map_eq_append_iff.mp reads.symm
  exact ⟨first, second, rfl, firstEq.symm, secondEq.symm⟩

theorem exists_cons {pointer : Nat} (reads : Reads mem (pointer :: pointers) values) :
    ∃ value rest, values = value :: rest ∧ mem.cell pointer = some value ∧
      Reads mem pointers rest := by
  cases values with
  | nil => simp [Reads] at reads
  | cons value rest => exact ⟨value, rest, rfl, cons_iff.mp reads⟩

theorem length_eq (reads : Reads mem pointers values) : pointers.length = values.length := by
  simpa using congrArg List.length reads

theorem exists_value (reads : Reads mem pointers values) {pointer : Nat}
    (member : pointer ∈ pointers) : ∃ value ∈ values, mem.cell pointer = some value := by
  have found : mem.cell pointer ∈ pointers.map mem.cell := List.mem_map_of_mem member
  rw [reads] at found
  obtain ⟨value, valueMem, equal⟩ := List.mem_map.mp found
  exact ⟨value, valueMem, equal.symm⟩

theorem exists_pointer (reads : Reads mem pointers values) {value : α}
    (member : value ∈ values) : ∃ pointer ∈ pointers, mem.cell pointer = some value := by
  have found : some value ∈ values.map some := List.mem_map_of_mem member
  rw [← reads] at found
  exact List.mem_map.mp found

theorem congr (reads : Reads mem pointers values)
    (same : ∀ pointer ∈ pointers, after.cell pointer = mem.cell pointer) :
    Reads after pointers values := by
  rw [Reads, ← reads]
  exact List.map_congr_left same

theorem put (reads : Reads mem pointers values) {pointer : Nat} (outside : pointer ∉ pointers)
    (value : α) : Reads (mem.put pointer value) pointers values :=
  reads.congr fun _ member => put_ne mem (ne_of_mem_of_not_mem member outside) value

theorem drop (reads : Reads mem pointers values) {pointer : Nat} (outside : pointer ∉ pointers) :
    Reads (mem.drop pointer) pointers values :=
  reads.congr fun _ member => if_neg (ne_of_mem_of_not_mem member outside)

/-- Pointers whose values differ in an image are distinct. -/
theorem eq_of_image (reads : Reads mem pointers values) {β : Type*} {image : α → β}
    (nodup : (values.map image).Nodup) {pointer other : Nat} {value otherValue : α}
    (member : pointer ∈ pointers) (otherMember : other ∈ pointers)
    (live : mem.cell pointer = some value) (otherLive : mem.cell other = some otherValue)
    (same : image value = image otherValue) : pointer = other := by
  have images : pointers.map (fun query => (mem.cell query).map image) =
      (values.map image).map some := by
    have mapped := congrArg (List.map (Option.map image)) reads
    rw [List.map_map, List.map_map] at mapped
    rw [List.map_map]
    exact mapped
  have distinct : (pointers.map fun query => (mem.cell query).map image).Nodup := by
    rw [images]
    exact nodup.map fun _ _ => Option.some.inj
  apply List.inj_on_of_nodup_map distinct member otherMember
  simp [live, otherLive, same]

theorem exists_split (reads : Reads mem pointers values) {pointer : Nat}
    (member : pointer ∈ pointers) :
    ∃ front back first value second, pointers = front ++ pointer :: back ∧
      values = first ++ value :: second ∧ mem.cell pointer = some value ∧
      Reads mem front first ∧ Reads mem back second := by
  obtain ⟨front, back, rfl⟩ := List.append_of_mem member
  obtain ⟨first, rest, rfl, firstReads, restReads⟩ := reads.exists_append
  obtain ⟨value, second, rfl, live, secondReads⟩ := restReads.exists_cons
  exact ⟨front, back, first, value, second, rfl, rfl, live, firstReads, secondReads⟩

end Reads

/-! ## Footprints -/

/-- `after` differs from `before` in the contents of owned cells only. -/
structure SameOutside (owned : List Nat) (before after : Mem α) : Prop where
  cell : ∀ pointer, pointer ∉ owned → after.cell pointer = before.cell pointer
  next : after.next = before.next

namespace SameOutside

variable {owned : List Nat} {before middle after : Mem α}

theorem refl (owned : List Nat) (mem : Mem α) : SameOutside owned mem mem :=
  ⟨fun _ _ => rfl, rfl⟩

theorem mono (same : SameOutside owned before after) (wider : List Nat)
    (subset : owned ⊆ wider) :
    SameOutside wider before after :=
  ⟨fun pointer outside => same.cell pointer fun member => outside (subset member), same.next⟩

theorem trans (first : SameOutside owned before middle)
    (second : SameOutside owned middle after) : SameOutside owned before after :=
  ⟨fun pointer outside => (second.cell pointer outside).trans (first.cell pointer outside),
    second.next.trans first.next⟩

theorem put {mem : Mem α} {pointer : Nat} {old : α} (live : mem.cell pointer = some old)
    (value : α) : SameOutside [pointer] mem (mem.put pointer value) where
  cell := by
    intro query outside
    rw [put_cell, if_neg (by simpa using outside)]
  next := put_next (lt_next live) value

end SameOutside

end Mem

end Lib
