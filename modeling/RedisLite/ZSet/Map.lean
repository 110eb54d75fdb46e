import RedisLite.Lib.Simulation
import RedisLite.ZSet.Operations

/-!
# The sorted set as a finite map

A sorted set denotes the finite map from the names of its nodes to their scores.
Inserting, looking up and deleting act on it as they do on the map, in every state
that calls from the empty set reach.
-/

namespace RedisLite

open Lib Lib.Tree

/-- The members of a sorted set: a finite map from names to scores. -/
abbrev Members (D : Type) := Finmap fun _ : Bytes => D

/-- The entry of a node. -/
def ZNode.entry {D : Type} (cell : ZNode D) : (_ : Bytes) × D := ⟨cell.name, cell.score⟩

namespace ZSet

variable {D : Type} [LinearOrder D]

/-- Both indexes are valid, hold the same nodes and spell out the map. -/
def Denotes (zset : ZSet D) (members : Members D) : Prop :=
  ∃ tree cells, Holds zset tree cells ∧ members.entries = ↑(cells.map ZNode.entry)

namespace Denotes

variable {zset : ZSet D} {members : Members D}

theorem empty : Denotes ({} : ZSet D) ∅ := ⟨.nil, [], holds_empty, rfl⟩

theorem lookup_eq {tree : BinaryTree Ptr} {cells : List (ZNode D)} (holds : Holds zset tree cells)
    (entries : members.entries = ↑(cells.map ZNode.entry)) {node : Ptr} {cell : ZNode D}
    (live : zset.node.cell node = some cell) : members.lookup cell.name = some cell.score := by
  obtain ⟨other, member, otherLive⟩ := holds.reads.exists_value (holds.owned node cell live)
  obtain rfl := Option.some.inj (live.symm.trans otherLive)
  apply Finmap.mem_lookup_iff.mpr
  rw [entries, Multiset.mem_coe]
  exact List.mem_map_of_mem member

omit [LinearOrder D] in
theorem lookup_none {cells : List (ZNode D)}
    (entries : members.entries = ↑(cells.map ZNode.entry)) {name : Bytes}
    (others : ∀ cell ∈ cells, cell.name ≠ name) : members.lookup name = none := by
  apply Option.eq_none_iff_forall_not_mem.mpr
  intro score found
  have member := Finmap.mem_lookup_iff.mp found
  rw [entries, Multiset.mem_coe] at member
  obtain ⟨cell, cellMem, same⟩ := List.mem_map.mp member
  cases same
  exact others cell cellMem rfl

omit [LinearOrder D] in
theorem card_eq {cells : List (ZNode D)} (entries : members.entries = ↑(cells.map ZNode.entry)) :
    members.keys.card = cells.length := by
  rw [Entries.card_keys, entries, Multiset.coe_card, List.length_map]

/-- `zset_insert` stores the score under the name and says whether the name is new. -/
theorem zsetInsert (denotes : Denotes zset members) (small : members.keys.card < 2 ^ 64)
    (name : Bytes) (score : D) :
    Exec.Returns (zset.zsetInsert name score) fun result =>
      Denotes result.1 (members.insert name score) ∧ result.2 = decide (name ∉ members) := by
  obtain ⟨tree, cells, holds, entries⟩ := denotes
  rw [card_eq entries] at small
  obtain ⟨after, added, newTree, newCells, insertEq, newHolds, effect⟩ :=
    holds.zsetInsert_spec small name score
  rw [insertEq, Exec.returns_ok]
  cases added with
  | true =>
      obtain ⟨others, perm⟩ := effect
      have absent : name ∉ members := Finmap.lookup_eq_none.mp (lookup_none entries others)
      refine ⟨⟨newTree, newCells, newHolds, ?_⟩, (decide_eq_true absent).symm⟩
      rw [Finmap.entries_insert_of_notMem absent, entries, Multiset.cons_coe, Multiset.coe_eq_coe]
      exact (perm.map ZNode.entry).symm
  | false =>
      obtain ⟨cell, rest, rfl, perm, newPerm⟩ := effect
      have split : members.entries = ⟨cell.name, cell.score⟩ ::ₘ ↑(rest.map ZNode.entry) := by
        rw [entries, Multiset.cons_coe, Multiset.coe_eq_coe]
        exact perm.map ZNode.entry
      have present : cell.name ∈ members := by
        apply Finmap.mem_iff.mpr
        exact ⟨cell.score, Finmap.mem_lookup_iff.mpr (by simp [split])⟩
      refine ⟨⟨newTree, newCells, newHolds, ?_⟩, (decide_eq_false (not_not.mpr present)).symm⟩
      rw [Entries.insert_of_cons split, Multiset.cons_coe, Multiset.coe_eq_coe]
      exact (newPerm.map ZNode.entry).symm

/-- `zset_lookup` finds the node of a present name. -/
theorem zsetLookup (denotes : Denotes zset members) (name : Bytes) :
    Exec.Returns (zset.zsetLookup name) fun result =>
      Denotes result.1 members ∧ result.1.node = zset.node ∧
      match result.2 with
      | some node => ∃ cell, zset.node.cell node = some cell ∧ cell.name = name ∧
          members.lookup name = some cell.score
      | none => members.lookup name = none := by
  obtain ⟨tree, cells, holds, entries⟩ := denotes
  obtain ⟨hmap, found, lookupEq, newHolds, result⟩ := holds.zsetLookup_spec name
  rw [lookupEq, Exec.returns_ok]
  refine ⟨⟨tree, cells, newHolds, entries⟩, rfl, ?_⟩
  cases found with
  | some node =>
      obtain ⟨cell, live, rfl⟩ := result
      exact ⟨cell, live, rfl, lookup_eq holds entries live⟩
  | none => exact lookup_none entries result

theorem zsetDelete (denotes : Denotes zset members) (small : members.keys.card < 2 ^ 64)
    {node : Ptr} {cell : ZNode D} (live : zset.node.cell node = some cell) :
    Exec.Returns (zset.zsetDelete node) fun after => Denotes after (members.erase cell.name) := by
  obtain ⟨tree, cells, holds, entries⟩ := denotes
  rw [card_eq entries] at small
  obtain ⟨after, deleteEq, newTree, newCells, newHolds, perm⟩ := holds.zsetDelete_spec small live
  have split : members.entries = ⟨cell.name, cell.score⟩ ::ₘ ↑(newCells.map ZNode.entry) := by
    rw [entries, Multiset.cons_coe, Multiset.coe_eq_coe]
    exact perm.map ZNode.entry
  exact ⟨after, deleteEq, newTree, newCells, newHolds, Entries.erase_of_cons split⟩

/-- The shortcut of `zset_lookup`: without a root the hash table finds nothing. -/
theorem shortcut (denotes : Denotes zset members) (empty : zset.root = none) (name : Bytes) :
    ∃ hmap, hmLookup zset.hmap (strHash name) (zset.hcmp name) = .ok (hmap, none) := by
  obtain ⟨tree, cells, holds, -⟩ := denotes
  obtain ⟨-, rfl⟩ := holds.nil_of_root empty
  obtain ⟨hmap, found, lookupEq, newHolds, result⟩ := holds.hmLookup_spec name
  cases found with
  | none => exact ⟨hmap, lookupEq⟩
  | some link =>
      obtain ⟨cell, live, -⟩ := result
      obtain ⟨other, member, -⟩ := holds.reads.exists_value (holds.owned link.ref cell live)
      cases member

end Denotes

/-- The states that calls reach from the empty set, with the map the calls
describe: every name has the last score given.  A node is deleted only while it is
live. -/
inductive Reached : ZSet D → Members D → Prop where
  | empty : Reached {} ∅
  | insert {zset after : ZSet D} {members : Members D} {added : Bool} (name : Bytes) (score : D)
      (reached : Reached zset members) (small : (members.insert name score).keys.card < 2 ^ 32)
      (call : zset.zsetInsert name score = .ok (after, added)) :
      Reached after (members.insert name score)
  | lookup {zset after : ZSet D} {members : Members D} {found : Option Ptr} (name : Bytes)
      (reached : Reached zset members) (call : zset.zsetLookup name = .ok (after, found)) :
      Reached after members
  | delete {zset after : ZSet D} {members : Members D} (node : Ptr) (cell : ZNode D)
      (reached : Reached zset members) (live : zset.node.cell node = some cell)
      (call : zset.zsetDelete node = .ok after) : Reached after (members.erase cell.name)

/-- What every call does in a reached state. -/
structure Answers (zset : ZSet D) (members : Members D) : Prop where
  /-- Inserting returns and says whether the name is new. -/
  insert : ∀ name score, (members.insert name score).keys.card < 2 ^ 32 →
    Exec.Returns (zset.zsetInsert name score) fun result => result.2 = decide (name ∉ members)
  /-- Looking up returns the node with the last score given, if there is one. -/
  lookup : ∀ name, Exec.Returns (zset.zsetLookup name) fun result =>
    match result.2 with
    | some node => ∃ cell, zset.node.cell node = some cell ∧ cell.name = name ∧
        members.lookup name = some cell.score
    | none => members.lookup name = none
  /-- Deleting a live node returns, so its assertion holds. -/
  delete : ∀ node cell, zset.node.cell node = some cell →
    Exec.Returns (zset.zsetDelete node) fun _ => True
  /-- The shortcut on a null root agrees with the hash table. -/
  shortcut : zset.root = none → ∀ name,
    ∃ hmap, hmLookup zset.hmap (strHash name) (zset.hcmp name) = .ok (hmap, none)

/-- Every reached state denotes its map. -/
theorem Reached.denotes {zset : ZSet D} {members : Members D} (reached : Reached zset members) :
    Denotes zset members ∧ members.keys.card < 2 ^ 32 := by
  induction reached with
  | empty => exact ⟨.empty, by simp⟩
  | @insert zset after members added name score _ small call ih =>
      have before := Entries.card_le_insert members name score
      have kept := ih.1.zsetInsert (by omega) name score
      exact ⟨(kept.of_eq_ok call).1, small⟩
  | lookup name _ call ih => exact ⟨((ih.1.zsetLookup name).of_eq_ok call).1, ih.2⟩
  | @delete zset after members node cell _ live call ih =>
      have below := Entries.card_erase_le members cell.name
      have kept := ih.1.zsetDelete (by omega) live
      exact ⟨kept.of_eq_ok call, by omega⟩

/-- In every state that insertions, deletions and lookups reach from the empty set,
the tree and the hash table hold the same nodes, the tree is a valid AVL tree
strictly increasing in (score, name), the set denotes the map of the last scores
given, and every further call returns what the map says. -/
theorem zset_refines_finmap {zset : ZSet D} {members : Members D}
    (reached : Reached zset members) : Denotes zset members ∧ Answers zset members := by
  obtain ⟨denotes, small⟩ := reached.denotes
  refine ⟨denotes, ?_, ?_, ?_, denotes.shortcut⟩
  · intro name score _
    exact (denotes.zsetInsert (by omega) name score).mono fun _ holds => holds.2
  · intro name
    exact (denotes.zsetLookup name).mono fun _ holds => holds.2.2
  · intro node cell live
    exact (denotes.zsetDelete (by omega) live).mono fun _ _ => trivial

/-- Three of four members: two with the same score, one with a new score. -/
def changedMembers : Members Int :=
  Finmap.erase [98] (Finmap.insert [97] 7 (Finmap.insert [100] 6 (Finmap.insert [99] 6
    (Finmap.insert [98] 6 (Finmap.insert [97] 5 ∅)))))

theorem Reached.changes : ∃ (zset : ZSet Int) (cell : ZNode Int), Reached zset changedMembers ∧
    zset.node.cell 0 = some cell ∧ cell.name = [97] ∧ cell.score = 7 := by
  have reached := @Reached.delete Int _ _ _ _ 1 _ (.insert [97] 7 (.insert [100] 6 (.insert [99] 6
    (.insert [98] 6 (.insert [97] 5 .empty (by decide) rfl) (by decide) rfl) (by decide) rfl)
      (by decide) rfl) (by decide) rfl) rfl rfl
  exact ⟨_, _, reached, rfl, rfl, rfl⟩

/-- The changed member has its new score, and the deleted one is not found. -/
theorem zset_refines_finmap_changes : ∃ (zset found missed : ZSet Int) (node : Ptr)
    (cell : ZNode Int), Reached zset changedMembers ∧ Denotes zset changedMembers ∧
      zset.zsetLookup [97] = .ok (found, some node) ∧ zset.node.cell node = some cell ∧
      cell.name = [97] ∧ cell.score = 7 ∧ zset.zsetLookup [98] = .ok (missed, none) := by
  obtain ⟨zset, -, reached, -⟩ := Reached.changes
  obtain ⟨denotes, answers⟩ := zset_refines_finmap reached
  have present : changedMembers.lookup [97] = some 7 := by decide
  have absent : changedMembers.lookup [98] = none := by decide
  obtain ⟨⟨found, node⟩, lookupEq, isFound⟩ := answers.lookup [97]
  obtain ⟨⟨missed, other⟩, missedEq, isMissed⟩ := answers.lookup [98]
  cases node with
  | none =>
      rw [present] at isFound
      cases isFound
  | some node =>
      obtain ⟨cell, live, name, score⟩ := isFound
      cases other with
      | none =>
          rw [present] at score
          exact ⟨zset, found, missed, node, cell, reached, denotes, lookupEq, live, name,
            (Option.some.inj score).symm, missedEq⟩
      | some other =>
          obtain ⟨_, -, -, stored⟩ := isMissed
          rw [absent] at stored
          cases stored

end ZSet

end RedisLite
