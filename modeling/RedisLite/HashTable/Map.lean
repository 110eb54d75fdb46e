import RedisLite.HashTable.Valid
import RedisLite.Lib.Simulation

/-!
# The hash table as a finite map

The sequences of calls the callers of `hashtable.h` make, against a plain finite
map from keys to nodes.  Migration between the two tables is invisible: every
call returns what it returns on the map.
-/

namespace RedisLite

open Lib

section Reference

variable {K α : Type}

/-- A call on an `HMap`.  A node is given by its record; its key and hash code are
functions of it. -/
inductive HOp (K α : Type) where
  | lookup (key : K)
  | insert (ref : α)
  | delete (key : K)
  | size

/-- What a call returns. -/
inductive HOut (α : Type) where
  | node (found : Option α)
  | unit
  | size (count : Nat)
  deriving DecidableEq, Repr

variable [DecidableEq K] (key : α → K) (hash : K → UInt64)

/-- The callback `eq`: compare the key of a record with the searched one. -/
def keyEq (searched : K) (ref : α) : Exec Bool := .ok (decide (key ref = searched))

theorem keyEq_decides (nodes : List (HNode α)) (hcode : UInt64) (searched : K) :
    Decides nodes hcode (keyEq key searched) (fun ref => decide (key ref = searched)) :=
  fun _ _ _ => rfl

/-- The call on the two tables. -/
def hmCall : Machine (HMap α) (HOp K α) (HOut α)
  | hmap, .lookup searched => do
      let (hmap, found) ← hmLookup hmap (hash searched) (keyEq key searched)
      return (hmap, .node (found.map HNode.ref))
  | hmap, .insert ref => do return (← hmInsert hmap ⟨hash (key ref), ref⟩, .unit)
  | hmap, .delete searched => do
      let (hmap, found) ← hmDelete hmap (hash searched) (keyEq key searched)
      return (hmap, .node (found.map HNode.ref))
  | hmap, .size => .ok (hmap, .size (hmSize hmap))

/-- The call on a finite map. -/
def mapCall : Reference (Finmap fun _ : K => α) (HOp K α) (HOut α)
  | map, .lookup searched => (map, .node (map.lookup searched))
  | map, .insert ref => (map.insert (key ref) ref, .unit)
  | map, .delete searched => (map.erase searched, .node (map.lookup searched))
  | map, .size => (map, .size map.keys.card)

/-- A node is inserted only when no node of its key is present. -/
def KeyAbsent (map : Finmap fun _ : K => α) : HOp K α → Prop
  | .insert ref => key ref ∉ map
  | _ => True

/-- The entry of a node. -/
def entryOf (node : HNode α) : (_ : K) × α := ⟨key node.ref, node.ref⟩

/-- The two tables hold exactly the entries of the finite map. -/
structure MapRefines (hmap : HMap α) (map : Finmap fun _ : K => α) : Prop where
  valid : hmap.Valid
  hcodes : ∀ node ∈ hmap.nodes, node.hcode = hash (key node.ref)
  entries : map.entries = ↑(hmap.nodes.map (entryOf key))

end Reference

/-- One turn of the migration loop, at any value of the work counter. -/
def MigrationStep {α : Type} (before after : HMap α) : Prop :=
  ∃ done total, hmHelpTurn (before, done) = .ok (.next (after, total))

namespace MapRefines

variable {K α : Type} {key : α → K} {hash : K → UInt64} {hmap after : HMap α}
  {map : Finmap fun _ : K => α}

theorem empty : MapRefines key hash ({} : HMap α) ∅ :=
  ⟨HMap.valid_empty, by simp, rfl⟩

theorem of_perm (refines : MapRefines key hash hmap map) (valid : after.Valid)
    (perm : after.nodes.Perm hmap.nodes) : MapRefines key hash after map where
  valid := valid
  hcodes := fun node member => refines.hcodes node (perm.mem_iff.mp member)
  entries := refines.entries.trans (Multiset.coe_eq_coe.mpr (perm.map _).symm)

theorem size_eq (refines : MapRefines key hash hmap map) : hmSize hmap = map.keys.card := by
  rw [refines.valid.hmSize_eq, Entries.card_keys, refines.entries, Multiset.coe_card,
    List.length_map]

theorem migrationStep (refines : MapRefines key hash hmap map) (moves : MigrationStep hmap after) :
    MapRefines key hash after map := by
  obtain ⟨nwork, total, turn⟩ := moves
  have helping : Helping hmap (hmap, nwork) := ⟨refines.valid, .refl _, rfl, id⟩
  have kept := (hmHelpTurn_spec (hmap, nwork) helping).of_eq_ok turn
  exact refines.of_perm kept.1.valid kept.1.nodes

theorem triggerRehashing (refines : MapRefines key hash hmap map)
    (allocated : hmap.newer.tab.isSome) (idle : hmap.older.tab = none) :
    Exec.Returns (hmTriggerRehashing hmap) fun after => MapRefines key hash after map := by
  obtain ⟨after, equal, valid, perm⟩ := hmTriggerRehashing_spec refines.valid allocated idle
  exact ⟨after, equal, refines.of_perm valid perm⟩

variable [DecidableEq K]

theorem lookup_eq (refines : MapRefines key hash hmap map) {node : HNode α}
    (member : node ∈ hmap.nodes) : map.lookup (key node.ref) = some node.ref := by
  apply Finmap.mem_lookup_iff.mpr
  rw [refines.entries, Multiset.mem_coe]
  exact List.mem_map_of_mem member

theorem lookup_none (refines : MapRefines key hash hmap map) {searched : K}
    (others : ∀ node ∈ hmap.nodes, key node.ref ≠ searched) : map.lookup searched = none := by
  apply Option.eq_none_iff_forall_not_mem.mpr
  intro ref found
  have member := Finmap.mem_lookup_iff.mp found
  rw [refines.entries, Multiset.mem_coe] at member
  obtain ⟨node, nodeMem, same⟩ := List.mem_map.mp member
  cases same
  exact others node nodeMem rfl

theorem key_ne (refines : MapRefines key hash hmap map) {searched : K} {node : HNode α}
    (member : node ∈ hmap.nodes)
    (noMatch : ¬ node.Matches (hash searched) fun ref => decide (key ref = searched)) :
    key node.ref ≠ searched := by
  intro same
  apply noMatch
  exact ⟨by rw [refines.hcodes node member, same], decide_eq_true same⟩

/-- Every call keeps the refinement and returns what the finite map returns. -/
theorem call (refines : MapRefines key hash hmap map) (operation : HOp K α)
    (allowed : KeyAbsent key map operation) :
    Exec.Returns (hmCall key hash hmap operation) fun result =>
      MapRefines key hash result.1 (mapCall key map operation).1 ∧
        result.2 = (mapCall key map operation).2 := by
  cases operation with
  | lookup searched =>
      obtain ⟨after, found, lookupEq, valid, perm, holds⟩ :=
        hmLookup_spec refines.valid (keyEq_decides key _ (hash searched) searched)
      simp only [hmCall, lookupEq, Exec.ok_bind, Exec.pure_eq_ok, Exec.returns_ok, mapCall]
      refine ⟨refines.of_perm valid perm, ?_⟩
      cases found with
      | some node =>
          obtain rfl := of_decide_eq_true holds.2.2
          rw [refines.lookup_eq holds.1, Option.map_some]
      | none =>
          rw [refines.lookup_none fun node member => refines.key_ne member (holds node member),
            Option.map_none]
  | insert ref =>
      obtain ⟨after, insertEq, valid, perm⟩ :=
        hmInsert_spec refines.valid (HNode.mk (hash (key ref)) ref)
      simp only [hmCall, insertEq, Exec.ok_bind, Exec.pure_eq_ok, Exec.returns_ok, mapCall,
        and_true]
      refine ⟨valid, ?_, ?_⟩
      · intro node member
        rcases List.mem_cons.mp (perm.mem_iff.mp member) with rfl | member
        · rfl
        · exact refines.hcodes node member
      · rw [Finmap.entries_insert_of_notMem allowed, refines.entries, Multiset.cons_coe,
          Multiset.coe_eq_coe]
        exact (perm.map (entryOf key)).symm
  | delete searched =>
      obtain ⟨after, found, deleteEq, valid, holds⟩ :=
        hmDelete_spec refines.valid (keyEq_decides key _ (hash searched) searched)
      simp only [hmCall, deleteEq, Exec.ok_bind, Exec.pure_eq_ok, Exec.returns_ok, mapCall]
      cases found with
      | some node =>
          obtain ⟨perm, isMatch⟩ := holds
          obtain rfl := of_decide_eq_true isMatch.2
          have member : node ∈ hmap.nodes := perm.mem_iff.mpr List.mem_cons_self
          have split : map.entries = entryOf key node ::ₘ ↑(after.nodes.map (entryOf key)) := by
            rw [refines.entries, Multiset.cons_coe, Multiset.coe_eq_coe]
            exact perm.map _
          refine ⟨⟨valid, ?_, Entries.erase_of_cons split⟩, ?_⟩
          · intro other otherMem
            exact refines.hcodes other (perm.mem_iff.mpr (List.mem_cons_of_mem _ otherMem))
          · rw [refines.lookup_eq member, Option.map_some]
      | none =>
          obtain ⟨perm, noMatch⟩ := holds
          have absent := refines.lookup_none fun node member =>
            refines.key_ne member (noMatch node member)
          rw [Entries.erase_of_notMem (Finmap.lookup_eq_none.mp absent), absent]
          exact ⟨refines.of_perm valid perm.symm, rfl⟩
  | size => exact .of_ok ⟨refines, congrArg HOut.size refines.size_eq⟩

end MapRefines

/-- Progressive rehashing is invisible: from the empty map, every permitted
sequence of calls returns what it returns on a finite map, and the state reached
holds exactly the live nodes, also in the middle of a migration and after a
resize has started. -/
theorem hmap_refines_finmap {K α : Type} [DecidableEq K] (key : α → K) (hash : K → UInt64)
    (operations : List (HOp K α))
    (permitted : Permitted (mapCall key) (KeyAbsent key) ∅ operations) :
    Exec.Returns (Machine.run (hmCall key hash) {} operations) fun result =>
      result.2 = (Reference.run (mapCall key) ∅ operations).2 ∧
        MapRefines key hash result.1 (Reference.run (mapCall key) ∅ operations).1 ∧
        (∀ after, Relation.ReflTransGen MigrationStep result.1 after →
          MapRefines key hash after (Reference.run (mapCall key) ∅ operations).1) ∧
        (result.1.newer.tab.isSome → result.1.older.tab = none →
          Exec.Returns (hmTriggerRehashing result.1) fun after =>
            MapRefines key hash after (Reference.run (mapCall key) ∅ operations).1) := by
  obtain ⟨result, runEq, refines, agree⟩ := Machine.run_simulates
    (MapRefines key hash) (KeyAbsent key) (fun _ response expected => response = expected)
    (fun hmap map operation refines => MapRefines.call refines operation) operations
    MapRefines.empty permitted
  refine ⟨result, runEq, agree.eq, refines, ?_, refines.triggerRehashing⟩
  intro after moves
  induction moves with
  | refl => exact refines
  | tail _ step ih => exact ih.migrationStep step

/-! ## A run through a migration -/

section

variable {K α : Type} [DecidableEq K] (key : α → K) (hash : K → UInt64)

/-- Calls behind insertions run on the map that the insertions leave. -/
theorem run_inserts (refs : List α) (operations : List (HOp K α)) (hmap : HMap α) :
    Machine.run (hmCall key hash) hmap (refs.map .insert ++ operations) =
      hmInsertAll hmap (refs.map fun ref => ⟨hash (key ref), ref⟩) >>= fun middle =>
        Machine.run (hmCall key hash) middle operations >>= fun result =>
          .ok (result.1, refs.map (fun _ => .unit) ++ result.2) := by
  induction refs generalizing hmap with
  | nil =>
      simp only [List.map_nil, List.nil_append, hmInsertAll, Exec.ok_bind]
      cases Machine.run (hmCall key hash) hmap operations <;> rfl
  | cons ref refs ih =>
      simp only [List.map_cons, List.cons_append, Machine.run, hmCall, hmInsertAll]
      cases hmInsert hmap ⟨hash (key ref), ref⟩ with
      | error fault => rfl
      | ok after =>
          simp only [Exec.ok_bind, Exec.pure_eq_ok, ih]
          cases hmInsertAll after (refs.map fun ref => ⟨hash (key ref), ref⟩) with
          | error fault => rfl
          | ok middle =>
              simp only [Exec.ok_bind]
              cases Machine.run (hmCall key hash) middle operations <;> rfl

end

/-- Insertions of increasing numbers are permitted. -/
theorem permitted_inserts {operations : List (HOp Nat Nat)}
    (rest : ∀ map, Permitted (mapCall fun ref : Nat => ref) (KeyAbsent fun ref => ref) map
      operations) (count : Nat) :
    ∀ (first : Nat) (map : Finmap fun _ : Nat => Nat), (∀ ref ∈ map, ref < first) →
      Permitted (mapCall fun ref : Nat => ref) (KeyAbsent fun ref => ref) map
        ((List.range' first count).map .insert ++ operations) := by
  induction count with
  | zero => exact fun _ map _ => rest map
  | succ count ih =>
      intro first map below
      refine ⟨fun present => Nat.lt_irrefl _ (below first present), ?_⟩
      apply ih
      intro ref member
      rcases Finmap.mem_insert.mp member with rfl | member
      · exact Nat.lt_succ_self _
      · exact Nat.lt_succ_of_lt (below ref member)

/-- Finding and deleting nodes of 256, with their numbers as the keys, in the middle of a
migration. -/
theorem hmap_refines_finmap_migrating :
    ∃ (middle after : HMap Nat), hmInsertAll {} (numbered 256) = .ok middle ∧
      middle.newer.size = 128 ∧ middle.older.size = 128 ∧
      Machine.run (hmCall (fun ref : Nat => ref) UInt64.ofNat) middle
          [.size, .lookup 3, .delete 200, .lookup 200] =
        .ok (after, [.size 256, .node (some 3), .node (some 200), .node none]) := by
  obtain ⟨middle, inserts, newer, older, -⟩ := hmInsertAll_migrating
  have permitted : Permitted (mapCall fun ref : Nat => ref) (KeyAbsent fun ref => ref) ∅
      ((List.range 256).map .insert ++ [.size, .lookup 3, .delete 200, .lookup 200]) := by
    rw [List.range_eq_range']
    refine permitted_inserts (fun _ => ?_) 256 0 ∅ fun ref member =>
      absurd member Finmap.notMem_empty
    exact ⟨trivial, trivial, trivial, trivial, trivial⟩
  obtain ⟨⟨after, outputs⟩, runEq, agree, -⟩ :=
    hmap_refines_finmap (fun ref : Nat => ref) UInt64.ofNat _ permitted
  have expected : (Reference.run (mapCall fun ref : Nat => ref) ∅
      ((List.range 256).map .insert ++ [.size, .lookup 3, .delete 200, .lookup 200])).2 =
        (List.range 256).map (fun _ => .unit) ++
          [.size 256, .node (some 3), .node (some 200), .node none] := by
    decide +kernel
  have inserted := inserts
  rw [numbered] at inserted
  rw [run_inserts, inserted, Exec.ok_bind, Exec.bind_eq_ok] at runEq
  obtain ⟨⟨last, responses⟩, call, same⟩ := runEq
  cases same
  have agree : _ ++ responses = _ := agree.trans expected
  rw [List.append_cancel_left agree] at call
  exact ⟨middle, last, inserts, newer, older, call⟩

end RedisLite
