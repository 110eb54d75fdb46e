import RedisLite.HashTable.Valid

/-!
# The load of the hash table

Every call of `hm_help_rehashing` moves up to `k_rehashing_work` nodes, and only an
insertion adds a node, before such a call.  So the nodes and the nodes left to migrate,
weighed against each other, stay within a budget fixed when the resize started; the
budget keeps the load below the next resize until the migration is done.
-/

namespace RedisLite

open Lib

variable {α : Type}

/-! ## Single tables -/

section Tables

variable {htab after : HTab α} {node : HNode α}

theorem hInit_counts {n : Nat} (call : hInit n = .ok htab) :
    htab.mask = n - 1 ∧ htab.size = 0 := by
  obtain ⟨-, -, result⟩ := Exec.bind_eq_ok.mp call
  cases result
  exact ⟨rfl, rfl⟩

theorem hInsert_counts (call : hInsert htab node = .ok after) :
    after.mask = htab.mask ∧ after.size = htab.size + 1 ∧ after.tab.isSome = htab.tab.isSome := by
  obtain ⟨next, -, result⟩ := Exec.bind_eq_ok.mp call
  cases result
  exact ⟨rfl, rfl, Option.isSome_map⟩

theorem hDetach_counts {link : HFrom} (call : hDetach htab link = .ok (after, node)) :
    after.mask = htab.mask ∧ after.size = htab.size - 1 ∧ after.tab.isSome = htab.tab.isSome := by
  obtain ⟨chain, -, rest⟩ := Exec.bind_eq_ok.mp call
  obtain ⟨other, -, result⟩ := Exec.bind_eq_ok.mp rest
  cases result
  exact ⟨rfl, rfl, Option.isSome_map⟩

end Tables

/-! ## The migration -/

/-- What the migration loop leaves alone, and what it moves: `nwork` nodes so far. -/
structure Moving (before : HMap α) (state : HMap α × Nat) : Prop where
  newerMask : state.1.newer.mask = before.newer.mask
  olderMask : state.1.older.mask = before.older.mask
  newerSome : state.1.newer.tab.isSome = before.newer.tab.isSome
  olderSome : state.1.older.tab.isSome = before.older.tab.isSome
  moved : state.1.older.size + state.2 = before.older.size
  hmSize_eq : hmSize state.1 = hmSize before
  limit : state.2 ≤ kRehashingWork

/-- One turn of the loop moves one node or none; the last one finds nothing more to do. -/
theorem Moving.turn {before : HMap α} {state : HMap α × Nat} (moving : Moving before state)
    {outcome : Step (HMap α × Nat) (HMap α)} (call : hmHelpTurn state = .ok outcome) :
    outcome.Holds (Moving before) fun after => ∃ nwork, Moving before (after, nwork) ∧
      ¬ (nwork < kRehashingWork ∧ after.older.size > 0) := by
  obtain ⟨hmap, nwork⟩ := state
  by_cases works : nwork < kRehashingWork ∧ hmap.older.size > 0
  · simp only [hmHelpTurn, if_pos works] at call
    obtain ⟨chain, -, call⟩ := Exec.bind_eq_ok.mp call
    split at call
    · cases call
      exact ⟨moving.newerMask, moving.olderMask, moving.newerSome, moving.olderSome,
        moving.moved, moving.hmSize_eq, moving.limit⟩
    · obtain ⟨⟨older, node⟩, detachEq, call⟩ := Exec.bind_eq_ok.mp call
      obtain ⟨newer, insertEq, call⟩ := Exec.bind_eq_ok.mp call
      cases call
      obtain ⟨olderMask, olderSize, olderSome⟩ := hDetach_counts detachEq
      obtain ⟨newerMask, newerSize, newerSome⟩ := hInsert_counts insertEq
      have moved := moving.moved
      have count := moving.hmSize_eq
      simp only [hmSize] at moved count
      refine ⟨newerMask.trans moving.newerMask, olderMask.trans moving.olderMask,
        newerSome.trans moving.newerSome, olderSome.trans moving.olderSome, ?_, ?_, works.1⟩
      · simp only
        omega
      · simp only [hmSize]
        omega
  · simp only [hmHelpTurn, if_neg works] at call
    cases call
    exact ⟨nwork, moving, works⟩

/-- What `hm_help_rehashing` does to the counts: it finishes the migration, or moves
`k_rehashing_work` nodes. -/
structure Helped (before after : HMap α) : Prop where
  newerMask : after.newer.mask = before.newer.mask
  newerSome : after.newer.tab.isSome = before.newer.tab.isSome
  hmSize_eq : hmSize after = hmSize before
  progress : after.older.tab = none ∨
    before.older.tab.isSome ∧ after.older.mask = before.older.mask ∧
      after.older.size + kRehashingWork = before.older.size

theorem hmHelpRehashing_helped {before after : HMap α}
    (call : hmHelpRehashing before = .ok after) : Helped before after := by
  obtain ⟨middle, loopEq, result⟩ := Exec.bind_eq_ok.mp call
  obtain ⟨nwork, moving, ends⟩ := loop_ok (Moving before)
    (fun _ _ moving call => moving.turn call) _
    ⟨rfl, rfl, rfl, rfl, rfl, rfl, Nat.zero_le _⟩ loopEq
  obtain ⟨newerMask, olderMask, newerSome, olderSome, moved, count, limit⟩ := moving
  simp only at newerMask olderMask newerSome olderSome moved count limit
  cases result
  unfold hmDiscardOlder
  split
  · rename_i done
    refine ⟨newerMask, newerSome, ?_, .inl rfl⟩
    rw [← count]
    simp [hmSize, done.1]
  · rename_i notDone
    refine ⟨newerMask, newerSome, count, ?_⟩
    cases allocated : middle.older.tab with
    | none => exact .inl rfl
    | some tab =>
        rw [allocated] at olderSome notDone
        have left : middle.older.size ≠ 0 := fun empty => notDone ⟨empty, rfl⟩
        refine .inr ⟨olderSome.symm, olderMask, ?_⟩
        omega

/-- A search changes the tables by its call of `hm_help_rehashing` only. -/
theorem hmLookup_helps {hmap after : HMap α} {hcode : UInt64} {eq : α → Exec Bool}
    {found : Option (HNode α)} (call : hmLookup hmap hcode eq = .ok (after, found)) :
    hmHelpRehashing hmap = .ok after := by
  obtain ⟨middle, helpEq, call⟩ := Exec.bind_eq_ok.mp call
  obtain ⟨inNewer, -, call⟩ := Exec.bind_eq_ok.mp call
  rw [helpEq]
  cases inNewer with
  | some link =>
      obtain ⟨node, -, result⟩ := Exec.bind_eq_ok.mp call
      cases result
      rfl
  | none =>
      obtain ⟨inOlder, -, call⟩ := Exec.bind_eq_ok.mp call
      cases inOlder with
      | some link =>
          obtain ⟨node, -, result⟩ := Exec.bind_eq_ok.mp call
          cases result
          rfl
      | none =>
          cases call
          rfl

/-- At most one node was removed from one of the tables. -/
structure Detached (before after : HMap α) : Prop where
  newerMask : after.newer.mask = before.newer.mask
  olderMask : after.older.mask = before.older.mask
  newerSome : after.newer.tab.isSome = before.newer.tab.isSome
  olderSome : after.older.tab.isSome = before.older.tab.isSome
  newerSize : after.newer.size ≤ before.newer.size
  olderSize : after.older.size ≤ before.older.size

/-- `hm_delete` removes a node after its call of `hm_help_rehashing`. -/
theorem hmDelete_detaches {hmap after : HMap α} {hcode : UInt64} {eq : α → Exec Bool}
    {found : Option (HNode α)} (call : hmDelete hmap hcode eq = .ok (after, found)) :
    ∃ middle, hmHelpRehashing hmap = .ok middle ∧ Detached middle after := by
  obtain ⟨middle, helpEq, call⟩ := Exec.bind_eq_ok.mp call
  obtain ⟨inNewer, -, call⟩ := Exec.bind_eq_ok.mp call
  refine ⟨middle, helpEq, ?_⟩
  cases inNewer with
  | some link =>
      obtain ⟨⟨newer, node⟩, detachEq, result⟩ := Exec.bind_eq_ok.mp call
      cases result
      obtain ⟨mask, size, isSome⟩ := hDetach_counts detachEq
      exact ⟨mask, rfl, isSome, rfl, size ▸ Nat.sub_le _ _, Nat.le_refl _⟩
  | none =>
      obtain ⟨inOlder, -, call⟩ := Exec.bind_eq_ok.mp call
      cases inOlder with
      | some link =>
          obtain ⟨⟨older, node⟩, detachEq, result⟩ := Exec.bind_eq_ok.mp call
          cases result
          obtain ⟨mask, size, isSome⟩ := hDetach_counts detachEq
          exact ⟨rfl, mask, rfl, isSome, Nat.le_refl _, size ▸ Nat.sub_le _ _⟩
      | none =>
          cases call
          exact ⟨rfl, rfl, rfl, rfl, Nat.le_refl _, Nat.le_refl _⟩

/-! ## The budget -/

/-- The invariant of the calls.  Right after an insertion into the newer table the
budget may be exceeded by what one call of `hm_help_rehashing` moves. -/
structure HMap.Loaded (slack : Nat) (hmap : HMap α) : Prop where
  valid : hmap.Valid
  doubled : hmap.older.tab.isSome → hmap.newer.mask + 1 = 2 * (hmap.older.mask + 1)
  idle : hmap.older.tab = none → hmap.newer.tab.isSome →
    hmSize hmap < kMaxLoadFactor * (hmap.newer.mask + 1)
  budget : hmap.older.tab.isSome → kRehashingWork * hmSize hmap + hmap.older.size ≤
    (kRehashingWork + 1) * (kMaxLoadFactor * (hmap.older.mask + 1)) + slack

namespace HMap.Loaded

variable {hmap after : HMap α} {slack : Nat}

theorem empty : HMap.Loaded 0 ({} : HMap α) :=
  ⟨HMap.valid_empty, by simp, by simp, by simp⟩

theorem older_mask_pos (loaded : hmap.Loaded slack) (migrating : hmap.older.tab.isSome) :
    0 < hmap.older.mask := by
  obtain ⟨tab, allocated⟩ := Option.isSome_iff_exists.mp migrating
  exact (loaded.valid.older.buckets allocated).mask_pos

theorem hmSize_lt (loaded : hmap.Loaded slack) (small : slack ≤ kRehashingWork)
    (migrating : hmap.older.tab.isSome) :
    hmSize hmap + 1 < kMaxLoadFactor * (hmap.newer.mask + 1) := by
  have budget := loaded.budget migrating
  have positive := loaded.older_mask_pos migrating
  rw [loaded.doubled migrating]
  simp only [kRehashingWork, kMaxLoadFactor] at budget small ⊢
  omega

theorem light (loaded : hmap.Loaded slack) (small : slack ≤ kRehashingWork)
    (allocated : hmap.newer.tab.isSome) :
    hmSize hmap < kMaxLoadFactor * (hmap.newer.mask + 1) := by
  cases older : hmap.older.tab with
  | none => exact loaded.idle older allocated
  | some tab => exact Nat.lt_of_succ_lt (loaded.hmSize_lt small (by rw [older]; rfl))

/-- `hm_help_rehashing` brings the map back into the budget. -/
theorem help (loaded : hmap.Loaded slack) (small : slack ≤ kRehashingWork)
    (call : hmHelpRehashing hmap = .ok after) : after.Loaded 0 := by
  have valid := ((hmHelpRehashing_spec loaded.valid).of_eq_ok call).1
  have helped := hmHelpRehashing_helped call
  have newerMask := helped.newerMask
  have count := helped.hmSize_eq
  refine ⟨valid, ?_, ?_, ?_⟩
  · intro migrating
    rcases helped.progress with done | ⟨olderSome, olderMask, -⟩
    · rw [done] at migrating
      cases migrating
    · rw [newerMask, olderMask]
      exact loaded.doubled olderSome
  · intro _ allocated
    rw [newerMask, count]
    exact loaded.light small (helped.newerSome ▸ allocated)
  · intro migrating
    rcases helped.progress with done | ⟨olderSome, olderMask, olderSize⟩
    · rw [done] at migrating
      cases migrating
    · have budget := loaded.budget olderSome
      rw [olderMask, count]
      omega

/-- Removing a node from either table. -/
theorem detach (loaded : hmap.Loaded 0) (detached : Detached hmap after) (valid : after.Valid) :
    after.Loaded 0 := by
  obtain ⟨newerMask, olderMask, newerSome, olderSome, newerSize, olderSize⟩ := detached
  have count : hmSize after ≤ hmSize hmap := Nat.add_le_add newerSize olderSize
  refine ⟨valid, ?_, ?_, ?_⟩
  · intro migrating
    rw [newerMask, olderMask]
    exact loaded.doubled (olderSome ▸ migrating)
  · intro _ allocated
    rw [newerMask]
    exact Nat.lt_of_le_of_lt count (loaded.light (Nat.zero_le _) (newerSome ▸ allocated))
  · intro migrating
    have budget := loaded.budget (olderSome ▸ migrating)
    rw [olderMask]
    simp only [kRehashingWork] at budget ⊢
    omega

/-- A fresh newer table holds no node. -/
theorem init (loaded : hmap.Loaded 0) (call : hmInitNewer hmap = .ok after) : after.Loaded 0 := by
  obtain ⟨valid, nodes, -⟩ := (hmInitNewer_spec loaded.valid).of_eq_ok call
  cases allocated : hmap.newer.tab with
  | some tab =>
      rw [hmInitNewer, allocated] at call
      cases call
      exact loaded
  | none =>
      have older : hmap.older = {} := by
        apply loaded.valid.older.eq_empty
        rw [← Option.not_isSome_iff_eq_none]
        intro migrating
        have newerSome := loaded.valid.allocated migrating
        rw [allocated] at newerSome
        cases newerSome
      have empty : hmSize after = 0 := by
        rw [valid.hmSize_eq, nodes, HMap.nodes, older, loaded.valid.newer.eq_empty allocated]
        rfl
      simp only [hmInitNewer, allocated, Option.isNone_none, if_true] at call
      obtain ⟨newer, -, result⟩ := Exec.bind_eq_ok.mp call
      cases result
      refine ⟨valid, by simp [older], fun _ _ => ?_, by simp [older]⟩
      rw [empty, kMaxLoadFactor]
      omega

/-- After one node was added to the newer table, the load check starts a resize exactly when
the next one is due, and else the budget is exceeded by the work for one node at most. -/
theorem checkLoad (loaded : hmap.Loaded 0) (allocated : hmap.newer.tab.isSome) {node : HNode α}
    {newer : HTab α} (insertEq : hInsert hmap.newer node = .ok newer)
    (call : hmCheckLoad { hmap with newer := newer } = .ok after) :
    after.Loaded kRehashingWork := by
  obtain ⟨secondValid, newerSome, -⟩ :=
    (loaded.valid.hInsert_newer allocated node).of_eq_ok insertEq
  obtain ⟨newerMask, newerSize, -⟩ := hInsert_counts insertEq
  obtain ⟨valid, -⟩ := (hmCheckLoad_spec secondValid newerSome).of_eq_ok call
  have count : hmSize { hmap with newer := newer } = hmSize hmap + 1 := by
    simp only [hmSize]
    omega
  cases older : hmap.older.tab with
  | some tab =>
      have migrating : hmap.older.tab.isSome := by rw [older]; rfl
      simp only [hmCheckLoad, older, Option.isNone_some, Bool.false_eq_true, false_and,
        if_false] at call
      cases call
      refine ⟨valid, fun _ => ?_, fun isNone => ?_, fun _ => ?_⟩
      · rw [newerMask]
        exact loaded.doubled migrating
      · rw [older] at isNone
        cases isNone
      · have budget := loaded.budget migrating
        rw [count]
        simp only [kRehashingWork] at budget ⊢
        omega
  | none =>
      have light := loaded.idle older allocated
      have noOlder : hmap.older.size = 0 := by rw [loaded.valid.older.eq_empty older]
      simp only [hmSize, noOlder] at light
      simp only [hmCheckLoad, older, Option.isNone_none, true_and] at call
      split at call
      · rename_i full
        obtain ⟨fresh, initEq, result⟩ := Exec.bind_eq_ok.mp call
        obtain ⟨freshMask, freshSize⟩ := hInit_counts initEq
        cases result
        refine ⟨valid, fun _ => ?_, fun isNone => ?_, fun _ => ?_⟩
        · simp only [freshMask]
          omega
        · have isNone : newer.tab = none := isNone
          rw [isNone] at newerSome
          cases newerSome
        · simp only [hmSize, freshSize, kRehashingWork, kMaxLoadFactor] at light ⊢
          omega
      · rename_i notFull
        cases call
        refine ⟨valid, fun isSome => ?_, fun _ _ => ?_, fun isSome => ?_⟩
        · rw [older] at isSome
          cases isSome
        · simp only [hmSize, noOlder, Nat.mul_comm] at notFull ⊢
          omega
        · rw [older] at isSome
          cases isSome

theorem insert (loaded : hmap.Loaded 0) (node : HNode α) (call : hmInsert hmap node = .ok after) :
    after.Loaded 0 := by
  obtain ⟨first, initEq, call⟩ := Exec.bind_eq_ok.mp call
  obtain ⟨newer, insertEq, call⟩ := Exec.bind_eq_ok.mp call
  obtain ⟨third, checkEq, helpEq⟩ := Exec.bind_eq_ok.mp call
  obtain ⟨-, -, firstSome⟩ := (hmInitNewer_spec loaded.valid).of_eq_ok initEq
  have thirdLoaded := (loaded.init initEq).checkLoad firstSome insertEq checkEq
  exact thirdLoaded.help (Nat.le_refl _) helpEq

theorem lookup (loaded : hmap.Loaded 0) {hcode : UInt64} {eq : α → Exec Bool}
    {found : Option (HNode α)} (call : hmLookup hmap hcode eq = .ok (after, found)) :
    after.Loaded 0 :=
  loaded.help (Nat.zero_le _) (hmLookup_helps call)

theorem delete (loaded : hmap.Loaded 0) {hcode : UInt64} {eq : α → Exec Bool}
    {found : Option (HNode α)} (call : hmDelete hmap hcode eq = .ok (after, found))
    (valid : after.Valid) : after.Loaded 0 := by
  obtain ⟨middle, helpEq, detached⟩ := hmDelete_detaches call
  exact (loaded.help (Nat.zero_le _) helpEq).detach detached valid

end HMap.Loaded

/-! ## Sequences of calls -/

/-- The calls that change a map.  The callback `eq` of a search is a test of the records. -/
inductive HCall (α : Type) where
  | insert (node : HNode α)
  | lookup (hcode : UInt64) (test : α → Bool)
  | delete (hcode : UInt64) (test : α → Bool)
  | clear

/-- The call, with the node that a search returns. -/
def HCall.run (hmap : HMap α) : HCall α → Exec (HMap α × Option (HNode α))
  | .insert node => do return (← hmInsert hmap node, none)
  | .lookup hcode test => hmLookup hmap hcode fun ref => .ok (test ref)
  | .delete hcode test => hmDelete hmap hcode fun ref => .ok (test ref)
  | .clear => .ok (hmClear hmap, none)

/-- The nodes in the map after a call that returned `found`. -/
def HCall.live [DecidableEq α] (nodes : List (HNode α)) (found : Option (HNode α)) :
    HCall α → List (HNode α)
  | .insert node => node :: nodes
  | .lookup _ _ => nodes
  | .delete _ _ => found.elim nodes nodes.erase
  | .clear => []

/-- The maps that sequences of calls reach, with the nodes that are live in them. -/
inductive HMap.Reached [DecidableEq α] : List (HNode α) → HMap α → Prop where
  | empty : Reached [] {}
  | call {nodes : List (HNode α)} {hmap after : HMap α} {found : Option (HNode α)}
      (reached : Reached nodes hmap) (call : HCall α)
      (returns : call.run hmap = .ok (after, found)) : Reached (call.live nodes found) after

section Calls

variable {hmap after : HMap α}

theorem decides_test (nodes : List (HNode α)) (hcode : UInt64) (test : α → Bool) :
    Decides nodes hcode (fun ref => .ok (test ref)) test :=
  fun _ _ _ => rfl

/-- Every call returns. -/
theorem HMap.Valid.run (valid : hmap.Valid) (call : HCall α) :
    ∃ after found, call.run hmap = .ok (after, found) := by
  cases call with
  | insert node =>
      obtain ⟨after, insertEq, -⟩ := hmInsert_spec valid node
      exact ⟨after, none, by simp [HCall.run, insertEq]⟩
  | lookup hcode test =>
      obtain ⟨after, found, lookupEq, -⟩ := hmLookup_spec valid (decides_test _ hcode test)
      exact ⟨after, found, lookupEq⟩
  | delete hcode test =>
      obtain ⟨after, found, deleteEq, -⟩ := hmDelete_spec valid (decides_test _ hcode test)
      exact ⟨after, found, deleteEq⟩
  | clear => exact ⟨_, _, rfl⟩

/-- A call keeps the invariant, and the nodes are the live ones. -/
theorem HMap.Loaded.run [DecidableEq α] (loaded : hmap.Loaded 0) {nodes : List (HNode α)}
    (perm : hmap.nodes.Perm nodes) (call : HCall α) {found : Option (HNode α)}
    (returns : call.run hmap = .ok (after, found)) :
    after.Loaded 0 ∧ after.nodes.Perm (call.live nodes found) := by
  cases call with
  | insert node =>
      obtain ⟨result, insertEq, pair⟩ := Exec.bind_eq_ok.mp returns
      cases pair
      have inserted := ((hmInsert_spec loaded.valid node).of_eq_ok insertEq).2
      exact ⟨loaded.insert node insertEq, inserted.trans (perm.cons node)⟩
  | lookup hcode test =>
      obtain ⟨other, result, lookupEq, -, rearranged, -⟩ :=
        hmLookup_spec loaded.valid (decides_test _ hcode test)
      cases returns.symm.trans lookupEq
      exact ⟨loaded.lookup returns, rearranged.trans perm⟩
  | delete hcode test =>
      obtain ⟨other, result, deleteEq, valid, holds⟩ :=
        hmDelete_spec loaded.valid (decides_test _ hcode test)
      cases returns.symm.trans deleteEq
      refine ⟨loaded.delete returns valid, ?_⟩
      cases found with
      | none => exact holds.1.symm.trans perm
      | some node =>
          have split := (perm.symm.trans holds.1).erase node
          rw [List.erase_cons_head] at split
          exact split.symm
  | clear =>
      cases returns
      exact ⟨.empty, .refl _⟩

theorem HMap.Reached.loaded [DecidableEq α] {nodes : List (HNode α)}
    (reached : HMap.Reached nodes hmap) : hmap.Loaded 0 ∧ hmap.nodes.Perm nodes := by
  induction reached with
  | empty => exact ⟨.empty, .refl _⟩
  | call _ call returns ih => exact ih.1.run ih.2 call returns

/-- While an older table exists, no call starts a resize. -/
theorem HMap.Valid.keeps_buckets (valid : hmap.Valid) (migrating : hmap.older.tab.isSome)
    (call : HCall α) (kept : call ≠ .clear) {found : Option (HNode α)}
    (returns : call.run hmap = .ok (after, found)) : after.newer.mask = hmap.newer.mask := by
  cases call with
  | insert node =>
      obtain ⟨result, insertEq, pair⟩ := Exec.bind_eq_ok.mp returns
      cases pair
      obtain ⟨first, initEq, insertEq⟩ := Exec.bind_eq_ok.mp insertEq
      obtain ⟨newer, nodeEq, insertEq⟩ := Exec.bind_eq_ok.mp insertEq
      obtain ⟨third, checkEq, helpEq⟩ := Exec.bind_eq_ok.mp insertEq
      have allocated : hmap.newer.tab.isNone = false := by
        rw [Option.isNone_eq_false_iff]
        exact valid.allocated migrating
      rw [hmInitNewer, allocated] at initEq
      cases initEq
      have noResize : hmap.older.tab.isNone = false := Option.isNone_eq_false_iff.mpr migrating
      simp only [hmCheckLoad, noResize, Bool.false_eq_true, false_and, if_false] at checkEq
      cases checkEq
      exact (hmHelpRehashing_helped helpEq).newerMask.trans (hInsert_counts nodeEq).1
  | lookup hcode test => exact (hmHelpRehashing_helped (hmLookup_helps returns)).newerMask
  | delete hcode test =>
      obtain ⟨middle, helpEq, detached⟩ := hmDelete_detaches returns
      exact detached.newerMask.trans (hmHelpRehashing_helped helpEq).newerMask
  | clear => exact absurd rfl kept

end Calls

/-- The structure of the tables and their load. -/
structure HMap.Structured (hmap : HMap α) : Prop where
  /-- Powers of two, nodes in their buckets, exact sizes, and empty buckets before
  `migrate_pos`. -/
  valid : hmap.Valid
  doubled : hmap.older.tab.isSome → hmap.newer.mask + 1 = 2 * (hmap.older.mask + 1)
  inside : 0 < hmap.older.size → hmap.migratePos ≤ hmap.older.mask
  light : hmap.newer.tab.isSome → hmSize hmap < kMaxLoadFactor * (hmap.newer.mask + 1)
  /-- During a migration the next insertion does not make a resize due either. -/
  finishes : hmap.older.tab.isSome →
    hmSize hmap + 1 < kMaxLoadFactor * (hmap.newer.mask + 1)

theorem HMap.Loaded.structured {hmap : HMap α} (loaded : hmap.Loaded 0) : hmap.Structured where
  valid := loaded.valid
  doubled := loaded.doubled
  inside := by
    intro positive
    obtain ⟨tab, chain, allocated, found⟩ := loaded.valid.exists_slot positive
    have below := (List.getElem?_eq_some_iff.mp found).1
    rw [← (loaded.valid.older.buckets allocated).mask_add_one] at below
    exact Nat.le_of_lt_succ below
  light := loaded.light (Nat.zero_le _)
  finishes := loaded.hmSize_lt (Nat.zero_le _)

/-- Every map reached from the empty one is structured, every call on it returns, and no
call starts a resize while an older table exists. -/
theorem hmap_structured [DecidableEq α] {nodes : List (HNode α)} {hmap : HMap α}
    (reached : HMap.Reached nodes hmap) :
    hmap.Structured ∧ ∀ call : HCall α, ∃ after found, call.run hmap = .ok (after, found) ∧
      HMap.Reached (call.live nodes found) after ∧
      (hmap.older.tab.isSome → call ≠ .clear → after.newer.mask = hmap.newer.mask) := by
  have loaded := reached.loaded.1
  refine ⟨loaded.structured, fun call => ?_⟩
  obtain ⟨after, found, returns⟩ := loaded.valid.run call
  refine ⟨after, found, returns, .call reached call returns, fun migrating kept => ?_⟩
  exact loaded.valid.keeps_buckets migrating call kept returns

/-- Insertions lead to a reached map. -/
theorem HMap.Reached.insertAll [DecidableEq α] {nodes : List (HNode α)} :
    ∀ {live : List (HNode α)} {hmap after : HMap α}, HMap.Reached live hmap →
      hmInsertAll hmap nodes = .ok after → HMap.Reached (nodes.reverse ++ live) after := by
  induction nodes with
  | nil =>
      rintro live hmap _ reached ⟨⟩
      exact reached
  | cons node nodes ih =>
      intro live hmap after reached call
      obtain ⟨middle, insertEq, rest⟩ := Exec.bind_eq_ok.mp call
      have returns : (HCall.insert node).run hmap = .ok (middle, none) := by
        rw [HCall.run, insertEq]
        rfl
      rw [List.reverse_cons, List.append_assoc]
      exact ih (reached.call _ returns) rest

/-- Another insertion in the middle of a migration. -/
theorem hmap_structured_migrating : ∃ hmap after : HMap Nat,
    HMap.Reached (numbered 256).reverse hmap ∧ hmap.newer.size = 128 ∧ hmap.older.size = 128 ∧
    hmap.Structured ∧ hmInsert hmap ⟨256, 256⟩ = .ok after ∧
    after.newer.mask = hmap.newer.mask := by
  obtain ⟨hmap, inserts, newer, older, migrates⟩ := hmInsertAll_migrating
  have reached : HMap.Reached (numbered 256).reverse hmap := by
    have reached := HMap.Reached.insertAll .empty inserts
    rwa [List.append_nil] at reached
  obtain ⟨structured, calls⟩ := hmap_structured reached
  obtain ⟨after, found, returns, -, keeps⟩ := calls (.insert ⟨256, 256⟩)
  obtain ⟨result, insertEq, pair⟩ := Exec.bind_eq_ok.mp returns
  cases pair
  exact ⟨hmap, after, reached, newer, older, structured, insertEq, keeps migrates nofun⟩

end RedisLite
