import RedisLite.HashTable.Load
import RedisLite.Lib.Amortized

/-!
# The cost of progressive rehashing

One call of `hm_help_rehashing` moves at most `k_rehashing_work` nodes, but it may pass any
number of empty slots, and a resize allocates a table at once.  The insertions since the
last resize have paid for both: over any sequence of calls the work is linear in the
insertions alone.
-/

namespace RedisLite

open Lib

variable {α : Type}

/-! ## What a call costs -/

/-- The number of buckets of a table. -/
def HTab.slots (htab : HTab α) : Nat := (htab.tab.getD []).length

/-- The number of buckets of a map. -/
def HMap.slots (hmap : HMap α) : Nat := hmap.newer.slots + hmap.older.slots

/-- The nodes that `hm_help_rehashing` moves and the empty slots that it passes. -/
def helpTurns (hmap : HMap α) : Nat :=
  turns hmHelpTurn (kRehashingWork + hmap.older.slots + 1) (hmap, 0)

/-- `hm_insert` up to its call of `hm_help_rehashing`. -/
def hmInsertFront (hmap : HMap α) (node : HNode α) : Exec (HMap α) := do
  let hmap ← hmInitNewer hmap
  let hmap := { hmap with newer := ← hInsert hmap.newer node }
  hmCheckLoad hmap

/-- The work of a call on account of rehashing: the turns of the loop in
`hm_help_rehashing`, and the buckets allocated by `h_init`. -/
def HCall.work (hmap : HMap α) : HCall α → Nat
  | .insert node =>
      match hmInsertFront hmap node with
      | .ok front => (front.slots - hmap.slots) + helpTurns front
      | .error _ => 0
  | .lookup _ _ | .delete _ _ => helpTurns hmap
  | .clear => 0

/-- A sequence of calls, with the work of all of them. -/
def hmRun (hmap : HMap α) : List (HCall α) → Exec (HMap α × Nat)
  | [] => .ok (hmap, 0)
  | call :: calls => do
      let (middle, _) ← call.run hmap
      let (after, work) ← hmRun middle calls
      return (after, call.work hmap + work)

/-- Only insertions pay. -/
def HCall.isInsert : HCall α → Bool
  | .insert _ => true
  | .lookup _ _ | .delete _ _ | .clear => false

/-- What a call is credited. -/
def HCall.credit (call : HCall α) : Nat := if call.isInsert then 4 else 0

/-! ## The potential -/

/-- The turns that are left of the current migration. -/
def HMap.pending (hmap : HMap α) : Nat :=
  hmap.older.size + (hmap.older.slots - hmap.migratePos)

/-- What is paid for: the rest of this migration, and the next one from half of its load on. -/
def HMap.potential (hmap : HMap α) : Nat :=
  hmap.pending + 3 * (hmSize hmap - 4 * (hmap.newer.mask + 1))

section Tables

variable {htab after : HTab α} {node : HNode α}

theorem HTab.lt_slots {pos : Nat} {chain : List (HNode α)} (call : htab.chain pos = .ok chain) :
    pos < htab.slots := by
  obtain ⟨tab, allocated, found⟩ := Exec.bind_eq_ok.mp call
  cases known : htab.tab with
  | none =>
      rw [known] at allocated
      cases allocated
  | some other =>
      rw [known] at allocated
      cases allocated
      cases slot : tab[pos]? with
      | none =>
          rw [slot] at found
          cases found
      | some nodes =>
          rw [HTab.slots, known]
          exact (List.getElem?_eq_some_iff.mp slot).1

theorem HTab.slots_setChain (htab : HTab α) (pos : Nat) (nodes : List (HNode α)) :
    (htab.setChain pos nodes).slots = htab.slots := by
  cases allocated : htab.tab with
  | none => simp [HTab.slots, HTab.setChain, allocated]
  | some tab => simp [HTab.slots, HTab.setChain, allocated]

theorem hInsert_slots (call : hInsert htab node = .ok after) : after.slots = htab.slots := by
  obtain ⟨next, -, result⟩ := Exec.bind_eq_ok.mp call
  cases result
  exact HTab.slots_setChain _ _ _

theorem hDetach_slots {link : HFrom} (call : hDetach htab link = .ok (after, node)) :
    after.slots = htab.slots := by
  obtain ⟨chain, -, rest⟩ := Exec.bind_eq_ok.mp call
  obtain ⟨other, -, result⟩ := Exec.bind_eq_ok.mp rest
  cases result
  exact HTab.slots_setChain _ _ _

theorem hInit_slots {n : Nat} (call : hInit n = .ok htab) : htab.slots = n := by
  obtain ⟨-, -, result⟩ := Exec.bind_eq_ok.mp call
  cases result
  exact List.length_replicate

theorem HTab.Valid.slots_eq (valid : htab.Valid) (allocated : htab.tab.isSome) :
    htab.slots = htab.mask + 1 := by
  obtain ⟨tab, known⟩ := Option.isSome_iff_exists.mp allocated
  rw [HTab.slots, known]
  exact (valid.buckets known).mask_add_one.symm

end Tables

/-! ## The migration loop -/

/-- Every turn of the loop lowers what is left of the migration. -/
theorem hmHelpTurn_pays {state : HMap α × Nat} {outcome : Step (HMap α × Nat) (HMap α)}
    (call : hmHelpTurn state = .ok outcome) : outcome.Holds
      (fun after => after.1.pending + 1 ≤ state.1.pending)
      (fun result => result.pending ≤ state.1.pending) := by
  obtain ⟨hmap, nwork⟩ := state
  by_cases works : nwork < kRehashingWork ∧ hmap.older.size > 0
  · simp only [hmHelpTurn, if_pos works] at call
    obtain ⟨chain, chainEq, call⟩ := Exec.bind_eq_ok.mp call
    split at call
    · cases call
      have inside := HTab.lt_slots chainEq
      simp only [Step.holds_next, HMap.pending]
      omega
    · obtain ⟨⟨older, node⟩, detachEq, call⟩ := Exec.bind_eq_ok.mp call
      obtain ⟨newer, insertEq, call⟩ := Exec.bind_eq_ok.mp call
      cases call
      have size := (hDetach_counts detachEq).2.1
      have slots := hDetach_slots detachEq
      simp only [Step.holds_next, HMap.pending, slots]
      omega
  · simp only [hmHelpTurn, if_neg works] at call
    cases call
    exact Nat.le_refl _

/-- The turns of `hm_help_rehashing` are paid from the potential. -/
theorem hmHelpRehashing_pays {hmap after : HMap α} (call : hmHelpRehashing hmap = .ok after) :
    helpTurns hmap + after.potential ≤ hmap.potential := by
  have helped := hmHelpRehashing_helped call
  obtain ⟨middle, loopEq, result⟩ := Exec.bind_eq_ok.mp call
  have paid : helpTurns hmap + middle.pending ≤ hmap.pending :=
    turns_add_le (fun _ => True) (fun state => state.1.pending) HMap.pending
      (fun state outcome _ turn => by
        have lowered := hmHelpTurn_pays turn
        cases outcome with
        | next state => exact ⟨trivial, lowered⟩
        | done result => exact lowered)
      _ trivial loopEq
  have discarded : after.pending ≤ middle.pending := by
    cases result
    rw [hmDiscardOlder]
    split
    · simp only [HMap.pending, HTab.slots, Option.getD_none, List.length_nil]
      omega
    · exact Nat.le_refl _
  rw [HMap.potential, HMap.potential, helped.hmSize_eq, helped.newerMask]
  omega

/-! ## The calls -/

/-- Removing a node raises no part of the potential. -/
theorem hmDelete_pays {hmap after : HMap α} {hcode : UInt64} {eq : α → Exec Bool}
    {found : Option (HNode α)} (call : hmDelete hmap hcode eq = .ok (after, found)) :
    helpTurns hmap + after.potential ≤ hmap.potential := by
  obtain ⟨middle, helpEq, call⟩ := Exec.bind_eq_ok.mp call
  obtain ⟨inNewer, -, call⟩ := Exec.bind_eq_ok.mp call
  have paid := hmHelpRehashing_pays helpEq
  suffices after.potential ≤ middle.potential by omega
  cases inNewer with
  | some link =>
      obtain ⟨⟨newer, node⟩, detachEq, result⟩ := Exec.bind_eq_ok.mp call
      cases result
      obtain ⟨mask, size, -⟩ := hDetach_counts detachEq
      simp only [HMap.potential, HMap.pending, hmSize, mask]
      omega
  | none =>
      obtain ⟨inOlder, -, call⟩ := Exec.bind_eq_ok.mp call
      cases inOlder with
      | some link =>
          obtain ⟨⟨older, node⟩, detachEq, result⟩ := Exec.bind_eq_ok.mp call
          cases result
          obtain ⟨-, size, -⟩ := hDetach_counts detachEq
          have slots := hDetach_slots detachEq
          simp only [HMap.potential, HMap.pending, hmSize, slots]
          omega
      | none =>
          cases call
          exact Nat.le_refl _

/-- The load check pays for the new table and the migration with what was saved. -/
theorem HMap.Loaded.checkLoad_pays {hmap after : HMap α} (loaded : hmap.Loaded 0)
    (allocated : hmap.newer.tab.isSome) {node : HNode α} {newer : HTab α}
    (insertEq : hInsert hmap.newer node = .ok newer)
    (call : hmCheckLoad { hmap with newer := newer } = .ok after) :
    (after.slots - hmap.slots) + after.potential ≤ hmap.potential + 4 := by
  obtain ⟨mask, size, -⟩ := hInsert_counts insertEq
  have slots := hInsert_slots insertEq
  cases older : hmap.older.tab with
  | some tab =>
      simp only [hmCheckLoad, older, Option.isNone_some, Bool.false_eq_true, false_and,
        if_false] at call
      cases call
      simp only [HMap.potential, HMap.pending, HMap.slots, hmSize, mask, size, slots]
      omega
  | none =>
      have light := loaded.idle older allocated
      have noOlder := loaded.valid.older.eq_empty older
      have newerSlots := loaded.valid.newer.slots_eq allocated
      simp only [hmSize, noOlder] at light
      simp only [hmCheckLoad, older, Option.isNone_none, true_and] at call
      split at call
      · -- a resize: the table holds as many nodes as make it due
        rename_i full
        obtain ⟨fresh, initEq, result⟩ := Exec.bind_eq_ok.mp call
        obtain ⟨freshMask, freshSize⟩ := hInit_counts initEq
        have freshSlots := hInit_slots initEq
        cases result
        have noSlots : (HTab.slots ({} : HTab α)) = 0 := rfl
        simp only [HMap.potential, HMap.pending, HMap.slots, hmSize, mask, size, slots, noOlder,
          newerSlots, freshMask, freshSize, freshSlots, noSlots, kMaxLoadFactor] at light full ⊢
        omega
      · cases call
        simp only [HMap.potential, HMap.pending, HMap.slots, hmSize, mask, size, slots]
        omega

/-- An insertion is credited what it costs and saves. -/
theorem HMap.Loaded.insertFront_pays {hmap front : HMap α} (loaded : hmap.Loaded 0)
    {node : HNode α} (call : hmInsertFront hmap node = .ok front) :
    (front.slots - hmap.slots) + front.potential ≤ hmap.potential + 4 := by
  obtain ⟨first, initEq, call⟩ := Exec.bind_eq_ok.mp call
  obtain ⟨newer, insertEq, checkEq⟩ := Exec.bind_eq_ok.mp call
  obtain ⟨-, -, firstSome⟩ := (hmInitNewer_spec loaded.valid).of_eq_ok initEq
  have paid := (loaded.init initEq).checkLoad_pays firstSome insertEq checkEq
  cases allocated : hmap.newer.tab with
  | some tab =>
      rw [hmInitNewer, allocated] at initEq
      cases initEq
      exact paid
  | none =>
      have older : hmap.older = {} := by
        apply loaded.valid.older.eq_empty
        rw [← Option.not_isSome_iff_eq_none]
        intro migrating
        have newerSome := loaded.valid.allocated migrating
        rw [allocated] at newerSome
        cases newerSome
      simp only [hmInitNewer, allocated, Option.isNone_none, if_true] at initEq
      obtain ⟨fresh, freshEq, result⟩ := Exec.bind_eq_ok.mp initEq
      cases result
      obtain ⟨freshMask, freshSize⟩ := hInit_counts freshEq
      have freshSlots := hInit_slots freshEq
      obtain ⟨mask, size, -⟩ := hInsert_counts insertEq
      have slots := hInsert_slots insertEq
      have noSlots : (HTab.slots ({} : HTab α)) = 0 := rfl
      simp only at mask size slots
      have light : ¬ newer.size ≥ (newer.mask + 1) * kMaxLoadFactor := by
        rw [mask, size, freshMask, freshSize, kMaxLoadFactor]
        omega
      rw [hmCheckLoad, if_neg (fun full => light full.2)] at checkEq
      cases checkEq
      simp only [HMap.potential, HMap.pending, HMap.slots, hmSize, mask, size, slots, older,
        freshMask, freshSize, freshSlots, noSlots]
      omega

/-- Every call is paid by its credit and the potential. -/
theorem HMap.Loaded.run_pays {hmap after : HMap α} (loaded : hmap.Loaded 0) (call : HCall α)
    {found : Option (HNode α)} (returns : call.run hmap = .ok (after, found)) :
    call.work hmap + after.potential ≤ hmap.potential + call.credit := by
  cases call with
  | insert node =>
      obtain ⟨result, insertEq, pair⟩ := Exec.bind_eq_ok.mp returns
      cases pair
      obtain ⟨first, initEq, insertEq⟩ := Exec.bind_eq_ok.mp insertEq
      obtain ⟨newer, nodeEq, insertEq⟩ := Exec.bind_eq_ok.mp insertEq
      obtain ⟨front, checkEq, helpEq⟩ := Exec.bind_eq_ok.mp insertEq
      have frontEq : hmInsertFront hmap node = .ok front := by
        rw [hmInsertFront, initEq, Exec.ok_bind, nodeEq, Exec.ok_bind]
        exact checkEq
      have frontPaid := loaded.insertFront_pays frontEq
      have helpPaid := hmHelpRehashing_pays helpEq
      simp only [HCall.work, HCall.credit, HCall.isInsert, frontEq, if_true]
      omega
  | lookup hcode test => exact hmHelpRehashing_pays (hmLookup_helps returns)
  | delete hcode test => exact hmDelete_pays returns
  | clear =>
      cases returns
      exact Nat.zero_le _

/-! ## Sequences of calls -/

/-- A call as a step with a cost. -/
def HCall.Costs (hmap : HMap α) (call : HCall α) (cost : Nat) (after : HMap α) : Prop :=
  cost = call.work hmap ∧ ∃ found, call.run hmap = .ok (after, found)

theorem HCall.Costs.pays {hmap after : HMap α} {call : HCall α} {cost : Nat}
    (loaded : hmap.Loaded 0) (costs : HCall.Costs hmap call cost after) :
    after.Loaded 0 ∧ cost + after.potential ≤ hmap.potential + call.credit := by
  classical
  obtain ⟨rfl, found, returns⟩ := costs
  exact ⟨(loaded.run (.refl _) call returns).1, loaded.run_pays call returns⟩

/-- A loaded map serves every sequence of calls. -/
theorem HMap.Loaded.hmRun_spends {hmap : HMap α} (loaded : hmap.Loaded 0)
    (calls : List (HCall α)) :
    Exec.Returns (hmRun hmap calls) fun out => Spends HCall.Costs hmap calls out.2 out.1 := by
  classical
  induction calls generalizing hmap with
  | nil => exact .of_ok (.nil hmap)
  | cons call calls ih =>
      obtain ⟨middle, found, returns⟩ := loaded.valid.run call
      obtain ⟨⟨after, work⟩, further, spends⟩ := ih (loaded.run (.refl _) call returns).1
      simp only [hmRun, returns, Exec.ok_bind, further, Exec.pure_eq_ok]
      exact .of_ok (.cons ⟨rfl, found, returns⟩ spends)

theorem sum_credit (calls : List (HCall α)) :
    (calls.map HCall.credit).sum = 4 * calls.countP HCall.isInsert := by
  induction calls with
  | nil => rfl
  | cons call calls ih =>
      rw [List.map_cons, List.sum_cons, ih, List.countP_cons, HCall.credit]
      split
      · omega
      · omega

/-- Rehashing costs amortized constant time.  In every sequence of calls on an empty map, the
nodes moved, the empty slots passed and the buckets allocated are together at most four for
each insertion; searches and deletions add nothing, whatever part of the migration falls to
them. -/
theorem hmap_work_linear (calls : List (HCall α)) :
    Exec.Returns (hmRun ({} : HMap α) calls) fun out =>
      out.2 ≤ 4 * calls.countP HCall.isInsert := by
  have empty : ({} : HMap α).potential = 0 := rfl
  refine (HMap.Loaded.hmRun_spends .empty calls).mono fun out spends => ?_
  have paid := spends.amortized HMap.Loaded.empty fun _ _ _ _ => HCall.Costs.pays
  rw [sum_credit, empty] at paid
  omega

end RedisLite
