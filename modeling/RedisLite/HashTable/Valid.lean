import RedisLite.HashTable.Core
import Mathlib.Data.Nat.Bitwise

/-!
# The hash table invariant

A table is valid when its nodes sit in the buckets of their hash codes and `size`
counts them; a map is valid when moreover no bucket of the older table before
`migrate_pos` holds a node.  Every operation keeps the invariant, and each states
its effect on the list `nodes` of all nodes up to order: a migration step permutes
it.
-/

namespace RedisLite

open Lib

variable {α σ : Type}

/-! ## One table -/

/-- The invariant of an allocated table. -/
structure Buckets (tab : List (List (HNode α))) (mask size : Nat) : Prop where
  power : ∃ bits, tab.length = 2 ^ (bits + 1)
  mask_add_one : mask + 1 = tab.length
  placed : ∀ {pos chain}, tab[pos]? = some chain → ∀ node ∈ chain,
    bucketOf node.hcode mask = pos
  size_eq : size = tab.flatten.length

namespace Buckets

variable {tab : List (List (HNode α))} {mask size : Nat}

theorem bucket_lt (buckets : Buckets tab mask size) (hcode : UInt64) :
    bucketOf hcode mask < tab.length := by
  rw [← buckets.mask_add_one]
  exact Nat.lt_succ_of_le Nat.and_le_right

theorem exists_chain (buckets : Buckets tab mask size) (hcode : UInt64) :
    ∃ chain, tab[bucketOf hcode mask]? = some chain :=
  ⟨_, List.getElem?_eq_getElem (buckets.bucket_lt hcode)⟩

theorem mask_pos (buckets : Buckets tab mask size) : 0 < mask := by
  obtain ⟨bits, length⟩ := buckets.power
  have equal := buckets.mask_add_one
  have power := Nat.one_le_two_pow (n := bits)
  omega

/-- Replacing one chain, given where its nodes belong. -/
theorem set (buckets : Buckets tab mask size) {pos : Nat} {chain : List (HNode α)}
    (after : Nat) (placed : ∀ node ∈ chain, bucketOf node.hcode mask = pos)
    (count : after = (tab.set pos chain).flatten.length) :
    Buckets (tab.set pos chain) mask after where
  power := by simpa using buckets.power
  mask_add_one := by simpa using buckets.mask_add_one
  placed := by
    intro query other found node member
    rw [List.getElem?_set] at found
    split at found
    · obtain rfl : pos = query := by assumption
      split at found
      · cases found
        exact placed node member
      · cases found
    · exact buckets.placed found node member
  size_eq := count

end Buckets

/-- The nodes of a table, bucket after bucket. -/
def HTab.nodes (htab : HTab α) : List (HNode α) := (htab.tab.getD []).flatten

/-- The invariant of a table: it is zeroed, or allocated with well-placed nodes. -/
def HTab.Valid (htab : HTab α) : Prop :=
  match htab.tab with
  | none => htab = {}
  | some tab => Buckets tab htab.mask htab.size

/-- The link leads to the node. -/
def HTab.At (htab : HTab α) (link : HFrom) (node : HNode α) : Prop :=
  ∃ tab chain, htab.tab = some tab ∧ tab[link.pos]? = some chain ∧
    chain[link.index]? = some node

namespace HTab

variable {htab : HTab α} {tab : List (List (HNode α))}

theorem valid_empty : ({} : HTab α).Valid := rfl

@[simp] theorem nodes_empty : ({} : HTab α).nodes = [] := rfl

theorem nodes_some (allocated : htab.tab = some tab) : htab.nodes = tab.flatten := by
  simp [nodes, allocated]

theorem Valid.buckets (valid : htab.Valid) (allocated : htab.tab = some tab) :
    Buckets tab htab.mask htab.size := by
  simpa [Valid, allocated] using valid

theorem Valid.eq_empty (valid : htab.Valid) (null : htab.tab = none) : htab = {} := by
  simpa [Valid, null] using valid

theorem Valid.size_eq (valid : htab.Valid) : htab.size = htab.nodes.length := by
  cases allocated : htab.tab with
  | none =>
      rw [valid.eq_empty allocated]
      rfl
  | some tab => rw [(valid.buckets allocated).size_eq, nodes_some allocated]

theorem chain_eq (allocated : htab.tab = some tab) {pos : Nat} {chain : List (HNode α)}
    (found : tab[pos]? = some chain) : htab.chain pos = .ok chain := by
  simp [HTab.chain, allocated, found]

theorem At.node_eq {link : HFrom} {node : HNode α} (holds : htab.At link node) :
    htab.node link = .ok node := by
  obtain ⟨tab, chain, allocated, found, entry⟩ := holds
  simp [HTab.node, chain_eq allocated found, entry]

theorem At.mem_nodes {link : HFrom} {node : HNode α} (holds : htab.At link node) :
    node ∈ htab.nodes := by
  obtain ⟨tab, chain, allocated, found, entry⟩ := holds
  rw [nodes_some allocated]
  exact List.mem_flatten.mpr
    ⟨chain, List.mem_of_getElem? found, List.mem_of_getElem? entry⟩

end HTab

theorem exists_flatten_perm {tab : List (List (HNode α))} {pos : Nat} {chain : List (HNode α)}
    (found : tab[pos]? = some chain) :
    ∃ rest, ∀ other, (tab.set pos other).flatten.Perm (other ++ rest) := by
  obtain ⟨below, rfl⟩ := List.getElem?_eq_some_iff.mp found
  refine ⟨(tab.take pos).flatten ++ (tab.drop (pos + 1)).flatten, ?_⟩
  intro other
  rw [List.set_eq_take_append_cons_drop, if_pos below, List.flatten_append, List.flatten_cons]
  exact List.perm_append_comm_assoc _ _ _

theorem set_self {tab : List (List (HNode α))} {pos : Nat} {chain : List (HNode α)}
    (found : tab[pos]? = some chain) : tab.set pos chain = tab := by
  obtain ⟨below, rfl⟩ := List.getElem?_eq_some_iff.mp found
  exact List.set_getElem_self below

/-- `h_init` of a power of two allocates an empty table. -/
theorem hInit_spec (bits : Nat) :
    Exec.Returns (hInit (2 ^ (bits + 1)) : Exec (HTab α)) fun htab =>
      htab.Valid ∧ htab.tab.isSome ∧ htab.nodes = [] ∧ htab.mask + 1 = 2 ^ (bits + 1) := by
  have positive : 0 < 2 ^ (bits + 1) := Nat.two_pow_pos _
  have power : (2 ^ (bits + 1) - 1) &&& 2 ^ (bits + 1) = 0 := by
    rw [Nat.and_comm, Nat.and_two_pow_sub_one_eq_mod, Nat.mod_self]
  rw [hInit, Exec.assert_of ⟨positive, power⟩, Exec.ok_bind, Exec.pure_eq_ok, Exec.returns_ok]
  refine ⟨⟨⟨bits, by simp⟩, ?_, ?_, ?_⟩, rfl, ?_, ?_⟩
  · simp only [List.length_replicate]
    omega
  · intro pos chain found node member
    obtain ⟨-, rfl⟩ := by simpa using List.getElem?_eq_some_iff.mp found
    cases member
  · simp
  · simp [HTab.nodes]
  · simp only
    omega

/-- `h_insert` adds the node to its bucket. -/
theorem hInsert_spec {htab : HTab α} (valid : htab.Valid) (allocated : htab.tab.isSome)
    (node : HNode α) :
    Exec.Returns (hInsert htab node) fun after =>
      after.Valid ∧ after.tab.isSome ∧ after.mask = htab.mask ∧
        after.nodes.Perm (node :: htab.nodes) := by
  obtain ⟨tab, allocated⟩ := Option.isSome_iff_exists.mp allocated
  have buckets := valid.buckets allocated
  obtain ⟨chain, found⟩ := buckets.exists_chain node.hcode
  obtain ⟨rest, perm⟩ := exists_flatten_perm found
  have before : tab.flatten.Perm (chain ++ rest) := by
    have equal := perm chain
    rwa [set_self found] at equal
  have moved : (tab.set (bucketOf node.hcode htab.mask) (node :: chain)).flatten.Perm
      (node :: tab.flatten) :=
    (perm (node :: chain)).trans (.cons node before.symm)
  have result : hInsert htab node = .ok { htab with
      tab := some (tab.set (bucketOf node.hcode htab.mask) (node :: chain))
      size := htab.size + 1 } := by
    simp [hInsert, HTab.chain_eq allocated found, HTab.setChain, allocated]
  rw [result, Exec.returns_ok]
  refine ⟨buckets.set _ ?_ ?_, rfl, rfl, ?_⟩
  · intro other member
    rcases List.mem_cons.mp member with rfl | member
    · rfl
    · exact buckets.placed found other member
  · rw [moved.length_eq, buckets.size_eq, List.length_cons]
  · simpa [HTab.nodes, allocated] using moved

/-- `h_detach` unlinks exactly the node of its link. -/
theorem hDetach_spec {htab : HTab α} (valid : htab.Valid) {link : HFrom} {node : HNode α}
    (holds : htab.At link node) :
    ∃ after, hDetach htab link = .ok (after, node) ∧ after.Valid ∧ after.tab.isSome ∧
      htab.nodes.Perm (node :: after.nodes) ∧
      ∀ tab, htab.tab = some tab → ∃ chain, tab[link.pos]? = some chain ∧
        after.tab = some (tab.set link.pos (chain.eraseIdx link.index)) := by
  have nodeEq := holds.node_eq
  obtain ⟨tab, chain, allocated, found, entry⟩ := holds
  have buckets := valid.buckets allocated
  obtain ⟨rest, perm⟩ := exists_flatten_perm found
  obtain ⟨inside, rfl⟩ := List.getElem?_eq_some_iff.mp entry
  have removed : tab.flatten.Perm
      (chain[link.index] :: (tab.set link.pos (chain.eraseIdx link.index)).flatten) := by
    have before := perm chain
    rw [set_self found] at before
    refine before.trans (.trans ?_ (.cons _ (perm _).symm))
    exact ((List.getElem_cons_eraseIdx_perm inside).symm.append_right rest)
  refine ⟨{ htab with
      tab := some (tab.set link.pos (chain.eraseIdx link.index)), size := htab.size - 1 },
    ?_, buckets.set _ ?_ ?_, rfl, ?_, ?_⟩
  · simp [hDetach, HTab.chain_eq allocated found, nodeEq, HTab.setChain, allocated]
  · intro other member
    exact buckets.placed found other (List.mem_of_mem_eraseIdx member)
  · rw [buckets.size_eq, removed.length_eq, List.length_cons, Nat.add_sub_cancel]
  · simpa [HTab.nodes, allocated] using removed
  · intro other same
    obtain rfl : tab = other := Option.some.inj (allocated.symm.trans same)
    exact ⟨chain, found, rfl⟩

/-! ## Searching -/

/-- `eq` returns `test` on every node with the searched hash code. -/
def Decides (nodes : List (HNode α)) (hcode : UInt64) (eq : α → Exec Bool)
    (test : α → Bool) : Prop :=
  ∀ node ∈ nodes, node.hcode = hcode → eq node.ref = .ok (test node.ref)

/-- What a search looks for. -/
def HNode.Matches (hcode : UInt64) (test : α → Bool) (node : HNode α) : Prop :=
  node.hcode = hcode ∧ test node.ref = true

instance (hcode : UInt64) (test : α → Bool) (node : HNode α) :
    Decidable (node.Matches hcode test) :=
  inferInstanceAs (Decidable (_ ∧ _))

section Search

variable {hcode : UInt64} {eq : α → Exec Bool} {test : α → Bool}

theorem Decides.mono {nodes fewer : List (HNode α)} (decides : Decides nodes hcode eq test)
    (subset : ∀ node ∈ fewer, node ∈ nodes) : Decides fewer hcode eq test :=
  fun node member => decides node (subset node member)

/-- The walk over a chain stops at a match, or there is none. -/
theorem hLookupChain_spec {chain : List (HNode α)} (decides : Decides chain hcode eq test) :
    Exec.Returns (hLookupChain hcode eq chain) fun
      | some index => ∃ node, chain[index]? = some node ∧ node.Matches hcode test
      | none => ∀ node ∈ chain, ¬ node.Matches hcode test := by
  induction chain with
  | nil => simp [hLookupChain]
  | cons cur rest ih =>
      obtain ⟨found, restEq, holds⟩ := ih (decides.mono fun _ => List.mem_cons_of_mem _)
      have testEq : hNodeEq cur hcode eq = .ok (decide (cur.Matches hcode test)) := by
        unfold hNodeEq
        by_cases same : cur.hcode = hcode
        · rw [if_pos same, decides cur List.mem_cons_self same]
          simp [HNode.Matches, same]
        · rw [if_neg same]
          simp [HNode.Matches, same]
      simp only [hLookupChain, testEq, Exec.ok_bind, restEq, decide_eq_true_eq,
        Exec.pure_eq_ok]
      by_cases isMatch : cur.Matches hcode test
      · rw [if_pos isMatch]
        exact .of_ok ⟨cur, rfl, isMatch⟩
      · rw [if_neg isMatch, Exec.returns_ok]
        cases found with
        | none =>
            intro node member
            rcases List.mem_cons.mp member with rfl | member
            · exact isMatch
            · exact holds node member
        | some index => simpa using holds

/-- `h_lookup` finds a match when the table holds one. -/
theorem hLookup_spec {htab : HTab α} (valid : htab.Valid)
    (decides : Decides htab.nodes hcode eq test) :
    Exec.Returns (hLookup htab hcode eq) fun
      | some link => ∃ node, htab.At link node ∧ node.Matches hcode test
      | none => ∀ node ∈ htab.nodes, ¬ node.Matches hcode test := by
  cases allocated : htab.tab with
  | none =>
      simp [hLookup, allocated, HTab.nodes]
  | some tab =>
      have buckets := valid.buckets allocated
      obtain ⟨chain, found⟩ := buckets.exists_chain hcode
      have inTable : ∀ node ∈ chain, node ∈ htab.nodes := fun node member => by
        rw [HTab.nodes_some allocated]
        exact List.mem_flatten.mpr ⟨chain, List.mem_of_getElem? found, member⟩
      obtain ⟨result, chainEq, holds⟩ := hLookupChain_spec (decides.mono inTable)
      simp only [hLookup, allocated, HTab.chain_eq allocated found, Exec.ok_bind, chainEq,
        Exec.pure_eq_ok, Exec.returns_ok]
      cases result with
      | some index =>
          obtain ⟨node, entry, isMatch⟩ := holds
          exact ⟨node, ⟨tab, chain, allocated, found, entry⟩, isMatch⟩
      | none =>
          intro node member isMatch
          rw [HTab.nodes_some allocated, List.mem_flatten] at member
          obtain ⟨other, otherMem, nodeMem⟩ := member
          obtain ⟨pos, otherFound⟩ := List.mem_iff_getElem?.mp otherMem
          have place := buckets.placed otherFound node nodeMem
          rw [isMatch.1] at place
          rw [place, otherFound] at found
          cases found
          exact holds node nodeMem isMatch

end Search

/-! ## Two tables -/

/-- All nodes of a map. -/
def HMap.nodes (hmap : HMap α) : List (HNode α) := hmap.newer.nodes ++ hmap.older.nodes

/-- The invariant of a map. -/
structure HMap.Valid (hmap : HMap α) : Prop where
  newer : hmap.newer.Valid
  older : hmap.older.Valid
  allocated : hmap.older.tab.isSome → hmap.newer.tab.isSome
  /-- The slots before `migrate_pos` are empty. -/
  migrated : ∀ tab, hmap.older.tab = some tab → ∀ pos < hmap.migratePos,
    ∀ chain, tab[pos]? = some chain → chain = []

namespace HMap

theorem valid_empty : ({} : HMap α).Valid :=
  ⟨HTab.valid_empty, HTab.valid_empty, by simp, by simp⟩

@[simp] theorem nodes_empty : ({} : HMap α).nodes = [] := rfl

variable {hmap : HMap α}

theorem Valid.hmSize_eq (valid : hmap.Valid) : hmSize hmap = hmap.nodes.length := by
  simp [hmSize, HMap.nodes, valid.newer.size_eq, valid.older.size_eq]

/-- While the older table holds a node, `migrate_pos` is a slot of it. -/
theorem Valid.exists_slot (valid : hmap.Valid) (positive : 0 < hmap.older.size) :
    ∃ tab chain, hmap.older.tab = some tab ∧ tab[hmap.migratePos]? = some chain := by
  cases allocated : hmap.older.tab with
  | none =>
      rw [valid.older.eq_empty allocated] at positive
      exact absurd positive (Nat.lt_irrefl 0)
  | some tab =>
      by_cases below : hmap.migratePos < tab.length
      · exact ⟨tab, _, rfl, List.getElem?_eq_getElem below⟩
      · have empty : ∀ chain ∈ tab, chain = [] := by
          intro chain member
          obtain ⟨pos, found⟩ := List.mem_iff_getElem?.mp member
          have inside := (List.getElem?_eq_some_iff.mp found).1
          exact valid.migrated tab allocated pos (by omega) chain found
        have none : tab.flatten = [] := List.flatten_eq_nil_iff.mpr empty
        rw [(valid.older.buckets allocated).size_eq, none] at positive
        exact absurd positive (Nat.lt_irrefl 0)

theorem Valid.hInsert_newer (valid : hmap.Valid) (allocated : hmap.newer.tab.isSome)
    (node : HNode α) :
    Exec.Returns (hInsert hmap.newer node) fun newer =>
      Valid { hmap with newer := newer } ∧ newer.tab.isSome ∧
        ({ hmap with newer := newer } : HMap α).nodes.Perm (node :: hmap.nodes) := by
  obtain ⟨newer, insertEq, newerValid, newerSome, -, inserted⟩ :=
    hInsert_spec valid.newer allocated node
  exact ⟨newer, insertEq, ⟨newerValid, valid.older, fun _ => newerSome, valid.migrated⟩,
    newerSome, inserted.append_right _⟩

theorem Valid.hDetach_newer (valid : hmap.Valid) {link : HFrom} {node : HNode α}
    (holds : hmap.newer.At link node) :
    ∃ newer, hDetach hmap.newer link = .ok (newer, node) ∧ Valid { hmap with newer := newer } ∧
      hmap.nodes.Perm (node :: ({ hmap with newer := newer } : HMap α).nodes) := by
  obtain ⟨newer, detachEq, newerValid, newerSome, detached, -⟩ := hDetach_spec valid.newer holds
  exact ⟨newer, detachEq, ⟨newerValid, valid.older, fun _ => newerSome, valid.migrated⟩,
    detached.append_right _⟩

/-- A node is removed from the older table, which keeps its slots. -/
theorem Valid.hDetach_older (valid : hmap.Valid) {link : HFrom} {node : HNode α}
    (holds : hmap.older.At link node) :
    ∃ older, hDetach hmap.older link = .ok (older, node) ∧ Valid { hmap with older := older } ∧
      hmap.nodes.Perm (node :: ({ hmap with older := older } : HMap α).nodes) ∧
      (older.tab.getD []).length = (hmap.older.tab.getD []).length := by
  obtain ⟨older, detachEq, olderValid, -, detached, shape⟩ := hDetach_spec valid.older holds
  obtain ⟨tab, -, allocated, -, -⟩ := holds
  obtain ⟨chain, found, olderTab⟩ := shape tab allocated
  refine ⟨older, detachEq, ⟨valid.newer, olderValid, fun _ => valid.allocated ?_, ?_⟩,
    (detached.append_left _).trans List.perm_middle, ?_⟩
  · simp [allocated]
  · intro set same pos below after slot
    obtain rfl := Option.some.inj (olderTab.symm.trans same)
    rw [List.getElem?_set] at slot
    split at slot
    · obtain rfl : link.pos = pos := by assumption
      have empty := valid.migrated tab allocated _ below chain found
      split at slot
      · simpa [empty] using slot.symm
      · cases slot
    · exact valid.migrated tab allocated pos below after slot
  · simp [olderTab, allocated]

end HMap

/-- The bound of the migration loop: work left plus slots left. -/
def helpMeasure (slots : Nat) (state : HMap α × Nat) : Nat :=
  (kRehashingWork - state.2) + (slots - state.1.migratePos)

/-- What the migration loop keeps: the invariant, the nodes, the number of slots. -/
structure Helping (before : HMap α) (state : HMap α × Nat) : Prop where
  valid : state.1.Valid
  nodes : state.1.nodes.Perm before.nodes
  slots : (state.1.older.tab.getD []).length = (before.older.tab.getD []).length
  allocated : before.newer.tab.isSome → state.1.newer.tab.isSome

/-- One turn passes an empty slot or moves one node. -/
theorem hmHelpTurn_spec {before : HMap α} (state : HMap α × Nat)
    (helping : Helping before state) :
    Exec.Returns (hmHelpTurn state) (Step.Holds
      (fun after => Helping before after ∧
        helpMeasure (before.older.tab.getD []).length after <
          helpMeasure (before.older.tab.getD []).length state)
      (fun after => ∃ nwork, Helping before (after, nwork))) := by
  obtain ⟨hmap, nwork⟩ := state
  have valid : hmap.Valid := helping.valid
  by_cases works : nwork < kRehashingWork ∧ hmap.older.size > 0
  · obtain ⟨tab, chain, allocated, found⟩ := valid.exists_slot works.2
    have slots : tab.length = (before.older.tab.getD []).length := by
      rw [← helping.slots]
      simp [allocated]
    have inside := (List.getElem?_eq_some_iff.mp found).1
    simp only [hmHelpTurn, if_pos works, HTab.chain_eq allocated found, Exec.ok_bind]
    cases chain with
    | nil =>
        refine .of_ok ⟨⟨⟨valid.newer, valid.older, valid.allocated, ?_⟩, helping.nodes,
          helping.slots, helping.allocated⟩, ?_⟩
        · intro other same pos below chain slot
          obtain rfl : tab = other := Option.some.inj (allocated.symm.trans same)
          rcases Nat.lt_succ_iff_lt_or_eq.mp below with below | rfl
          · exact valid.migrated tab allocated pos below chain slot
          · exact Option.some.inj (slot.symm.trans found)
        · simp only [helpMeasure]
          omega
    | cons node rest =>
        have holds : hmap.older.At ⟨hmap.migratePos, 0⟩ node :=
          ⟨tab, node :: rest, allocated, found, rfl⟩
        obtain ⟨older, detachEq, detachedValid, detached, kept⟩ := valid.hDetach_older holds
        obtain ⟨newer, insertEq, movedValid, newerSome, inserted⟩ :=
          detachedValid.hInsert_newer (valid.allocated (by simp [allocated])) node
        have insertEq : hInsert hmap.newer node = .ok newer := insertEq
        simp only [List.isEmpty_cons, Bool.false_eq_true, if_false, detachEq, Exec.ok_bind,
          insertEq, Exec.pure_eq_ok, Exec.returns_ok, Step.holds_next]
        refine ⟨⟨movedValid, ?_, kept.trans helping.slots, fun _ => newerSome⟩, ?_⟩
        · exact (inserted.trans detached.symm).trans helping.nodes
        · have work := works.1
          simp only [helpMeasure]
          omega
  · simp only [hmHelpTurn, if_neg works, Exec.pure_eq_ok, Exec.returns_ok, Step.holds_done]
    exact ⟨nwork, helping⟩

/-- `hm_help_rehashing` returns and only moves nodes between the tables. -/
theorem hmHelpRehashing_spec {hmap : HMap α} (valid : hmap.Valid) :
    Exec.Returns (hmHelpRehashing hmap) fun after =>
      after.Valid ∧ after.nodes.Perm hmap.nodes ∧
        (hmap.newer.tab.isSome → after.newer.tab.isSome) := by
  have start : Helping hmap (hmap, 0) := ⟨valid, .refl _, rfl, id⟩
  obtain ⟨middle, loopEq, nwork, helped⟩ :=
    loop_returns (Helping hmap) (helpMeasure (hmap.older.tab.getD []).length) hmHelpTurn_spec
      (kRehashingWork + (hmap.older.tab.getD []).length + 1) (hmap, 0) start
      (by simp only [helpMeasure]; omega)
  simp only [hmHelpRehashing, loopEq, Exec.ok_bind, Exec.pure_eq_ok, Exec.returns_ok]
  have middleValid : middle.Valid := helped.valid
  unfold hmDiscardOlder
  split
  · rename_i done
    have none : middle.older.nodes = [] := by
      rw [← List.length_eq_zero_iff, ← middleValid.older.size_eq, done.1]
    have nodes : middle.nodes.Perm hmap.nodes := helped.nodes
    refine ⟨⟨middleValid.newer, HTab.valid_empty, by simp, by simp⟩, ?_, helped.allocated⟩
    simpa [HMap.nodes, none] using nodes
  · exact ⟨middleValid, helped.nodes, helped.allocated⟩

/-- `hm_lookup` returns a matching node when there is one. -/
theorem hmLookup_spec {hmap : HMap α} (valid : hmap.Valid) {hcode : UInt64}
    {eq : α → Exec Bool} {test : α → Bool} (decides : Decides hmap.nodes hcode eq test) :
    ∃ after found, hmLookup hmap hcode eq = .ok (after, found) ∧
      after.Valid ∧ after.nodes.Perm hmap.nodes ∧
      match found with
      | some node => node ∈ hmap.nodes ∧ node.Matches hcode test
      | none => ∀ node ∈ hmap.nodes, ¬ node.Matches hcode test := by
  obtain ⟨after, helpEq, afterValid, perm, -⟩ := hmHelpRehashing_spec valid
  have decided : Decides after.nodes hcode eq test :=
    decides.mono fun node member => perm.mem_iff.mp member
  obtain ⟨inNewer, newerEq, newerHolds⟩ :=
    hLookup_spec afterValid.newer (decided.mono fun _ => List.mem_append_left _)
  obtain ⟨inOlder, olderEq, olderHolds⟩ :=
    hLookup_spec afterValid.older (decided.mono fun _ => List.mem_append_right _)
  cases inNewer with
  | some link =>
      obtain ⟨node, holds, isMatch⟩ := newerHolds
      refine ⟨after, some node, ?_, afterValid, perm, ?_, isMatch⟩
      · simp [hmLookup, helpEq, newerEq, holds.node_eq]
      · exact perm.mem_iff.mp (List.mem_append_left _ holds.mem_nodes)
  | none =>
      cases inOlder with
      | some link =>
          obtain ⟨node, holds, isMatch⟩ := olderHolds
          refine ⟨after, some node, ?_, afterValid, perm, ?_, isMatch⟩
          · simp [hmLookup, helpEq, newerEq, olderEq, holds.node_eq]
          · exact perm.mem_iff.mp (List.mem_append_right _ holds.mem_nodes)
      | none =>
          refine ⟨after, none, ?_, afterValid, perm, ?_⟩
          · simp [hmLookup, helpEq, newerEq, olderEq]
          · intro node member
            rcases List.mem_append.mp (perm.mem_iff.mpr member) with member | member
            · exact newerHolds node member
            · exact olderHolds node member

/-- `hm_trigger_rehashing` moves the newer table to the free older slot. -/
theorem hmTriggerRehashing_spec {hmap : HMap α} (valid : hmap.Valid)
    (allocated : hmap.newer.tab.isSome) (idle : hmap.older.tab = none) :
    Exec.Returns (hmTriggerRehashing hmap) fun after =>
      after.Valid ∧ after.nodes.Perm hmap.nodes := by
  obtain ⟨tab, allocated⟩ := Option.isSome_iff_exists.mp allocated
  have buckets := valid.newer.buckets allocated
  obtain ⟨bits, length⟩ := buckets.power
  have doubled : (hmap.newer.mask + 1) * 2 = 2 ^ (bits + 1 + 1) := by
    rw [buckets.mask_add_one, length, Nat.pow_succ 2 (bits + 1)]
  obtain ⟨fresh, freshEq, freshValid, freshSome, empty, -⟩ := @hInit_spec α (bits + 1)
  simp only [hmTriggerRehashing, doubled, freshEq, Exec.ok_bind, Exec.pure_eq_ok, Exec.returns_ok]
  refine ⟨⟨freshValid, valid.newer, fun _ => freshSome, by simp⟩, ?_⟩
  simp [HMap.nodes, empty, valid.older.eq_empty idle]

/-- The first lines of `hm_insert` allocate the newer table. -/
theorem hmInitNewer_spec {hmap : HMap α} (valid : hmap.Valid) :
    Exec.Returns (hmInitNewer hmap) fun after =>
      after.Valid ∧ after.nodes = hmap.nodes ∧ after.newer.tab.isSome := by
  unfold hmInitNewer
  cases allocated : hmap.newer.tab with
  | some tab => exact .of_ok ⟨valid, rfl, by simp [allocated]⟩
  | none =>
      obtain ⟨newer, initEq, newerValid, newerSome, empty, -⟩ := @hInit_spec α 1
      have initEq : hInit 4 = Except.ok newer := initEq
      simp only [Option.isNone_none, if_true, initEq, Exec.ok_bind, Exec.pure_eq_ok,
        Exec.returns_ok]
      refine ⟨⟨newerValid, valid.older, fun _ => newerSome, valid.migrated⟩, ?_, newerSome⟩
      simp [HMap.nodes, empty, valid.newer.eq_empty allocated]

theorem hmCheckLoad_spec {hmap : HMap α} (valid : hmap.Valid) (allocated : hmap.newer.tab.isSome) :
    Exec.Returns (hmCheckLoad hmap) fun after =>
      after.Valid ∧ after.nodes.Perm hmap.nodes := by
  unfold hmCheckLoad
  split
  · rename_i full
    exact hmTriggerRehashing_spec valid allocated (Option.isNone_iff_eq_none.mp full.1)
  · exact .of_ok ⟨valid, .refl _⟩

/-- `hm_insert` adds the node. -/
theorem hmInsert_spec {hmap : HMap α} (valid : hmap.Valid) (node : HNode α) :
    Exec.Returns (hmInsert hmap node) fun after =>
      after.Valid ∧ after.nodes.Perm (node :: hmap.nodes) := by
  obtain ⟨first, firstEq, firstValid, firstNodes, firstSome⟩ := hmInitNewer_spec valid
  obtain ⟨newer, insertEq, secondValid, newerSome, secondNodes⟩ :=
    firstValid.hInsert_newer firstSome node
  rw [firstNodes] at secondNodes
  obtain ⟨third, thirdEq, thirdValid, thirdNodes⟩ := hmCheckLoad_spec secondValid newerSome
  obtain ⟨after, helpEq, afterValid, afterNodes, -⟩ := hmHelpRehashing_spec thirdValid
  refine ⟨after, ?_, afterValid, afterNodes.trans (thirdNodes.trans secondNodes)⟩
  simp only [hmInsert, firstEq, Exec.ok_bind, insertEq, thirdEq, helpEq]

/-- `hm_delete` removes a matching node when there is one, and no other. -/
theorem hmDelete_spec {hmap : HMap α} (valid : hmap.Valid) {hcode : UInt64}
    {eq : α → Exec Bool} {test : α → Bool} (decides : Decides hmap.nodes hcode eq test) :
    ∃ after found, hmDelete hmap hcode eq = .ok (after, found) ∧ after.Valid ∧
      match found with
      | some node => hmap.nodes.Perm (node :: after.nodes) ∧ node.Matches hcode test
      | none => hmap.nodes.Perm after.nodes ∧ ∀ node ∈ hmap.nodes, ¬ node.Matches hcode test := by
  obtain ⟨middle, helpEq, middleValid, perm, -⟩ := hmHelpRehashing_spec valid
  have decided : Decides middle.nodes hcode eq test :=
    decides.mono fun node member => perm.mem_iff.mp member
  obtain ⟨inNewer, newerEq, newerHolds⟩ :=
    hLookup_spec middleValid.newer (decided.mono fun _ => List.mem_append_left _)
  obtain ⟨inOlder, olderEq, olderHolds⟩ :=
    hLookup_spec middleValid.older (decided.mono fun _ => List.mem_append_right _)
  cases inNewer with
  | some link =>
      obtain ⟨node, holds, isMatch⟩ := newerHolds
      obtain ⟨newer, detachEq, afterValid, detached⟩ := middleValid.hDetach_newer holds
      refine ⟨{ middle with newer := newer }, some node, ?_, afterValid, ?_, isMatch⟩
      · simp [hmDelete, helpEq, newerEq, detachEq]
      · exact perm.symm.trans detached
  | none =>
      cases inOlder with
      | some link =>
          obtain ⟨node, holds, isMatch⟩ := olderHolds
          obtain ⟨older, detachEq, afterValid, detached, -⟩ := middleValid.hDetach_older holds
          refine ⟨{ middle with older := older }, some node, ?_, afterValid, ?_, isMatch⟩
          · simp [hmDelete, helpEq, newerEq, olderEq, detachEq]
          · exact perm.symm.trans detached
      | none =>
          refine ⟨middle, none, ?_, middleValid, perm.symm, ?_⟩
          · simp [hmDelete, helpEq, newerEq, olderEq]
          · intro node member
            rcases List.mem_append.mp (perm.mem_iff.mpr member) with member | member
            · exact newerHolds node member
            · exact olderHolds node member

/-! ## Iteration -/

theorem hForeachNodes_eq {f : HNode α → σ → Exec (Bool × σ)} {next : σ → HNode α → σ}
    {nodes : List (HNode α)}
    (goesOn : ∀ node ∈ nodes, ∀ arg, f node arg = .ok (true, next arg node)) (arg : σ) :
    hForeachNodes f nodes arg = .ok (true, nodes.foldl next arg) := by
  induction nodes generalizing arg with
  | nil => rfl
  | cons node rest ih =>
      simp only [hForeachNodes, goesOn node List.mem_cons_self, Exec.ok_bind, if_true,
        List.foldl_cons]
      exact ih (fun other member => goesOn other (List.mem_cons_of_mem _ member)) _

/-- A walk over two lists of nodes reaches the second one if the callback goes on. -/
theorem hForeachNodes_append (f : HNode α → σ → Exec (Bool × σ)) (front back : List (HNode α))
    (arg : σ) :
    hForeachNodes f (front ++ back) arg = hForeachNodes f front arg >>= fun result =>
      if result.1 then hForeachNodes f back result.2 else .ok result := by
  induction front generalizing arg with
  | nil => simp [hForeachNodes]
  | cons node front ih =>
      simp only [List.cons_append, hForeachNodes]
      cases f node arg with
      | error fault => rfl
      | ok result =>
          obtain ⟨goOn, arg⟩ := result
          cases goOn with
          | false => rfl
          | true => exact ih arg

/-- `h_foreach` walks over the nodes of a valid table. -/
theorem HTab.Valid.hForeach_eq {htab : HTab α} (valid : htab.Valid)
    (f : HNode α → σ → Exec (Bool × σ)) (arg : σ) :
    hForeach htab f arg = hForeachNodes f htab.nodes arg := by
  cases allocated : htab.tab with
  | none =>
      rw [valid.eq_empty allocated]
      rfl
  | some tab =>
      have positive := (valid.buckets allocated).mask_pos
      simp only [HTab.nodes_some allocated, hForeach, if_pos (Nat.ne_of_gt positive), allocated,
        Exec.deref_some, Exec.ok_bind]

/-- `hm_foreach` walks over all nodes of a valid map. -/
theorem HMap.Valid.hmForeach_eq {hmap : HMap α} (valid : hmap.Valid)
    (f : HNode α → σ → Exec (Bool × σ)) (arg : σ) :
    hmForeach hmap f arg = (hForeachNodes f hmap.nodes arg).map Prod.snd := by
  rw [hmForeach, valid.newer.hForeach_eq, HMap.nodes, hForeachNodes_append]
  cases hForeachNodes f hmap.newer.nodes arg with
  | error fault => rfl
  | ok result =>
      obtain ⟨goOn, arg⟩ := result
      cases goOn with
      | false => rfl
      | true =>
          simp only [Exec.ok_bind, if_true, valid.older.hForeach_eq]
          cases hForeachNodes f hmap.older.nodes arg <;> rfl

theorem hmForeach_eq {hmap : HMap α} (valid : hmap.Valid) {f : HNode α → σ → Exec (Bool × σ)}
    {next : σ → HNode α → σ}
    (goesOn : ∀ node ∈ hmap.nodes, ∀ arg, f node arg = .ok (true, next arg node)) (arg : σ) :
    hmForeach hmap f arg = .ok (hmap.nodes.foldl next arg) := by
  rw [valid.hmForeach_eq, hForeachNodes_eq goesOn]
  rfl

/-! ## A map in the middle of a migration -/

/-- Insert nodes one after the other. -/
def hmInsertAll (hmap : HMap α) : List (HNode α) → Exec (HMap α)
  | [] => .ok hmap
  | node :: nodes => do hmInsertAll (← hmInsert hmap node) nodes

/-- The nodes 0, 1, 2 and so on. -/
def numbered (count : Nat) : List (HNode Nat) :=
  (List.range count).map fun ref => ⟨UInt64.ofNat ref, ref⟩

/-- The last of 256 insertions starts a resize and migrates half of the nodes. -/
theorem hmInsertAll_migrating : Exec.Returns (hmInsertAll {} (numbered 256)) fun hmap =>
    hmap.newer.size = 128 ∧ hmap.older.size = 128 ∧ hmap.older.tab.isSome := by
  have counts : (hmInsertAll {} (numbered 256)).toOption.map (fun hmap =>
      (hmap.newer.size, hmap.older.size, hmap.older.tab.isSome)) = some (128, 128, true) := by
    decide +kernel
  cases call : hmInsertAll {} (numbered 256) with
  | error fault =>
      rw [call] at counts
      cases counts
  | ok hmap =>
      rw [call] at counts
      simp only [Except.toOption, Option.map_some, Option.some.injEq, Prod.mk.injEq] at counts
      exact .of_ok counts

end RedisLite
