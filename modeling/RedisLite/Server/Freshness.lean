import RedisLite.Server.Expiry

/-!
# Deadlines and sweeps

Only the sweep removes a key whose deadline has passed.  A sweep that is not stopped by
its work limit leaves no key with a deadline before its clock reading, and such a deadline
cannot come back: PEXPIRE sets deadlines from its own clock reading on.
-/

namespace RedisLite

open Lib

/-! ## Creation of keys -/

/-- The request writes a value under the key. -/
def Request.Writes (key : Bytes) : Request → Prop
  | .set written _ => written = key
  | .zadd written _ _ => written = key
  | _ => False

/-- The event is a request that writes a value under the key. -/
def Event.Writes (key : Bytes) : Event → Prop
  | .request cmd _ => (Request.ofCmd cmd).Writes key
  | .sweep _ _ => False

variable {D : Type} [Dbl D]

/-- A missing key stays missing unless it is written. -/
theorem lifeAfter_none {request : Request} {key : Bytes} (noWrite : ¬ request.Writes key)
    (now : Nat) : lifeAfter D request now key none = none := by
  cases request with
  | set written str => exact if_neg noWrite
  | zadd written score name => exact if_neg fun holds => noWrite holds.1
  | del deleted => exact ite_self none
  | pexpire timed ttlMs =>
      simp only [lifeAfter]
      split
      · exact ite_self none
      · rfl
  | _ => rfl

/-- A key that is missing at some time is missing until it is written. -/
theorem life_none {key : Bytes} {before : List Event} (missing : life D key before = none) :
    ∀ {recent : List Event}, (∀ event ∈ recent, ¬ event.Writes key) →
      life D key (recent ++ before) = none
  | [], _ => missing
  | .request cmd now :: recent, noWrites => by
      rw [List.forall_mem_cons] at noWrites
      rw [List.cons_append, life_request, life_none missing noWrites.2]
      exact lifeAfter_none noWrites.1 _
  | .sweep evicted now :: recent, noWrites => by
      rw [List.forall_mem_cons] at noWrites
      rw [List.cons_append, life_sweep, life_none missing noWrites.2, ite_self]

/-! ## Histories of runs -/

namespace Reached

variable {history after : List Event} {db : Db D} {key : Bytes} {deadline : Nat}

/-- A run passes through the runs before it. -/
theorem of_suffix (reached : Reached after db) (suffix : history <:+ after) :
    ∃ before : Db D, Reached history before := by
  induction reached with
  | start =>
      obtain rfl := List.suffix_nil.mp suffix
      exact ⟨{}, .start⟩
  | request cmd now reached later fits call ih =>
      rcases List.suffix_cons_iff.mp suffix with rfl | suffix
      · exact ⟨_, .request cmd now reached later fits call⟩
      · exact ih suffix
  | sweep now reached later call ih =>
      rcases List.suffix_cons_iff.mp suffix with rfl | suffix
      · exact ⟨_, .sweep now reached later call⟩
      · exact ih suffix

theorem now_le_clock (reached : Reached history db) :
    ∀ event ∈ history, event.now ≤ clock history := by
  induction reached with
  | start => nofun
  | request cmd now _ later _ _ ih =>
      refine List.forall_mem_cons.mpr ⟨UInt64.le_refl _, fun event member => ?_⟩
      exact UInt64.le_trans (ih event member) later
  | sweep now _ later _ ih =>
      refine List.forall_mem_cons.mpr ⟨UInt64.le_refl _, fun event member => ?_⟩
      exact UInt64.le_trans (ih event member) later

/-- A sweep that evicts fewer keys than its work limit allows leaves no deadline before its
clock reading. -/
theorem le_deadline_sweep (reached : Reached history db) {now : UInt64} {swept : Db D}
    (call : processTtl db now = .ok swept) (few : (db.evicted swept).length ≤ kMaxWorks)
    (isLife : life D key (.sweep (db.evicted swept) now :: history) = some (some deadline)) :
    now.toNat ≤ deadline := by
  obtain ⟨keys, sweeping, complete⟩ := (reached.denotes.processTtl_swept now).of_eq_ok call
  have store := sweeping.evict_eq reached.denotes
  have count := (sweeping.evicted_perm reached.denotes).length_eq
  rcases complete with ⟨none, -⟩ | full
  · by_contra passed
    rw [← deadline_after, Store.deadline] at isLife
    obtain ⟨⟨data, _⟩, lookup, rfl⟩ := Option.map_eq_some_iff.mp isLife
    have lookup : (Store.evict (Store.after history : Store D) (db.evicted swept)).lookup key =
      some ⟨data, some deadline⟩ := lookup
    rw [store] at lookup
    have small : deadline < 2 ^ 64 := by
      have bound := now.toNat_lt
      omega
    apply none key
    refine ⟨data, deadline, lookup, ?_⟩
    rw [UInt64.lt_iff_toNat_lt, UInt64.toNat_ofNat_of_lt' small]
    exact Nat.not_le.mp passed
  · omega

/-- No key has a deadline that a sweep has passed, unless its work limit stopped it. -/
theorem le_deadline (reached : Reached history db) :
    ∀ {key : Bytes} {deadline : Nat}, life D key history = some (some deadline) →
      ∀ evicted now, .sweep evicted now ∈ history → evicted.length ≤ kMaxWorks →
        now.toNat ≤ deadline := by
  induction reached with
  | start => nofun
  | @request history _ _ _ _ cmd now reached later _ _ ih =>
      intro key deadline isLife evicted sweepMs member few
      have member := (List.mem_cons.mp member).resolve_left nofun
      rcases lifeAfter_eq_some isLife with isOld | ⟨text, ttlMs, -, rfl⟩
      · exact ih isOld evicted sweepMs member few
      · have past := UInt64.le_trans (reached.now_le_clock _ member) later
        have past : sweepMs.toNat ≤ now.toNat := UInt64.le_iff_toNat_le.mp past
        omega
  | @sweep history _ swept now reached _ call ih =>
      intro key deadline isLife evicted sweepMs member few
      rcases List.mem_cons.mp member with same | member
      · cases same
        exact reached.le_deadline_sweep call few isLife
      · rw [life_sweep] at isLife
        split at isLife
        · cases isLife
        · exact ih isLife evicted sweepMs member few

/-- A key whose deadline a sweep has passed is missing until it is written. -/
theorem life_swept {recent before : List Event} {evicted : List Bytes} {now : UInt64}
    (reached : Reached (recent ++ .sweep evicted now :: before) db)
    (few : evicted.length ≤ kMaxWorks) (isLife : life D key before = some (some deadline))
    (passed : deadline < now.toNat) (noWrites : ∀ event ∈ recent, ¬ event.Writes key) :
    life D key (recent ++ .sweep evicted now :: before) = none := by
  apply life_none _ noWrites
  obtain ⟨swept, sweepReached⟩ := reached.of_suffix (List.suffix_append _ _)
  by_contra present
  have kept : life D key (.sweep evicted now :: before) = some (some deadline) := by
    rw [life_sweep] at present ⊢
    split
    · rename_i gone
      rw [if_pos gone] at present
      exact absurd rfl present
    · exact isLife
  have notPassed := sweepReached.le_deadline kept evicted now List.mem_cons_self few
  omega

end Reached

end RedisLite
