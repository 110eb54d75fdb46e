import RedisLite.Server.Batches
import RedisLite.Server.Freshness

/-!
# Expired keys do not starve

A sweep stops at its work limit and leaves the other due keys to the next ones.  It takes
the earliest deadlines first, and once the clock has passed a deadline no request can set
an earlier one.  So a due key waits only for the keys that were ahead of it.
-/

namespace RedisLite

open Lib

/-- The event is a sweep. -/
def Event.isSweep : Event → Bool
  | .sweep _ _ => true
  | .request _ _ => false

variable {D : Type}

/-- The keys whose deadlines are not after the given one. -/
def Store.ahead (store : Store D) (deadline : Nat) : Finset Bytes :=
  store.keys.filter fun key => (store.deadline key).any fun own =>
    own.any fun own => decide (own ≤ deadline)

theorem Store.mem_ahead {store : Store D} {deadline : Nat} {key : Bytes} :
    key ∈ store.ahead deadline ↔ ∃ own, store.deadline key = some (some own) ∧ own ≤ deadline := by
  rw [ahead, Finset.mem_filter, Finmap.mem_keys]
  constructor
  · rintro ⟨-, isAhead⟩
    obtain ⟨life, isLife, isAhead⟩ := (Option.any_eq_true ..).mp isAhead
    obtain ⟨own, rfl, isAhead⟩ := (Option.any_eq_true ..).mp isAhead
    exact ⟨own, isLife, of_decide_eq_true isAhead⟩
  · rintro ⟨own, isLife, le⟩
    refine ⟨?_, by simp [isLife, le]⟩
    obtain ⟨item, lookup, -⟩ := Option.map_eq_some_iff.mp isLife
    exact Finmap.mem_iff.mpr ⟨item, lookup⟩

variable [Dbl D]

theorem Store.ahead_apply (store : Store D) {now deadline : Nat} (passed : deadline < now)
    (request : Request) : (store.apply now request).ahead deadline ⊆ store.ahead deadline := by
  intro key member
  obtain ⟨own, isLife, le⟩ := mem_ahead.mp member
  rw [deadline_apply] at isLife
  rcases lifeAfter_eq_some isLife with isOld | ⟨text, ttlMs, -, rfl⟩
  · exact mem_ahead.mpr ⟨own, isOld, le⟩
  · omega

theorem Reached.expireAt_eq {history : List Event} {db : Db D} (reached : Reached history db)
    (early : (clock history).toNat < 2 ^ 63) {key : Bytes} {deadline : Nat}
    (isLife : (Store.after history : Store D).deadline key = some (some deadline)) :
    (Store.after history : Store D).expireAt key = some (UInt64.ofNat deadline) ∧
      deadline < 2 ^ 64 := by
  have near := reached.deadline_lt key deadline ((deadline_after history key).symm.trans isLife)
  obtain ⟨item, lookup, isDeadline⟩ := Option.map_eq_some_iff.mp isLife
  refine ⟨?_, by omega⟩
  rw [Store.expireAt, lookup, Option.bind_some, isDeadline]
  rfl

theorem Reached.clock_mono {recent before : List Event} {db : Db D}
    (reached : Reached (recent ++ before) db) : clock before ≤ clock (recent ++ before) := by
  cases before with
  | nil => exact UInt64.le_iff_toNat_le.mpr (Nat.zero_le _)
  | cons event before =>
      exact reached.now_le_clock event (List.mem_append_right _ List.mem_cons_self)

/-- A sweep that leaves a due key removes one more than `k_max_works` keys that are ahead of it. -/
theorem Reached.sweep_advances {history : List Event} {db after : Db D}
    (reached : Reached history db) (early : (clock history).toNat < 2 ^ 63) {now : UInt64}
    (call : processTtl db now = .ok after) {key : Bytes} {deadline : Nat}
    (isLife : (Store.after history : Store D).deadline key = some (some deadline))
    (passed : deadline < now.toNat) (left : key ∉ db.evicted after) :
    ((Store.after (.sweep (db.evicted after) now :: history) : Store D).ahead deadline).card +
      (kMaxWorks + 1) ≤ ((Store.after history : Store D).ahead deadline).card := by
  rw [Store.after]
  have denotes := reached.denotes
  obtain ⟨keys, sweeping, complete⟩ := (denotes.processTtl_swept now).of_eq_ok call
  have perm := sweeping.evicted_perm denotes
  have swept : db.Swept (Store.after history) now after := by
    refine sweeping.swept denotes ?_
    rcases complete with ⟨none, -⟩ | many
    · exact .inl none
    · exact .inr (by omega)
  obtain ⟨isExpireAt, small⟩ := reached.expireAt_eq early isLife
  -- the key is due, so only the work limit can have stopped the sweep
  have length : (db.evicted after).length = kMaxWorks + 1 := by
    rcases complete with ⟨none, -⟩ | many
    · exfalso
      obtain ⟨item, lookup, isDeadline⟩ := Option.map_eq_some_iff.mp isLife
      refine none key ⟨item.data, deadline, ?_, ?_⟩
      · rw [Store.lookup_evict, if_neg fun member => left (perm.mem_iff.mpr member), lookup,
          ← isDeadline]
      · rw [UInt64.lt_iff_toNat_lt, UInt64.toNat_ofNat_of_lt' small]
        exact passed
    · rw [perm.length_eq, many]
  have evictedAhead : (db.evicted after).toFinset ⊆
      (Store.after history : Store D).ahead deadline := by
    intro other member
    rw [List.mem_toFinset] at member
    obtain ⟨data, own, lookup, -⟩ := swept.due other member
    have otherLife : (Store.after history : Store D).deadline other = some (some own) := by
      rw [Store.deadline, lookup]
      rfl
    obtain ⟨otherExpireAt, otherSmall⟩ := reached.expireAt_eq early otherLife
    have le := swept.earliest other member key left _ _ otherExpireAt isExpireAt
    rw [UInt64.le_iff_toNat_le, UInt64.toNat_ofNat_of_lt' small,
      UInt64.toNat_ofNat_of_lt' otherSmall] at le
    exact Store.mem_ahead.mpr ⟨own, otherLife, le⟩
  have rest : (Store.evict (Store.after history : Store D) (db.evicted after)).ahead deadline ⊆
      (Store.after history : Store D).ahead deadline \ (db.evicted after).toFinset := by
    intro other member
    obtain ⟨own, otherLife, le⟩ := Store.mem_ahead.mp member
    rw [Store.deadline, Store.lookup_evict] at otherLife
    split at otherLife
    · cases otherLife
    · rename_i kept
      rw [Finset.mem_sdiff, List.mem_toFinset]
      exact ⟨Store.mem_ahead.mpr ⟨own, otherLife, le⟩, kept⟩
  have count : (db.evicted after).toFinset.card = kMaxWorks + 1 := by
    rw [List.toFinset_card_of_nodup (perm.nodup_iff.mpr sweeping.nodup), length]
  have total := Finset.card_sdiff_add_card_eq_card evictedAhead
  have few := Finset.card_le_card rest
  omega

/-- Expired keys do not starve.  From a time at which the deadline of a key has passed, it
takes one sweep for every `kMaxWorks + 1` keys that are not after it until that key is evicted,
deleted or given another deadline, whatever requests are served in between. -/
theorem expired_keys_leave {recent before : List Event} {db : Db D}
    (reached : Reached (recent ++ before) db) (early : (clock (recent ++ before)).toNat < 2 ^ 63)
    {key : Bytes} {deadline : Nat} (passed : deadline < (clock before).toNat)
    (many : ((Store.after before : Store D).ahead deadline).card ≤
      (kMaxWorks + 1) * recent.countP Event.isSweep) :
    ∃ late middle, recent = late ++ middle ∧
      life D key (middle ++ before) ≠ some (some deadline) := by
  by_contra kept
  push Not at kept
  have progress : ∀ late middle, recent = late ++ middle →
      ((Store.after (middle ++ before) : Store D).ahead deadline).card +
        (kMaxWorks + 1) * middle.countP Event.isSweep ≤
        ((Store.after before : Store D).ahead deadline).card := by
    intro late middle split
    induction middle generalizing late with
    | nil => exact Nat.le_refl _
    | cons event middle ih =>
        have front : recent = (late ++ [event]) ++ middle := by
          rw [split, List.append_assoc]
          rfl
        have far := ih _ front
        have isLife := (deadline_after (middle ++ before) key).trans (kept _ _ front)
        have stays := kept _ _ split
        rw [split, List.append_assoc] at reached early
        obtain ⟨reachedEvent, reaches⟩ := reached.of_suffix (List.suffix_append ..)
        have later : clock before ≤ event.now :=
          @Reached.clock_mono D _ (event :: middle) before _ reaches
        have bound := UInt64.le_iff_toNat_le.mp reached.clock_mono
        have passed : deadline < event.now.toNat :=
          Nat.lt_of_lt_of_le passed (UInt64.le_iff_toNat_le.mp later)
        cases reaches with
        | request cmd now _ _ _ _ =>
            have few := Finset.card_le_card (Store.ahead_apply
              (Store.after (middle ++ before) : Store D) passed (Request.ofCmd cmd))
            rw [List.countP_cons_of_neg (by simp [Event.isSweep])]
            exact (Nat.add_le_add_right few _).trans far
        | @sweep _ swept _ now earlierReached earlier call =>
            have left : key ∉ swept.evicted reachedEvent := by
              intro gone
              rw [List.cons_append, life_sweep, if_pos gone] at stays
              cases stays
            have start : (clock (middle ++ before)).toNat < 2 ^ 63 := by
              have earlier : (clock (middle ++ before)).toNat ≤ now.toNat :=
                UInt64.le_iff_toNat_le.mp earlier
              exact Nat.lt_of_le_of_lt (earlier.trans bound) early
            have fewer := earlierReached.sweep_advances start call isLife passed left
            rw [List.countP_cons_of_pos rfl, List.cons_append, Nat.mul_succ,
              Nat.add_comm ((kMaxWorks + 1) * _), ← Nat.add_assoc]
            exact (Nat.add_le_add_right fewer _).trans far
  have last := progress [] recent rfl
  have isLife := kept [] recent rfl
  have member : key ∈ (Store.after (recent ++ before) : Store D).ahead deadline :=
    Store.mem_ahead.mpr ⟨deadline, (deadline_after _ key).trans isLife, Nat.le_refl _⟩
  have positive := Finset.card_pos.mpr ⟨key, member⟩
  omega

/-- A key with a TTL of 5 that is still there at clock reading 6 leaves with the next sweep. -/
theorem expired_keys_leave_pexpire : ∃ (db : Db Nat) (evicted : List Bytes),
    Reached [.sweep evicted 10, .request [ascii "get", ascii "k"] 6,
      .request [ascii "pexpire", ascii "k", ascii "5"] 0,
      .request [ascii "set", ascii "k", ascii "v"] 0] db ∧ ascii "k" ∈ evicted := by
  let before : List Event := [.request [ascii "get", ascii "k"] 6,
    .request [ascii "pexpire", ascii "k", ascii "5"] 0,
    .request [ascii "set", ascii "k", ascii "v"] 0]
  obtain ⟨first, firstReached⟩ := exists_reached_pexpire
  obtain ⟨⟨second, out⟩, -, -, reached⟩ := firstReached.serves
    (Store.fits_after (by decide)) (show 0 ≤ 6 by decide) [ascii "get", ascii "k"] []
  obtain ⟨db, -, -, swept⟩ := reached.sweeps (show 6 ≤ 10 by decide)
  have isLife : life Nat (ascii "k") before = some (some 5) := rfl
  have few : ((Store.after before : Store Nat).ahead 5).card ≤ 1 :=
    Finset.card_le_card (Finset.filter_subset _ _)
  obtain ⟨late, middle, split, gone⟩ := @expired_keys_leave Nat _ [.sweep (second.evicted db) 10]
    before db swept (show (10 : UInt64).toNat < 2 ^ 63 by decide) (ascii "k") 5 (by decide)
    (few.trans (show 1 ≤ (kMaxWorks + 1) * 1 by decide))
  refine ⟨db, second.evicted db, swept, ?_⟩
  cases middle with
  | nil => exact absurd isLife gone
  | cons event middle =>
      obtain ⟨rfl, rfl, rfl⟩ : late = [] ∧ event = .sweep (second.evicted db) 10 ∧ middle = [] := by
        cases late with
        | nil => simpa [eq_comm] using split
        | cons head late => simp at split
      by_contra kept
      rw [List.cons_append, life_sweep, if_neg kept] at gone
      exact gone isLife

end RedisLite
