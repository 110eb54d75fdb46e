import RedisLite.Server.Capacity
import RedisLite.Server.Expiry

/-!
# One sweep

What one call of the TTL loop of `process_timers` removes.  The loop counts its work
after the removal and compares the old count, so it removes one key more than
`k_max_works` before it stops.
-/

namespace RedisLite

open Lib

variable {D : Type} [Dbl D]

/-! ## The keys removed -/

namespace Db

variable {db after : Db D} {store afterStore : Store D} {now : UInt64} {key : Bytes}

/-- The deadline of a key is in the heap. -/
theorem Denotes.expireAt_mem (denotes : db.Denotes store) {expireAt : UInt64}
    (isExpireAt : store.expireAt key = some expireAt) :
    ∃ ent, ⟨expireAt, ent⟩ ∈ db.timers.heap := by
  obtain ⟨deadline, isDeadline, rfl⟩ := Option.map_eq_some_iff.mp isExpireAt
  obtain ⟨item, lookup, isItem⟩ := Option.bind_eq_some_iff.mp isDeadline
  obtain ⟨ent, entry, live, rfl⟩ := denotes.keys key item lookup
  obtain ⟨value, found⟩ := denotes.finds live
  have same := found.lookup
  rw [lookup] at same
  cases same
  refine ⟨ent, denotes.tracks.deadline_eq_some.mp ?_⟩
  rw [found.deadline, isItem]
  rfl

/-- PTTL depends on the key alone. -/
theorem Denotes.doTtl_congr (denotes : db.Denotes store) (afterDenotes : after.Denotes afterStore)
    (same : afterStore.lookup key = store.lookup key) (word : Bytes) (reading : UInt64)
    (out : Bytes) :
    (RedisLite.doTtl after [word, key] reading out).map Prod.snd =
      (RedisLite.doTtl db [word, key] reading out).map Prod.snd := by
  obtain ⟨⟨_, _⟩, call, -, value, answers, rfl⟩ := denotes.doTtl word key out reading
  obtain ⟨⟨_, _⟩, afterCall, -, afterValue, afterAnswers, rfl⟩ :=
    afterDenotes.doTtl word key out reading
  have sameValue : afterValue = value := by
    simp only [Store.Answers] at answers afterAnswers
    rw [answers, afterAnswers, same]
  rw [call, afterCall, sameValue]
  rfl

/-- What one sweep does to a database that stands for a store. -/
structure Swept (db : Db D) (store : Store D) (now : UInt64) (after : Db D) : Prop where
  denotes : after.Denotes (store.evict (db.evicted after))
  /-- The keys removed are due. -/
  due : ∀ key ∈ db.evicted after, store.Due now key
  /-- No surviving key has an earlier deadline than a removed one. -/
  earliest : ∀ key ∈ db.evicted after, ∀ other, other ∉ db.evicted after →
    ∀ expireAt later, store.expireAt key = some expireAt → store.expireAt other = some later →
      expireAt ≤ later
  /-- The entries that are left have the value, type and deadline they had. -/
  entries : ∀ ent entry, after.entries.cell ent = some entry →
    db.entries.cell ent = some entry ∧ after.timers.deadline ent = db.timers.deadline ent
  /-- The PTTL of a surviving key is unchanged. -/
  pttl : ∀ key, key ∉ db.evicted after → ∀ word reading out,
    (doTtl after [word, key] reading out).map Prod.snd =
      (doTtl db [word, key] reading out).map Prod.snd
  /-- No due key is left, or the sweep did as much work as it may. -/
  finished : (∀ key, ¬ (store.evict (db.evicted after)).Due now key) ∨
    kMaxWorks ≤ (db.evicted after).length

/-- A sweep does that. -/
theorem SweepingFrom.swept {keys : List Bytes} (sweeping : SweepingFrom db store now after keys)
    (denotes : db.Denotes store)
    (complete : (∀ key, ¬ (store.evict keys).Due now key) ∨ kMaxWorks ≤ keys.length) :
    db.Swept store now after := by
  have perm := sweeping.evicted_perm denotes
  have afterDenotes : after.Denotes (store.evict (db.evicted after)) := by
    rw [sweeping.evict_eq denotes]
    exact sweeping.denotes
  have kept : ∀ key, key ∉ db.evicted after →
      (store.evict (db.evicted after)).lookup key = store.lookup key := by
    intro key left
    rw [Store.lookup_evict, if_neg left]
  refine ⟨afterDenotes, ?_, ?_, ?_, ?_, ?_⟩
  · intro key member
    exact sweeping.due key (perm.mem_iff.mp member)
  · intro key member other left expireAt later isKey isOther
    obtain ⟨least, isLeast, below⟩ := sweeping.leads key (perm.mem_iff.mp member)
    rw [isKey] at isLeast
    cases isLeast
    have isLeft : (store.evict (db.evicted after)).expireAt other = some later := by
      rw [Store.expireAt, kept other left]
      exact isOther
    obtain ⟨ent, found⟩ := afterDenotes.expireAt_mem isLeft
    exact below _ found
  · intro ent entry live
    have before := sweeping.kept ent entry live
    refine ⟨before, ?_⟩
    obtain ⟨item, lookup, -, deadline⟩ := denotes.items ent entry before
    obtain ⟨afterItem, afterLookup, -, afterDeadline⟩ := afterDenotes.items ent entry live
    have present : entry.key ∉ db.evicted after := by
      intro gone
      rw [Store.lookup_evict, if_pos gone] at afterLookup
      cases afterLookup
    rw [kept _ present, lookup] at afterLookup
    cases afterLookup
    rw [deadline, afterDeadline]
  · intro key left word reading out
    exact denotes.doTtl_congr afterDenotes (kept key left) word reading out
  · rw [sweeping.evict_eq denotes, perm.length_eq]
    exact complete

end Db

/-- The TTL loop of `process_timers` returns in every reached database.  It removes due
keys only, in the order of their deadlines, and leaves every other key as it was; when
it returns, no due key is left or at least `k_max_works` keys were removed. -/
theorem sweep_evicts_earliest {history : List Event} {db : Db D} (reached : Reached history db)
    (now : UInt64) :
    Exec.Returns (processTtl db now) fun after => db.Swept (Store.after history) now after := by
  apply (reached.denotes.processTtl_swept now).mono
  rintro after ⟨keys, sweeping, complete⟩
  refine sweeping.swept reached.denotes ?_
  rcases complete with ⟨none, -⟩ | many
  · exact .inl none
  · exact .inr (by omega)

/-- The sweep at clock reading 10 of a database in which one key had a TTL of 5. -/
theorem sweep_evicts_earliest_pexpire :
    ∃ (history : List Event) (db : Db Nat), Reached history db ∧
      (Store.after history : Store Nat).Due 10 (ascii "k") ∧
      Exec.Returns (processTtl db 10) fun after => db.Swept (Store.after history) 10 after := by
  obtain ⟨db, reached⟩ := exists_reached_pexpire
  exact ⟨_, db, reached, ⟨.str (ascii "v"), 5, rfl, by decide⟩, sweep_evicts_earliest reached 10⟩

/-! ## How many keys are removed -/

/-- The keys whose deadline has passed. -/
def Store.dueKeys {D : Type} (store : Store D) (now : UInt64) : Finset Bytes :=
  store.keys.filter fun key => (store.expireAt key).any fun expireAt => decide (expireAt < now)

omit [Dbl D] in
theorem Store.mem_dueKeys {store : Store D} {now : UInt64} {key : Bytes} :
    key ∈ store.dueKeys now ↔ store.Due now key := by
  rw [dueKeys, Finset.mem_filter, Finmap.mem_keys, Store.due_iff, Option.any_eq_true]
  simp only [decide_eq_true_eq, and_iff_right_iff_imp]
  rintro ⟨expireAt, isKey, -⟩
  obtain ⟨deadline, isDeadline, -⟩ := Option.map_eq_some_iff.mp isKey
  obtain ⟨item, lookup, -⟩ := Option.bind_eq_some_iff.mp isDeadline
  exact Finmap.mem_iff.mpr ⟨item, lookup⟩

/-- A sweep removes all due keys, but stops at one more than `k_max_works`. -/
theorem Db.Denotes.length_evicted {db after : Db D} {store : Store D} (denotes : db.Denotes store)
    {now : UInt64} (call : RedisLite.processTtl db now = .ok after) :
    (db.evicted after).length = min (store.dueKeys now).card (kMaxWorks + 1) := by
  obtain ⟨keys, sweeping, complete⟩ := (denotes.processTtl_swept now).of_eq_ok call
  rw [(sweeping.evicted_perm denotes).length_eq]
  have due : keys.toFinset ⊆ store.dueKeys now := by
    intro key member
    exact Store.mem_dueKeys.mpr (sweeping.due key (List.mem_toFinset.mp member))
  have atMost := Finset.card_le_card due
  rw [List.toFinset_card_of_nodup sweeping.nodup] at atMost
  rcases complete with ⟨none, few⟩ | many
  · have all : store.dueKeys now ⊆ keys.toFinset := by
      intro key isDue
      rw [List.mem_toFinset]
      by_contra left
      obtain ⟨data, deadline, lookup, passed⟩ := Store.mem_dueKeys.mp isDue
      apply none key
      refine ⟨data, deadline, ?_, passed⟩
      rw [Store.lookup_evict, if_neg left]
      exact lookup
    have atLeast := Finset.card_le_card all
    rw [List.toFinset_card_of_nodup sweeping.nodup] at atLeast
    omega
  · omega

/-- The work limit as the comment in `process_timers` states it: at most `k_max_works`
keys are removed, and the other due keys are left with their timers. -/
structure Db.KeepsLimit (db : Db D) (store : Store D) (now : UInt64) (after : Db D) : Prop where
  few : (db.evicted after).length ≤ kMaxWorks
  left : ∃ afterStore, after.Denotes afterStore ∧ ∀ key ∈ store.dueKeys now,
    key ∉ db.evicted after → key ∈ afterStore.dueKeys now ∧
      afterStore.lookup key = store.lookup key

/-- A sweep keeps its work limit unless more than `k_max_works` keys are due. -/
theorem sweep_keeps_limit_iff {history : List Event} {db : Db D} (reached : Reached history db)
    (now : UInt64) :
    Exec.Returns (processTtl db now) fun after =>
      db.KeepsLimit (Store.after history) now after ↔
        ((Store.after history : Store D).dueKeys now).card ≤ kMaxWorks := by
  obtain ⟨after, call, -⟩ := reached.denotes.processTtl now
  refine ⟨after, call, ?_⟩
  have count := reached.denotes.length_evicted call
  constructor
  · intro keeps
    have few := keeps.few
    omega
  · intro few
    refine ⟨by omega, _, reached.denotes.sweep call, ?_⟩
    intro key isDue left
    have same : (Store.evict (Store.after history : Store D) (db.evicted after)).lookup key =
        (Store.after history : Store D).lookup key := by
      rw [Store.lookup_evict, if_neg left]
    refine ⟨?_, same⟩
    rw [Store.mem_dueKeys] at isDue ⊢
    obtain ⟨data, deadline, lookup, passed⟩ := isDue
    exact ⟨data, deadline, same.trans lookup, passed⟩

/-- The sweep of a database in which one key is due. -/
theorem sweep_keeps_limit_iff_pexpire :
    ∃ (history : List Event) (db : Db Nat), Reached history db ∧
      Exec.Returns (processTtl db 10) fun after =>
        db.KeepsLimit (Store.after history) 10 after ↔
          ((Store.after history : Store Nat).dueKeys 10).card ≤ kMaxWorks := by
  obtain ⟨db, reached⟩ := exists_reached_pexpire
  exact ⟨_, db, reached, sweep_keeps_limit_iff reached 10⟩

/-! ## Many keys due at once -/

/-- The keys of `fillDue`. -/
def fillKey (index : Nat) : Bytes := List.replicate index 107

/-- The history in which `count` keys are set and given a TTL of 0, all at clock
reading 0. -/
def fillDue : Nat → List Event
  | 0 => []
  | count + 1 =>
      .request [ascii "pexpire", fillKey count, ascii "0"] 0 ::
        .request [ascii "set", fillKey count, ascii "v"] 0 :: fillDue count

theorem length_fillDue (count : Nat) : (fillDue count).length = 2 * count := by
  induction count with
  | zero => rfl
  | succ count ih => simp only [fillDue, List.length_cons, ih]; omega

theorem clock_fillDue (count : Nat) : clock (fillDue count) = 0 := by
  cases count <;> rfl

variable (D) in
theorem exists_reached_fillDue (count : Nat) (small : count < 2 ^ 62) :
    ∃ db : Db D, Reached (fillDue count) db := by
  induction count with
  | zero => exact ⟨{}, .start⟩
  | succ count ih =>
      obtain ⟨db, reached⟩ := ih (by omega)
      have length := length_fillDue count
      have early : clock (fillDue count) ≤ 0 := by
        rw [clock_fillDue]
        exact UInt64.le_refl 0
      obtain ⟨⟨middle, _⟩, -, -, setReached⟩ := reached.serves (Store.fits_after (by omega)) early
        [ascii "set", fillKey count, ascii "v"] []
      obtain ⟨⟨after, _⟩, -, -, afterReached⟩ := setReached.serves
        (Store.fits_after (by simp only [List.length_cons]; omega)) (UInt64.le_refl 0)
        [ascii "pexpire", fillKey count, ascii "0"] []
      exact ⟨after, afterReached⟩

variable (D) in
/-- Every key has the deadline 0. -/
theorem life_fillDue {index count : Nat} (below : index < count) :
    life D (fillKey index) (fillDue count) = some (some 0) := by
  induction count with
  | zero => exact absurd below (Nat.not_lt_zero _)
  | succ count ih =>
      have isSet : Request.ofCmd [ascii "set", fillKey count, ascii "v"] =
        .set (fillKey count) (ascii "v") := rfl
      have isPexpire : Request.ofCmd [ascii "pexpire", fillKey count, ascii "0"] =
        .pexpire (fillKey count) (ascii "0") := rfl
      have zero : str2int (ascii "0") = some 0 := rfl
      rw [fillDue, life_request, life_request, isSet, isPexpire]
      simp only [lifeAfter, zero]
      by_cases same : fillKey count = fillKey index
      · simp [same, deadlineAfter]
      · have different : index ≠ count := fun equal => same (congrArg fillKey equal.symm)
        rw [if_neg same, if_neg same]
        exact ih (by omega)

variable (D) in
/-- All the keys are due at clock reading 1. -/
theorem le_card_dueKeys_fillDue (count : Nat) :
    count ≤ ((Store.after (fillDue count) : Store D).dueKeys 1).card := by
  have injective : Function.Injective fillKey := by
    intro index other same
    simpa [fillKey] using congrArg List.length same
  have due : (Finset.range count).image fillKey ⊆
      (Store.after (fillDue count) : Store D).dueKeys 1 := by
    intro key member
    obtain ⟨index, below, rfl⟩ := Finset.mem_image.mp member
    have isLife := life_fillDue D (Finset.mem_range.mp below)
    rw [← deadline_after, Store.deadline] at isLife
    obtain ⟨⟨data, _⟩, lookup, rfl⟩ := Option.map_eq_some_iff.mp isLife
    exact Store.mem_dueKeys.mpr ⟨data, 0, lookup, by decide⟩
  have card := Finset.card_le_card due
  rwa [Finset.card_image_of_injective _ injective, Finset.card_range] at card

/-- When 2001 keys are due, one sweep removes them all. -/
theorem sweep_exceeds_limit :
    ∃ db : Db Nat, Reached (fillDue 2001) db ∧ ∃ after, processTtl db 1 = .ok after ∧
      (db.evicted after).length = 2001 ∧
      ¬ db.KeepsLimit (Store.after (fillDue 2001)) 1 after := by
  obtain ⟨db, reached⟩ := exists_reached_fillDue Nat 2001 (by decide)
  obtain ⟨after, call, -⟩ := reached.denotes.processTtl 1
  have count := reached.denotes.length_evicted call
  have many := le_card_dueKeys_fillDue Nat 2001
  unfold kMaxWorks at count
  have length : (db.evicted after).length = 2001 := by omega
  refine ⟨db, reached, after, call, length, fun keeps => ?_⟩
  have few := keeps.few
  unfold kMaxWorks at few
  omega

end RedisLite
