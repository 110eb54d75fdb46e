import RedisLite.Server.Runs

/-!
# What holds of every value

A property of values that the requests establish and keep holds of every value in the
database.  An event adds at most one member to a sorted set, so no sorted set has more
members than there were events.
-/

namespace RedisLite

open Lib

variable {D : Type} [Dbl D]

namespace Store

variable {store : Store D} {n : Nat}

/-! ## Properties of values -/

omit [Dbl D] in
/-- Every value in the store has the property. -/
def Every (property : Data D → Prop) (store : Store D) : Prop :=
  ∀ key item, store.lookup key = some item → property item.data

namespace Every

variable {property weaker : Data D → Prop}

omit [Dbl D] in
theorem mono (every : store.Every property) (weakens : ∀ data, property data → weaker data) :
    store.Every weaker :=
  fun key item found => weakens item.data (every key item found)

omit [Dbl D] in
theorem insert (every : store.Every property) (key : Bytes) {item : Item D}
    (holds : property item.data) : Every property (store.insert key item) := by
  intro other found lookup
  by_cases isKey : other = key
  · subst isKey
    rw [Finmap.lookup_insert] at lookup
    cases lookup
    exact holds
  · rw [Finmap.lookup_insert_of_ne _ isKey] at lookup
    exact every other found lookup

omit [Dbl D] in
theorem erase (every : store.Every property) (key : Bytes) :
    Every property (store.erase key) := by
  intro other found lookup
  by_cases isKey : other = key
  · subst isKey
    rw [Finmap.lookup_erase] at lookup
    cases lookup
  · rw [Finmap.lookup_erase_ne isKey] at lookup
    exact every other found lookup

omit [Dbl D] in
theorem evict (every : store.Every property) (keys : List Bytes) :
    (store.evict keys).Every property := by
  induction keys generalizing store with
  | nil => exact every
  | cons key keys ih => exact ih (every.erase key)

omit [Dbl D] in
/-- A property of the sorted set under a key, which is empty if the key is absent. -/
theorem members (every : store.Every property) (empty : property (.zset ∅)) {key : Bytes}
    {members : Members D} (found : store.members key = some members) :
    property (.zset members) := by
  unfold Store.members at found
  split at found
  · cases found
    exact empty
  · rename_i isItem
    cases found
    exact every key _ isItem
  · cases found

/-- A request writes a string or a sorted set with one member more or less, if it changes
a value at all. -/
theorem apply (every : store.Every property) (weakens : ∀ data, property data → weaker data)
    (empty : property (.zset ∅)) (now : Nat) (request : Request)
    (set : ∀ key str, request = .set key str → weaker (.str str))
    (zadd : ∀ members name score, property (.zset members) →
      weaker (.zset (members.insert name score)))
    (zrem : ∀ members name, property (.zset members) → weaker (.zset (members.erase name))) :
    (store.apply now request).Every weaker := by
  have later := every.mono weakens
  cases request with
  | get | keys | zscore | zquery | pttl | unknown => exact later
  | set key str =>
      simp only [Store.apply]
      split
      · exact later
      · exact later.insert key (set key str rfl)
  | del key => exact later.erase key
  | zadd key score name =>
      simp only [Store.apply]
      split
      · rename_i value members isScore found
        exact later.insert key (zadd members name value (every.members empty found))
      · exact later
  | zrem key name =>
      simp only [Store.apply]
      split
      · rename_i members deadline found
        exact later.insert key (zrem members name (every key _ found))
      · exact later
  | pexpire key ttlMs =>
      simp only [Store.apply]
      split
      · rename_i ttl item parsed found
        exact later.insert key (later key item found)
      · exact later

end Every

/-! ## Sorted sets -/

omit [Dbl D] in
/-- No sorted set has more than `n` members. -/
def Within (store : Store D) (n : Nat) : Prop :=
  ∀ key members, store.members key = some members → members.keys.card ≤ n

omit [Dbl D] in
/-- The value has at most `n` members. -/
def SetWithin (n : Nat) (data : Data D) : Prop :=
  ∀ members, data = .zset members → members.keys.card ≤ n

omit [Dbl D] in
theorem setWithin_empty : SetWithin n (.zset ∅ : Data D) := by
  rintro members ⟨⟩
  exact Nat.zero_le n

omit [Dbl D] in
theorem Within.fits (within : store.Within n) (small : n < 2 ^ 64) : store.Fits :=
  fun key members found => lt_of_le_of_lt (within key members found) small

/-- Every event adds at most one member. -/
theorem every_setWithin_after : (history : List Event) →
    (Store.after history : Store D).Every (SetWithin history.length)
  | [] => nofun
  | .request cmd now :: earlier => by
      refine (every_setWithin_after earlier).apply ?_ setWithin_empty now.toNat
        (Request.ofCmd cmd) ?_ ?_ ?_
      · intro data small members same
        exact (small members same).trans (Nat.le_succ _)
      · intro key str isSet members same
        cases same
      · rintro members name score small written ⟨⟩
        exact (Entries.card_insert_le members name score).trans
          (Nat.succ_le_succ (small members rfl))
      · rintro members name small written ⟨⟩
        exact (Entries.card_erase_le members name).trans
          ((small members rfl).trans (Nat.le_succ _))
  | .sweep evicted _ :: earlier => by
      refine ((every_setWithin_after earlier).evict evicted).mono ?_
      intro data small members same
      exact (small members same).trans (Nat.le_succ _)

theorem within_after (history : List Event) :
    (Store.after history : Store D).Within history.length :=
  fun _ members found => (every_setWithin_after history).members setWithin_empty found members rfl

theorem fits_after {history : List Event} (small : history.length < 2 ^ 64) :
    (Store.after history : Store D).Fits :=
  (within_after history).fits small

end Store

variable (D) in
/-- A run that executes commands when the clock reads 0; the history starts with the last one. -/
theorem exists_reached (cmds : List (List Bytes)) (small : cmds.length < 2 ^ 64) :
    ∃ db : Db D, Reached (cmds.map fun cmd => .request cmd 0) db := by
  induction cmds with
  | nil => exact ⟨{}, .start⟩
  | cons cmd cmds ih =>
      have fewer : cmds.length < 2 ^ 64 := (Nat.lt_succ_self _).trans small
      obtain ⟨db, reached⟩ := ih fewer
      have later : clock (cmds.map fun cmd => Event.request cmd 0) ≤ 0 := by
        cases cmds <;> exact UInt64.le_refl 0
      obtain ⟨⟨after, _⟩, -, -, reachedAfter⟩ :=
        reached.serves (Store.fits_after (by rwa [List.length_map])) later cmd []
      exact ⟨after, reachedAfter⟩

end RedisLite
