import RedisLite.Server.Errors
import RedisLite.Server.Zquery

/-!
# Keys do not interfere

Except for KEYS, a command names one key and reads and writes nothing but the item under it.
So what a client sees under a key is determined by the events that concern the key, whatever
happened under the others in between.
-/

namespace RedisLite

open Lib

/-- The key that a request names. -/
def Request.key? : Request → Option Bytes
  | .get key | .set key _ | .del key | .zadd key _ _ | .zrem key _ | .zscore key _
  | .zquery key _ _ _ _ | .pexpire key _ | .pttl key => some key
  | .keys | .unknown => none

/-- What an event is for one key. -/
def Event.restrict (key : Bytes) : Event → Option Event
  | .request cmd now =>
      if (Request.ofCmd cmd).key? = some key then some (.request cmd now) else none
  | .sweep evicted now => if evicted.contains key then some (.sweep [key] now) else none

/-- The part of a history that concerns one key. -/
def project (key : Bytes) (history : List Event) : List Event :=
  history.filterMap (Event.restrict key)

variable {D : Type}

namespace Store

variable {store other : Store D} {key : Bytes}

theorem members_congr (same : store.lookup key = other.lookup key) :
    store.members key = other.members key := by
  rw [members, members, same]

theorem mem_congr (same : store.lookup key = other.lookup key) : key ∈ store ↔ key ∈ other := by
  rw [Finmap.mem_iff, Finmap.mem_iff, same]

theorem lookup_write_congr (same : store.lookup key = other.lookup key) (data : Data D) :
    (store.write key data).lookup key = (other.write key data).lookup key := by
  rw [write, write, Finmap.lookup_insert, Finmap.lookup_insert, same]

variable [Dbl D]

/-- A request that does not name the key leaves its item alone. -/
theorem apply_elsewhere (store : Store D) (now : Nat) {request : Request}
    (elsewhere : request.key? ≠ some key) :
    (store.apply now request).lookup key = store.lookup key := by
  cases request with
  | get | keys | zscore | zquery | pttl | unknown => rfl
  | set named str =>
      have different : key ≠ named := fun same => elsewhere (congrArg some same.symm)
      simp only [apply]
      split
      · rfl
      · exact Finmap.lookup_insert_of_ne _ different
  | del named =>
      have different : key ≠ named := fun same => elsewhere (congrArg some same.symm)
      exact Finmap.lookup_erase_ne different
  | zadd named score name =>
      have different : key ≠ named := fun same => elsewhere (congrArg some same.symm)
      simp only [apply]
      split
      · exact Finmap.lookup_insert_of_ne _ different
      · rfl
  | zrem named name =>
      have different : key ≠ named := fun same => elsewhere (congrArg some same.symm)
      simp only [apply]
      split
      · exact Finmap.lookup_insert_of_ne _ different
      · rfl
  | pexpire named ttlMs =>
      have different : key ≠ named := fun same => elsewhere (congrArg some same.symm)
      simp only [apply]
      split
      · exact Finmap.lookup_insert_of_ne _ different
      · rfl

/-- The item that a request leaves under its key is determined by the item it finds. -/
theorem apply_congr (same : store.lookup key = other.lookup key) (now : Nat) {request : Request}
    (names : request.key? = some key) :
    (store.apply now request).lookup key = (other.apply now request).lookup key := by
  cases request with
  | keys | unknown => cases names
  | get | zscore | zquery | pttl => exact same
  | set named str =>
      cases names
      simp only [apply, ← same]
      split
      · exact same
      · exact lookup_write_congr same _
  | del named =>
      cases names
      simp only [apply, Finmap.lookup_erase]
  | zadd named score name =>
      cases names
      simp only [apply, members_congr same]
      split
      · exact lookup_write_congr same _
      · exact same
  | zrem named name =>
      cases names
      simp only [apply, ← same]
      split
      · exact lookup_write_congr same _
      · exact same
  | pexpire named ttlMs =>
      cases names
      simp only [apply, ← same]
      split
      · rw [Finmap.lookup_insert, Finmap.lookup_insert]
      · exact same

/-- The answers to a request are determined by the item under its key. -/
theorem answers_congr (same : store.lookup key = other.lookup key) {now : UInt64}
    {request : Request} (names : request.key? = some key) {value : Value D} :
    store.Answers now request value ↔ other.Answers now request value := by
  have members := members_congr same
  have present := mem_congr same
  cases request with
  | keys | unknown => cases names
  | get | set | pttl =>
      cases names
      simp only [Answers, same]
  | del | pexpire =>
      cases names
      simp only [Answers, present]
  | zadd | zrem | zscore | zquery =>
      cases names
      simp only [Answers, members]

/-- The events that concern a key determine its item. -/
theorem lookup_project (key : Bytes) (history : List Event) :
    (Store.after (project key history) : Store D).lookup key =
      (Store.after history).lookup key := by
  induction history with
  | nil => rfl
  | cons event history ih =>
      cases event with
      | request cmd now =>
          rw [project, List.filterMap_cons, Event.restrict]
          by_cases names : (Request.ofCmd cmd).key? = some key
          · rw [if_pos names]
            exact apply_congr ih _ names
          · rw [if_neg names]
            exact ih.trans (apply_elsewhere _ _ names).symm
      | sweep evicted now =>
          rw [project, List.filterMap_cons, Event.restrict]
          by_cases gone : key ∈ evicted
          · rw [if_pos (List.contains_iff_mem.mpr gone), Store.after, Store.after, lookup_evict,
              lookup_evict, if_pos gone, if_pos (List.mem_singleton_self key)]
          · rw [if_neg (gone ∘ List.contains_iff_mem.mp), Store.after, lookup_evict, if_neg gone]
            exact ih

theorem answers_unique {now : UInt64} {request : Request} {value another : Value D}
    (answers : store.Answers now request value) (others : store.Answers now request another)
    (unlisted : ¬ request.Lists) : value = another := by
  cases request with
  | keys | zquery => exact absurd trivial unlisted
  | get | set | del | zadd | zrem | zscore | pexpire | pttl | unknown =>
      exact answers.trans others.symm

end Store

variable [Dbl D]

/-- What ZQUERY answers for the sorted set under its key. -/
def zqueryAnswer (members : Option (Members D)) (score name offset limit : Bytes) : Value D :=
  match str2dbl D score, str2int offset, str2int limit, members with
  | none, _, _, _ => .err errBadArg (ascii "expect fp number")
  | some score, some offset, some limit, some members =>
      .arr (tupleValues (zquerySlice members.tuples score name offset limit))
  | some _, some _, some _, none => .err errBadTyp (ascii "expect zset")
  | some _, _, _, _ => .err errBadArg (ascii "expect int")

/-- ZQUERY has one answer while the count of the members is exact. -/
theorem Store.Answers.eq_zqueryAnswer {store : Store D} {key score name offset limit : Bytes}
    {now : UInt64} {value : Value D}
    (answers : store.Answers now (.zquery key score name offset limit) value)
    (small : ∀ members, store.members key = some members → members.keys.card < 2 ^ 32) :
    value = zqueryAnswer (store.members key) score name offset limit := by
  simp only [Store.Answers] at answers
  split at answers
  · rename_i isScore
    simpa only [zqueryAnswer, isScore] using answers
  · rename_i isScore isOffset isLimit isMembers
    obtain ⟨pairs, rfl, -, slice⟩ := answers
    obtain rfl := slice (small _ isMembers)
    simp only [zqueryAnswer, isScore, isOffset, isLimit, isMembers, tupleValues]
  · rename_i isScore isOffset isLimit isMembers
    simpa only [zqueryAnswer, isScore, isOffset, isLimit, isMembers] using answers
  · rename_i isScore notListed notSet
    cases isOffset : str2int offset with
    | none => simpa only [zqueryAnswer, isScore, isOffset] using answers
    | some start =>
        cases isLimit : str2int limit with
        | none => simpa only [zqueryAnswer, isScore, isOffset, isLimit] using answers
        | some size =>
            cases isMembers : store.members key with
            | none => exact (notSet _ _ isOffset isLimit isMembers).elim
            | some members => exact (notListed _ _ _ isOffset isLimit isMembers).elim

theorem Db.Denotes.zqueryAnswer {db : Db D} {store : Store D} (denotes : db.Denotes store)
    {key score name offset limit : Bytes}
    (small : ∀ members, store.members key = some members → members.keys.card < 2 ^ 31)
    (now : UInt64) (out : Bytes) :
    ∃ after, RedisLite.doRequest db [ascii "zquery", key, score, name, offset, limit] now out =
      .ok (after, out ++ (RedisLite.zqueryAnswer (store.members key) score name offset
        limit).encode Dbl.bits) := by
  obtain ⟨⟨after, written⟩, call, -, value, answers, isWritten⟩ :=
    denotes.doZquery (ascii "zquery") key score name offset limit out now
  have isWritten : written = out ++ value.encode Dbl.bits := isWritten
  obtain rfl := answers.eq_zqueryAnswer fun members isMembers =>
    (small members isMembers).trans (by decide)
  exact ⟨after, by rw [doRequest_zquery, call, isWritten]⟩

/-- The response to a command is determined by the item under its key. -/
theorem Db.Denotes.respond_congr {db other : Db D} {store otherStore : Store D}
    (denotes : db.Denotes store) (otherDenotes : other.Denotes otherStore) (fits : store.Fits)
    (otherFits : otherStore.Fits) {key : Bytes} (same : store.lookup key = otherStore.lookup key)
    (small : ∀ members, store.members key = some members → members.keys.card < 2 ^ 31)
    {cmd : List Bytes} (names : (Request.ofCmd cmd).key? = some key) (now : UInt64) (out : Bytes) :
    ∃ after otherAfter response, RedisLite.respond db cmd now out = .ok (after, out ++ response) ∧
      RedisLite.respond other cmd now out = .ok (otherAfter, out ++ response) := by
  by_cases unlisted : (Request.ofCmd cmd).Lists
  · cases request : Request.ofCmd cmd with
    | zquery named score name offset limit =>
        rw [request] at names
        cases names
        obtain rfl := Request.words_ofCmd (by rw [request]; rfl)
        have otherSmall := small
        rw [Store.members_congr same] at otherSmall
        obtain ⟨after, call⟩ := denotes.zqueryAnswer small now (responseBegin out).1
        obtain ⟨otherAfter, otherCall⟩ :=
          otherDenotes.zqueryAnswer otherSmall now (responseBegin out).1
        rw [← Store.members_congr same] at otherCall
        exact ⟨after, otherAfter, _, respond_eq call, respond_eq otherCall⟩
    | keys =>
        rw [request] at names
        cases names
    | _ =>
        rw [request] at unlisted
        cases unlisted
  · obtain ⟨⟨after, written⟩, call, -, -, value, answers, isWritten⟩ :=
      denotes.respond fits cmd now out
    obtain ⟨⟨otherAfter, otherWritten⟩, otherCall, -, -, another, others, isOther⟩ :=
      otherDenotes.respond otherFits cmd now out
    rw [← Store.answers_congr same names] at others
    obtain rfl := Store.answers_unique answers others unlisted
    exact ⟨after, otherAfter, _, by rw [call, ← isWritten], by rw [otherCall, ← isOther]⟩

/-- Keys do not interfere.  Two databases whose histories agree on the events that concern a
key give the same responses to the commands that name it, whatever else was requested and
evicted in between. -/
theorem keys_isolated {history otherHistory : List Event} {db other : Db D}
    (reached : Reached history db) (otherReached : Reached otherHistory other)
    (short : history.length < 2 ^ 64) (otherShort : otherHistory.length < 2 ^ 64) {key : Bytes}
    (same : project key history = project key otherHistory)
    (small : ∀ members : Members D, (Store.after history).members key = some members →
      members.keys.card < 2 ^ 31)
    {cmd : List Bytes} (names : (Request.ofCmd cmd).key? = some key) (now : UInt64) (out : Bytes) :
    ∃ after otherAfter response, respond db cmd now out = .ok (after, out ++ response) ∧
      respond other cmd now out = .ok (otherAfter, out ++ response) := by
  have lookup : (Store.after history : Store D).lookup key =
      (Store.after otherHistory).lookup key := by
    rw [← Store.lookup_project, same, Store.lookup_project]
  exact reached.denotes.respond_congr otherReached.denotes (Store.fits_after short)
    (Store.fits_after otherShort) lookup small names now out

/-- A key that another client sets in between does not change the answer to GET. -/
theorem keys_isolated_get : ∃ (db other after otherAfter : Db Nat) (response : Bytes),
    Reached [.request [ascii "set", ascii "k", ascii "v"] 0] db ∧
    Reached [.request [ascii "set", ascii "j", ascii "w"] 0,
      .request [ascii "set", ascii "k", ascii "v"] 0] other ∧
    respond db [ascii "get", ascii "k"] 0 [] = .ok (after, [] ++ response) ∧
    respond other [ascii "get", ascii "k"] 0 [] = .ok (otherAfter, [] ++ response) := by
  obtain ⟨db, reached⟩ := exists_reached Nat [[ascii "set", ascii "k", ascii "v"]] (by decide)
  obtain ⟨other, otherReached⟩ := exists_reached Nat [[ascii "set", ascii "j", ascii "w"],
    [ascii "set", ascii "k", ascii "v"]] (by decide)
  obtain ⟨after, otherAfter, response, call, otherCall⟩ :=
    @keys_isolated Nat _ _ _ _ _ reached otherReached (by decide) (by decide) (ascii "k")
      (by simp [project, Event.restrict, Request.ofCmd, Request.key?, ascii]) nofun
      [ascii "get", ascii "k"] (by decide) 0 []
  exact ⟨db, other, after, otherAfter, response, reached, otherReached, call, otherCall⟩

end RedisLite
