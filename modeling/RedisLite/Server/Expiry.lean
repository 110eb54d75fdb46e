import RedisLite.Server.Capacity

/-!
# Timers over runs

In every reached database the timer heap, the back indices and the hash table agree,
also between the turns of a sweep, and PTTL reports the deadline that the history of
the key determines.
-/

namespace RedisLite

open Lib Lib.HeapOrder

variable {D : Type}

/-! ## The timer heap and the entries -/

/-- The agreement of the timer heap with the entries of the database. -/
structure Db.Consistent (db : Db D) : Prop where
  /-- The heap is a min-heap on `val`. -/
  ordered : ∀ i item above, 0 < i → db.timers.heap[i]? = some item →
    db.timers.heap[heapParent i]? = some above → above.val ≤ item.val
  /-- Item `i` points to an entry in the database whose `heap_idx` is `i`. -/
  pointed : ∀ i item, db.timers.heap[i]? = some item →
    (∃ node ∈ db.db.nodes, node.ref = item.ref) ∧
      (∃ entry, db.entries.cell item.ref = some entry) ∧
      db.timers.heapIdx.cell item.ref = some (some i)
  /-- An entry has no timer and no item, or exactly the item at its `heap_idx`. -/
  timed : ∀ node ∈ db.db.nodes,
    (db.timers.heapIdx.cell node.ref = some none ∧
      ∀ item ∈ db.timers.heap, item.ref ≠ node.ref) ∨
    ∃ pos item, db.timers.heapIdx.cell node.ref = some (some pos) ∧
      db.timers.heap[pos]? = some item ∧ item.ref = node.ref ∧
      ∀ i other, db.timers.heap[i]? = some other → other.ref = node.ref → i = pos

/-- The states between the turns of the TTL loop of one `process_timers` call. -/
def TtlTurns (now : UInt64) : Db D × Nat → Db D × Nat → Prop :=
  Relation.ReflTransGen fun before after => processTtlTurn now before = .ok (.next after)

theorem Db.Denotes.consistent [LinearOrder D] {db : Db D} {store : Store D}
    (denotes : db.Denotes store) : db.Consistent where
  ordered := by
    intro i item above positive found aboveFound
    have inside := (List.getElem?_eq_some_iff.mp found).1
    have below := denotes.tracks.valid.ordered i positive inside
    rw [show parent i = heapParent i by unfold parent heapParent; omega, keyAt_eq found,
      keyAt_eq aboveFound] at below
    exact UInt64.le_iff_toNat_le.mpr below
  pointed := by
    intro i item found
    have set := denotes.tracks.valid.indexed i item found
    obtain ⟨entry, live⟩ := (denotes.live item.ref).mp ⟨_, set⟩
    exact ⟨⟨_, denotes.linked.owned _ entry live, rfl⟩, ⟨entry, live⟩, set⟩
  timed := by
    intro node member
    obtain ⟨entry, live, -⟩ := denotes.linked.live node member
    obtain ⟨idx, set⟩ := (denotes.live node.ref).mpr ⟨entry, live⟩
    cases idx with
    | none =>
        refine .inl ⟨set, ?_⟩
        intro item itemMem same
        obtain ⟨i, found⟩ := List.mem_iff_getElem?.mp itemMem
        have itemSet := denotes.tracks.valid.indexed i item found
        rw [same, set] at itemSet
        cases itemSet
    | some pos =>
        obtain ⟨item, found, same⟩ := denotes.tracks.pointed node.ref pos set
        refine .inr ⟨pos, item, set, found, same, ?_⟩
        intro i other otherFound otherSame
        have otherSet := denotes.tracks.valid.indexed i other otherFound
        rw [otherSame, set] at otherSet
        cases otherSet
        rfl

/-- Between the turns of the TTL loop the database stands for some store. -/
theorem TtlTurns.denotes [LinearOrder D] {now : UInt64} {db : Db D} {store : Store D}
    (denotes : db.Denotes store) {state : Db D × Nat} (turns : TtlTurns now (db, 0) state) :
    ∃ store, state.1.Denotes store := by
  induction turns with
  | refl => exact ⟨store, denotes⟩
  | @tail middle after _ turn ih =>
      obtain ⟨store, middleDenotes⟩ := ih
      obtain ⟨middle, nworks⟩ := middle
      by_cases ends : ∀ item rest, middle.timers.heap = item :: rest → ¬ item.val < now
      · rw [Db.Denotes.processTtlTurn_done ends] at turn
        cases turn
      · push Not at ends
        obtain ⟨item, rest, heapEq, due⟩ := ends
        obtain ⟨entry, -, next, -, turnEq, -, nextDenotes⟩ :=
          middleDenotes.processTtlTurn heapEq due nworks
        rw [turn] at turnEq
        split at turnEq
        · cases turnEq
        · cases turnEq
          exact ⟨_, nextDenotes⟩

variable [Dbl D]

/-- In every reached database, and between the turns of a sweep from it, the heap is a
min-heap and agrees with the entries.  Every turn finds the entry of the first item in
the hash table and removes that item and that entry only, so the fallback branch is
never taken. -/
theorem timers_consistent {history : List Event} {db : Db D} (reached : Reached history db)
    (now : UInt64) (state : Db D × Nat) (turns : TtlTurns now (db, 0) state) :
    db.Consistent ∧ state.1.Consistent ∧
      ∀ item rest, state.1.timers.heap = item :: rest → item.val < now →
        ∃ entry after, state.1.Evicts item entry after ∧ after.Consistent ∧
          processTtlTurn now state =
            .ok (if state.2 ≥ kMaxWorks then .done after else .next (after, state.2 + 1)) := by
  obtain ⟨store, denotes⟩ := turns.denotes reached.denotes
  refine ⟨reached.denotes.consistent, denotes.consistent, ?_⟩
  intro item rest heapEq due
  obtain ⟨entry, -, after, -, turnEq, evicts, afterDenotes⟩ :=
    denotes.processTtlTurn heapEq due state.2
  exact ⟨entry, after, evicts, afterDenotes.consistent, turnEq⟩

theorem exists_reached_pexpire :
    ∃ db : Db Nat, Reached [.request [ascii "pexpire", ascii "k", ascii "5"] 0,
      .request [ascii "set", ascii "k", ascii "v"] 0] db :=
  exists_reached Nat [[ascii "pexpire", ascii "k", ascii "5"],
    [ascii "set", ascii "k", ascii "v"]] (by decide)

/-- The turn that evicts a key with a TTL of 5 at clock reading 10. -/
theorem timers_consistent_pexpire :
    ∃ db : Db Nat, Reached [.request [ascii "pexpire", ascii "k", ascii "5"] 0,
        .request [ascii "set", ascii "k", ascii "v"] 0] db ∧ db.Consistent ∧
      ∃ item entry after, item.val < 10 ∧ db.Evicts item entry after ∧
        processTtlTurn 10 (db, 0) = .ok (.next (after, 1)) := by
  obtain ⟨db, reached⟩ := exists_reached_pexpire
  have denotes := reached.denotes
  have lookup : (Store.after [.request [ascii "pexpire", ascii "k", ascii "5"] 0,
      .request [ascii "set", ascii "k", ascii "v"] 0] : Store Nat).lookup (ascii "k") =
        some ⟨.str (ascii "v"), some 5⟩ := rfl
  obtain ⟨ent, entry, live, isKey⟩ := denotes.keys _ _ lookup
  obtain ⟨value, found⟩ := denotes.finds live
  have isValue := found.lookup
  rw [isKey, lookup] at isValue
  cases isValue
  have member := denotes.tracks.deadline_eq_some.mp found.deadline
  obtain ⟨item, rest, heapEq⟩ := List.exists_cons_of_ne_nil (List.ne_nil_of_mem member)
  have early := denotes.tracks.first_le heapEq member
  have soon : UInt64.ofNat 5 < 10 := by decide
  have due : item.val < 10 := UInt64.lt_of_le_of_lt early soon
  obtain ⟨consistent, -, turn⟩ := timers_consistent reached 10 (db, 0) .refl
  obtain ⟨evictee, after, evicts, -, turnEq⟩ := turn item rest heapEq due
  exact ⟨db, reached, consistent, item, evictee, after, due, evicts, turnEq⟩

/-! ## The deadline of a key -/

/-- What a request at clock reading `now` does to a key: `none` is "not in the
database", else there is an optional deadline.  SET and ZADD create a key without a
deadline and keep the deadline of a present one; only PEXPIRE changes it. -/
def lifeAfter (D : Type) [Dbl D] (request : Request) (now : Nat) (key : Bytes)
    (life : Option (Option Nat)) : Option (Option Nat) :=
  match request with
  | .set written _ => if written = key then some (life.getD none) else life
  | .zadd written score _ =>
      if written = key ∧ (str2dbl D score).isSome then some (life.getD none) else life
  | .del deleted => if deleted = key then none else life
  | .pexpire timed ttlMs =>
      match str2int ttlMs with
      | some ttlMs => if timed = key then life.map fun _ => deadlineAfter now ttlMs else life
      | none => life
  | _ => life

/-- The deadline of a key after a history. -/
def life (D : Type) [Dbl D] (key : Bytes) : List Event → Option (Option Nat)
  | [] => none
  | .request cmd now :: earlier =>
      lifeAfter D (Request.ofCmd cmd) now.toNat key (life D key earlier)
  | .sweep evicted _ :: earlier => if key ∈ evicted then none else life D key earlier

theorem life_request (key : Bytes) (cmd : List Bytes) (now : UInt64) (earlier : List Event) :
    life D key (.request cmd now :: earlier) =
      lifeAfter D (Request.ofCmd cmd) now.toNat key (life D key earlier) :=
  rfl

theorem life_sweep (key : Bytes) (evicted : List Bytes) (now : UInt64) (earlier : List Event) :
    life D key (.sweep evicted now :: earlier) =
      if key ∈ evicted then none else life D key earlier :=
  rfl

namespace Store

variable {store : Store D} {key other : Bytes}

/-- The deadline of a key in a store. -/
def deadline {D : Type} (store : Store D) (key : Bytes) : Option (Option Nat) :=
  (store.lookup key).map Item.deadline

omit [Dbl D] in
theorem deadline_insert (item : Item D) :
    Store.deadline (store.insert other item) key =
      if other = key then some item.deadline else store.deadline key := by
  by_cases same : other = key
  · subst same
    simp [deadline, Finmap.lookup_insert]
  · simp [deadline, same, Finmap.lookup_insert_of_ne _ (Ne.symm same)]

omit [Dbl D] in
theorem deadline_write (data : Data D) :
    (store.write other data).deadline key =
      if other = key then some ((store.deadline key).getD none) else store.deadline key := by
  rw [write, deadline_insert]
  split
  · rename_i same
    subst same
    cases lookup : store.lookup other <;> simp [deadline, lookup]
  · rfl

omit [Dbl D] in
theorem deadline_keep {item : Item D} (lookup : store.lookup other = some item) :
    store.deadline key =
      if other = key then some ((store.deadline key).getD none) else store.deadline key := by
  split
  · rename_i same
    subst same
    simp [deadline, lookup]
  · rfl

/-- A request changes the deadlines of the store as the history says. -/
theorem deadline_apply (store : Store D) (now : Nat) (request : Request) (key : Bytes) :
    (store.apply now request).deadline key =
      lifeAfter D request now key (store.deadline key) := by
  cases request with
  | set other str =>
      simp only [apply, lifeAfter]
      split
      · rename_i lookup
        exact deadline_keep lookup
      · exact deadline_write _
  | del other =>
      simp only [apply, lifeAfter]
      by_cases same : other = key
      · subst same
        simp [deadline, Finmap.lookup_erase]
      · simp [deadline, same, Finmap.lookup_erase_ne (Ne.symm same)]
  | zadd other score name =>
      simp only [apply, lifeAfter]
      cases str2dbl D score with
      | none => simp
      | some score =>
          cases isMembers : store.members other with
          | some members => simpa using deadline_write _
          | none =>
              obtain ⟨item, lookup⟩ : ∃ item, store.lookup other = some item := by
                apply Option.isSome_iff_exists.mp
                rw [Option.isSome_iff_ne_none]
                intro lookup
                rw [members, lookup] at isMembers
                cases isMembers
              simpa using deadline_keep lookup
  | zrem other name =>
      simp only [apply, lifeAfter]
      split
      · rename_i lookup
        rw [deadline_write]
        exact (deadline_keep lookup).symm
      · rfl
  | pexpire other ttlMs =>
      simp only [apply, lifeAfter]
      cases str2int ttlMs with
      | none => rfl
      | some ttlMs =>
          cases lookup : store.lookup other with
          | none =>
              by_cases same : other = key
              · subst same
                simp [deadline, lookup]
              · simp [same]
          | some item =>
              simp only [deadline_insert]
              by_cases same : other = key
              · subst same
                simp [deadline, lookup]
              · simp [same]
  | get | keys | zscore | zquery | pttl | unknown => rfl

end Store

theorem deadline_after (history : List Event) (key : Bytes) :
    (Store.after history : Store D).deadline key = life D key history := by
  induction history with
  | nil => rfl
  | cons event earlier ih =>
      cases event with
      | request cmd now => rw [Store.after, Store.deadline_apply, ih, life_request]
      | sweep evicted now =>
          rw [Store.after, life_sweep, ← ih, Store.deadline, Store.deadline, Store.lookup_evict]
          split <;> rfl

/-- A deadline after a request was there before, or PEXPIRE has set it. -/
theorem lifeAfter_eq_some {request : Request} {now : Nat} {key : Bytes}
    {life : Option (Option Nat)} {deadline : Nat}
    (isAfter : lifeAfter D request now key life = some (some deadline)) :
    life = some (some deadline) ∨
      ∃ text ttlMs, str2int text = some ttlMs ∧ deadline = now + ttlMs.toNat := by
  have kept : some (life.getD none) = some (some deadline) → life = some (some deadline) := by
    intro same
    cases life with
    | none => cases same
    | some old => exact same
  unfold lifeAfter at isAfter
  split at isAfter
  · split at isAfter
    · exact .inl (kept isAfter)
    · exact .inl isAfter
  · split at isAfter
    · exact .inl (kept isAfter)
    · exact .inl isAfter
  · split at isAfter
    · cases isAfter
    · exact .inl isAfter
  · split at isAfter
    · rename_i ttlMs parsed
      split at isAfter
      · obtain ⟨old, -, set⟩ := Option.map_eq_some_iff.mp isAfter
        unfold deadlineAfter at set
        split at set
        · cases set
        · cases set
          exact .inr ⟨_, ttlMs, parsed, rfl⟩
      · exact .inl isAfter
    · exact .inl isAfter
  · exact .inl isAfter

/-- A deadline is less than `2 ^ 63` ahead of the clock. -/
theorem Reached.deadline_lt {history : List Event} {db : Db D} (reached : Reached history db)
    (key : Bytes) : ∀ deadline, life D key history = some (some deadline) →
      deadline < (clock history).toNat + 2 ^ 63 := by
  induction reached with
  | start => intro deadline isLife; cases isLife
  | request cmd now _ later _ _ ih =>
      intro deadline isLife
      have later := UInt64.le_iff_toNat_le.mp later
      simp only [clock, Event.now]
      rcases lifeAfter_eq_some isLife with isOld | ⟨text, ttlMs, parsed, rfl⟩
      · have := ih deadline isOld
        omega
      · have range := str2int_range parsed
        omega
  | sweep now _ later _ ih =>
      intro deadline isLife
      rw [life_sweep] at isLife
      split at isLife
      · cases isLife
      · have := ih deadline isLife
        have := UInt64.le_iff_toNat_le.mp later
        simp only [clock, Event.now]
        omega

/-- While the stored sum did not wrap, PTTL computes the exact distance. -/
theorem ttlLeft_exact {deadline : Nat} {now : UInt64} (small : deadline < 2 ^ 64)
    (near : deadline < now.toNat + 2 ^ 63) :
    (Store.ttlLeft (UInt64.ofNat deadline) now).toInt = max 0 ((deadline : Int) - now.toNat) := by
  have exact : (UInt64.ofNat deadline).toNat = deadline := UInt64.toNat_ofNat_of_lt' small
  unfold Store.ttlLeft
  split
  · rename_i ahead
    have distance := UInt64.toNat_sub_of_le _ _ (UInt64.le_of_lt ahead)
    have ahead := UInt64.lt_iff_toNat_lt.mp ahead
    rw [exact] at distance ahead
    have fits : 2 * (UInt64.ofNat deadline - now).toBitVec.toNat < 2 ^ 64 := by
      rw [UInt64.toNat_toBitVec, distance]
      omega
    have value : (UInt64.ofNat deadline - now).toInt64.toInt =
        ((UInt64.ofNat deadline - now).toNat : Int) := BitVec.toInt_eq_toNat_of_lt fits
    rw [value, distance]
    omega
  · rename_i passed
    have passed := UInt64.le_iff_toNat_le.mp (UInt64.not_lt.mp passed)
    rw [exact] at passed
    rw [max_eq_left (by omega)]
    rfl

/-- PTTL reports the deadline of the current life of the key: -2 without a life, -1
without a deadline, else the distance to it in the 64-bit arithmetic of the code.  The
distance is exact unless the sum of clock and TTL passed `2 ^ 64`, which it cannot for
clock readings below `2 ^ 62`. -/
theorem pttl_tracks_deadline {history : List Event} {db : Db D} (reached : Reached history db)
    (key out : Bytes) (now : UInt64) (later : clock history ≤ now) :
    ∃ after val, doRequest db [ascii "pttl", key] now out =
        .ok (after, out ++ (Value.int val : Value D).encode Dbl.bits) ∧
      match life D key history with
      | none => val = -2
      | some none => val = -1
      | some (some deadline) => val = Store.ttlLeft (UInt64.ofNat deadline) now ∧
          (deadline < 2 ^ 64 → val.toInt = max 0 ((deadline : Int) - now.toNat)) ∧
          (now.toNat < 2 ^ 62 → deadline < 2 ^ 64) := by
  obtain ⟨⟨after, outAfter⟩, call, -, value, answers, written⟩ :=
    reached.denotes.doTtl (ascii "pttl") key out now
  have request : doRequest db [ascii "pttl", key] now out =
      doTtl db [ascii "pttl", key] now out := rfl
  have isLife : (Store.after history : Store D).deadline key = life D key history :=
    deadline_after history key
  rw [request, call, show outAfter = _ from written]
  rw [Store.deadline] at isLife
  simp only [Store.Answers] at answers
  cases lookup : (Store.after history : Store D).lookup key with
  | none =>
      rw [lookup] at answers isLife
      rw [← isLife, answers]
      exact ⟨after, _, rfl, rfl⟩
  | some item =>
      obtain ⟨data, deadline⟩ := item
      rw [lookup] at answers isLife
      cases deadline with
      | none =>
          rw [← isLife, answers]
          exact ⟨after, _, rfl, rfl⟩
      | some deadline =>
          rw [← isLife, answers]
          have near := reached.deadline_lt key deadline isLife.symm
          have later := UInt64.le_iff_toNat_le.mp later
          exact ⟨after, _, rfl, rfl, fun small => ttlLeft_exact small (by omega),
            fun early => by omega⟩

/-- A key with a TTL of 5, set at clock reading 0, has 3 left at 2. -/
theorem pttl_tracks_deadline_pexpire :
    ∃ db : Db Nat, Reached [.request [ascii "pexpire", ascii "k", ascii "5"] 0,
        .request [ascii "set", ascii "k", ascii "v"] 0] db ∧
      ∃ after val, doRequest db [ascii "pttl", ascii "k"] 2 [] =
        .ok (after, (Value.int val : Value Nat).encode Dbl.bits) ∧ val.toInt = 3 := by
  obtain ⟨db, reached⟩ := exists_reached_pexpire
  obtain ⟨after, val, call, -, exact, -⟩ :=
    pttl_tracks_deadline reached (ascii "k") [] 2 (by decide)
  exact ⟨db, reached, after, val, call, exact (by decide)⟩

end RedisLite
