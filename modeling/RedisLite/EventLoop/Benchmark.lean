import RedisLite.Client.Benchmark
import RedisLite.EventLoop.Leases

/-!
# The benchmark against the server

The sizes that `benchmark.cpp` expects are those of the responses of the server, as long as
no other client writes its keys.  So a test reads all of its responses and nothing of the
next test.
-/

namespace RedisLite

open Lib Benchmark

/-- The keys of the benchmark. -/
def Benchmark.Uses (numRequests : Nat) (used : Bytes) : Prop :=
  (∃ i < numRequests, used = key i) ∨ used = leaderboard

variable {D : Type}

/-- The part of the store that belongs to the benchmark after `count` of its commands. -/
structure Store.Benchmarked (numRequests count : Nat) (store : Store D) : Prop where
  keys : ∀ i < numRequests, ∀ item, store.lookup (key i) = some item →
    item = ⟨.str benchValue, none⟩
  present : ∀ i < numRequests, i < count → store.lookup (key i) ≠ none
  board : ∀ item, store.lookup leaderboard = some item →
    ∃ members, item = ⟨.zset members, none⟩

namespace Store.Benchmarked

variable {numRequests count : Nat} {store : Store D}

theorem empty : Store.Benchmarked numRequests 0 (∅ : Store D) where
  keys := by
    intro i inside item found
    rw [Finmap.lookup_empty] at found
    cases found
  present := fun i _ below => absurd below (Nat.not_lt_zero i)
  board := by
    intro item found
    rw [Finmap.lookup_empty] at found
    cases found

/-- Only the keys of the benchmark matter. -/
theorem congr (holds : store.Benchmarked numRequests count) {after : Store D}
    (same : ∀ used, Uses numRequests used → after.lookup used = store.lookup used) :
    after.Benchmarked numRequests count where
  keys := by
    intro i inside item found
    rw [same _ (.inl ⟨i, inside, rfl⟩)] at found
    exact holds.keys i inside item found
  present := by
    intro i inside below
    rw [same _ (.inl ⟨i, inside, rfl⟩)]
    exact holds.present i inside below
  board := by
    intro item found
    rw [same _ (.inr rfl)] at found
    exact holds.board item found

theorem next (holds : store.Benchmarked numRequests count) (all : numRequests ≤ count) :
    store.Benchmarked numRequests (count + 1) where
  keys := holds.keys
  present := fun i inside _ => holds.present i inside (inside.trans_le all)
  board := holds.board

theorem lookup_key (holds : store.Benchmarked numRequests count) {i : Nat}
    (inside : i < numRequests) (below : i < count) :
    store.lookup (key i) = some ⟨.str benchValue, none⟩ := by
  obtain ⟨item, found⟩ := Option.ne_none_iff_exists'.mp (holds.present i inside below)
  rw [found, holds.keys i inside item found]

theorem key_ne_leaderboard (i : Nat) : key i ≠ leaderboard := by
  intro same
  have first : (key i)[0]? = leaderboard[0]? := by rw [same]
  rw [key, List.getElem?_append_left (by decide)] at first
  exact absurd first (by decide)

theorem not_due (holds : store.Benchmarked numRequests count) {used : Bytes}
    (uses : Uses numRequests used) (now : UInt64) : ¬ store.Due now used := by
  rintro ⟨data, deadline, found, -⟩
  rcases uses with ⟨i, inside, rfl⟩ | rfl
  · have item := holds.keys i inside _ found
    cases item
  · obtain ⟨members, item⟩ := holds.board _ found
    cases item

theorem evict (holds : store.Benchmarked numRequests count) {evicted : List Bytes} {now : UInt64}
    (due : ∀ key ∈ evicted, store.Due now key) :
    (store.evict evicted).Benchmarked numRequests count := by
  apply holds.congr
  intro used uses
  rw [Store.lookup_evict, if_neg fun member => holds.not_due uses now (due used member)]

theorem members (holds : store.Benchmarked numRequests count) :
    ∃ members, store.members leaderboard = some members := by
  cases found : store.lookup leaderboard with
  | none => exact ⟨∅, by rw [Store.members, found]⟩
  | some item =>
      obtain ⟨members, rfl⟩ := holds.board item found
      exact ⟨members, by rw [Store.members, found]⟩

variable [Dbl D]

/-- SET stores the value of its key. -/
theorem set (holds : store.Benchmarked numRequests count) (inside : count < numRequests)
    (now : Nat) :
    (store.apply now (.set (key count) benchValue)).Benchmarked numRequests (count + 1) := by
  have written : store.apply now (.set (key count) benchValue) =
      store.insert (key count) ⟨.str benchValue, none⟩ := by
    cases found : store.lookup (key count) with
    | none => simp [Store.apply, found, Store.write]
    | some item =>
        obtain rfl := holds.keys count inside item found
        simp [Store.apply, found, Store.write]
  rw [written]
  constructor
  · intro i iInside item found
    by_cases same : key i = key count
    · rw [same, Finmap.lookup_insert] at found
      exact (Option.some.inj found).symm
    · rw [Finmap.lookup_insert_of_ne _ same] at found
      exact holds.keys i iInside item found
  · intro i iInside below absent
    by_cases same : key i = key count
    · rw [same, Finmap.lookup_insert] at absent
      cases absent
    · rw [Finmap.lookup_insert_of_ne _ same] at absent
      have different : i ≠ count := fun equal => same (equal ▸ rfl)
      exact holds.present i iInside (by omega) absent
  · intro item found
    rw [Finmap.lookup_insert_of_ne _ (key_ne_leaderboard count).symm] at found
    exact holds.board item found

/-- ZADD changes the sorted set only. -/
theorem zadd (holds : store.Benchmarked numRequests count) (now : Nat) (score name : Bytes) :
    (store.apply now (.zadd leaderboard score name)).Benchmarked numRequests count := by
  obtain ⟨members, isMembers⟩ := holds.members
  have keys : ∀ i, (store.apply now (.zadd leaderboard score name)).lookup (key i) =
      store.lookup (key i) :=
    fun i => Store.apply_elsewhere store now
      fun same => key_ne_leaderboard i (Option.some.inj same).symm
  constructor
  · intro i inside item found
    rw [keys] at found
    exact holds.keys i inside item found
  · intro i inside below
    rw [keys]
    exact holds.present i inside below
  · intro item found
    rw [Store.apply, isMembers] at found
    split at found
    · rename_i parsed values _ _
      rw [Store.write, Finmap.lookup_insert, Option.some.injEq] at found
      subst found
      cases stored : store.lookup leaderboard with
      | none => exact ⟨_, rfl⟩
      | some old =>
          obtain ⟨others, rfl⟩ := holds.board old stored
          exact ⟨_, rfl⟩
    · exact holds.board item found

end Store.Benchmarked

variable [Dbl D]

theorem Executed.length_response {done : Executed} {value : Value D}
    (response : done.response = frame ((value.limited Dbl.bits).encode Dbl.bits))
    (small : (value.encode Dbl.bits).length ≤ kMaxMsg) :
    done.response.length = 4 + (value.encode Dbl.bits).length := by
  rw [response, Value.limited, if_neg (by omega), frame, List.length_append,
    LittleEndian.length_encode]

/-- A command of the benchmark is answered by a response of the expected size. -/
theorem Store.Performs.benchmarked {before after : Store D} {conn : Ptr} {done : Executed}
    {numRequests count i : Nat} {test : Test}
    (performs : Store.Performs before (.command conn done) after)
    (holds : before.Benchmarked numRequests count) (isCommand : done.cmd = test.command i)
    (inside : i < numRequests) (inTurn : test = .set → i = count)
    (allSet : test ≠ .set → numRequests ≤ count)
    (parses : test = .zadd → ∃ value, str2dbl D (score i) = some value) :
    after.Benchmarked numRequests (count + 1) ∧ done.response.length = test.responseBytes := by
  cases performs with
  | @command conn done value answers response =>
      cases test with
      | set =>
          obtain rfl := inTurn rfl
          have request : Request.ofCmd done.cmd = .set (key i) benchValue := by
            rw [isCommand]
            rfl
          rw [request] at answers ⊢
          refine ⟨holds.set inside _, ?_⟩
          have isNil : value = .nil := by
            simp only [Store.Answers] at answers
            cases found : before.lookup (key i) with
            | none => rw [found] at answers; exact answers
            | some item =>
                obtain rfl := holds.keys i inside item found
                rw [found] at answers
                exact answers
          rw [isNil] at response
          exact Executed.length_response response (show 1 ≤ kMaxMsg by decide)
      | get =>
          have all := allSet (by decide)
          have request : Request.ofCmd done.cmd = .get (key i) := by
            rw [isCommand]
            rfl
          rw [request] at answers ⊢
          refine ⟨holds.next all, ?_⟩
          simp only [Store.Answers, holds.lookup_key inside (inside.trans_le all)] at answers
          rw [answers] at response
          have size := Store.length_encode_str (Dbl.bits : D → UInt64) benchValue
          rw [Executed.length_response response (by rw [size]; decide), size]
          rfl
      | zadd =>
          have all := allSet (by decide)
          have request : Request.ofCmd done.cmd =
              .zadd leaderboard (score i) (ascii "player_" ++ decimalDigits i) := by
            rw [isCommand]
            rfl
          rw [request] at answers ⊢
          refine ⟨(holds.zadd _ _ _).next all, ?_⟩
          obtain ⟨parsed, isParsed⟩ := parses rfl
          obtain ⟨members, isMembers⟩ := holds.members
          simp only [Store.Answers, isParsed, isMembers] at answers
          rw [answers] at response
          exact Executed.length_response response (by simp [Value.encode, kMaxMsg])

/-- Nobody but the connection writes keys of the benchmark. -/
def Undisturbed (conn : Ptr) (numRequests : Nat) (order : List Action) : Prop :=
  ∀ action ∈ order, action.conn ≠ some conn → ∀ used, Uses numRequests used →
    ¬ action.Touches used

theorem Store.Performs.undisturbed {before after : Store D} {action : Action}
    {numRequests count : Nat} (performs : Store.Performs before action after)
    (holds : before.Benchmarked numRequests count)
    (untouched : ∀ used, Uses numRequests used → ¬ action.Touches used) :
    after.Benchmarked numRequests count := by
  cases performs with
  | command answers response =>
      exact holds.congr fun used uses => Store.lookup_apply before _ (untouched used uses)
  | sweep due => exact holds.evict due

/-- In every order in which nobody disturbs the benchmark, its commands are answered by
responses of the expected sizes. -/
theorem benchmark_sizes {order : List Action} {store : Store D}
    (performs : (atomicStore D).Performs order store) {conn : Ptr} {executed : List Executed}
    (own : Atomic.own Action.conn conn order = executed.map (.command conn))
    {numRequests : Nat} {test : Test}
    (commands : executed.map Executed.cmd <+: test.commandsUpTo numRequests)
    (undisturbed : Undisturbed conn numRequests order)
    (parses : test = .zadd → ∀ i < numRequests, ∃ value, str2dbl D (score i) = some value) :
    store.Benchmarked numRequests executed.length ∧
      executed.map (fun one => one.response.length) <+: test.sizesUpTo numRequests := by
  induction performs generalizing executed with
  | start =>
      obtain rfl : executed = [] := List.map_eq_nil_iff.mp own.symm
      exact ⟨.empty, List.nil_prefix⟩
  | @snoc order before after action performs step ih =>
      rw [Atomic.own_append] at own
      have before_undisturbed : Undisturbed conn numRequests order :=
        fun other member => undisturbed other (List.mem_append_left _ member)
      by_cases isOwn : action.conn = some conn
      · have ownAction : Atomic.own Action.conn conn [action] = [action] :=
          Atomic.own_eq_self (by simpa using isOwn)
        rw [ownAction] at own
        obtain ⟨front, last, rfl, frontOwn, lastOwn⟩ := List.append_eq_map_iff.mp own
        obtain ⟨done, rfl, rfl⟩ := List.map_eq_singleton_iff.mp lastOwn
        rw [List.map_append, List.map_singleton] at commands
        obtain ⟨holds, sizes⟩ := ih frontOwn.symm ((List.prefix_append _ _).trans commands)
          before_undisturbed
        have found : (test.commandsUpTo numRequests)[front.length]? = some done.cmd := by
          obtain ⟨rest, whole⟩ := commands
          rw [← whole, List.append_assoc, List.getElem?_append_right (by simp)]
          simp
        obtain ⟨of, i, isCommand, inside, size, inTurn, afterSets, isZadd⟩ :=
          Test.exists_command found
        obtain ⟨holdsAfter, length⟩ := step.benchmarked holds isCommand inside inTurn afterSets
          fun same => parses (isZadd same) i inside
        refine ⟨by rwa [List.length_append, List.length_singleton], ?_⟩
        obtain ⟨rest, whole⟩ := sizes
        rw [← whole, List.getElem?_append_right (by simp), List.length_map, Nat.sub_self] at size
        cases rest with
        | nil => cases size
        | cons first rest =>
            obtain rfl : first = of.responseBytes := Option.some.inj size
            refine ⟨rest, ?_⟩
            rw [List.map_append, List.map_singleton, length, ← whole, List.append_assoc]
            rfl
      · have ownAction : Atomic.own Action.conn conn [action] = [] :=
          Atomic.own_eq_nil (by simpa using isOwn)
        rw [ownAction, List.append_nil] at own
        obtain ⟨holds, sizes⟩ := ih own commands before_undisturbed
        exact ⟨step.undisturbed holds (undisturbed action (by simp) isOwn), sizes⟩

theorem eq_of_sum_eq {sizes whole : List Nat} (isPart : sizes <+: whole)
    (positive : ∀ size ∈ whole, 0 < size) (same : sizes.sum = whole.sum) : sizes = whole := by
  obtain ⟨rest, rfl⟩ := isPart
  cases rest with
  | nil => exact (List.append_nil sizes).symm
  | cons size rest =>
      have more := positive size (by simp)
      rw [List.sum_append, List.sum_cons] at same
      omega

/-- In every run in which nobody else writes the keys of the benchmark: each command of a test is
answered by a response of the expected size.  The test reads what the server has sent for it and
nothing else, whatever the pieces, and ends without an error exactly when all of that arrives;
then the server has executed every command up to the end of the test. -/
theorem benchmark_reads_responses {passed : List (Moment D)} {state : LoopState D}
    (run : Run passed state) {order : List Action} (explains : Explains D order state.g)
    {conn : Ptr} {value : Conn} (live : state.g.conns.cell conn = some value)
    {numRequests : Nat} (fits : numRequests * 20 < 2 ^ 31) {test : Test}
    (undisturbed : Undisturbed conn numRequests order)
    (parses : test = .zadd → ∀ i < numRequests, ∃ value, str2dbl D (score i) = some value)
    (toServer : value.traffic.received <+:
      (test.earlier ++ [test]).flatMap fun test => test.buffer numRequests)
    {before : Bytes} (finished : before.length = test.earlierBytes numRequests)
    {arriving : Pieces UInt8} (toClient : before ++ arriving.whole <+: value.traffic.sent)
    (write : Nat → Nat → Int) :
    value.traffic.executed.map (fun one => (one.cmd, one.response.length)) <+:
        (test.commandsUpTo numRequests).zip (test.sizesUpTo numRequests) ∧
      Exec.Returns (runBenchmark (test.buffer numRequests) (numRequests * test.responseBytes) write
        arriving) fun result =>
          (result.1 = .writeError ∧ Client.Fails write) ∨
          (result.2.whole = [] ∧ result.1 = .readError arriving.whole.length ∧
            arriving.whole.length < numRequests * test.responseBytes) ∨
          (result.2.whole = [] ∧ result.1 = .finished (numRequests * test.responseBytes) ∧
            arriving.whole.length = numRequests * test.responseBytes ∧
            value.traffic.executed.map Executed.cmd = test.commandsUpTo numRequests) := by
  have small : numRequests < 2 ^ 31 := by omega
  have commands : value.traffic.executed.map Executed.cmd <+: test.commandsUpTo numRequests := by
    apply run.executes_prefix live
    · intro cmd member
      obtain ⟨of, -, cmdMem⟩ := List.mem_flatMap.mp member
      obtain ⟨i, iMem, rfl⟩ := List.mem_map.mp cmdMem
      exact of.length_requestBody_command ((List.mem_range.mp iMem).trans small)
    · rw [Test.commandsUpTo, List.flatMap_assoc]
      rwa [List.flatMap_congr fun of _ => of.buffer_eq small] at toServer
  obtain ⟨-, sizes⟩ := benchmark_sizes explains.performs (explains.own conn value live) commands
    undisturbed parses
  have responses : (before ++ arriving.whole).length ≤
      (value.traffic.executed.map fun one => one.response.length).sum := by
    have output := congrArg List.length (run.sound live).output_eq
    rw [List.length_append, List.length_flatMap] at output
    have arrived := toClient.length_le
    omega
  have whole : (value.traffic.executed.map fun one => one.response.length).sum ≤
      test.earlierBytes numRequests + numRequests * test.responseBytes := by
    rw [← Test.sum_sizesUpTo]
    exact sizes.sublist.sum_le_sum fun _ _ => Nat.zero_le _
  rw [List.length_append, finished] at responses
  constructor
  · obtain ⟨moreCommands, isCommands⟩ := commands
    obtain ⟨moreSizes, isSizes⟩ := sizes
    refine ⟨moreCommands.zip moreSizes, ?_⟩
    rw [← isCommands, ← isSizes, List.zip_append (by simp), List.zip_map']
  · obtain ⟨written, writeEq, fails⟩ := writeLoop_spec (test.buffer numRequests) write
    obtain ⟨result, readEq, drained, outcome⟩ := readLoop_spec
      (show arriving.whole.length ≤ numRequests * test.responseBytes by omega)
    rw [runBenchmark, writeEq, Exec.ok_bind]
    cases written with
    | false => exact .of_ok (.inl ⟨rfl, fails rfl⟩)
    | true =>
        rw [if_pos rfl, readEq]
        refine .of_ok (.inr ?_)
        by_cases cut : arriving.whole.length < numRequests * test.responseBytes
        · rw [if_pos cut] at outcome
          exact .inl ⟨drained, outcome, cut⟩
        · have all : arriving.whole.length = numRequests * test.responseBytes := by omega
          rw [if_neg cut, all] at outcome
          refine .inr ⟨drained, outcome, all, ?_⟩
          have complete := eq_of_sum_eq sizes (fun _ member => Test.sizesUpTo_pos member)
            (by rw [Test.sum_sizesUpTo]; omega)
          apply commands.eq_of_length
          rw [test.length_commandsUpTo, ← complete, List.length_map, List.length_map]

/-- The commands of a benchmark with two requests. -/
def benchmarkFrames : Bytes := requestCode.encode (Test.zadd.commandsUpTo 2)

/-- The responses to the ZADDs, in two pieces. -/
def zaddPieces : Pieces UInt8 where
  pieces := [(frame ((Value.int 1 : Value Nat).encode Dbl.bits)).take 7,
    (frame ((Value.int 1 : Value Nat).encode Dbl.bits)).drop 7 ++
      frame ((Value.int 1 : Value Nat).encode Dbl.bits)]
  nonempty := by decide

set_option maxRecDepth 20000 in
/-- A benchmark with two requests reads 26 bytes of responses to its ZADDs, behind 50 bytes of
responses to the other tests. -/
theorem benchmark_reads_responses_zadd :
    (∀ i < 2, str2dbl Nat (score i) = some i) ∧
    Exec.Returns (runBenchmark (Test.zadd.buffer 2) 26 (fun _ n => n) zaddPieces) fun result =>
      result.1 = .finished 26 ∧ result.2.whole = [] := by
  have parses : ∀ i < 2, str2dbl Nat (score i) = some i := by decide
  obtain ⟨state, value, asks, live, received, length, sent, history⟩ :
      ∃ (state : LoopState Nat) (value : Conn), clientAsks benchmarkFrames 1000 = .ok state ∧
        state.g.conns.cell 1 = some value ∧ value.traffic.received = benchmarkFrames ∧
        value.traffic.sent.length = 76 ∧ value.traffic.sent.drop 50 = zaddPieces.whole ∧
        state.g.journal.history =
          (value.traffic.executed.map Executed.event).reverse ++ [.sweep [] 0] :=
    ⟨_, _, rfl, rfl, rfl, rfl, rfl, rfl⟩
  obtain ⟨passed, run⟩ := Run.clientAsks (by decide) asks
  obtain ⟨order, explains⟩ := run.explains
  have commands : ∀ action ∈ value.traffic.executed.map (Action.command 1),
      action.conn = some 1 := by
    intro action member
    obtain ⟨done, -, rfl⟩ := List.mem_map.mp member
    rfl
  have isOrder : order = .sweep [] 0 :: value.traffic.executed.map (.command 1) := by
    refine explains.order_eq live ?_ ?_ (Atomic.own_eq_self commands)
    · rw [history, List.map_cons, List.reverse_cons, List.map_map]
      rfl
    · refine List.forall_mem_cons.mpr ⟨nofun, fun action member other isOther => ?_⟩
      rw [commands action member] at isOther
      exact (Option.some.inj isOther).symm
  have undisturbed : Undisturbed 1 2 order := by
    rw [isOrder]
    refine List.forall_mem_cons.mpr ⟨fun _ _ _ => id, fun action member other => ?_⟩
    exact absurd (commands action member) other
  obtain ⟨-, result, call, outcome⟩ := @benchmark_reads_responses Nat _ _ _ run _ explains _ _ live
    2 (by decide) .zadd undisturbed (fun _ i inside => ⟨i, parses i inside⟩)
    (by rw [received]; exact List.prefix_refl _) (value.traffic.sent.take 50)
    (by rw [List.length_take, length]; rfl) zaddPieces
    (by rw [← sent, List.take_append_drop]) (fun _ n => n)
  refine ⟨parses, result, call, ?_⟩
  rcases outcome with ⟨-, call, n, positive, fails⟩ | ⟨-, -, cut⟩ | ⟨drained, finished, -⟩
  · have written : (n : Int) ≤ 0 := fails
    omega
  · exact absurd cut (by decide)
  · exact ⟨finished, drained⟩

end RedisLite
