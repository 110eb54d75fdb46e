import Mathlib.Data.Nat.Digits.Defs
import RedisLite.Client.Decimal
import RedisLite.Client.Receive

/-!
# The benchmark

`benchmark.cpp` sends the commands of a test in one go and then reads as many bytes as it
expects of their responses: 5 for each SET, 20 for each GET and 13 for each ZADD.
-/

namespace RedisLite.Benchmark

open Lib

/-! ## The tests -/

/-- `"key_" + std::to_string(i)`. -/
def key (i : Nat) : Bytes := ascii "key_" ++ decimalDigits i

/-- The value that is set, `"bench_value"`. -/
def benchValue : Bytes := ascii "bench_value"

/-- The key of the sorted set, `"leaderboard"`. -/
def leaderboard : Bytes := ascii "leaderboard"

/-- `std::to_string(i) + ".0"`. -/
def score (i : Nat) : Bytes := decimalDigits i ++ ascii ".0"

/-- The tests of `main`, in their order. -/
inductive Test where
  | set
  | get
  | zadd
  deriving DecidableEq, Repr

namespace Test

/-- The command number `i` of a test. -/
def command (i : Nat) : Test → List Bytes
  | .set => [ascii "set", key i, benchValue]
  | .get => [ascii "get", key i]
  | .zadd => [ascii "zadd", leaderboard, score i, ascii "player_" ++ decimalDigits i]

/-- The bytes that are expected for each response. -/
def responseBytes : Test → Nat
  | .set => 5
  | .get => 20
  | .zadd => 13

/-- The tests that come before. -/
def earlier : Test → List Test
  | .set => []
  | .get => [.set]
  | .zadd => [.set, .get]

/-- The commands of a test with `numRequests` requests. -/
def commands (numRequests : Nat) (test : Test) : List (List Bytes) :=
  (List.range numRequests).map fun i => test.command i

/-- The commands of the tests up to one. -/
def commandsUpTo (numRequests : Nat) (test : Test) : List (List Bytes) :=
  (test.earlier ++ [test]).flatMap fun test => test.commands numRequests

/-- The sizes of the responses to these commands. -/
def sizesUpTo (numRequests : Nat) (test : Test) : List Nat :=
  (test.earlier ++ [test]).flatMap fun test => List.replicate numRequests test.responseBytes

/-- The bytes of the responses to the tests before one. -/
def earlierBytes (numRequests : Nat) (test : Test) : Nat :=
  (test.earlier.map fun test => numRequests * test.responseBytes).sum

/-- The buffer that `main` fills with the commands. -/
def buffer (numRequests : Nat) (test : Test) : Bytes :=
  (test.commands numRequests).foldl packCommand []

theorem length_decimalDigits {i : Nat} (small : i < 2 ^ 31) : (decimalDigits i).length ≤ 10 := by
  rw [decimalDigits, List.length_map]
  exact Nat.toDigits_length 10 i 10 (by decide) (by omega)

/-- The commands are short. -/
theorem length_requestBody_command {i : Nat} (small : i < 2 ^ 31) (test : Test) :
    (requestBody (test.command i)).length < 2 ^ 32 := by
  have digits := length_decimalDigits small
  rw [length_requestBody, length_encodeArgs]
  cases test with
  | set =>
      have words : (ascii "set").length = 3 ∧ (ascii "key_").length = 4 ∧
          benchValue.length = 11 := by decide
      simp [command, key, words]
      omega
  | get =>
      have words : (ascii "get").length = 3 ∧ (ascii "key_").length = 4 := by decide
      simp [command, key, words]
      omega
  | zadd =>
      have words : (ascii "zadd").length = 4 ∧ leaderboard.length = 11 ∧
          (ascii ".0").length = 2 ∧ (ascii "player_").length = 7 := by decide
      simp [command, score, words]
      omega

/-- The buffer holds the frames of the commands. -/
theorem buffer_eq {numRequests : Nat} (small : numRequests < 2 ^ 31) (test : Test) :
    test.buffer numRequests =
      (test.commands numRequests).flatMap fun cmd => frame (requestBody cmd) := by
  have packs : ∀ (cmds : List (List Bytes)) (buf : Bytes),
      (∀ cmd ∈ cmds, (requestBody cmd).length < 2 ^ 32) →
      cmds.foldl packCommand buf = buf ++ cmds.flatMap fun cmd => frame (requestBody cmd) := by
    intro cmds
    induction cmds with
    | nil => exact fun buf _ => (List.append_nil buf).symm
    | cons cmd cmds ih =>
        intro buf short
        rw [List.forall_mem_cons] at short
        rw [List.foldl_cons, packCommand_eq short.1, ih _ short.2, List.flatMap_cons,
          List.append_assoc]
  rw [buffer, packs _ _ ?_, List.nil_append]
  intro cmd member
  obtain ⟨i, iMem, rfl⟩ := List.mem_map.mp member
  exact test.length_requestBody_command ((List.mem_range.mp iMem).trans small)

theorem length_commandsUpTo (numRequests : Nat) (test : Test) :
    (test.commandsUpTo numRequests).length = (test.sizesUpTo numRequests).length := by
  cases test <;> simp [commandsUpTo, sizesUpTo, earlier, commands]

theorem sum_sizesUpTo (numRequests : Nat) (test : Test) :
    (test.sizesUpTo numRequests).sum =
      test.earlierBytes numRequests + numRequests * test.responseBytes := by
  cases test <;> simp [sizesUpTo, earlierBytes, earlier, Nat.add_assoc]

theorem sizesUpTo_pos {numRequests size : Nat} {test : Test}
    (member : size ∈ test.sizesUpTo numRequests) : 0 < size := by
  obtain ⟨of, -, sizeMem⟩ := List.mem_flatMap.mp member
  rw [List.eq_of_mem_replicate sizeMem]
  cases of <;> decide

/-- The command at a place of the stream belongs to one of the tests. -/
theorem exists_test {numRequests m : Nat} {tests : List Test} {cmd : List Bytes}
    (found : (tests.flatMap fun test => test.commands numRequests)[m]? = some cmd) :
    ∃ k of i, tests[k]? = some of ∧ i < numRequests ∧ m = k * numRequests + i ∧
      cmd = command i of ∧
      (tests.flatMap fun test => List.replicate numRequests test.responseBytes)[m]? =
        some of.responseBytes := by
  induction tests generalizing m with
  | nil => cases found
  | cons first tests ih =>
      have length : (first.commands numRequests).length = numRequests := by simp [commands]
      rw [List.flatMap_cons] at found ⊢
      by_cases inFirst : m < numRequests
      · rw [List.getElem?_append_left (by omega)] at found
        rw [List.getElem?_append_left (by simpa using inFirst)]
        obtain ⟨inside, rfl⟩ := List.getElem?_eq_some_iff.mp found
        exact ⟨0, first, m, rfl, inFirst, by simp, by simp [commands], by simp [inFirst]⟩
      · rw [List.getElem?_append_right (by omega), length] at found
        obtain ⟨k, of, i, isTest, inside, place, isCommand, size⟩ := ih found
        refine ⟨k + 1, of, i, isTest, inside, ?_, isCommand, ?_⟩
        · rw [Nat.add_mul]
          omega
        · rw [List.getElem?_append_right (by simpa using inFirst), List.length_replicate, size]

/-- A command that is sent up to a test, by its place in the stream: the SETs come first. -/
theorem exists_command {numRequests m : Nat} {test : Test} {cmd : List Bytes}
    (found : (test.commandsUpTo numRequests)[m]? = some cmd) :
    ∃ of i, cmd = command i of ∧ i < numRequests ∧
      (test.sizesUpTo numRequests)[m]? = some of.responseBytes ∧
      (of = .set → i = m) ∧ (of ≠ .set → numRequests ≤ m) ∧ (of = .zadd → test = .zadd) := by
  obtain ⟨k, of, i, isTest, inside, place, isCommand, size⟩ := exists_test found
  have order : (of = .set → k = 0) ∧ (of ≠ .set → 1 ≤ k) ∧ (of = .zadd → test = .zadd) := by
    rcases k with _ | _ | _ | k <;> cases test <;> cases isTest <;> simp
  refine ⟨of, i, isCommand, inside, size, ?_, ?_, order.2.2⟩
  · intro isSet
    rw [place, order.1 isSet]
    omega
  · intro notSet
    have := Nat.le_mul_of_pos_left numRequests (order.2.1 notSet)
    omega

end Test

/-! ## A test -/

/-- How `run_benchmark` ends, with the bytes that it has read. -/
inductive Outcome where
  | writeError
  | readError (totalRead : Nat)
  | finished (totalRead : Nat)
  deriving DecidableEq, Repr

/-- One turn of the loop that writes all requests, with the number of the call. -/
def writeTurn (writeBuf : Bytes) (write : Nat → Nat → Int) :
    Nat × Nat → Exec (Step (Nat × Nat) Bool)
  | (written, call) =>
      if written < writeBuf.length then do
        let rv := write call (writeBuf.length - written)
        if rv ≤ 0 then return .done false
        else return .next (written + rv.toNat, call + 1)
      else .ok (.done true)

/-- One turn of the loop that reads all responses; `read` finds nothing when the connection
is closed and when it fails. -/
def readTurn (expected : Nat) :
    Nat × Pieces UInt8 → Exec (Step (Nat × Pieces UInt8) (Outcome × Pieces UInt8))
  | (totalRead, arriving) =>
      if totalRead < expected then do
        let (piece, arriving) := arriving.read (64 * 1024)
        let rv := piece.length
        if rv ≤ 0 then return .done (.readError totalRead, arriving)
        else return .next (totalRead + rv, arriving)
      else .ok (.done (.finished totalRead, arriving))

/-- `run_benchmark`, and what is still to arrive. -/
def runBenchmark (writeBuf : Bytes) (expectedResponseBytes : Nat) (write : Nat → Nat → Int)
    (arriving : Pieces UInt8) : Exec (Outcome × Pieces UInt8) := do
  let written ← loop (writeTurn writeBuf write) (writeBuf.length + 1) (0, 0)
  if written then
    loop (readTurn expectedResponseBytes) (expectedResponseBytes + 1) (0, arriving)
  else return (.writeError, arriving)

/-- All requests are written, or a write fails. -/
theorem writeLoop_spec (writeBuf : Bytes) (write : Nat → Nat → Int) :
    Exec.Returns (loop (writeTurn writeBuf write) (writeBuf.length + 1) (0, 0)) fun written =>
      written = false → Client.Fails write := by
  refine loop_returns (fun _ => True) (fun state => writeBuf.length - state.1) ?_ _ _ trivial
    (by simp)
  rintro ⟨written, call⟩ -
  by_cases more : written < writeBuf.length
  · simp only [writeTurn, if_pos more]
    by_cases failed : write call (writeBuf.length - written) ≤ 0
    · rw [if_pos failed, Exec.pure_eq_ok, Exec.returns_ok]
      exact fun _ => ⟨call, _, Nat.sub_pos_of_lt more, failed⟩
    · rw [if_neg failed, Exec.pure_eq_ok, Exec.returns_ok]
      refine ⟨trivial, ?_⟩
      show writeBuf.length - (written + (write call (writeBuf.length - written)).toNat) <
        writeBuf.length - written
      omega
  · simp only [writeTurn, if_neg more, Exec.returns_ok, Step.holds_done]
    exact fun failed => absurd failed (by decide)

/-- When no more bytes arrive than are expected, all of them are read, and the loop ends
without an error when they are as many as expected. -/
theorem readLoop_spec {expected : Nat} {arriving : Pieces UInt8}
    (few : arriving.whole.length ≤ expected) :
    Exec.Returns (loop (readTurn expected) (expected + 1) (0, arriving)) fun result =>
      result.2.whole = [] ∧ result.1 =
        if arriving.whole.length < expected then .readError arriving.whole.length
        else .finished arriving.whole.length := by
  refine loop_returns
    (fun state : Nat × Pieces UInt8 => state.1 + state.2.whole.length = arriving.whole.length)
    (fun state => expected - state.1) ?_ _ _ (Nat.zero_add _) (by simp)
  rintro ⟨totalRead, rest⟩ count
  have count : totalRead + rest.whole.length = arriving.whole.length := count
  by_cases more : totalRead < expected
  · have parts := congrArg List.length (rest.read_append (64 * 1024))
    rw [List.length_append] at parts
    simp only [readTurn, if_pos more]
    by_cases ends : (rest.read (64 * 1024)).1.length ≤ 0
    · have nothing : (rest.read (64 * 1024)).1 = [] := List.length_eq_zero_iff.mp (by omega)
      have atEnd : rest.whole = [] := by
        by_contra some
        exact Pieces.read_ne_nil (by decide) some nothing
      rw [nothing, atEnd, List.length_nil, Nat.zero_add] at parts
      rw [atEnd, List.length_nil] at count
      rw [if_pos ends, Exec.pure_eq_ok, Exec.returns_ok]
      refine ⟨List.length_eq_zero_iff.mp parts, ?_⟩
      rw [if_pos (by omega), show totalRead = arriving.whole.length by omega]
    · rw [if_neg ends, Exec.pure_eq_ok, Exec.returns_ok]
      refine ⟨?_, ?_⟩
      · show totalRead + (rest.read (64 * 1024)).1.length +
          (rest.read (64 * 1024)).2.whole.length = _
        omega
      · show expected - (totalRead + (rest.read (64 * 1024)).1.length) < expected - totalRead
        omega
  · simp only [readTurn, if_neg more, Exec.returns_ok, Step.holds_done]
    refine ⟨List.length_eq_zero_iff.mp (by omega), ?_⟩
    rw [if_neg (by omega), show totalRead = arriving.whole.length by omega]

end RedisLite.Benchmark
