import RedisLite.Protocol.Value

/-!
# Requests

The grammar of a request body and `parse_req`, which accepts exactly that grammar.
A buffer is the list of its bytes, a pointer into it a position, and reading beyond
the end faults.
-/

namespace RedisLite

open Lib

/-! ## The grammar -/

def kMaxArgs : Nat := 200 * 1000

/-- Strings, each behind its length. -/
def encodeArgs (cmd : List Bytes) : Bytes :=
  cmd.flatMap fun str => LittleEndian.encode 4 str.length ++ str

/-- The body of a request: the number of strings, and the strings. -/
def requestBody (cmd : List Bytes) : Bytes := LittleEndian.encode 4 cmd.length ++ encodeArgs cmd

/-- The bytes are the body of a request for the command. -/
structure IsRequest (body : Bytes) (cmd : List Bytes) : Prop where
  count_le : cmd.length ≤ kMaxArgs
  lengths : ∀ str ∈ cmd, str.length < 2 ^ 32
  body_eq : body = requestBody cmd

/-! ## The parser -/

/-- The bytes that are copied from a position of the buffer. -/
def copyFrom (data : Bytes) (cur count : Nat) : Exec Bytes :=
  if cur + count ≤ data.length then .ok ((data.drop cur).take count) else .error .undefined

/-- `read_u32`: the number and the position behind it. -/
def readU32 (data : Bytes) (cur : Nat) : Exec (Option (Nat × Nat)) :=
  if cur + 4 > data.length then .ok none
  else do
    let out := LittleEndian.decode (← copyFrom data cur 4)
    return some (out, cur + 4)

/-- `read_str`: the string of `n` bytes and the position behind it. -/
def readStr (data : Bytes) (cur n : Nat) : Exec (Option (Bytes × Nat)) :=
  if cur + n > data.length then .ok none
  else do
    let out ← copyFrom data cur n
    return some (out, cur + n)

/-- One turn of the loop of `parse_req`, with the position and the strings so far. -/
def parseReqTurn (data : Bytes) (nstr : Nat) :
    Nat × List Bytes → Exec (Step (Nat × List Bytes) (Option (Nat × List Bytes)))
  | (cur, out) =>
      if out.length < nstr then do
        match ← readU32 data cur with
        | none => return .done none
        | some (len, cur) =>
            match ← readStr data cur len with
            | none => return .done none
            | some (str, cur) => return .next (cur, out ++ [str])
      else .ok (.done (some (cur, out)))

/-- `parse_req`; `none` is the result -1. -/
def parseReq (data : Bytes) : Exec (Option (List Bytes)) := do
  match ← readU32 data 0 with
  | none => return none
  | some (nstr, cur) =>
      if nstr > kMaxArgs then return none
      else
        match ← loop (parseReqTurn data nstr) (nstr + 1) (cur, []) with
        | none => return none
        | some (cur, out) => return if cur ≠ data.length then none else some out

/-! ## Exactness -/

theorem copyFrom_eq {front middle back : Bytes} {cur count : Nat} (cur_eq : cur = front.length)
    (count_eq : count = middle.length) :
    copyFrom (front ++ (middle ++ back)) cur count = .ok middle := by
  subst cur_eq count_eq
  rw [copyFrom, if_pos (by simp), List.drop_left, List.take_left]

theorem readU32_eq {front back : Bytes} {number : Nat} (small : number < 2 ^ 32) :
    readU32 (front ++ (LittleEndian.encode 4 number ++ back)) front.length =
      .ok (some (number, front.length + 4)) := by
  rw [readU32, if_neg (by simp), copyFrom_eq rfl (LittleEndian.length_encode 4 number).symm,
    Exec.ok_bind, LittleEndian.decode_encode_of_lt small]
  rfl

theorem readStr_eq {front str back : Bytes} :
    readStr (front ++ (str ++ back)) front.length str.length =
      .ok (some (str, front.length + str.length)) := by
  rw [readStr, if_neg (by simp), copyFrom_eq rfl rfl]
  rfl

theorem encodeArgs_cons (str : Bytes) (cmd : List Bytes) :
    encodeArgs (str :: cmd) = LittleEndian.encode 4 str.length ++ (str ++ encodeArgs cmd) := by
  rw [encodeArgs, List.flatMap_cons, List.append_assoc]
  rfl

theorem encodeArgs_append (front back : List Bytes) :
    encodeArgs (front ++ back) = encodeArgs front ++ encodeArgs back := List.flatMap_append

/-- The strings at the front of encoded strings. -/
theorem encodeArgs_split {out cmd : List Bytes} {rest : Bytes}
    (outLengths : ∀ str ∈ out, str.length < 2 ^ 32) (lengths : ∀ str ∈ cmd, str.length < 2 ^ 32)
    (shorter : out.length ≤ cmd.length) (equal : encodeArgs out ++ rest = encodeArgs cmd) :
    ∃ more, cmd = out ++ more ∧ rest = encodeArgs more := by
  induction out generalizing cmd with
  | nil => exact ⟨cmd, rfl, equal⟩
  | cons str out ih =>
      cases cmd with
      | nil => cases shorter
      | cons other cmd =>
          simp only [List.forall_mem_cons] at outLengths lengths
          rw [encodeArgs_cons, encodeArgs_cons, List.append_assoc, List.append_assoc] at equal
          obtain ⟨lengthEq, equal⟩ := List.append_inj equal (by simp)
          have length : str.length = other.length :=
            LittleEndian.eq_of_encode outLengths.1 lengths.1 lengthEq
          obtain ⟨rfl, others⟩ := List.append_inj equal length
          simp only [List.length_cons] at shorter
          obtain ⟨more, rfl, restEq⟩ := ih outLengths.2 lengths.2 (by omega) others
          exact ⟨more, rfl, restEq⟩

/-- The state of the loop of `parse_req`: the bytes in front of the position are the count
and the strings so far. -/
structure Parsed (data : Bytes) (nstr cur : Nat) (out : List Bytes) (rest : Bytes) : Prop where
  data_eq : data = LittleEndian.encode 4 nstr ++ encodeArgs out ++ rest
  cur_eq : cur = (LittleEndian.encode 4 nstr ++ encodeArgs out).length
  count_lt : nstr < 2 ^ 32
  count_le : out.length ≤ nstr
  lengths : ∀ str ∈ out, str.length < 2 ^ 32

namespace Parsed

variable {data rest : Bytes} {nstr cur : Nat} {out : List Bytes}

/-- A request whose body the buffer is begins with the strings so far. -/
theorem split (parsed : Parsed data nstr cur out rest) {cmd : List Bytes}
    (request : IsRequest data cmd) :
    ∃ more, cmd = out ++ more ∧ rest = encodeArgs more ∧ out.length + more.length = nstr := by
  have equal := parsed.data_eq.symm.trans request.body_eq
  rw [requestBody, List.append_assoc] at equal
  obtain ⟨countEq, equal⟩ := List.append_inj equal (by simp)
  have bound := request.count_le
  unfold kMaxArgs at bound
  have count : nstr = cmd.length :=
    LittleEndian.eq_of_encode parsed.count_lt (by omega) countEq
  have shorter := parsed.count_le
  obtain ⟨more, rfl, restEq⟩ :=
    encodeArgs_split parsed.lengths request.lengths (by omega) equal
  exact ⟨more, rfl, restEq, by rw [count, List.length_append]⟩

/-- One turn reads one more string, or finds that the buffer is no request. -/
theorem turn (parsed : Parsed data nstr cur out rest) (more : out.length < nstr) :
    (∃ str rest, parseReqTurn data nstr (cur, out) =
        .ok (.next (cur + 4 + str.length, out ++ [str])) ∧
      Parsed data nstr (cur + 4 + str.length) (out ++ [str]) rest) ∨
    parseReqTurn data nstr (cur, out) = .ok (.done none) ∧ ∀ cmd, ¬ IsRequest data cmd := by
  have dataEq := parsed.data_eq
  have size : data.length = cur + rest.length := by rw [dataEq, List.length_append, parsed.cur_eq]
  by_cases short : rest.length < 4
  · right
    constructor
    · simp only [parseReqTurn, if_pos more, readU32, if_pos (show cur + 4 > data.length by omega),
        Exec.ok_bind, Exec.pure_eq_ok]
    · intro cmd request
      obtain ⟨others, rfl, restEq, count⟩ := parsed.split request
      cases others with
      | nil =>
          simp only [List.length_nil] at count
          omega
      | cons str others =>
          rw [restEq, encodeArgs_cons, List.length_append, LittleEndian.length_encode] at short
          omega
  · obtain ⟨len, tail, lenSmall, rfl⟩ := LittleEndian.exists_append (Nat.not_lt.mp short)
    have lenRead : readU32 data cur = .ok (some (len, cur + 4)) := by
      rw [dataEq, parsed.cur_eq]
      exact readU32_eq lenSmall
    have tailPlace : data = (LittleEndian.encode 4 nstr ++ encodeArgs out ++
        LittleEndian.encode 4 len) ++ tail := by
      rw [dataEq, List.append_assoc _ (LittleEndian.encode 4 len)]
    have curPlace : cur + 4 = (LittleEndian.encode 4 nstr ++ encodeArgs out ++
        LittleEndian.encode 4 len).length := by
      rw [List.length_append, ← parsed.cur_eq, LittleEndian.length_encode]
    rw [List.length_append, LittleEndian.length_encode] at size
    by_cases cut : tail.length < len
    · right
      constructor
      · simp only [parseReqTurn, if_pos more, lenRead, Exec.ok_bind, readStr,
          if_pos (show cur + 4 + len > data.length by omega), Exec.pure_eq_ok]
      · intro cmd request
        obtain ⟨others, rfl, restEq, count⟩ := parsed.split request
        cases others with
        | nil =>
            simp only [List.length_nil] at count
            omega
        | cons str others =>
            rw [encodeArgs_cons] at restEq
            obtain ⟨lengthEq, tailEq⟩ := List.append_inj restEq (by simp)
            have strSmall := request.lengths str (by simp)
            have length : len = str.length :=
              LittleEndian.eq_of_encode lenSmall strSmall lengthEq
            rw [tailEq, List.length_append] at cut
            omega
    · left
      have strLength : (tail.take len).length = len := by
        rw [List.length_take]
        omega
      have strRead : readStr data (cur + 4) len =
          .ok (some (tail.take len, cur + 4 + (tail.take len).length)) := by
        have read := @readStr_eq (LittleEndian.encode 4 nstr ++ encodeArgs out ++
          LittleEndian.encode 4 len) (tail.take len) (tail.drop len)
        rw [List.take_append_drop, ← tailPlace, ← curPlace, strLength] at read
        rw [strLength, read]
      refine ⟨tail.take len, tail.drop len, ?_, ?_, ?_, parsed.count_lt, ?_, ?_⟩
      · simp only [parseReqTurn, if_pos more, lenRead, Exec.ok_bind, strRead, Exec.pure_eq_ok]
      · rw [encodeArgs_append, encodeArgs_cons, strLength, tailPlace]
        simp [encodeArgs, List.append_assoc]
      · rw [encodeArgs_append, encodeArgs_cons, ← List.append_assoc, List.length_append,
          ← parsed.cur_eq]
        simp [encodeArgs]
        omega
      · rw [List.length_append, List.length_singleton]
        omega
      · intro str member
        rcases List.mem_append.mp member with member | member
        · exact parsed.lengths str member
        · rw [List.mem_singleton.mp member, strLength]
          exact lenSmall

/-- The loop reads all strings, or finds that the buffer is no request. -/
theorem loop_spec (parsed : Parsed data nstr cur [] rest) :
    Exec.Returns (loop (parseReqTurn data nstr) (nstr + 1) (cur, [])) fun result =>
      match result with
      | none => ∀ cmd, ¬ IsRequest data cmd
      | some (cur, out) => ∃ rest, Parsed data nstr cur out rest ∧ out.length = nstr := by
  refine loop_returns (fun state => ∃ rest, Parsed data nstr state.1 state.2 rest)
    (fun state => nstr - state.2.length) ?_ _ _ ⟨rest, parsed⟩ (by simp)
  rintro ⟨cur, out⟩ ⟨rest, parsed⟩
  have parsed : Parsed data nstr cur out rest := parsed
  have bound := parsed.count_le
  by_cases more : out.length < nstr
  · rcases parsed.turn more with ⟨str, rest, turnEq, next⟩ | ⟨turnEq, rejected⟩
    · rw [turnEq, Exec.returns_ok]
      refine ⟨⟨rest, next⟩, ?_⟩
      simp only [List.length_append, List.length_singleton]
      omega
    · rw [turnEq, Exec.returns_ok]
      exact rejected
  · simp only [parseReqTurn, if_neg more, Exec.returns_ok, Step.holds_done]
    exact ⟨rest, parsed, by omega⟩

end Parsed

/-- `parse_req` returns on every buffer, without leaving it, and accepts exactly the
requests. -/
theorem parseReq_spec (data : Bytes) :
    Exec.Returns (parseReq data) fun result => ∀ cmd, result = some cmd ↔ IsRequest data cmd := by
  by_cases short : data.length < 4
  · refine ⟨none, ?_, fun cmd => ⟨nofun, fun request => ?_⟩⟩
    · simp only [parseReq, readU32, if_pos (show 0 + 4 > data.length by omega), Exec.ok_bind,
        Exec.pure_eq_ok]
    · rw [request.body_eq, requestBody, List.length_append, LittleEndian.length_encode] at short
      omega
  · obtain ⟨nstr, tail, small, rfl⟩ := LittleEndian.exists_append (Nat.not_lt.mp short)
    have read : readU32 (LittleEndian.encode 4 nstr ++ tail) 0 = .ok (some (nstr, 4)) :=
      @readU32_eq [] tail nstr small
    have header : ∀ cmd, IsRequest (LittleEndian.encode 4 nstr ++ tail) cmd →
        nstr = cmd.length := by
      intro cmd request
      have bound := request.count_le
      unfold kMaxArgs at bound
      exact LittleEndian.eq_of_encode small (by omega)
        (List.append_inj request.body_eq (by simp)).1
    by_cases tooMany : nstr > kMaxArgs
    · refine ⟨none, ?_, fun cmd => ⟨nofun, fun request => ?_⟩⟩
      · simp only [parseReq, read, Exec.ok_bind, if_pos tooMany, Exec.pure_eq_ok]
      · have bound := request.count_le
        rw [← header cmd request] at bound
        omega
    · have parsed : Parsed (LittleEndian.encode 4 nstr ++ tail) nstr 4 [] tail :=
        ⟨by simp [encodeArgs], by simp [encodeArgs], small, by simp, by simp⟩
      obtain ⟨result, loopEq, holds⟩ := parsed.loop_spec
      simp only [parseReq, read, Exec.ok_bind, if_neg tooMany, loopEq]
      cases result with
      | none =>
          simp only [Exec.pure_eq_ok, Exec.returns_ok]
          exact fun cmd => ⟨nofun, fun request => absurd request (holds cmd)⟩
      | some state =>
          obtain ⟨cur, out⟩ := state
          obtain ⟨rest, ends, count⟩ := holds
          have size : (LittleEndian.encode 4 nstr ++ tail).length = cur + rest.length := by
            rw [ends.data_eq, List.length_append, ends.cur_eq]
          simp only [Exec.pure_eq_ok, Exec.returns_ok]
          intro cmd
          constructor
          · intro accepted
            split at accepted
            · cases accepted
            · rename_i whole
              cases accepted
              have empty : rest = [] := List.length_eq_zero_iff.mp (by omega)
              refine ⟨by omega, ends.lengths, ?_⟩
              rw [requestBody, count, ends.data_eq, empty, List.append_nil]
          · intro request
            obtain ⟨more, rfl, restEq, total⟩ := ends.split request
            have empty : more = [] := List.length_eq_zero_iff.mp (by omega)
            subst empty
            have none : rest.length = 0 := by simp [restEq, encodeArgs]
            rw [if_neg (by omega), List.append_nil]

end RedisLite
