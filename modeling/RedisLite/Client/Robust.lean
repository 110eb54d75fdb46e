import RedisLite.Client.Decode

/-!
# Decoding arbitrary bytes

`print_response` on a buffer that nothing is known about.  The length tests are in
32-bit arithmetic: a length near `2 ^ 32` wraps around and passes them.  Where no
such length is met the decoder is exact.
-/

namespace RedisLite.Client

open Lib

/-! ## The grammar -/

/-- The bytes are one complete value, its doubles given by their representations. -/
def WellFormed (bytes : Bytes) : Prop :=
  ∃ value : Value UInt64, value.Bounded ∧ bytes = value.encode id

/-- The buffers that decoding starts a value at: the whole one, and inside an array of
`count` items the rest behind fewer than `count` complete ones. -/
inductive Visited : Bytes → Bytes → Prop where
  | self (data : Bytes) : Visited data data
  | item {count : Nat} {items : List (Value UInt64)} {rest buffer : Bytes}
      (more : items.length < count) (fits : count < 2 ^ 32) (inside : Visited rest buffer) :
      Visited (tagArr :: LittleEndian.encode 4 count ++ Value.encodeAll id items ++ rest) buffer

/-- The buffer begins with an error or a string whose end `1 + 8 + len` or `1 + 4 + len`
wraps around in 32 bits. -/
def Wraps (data : Bytes) : Prop :=
  (∃ code len rest, data =
      tagErr :: LittleEndian.encode 4 code ++ LittleEndian.encode 4 len ++ rest ∧
    code < 2 ^ 32 ∧ len < 2 ^ 32 ∧ 2 ^ 32 ≤ 1 + 8 + len) ∨
  (∃ len rest, data = tagStr :: LittleEndian.encode 4 len ++ rest ∧
    len < 2 ^ 32 ∧ 2 ^ 32 ≤ 1 + 4 + len)

theorem Visited.trans {data middle buffer : Bytes} (outer : Visited data middle)
    (inner : Visited middle buffer) : Visited data buffer := by
  induction outer with
  | self => exact inner
  | item more fits _ ih => exact .item more fits (ih inner)

theorem Visited.length_le {data buffer : Bytes} (visited : Visited data buffer) :
    buffer.length ≤ data.length := by
  induction visited with
  | self => exact Nat.le_refl _
  | item _ _ _ ih =>
      simp only [List.length_append, List.length_cons]
      omega

/-! ## Without a wrapping length -/

/-- What decoding a buffer may report: a rejection, or the length of a value at its
front. -/
def Decoded (data : Bytes) (result : Int × List Visit) : Prop :=
  result.1 = -1 ∨ ∃ (value : Value UInt64) (rest : Bytes), data = value.encode id ++ rest ∧
    result.1 = (value.encode id).length

section Sound

variable {data : Bytes}

theorem printErr_sound {body : Bytes} (data_eq : data = tagErr :: body)
    (small : data.length < 2 ^ 31) (noWrap : ¬ Wraps data) :
    Exec.Returns (printErr data) (Decoded data) := by
  by_cases short : data.length < 1 + 8
  · rw [printErr, if_pos short]
    exact .of_ok (.inl rfl)
  · have enough : 4 + 4 ≤ body.length := by
      rw [data_eq, List.length_cons] at short
      omega
    obtain ⟨code, tail, codeFits, rfl⟩ := @LittleEndian.exists_append body 4 (by omega)
    rw [List.length_append, LittleEndian.length_encode] at enough
    obtain ⟨len, rest, lenFits, rfl⟩ := @LittleEndian.exists_append tail 4 (by omega)
    have fields : data =
        tagErr :: LittleEndian.encode 4 code ++ LittleEndian.encode 4 len ++ rest := by
      rw [data_eq]
      simp
    have fits : 1 + 8 + len < 2 ^ 32 := by
      by_contra wraps
      exact noWrap (.inl ⟨code, len, rest, fields, codeFits, lenFits, by omega⟩)
    by_cases truncated : data.length < 1 + 8 + len
    · rw [printErr_fields codeFits lenFits fields, Nat.mod_eq_of_lt fits, if_pos truncated]
      exact .of_ok (.inl rfl)
    · have size : data.length = 1 + 8 + rest.length := by
        rw [fields]
        simp
        omega
      have length : (rest.take len).length = len := by simp; omega
      have whole : data = tagErr :: LittleEndian.encode 4 (UInt32.ofNat code).toNat ++
          LittleEndian.encode 4 (rest.take len).length ++ rest.take len ++ rest.drop len := by
        rw [length, UInt32.toNat_ofNat_of_lt' codeFits, fields]
        simp
      rw [printErr_eq (by omega) whole]
      refine .of_ok (.inr ⟨.err (UInt32.ofNat code) (rest.take len), rest.drop len, ?_, ?_⟩)
      · simpa [Value.encode] using whole
      · simp [Value.encode]
        omega

theorem printStr_sound {body : Bytes} (data_eq : data = tagStr :: body)
    (small : data.length < 2 ^ 31) (noWrap : ¬ Wraps data) :
    Exec.Returns (printStr data) (Decoded data) := by
  by_cases short : data.length < 1 + 4
  · rw [printStr, if_pos short]
    exact .of_ok (.inl rfl)
  · have enough : 4 ≤ body.length := by
      rw [data_eq, List.length_cons] at short
      omega
    obtain ⟨len, rest, lenFits, rfl⟩ := LittleEndian.exists_append enough
    have fits : 1 + 4 + len < 2 ^ 32 := by
      by_contra wraps
      exact noWrap (.inr ⟨len, rest, data_eq, lenFits, by omega⟩)
    by_cases truncated : data.length < 1 + 4 + len
    · rw [printStr_fields lenFits data_eq, Nat.mod_eq_of_lt fits, if_pos truncated]
      exact .of_ok (.inl rfl)
    · have size : data.length = 1 + 4 + rest.length := by
        rw [data_eq]
        simp
        omega
      have length : (rest.take len).length = len := by simp; omega
      have whole : data = tagStr :: LittleEndian.encode 4 (rest.take len).length ++
          rest.take len ++ rest.drop len := by
        rw [length, data_eq, List.append_assoc, List.take_append_drop]
        rfl
      rw [printStr_eq (by omega) whole]
      refine .of_ok (.inr ⟨.str (rest.take len), rest.drop len, ?_, ?_⟩)
      · simpa [Value.encode] using whole
      · simp [Value.encode]
        omega

theorem printInt_sound {body : Bytes} (data_eq : data = tagInt :: body) :
    Exec.Returns (printInt data) (Decoded data) := by
  by_cases short : data.length < 1 + 8
  · rw [printInt, if_pos short]
    exact .of_ok (.inl rfl)
  · have enough : 8 ≤ body.length := by
      rw [data_eq, List.length_cons] at short
      omega
    obtain ⟨number, rest, fits, rfl⟩ := LittleEndian.exists_append enough
    have val : (UInt64.ofNat number).toInt64.toUInt64.toNat = number :=
      UInt64.toNat_ofNat_of_lt' fits
    have whole : data = tagInt ::
        LittleEndian.encode 8 (UInt64.ofNat number).toInt64.toUInt64.toNat ++ rest := by
      rw [val, data_eq]
      rfl
    rw [printInt_eq whole]
    exact .of_ok (.inr ⟨.int (UInt64.ofNat number).toInt64, rest, whole, by simp [Value.encode]⟩)

theorem printDbl_sound {body : Bytes} (data_eq : data = tagDbl :: body) :
    Exec.Returns (printDbl data) (Decoded data) := by
  by_cases short : data.length < 1 + 8
  · rw [printDbl, if_pos short]
    exact .of_ok (.inl rfl)
  · have enough : 8 ≤ body.length := by
      rw [data_eq, List.length_cons] at short
      omega
    obtain ⟨number, rest, fits, rfl⟩ := LittleEndian.exists_append enough
    have val : (UInt64.ofNat number).toNat = number := UInt64.toNat_ofNat_of_lt' fits
    have whole : data = tagDbl :: LittleEndian.encode 8 (UInt64.ofNat number).toNat ++ rest := by
      rw [val, data_eq]
      rfl
    rw [printDbl_eq whole]
    exact .of_ok (.inr ⟨.dbl (UInt64.ofNat number), rest, whole, by simp [Value.encode]⟩)

/-- The state of the loop over the items: complete values so far. -/
structure Items (data : Bytes) (len : Nat) (state : Nat × Nat × List Visit)
    (items : List (Value UInt64)) (rest : Bytes) : Prop where
  data_eq : data = tagArr :: LittleEndian.encode 4 len ++ Value.encodeAll id items ++ rest
  count_eq : state.1 = items.length
  bound : items.length ≤ len
  pos_eq : state.2.1 = 1 + 4 + (Value.encodeAll id items).length

theorem printArr_sound {body : Bytes} (data_eq : data = tagArr :: body)
    (small : data.length < 2 ^ 31) (noWrap : ∀ buffer, Visited data buffer → ¬ Wraps buffer)
    {print : Bytes → Exec (Int × List Visit)}
    (sound : ∀ rest, rest.length < data.length →
      (∀ buffer, Visited rest buffer → ¬ Wraps buffer) → Exec.Returns (print rest) (Decoded rest)) :
    Exec.Returns (printArr print data) (Decoded data) := by
  by_cases short : data.length < 1 + 4
  · rw [printArr, if_pos short]
    exact .of_ok (.inl rfl)
  · have enough : 4 ≤ body.length := by
      rw [data_eq, List.length_cons] at short
      omega
    obtain ⟨len, tail, lenFits, rfl⟩ := LittleEndian.exists_append enough
    have loadLen : load data 1 4 = .ok len := @load_eq data [tagArr] tail _ _ _ data_eq rfl lenFits
    have lenEq : (UInt32.ofNat len).toNat = len := UInt32.toNat_ofNat_of_lt' lenFits
    rw [printArr, if_neg short]
    simp only [loadLen, Exec.ok_bind]
    refine loop_returns (fun state => ∃ items rest, Items data len state items rest)
      (fun state => len - state.1) ?_ _ _ ⟨[], tail, ?_, rfl, by simp, by simp [Value.encodeAll]⟩
      (by simp only; rw [lenEq]; omega)
    · rintro ⟨i, arrBytes, visits⟩ ⟨items, rest, state⟩
      obtain ⟨whole, count, bound, pos⟩ := state
      have count : i = items.length := count
      have pos : arrBytes = 1 + 4 + (Value.encodeAll id items).length := pos
      have size : data.length = arrBytes + rest.length := by
        rw [whole, pos]
        simp
        omega
      rw [printArrTurn, lenEq]
      by_cases more : i < len
      · have restEq : restOf data arrBytes = .ok rest :=
          restOf_eq whole (by rw [pos]; simp; omega)
        have inside : ∀ buffer, Visited rest buffer → ¬ Wraps buffer := by
          intro buffer visited
          apply noWrap
          rw [whole]
          exact .item (by omega) lenFits visited
        obtain ⟨⟨rv, lines⟩, printEq, decoded⟩ := sound rest (by omega) inside
        rw [if_pos more]
        simp only [restEq, printEq, Exec.ok_bind]
        rcases decoded with rejected | ⟨value, back, rfl, accepted⟩
        · have rejected : rv = -1 := rejected
          rw [if_pos (by omega), Exec.pure_eq_ok, Exec.returns_ok]
          exact .inl rejected
        · have accepted : rv = (value.encode id).length := accepted
          rw [if_neg (by omega), Exec.pure_eq_ok, Exec.returns_ok]
          refine ⟨⟨items ++ [value], back, ?_, ?_, ?_, ?_⟩, by simp only; omega⟩
          · rw [whole]
            simp [Value.encodeAll_append, Value.encodeAll]
          · simp [count]
          · simp only [List.length_append, List.length_singleton]
            omega
          · simp only [Value.encodeAll_append, Value.encodeAll, List.length_append,
              List.append_nil, accepted]
            omega
      · rw [if_neg more, Exec.returns_ok, Step.holds_done]
        have total : items.length = len := by omega
        refine .inr ⟨.arr items, rest, ?_, ?_⟩
        · rw [whole, Value.encode, total]
        · simp only [toInt32_eq (show arrBytes < 2 ^ 31 by omega)]
          rw [pos, Value.encode, List.length_append, List.length_cons, LittleEndian.length_encode]
    · rw [data_eq]
      simp [Value.encodeAll]

/-- Without a wrapping length, a count that is reported is the length of a value. -/
theorem printResponse_sound : ∀ (depth : Nat) (data : Bytes), data.length < depth →
    data.length < 2 ^ 31 → (∀ buffer, Visited data buffer → ¬ Wraps buffer) →
    Exec.Returns (printResponse depth data) (Decoded data) := by
  intro depth
  induction depth with
  | zero => intro data enough; omega
  | succ depth ih =>
      intro data enough small noWrap
      cases data with
      | nil => exact .of_ok (.inl rfl)
      | cons tag body =>
          have here := noWrap _ (.self _)
          rw [printResponse_tag rfl]
          split
          · rename_i isNil
            subst isNil
            exact .of_ok (.inr ⟨.nil, body, rfl, rfl⟩)
          split
          · rename_i isErr
            exact printErr_sound (by rw [isErr]) small here
          split
          · rename_i isStr
            exact printStr_sound (by rw [isStr]) small here
          split
          · rename_i isInt
            exact printInt_sound (by rw [isInt])
          split
          · rename_i isDbl
            exact printDbl_sound (by rw [isDbl])
          split
          · rename_i isArr
            refine printArr_sound (by rw [isArr]) small noWrap ?_
            intro rest shorter inside
            exact ih rest (by omega) (by omega) inside
          · exact .of_ok (.inl rfl)

end Sound

/-! ## Robustness -/

/-- `print_response` rejects the buffer or reports a count inside it, reads nothing
beyond it, and reports `c` exactly when the first `c` bytes are one complete value. -/
def Robust (data : Bytes) : Prop :=
  ∃ rv visits, printResponse (data.length + 1) data = .ok (rv, visits) ∧
    (rv = -1 ∨ 1 ≤ rv ∧ rv ≤ data.length) ∧
    ∀ c : Nat, c ≤ data.length → (rv = c ↔ WellFormed (data.take c))

/-- `read_res` reports success on the frame exactly when its body is one value. -/
def ReadsExactly (body : Bytes) : Prop :=
  ∃ rv visits, readRes (LittleEndian.encode 4 body.length ++ body) = .ok (rv, visits) ∧
    (rv = body.length ∧ WellFormed body ∨ rv = -1 ∧ ¬ WellFormed body)

section

variable {data : Bytes}

/-- Where no length wraps the decoder is robust. -/
theorem robust_of_noWrap (small : data.length < 2 ^ 31)
    (noWrap : ∀ buffer, Visited data buffer → ¬ Wraps buffer) : Robust data := by
  obtain ⟨⟨rv, visits⟩, printEq, decoded⟩ :=
    printResponse_sound (data.length + 1) data (by omega) small noWrap
  refine ⟨rv, visits, printEq, ?_, ?_⟩
  · rcases decoded with rejected | ⟨value, rest, rfl, accepted⟩
    · exact .inl rejected
    · have positive := value.encode_length_pos id
      have accepted : rv = (value.encode id).length := accepted
      rw [List.length_append]
      omega
  · intro c inside
    constructor
    · intro reported
      rcases decoded with rejected | ⟨value, rest, rfl, accepted⟩
      · have rejected : rv = -1 := rejected
        omega
      · have accepted : rv = (value.encode id).length := accepted
        obtain rfl : c = (value.encode id).length := by omega
        rw [List.length_append] at small
        exact ⟨value, value.bounded_of_length id (by omega), List.take_left⟩
    · rintro ⟨value, -, takeEq⟩
      have length : (value.encode id).length = c := by
        rw [← takeEq, List.length_take]
        omega
      have whole : data = value.encode id ++ data.drop c := by
        rw [← takeEq, List.take_append_drop]
      have exact := printResponse_encode id value (data.drop c) (data.length + 1)
        (by omega) (by omega)
      rw [← whole, printEq, length] at exact
      exact congrArg Prod.fst (Except.ok.inj exact)

/-- A decoder that is robust on the body reads the frame exactly. -/
theorem readsExactly_of_robust (small : data.length ≤ kMaxMsg) (robust : Robust data) :
    ReadsExactly data := by
  obtain ⟨rv, visits, printEq, range, counts⟩ := robust
  have whole := counts data.length (Nat.le_refl _)
  rw [List.take_length] at whole
  have read := readRes_frame small []
  rw [List.append_nil, printEq, Exec.ok_bind] at read
  have read : readRes (LittleEndian.encode 4 data.length ++ data) =
      if rv > 0 ∧ rv ≠ data.length then pure (-1, visits ++ [.bad]) else pure (rv, visits) := read
  rw [ReadsExactly, read]
  by_cases formed : WellFormed data
  · have reported := whole.mpr formed
    rw [if_neg (by omega)]
    exact ⟨rv, visits, rfl, .inl ⟨reported, formed⟩⟩
  · have other : rv ≠ data.length := fun reported => formed (whole.mp reported)
    by_cases positive : rv > 0
    · rw [if_pos ⟨positive, other⟩]
      exact ⟨-1, _, rfl, .inr ⟨rfl, formed⟩⟩
    · rw [if_neg fun both => positive both.1]
      exact ⟨rv, visits, rfl, .inr ⟨by omega, formed⟩⟩

theorem length_of_tagStr {value : Value UInt64} {rest : Bytes}
    (equal : value.encode id = tagStr :: rest) : 1 + 4 ≤ (value.encode id).length := by
  cases value <;> simp [Value.encode, tagStr, tagNil, tagErr, tagInt, tagDbl, tagArr] at equal ⊢

theorem length_of_tagErr {value : Value UInt64} {rest : Bytes}
    (equal : value.encode id = tagErr :: rest) : 1 + 8 ≤ (value.encode id).length := by
  cases value <;> simp [Value.encode, tagStr, tagNil, tagErr, tagInt, tagDbl, tagArr] at equal ⊢
  omega

/-- A count below the length of every value with the tag is wrong. -/
theorem not_robust_of_count {tag : UInt8} {body arg : Bytes} {len : UInt32} {count least : Nat}
    {visits : List Visit} (data_eq : data = tag :: body)
    (shortest : ∀ (value : Value UInt64) rest, value.encode id = tag :: rest →
      least ≤ (value.encode id).length)
    (below : count < least) (small : count < 2 ^ 31)
    (printEq : printResponse (data.length + 1) data =
      printfStr len arg >>= fun _ => .ok (toInt32 count, visits)) : ¬ Robust data := by
  rintro ⟨rv, lines, resultEq, range, counts⟩
  rw [printEq, Exec.bind_eq_ok] at resultEq
  obtain ⟨text, -, same⟩ := resultEq
  rw [toInt32_eq small] at same
  cases same
  obtain ⟨positive, inside⟩ : 1 ≤ count ∧ count ≤ data.length := by omega
  obtain ⟨value, -, takeEq⟩ := (counts count inside).mp rfl
  have length : (value.encode id).length ≤ count := by
    rw [← takeEq, List.length_take]
    omega
  obtain ⟨before, rfl⟩ := Nat.exists_eq_add_one_of_ne_zero (Nat.ne_of_gt positive)
  rw [data_eq, List.take_succ_cons] at takeEq
  have := shortest value _ takeEq.symm
  omega

/-- A wrapping length passes the test and the count is wrong, unless `printf` has
already read beyond the buffer. -/
theorem not_robust_of_wraps (wraps : Wraps data) : ¬ Robust data := by
  rcases wraps with ⟨code, len, rest, data_eq, codeFits, lenFits, wraps⟩ |
    ⟨len, rest, data_eq, lenFits, wraps⟩
  · have size : 1 + 8 ≤ data.length := by
      rw [data_eq]
      simp
      omega
    have first : data[0]? = some tagErr := by rw [data_eq]; rfl
    have count : (1 + 8 + len) % 2 ^ 32 < 1 + 8 := by omega
    have printEq := printErr_fields codeFits lenFits data_eq
    rw [if_neg (by omega)] at printEq
    have whole : printResponse (data.length + 1) data = printErr data := by
      rw [printResponse_tag first, if_neg (by decide), if_pos rfl]
    exact not_robust_of_count data_eq (fun _ _ => length_of_tagErr) count (by omega)
      (whole.trans printEq)
  · have size : 1 + 4 ≤ data.length := by
      rw [data_eq]
      simp
    have first : data[0]? = some tagStr := by rw [data_eq]; rfl
    have count : (1 + 4 + len) % 2 ^ 32 < 1 + 4 := by omega
    have printEq := printStr_fields lenFits data_eq
    rw [if_neg (by omega)] at printEq
    have whole : printResponse (data.length + 1) data = printStr data := by
      rw [printResponse_tag first, if_neg (by decide), if_neg (by decide), if_pos rfl]
    exact not_robust_of_count data_eq (fun _ _ => length_of_tagStr) count (by omega)
      (whole.trans printEq)

end

/-- Decoding a response of the client's size is robust, at the buffer and at every
buffer that decoding it starts a value at, exactly when no length met there wraps
around; `read_res` is then exact on the frame. -/
theorem printResponse_robust_iff (data : Bytes) (small : data.length ≤ kMaxMsg) :
    ((∀ buffer, Visited data buffer → Robust buffer) ↔
      ∀ buffer, Visited data buffer → ¬ Wraps buffer) ∧
    ((∀ buffer, Visited data buffer → ¬ Wraps buffer) → Robust data ∧ ReadsExactly data) := by
  have robust : (∀ buffer, Visited data buffer → ¬ Wraps buffer) →
      ∀ buffer, Visited data buffer → Robust buffer := by
    intro noWrap buffer visited
    have shorter := visited.length_le
    unfold kMaxMsg at small
    apply robust_of_noWrap (by omega)
    intro inner inside
    exact noWrap inner (visited.trans inside)
  refine ⟨⟨?_, robust⟩, ?_⟩
  · intro allRobust buffer visited wraps
    exact not_robust_of_wraps wraps (allRobust buffer visited)
  · intro noWrap
    have whole := robust noWrap data (.self data)
    exact ⟨whole, readsExactly_of_robust small whole⟩

/-- Decoding the string "a". -/
theorem printResponse_robust_iff_str :
    Robust [tagStr, 1, 0, 0, 0, 97] ∧ ReadsExactly [tagStr, 1, 0, 0, 0, 97] := by
  apply (printResponse_robust_iff [tagStr, 1, 0, 0, 0, 97] (by decide)).2
  intro buffer visited wraps
  cases visited with
  | self =>
      rcases wraps with ⟨code, len, rest, data_eq, -⟩ | ⟨len, rest, data_eq, lenFits, wraps⟩
      · simp [tagStr, tagErr] at data_eq
      · have loaded := @load_eq _ [tagStr] rest 1 4 len data_eq rfl lenFits
        have one : load [tagStr, 1, 0, 0, 0, 97] 1 4 = .ok 1 := by decide
        rw [one] at loaded
        cases loaded
        omega

/-- Strings of length `2 ^ 32 - 5` and `2 ^ 32 - 1`: the first one is reported as 0
bytes, and for the second one `printf` leaves the buffer. -/
theorem printResponse_wraps :
    printResponse 7 [tagStr, 251, 255, 255, 255, 0] = .ok (0, [.str [0]]) ∧
    printResponse 6 [tagStr, 255, 255, 255, 255] = .error .undefined ∧
    ¬ Robust [tagStr, 251, 255, 255, 255, 0] ∧ ¬ Robust [tagStr, 255, 255, 255, 255] ∧
    readRes [6, 0, 0, 0, tagStr, 251, 255, 255, 255, 0] = .ok (0, [.str [0]]) := by
  have zero : printResponse 7 [tagStr, 251, 255, 255, 255, 0] = .ok (0, [.str [0]]) := by
    have text : printfStr (UInt32.ofNat (2 ^ 32 - 5)) [0] = .ok [] := by decide
    rw [printResponse_tag rfl, if_neg (by decide), if_neg (by decide), if_pos rfl,
      @printStr_fields _ [0] (2 ^ 32 - 5) (by decide) (by decide), if_neg (by decide), text,
      Exec.ok_bind, List.take_of_length_le (by decide)]
    rfl
  have beyond : printResponse 6 [tagStr, 255, 255, 255, 255] = .error .undefined := by decide
  refine ⟨zero, beyond, ?_, ?_, ?_⟩
  · rintro ⟨rv, visits, printEq, range, -⟩
    have printEq : printResponse 7 _ = _ := printEq
    rw [zero] at printEq
    cases printEq
    omega
  · rintro ⟨rv, visits, printEq, -⟩
    have printEq : printResponse 6 _ = _ := printEq
    rw [beyond] at printEq
    cases printEq
  · simp [readRes, readFull, kMaxMsg, LittleEndian.decode, zero]

end RedisLite.Client
