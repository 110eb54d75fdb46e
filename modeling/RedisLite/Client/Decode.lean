import RedisLite.Client.Core

/-!
# Decoding what was encoded

`print_response` on a buffer that begins with an encoded value visits that value and
returns its length.
-/

namespace RedisLite

open Lib

variable {D : Type}

namespace Value

mutual

/-- The lines printed for a value. -/
def visits (bits : D → UInt64) : Value D → List Client.Visit
  | .nil => [.nil]
  | .err code msg => [.err code msg]
  | .str bytes => [.str bytes]
  | .int val => [.int val]
  | .dbl val => [.dbl (bits val)]
  | .arr items => .arr (UInt32.ofNat items.length) :: visitsAll bits items ++ [.arrEnd]

/-- The lines printed for consecutive values. -/
def visitsAll (bits : D → UInt64) : List (Value D) → List Client.Visit
  | [] => []
  | item :: items => visits bits item ++ visitsAll bits items

end

end Value

namespace Client

theorem toInt32_eq {n : Nat} (small : n < 2 ^ 31) : toInt32 n = n := by
  unfold toInt32
  rw [Int.bmod_eq_of_le] <;> omega

theorem load_eq {data front back : Bytes} {pos count number : Nat}
    (data_eq : data = front ++ (LittleEndian.encode count number ++ back))
    (pos_eq : pos = front.length) (small : number < 256 ^ count) :
    load data pos count = .ok number := by
  subst data_eq pos_eq
  rw [load, if_pos (by simp), List.drop_left, List.take_left' (by simp),
    LittleEndian.decode_encode_of_lt small]

theorem restOf_eq {data front back : Bytes} {pos : Nat} (data_eq : data = front ++ back)
    (pos_eq : pos = front.length) : restOf data pos = .ok back := by
  subst data_eq pos_eq
  rw [restOf, if_pos (by simp), List.drop_left]

theorem printfStr_returns {len : UInt32} {arg : Bytes} (small : len.toNat < 2 ^ 31)
    (enough : len.toNat ≤ arg.length) : ∃ text, printfStr len arg = .ok text := by
  have positive : ¬ len.toInt32 < 0 := by
    have fits : 2 * len.toBitVec.toNat < 2 ^ 32 := by
      rw [UInt32.toNat_toBitVec]
      omega
    have value : len.toInt32.toInt = (len.toNat : Int) := BitVec.toInt_eq_toNat_of_lt fits
    rw [Int32.lt_iff_toInt_lt, value]
    simp
  exact ⟨_, by rw [printfStr, if_neg positive, if_pos (.inr enough)]⟩

/-! ## The cases -/

section Cases

variable {data msg bytes rest : Bytes}

/-- An error, with the length test in 32-bit arithmetic. -/
theorem printErr_fields {code len : Nat} (codeFits : code < 2 ^ 32) (lenFits : len < 2 ^ 32)
    (data_eq : data = tagErr :: LittleEndian.encode 4 code ++ LittleEndian.encode 4 len ++ rest) :
    printErr data =
      if data.length < (1 + 8 + len) % 2 ^ 32 then .ok badResponse
      else printfStr (UInt32.ofNat len) rest >>= fun _ =>
        .ok (toInt32 ((1 + 8 + len) % 2 ^ 32), [.err (UInt32.ofNat code) (rest.take len)]) := by
  have size : data.length = 1 + 8 + rest.length := by
    rw [data_eq]
    simp
    omega
  have total : (1 + 8 + UInt32.ofNat len).toNat = (1 + 8 + len) % 2 ^ 32 := by
    rw [UInt32.toNat_add, UInt32.toNat_ofNat_of_lt' lenFits]
    rfl
  have loadCode : load data 1 4 = .ok code :=
    @load_eq data [tagErr] (LittleEndian.encode 4 len ++ rest) _ _ _
      (by rw [data_eq]; simp) rfl codeFits
  have loadLen : load data (1 + 4) 4 = .ok len :=
    @load_eq data (tagErr :: LittleEndian.encode 4 code) rest _ _ _
      (by rw [data_eq]; simp) (by simp) lenFits
  have argEq : restOf data (1 + 8) = .ok rest :=
    @restOf_eq data (tagErr :: LittleEndian.encode 4 code ++ LittleEndian.encode 4 len) rest _
      data_eq (by simp)
  rw [printErr, if_neg (by omega)]
  simp only [loadCode, loadLen, Exec.ok_bind, total, argEq, Exec.pure_eq_ok,
    UInt32.toNat_ofNat_of_lt' lenFits]

theorem printErr_eq {code : UInt32} (small : 1 + 8 + msg.length < 2 ^ 31)
    (data_eq : data = tagErr :: LittleEndian.encode 4 code.toNat ++
      LittleEndian.encode 4 msg.length ++ msg ++ rest) :
    printErr data = .ok ((1 + 8 + msg.length : Nat), [.err code msg]) := by
  have size : data.length = 1 + 8 + msg.length + rest.length := by
    rw [data_eq]
    simp
    omega
  have len : (UInt32.ofNat msg.length).toNat = msg.length :=
    UInt32.toNat_ofNat_of_lt' (by rw [UInt32.size]; omega)
  obtain ⟨text, textEq⟩ := @printfStr_returns (UInt32.ofNat msg.length) (msg ++ rest)
    (by rw [len]; omega) (by rw [len]; simp)
  rw [List.append_assoc] at data_eq
  rw [printErr_fields code.toNat_lt (by omega) data_eq, Nat.mod_eq_of_lt (by omega),
    if_neg (by omega), textEq, Exec.ok_bind, toInt32_eq small, List.take_left',
    UInt32.ofNat_toNat]
  rfl

/-- A string, with the length test in 32-bit arithmetic. -/
theorem printStr_fields {len : Nat} (lenFits : len < 2 ^ 32)
    (data_eq : data = tagStr :: LittleEndian.encode 4 len ++ rest) :
    printStr data =
      if data.length < (1 + 4 + len) % 2 ^ 32 then .ok badResponse
      else printfStr (UInt32.ofNat len) rest >>= fun _ =>
        .ok (toInt32 ((1 + 4 + len) % 2 ^ 32), [.str (rest.take len)]) := by
  have size : data.length = 1 + 4 + rest.length := by
    rw [data_eq]
    simp
    omega
  have total : (1 + 4 + UInt32.ofNat len).toNat = (1 + 4 + len) % 2 ^ 32 := by
    rw [UInt32.toNat_add, UInt32.toNat_ofNat_of_lt' lenFits]
    rfl
  have loadLen : load data 1 4 = .ok len :=
    @load_eq data [tagStr] rest _ _ _ (by rw [data_eq]; simp) rfl lenFits
  have argEq : restOf data (1 + 4) = .ok rest :=
    @restOf_eq data (tagStr :: LittleEndian.encode 4 len) rest _ data_eq (by simp)
  rw [printStr, if_neg (by omega)]
  simp only [loadLen, Exec.ok_bind, total, argEq, Exec.pure_eq_ok,
    UInt32.toNat_ofNat_of_lt' lenFits]

theorem printStr_eq (small : 1 + 4 + bytes.length < 2 ^ 31)
    (data_eq : data = tagStr :: LittleEndian.encode 4 bytes.length ++ bytes ++ rest) :
    printStr data = .ok ((1 + 4 + bytes.length : Nat), [.str bytes]) := by
  have size : data.length = 1 + 4 + bytes.length + rest.length := by
    rw [data_eq]
    simp
    omega
  have len : (UInt32.ofNat bytes.length).toNat = bytes.length :=
    UInt32.toNat_ofNat_of_lt' (by rw [UInt32.size]; omega)
  obtain ⟨text, textEq⟩ := @printfStr_returns (UInt32.ofNat bytes.length) (bytes ++ rest)
    (by rw [len]; omega) (by rw [len]; simp)
  rw [List.append_assoc] at data_eq
  rw [printStr_fields (by omega) data_eq, Nat.mod_eq_of_lt (by omega), if_neg (by omega), textEq,
    Exec.ok_bind, toInt32_eq small, List.take_left']
  rfl

theorem printInt_eq {val : Int64}
    (data_eq : data = tagInt :: LittleEndian.encode 8 val.toUInt64.toNat ++ rest) :
    printInt data = .ok (1 + 8, [.int val]) := by
  have size : data.length = 1 + 8 + rest.length := by
    rw [data_eq]
    simp
    omega
  have loadVal : load data 1 8 = .ok val.toUInt64.toNat :=
    @load_eq data [tagInt] rest _ _ _ (by rw [data_eq]; simp) rfl val.toUInt64.toNat_lt
  rw [printInt, if_neg (by omega)]
  simp only [loadVal, Exec.ok_bind, Exec.pure_eq_ok, UInt64.ofNat_toNat]
  rfl

theorem printDbl_eq {val : UInt64}
    (data_eq : data = tagDbl :: LittleEndian.encode 8 val.toNat ++ rest) :
    printDbl data = .ok (1 + 8, [.dbl val]) := by
  have size : data.length = 1 + 8 + rest.length := by
    rw [data_eq]
    simp
    omega
  have loadVal : load data 1 8 = .ok val.toNat :=
    @load_eq data [tagDbl] rest _ _ _ (by rw [data_eq]; simp) rfl val.toNat_lt
  rw [printDbl, if_neg (by omega)]
  simp [loadVal]

end Cases

/-! ## Values -/

theorem printResponse_tag {data : Bytes} {tag : UInt8} (first : data[0]? = some tag)
    (depth : Nat) : printResponse (depth + 1) data =
      if tag = tagNil then .ok (1, [.nil])
      else if tag = tagErr then printErr data
      else if tag = tagStr then printStr data
      else if tag = tagInt then printInt data
      else if tag = tagDbl then printDbl data
      else if tag = tagArr then printArr (printResponse depth) data
      else .ok badResponse := by
  simp only [printResponse, first]

variable (bits : D → UInt64)

mutual

/-- `print_response` on a value and more bytes visits the value and returns its length. -/
theorem printResponse_encode : ∀ (value : Value D) (rest : Bytes) (depth : Nat),
    (value.encode bits).length ≤ depth → (value.encode bits).length < 2 ^ 31 →
    printResponse depth (value.encode bits ++ rest) =
      .ok ((value.encode bits).length, value.visits bits)
  | value, _, 0, enough, _ =>
      absurd (value.encode_length_pos bits) (Nat.not_lt.mpr enough)
  | .nil, _, _ + 1, _, _ => rfl
  | .err code msg, rest, depth + 1, _, small => by
      have length : ((Value.err code msg : Value D).encode bits).length = 1 + 8 + msg.length := by
        simp [Value.encode]
        omega
      have caseEq := @printErr_eq _ msg rest code (by omega) rfl
      rw [printResponse_tag rfl, if_neg (by decide), if_pos rfl, length]
      exact caseEq
  | .str bytes, rest, depth + 1, _, small => by
      have length : ((Value.str bytes : Value D).encode bits).length = 1 + 4 + bytes.length := by
        simp [Value.encode]
        omega
      have caseEq := @printStr_eq _ bytes rest (by omega) rfl
      rw [printResponse_tag rfl, if_neg (by decide), if_neg (by decide), if_pos rfl, length]
      exact caseEq
  | .int val, rest, depth + 1, _, _ => by
      have length : ((Value.int val : Value D).encode bits).length = 1 + 8 := by simp [Value.encode]
      rw [printResponse_tag rfl, if_neg (by decide), if_neg (by decide), if_neg (by decide),
        if_pos rfl, length]
      exact printInt_eq rfl
  | .dbl val, rest, depth + 1, _, _ => by
      have length : ((Value.dbl val).encode bits).length = 1 + 8 := by simp [Value.encode]
      rw [printResponse_tag rfl, if_neg (by decide), if_neg (by decide), if_neg (by decide),
        if_neg (by decide), if_pos rfl, length]
      exact printDbl_eq rfl
  | .arr items, rest, depth + 1, enough, small => by
      let front := tagArr :: LittleEndian.encode 4 items.length
      have front_length : front.length = 1 + 4 := by simp [front]
      have data_eq : (Value.arr items).encode bits ++ rest =
          front ++ Value.encodeAll bits items ++ rest := rfl
      have length : ((Value.arr items).encode bits).length =
          front.length + (Value.encodeAll bits items).length := List.length_append
      have bound := Value.length_le_encodeAll bits items
      have len : (UInt32.ofNat items.length).toNat = items.length :=
        UInt32.toNat_ofNat_of_lt' (by rw [UInt32.size]; omega)
      have loadLen : load (front ++ Value.encodeAll bits items ++ rest) 1 4 =
          .ok items.length :=
        @load_eq _ [tagArr] (Value.encodeAll bits items ++ rest) _ _ _ (by simp [front]) rfl
          (by omega)
      have itemsEq := printItems_encode items front rest depth 0 (UInt32.ofNat items.length)
        [.arr (UInt32.ofNat items.length)] (by rw [len]; omega) (by omega) (by omega)
      rw [printResponse_tag rfl, if_neg (by decide), if_neg (by decide), if_neg (by decide),
        if_neg (by decide), if_neg (by decide), if_pos rfl, data_eq, printArr,
        if_neg (by simp; omega)]
      simp only [loadLen, Exec.ok_bind, len]
      rw [← front_length, itemsEq, length]
      simp [Value.visits]

/-- The loop over the items of an array visits them all. -/
theorem printItems_encode : ∀ (items : List (Value D)) (front rest : Bytes) (depth i : Nat)
    (len : UInt32) (visits : List Visit), i + items.length = len.toNat →
    (Value.encodeAll bits items).length ≤ depth →
    front.length + (Value.encodeAll bits items).length < 2 ^ 31 →
    loop (printArrTurn (printResponse depth) (front ++ Value.encodeAll bits items ++ rest) len)
      (items.length + 1) (i, front.length, visits) =
      .ok ((front.length + (Value.encodeAll bits items).length : Nat),
        visits ++ Value.visitsAll bits items ++ [.arrEnd])
  | [], front, rest, depth, i, len, visits, count, _, small => by
      have ends : ¬ i < len.toNat := by
        rw [List.length_nil] at count
        omega
      apply loop_done
      rw [printArrTurn, if_neg ends, toInt32_eq (by simpa [Value.encodeAll] using small)]
      simp [Value.encodeAll, Value.visitsAll]
  | item :: items, front, rest, depth, i, len, visits, count, enough, small => by
      simp only [Value.encodeAll, List.length_append, List.length_cons] at count enough small ⊢
      have itemEq := printResponse_encode item (Value.encodeAll bits items ++ rest) depth
        (by omega) (by omega)
      have itemsEq := printItems_encode items (front ++ item.encode bits) rest depth (i + 1) len
        (visits ++ item.visits bits) (by omega) (by omega)
        (by simp only [List.length_append]; omega)
      have restEq : restOf (front ++ (item.encode bits ++ Value.encodeAll bits items) ++ rest)
          front.length = .ok (item.encode bits ++ (Value.encodeAll bits items ++ rest)) :=
        restOf_eq (by simp) rfl
      have turn : printArrTurn (printResponse depth)
          (front ++ (item.encode bits ++ Value.encodeAll bits items) ++ rest) len
          (i, front.length, visits) =
          .ok (.next (i + 1, front.length + (item.encode bits).length,
            visits ++ item.visits bits)) := by
        rw [printArrTurn, if_pos (by omega)]
        have notNegative : ¬ ((item.encode bits).length : Int) < 0 := by omega
        simp only [restEq, itemEq, Exec.ok_bind, if_neg notNegative, Exec.pure_eq_ok,
          Int.toNat_natCast]
      rw [loop_next turn]
      simpa [Value.visitsAll, Nat.add_assoc] using itemsEq

end

/-! ## Frames -/

theorem readFull_frame (body more : Bytes) :
    readFull (frame body ++ more) 4 =
      some (LittleEndian.encode 4 body.length, body ++ more) := by
  rw [frame, List.append_assoc, readFull, if_pos (by simp), List.take_left' (by simp),
    List.drop_left' (by simp)]

theorem readRes_frame {body : Bytes} (small : body.length ≤ kMaxMsg) (more : Bytes) :
    readRes (frame body ++ more) = do
      let (rv, visits) ← printResponse (body.length + 1) body
      if rv > 0 ∧ rv ≠ body.length then return (-1, visits ++ [.bad]) else return (rv, visits) := by
  have len : LittleEndian.decode (LittleEndian.encode 4 body.length) = body.length :=
    LittleEndian.decode_encode_of_lt (by unfold kMaxMsg at small; omega)
  have whole : readFull (body ++ more) body.length = some (body, more) := by
    rw [readFull, if_pos (by simp), List.take_left, List.drop_left]
  simp only [readRes, readFull_frame, len, if_neg (Nat.not_lt.mpr small), whole]

theorem readRes_tooLong {body : Bytes} (fits : body.length < 2 ^ 32)
    (long : kMaxMsg < body.length) (more : Bytes) :
    readRes (frame body ++ more) = .ok (-1, []) := by
  have len : LittleEndian.decode (LittleEndian.encode 4 body.length) = body.length :=
    LittleEndian.decode_encode_of_lt fits
  simp only [readRes, readFull_frame, len, if_pos long]

/-- `read_res` accepts a frame: the length passes the check, and `print_response` consumes
the whole body. -/
def Accepts (response : Bytes) : Prop :=
  ∃ body visits, response = frame body ∧
    ∀ more, readRes (response ++ more) = .ok ((body.length : Int), visits)

/-- The frame of a value is accepted if it is short enough. -/
theorem accepts_frame_iff {value : Value D} (fits : (value.encode bits).length < 2 ^ 31) :
    Accepts (frame (value.encode bits)) ↔ (value.encode bits).length ≤ kMaxMsg := by
  constructor
  · rintro ⟨body, visits, -, accepted⟩
    by_contra long
    have rejected := accepted []
    rw [readRes_tooLong (by omega) (Nat.not_le.mp long)] at rejected
    have result : (-1 : Int) = body.length := congrArg Prod.fst (Except.ok.inj rejected)
    omega
  · intro small
    refine ⟨_, value.visits bits, rfl, fun more => ?_⟩
    have printed := printResponse_encode bits value [] _ (Nat.le_succ _) fits
    rw [List.append_nil] at printed
    rw [readRes_frame small, printed, Exec.ok_bind]
    exact if_neg fun both => both.2 rfl

end Client

end RedisLite
