import RedisLite.Server.Capacity
import RedisLite.Server.Respond

/-!
# Errors

A request that is answered with an error leaves the store as it was.  The answers of all
requests but KEYS and ZQUERY fit a response, because a string that SET has stored was part
of a request.
-/

namespace RedisLite

open Lib

/-! ## The words of requests -/

/-- The words of a known request. -/
def Request.words : Request → Option (List Bytes)
  | .get key => some [ascii "get", key]
  | .set key str => some [ascii "set", key, str]
  | .del key => some [ascii "del", key]
  | .keys => some [ascii "keys"]
  | .zadd key score name => some [ascii "zadd", key, score, name]
  | .zrem key name => some [ascii "zrem", key, name]
  | .zscore key name => some [ascii "zscore", key, name]
  | .zquery key score name offset limit => some [ascii "zquery", key, score, name, offset, limit]
  | .pexpire key ttlMs => some [ascii "pexpire", key, ttlMs]
  | .pttl key => some [ascii "pttl", key]
  | .unknown => none

theorem Request.words_ofCmd {cmd words : List Bytes}
    (known : (Request.ofCmd cmd).words = some words) : cmd = words := by
  unfold Request.ofCmd at known
  split at known
  case h_6 => cases known
  all_goals
    split_ifs at known with isWord <;> cases known <;> simp only [*]
variable {D : Type} [Dbl D]

namespace Store

variable {store : Store D} {now : UInt64} {request : Request} {value : Value D}

/-! ## The effect of errors -/

/-- A request that is answered with an error has no effect. -/
theorem Answers.apply_eq_of_err {code : UInt32} {msg : Bytes}
    (answers : store.Answers now request (.err code msg)) (time : Nat) :
    store.apply time request = store := by
  cases request with
  | get | keys | zscore | zquery | pttl | unknown => rfl
  | set key str =>
      simp only [Answers] at answers
      simp only [apply]
      split at answers
      · rfl
      · cases answers
  | del key => cases answers
  | zadd key score name =>
      simp only [Answers] at answers
      simp only [apply]
      split at answers
      · rename_i noScore
        simp only [noScore]
      · rename_i isScore noMembers
        simp only [isScore, noMembers]
      · cases answers
  | zrem key name =>
      simp only [Answers] at answers
      simp only [apply]
      split at answers
      · rename_i noMembers
        unfold Store.members at noMembers
        split at noMembers
        · cases noMembers
        · cases noMembers
        · rename_i lookup
          simp only [lookup]
      · cases answers
  | pexpire key ttlMs =>
      simp only [Answers] at answers
      simp only [apply]
      split at answers
      · rename_i noTtl
        simp only [noTtl]
      · cases answers

/-! ## The size of answers -/

/-- A string fits a response. -/
def StringFits (D : Type) (data : Data D) : Prop :=
  ∀ str, data = .str str → 5 + str.length ≤ kMaxMsg

/-- The answers of the requests that do not list anything: the string under a key, or at most
a few bytes, and no error about the size. -/
inductive Plain (store : Store D) (request : Request) : Value D → Prop where
  | nil : Plain store request .nil
  | int (val : Int64) : Plain store request (.int val)
  | dbl (val : D) : Plain store request (.dbl val)
  | str {key str : Bytes} {deadline : Option Nat} (isGet : request = .get key)
      (lookup : store.lookup key = some ⟨.str str, deadline⟩) : Plain store request (.str str)
  | err {code : UInt32} {msg : Bytes} (other : code ≠ errTooBig) (short : msg.length ≤ 32) :
      Plain store request (.err code msg)

end Store

/-- The requests whose answer is an array. -/
def Request.Lists : Request → Prop
  | .keys => True
  | .zquery _ _ _ _ _ => True
  | _ => False

namespace Store

variable {store : Store D} {now : UInt64} {request : Request} {value : Value D}

theorem Answers.plain (answers : store.Answers now request value) (alone : ¬ request.Lists) :
    store.Plain request value := by
  cases request with
  | keys => exact absurd trivial alone
  | zquery => exact absurd trivial alone
  | get key =>
      simp only [Answers] at answers
      subst answers
      split
      · exact .nil
      · rename_i lookup
        exact .str rfl lookup
      · exact .err (by decide) (by decide)
  | set key str =>
      simp only [Answers] at answers
      subst answers
      split
      · exact .err (by decide) (by decide)
      · exact .nil
  | del key =>
      simp only [Answers] at answers
      subst answers
      exact .int _
  | zadd key score name =>
      simp only [Answers] at answers
      subst answers
      split
      · exact .err (by decide) (by decide)
      · exact .err (by decide) (by decide)
      · exact .int _
  | zrem key name =>
      simp only [Answers] at answers
      subst answers
      split
      · exact .err (by decide) (by decide)
      · exact .int _
  | zscore key name =>
      simp only [Answers] at answers
      subst answers
      split
      · exact .err (by decide) (by decide)
      · rename_i members found
        cases members.lookup name with
        | none => exact .nil
        | some score => exact .dbl score
  | pexpire key ttlMs =>
      simp only [Answers] at answers
      subst answers
      split
      · exact .err (by decide) (by decide)
      · exact .int _
  | pttl key =>
      simp only [Answers] at answers
      subst answers
      split
      · exact .int _
      · exact .int _
      · exact .int _
  | unknown =>
      simp only [Answers] at answers
      subst answers
      exact .err (by decide) (by decide)

/-- A plain answer is a string, or it is short. -/
theorem Plain.cases_length (plain : store.Plain request value) :
    (∃ key str deadline, request = .get key ∧ store.lookup key = some ⟨.str str, deadline⟩ ∧
      value = .str str) ∨ (value.encode Dbl.bits).length ≤ 64 := by
  cases plain with
  | str isGet lookup => exact .inl ⟨_, _, _, isGet, lookup, rfl⟩
  | err other short =>
      right
      simp only [Value.encode, List.length_append, List.length_cons, LittleEndian.length_encode]
      omega
  | nil => exact .inr (by decide : 1 ≤ 64)
  | int | dbl =>
      right
      simp only [Value.encode, List.length_cons, LittleEndian.length_encode]
      decide

omit [Dbl D] in
theorem length_encode_str (bits : D → UInt64) (str : Bytes) :
    ((Value.str str : Value D).encode bits).length = 5 + str.length := by
  simp only [Value.encode, List.length_append, List.length_cons, LittleEndian.length_encode]

theorem Plain.length_le (plain : store.Plain request value)
    (strings : store.Every (StringFits D)) : (value.encode Dbl.bits).length ≤ kMaxMsg := by
  rcases plain.cases_length with ⟨key, str, deadline, -, lookup, rfl⟩ | short
  · rw [length_encode_str]
    exact strings _ _ lookup _ rfl
  · exact short.trans (by decide)

theorem Plain.limited_eq (plain : store.Plain request value)
    (strings : store.Every (StringFits D)) : value.limited Dbl.bits = value :=
  if_neg (Nat.not_lt.mpr (plain.length_le strings))

/-- A request that is answered with an error, also in place of an answer that is too big, has
no effect. -/
theorem Answers.apply_eq_of_limited {code : UInt32} {msg : Bytes}
    (answers : store.Answers now request value) (strings : store.Every (StringFits D))
    (isErr : value.limited Dbl.bits = .err code msg) (time : Nat) :
    store.apply time request = store ∧ (code = errTooBig → request.Lists) := by
  by_cases lists : request.Lists
  · refine ⟨?_, fun _ => lists⟩
    cases request with
    | keys | zquery => rfl
    | _ => exact lists.elim
  · have plain := answers.plain lists
    rw [plain.limited_eq strings] at isErr
    subst isErr
    refine ⟨answers.apply_eq_of_err time, fun tooBig => ?_⟩
    cases plain with
    | err other short => exact absurd tooBig other

theorem Answers.get_whole {key str : Bytes} {deadline : Option Nat}
    (answers : store.Answers now (.get key) value) (strings : store.Every (StringFits D))
    (lookup : store.lookup key = some ⟨.str str, deadline⟩) :
    value.limited Dbl.bits = .str str := by
  rw [(answers.plain id).limited_eq strings]
  simpa only [Answers, lookup] using answers

end Store

end RedisLite
