import RedisLite.Server.Capacity

/-!
# ZQUERY as a slice

The tuples of a sorted set, ordered by score and name, form a sequence.  While the counts
of its tree are exact, ZQUERY answers with a slice of that sequence.
-/

namespace RedisLite

open Lib Lib.Tree

variable {D : Type} [Dbl D]

/-- ZQUERY on a database that stands for a store. -/
theorem Db.Denotes.zquery_slice {db : Db D} {store : Store D} (denotes : db.Denotes store)
    {key scoreArg name offsetArg limitArg : Bytes} {members : Members D} {score : D}
    {offset limit : Int} (isMembers : store.members key = some members)
    (small : members.keys.card < 2 ^ 31) (isScore : str2dbl D scoreArg = some score)
    (isOffset : str2int offsetArg = some offset) (isLimit : str2int limitArg = some limit)
    (now : UInt64) (out : Bytes) :
    Exec.Returns (RedisLite.doRequest db
        [ascii "zquery", key, scoreArg, name, offsetArg, limitArg] now out) fun result =>
      result.1.Denotes store ∧
      result.2 = out ++ (Value.arr (tupleValues
        (zquerySlice members.tuples score name offset limit))).encode Dbl.bits := by
  obtain ⟨⟨after, written⟩, call, afterDenotes, value, answers, isWritten⟩ :=
    denotes.doZquery (ascii "zquery") key scoreArg name offsetArg limitArg out now
  simp only [Store.Answers, isScore, isOffset, isLimit, isMembers] at answers
  obtain ⟨pairs, rfl, -, slice⟩ := answers
  obtain rfl := slice (by omega)
  exact ⟨_, (doRequest_zquery db key scoreArg name offsetArg limitArg now out).trans call,
    afterDenotes, isWritten⟩

/-- In every reached database, ZQUERY answers with the slice of the sorted sequence, and
the count of its array is twice the number of tuples. -/
theorem zquery_answers_slice {history : List Event} {db : Db D} (reached : Reached history db)
    {key scoreArg name offsetArg limitArg : Bytes} {members : Members D} {score : D}
    {offset limit : Int} (isMembers : (Store.after history : Store D).members key = some members)
    (small : members.keys.card < 2 ^ 31) (isScore : str2dbl D scoreArg = some score)
    (isOffset : str2int offsetArg = some offset) (isLimit : str2int limitArg = some limit)
    (now : UInt64) (out : Bytes) :
    Exec.Returns (RedisLite.doRequest db
        [ascii "zquery", key, scoreArg, name, offsetArg, limitArg] now out) fun result =>
      result.2 = out ++ tagArr :: LittleEndian.encode 4
          (2 * (zquerySlice members.tuples score name offset limit).length) ++
        Value.encodeAll Dbl.bits
          (tupleValues (zquerySlice members.tuples score name offset limit)) ∧
      2 * (zquerySlice members.tuples score name offset limit).length < 2 ^ 32 := by
  obtain ⟨result, call, -, written⟩ :=
    reached.denotes.zquery_slice isMembers small isScore isOffset isLimit now out
  refine ⟨result, call, ?_, ?_⟩
  · rw [written, Value.encode, length_tupleValues, List.append_assoc]
  · have total : members.tuples.length = members.keys.card := by
      rw [Entries.card_keys, Members.tuples, Multiset.length_sort, Multiset.card_map]
    have part : (zquerySlice members.tuples score name offset limit).length ≤
        members.tuples.length := by
      simp only [zquerySlice]
      split
      · simp
      · rw [List.length_take, List.length_drop]
        omega
    omega

/-- Four members, two of them with the same score; the last command is the first one here. -/
def tiedCmds : List (List Bytes) :=
  [[ascii "zadd", ascii "z", ascii "2", ascii "b"],
    [ascii "zadd", ascii "z", ascii "1", ascii "a"],
    [ascii "zadd", ascii "z", ascii "3", ascii "d"],
    [ascii "zadd", ascii "z", ascii "2", ascii "c"]]

/-- The history in which the members are added. -/
def tiedHistory : List Event := tiedCmds.map fun cmd => .request cmd 0

/-- The sequence of the members. -/
def tiedTuples : List (Nat ×ₗ Bytes) :=
  [toLex (1, ascii "a"), toLex (2, ascii "b"), toLex (2, ascii "c"), toLex (3, ascii "d")]

theorem exists_tied : ∃ members : Members Nat,
    (Store.after tiedHistory : Store Nat).members (ascii "z") = some members ∧
    members.keys.card = 4 ∧ members.tuples = tiedTuples := by
  refine ⟨_, rfl, by decide, Members.tuples_eq ?_ (by decide)⟩
  exact Multiset.coe_eq_coe.mpr (by decide)

/-- A query that starts one place before the first member with the score 2 and lists three
members. -/
theorem zquery_answers_slice_tied : ∃ db after : Db Nat, Reached tiedHistory db ∧
    doRequest db [ascii "zquery", ascii "z", ascii "2", [], ascii "-1", ascii "5"] 0 [] =
      .ok (after, tagArr :: LittleEndian.encode 4 6 ++ Value.encodeAll Dbl.bits
        [.str (ascii "a"), .dbl (1 : Nat), .str (ascii "b"), .dbl 2, .str (ascii "c"),
          .dbl 2]) := by
  obtain ⟨db, reached⟩ := exists_reached Nat tiedCmds (by decide)
  obtain ⟨members, isMembers, card, tuples⟩ := exists_tied
  obtain ⟨⟨after, out⟩, call, written, -⟩ := zquery_answers_slice reached isMembers
    (by rw [card]; decide) (show str2dbl Nat (ascii "2") = some 2 from rfl)
    (show str2int (ascii "-1") = some (-1) from rfl) (show str2int (ascii "5") = some 5 from rfl)
    0 []
  have slice : zquerySlice tiedTuples 2 [] (-1) 5 = tiedTuples.take 3 := by decide
  rw [tuples, slice] at written
  have written : out = _ := written
  exact ⟨db, after, reached, by rw [call, written]; rfl⟩

end RedisLite
