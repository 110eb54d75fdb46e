import Mathlib.Algebra.BigOperators.Group.Finset.Basic
import RedisLite.Server.Errors

/-!
# The size of listings

KEYS lists the keys of the store and ZQUERY the nodes that it passes in the tree.  The size
of their answers, and of the answer to GET, depends on the database.
-/

namespace RedisLite

open Lib

variable {D : Type} [Dbl D]

/-! ## Sizes -/

omit [Dbl D] in
theorem Value.length_encodeAll (bits : D → UInt64) (items : List (Value D)) :
    (Value.encodeAll bits items).length =
      (items.map fun item => (item.encode bits).length).sum := by
  induction items with
  | nil => rfl
  | cons item items ih =>
      rw [Value.encodeAll, List.length_append, ih, List.map_cons, List.sum_cons]

theorem length_encode_keys (keys : List Bytes) :
    ((Value.arr (keys.map .str) : Value D).encode Dbl.bits).length =
      5 + (keys.map fun key => 5 + key.length).sum := by
  simp only [Value.encode, List.length_append, List.length_cons, LittleEndian.length_encode,
    Value.length_encodeAll, List.map_map, Function.comp_def]

theorem length_encode_nodes (cells : List (ZNode D)) :
    ((Value.arr (nodeValues cells)).encode Dbl.bits).length =
      5 + (cells.map fun cell => 14 + cell.name.length).sum := by
  have all : (Value.encodeAll Dbl.bits (nodeValues cells)).length =
      (cells.map fun cell => 14 + cell.name.length).sum := by
    induction cells with
    | nil => rfl
    | cons cell cells ih =>
        simp only [nodeValues, Store.pairValues, List.map_cons, List.flatMap_cons,
          Value.encodeAll_append, List.length_append, Value.encodeAll, Value.encode, ZNode.pair,
          List.length_cons, LittleEndian.length_encode, List.sum_cons, List.length_nil] at ih ⊢
        omega
  simp only [Value.encode, List.length_append, List.length_cons, LittleEndian.length_encode, all]

omit [Dbl D] in
theorem sum_keys {store : Store D} {keys : List Bytes} (nodup : keys.Nodup)
    (complete : ∀ key, key ∈ keys ↔ key ∈ store) (size : Bytes → Nat) :
    (keys.map size).sum = store.keys.sum size := by
  have same : keys.toFinset = store.keys := by
    ext key
    rw [List.mem_toFinset, complete, Finmap.mem_keys]
  rw [← same, List.sum_toFinset size nodup]

/-! ## The limits of the server and of the client -/

/-- An answer of this size is sent in a body that the client accepts: it is at most
`k_max_msg` of the client, or the server sends an error in its place. -/
def FitsClient (size : Nat) : Prop := size ≤ Client.kMaxMsg ∨ kMaxMsg < size

theorem FitsClient.of_le {size : Nat} (small : size ≤ 64) : FitsClient size :=
  .inl (small.trans (by decide))

theorem fitsClient_iff (value : Value D) :
    FitsClient (value.encode Dbl.bits).length ↔
      ((value.limited Dbl.bits).encode Dbl.bits).length ≤ Client.kMaxMsg := by
  unfold FitsClient Value.limited
  split
  · rename_i tooBig
    have short : ((Value.err errTooBig (ascii "response is too big.") : Value D).encode
        Dbl.bits).length ≤ Client.kMaxMsg := by
      simp only [Value.encode]
      decide
    exact ⟨fun _ => short, fun _ => .inr tooBig⟩
  · rename_i inside
    exact ⟨fun fits => fits.resolve_right inside, .inl⟩

/-- The answer to a request, before it is executed, fits the client. -/
def Db.AnswerFits (db : Db D) (store : Store D) : Request → Prop
  | .get key => ∀ str deadline, store.lookup key = some ⟨.str str, deadline⟩ →
      FitsClient (5 + str.length)
  | .keys => FitsClient (5 + store.keys.sum fun key => 5 + key.length)
  | .zquery key scoreArg name offsetArg limitArg => ∀ score offset limit ent entry cells,
      str2dbl D scoreArg = some score → str2int offsetArg = some offset →
      str2int limitArg = some limit → db.entries.cell ent = some entry → entry.key = key →
      entry.type = .zset → zqueryNodes entry.zset score name offset limit = .ok cells →
      FitsClient (5 + (cells.map fun cell => 14 + cell.name.length).sum)
  | _ => True

/-! ## Answers that fit -/

namespace Db.Denotes

variable {db : Db D} {store : Store D}

omit [Dbl D] in
/-- `expect_zset` may move nodes, but it leaves the entries alone. -/
theorem expectZset_entries {key : Bytes} {middle : Db D} {zref : Option ZSetRef}
    (call : RedisLite.expectZset db key = .ok (middle, zref)) : middle.entries = db.entries := by
  simp only [RedisLite.expectZset, RedisLite.dbLookup, Exec.bind_eq_ok] at call
  obtain ⟨⟨found, ent⟩, ⟨⟨hmap, node⟩, -, lookupEq⟩, rest⟩ := call
  cases lookupEq
  cases node with
  | none =>
      cases rest
      rfl
  | some node =>
      obtain ⟨entry, -, rest⟩ := Exec.bind_eq_ok.mp rest
      cases rest
      rfl

theorem zqueryNodes_empty (score : D) (name : Bytes) (offset limit : Int) :
    zqueryNodes ({} : ZSet D) score name offset limit = .ok [] := by
  unfold zqueryNodes
  split
  · rfl
  · have found : ZSet.zsetSeekge ({} : ZSet D) score name = .ok none := rfl
    rw [found, Exec.ok_bind, ZSet.znodeOffset, Exec.ok_bind]
    cases (limit.toNat + 1) / 2 with
    | zero => rfl
    | succ count => rfl

/-- ZQUERY with proper arguments. -/
theorem zquery_size (denotes : db.Denotes store) {word key scoreArg name offsetArg limitArg : Bytes}
    {score : D} {offset limit : Int} (isScore : str2dbl D scoreArg = some score)
    (isOffset : str2int offsetArg = some offset) (isLimit : str2int limitArg = some limit)
    (out : Bytes) :
    Exec.Returns (RedisLite.doZquery db [word, key, scoreArg, name, offsetArg, limitArg] out)
      fun result => ∃ value : Value D, result.2 = out ++ value.encode Dbl.bits ∧
        (FitsClient (value.encode Dbl.bits).length ↔
          db.AnswerFits store (.zquery key scoreArg name offsetArg limitArg)) := by
  obtain ⟨⟨middle, zref⟩, expectEq, middleDenotes, holds⟩ := denotes.expectZset key
  have entries := expectZset_entries expectEq
  simp only [RedisLite.doZquery, List.getElem?_cons_succ, List.getElem?_cons_zero,
    Exec.deref_some, Exec.ok_bind, isScore, isOffset, isLimit, expectEq]
  cases zref with
  | none =>
      have noSet : store.members key = none := holds
      simp only [Exec.pure_eq_ok, Exec.returns_ok]
      refine ⟨_, outErr_eq _ _ _ _, fun _ => ?_, fun _ => .of_le ?_⟩
      · rintro _ _ _ ent entry _ - - - live rfl type -
        obtain ⟨⟨data, deadline⟩, found⟩ := denotes.finds live
        cases data with
        | str bytes =>
            rw [(found.type_str rfl).1] at type
            cases type
        | zset members =>
            rw [Store.members_of_lookup found.lookup] at noSet
            cases noSet
      · simp only [Value.encode]
        decide
  | some ref =>
      cases ref with
      | kEmpty =>
          have absent : store.lookup key = none := holds
          simp only [RedisLite.loadZset, Exec.ok_bind, zqueryOutput_nodes, zqueryNodes_empty,
            Exec.pure_eq_ok, Exec.returns_ok]
          refine ⟨_, rfl, fun _ => ?_, fun _ => .of_le ?_⟩
          · rintro _ _ _ ent entry _ - - - live same - -
            exact absurd same (denotes.key_ne_of_lookup absent live)
          · rw [length_encode_nodes, List.map_nil]
            decide
      | entry ent =>
          obtain ⟨entry, members, deadline, found⟩ := holds
          obtain ⟨type, inner⟩ := found.type_zset rfl
          have live := found.live
          obtain ⟨cells, nodesEq, -⟩ := inner.zqueryNodes score name offset limit
          simp only [RedisLite.loadZset, Mem.read_eq live, Exec.ok_bind, zqueryOutput_nodes,
            nodesEq, Exec.pure_eq_ok, Exec.returns_ok]
          refine ⟨_, rfl, ?_⟩
          rw [length_encode_nodes]
          constructor
          · rintro fits otherScore otherOffset otherLimit other otherEntry otherCells sameScore
              sameOffset sameLimit otherLive sameKey - otherEq
            rw [isScore] at sameScore
            rw [isOffset] at sameOffset
            rw [isLimit] at sameLimit
            cases sameScore
            cases sameOffset
            cases sameLimit
            rw [← entries] at otherLive
            obtain rfl := middleDenotes.linked.distinct _ _ _ _ otherLive live
              (sameKey.trans found.key_eq.symm)
            rw [live] at otherLive
            cases otherLive
            rw [nodesEq] at otherEq
            cases otherEq
            exact fits
          · intro fits
            rw [entries] at live
            exact fits score offset limit ent entry cells isScore isOffset isLimit live found.key_eq
              type nodesEq

/-- The answers of all requests but ZQUERY with proper arguments. -/
theorem fits_of_answers {request : Request} {now : UInt64} {value : Value D}
    (answers : store.Answers now request value)
    (notListed : ∀ key scoreArg name offsetArg limitArg,
      request = .zquery key scoreArg name offsetArg limitArg →
      str2dbl D scoreArg = none ∨ str2int offsetArg = none ∨ str2int limitArg = none) :
    FitsClient (value.encode Dbl.bits).length ↔ db.AnswerFits store request := by
  by_cases lists : request.Lists
  · cases request with
    | keys =>
        obtain ⟨keys, nodup, complete, rfl⟩ := answers
        rw [length_encode_keys, sum_keys nodup complete]
        rfl
    | zquery key scoreArg name offsetArg limitArg =>
        have bad := notListed _ _ _ _ _ rfl
        have short : FitsClient (value.encode Dbl.bits).length := by
          apply FitsClient.of_le
          simp only [Store.Answers] at answers
          split at answers
          · subst answers
            simp only [Value.encode]
            decide
          · rename_i isScore isOffset isLimit isMembers
            rw [isScore, isOffset, isLimit] at bad
            rcases bad with bad | bad | bad <;> cases bad
          · subst answers
            simp only [Value.encode]
            decide
          · subst answers
            simp only [Value.encode]
            decide
        refine ⟨fun _ => ?_, fun _ => short⟩
        rintro score offset limit ent entry cells isScore isOffset isLimit
        rw [isScore, isOffset, isLimit] at bad
        rcases bad with bad | bad | bad <;> cases bad
    | _ => exact lists.elim
  · have plain := answers.plain lists
    constructor
    · intro fits
      cases request with
      | get key =>
          intro str deadline lookup
          obtain rfl : value = .str str := by simpa only [Store.Answers, lookup] using answers
          rwa [Store.length_encode_str] at fits
      | keys | zquery => exact absurd trivial lists
      | _ => trivial
    · intro fits
      rcases plain.cases_length with ⟨key, str, deadline, rfl, lookup, rfl⟩ | short
      · rw [Store.length_encode_str]
        exact fits str deadline lookup
      · exact .of_le short

/-- The answer to every request has a size that fits the client exactly if `AnswerFits` says
so of the database before the request. -/
theorem answer_size (denotes : db.Denotes store) (fits : store.Fits) (cmd : List Bytes)
    (now : UInt64) (out : Bytes) :
    Exec.Returns (RedisLite.doRequest db cmd now out) fun result => ∃ value : Value D,
      result.2 = out ++ value.encode Dbl.bits ∧
      (FitsClient (value.encode Dbl.bits).length ↔ db.AnswerFits store (Request.ofCmd cmd)) := by
  by_cases listed : ∀ key scoreArg name offsetArg limitArg,
      Request.ofCmd cmd = .zquery key scoreArg name offsetArg limitArg →
      str2dbl D scoreArg = none ∨ str2int offsetArg = none ∨ str2int limitArg = none
  · obtain ⟨result, call, -, value, answers, written⟩ := denotes.doRequest fits cmd now out
    exact ⟨result, call, value, written, fits_of_answers answers listed⟩
  · push Not at listed
    obtain ⟨key, scoreArg, name, offsetArg, limitArg, isZquery, someScore, someOffset,
      someLimit⟩ := listed
    obtain ⟨score, isScore⟩ := Option.ne_none_iff_exists'.mp someScore
    obtain ⟨offset, isOffset⟩ := Option.ne_none_iff_exists'.mp someOffset
    obtain ⟨limit, isLimit⟩ := Option.ne_none_iff_exists'.mp someLimit
    obtain rfl : cmd = [ascii "zquery", key, scoreArg, name, offsetArg, limitArg] :=
      Request.words_ofCmd (by rw [isZquery]; rfl)
    rw [doRequest_zquery, isZquery]
    exact denotes.zquery_size isScore isOffset isLimit out

end Db.Denotes

end RedisLite
