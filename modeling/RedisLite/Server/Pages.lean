import RedisLite.Server.Isolation

/-!
# Paging with ZQUERY

A client that asks for one page after the other, with offsets that are multiples of the page
size, receives the tuples from its starting point on, each once and in order, for as long as
the sorted set stays the same; what happens to the rest of the database does not matter.
-/

namespace RedisLite

open Lib

/-! ## Sorted sequences -/

section Sequences

variable {α : Type} [LinearOrder α]

/-- In a sorted sequence, what is not below a bound comes behind what is below it. -/
theorem drop_countP_below {items : List α} (sorted : items.Pairwise (· ≤ ·)) (bound : α) :
    items.drop (items.countP fun item => decide (item < bound)) =
      items.filter fun item => decide (bound ≤ item) := by
  induction items with
  | nil => rfl
  | cons item items ih =>
      rw [List.pairwise_cons] at sorted
      by_cases below : item < bound
      · rw [List.countP_cons, if_pos (decide_eq_true below), List.drop_succ_cons, ih sorted.2,
          List.filter_cons_of_neg (by simpa using below)]
      · have above : bound ≤ item := not_lt.mp below
        have rest : ∀ other ∈ items, bound ≤ other :=
          fun other member => above.trans (sorted.1 other member)
        have none : (items.countP fun item => decide (item < bound)) = 0 := by
          apply List.countP_eq_zero.mpr
          intro other member
          simpa using rest other member
        rw [List.countP_cons, if_neg (by simpa using below), none, List.drop_zero,
          List.filter_eq_self.mpr]
        intro other member
        rcases List.mem_cons.mp member with rfl | member
        · exact decide_eq_true above
        · exact decide_eq_true (rest other member)

omit [LinearOrder α] in
theorem flatMap_pages (items : List α) (size count : Nat) :
    (List.range count).flatMap (fun index => (items.drop (index * size)).take size) =
      items.take (count * size) := by
  induction count with
  | zero => rw [List.range_zero, List.flatMap_nil, Nat.zero_mul, List.take_zero]
  | succ count ih =>
      rw [List.range_succ, List.flatMap_append, ih, List.flatMap_singleton, Nat.succ_mul,
        List.take_add]

end Sequences

variable {D : Type} [Dbl D]

theorem Members.pairwise_tuples (members : Members D) : members.tuples.Pairwise (· ≤ ·) :=
  Multiset.pairwise_sort _ _

/-- One page of ZQUERY, whose limit counts the names and the scores. -/
theorem zquerySlice_page (tuples : List (D ×ₗ Bytes)) (score : D) (name : Bytes)
    (index : Nat) {size : Nat} (positive : 0 < size) :
    zquerySlice tuples score name ((index * size : Nat) : Int) ((2 * size : Nat) : Int) =
      ((tuples.drop (tuples.countP fun tuple => decide (tuple < toLex (score, name)))).drop
        (index * size)).take size := by
  have bound : tuples.countP (fun tuple => decide (tuple < toLex (score, name))) ≤
      tuples.length := List.countP_le_length
  simp only [zquerySlice]
  split
  · rename_i empty
    have atEnd : tuples.countP (fun tuple => decide (tuple < toLex (score, name))) =
        tuples.length := by omega
    rw [atEnd, List.drop_length, List.drop_nil, List.take_nil]
  · have pages : ((2 * size : Nat) : Int).toNat = 2 * size := rfl
    rw [List.drop_drop, pages, show (2 * size + 1) / 2 = size by omega]
    rfl

/-- Paging through a sorted set.  Pages of `size` tuples are asked for one after the other, in
states that any requests and sweeps may separate, while the set itself stays the same.  Put
end to end they are the first tuples that are not below the starting point, in order and each
once; enough pages are all of them. -/
theorem zquery_pages {history : Nat → List Event} {db : Nat → Db D} {key scoreArg name : Bytes}
    {offsetArg : Nat → Bytes} {limitArg : Bytes} {members : Members D} {score : D}
    {size count : Nat} (positive : 0 < size)
    (reached : ∀ index < count, Reached (history index) (db index))
    (isMembers : ∀ index < count,
      (Store.after (history index) : Store D).members key = some members)
    (small : members.keys.card < 2 ^ 31) (isScore : str2dbl D scoreArg = some score)
    (isOffset : ∀ index < count, str2int (offsetArg index) = some ((index * size : Nat) : Int))
    (isLimit : str2int limitArg = some ((2 * size : Nat) : Int)) :
    ∃ page : Nat → List (D ×ₗ Bytes),
      (∀ index < count, ∀ now out, Exec.Returns (RedisLite.doRequest (db index)
        [ascii "zquery", key, scoreArg, name, offsetArg index, limitArg] now out) fun result =>
          result.2 = out ++ (Value.arr (tupleValues (page index))).encode Dbl.bits) ∧
      (List.range count).flatMap page =
        (members.tuples.filter fun tuple => decide (toLex (score, name) ≤ tuple)).take
          (count * size) := by
  refine ⟨fun index => zquerySlice members.tuples score name ((index * size : Nat) : Int)
    ((2 * size : Nat) : Int), ?_, ?_⟩
  · intro index inside now out
    exact ((reached index inside).denotes.zquery_slice (isMembers index inside) small isScore
      (isOffset index inside) isLimit now out).mono fun result holds => holds.2
  · rw [← drop_countP_below members.pairwise_tuples, ← flatMap_pages]
    congr 1
    funext index
    exact zquerySlice_page _ _ _ _ positive

/-- The commands before each page, the last one first: a key is set after the first page. -/
def pagedCmds : Nat → List (List Bytes)
  | 0 => tiedCmds
  | _ + 1 => [ascii "set", ascii "k", ascii "v"] :: tiedCmds

/-- The history before each page. -/
def pagedHistory (index : Nat) : List Event := (pagedCmds index).map fun cmd => .request cmd 0

/-- Two pages of the members from the score 2 on. -/
theorem zquery_pages_tied : ∃ (db : Nat → Db Nat) (page : Nat → List (Nat ×ₗ Bytes)),
    (∀ index < 2, Reached (pagedHistory index) (db index)) ∧
    (∀ index < 2, ∃ after, doRequest (db index) [ascii "zquery", ascii "z", ascii "2", [],
        if index = 0 then ascii "0" else ascii "2", ascii "4"] 0 [] =
      .ok (after, (Value.arr (tupleValues (page index))).encode Dbl.bits)) ∧
    (List.range 2).flatMap page =
      [toLex (2, ascii "b"), toLex (2, ascii "c"), toLex (3, ascii "d")] := by
  have few : ∀ index, (pagedCmds index).length < 2 ^ 64
    | 0 => by decide
    | _ + 1 => (by decide : 5 < 2 ^ 64)
  choose db reached using fun index => exists_reached Nat (pagedCmds index) (few index)
  obtain ⟨members, isMembers, card, tuples⟩ := exists_tied
  have sameMembers : ∀ index,
      (Store.after (pagedHistory index) : Store Nat).members (ascii "z") = some members
    | 0 => isMembers
    | _ + 1 => (Store.members_congr (Store.apply_elsewhere _ _ (by decide))).trans isMembers
  obtain ⟨page, answers, whole⟩ := @zquery_pages Nat _ pagedHistory db (ascii "z") (ascii "2") []
    (fun index => if index = 0 then ascii "0" else ascii "2") (ascii "4") members (2 : Nat) 2 2
    (by decide) (fun index _ => reached index) (fun index _ => sameMembers index)
    (by rw [card]; decide) rfl (by decide) rfl
  refine ⟨db, page, fun index _ => reached index, fun index inside => ?_, ?_⟩
  · obtain ⟨⟨after, out⟩, call, written⟩ := answers index inside 0 []
    have written : out = _ := written
    exact ⟨after, by rw [call, written]; rfl⟩
  · rw [whole, tuples]
    decide

end RedisLite
