import RedisLite.HashTable.Foreach
import RedisLite.Server.Capacity

/-!
# Enumerating the keys

The response of KEYS starts with a count that is taken from the sizes of the two tables and
goes on with one string for each node that the walk over the tables meets.
-/

namespace RedisLite

open Lib

/-- The array of KEYS: a count field and as many strings, which are the keys of the store,
each once. -/
def ListsKeys {D : Type} [Dbl D] (store : Store D) (array : Bytes) : Prop :=
  ∃ (count : Bytes) (keys : List Bytes),
    array = tagArr :: count ++ Value.encodeAll Dbl.bits (keys.map (Value.str : Bytes → Value D)) ∧
    count.length = 4 ∧ LittleEndian.decode count = keys.length ∧
    keys.Nodup ∧ ∀ key, key ∈ keys ↔ key ∈ store

/-- In a database with fewer than 2^32 keys the count of KEYS is exact. -/
theorem Db.Denotes.listsKeys {D : Type} [Dbl D] {db : Db D} {store : Store D}
    (denotes : db.Denotes store) (few : store.keys.card < 2 ^ 32) (out : Bytes) :
    Exec.Returns (RedisLite.doKeys db out) fun result =>
      ∃ array, result.2 = out ++ array ∧ ListsKeys store array := by
  obtain ⟨result, call, -, value, ⟨keys, nodup, member, rfl⟩, written⟩ := denotes.doKeys out 0
  have card : keys.length = store.keys.card := by
    rw [← List.toFinset_card_of_nodup nodup]
    congr 1
    ext key
    rw [List.mem_toFinset, Finmap.mem_keys, member]
  refine ⟨result, call, _, written, LittleEndian.encode 4 keys.length, keys, ?_,
    LittleEndian.length_encode _ _, LittleEndian.decode_encode_of_lt (by omega), nodup, member⟩
  rw [Value.encode, List.length_map]

/-- `hm_foreach` calls an always true callback once on each live node, as many as `hm_size`
says, and any other callback on the same nodes up to and including the first one that
returns false.  Hence the array that KEYS writes has a count equal to the number of its
strings, which are the live keys, each once. -/
theorem foreach_enumerates {α σ D : Type} [DecidableEq α] [Dbl D] :
    (∀ (nodes : List (HNode α)) (hmap : HMap α), HMap.Reached nodes hmap →
      ∀ (f : HNode α → σ → Bool × σ) (arg : σ),
        ∃ argAfter log goOn, hmForeach hmap (logged f) (arg, []) = .ok (argAfter, log) ∧
          Walked hmap.nodes log goOn ∧ hmap.nodes.Perm nodes ∧
          ((∀ node arg, (f node arg).1 = true) →
            log.map Prod.fst = hmap.nodes ∧ log.length = hmSize hmap)) ∧
    ∀ (history : List Event) (db : Db D), Reached history db →
      (Store.after history : Store D).keys.card < 2 ^ 32 → ∀ out,
        Exec.Returns (doKeys db out) fun result =>
          ∃ array, result.2 = out ++ array ∧ ListsKeys (Store.after history : Store D) array := by
  constructor
  · intro nodes hmap reached f arg
    obtain ⟨loaded, perm⟩ := reached.loaded
    obtain ⟨argAfter, log, goOn, call, walked, answered⟩ :=
      hmForeach_walks (f := f) loaded.valid arg
    refine ⟨argAfter, log, goOn, call, walked, perm, fun always => ?_⟩
    cases goOn with
    | false =>
        obtain ⟨node, other, isFalse⟩ := answered rfl
        rw [always node other] at isFalse
        cases isFalse
    | true =>
        have all : log = hmap.nodes.map fun node => (node, true) := walked
        constructor
        · rw [all, List.map_map]
          exact List.map_id _
        · rw [all, List.length_map, loaded.valid.hmSize_eq]
  · intro history db reached few out
    exact reached.denotes.listsKeys few out

/-- A map in the middle of a migration, and a database with two keys. -/
theorem foreach_enumerates_migrating :
    (∃ (hmap : HMap Nat) (argAfter : Nat) (log : List (HNode Nat × Bool)),
      HMap.Reached (numbered 256).reverse hmap ∧ hmap.newer.size = 128 ∧ hmap.older.size = 128 ∧
      hmForeach hmap (logged fun _ count => (true, count + 1)) (0, []) = .ok (argAfter, log) ∧
      (log.map Prod.fst).Perm (numbered 256).reverse ∧ log.length = 256) ∧
    ∃ (history : List Event) (db : Db Nat), Reached history db ∧
      (Store.after history : Store Nat).keys = {ascii "j", ascii "k"} ∧
      Exec.Returns (doKeys db []) fun result =>
        ∃ array, result.2 = [] ++ array ∧ ListsKeys (Store.after history : Store Nat) array := by
  constructor
  · obtain ⟨hmap, inserts, newer, older, -⟩ := hmInsertAll_migrating
    have reached : HMap.Reached (numbered 256).reverse hmap := by
      have reached := HMap.Reached.insertAll .empty inserts
      rwa [List.append_nil] at reached
    obtain ⟨argAfter, log, goOn, call, -, perm, all⟩ :=
      (@foreach_enumerates Nat Nat Nat _ _).1 _ _ reached (fun _ count => (true, count + 1)) 0
    obtain ⟨nodes, count⟩ := all fun _ _ => rfl
    refine ⟨hmap, argAfter, log, reached, newer, older, call, by rw [nodes]; exact perm, ?_⟩
    rw [count, hmSize, newer, older]
  · obtain ⟨db, reached⟩ := exists_reached Nat [[ascii "set", ascii "j", ascii "w"],
      [ascii "set", ascii "k", ascii "v"]] (by decide)
    have keys : (Store.after [.request [ascii "set", ascii "j", ascii "w"] 0,
        .request [ascii "set", ascii "k", ascii "v"] 0] : Store Nat).keys =
          {ascii "j", ascii "k"} := by decide
    refine ⟨_, db, reached, keys, ?_⟩
    exact (@foreach_enumerates Nat Nat Nat _ _).2 _ _ reached
      ((congrArg Finset.card keys).trans_lt (by decide)) []

end RedisLite
