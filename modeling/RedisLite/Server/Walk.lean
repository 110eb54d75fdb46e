import RedisLite.Server.Commands
import RedisLite.Server.Store

/-!
# The nodes of ZQUERY

ZQUERY writes the names and scores of the nodes that it passes in the tree.
-/

namespace RedisLite

open Lib

variable {D : Type} [Dbl D]

/-- The name and the score of a node. -/
def ZNode.pair {D : Type} (cell : ZNode D) : Bytes × D := (cell.name, cell.score)

omit [Dbl D] in
/-- The nodes from a node on, in steps of one place, at most `count`. -/
def ZSet.walk (zset : ZSet D) : Nat → Option Ptr → Exec (List (ZNode D))
  | 0, _ => .ok []
  | _ + 1, none => .ok []
  | count + 1, some node => do
      let cell ← zset.node.read node
      let next ← zset.znodeOffset (some node) 1
      return cell :: (← zset.walk count next)

/-- The nodes that ZQUERY lists. -/
def zqueryNodes (zset : ZSet D) (score : D) (name : Bytes) (offset limit : Int) :
    Exec (List (ZNode D)) :=
  if limit ≤ 0 then .ok []
  else do
    let znode ← zset.zsetSeekge score name
    let znode ← zset.znodeOffset znode offset
    zset.walk ((limit.toNat + 1) / 2) znode

/-- The values that ZQUERY lists for nodes. -/
def nodeValues {D : Type} (cells : List (ZNode D)) : List (Value D) :=
  Store.pairValues (cells.map ZNode.pair)

omit [Dbl D] in
theorem length_nodeValues (cells : List (ZNode D)) :
    (nodeValues cells).length = 2 * cells.length := by
  induction cells with
  | nil => rfl
  | cons cell cells ih =>
      simp only [nodeValues, Store.pairValues, List.map_cons, List.flatMap_cons,
        List.length_append, List.length_cons, List.length_nil] at ih ⊢
      omega

/-- The output loop writes the nodes that it passes. -/
theorem zqueryLoop_walk (zset : ZSet D) (limit : Int) :
    ∀ (count fuel : Nat) (out : Bytes) (next : Option Ptr) (n : Nat),
      count = (limit.toNat + 1 - n) / 2 → count < fuel →
      loop (zqueryTurn zset limit) fuel ((out, next), n) =
        zset.walk count next >>= fun cells =>
          .ok (out ++ Value.encodeAll Dbl.bits (nodeValues cells), n + 2 * cells.length)
  | count, 0, _, _, _, _, below => absurd below (Nat.not_lt_zero count)
  | 0, fuel + 1, out, next, n, countEq, _ => by
      have turn : zqueryTurn zset limit ((out, next), n) = .ok (.done (out, n)) := by
        cases next with
        | none => rfl
        | some node => rw [zqueryTurn, if_neg (by omega), Exec.pure_eq_ok]
      rw [loop_done turn, ZSet.walk, Exec.ok_bind]
      simp [nodeValues, Store.pairValues, Value.encodeAll]
  | count + 1, fuel + 1, out, none, n, countEq, _ => by
      rw [loop_done (show zqueryTurn zset limit ((out, none), n) = .ok (.done (out, n)) from rfl),
        ZSet.walk, Exec.ok_bind]
      simp [nodeValues, Store.pairValues, Value.encodeAll]
  | count + 1, fuel + 1, out, some node, n, countEq, below => by
      rw [loop, zqueryTurn, if_pos (by omega), ZSet.walk]
      cases readEq : zset.node.read node with
      | error fault => rfl
      | ok cell =>
          cases offsetEq : zset.znodeOffset (some node) 1 with
          | error fault => rfl
          | ok next =>
              have rest := zqueryLoop_walk zset limit count fuel
                (outDbl Dbl.bits (outStr out cell.name) cell.score) next (n + 2) (by omega)
                (by omega)
              simp only [Exec.ok_bind, Exec.pure_eq_ok, rest]
              cases walkEq : zset.walk count next with
              | error fault => rfl
              | ok cells =>
                  simp only [Exec.ok_bind, nodeValues, List.map_cons, Store.pairValues,
                    List.flatMap_cons, Value.encodeAll_append, Value.encodeAll, ZNode.pair,
                    outDbl_eq, outStr_eq (D := D) Dbl.bits, List.append_assoc, List.length_cons]
                  simp
                  omega

/-- ZQUERY writes the nodes that it lists. -/
theorem zqueryOutput_nodes (zset : ZSet D) (score : D) (name : Bytes) (offset limit : Int)
    (out : Bytes) :
    zqueryOutput zset score name offset limit out =
      zqueryNodes zset score name offset limit >>= fun cells =>
        .ok (out ++ (Value.arr (nodeValues cells)).encode Dbl.bits) := by
  unfold zqueryOutput zqueryNodes
  by_cases empty : limit ≤ 0
  · have written := outArr_eq (Dbl.bits : D → UInt64) out []
    rw [if_pos empty, if_pos empty, Exec.ok_bind]
    simpa [Value.encodeAll, nodeValues, Store.pairValues] using written
  · rw [if_neg empty, if_neg empty]
    cases zset.zsetSeekge score name with
    | error fault => rfl
    | ok found =>
        cases offsetEq : zset.znodeOffset found offset with
        | error fault => simp only [Exec.ok_bind, offsetEq, Exec.error_bind]
        | ok first =>
            have loopEq := zqueryLoop_walk zset limit ((limit.toNat + 1) / 2) (limit.toNat + 1)
              (outBeginArr out).1 first 0 rfl (by omega)
            simp only [Exec.ok_bind, offsetEq, loopEq]
            cases zset.walk ((limit.toNat + 1) / 2) first with
            | error fault => rfl
            | ok cells =>
                simp only [Exec.ok_bind]
                rw [Nat.zero_add, ← length_nodeValues, outEndArr_eq]

end RedisLite
