import RedisLite.Server.SortedSets
import RedisLite.Server.Sweep

/-!
# Runs of the database

A run interleaves requests and calls of `process_timers` in any way, from the empty
database, with a clock that never goes back.  Its history, most recent event first,
determines the store the database stands for.
-/

namespace RedisLite

open Lib

/-! ## Histories -/

/-- An event of a run: a request, or a sweep with the keys it evicted. -/
inductive Event where
  | request (cmd : List Bytes) (now : UInt64)
  | sweep (evicted : List Bytes) (now : UInt64)

/-- The clock reading of an event. -/
def Event.now : Event → UInt64
  | .request _ now => now
  | .sweep _ now => now

/-- The last clock reading of a history. -/
def clock : List Event → UInt64
  | [] => 0
  | event :: _ => event.now

variable {D : Type} [Dbl D]

/-- The store after a history: every request has its effect, and the keys a sweep
evicted are removed. -/
def Store.after : List Event → Store D
  | [] => ∅
  | .request cmd now :: earlier => (Store.after earlier).apply now.toNat (Request.ofCmd cmd)
  | .sweep evicted _ :: earlier => (Store.after earlier).evict evicted

/-- The databases that runs reach, with their histories. -/
inductive Reached : List Event → Db D → Prop where
  | start : Reached [] {}
  | request {history : List Event} {db after : Db D} {out outAfter : Bytes} (cmd : List Bytes)
      (now : UInt64) (reached : Reached history db) (later : clock history ≤ now)
      (fits : (Store.after history : Store D).Fits)
      (call : doRequest db cmd now out = .ok (after, outAfter)) :
      Reached (.request cmd now :: history) after
  | sweep {history : List Event} {db after : Db D} (now : UInt64) (reached : Reached history db)
      (later : clock history ≤ now) (call : processTtl db now = .ok after) :
      Reached (.sweep (db.evicted after) now :: history) after

theorem Db.Denotes.sweep {db after : Db D} {store : Store D} (denotes : db.Denotes store)
    {now : UInt64} (call : RedisLite.processTtl db now = .ok after) :
    after.Denotes (store.evict (db.evicted after)) := by
  obtain ⟨keys, sweeping⟩ := (denotes.processTtl now).of_eq_ok call
  rw [sweeping.evict_eq denotes]
  exact sweeping.denotes

/-- A reached database stands for the store of its history. -/
theorem Reached.denotes {history : List Event} {db : Db D} (reached : Reached history db) :
    db.Denotes (Store.after history) := by
  induction reached with
  | start => exact .empty
  | request cmd now _ _ fits call ih => exact ((ih.doRequest fits cmd now _).of_eq_ok call).1
  | sweep now _ _ call ih => exact ih.sweep call

/-! ## Requests -/

namespace Reached

variable {history : List Event} {db : Db D} {now : UInt64}

/-- Every request is served, and the run goes on. -/
theorem serves (reached : Reached history db) (fits : (Store.after history : Store D).Fits)
    (later : clock history ≤ now) (cmd : List Bytes) (out : Bytes) :
    Exec.Returns (doRequest db cmd now out) fun result =>
      Serves (Store.after history) now (Request.ofCmd cmd) out result ∧
        Reached (.request cmd now :: history) result.1 := by
  obtain ⟨⟨after, outAfter⟩, call, serves⟩ := reached.denotes.doRequest fits cmd now out
  exact ⟨_, call, serves, .request cmd now reached later fits call⟩

theorem sweeps (reached : Reached history db) (later : clock history ≤ now) :
    Exec.Returns (processTtl db now) fun after =>
      after.Denotes ((Store.after history).evict (db.evicted after)) ∧
        Reached (.sweep (db.evicted after) now :: history) after := by
  obtain ⟨after, call, -⟩ := reached.denotes.processTtl now
  exact ⟨after, call, reached.denotes.sweep call, .sweep now reached later call⟩

end Reached

/-- `do_request` refines the finite map.  After any history of requests and sweeps,
every request returns, its response is the answer of the map at the keys, values,
members and scores that the history left, and the run goes on with the map after the
request; and a sweep returns, removing the evicted keys from the map. -/
theorem requests_refine_store {history : List Event} {db : Db D} (reached : Reached history db)
    (fits : (Store.after history : Store D).Fits) (now : UInt64) (later : clock history ≤ now) :
    (∀ cmd out, Exec.Returns (doRequest db cmd now out) fun result =>
      Serves (Store.after history) now (Request.ofCmd cmd) out result ∧
        Reached (.request cmd now :: history) result.1) ∧
    Exec.Returns (processTtl db now) fun after =>
      after.Denotes ((Store.after history).evict (db.evicted after)) ∧
        Reached (.sweep (db.evicted after) now :: history) after :=
  ⟨reached.serves fits later, reached.sweeps later⟩

/-- A zadd, and the score it stores. -/
theorem requests_refine_store_zadd :
    ∃ db : Db Nat, Reached [.request [ascii "zadd", ascii "z", ascii "1", ascii "a"] 0] db ∧
      ∃ after, doRequest db [ascii "zscore", ascii "z", ascii "a"] 0 [] =
        .ok (after, (Value.dbl 1).encode Dbl.bits) := by
  have fresh : Reached [] ({} : Db Nat) := .start
  obtain ⟨⟨db, out⟩, -, -, reached⟩ :=
    (requests_refine_store fresh Store.fits_empty 0 (by decide)).1
      [ascii "zadd", ascii "z", ascii "1", ascii "a"] []
  have fits : (Store.after [.request [ascii "zadd", ascii "z", ascii "1", ascii "a"] 0] :
      Store Nat).Fits := by
    refine Store.fits_empty.write (ascii "z") ?_
    intro members same
    cases same
    decide
  obtain ⟨⟨after, outAfter⟩, call, ⟨-, value, answers, written⟩, -⟩ :=
    (requests_refine_store reached fits 0 (by decide)).1
      [ascii "zscore", ascii "z", ascii "a"] []
  have isScore : value = .dbl 1 := answers
  rw [isScore] at written
  exact ⟨db, reached, after, by rw [call, show outAfter = _ from written, List.nil_append]⟩

end RedisLite
