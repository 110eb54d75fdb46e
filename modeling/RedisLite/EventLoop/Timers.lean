import RedisLite.EventLoop.Turns

/-!
# The idle timers

The idle list is in the order of the last activity, so the loop of `process_timers` that
stops at the first connection that is not expired destroys exactly the expired ones.
-/

namespace RedisLite

open Lib

variable {D : Type} [Dbl D]

/-- The connection has been inactive for the timeout. -/
def Conn.expired (now : UInt64) (value : Conn) : Bool :=
  decide (value.lastActiveMs.toNat + kIdleTimeoutMs.toNat ≤ now.toNat)

theorem Uptime.add_toNat {reading : UInt64} (uptime : Uptime reading) :
    (reading + kIdleTimeoutMs).toNat = reading.toNat + kIdleTimeoutMs.toNat := by
  unfold Uptime at uptime
  rw [UInt64.toNat_add, Nat.mod_eq_of_lt (by omega)]

theorem Conn.timeout_gt_iff {value : Conn} (uptime : Uptime value.lastActiveMs) (now : UInt64) :
    value.lastActiveMs + kIdleTimeoutMs > now ↔ value.expired now = false := by
  rw [GT.gt, UInt64.lt_iff_toNat_lt, uptime.add_toNat, Conn.expired, decide_eq_false_iff_not,
    Nat.not_le]

theorem Conn.expired_mono {value other : Conn} {now : UInt64}
    (ordered : value.lastActiveMs ≤ other.lastActiveMs) (fresh : value.expired now = false) :
    other.expired now = false := by
  rw [UInt64.le_iff_toNat_le] at ordered
  rw [Conn.expired, decide_eq_false_iff_not] at fresh ⊢
  omega

namespace GData.Sound

variable {g : GData D} {queue : List Ptr}

theorem length_le (sound : g.Sound queue) : queue.length ≤ g.idle.next := by
  apply Mem.length_le_next sound.linked.nodup
  intro conn member
  exact sound.linked.idle_live (List.mem_cons_of_mem _ member)

/-- The front of the idle list is what `idle_list.next` points to. -/
theorem idleTimeout_eq (sound : g.Sound queue) :
    match queue with
    | [] => idleTimeout g = .ok none
    | conn :: _ => ∃ value, g.conns.cell conn = some value ∧
        idleTimeout g = .ok (some (conn, value.lastActiveMs + kIdleTimeoutMs)) := by
  have ring := sound.linked.ring
  cases queue with
  | nil =>
      simp only [idleTimeout, dlistEmpty_spec ring, Exec.ok_bind]
      rfl
  | cons conn rest =>
      obtain ⟨value, live⟩ := (sound.linked.live conn).mpr List.mem_cons_self
      obtain ⟨cell, read, next⟩ := read_next ring.next_head
      have next : cell.next = some conn := next
      refine ⟨value, live, ?_⟩
      simp only [idleTimeout, dlistEmpty_spec ring, Exec.ok_bind, read, next, Exec.deref_some,
        Mem.read_eq live]
      rfl

/-- If the front of the idle list is not expired, no connection is. -/
theorem not_expired (sound : g.Sound queue) {now : UInt64}
    (front : ∀ conn ∈ queue.head?, ∀ value, g.conns.cell conn = some value →
      value.expired now = false) {conn : Ptr} {value : Conn}
    (live : g.conns.cell conn = some value) : value.expired now = false := by
  have member := (sound.linked.live conn).mp ⟨value, live⟩
  cases queue with
  | nil => cases member
  | cons first rest =>
      rcases List.mem_cons.mp member with rfl | member
      · exact front conn rfl value live
      · obtain ⟨firstValue, firstLive⟩ := (sound.linked.live first).mpr List.mem_cons_self
        have ordered :=
          List.rel_of_pairwise_cons sound.sorted member firstValue value firstLive live
        exact Conn.expired_mono ordered (front first rfl firstValue firstLive)

/-- The turns that are left destroy exactly the expired connections. -/
theorem processIdle_loop (now : UInt64) (sound : g.Sound queue) (isOpen : g.OpenBut none) :
    ∀ {fuel : Nat}, queue.length < fuel →
      Exec.Returns (loop (processIdleTurn now) fuel g) fun after =>
        (∃ queue, after.Sound queue) ∧ after.OpenBut none ∧ after.store = g.store ∧
        after.journal = g.journal ∧
        ∀ conn, after.conns.cell conn = (g.conns.cell conn).filter fun value =>
          !value.expired now := by
  have stop : ∀ {g : GData D} {queue : List Ptr}, g.Sound queue → g.OpenBut none →
      (∀ conn ∈ queue.head?, ∀ value, g.conns.cell conn = some value →
        value.expired now = false) →
      (∃ queue, g.Sound queue) ∧ g.OpenBut none ∧ g.store = g.store ∧ g.journal = g.journal ∧
        ∀ conn, g.conns.cell conn = (g.conns.cell conn).filter fun value =>
          !value.expired now := by
    intro g queue sound isOpen front
    refine ⟨⟨queue, sound⟩, isOpen, rfl, rfl, fun conn => ?_⟩
    cases found : g.conns.cell conn with
    | none => rfl
    | some value => rw [Option.filter_some, sound.not_expired front found]; rfl
  induction queue generalizing g with
  | nil =>
      intro fuel below
      obtain ⟨fuel, rfl⟩ := Nat.exists_eq_add_one_of_ne_zero (Nat.ne_of_gt below)
      have turn : processIdleTurn now g = .ok (.done g) := by
        simp only [processIdleTurn, sound.idleTimeout_eq, Exec.ok_bind, Exec.pure_eq_ok]
      rw [loop_done turn, Exec.returns_ok]
      exact stop sound isOpen nofun
  | cons conn rest ih =>
      intro fuel below
      have positive := Nat.zero_lt_of_lt below
      obtain ⟨fuel, rfl⟩ := Nat.exists_eq_add_one_of_ne_zero (Nat.ne_of_gt positive)
      obtain ⟨value, live, timeoutEq⟩ := sound.idleTimeout_eq
      have compare := Conn.timeout_gt_iff (sound.uptime conn value live) now
      by_cases fresh : value.lastActiveMs + kIdleTimeoutMs > now
      · have turn : processIdleTurn now g = .ok (.done g) := by
          simp only [processIdleTurn, timeoutEq, Exec.ok_bind, if_pos fresh, Exec.pure_eq_ok]
        rw [loop_done turn, Exec.returns_ok]
        apply stop sound isOpen
        intro other isFront otherValue otherLive
        cases isFront
        rw [live] at otherLive
        cases otherLive
        exact compare.mp fresh
      · obtain ⟨middle, destroyEq, middleSound, conns, -, store, journal⟩ :=
          @connDestroy _ _ _ [] rest conn value sound live
        have turn : processIdleTurn now g = .ok (.next middle) := by
          simp only [processIdleTurn, timeoutEq, Exec.ok_bind, if_neg fresh, destroyEq,
            Exec.pure_eq_ok]
        have middleOpen : middle.OpenBut none := by
          intro query other but found
          rw [conns, Mem.drop_cell] at found
          split at found
          · cases found
          · exact isOpen query other but found
        rw [loop_next turn]
        apply (ih middleSound middleOpen (Nat.lt_of_succ_lt_succ below)).mono
        rintro after ⟨afterSound, afterOpen, afterStore, afterJournal, cells⟩
        refine ⟨afterSound, afterOpen, afterStore.trans store, afterJournal.trans journal, ?_⟩
        intro query
        rw [cells, conns, Mem.drop_cell]
        split
        · rename_i same
          have expired : value.expired now = true := by
            rw [← Bool.not_eq_false, ← compare]
            exact fresh
          rw [same, live, Option.filter_some, expired]
          rfl
        · rfl

/-- The first loop of `process_timers` destroys exactly the expired connections. -/
theorem processIdle (sound : g.Sound queue) (isOpen : g.OpenBut none) (now : UInt64) :
    Exec.Returns (processIdle g now) fun after =>
      (∃ queue, after.Sound queue) ∧ after.OpenBut none ∧ after.store = g.store ∧
      after.journal = g.journal ∧
      ∀ conn, after.conns.cell conn = (g.conns.cell conn).filter fun value =>
        !value.expired now :=
  sound.processIdle_loop now isOpen (Nat.lt_succ_of_le sound.length_le)

/-- `process_timers` destroys exactly the expired connections and sweeps the database. -/
theorem processTimers (sound : g.Sound queue) (isOpen : g.OpenBut none) {now : UInt64}
    (later : g.Later now) :
    Exec.Returns (processTimers g now) fun after =>
      (∃ queue, after.Sound queue) ∧ after.OpenBut none ∧
      RedisLite.processTtl g.store now = .ok after.store ∧
      after.journal = ⟨.sweep (g.store.evicted after.store) now :: g.journal.history, now⟩ ∧
      ∀ conn, after.conns.cell conn = (g.conns.cell conn).filter fun value =>
        !value.expired now := by
  obtain ⟨middle, idleEq, ⟨queue, middleSound⟩, middleOpen, store, journal, cells⟩ :=
    sound.processIdle isOpen now
  obtain ⟨swept, sweepEq, -, reached⟩ := sound.reached.sweeps later.clock_le
  simp only [RedisLite.processTimers, idleEq, Exec.ok_bind, store, sweepEq, journal,
    Exec.pure_eq_ok, Exec.returns_ok]
  refine ⟨⟨queue, ?_, middleSound.sorted, ?_, middleSound.uptime, reached, ?_⟩, middleOpen,
    trivial, trivial, cells⟩
  · exact middleSound.linked.congr rfl rfl rfl
  · intro conn value found
    have recent := middleSound.recent conn value found
    rw [journal] at recent
    exact UInt64.le_trans recent later.readMs_le
  · intro conn value found
    have old := middleSound.sound conn value found
    rw [journal] at old
    exact old.mono (List.suffix_cons _ _)

end GData.Sound

end RedisLite
