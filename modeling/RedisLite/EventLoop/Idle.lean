import RedisLite.EventLoop.Core
import RedisLite.Lib.Ring

/-!
# The connections and the idle list

`GData.Linked` is the bookkeeping of the connections: `idle_list` is a ring of the nodes of
the live connections, and `fd2conn` maps the descriptor of every live connection to it.
Accepting, refreshing and destroying a connection keep it.
-/

namespace RedisLite

open Lib

/-! ## Links in memory -/

/-- The `next` field of a list node. -/
def nextOf (mem : Mem DList) (node : Ptr) : Option Ptr := (mem.cell node).bind DList.next

/-- The `prev` field of a list node. -/
def prevOf (mem : Mem DList) (node : Ptr) : Option Ptr := (mem.cell node).bind DList.prev

/-- The same list nodes are allocated. -/
structure SameNodes (mem after : Mem DList) : Prop where
  live : ∀ node, (∃ cell, after.cell node = some cell) ↔ ∃ cell, mem.cell node = some cell
  next : after.next = mem.next

section

variable {mem middle after : Mem DList} {node head : Ptr} {cell : DList}

theorem SameNodes.trans (first : SameNodes mem middle) (second : SameNodes middle after) :
    SameNodes mem after :=
  ⟨fun node => (second.live node).trans (first.live node), second.next.trans first.next⟩

theorem SameNodes.put (live : mem.cell node = some cell) (value : DList) :
    SameNodes mem (mem.put node value) where
  live := by
    intro query
    rw [Mem.put_cell]
    split
    · rename_i same
      subst same
      exact ⟨fun _ => ⟨cell, live⟩, fun _ => ⟨value, rfl⟩⟩
    · exact Iff.rfl
  next := Mem.put_next (Mem.lt_next live) value

theorem nextOf_put (mem : Mem DList) (node : Ptr) (value : DList) :
    nextOf (mem.put node value) = Function.update (nextOf mem) node value.next := by
  funext query
  rw [Function.update_apply, nextOf, Mem.put_cell]
  split <;> rfl

theorem prevOf_put (mem : Mem DList) (node : Ptr) (value : DList) :
    prevOf (mem.put node value) = Function.update (prevOf mem) node value.prev := by
  funext query
  rw [Function.update_apply, prevOf, Mem.put_cell]
  split <;> rfl

theorem modify_next (live : ∃ cell, mem.cell node = some cell) (target : Option Ptr) :
    Exec.Returns (mem.modify node fun cell => { cell with next := target }) fun after =>
      SameNodes mem after ∧ nextOf after = Function.update (nextOf mem) node target ∧
        prevOf after = prevOf mem := by
  obtain ⟨cell, live⟩ := live
  rw [Mem.modify_eq live, Exec.returns_ok]
  refine ⟨.put live _, nextOf_put .., ?_⟩
  have same : prevOf mem node = cell.prev := by rw [prevOf, live]; rfl
  rw [prevOf_put, ← same, Function.update_eq_self]

theorem modify_prev (live : ∃ cell, mem.cell node = some cell) (target : Option Ptr) :
    Exec.Returns (mem.modify node fun cell => { cell with prev := target }) fun after =>
      SameNodes mem after ∧ nextOf after = nextOf mem ∧
        prevOf after = Function.update (prevOf mem) node target := by
  obtain ⟨cell, live⟩ := live
  rw [Mem.modify_eq live, Exec.returns_ok]
  refine ⟨.put live _, ?_, prevOf_put ..⟩
  have same : nextOf mem node = cell.next := by rw [nextOf, live]; rfl
  rw [nextOf_put, ← same, Function.update_eq_self]

theorem read_next {target : Ptr} (link : nextOf mem node = some target) :
    ∃ cell, mem.read node = .ok cell ∧ cell.next = some target := by
  obtain ⟨cell, live, next⟩ := Option.bind_eq_some_iff.mp link
  exact ⟨cell, Mem.read_eq live, next⟩

theorem read_prev {target : Ptr} (link : prevOf mem node = some target) :
    ∃ cell, mem.read node = .ok cell ∧ cell.prev = some target := by
  obtain ⟨cell, live, prev⟩ := Option.bind_eq_some_iff.mp link
  exact ⟨cell, Mem.read_eq live, prev⟩

/-! ## List functions -/

/-- `dlist_empty` tells whether the ring has no nodes. -/
theorem dlistEmpty_spec {nodes : List Ptr} (ring : Ring (nextOf mem) (prevOf mem) head nodes) :
    dlistEmpty mem head = .ok nodes.isEmpty := by
  obtain ⟨cell, read, next⟩ := read_next ring.next_head
  simp only [dlistEmpty, read, Exec.ok_bind, Exec.pure_eq_ok, next]
  cases nodes with
  | nil => simp
  | cons first rest =>
      have different : first ≠ head := by
        intro same
        apply ring.head_notMem
        rw [same]
        exact List.mem_cons_self
      simp [different]

/-- `dlist_detach` unlinks a node. -/
theorem dlistDetach_spec {front back : List Ptr}
    (ring : Ring (nextOf mem) (prevOf mem) head (front ++ node :: back))
    (nodes : ∀ other ∈ head :: (front ++ node :: back), ∃ cell, mem.cell other = some cell) :
    Exec.Returns (dlistDetach mem node) fun after =>
      Ring (nextOf after) (prevOf after) head (front ++ back) ∧ SameNodes mem after := by
  obtain ⟨before, behind, prevEq, nextEq, beforeMem, behindMem, ringAfter⟩ := ring.detach
  obtain ⟨cell, live, cellPrev⟩ := Option.bind_eq_some_iff.mp prevEq
  have cellNext : cell.next = some behind := by
    rw [nextOf, live] at nextEq
    exact nextEq
  have beforeLive : ∃ cell, mem.cell before = some cell := by
    apply nodes
    simp only [List.mem_cons, List.mem_append] at beforeMem ⊢
    tauto
  have behindLive : ∃ cell, mem.cell behind = some cell := by
    apply nodes
    simp only [List.mem_cons, List.mem_append, List.not_mem_nil, or_false] at behindMem ⊢
    tauto
  obtain ⟨middle, middleEq, middleSame, middleNext, middlePrev⟩ :=
    modify_next beforeLive (some behind)
  obtain ⟨after, afterEq, afterSame, afterNext, afterPrev⟩ :=
    modify_prev ((middleSame.live behind).mpr behindLive) (some before)
  simp only [dlistDetach, Mem.read_eq live, Exec.ok_bind, cellPrev, cellNext, Exec.deref_some,
    middleEq, afterEq, Exec.returns_ok]
  constructor
  · rw [afterNext, afterPrev, middleNext, middlePrev]
    exact ringAfter
  · exact middleSame.trans afterSame

/-- `dlist_insert_before` the head links a node at the end. -/
theorem dlistInsertBefore_spec {nodes : List Ptr}
    (ring : Ring (nextOf mem) (prevOf mem) head nodes) (fresh : node ∉ head :: nodes)
    (live : ∀ node ∈ head :: nodes, ∃ cell, mem.cell node = some cell)
    (rookieLive : ∃ cell, mem.cell node = some cell) :
    Exec.Returns (dlistInsertBefore mem head node) fun after =>
      Ring (nextOf after) (prevOf after) head (nodes ++ [node]) ∧ SameNodes mem after := by
  obtain ⟨last, prevEq, lastMem, ringAfter⟩ := ring.insertBefore fresh
  obtain ⟨cell, read, cellPrev⟩ := read_prev prevEq
  obtain ⟨first, firstEq, firstSame, firstNext, firstPrev⟩ :=
    modify_next (live last lastMem) (some node)
  obtain ⟨second, secondEq, secondSame, secondNext, secondPrev⟩ :=
    modify_prev ((firstSame.live node).mpr rookieLive) (some last)
  have same := firstSame.trans secondSame
  obtain ⟨third, thirdEq, thirdSame, thirdNext, thirdPrev⟩ :=
    modify_next ((same.live node).mpr rookieLive) (some head)
  have same := same.trans thirdSame
  obtain ⟨after, afterEq, afterSame, afterNext, afterPrev⟩ :=
    modify_prev ((same.live head).mpr (live head List.mem_cons_self)) (some node)
  simp only [dlistInsertBefore, read, Exec.ok_bind, cellPrev, Exec.deref_some, firstEq, secondEq,
    thirdEq, afterEq, Exec.returns_ok]
  constructor
  · rw [afterNext, afterPrev, thirdNext, thirdPrev, secondNext, secondPrev, firstNext, firstPrev]
    exact ringAfter
  · exact same.trans afterSame

end

/-! ## Bookkeeping -/

variable {D : Type}

/-- `idle_list` is the ring of `queue`, the live connections, and the table holds them. -/
structure GData.Linked (g : GData D) (queue : List Ptr) : Prop where
  ring : Ring (nextOf g.idle) (prevOf g.idle) idleList queue
  nodes : ∀ node, (∃ cell, g.idle.cell node = some cell) ↔ node ∈ idleList :: queue
  live : ∀ conn, (∃ value, g.conns.cell conn = some value) ↔ conn ∈ queue
  table : ∀ conn value, g.conns.cell conn = some value →
    g.fd2conn[value.fd]? = some (some conn)
  owned : ∀ (fd conn : Nat), g.fd2conn[fd]? = some (some conn) →
    ∃ value, g.conns.cell conn = some value ∧ value.fd = fd

/-- The descriptor is not that of a live connection. -/
def GData.NotOpen (g : GData D) (fd : Nat) : Prop :=
  ∀ conn value, g.conns.cell conn = some value → value.fd ≠ fd

namespace GData.Linked

variable {g after : GData D} {queue front back : List Ptr} {conn : Ptr} {value : Conn}

theorem init : Exec.Returns (GData.init D) fun g =>
    g.Linked [] ∧ g.store = {} ∧ g.conns = .empty ∧ g.journal = {} := by
  have live : ((.empty : Mem DList).put (.empty : Mem DList).next {}).cell idleList = some {} := rfl
  simp only [GData.init, Mem.alloc, dlistInit, Mem.write_eq live, Exec.ok_bind, Exec.pure_eq_ok,
    Exec.returns_ok, and_true]
  refine ⟨.nil rfl rfl, ?_, ?_, ?_, ?_⟩
  · intro node
    simp only [Mem.put_cell, Mem.empty_cell, List.mem_singleton]
    by_cases isHead : node = idleList
    · simp [isHead]
    · simp [isHead, show node ≠ Mem.empty.next from isHead]
  · simp
  · simp
  · simp

theorem nodup (linked : g.Linked queue) : queue.Nodup := (List.nodup_cons.mp linked.ring.nodup).2

theorem congr (linked : g.Linked queue) (idle : after.idle = g.idle)
    (conns : after.conns = g.conns) (fd2conn : after.fd2conn = g.fd2conn) :
    after.Linked queue := by
  obtain ⟨ring, nodes, live, table, owned⟩ := linked
  constructor
  · rwa [idle]
  · rwa [idle]
  · rwa [conns]
  · rwa [conns, fd2conn]
  · rwa [conns, fd2conn]

/-- Replacing the contents of a connection. -/
theorem put (linked : g.Linked queue) (live : g.conns.cell conn = some value) {new : Conn}
    (fd : new.fd = value.fd) (idle : after.idle = g.idle)
    (conns : after.conns = g.conns.put conn new) (fd2conn : after.fd2conn = g.fd2conn) :
    after.Linked queue where
  ring := by rw [idle]; exact linked.ring
  nodes := by rw [idle]; exact linked.nodes
  live := by
    intro query
    rw [conns, Mem.put_cell, ← linked.live query]
    split
    · rename_i same
      subst same
      exact ⟨fun _ => ⟨value, live⟩, fun _ => ⟨new, rfl⟩⟩
    · exact Iff.rfl
  table := by
    intro query other found
    rw [conns, Mem.put_cell] at found
    rw [fd2conn]
    split at found
    · rename_i same
      cases found
      rw [same, fd]
      exact linked.table conn value live
    · exact linked.table query other found
  owned := by
    intro fd query slot
    rw [fd2conn] at slot
    obtain ⟨other, found, fdEq⟩ := linked.owned fd query slot
    rw [conns, Mem.put_cell]
    split
    · rename_i same
      subst same
      rw [live] at found
      cases found
      exact ⟨new, rfl, by rw [← fdEq]; assumption⟩
    · exact ⟨other, found, fdEq⟩

theorem idle_live (linked : g.Linked queue) (member : conn ∈ idleList :: queue) :
    ∃ cell, g.idle.cell conn = some cell := (linked.nodes conn).mpr member

/-- `conn_destroy` removes a connection. -/
theorem connDestroy (linked : g.Linked (front ++ conn :: back))
    (live : g.conns.cell conn = some value) :
    Exec.Returns (connDestroy g conn) fun after =>
      after.Linked (front ++ back) ∧ after.conns = g.conns.drop conn ∧
      after.fd2conn = g.fd2conn.set value.fd none ∧ after.store = g.store ∧
      after.journal = g.journal := by
  have slot := linked.table conn value live
  have bound : value.fd < g.fd2conn.length := (List.getElem?_eq_some_iff.mp slot).1
  obtain ⟨detached, detachEq, ring, same⟩ :=
    dlistDetach_spec linked.ring fun node member => linked.idle_live member
  obtain ⟨cell, cellLive⟩ := (same.live conn).mpr (linked.idle_live (by simp))
  simp only [RedisLite.connDestroy, Mem.read_eq live, Exec.ok_bind, setConn, if_pos bound,
    detachEq, Mem.free_eq cellLive, Mem.free_eq live, Exec.pure_eq_ok, Exec.returns_ok, and_true]
  have notHead : conn ≠ idleList := by
    rintro rfl
    exact linked.ring.head_notMem (by simp)
  have split : ∀ query, query ∈ front ++ back ↔ query ∈ front ++ conn :: back ∧ query ≠ conn := by
    intro query
    have apart : conn ∉ front ++ back := by
      have nodup := List.nodup_middle.mp linked.nodup
      exact (List.nodup_cons.mp nodup).1
    constructor
    · intro member
      refine ⟨?_, fun isConn => apart (isConn ▸ member)⟩
      simp only [List.mem_append, List.mem_cons] at member ⊢
      tauto
    · rintro ⟨member, different⟩
      simp only [List.mem_append, List.mem_cons] at member ⊢
      tauto
  refine ⟨ring.congr ?_ ?_, ?_, ?_, ?_, ?_⟩
  · intro node member
    have other : node ≠ conn := by
      rcases List.mem_cons.mp member with rfl | member
      · exact notHead.symm
      · exact ((split node).mp member).2
    simp [nextOf, other]
  · intro node member
    have other : node ≠ conn := by
      rcases List.mem_cons.mp member with rfl | member
      · exact notHead.symm
      · exact ((split node).mp member).2
    simp [prevOf, other]
  · intro node
    rw [Mem.drop_cell, List.mem_cons, split]
    by_cases isConn : node = conn
    · simp [isConn, notHead]
    · rw [if_neg isConn, same.live, linked.nodes, List.mem_cons]
      simp [isConn]
  · intro query
    rw [Mem.drop_cell, split]
    by_cases isConn : query = conn
    · simp [isConn]
    · rw [if_neg isConn, linked.live]
      simp [isConn]
  · intro query other found
    rw [Mem.drop_cell] at found
    split at found
    · cases found
    · rename_i isOther
      have otherSlot := linked.table query other found
      rw [List.getElem?_set_ne, otherSlot]
      intro sameFd
      rw [sameFd, otherSlot] at slot
      cases slot
      exact isOther rfl
  · intro fd query found
    rw [List.getElem?_set] at found
    split at found
    · cases found
    · rename_i otherFd
      obtain ⟨other, otherLive, fdEq⟩ := linked.owned fd query found
      refine ⟨other, ?_, fdEq⟩
      rw [Mem.drop_cell, if_neg, otherLive]
      rintro rfl
      rw [live] at otherLive
      cases otherLive
      exact otherFd fdEq

/-- Detaching a node and inserting it before the head moves it to the end. -/
theorem requeue (linked : g.Linked (front ++ conn :: back)) :
    ∃ detached after, dlistDetach g.idle conn = .ok detached ∧
      dlistInsertBefore detached idleList conn = .ok after ∧
      Ring (nextOf after) (prevOf after) idleList (front ++ back ++ [conn]) ∧
      SameNodes g.idle after := by
  obtain ⟨detached, detachEq, ring, same⟩ :=
    dlistDetach_spec linked.ring fun node member => linked.idle_live member
  have nodup := linked.ring.nodup
  have fresh : conn ∉ idleList :: (front ++ back) := by
    rw [← List.cons_append, List.nodup_middle, List.cons_append] at nodup
    exact (List.nodup_cons.mp nodup).1
  obtain ⟨after, insertEq, ringAfter, sameAfter⟩ := dlistInsertBefore_spec ring fresh
    (fun node member => (same.live node).mpr (linked.idle_live (by
      simp only [List.mem_cons, List.mem_append] at member ⊢
      tauto)))
    ((same.live conn).mpr (linked.idle_live (by simp)))
  exact ⟨detached, after, detachEq, insertEq, ringAfter, same.trans sameAfter⟩

theorem resizeFor_eq_some {fd2conn : List (Option Ptr)} {fd query : Nat} {conn : Ptr} :
    (resizeFor fd2conn fd)[query]? = some (some conn) ↔ fd2conn[query]? = some (some conn) := by
  unfold resizeFor
  split
  · by_cases inside : query < fd2conn.length
    · rw [List.getElem?_append_left inside]
    · rw [List.getElem?_append_right (by omega), List.getElem?_replicate,
        List.getElem?_eq_none (by omega : fd2conn.length ≤ query)]
      split <;> simp
  · exact Iff.rfl

theorem lt_length_resizeFor (fd2conn : List (Option Ptr)) (fd : Nat) :
    fd < (resizeFor fd2conn fd).length := by
  unfold resizeFor
  split
  · rw [List.length_append, List.length_replicate]
    omega
  · omega

/-- Handling the listening socket adds a connection at the end, or changes nothing. -/
theorem acceptConn (linked : g.Linked queue) {connfd : Option Nat} {now : UInt64}
    (notOpen : ∀ fd, connfd = some fd → g.NotOpen fd) :
    Exec.Returns (acceptConn g connfd now) fun after =>
      connfd = none ∧ after = g ∨
      ∃ fd conn, connfd = some fd ∧ conn ∉ queue ∧ after.Linked (queue ++ [conn]) ∧
        after.conns = g.conns.put conn
          { fd := fd, wantRead := true, lastActiveMs := now, traffic := { eventMs := now } } ∧
        (∀ query other : Nat, g.fd2conn[query]? = some (some other) →
          after.fd2conn[query]? = some (some other)) ∧
        after.store = g.store ∧ after.journal = { g.journal with readMs := now } := by
  cases connfd with
  | none => exact .of_ok (.inl ⟨rfl, rfl⟩)
  | some fd =>
      have notOpen := notOpen fd rfl
      have dead := Mem.alloc_dead g.idle
      have fresh : g.idle.next ∉ idleList :: queue := by
        intro member
        obtain ⟨cell, live⟩ := linked.idle_live member
        rw [dead] at live
        cases live
      have notQueued : g.idle.next ∉ queue := fun member => fresh (List.mem_cons_of_mem _ member)
      have unchanged : ∀ node ∈ idleList :: queue,
          (g.idle.put g.idle.next {}).cell node = g.idle.cell node := by
        intro node member
        exact Mem.put_ne _ (ne_of_mem_of_not_mem member fresh) _
      have ring : Ring (nextOf (g.idle.put g.idle.next {})) (prevOf (g.idle.put g.idle.next {}))
          idleList queue := by
        apply linked.ring.congr
        · intro node member
          rw [nextOf, unchanged node member, nextOf]
        · intro node member
          rw [prevOf, unchanged node member, prevOf]
      obtain ⟨idle, insertEq, ringAfter, same⟩ := dlistInsertBefore_spec ring fresh
        (fun node member => by
          rw [unchanged node member]
          exact linked.idle_live member)
        ⟨{}, Mem.put_self ..⟩
      have bound := lt_length_resizeFor g.fd2conn fd
      have free : (resizeFor g.fd2conn fd)[fd]? = some none := by
        cases found : (resizeFor g.fd2conn fd)[fd]? with
        | none => exact absurd (List.getElem?_eq_none_iff.mp found) (by omega)
        | some slot =>
            cases slot with
            | none => rfl
            | some conn =>
                obtain ⟨value, live, fdEq⟩ := linked.owned fd conn (resizeFor_eq_some.mp found)
                exact absurd fdEq (notOpen conn value live)
      refine ⟨{
        store := g.store
        fd2conn := (resizeFor g.fd2conn fd).set fd (some g.idle.next)
        idle := idle
        conns := g.conns.put g.idle.next
          { fd := fd, wantRead := true, lastActiveMs := now, traffic := { eventMs := now } }
        journal := { g.journal with readMs := now } }, ?_,
        .inr ⟨fd, g.idle.next, rfl, notQueued, ?_, rfl, ?_, rfl, rfl⟩⟩
      · simp only [RedisLite.acceptConn, handleAccept, Mem.alloc, insertEq, Exec.ok_bind,
          Exec.pure_eq_ok, Mem.read_eq (Mem.put_self _ _ _), free, Exec.deref_some,
          decide_true, Exec.assert_true, setConn, if_pos bound]
      · constructor
        · exact ringAfter
        · intro node
          rw [same.live, Mem.put_cell]
          split
          · rename_i isNew
            simp [isNew]
          · rename_i isOld
            rw [linked.nodes]
            simp [isOld]
        · intro query
          rw [Mem.put_cell, List.mem_append, List.mem_singleton]
          split
          · rename_i isNew
            simp [isNew]
          · rename_i isOld
            rw [linked.live]
            simp [isOld]
        · intro query value found
          rw [Mem.put_cell] at found
          split at found
          · rename_i isNew
            cases found
            rw [List.getElem?_set_self bound, isNew]
          · have otherFd := notOpen query value found
            have slot := linked.table query value found
            rw [List.getElem?_set_ne otherFd.symm]
            exact resizeFor_eq_some.mpr slot
        · intro query other slot
          rw [Mem.put_cell]
          rw [List.getElem?_set] at slot
          split at slot
          · rename_i sameFd
            cases slot
            exact ⟨_, if_pos rfl, sameFd⟩
          · obtain ⟨value, found, fdEq⟩ := linked.owned query other (resizeFor_eq_some.mp slot)
            refine ⟨value, ?_, fdEq⟩
            rw [if_neg, found]
            rintro rfl
            exact notQueued ((linked.live _).mp ⟨value, found⟩)
      · intro query other slot
        rw [List.getElem?_set_ne, resizeFor_eq_some.mpr slot]
        rintro rfl
        obtain ⟨value, found, fdEq⟩ := linked.owned fd other slot
        exact notOpen other value found fdEq

end GData.Linked

end RedisLite
