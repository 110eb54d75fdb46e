import RedisLite.EventLoop.Safety

/-!
# Ownership

Nothing that the server allocates is lost, and nothing is used after it was freed.  In every
state of a run each object is held by the structures that lead to it, exactly once, and by
nothing else; an entry that is deleted takes its nodes with it; and every further step returns.
-/

namespace RedisLite

open Lib Lib.Tree

variable {D : Type}

/-! ## The sorted sets -/

/-- The nodes of a sorted set are those of its tree, and those of its hash table, each once. -/
structure ZSet.Owns (zset : ZSet D) : Prop where
  tree : ∃ tree, zset.root = Tree.root tree ∧ Represents zset.tree none tree ∧
    (inorder tree).Nodup ∧
    ∀ node, (∃ cell, zset.node.cell node = some cell) ↔ node ∈ inorder tree
  hashed : ∀ node, (∃ cell, zset.node.cell node = some cell) ↔
    node ∈ zset.hmap.nodes.map HNode.ref
  once : (zset.hmap.nodes.map HNode.ref).Nodup
  /-- `zset_clear` frees them all. -/
  cleared : Exec.Returns zset.zsetClear fun after => ∀ node, after.node.cell node = none

theorem ZSet.Holds.owns [LinearOrder D] {zset : ZSet D} {tree : BinaryTree Ptr}
    {cells : List (ZNode D)} (holds : zset.Holds tree cells) : zset.Owns where
  tree := by
    refine ⟨tree, holds.root_eq, holds.avl.represents, holds.avl.nodup, fun node => ⟨?_, ?_⟩⟩
    · rintro ⟨cell, live⟩
      exact holds.owned node cell live
    · intro member
      obtain ⟨cell, -, live⟩ := holds.reads.exists_value member
      exact ⟨cell, live⟩
  hashed := by
    intro node
    rw [holds.indexed.mem_iff]
    constructor
    · rintro ⟨cell, live⟩
      exact holds.owned node cell live
    · intro member
      obtain ⟨cell, -, live⟩ := holds.reads.exists_value member
      exact ⟨cell, live⟩
  once := holds.indexed.nodup_iff.mpr holds.avl.nodup
  cleared := holds.zsetClear_spec.mono fun _ cleared => cleared.2.2

/-! ## The database -/

/-- The entries are those that the hash table links, each once, with the timers of the heap. -/
structure Db.Owns (db : Db D) : Prop where
  linked : ∀ ent, (∃ entry, db.entries.cell ent = some entry) ↔
    ent ∈ db.db.nodes.map HNode.ref
  once : (db.db.nodes.map HNode.ref).Nodup
  size_eq : hmSize db.db = db.db.nodes.length
  /-- A timer points to the `heap_idx` of a live entry, and no entry has two. -/
  timers : ∀ item ∈ db.timers.heap, ∃ entry, db.entries.cell item.ref = some entry
  timersOnce : (db.timers.heap.map HeapItem.ref).Nodup
  zsets : ∀ ent entry, db.entries.cell ent = some entry → entry.type = .zset → entry.zset.Owns

theorem Db.Denotes.owns [LinearOrder D] {db : Db D} {store : Store D}
    (denotes : db.Denotes store) : db.Owns where
  linked := by
    intro ent
    constructor
    · rintro ⟨entry, live⟩
      exact List.mem_map.mpr ⟨_, denotes.linked.owned ent entry live, rfl⟩
    · intro member
      obtain ⟨node, nodeMem, rfl⟩ := List.mem_map.mp member
      obtain ⟨entry, live, -⟩ := denotes.linked.live node nodeMem
      exact ⟨entry, live⟩
  once := denotes.linked.nodup
  size_eq := denotes.linked.valid.hmSize_eq
  timers := by
    intro item member
    obtain ⟨pos, found⟩ := List.mem_iff_getElem?.mp member
    exact (denotes.live item.ref).mp ⟨_, denotes.tracks.valid.indexed pos item found⟩
  timersOnce := denotes.tracks.valid.indexed.nodup
  zsets := by
    intro ent entry live isZset
    obtain ⟨item, -, holds, -⟩ := denotes.items ent entry live
    cases data : item.data with
    | str bytes =>
        rw [data] at holds
        cases isZset.symm.trans holds.1
    | zset members =>
        rw [data] at holds
        obtain ⟨tree, cells, inner, -⟩ := holds.2
        exact inner.owns

/-! ## The server -/

/-- Everything that the server has allocated is held by what leads to it, each object once. -/
structure GData.Owns (g : GData D) : Prop where
  conns : ∀ conn, (∃ value, g.conns.cell conn = some value) ↔
    ∃ fd : Nat, g.fd2conn[fd]? = some (some conn)
  connsOnce : ∀ fd other conn : Nat, g.fd2conn[fd]? = some (some conn) →
    g.fd2conn[other]? = some (some conn) → fd = other
  /-- The nodes of `idle_list` are its head and those inside the connections. -/
  idle : ∀ node, (∃ cell, g.idle.cell node = some cell) ↔
    node = idleList ∨ ∃ value, g.conns.cell node = some value
  store : g.store.Owns

theorem GData.Linked.owns {g : GData D} {queue : List Ptr} (linked : g.Linked queue)
    (store : g.store.Owns) : g.Owns where
  conns := by
    intro conn
    constructor
    · rintro ⟨value, live⟩
      exact ⟨value.fd, linked.table conn value live⟩
    · rintro ⟨fd, slot⟩
      obtain ⟨value, live, -⟩ := linked.owned fd conn slot
      exact ⟨value, live⟩
  connsOnce := by
    intro fd other conn slot otherSlot
    obtain ⟨value, live, isFd⟩ := linked.owned fd conn slot
    obtain ⟨same, sameLive, isOther⟩ := linked.owned other conn otherSlot
    cases live.symm.trans sameLive
    exact isFd.symm.trans isOther
  idle := by
    intro node
    rw [linked.nodes, List.mem_cons, linked.live]
  store := store

variable [Dbl D]

/-- Memory safety.  In every state of every run the server holds everything that it has
allocated and not freed, each object once, so that nothing leaks; and every step that the
environment can cause returns, so that no pointer to a freed object is followed, no object is
freed twice, no index leaves its array and no assertion fails. -/
theorem run_owns_memory {passed : List (Moment D)} {state : LoopState D}
    (run : Run passed state) :
    state.g.Owns ∧ ∀ event, Legal state event →
      Exec.Returns (loopStep state event) fun after => after.g.Owns := by
  have owns : ∀ {passed : List (Moment D)} {state : LoopState D}, Run passed state →
      state.g.Owns := by
    intro passed state run
    obtain ⟨queue, sound⟩ := run.inv.sound
    exact sound.linked.owns run.reached.denotes.owns
  refine ⟨owns run, fun event legal => ?_⟩
  exact (run.goes_on legal).mono fun after next => owns next

/-- A server with a connection, a sorted set of two members and a timer. -/
theorem run_owns_memory_zset : ∃ (g : GData Nat) (entry : Entry Nat), g.Owns ∧
    (∃ value, g.conns.cell 1 = some value) ∧ g.store.timers.heap.length = 1 ∧
    g.store.entries.cell 0 = some entry ∧ entry.type = .zset ∧
    (∃ cell, entry.zset.node.cell 0 = some cell ∧ cell.name = ascii "a") ∧
    (∃ cell, entry.zset.node.cell 1 = some cell ∧ cell.name = ascii "b") ∧
    Exec.Returns (loopStep ⟨g, .turns []⟩ (.timers 10)) fun after => after.g.Owns := by
  obtain ⟨g, entry, asks, readMs, later, live, timer, isEntry, type, first, second⟩ :
      ∃ (g : GData Nat) (entry : Entry Nat), clientAsks (requestCode.encode
          [[ascii "zadd", ascii "z", ascii "1", ascii "a"],
            [ascii "zadd", ascii "z", ascii "2", ascii "b"],
            [ascii "pexpire", ascii "z", ascii "5"]]) 100 = .ok ⟨g, .turns []⟩ ∧
        g.journal.readMs = 0 ∧ clock g.journal.history = 0 ∧
        (∃ value, g.conns.cell 1 = some value) ∧ g.store.timers.heap.length = 1 ∧
        g.store.entries.cell 0 = some entry ∧ entry.type = .zset ∧
        (∃ cell, entry.zset.node.cell 0 = some cell ∧ cell.name = ascii "a") ∧
        ∃ cell, entry.zset.node.cell 1 = some cell ∧ cell.name = ascii "b" :=
    ⟨_, _, rfl, rfl, rfl, ⟨_, rfl⟩, rfl, rfl, rfl, ⟨_, rfl, rfl⟩, _, rfl, rfl⟩
  obtain ⟨passed, run⟩ := Run.clientAsks (by decide) asks
  have legal : Legal ⟨g, .turns []⟩ (.timers 10) := GData.Later.of_zero readMs later 10
  obtain ⟨owns, steps⟩ := run_owns_memory run
  exact ⟨g, entry, owns, live, timer, isEntry, type, first, second, steps _ legal⟩

end RedisLite
