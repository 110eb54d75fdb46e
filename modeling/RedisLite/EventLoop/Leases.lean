import RedisLite.Client.Decimal
import RedisLite.EventLoop.Registers

/-!
# Keys with a time to live

`pexpire` of the Python client leases a value: while nobody writes the key, every client that
reads it receives the value until the key is evicted and nothing afterwards, and the key is
not evicted before its time.
-/

namespace RedisLite

open Lib

/-- The request may change what is stored under the key. -/
def Request.Touches (key : Bytes) : Request → Prop
  | .set written _ | .del written | .zadd written _ _ | .zrem written _ | .pexpire written _ =>
      written = key
  | .get _ | .keys | .zscore _ _ | .zquery _ _ _ _ _ | .pttl _ | .unknown => False

/-- The action is a command that may change what is stored under the key. -/
def Action.Touches (key : Bytes) : Action → Prop
  | .command _ done => (Request.ofCmd done.cmd).Touches key
  | .sweep _ _ => False

/-- The action is a sweep that evicts the key. -/
def Action.Evicts (key : Bytes) : Action → Prop
  | .command _ _ => False
  | .sweep evicted _ => key ∈ evicted

variable {D : Type} [Dbl D]

theorem Store.lookup_apply (store : Store D) (now : Nat) {request : Request} {key : Bytes}
    (untouched : ¬ request.Touches key) :
    (store.apply now request).lookup key = store.lookup key := by
  cases request with
  | get | keys | zscore | zquery | pttl | unknown => rfl
  | set | del | zadd | zrem | pexpire =>
      exact Store.apply_elsewhere store now fun same => untouched (Option.some.inj same)

/-- The string is stored under the key, or the key was evicted. -/
def Store.StoresOrLost (key str : Bytes) (store : Store D) : Prop :=
  store.Stores key str ∨ store.lookup key = none

theorem Store.Performs.storesOrLost {before after : Store D} {action : Action} {key str : Bytes}
    (performs : Store.Performs before action after) (untouched : ¬ action.Touches key)
    (stores : before.StoresOrLost key str) : after.StoresOrLost key str := by
  cases performs with
  | command answers response =>
      rw [Store.StoresOrLost, Store.Stores, Store.lookup_apply before _ untouched]
      exact stores
  | @sweep evicted =>
      rw [Store.StoresOrLost, Store.Stores, Store.lookup_evict]
      by_cases gone : key ∈ evicted
      · exact .inr (if_pos gone)
      · rw [if_neg gone]
        exact stores

/-! ## The lease -/

/-- What a store makes of a leased item after some actions. -/
structure Store.Leased (key : Bytes) (data : Data D) (deadline : Nat) (wait : List Action)
    (store : Store D) : Prop where
  /-- The key is not evicted before its time. -/
  notEarly : ∀ evicted now, .sweep evicted now ∈ wait → key ∈ evicted →
    UInt64.ofNat deadline < now
  kept : (∀ action ∈ wait, ¬ action.Evicts key) →
    store.lookup key = some ⟨data, some deadline⟩
  gone : ∀ action ∈ wait, action.Evicts key → store.lookup key = none

/-- An action that does not touch the key keeps the lease. -/
theorem Store.Leased.performs {key : Bytes} {data : Data D} {deadline : Nat}
    {wait : List Action} {before after : Store D} {action : Action}
    (leased : before.Leased key data deadline wait) (untouched : ¬ action.Touches key)
    (performs : Store.Performs before action after) :
    after.Leased key data deadline (wait ++ [action]) := by
  cases performs with
  | @command conn done value answers response =>
      have lookup := Store.lookup_apply before done.now.toNat untouched
      refine ⟨?_, ?_, ?_⟩
      · intro evicted now member
        rcases List.mem_append.mp member with member | member
        · exact leased.notEarly evicted now member
        · cases List.mem_singleton.mp member
      · intro kept
        rw [lookup]
        exact leased.kept fun other member => kept other (List.mem_append_left _ member)
      · intro other member evicts
        rw [lookup]
        rcases List.mem_append.mp member with member | member
        · exact leased.gone other member evicts
        · rw [List.mem_singleton.mp member] at evicts
          exact evicts.elim
  | @sweep evicted now due =>
      refine ⟨?_, ?_, ?_⟩
      · intro other reading member inside
        rcases List.mem_append.mp member with member | member
        · exact leased.notEarly other reading member inside
        · cases List.mem_singleton.mp member
          obtain ⟨stored, time, lookup, passed⟩ := due key inside
          by_cases earlier : ∃ action ∈ wait, action.Evicts key
          · obtain ⟨action, actionMem, evicts⟩ := earlier
            rw [leased.gone action actionMem evicts] at lookup
            cases lookup
          · push Not at earlier
            rw [leased.kept earlier] at lookup
            cases lookup
            exact passed
      · intro kept
        have outside : key ∉ evicted :=
          kept _ (List.mem_append_right _ (List.mem_singleton_self _))
        rw [Store.lookup_evict, if_neg outside]
        exact leased.kept fun other member => kept other (List.mem_append_left _ member)
      · intro other member evicts
        rw [Store.lookup_evict]
        split
        · rfl
        · rename_i outside
          rcases List.mem_append.mp member with member | member
          · exact leased.gone other member evicts
          · rw [List.mem_singleton.mp member] at evicts
            exact absurd evicts outside

/-- The lease over a sequence of actions. -/
theorem Store.Leased.of_performs {key : Bytes} {data : Data D} {deadline : Nat}
    {front wait : List Action} {store : Store D}
    (performs : (atomicStore D).Performs (front ++ wait) store)
    (start : ∀ before, (atomicStore D).Performs front before →
      before.lookup key = some ⟨data, some deadline⟩)
    (untouched : ∀ action ∈ wait, ¬ action.Touches key) :
    store.Leased key data deadline wait := by
  induction wait using List.reverseRec generalizing store with
  | nil =>
      rw [List.append_nil] at performs
      exact ⟨fun _ _ member => absurd member List.not_mem_nil, fun _ => start store performs,
        fun _ member => absurd member List.not_mem_nil⟩
  | append_singleton wait last ih =>
      rw [← List.append_assoc] at performs
      rw [List.forall_mem_append] at untouched
      obtain ⟨before, performs, step⟩ := performs.last
      exact (ih performs untouched.1).performs (untouched.2 last (List.mem_singleton_self last))
        step

/-- A PEXPIRE that found the key sets its deadline. -/
theorem Store.Performs.leases {before after : Store D} {conn : Ptr} {done : Executed}
    {key str ttlMs : Bytes} {ttl : Nat}
    (performs : Store.Performs before (.command conn done) after)
    (isExpire : Request.ofCmd done.cmd = .pexpire key ttlMs)
    (parsed : str2int ttlMs = some (ttl : Int))
    (timed : Aphelo.unpackResponse done.body = .ok (.int 1))
    (stores : before.StoresOrLost key str) :
    after.lookup key = some ⟨.str str, some (done.now.toNat + ttl)⟩ := by
  cases performs with
  | command answers response =>
      rw [isExpire] at answers ⊢
      simp only [Store.Answers, parsed] at answers
      rcases stores with ⟨deadline, lookup⟩ | lost
      · simp only [Store.apply, parsed, lookup]
        rw [Finmap.lookup_insert, deadlineAfter, if_neg (by omega), Int.toNat_natCast]
      · have absent : key ∉ before := Finmap.lookup_eq_none.mp lost
        rw [Executed.body_eq response, answers, decide_eq_false absent] at timed
        cases timed

theorem Store.Performs.getsNone {before after : Store D} {conn : Ptr} {done : Executed}
    {key : Bytes} (performs : Store.Performs before (.command conn done) after)
    (isGet : Request.ofCmd done.cmd = .get key) (gone : before.lookup key = none) :
    Aphelo.unpackResponse done.body = .ok .none := by
  cases performs with
  | command answers response =>
      rw [isGet] at answers
      simp only [Store.Answers, gone] at answers
      rw [Executed.body_eq response, answers]
      rfl

/-- In every run: after a client has set a key and given it a time to live, and while nobody
writes the key, every client that reads it receives the value until the key is evicted and
`None` afterwards, and no sweep evicts the key before its time. -/
theorem aphelo_lease {passed : List (Moment D)} {state : LoopState D} (run : Run passed state)
    {order front middle wait back : List Action} (explains : Explains D order state.g)
    {writer timer reader : Ptr} {set expire get : Executed} {key text : String} {ttl : Nat}
    (isSet : set.cmd = ["set", key, text].map Aphelo.utf8)
    (isExpire : expire.cmd = ["pexpire", key, toString (ttl : Int)].map Aphelo.utf8)
    (isGet : get.cmd = ["get", key].map Aphelo.utf8)
    (order_eq : order = front ++ .command writer set ::
      (middle ++ .command timer expire :: (wait ++ .command reader get :: back)))
    (accepted : Aphelo.unpackResponse set.body = .ok .none)
    (timed : Aphelo.unpackResponse expire.body = .ok (.int 1)) (range : ttl < 2 ^ 63)
    (noWrap : expire.now.toNat + ttl < 2 ^ 64)
    (untouched : ∀ action ∈ middle ++ wait, ¬ action.Touches (Aphelo.utf8 key)) :
    (∀ evicted now, .sweep evicted now ∈ wait → Aphelo.utf8 key ∈ evicted →
      expire.now.toNat + ttl < now.toNat) ∧
    ((∀ action ∈ wait, ¬ action.Evicts (Aphelo.utf8 key)) →
      Aphelo.unpackResponse get.body = .ok (.str text)) ∧
    ∀ action ∈ wait, action.Evicts (Aphelo.utf8 key) →
      Aphelo.unpackResponse get.body = .ok .none := by
  have sets : Request.ofCmd set.cmd = .set (Aphelo.utf8 key) (Aphelo.utf8 text) := by
    rw [isSet]
    rfl
  have expires : Request.ofCmd expire.cmd =
      .pexpire (Aphelo.utf8 key) (Aphelo.utf8 (toString (ttl : Int))) := by
    rw [isExpire]
    rfl
  have gets : Request.ofCmd get.cmd = .get (Aphelo.utf8 key) := by
    rw [isGet]
    rfl
  have parsed : str2int (Aphelo.utf8 (toString (ttl : Int))) = some (ttl : Int) :=
    str2int_toString ⟨by omega, by omega⟩
  have member : Action.command writer set ∈ order := by
    rw [order_eq]
    exact List.mem_append_right _ List.mem_cons_self
  have fits := run.set_fits explains member sets
  rw [List.forall_mem_append] at untouched
  have performs := explains.performs
  rw [order_eq, List.append_cons, ← List.append_assoc, List.append_cons _ _ (wait ++ _),
    ← List.append_assoc] at performs
  obtain ⟨before, after, performsWait, step⟩ := performs.split
  have leased : before.Leased (Aphelo.utf8 key) (.str (Aphelo.utf8 text))
      (expire.now.toNat + ttl) wait := by
    refine .of_performs performsWait ?_ untouched.2
    intro granted performsExpire
    obtain ⟨asked, performsMiddle, expireStep⟩ := performsExpire.last
    refine Store.Performs.leases expireStep expires parsed timed (performsMiddle.keeps
      (Store.StoresOrLost (Aphelo.utf8 key) (Aphelo.utf8 text)) ?_ ?_)
    · intro stored performsSet
      obtain ⟨earlier, -, setStep⟩ := performsSet.last
      exact .inl (Store.Performs.sets setStep sets accepted)
    · intro action member store next performsAction stores
      exact performsAction.storesOrLost (untouched.1 action member) stores
  refine ⟨?_, ?_, ?_⟩
  · intro evicted now member inside
    have late := UInt64.lt_iff_toNat_lt.mp (leased.notEarly evicted now member inside)
    rwa [UInt64.toNat_ofNat_of_lt' noWrap] at late
  · intro kept
    exact Store.Performs.gets step gets ⟨_, leased.kept kept⟩ fits
  · intro action member evicts
    exact Store.Performs.getsNone step gets (leased.gone action member evicts)

/-- A client gives a key a time to live of 5 and asks for it when the clock reads 3 and 10, each
time behind the timers. -/
theorem Run.readsTwice : ∃ (passed : List (Moment Nat)) (state : LoopState Nat) (value : Conn)
    (set expire get late : Executed), Run passed state ∧ state.g.conns.cell 1 = some value ∧
    value.traffic.executed = [set, expire, get, late] ∧
    set.cmd = ["set", "k", "v"].map Aphelo.utf8 ∧
    expire.cmd = ["pexpire", "k", toString (5 : Int)].map Aphelo.utf8 ∧
    get.cmd = ["get", "k"].map Aphelo.utf8 ∧ late.cmd = ["get", "k"].map Aphelo.utf8 ∧
    Aphelo.unpackResponse set.body = .ok .none ∧ expire.now = 0 ∧
    Aphelo.unpackResponse expire.body = .ok (.int 1) ∧
    state.g.journal.history = [late.event, .sweep [ascii "k"] 10, get.event, .sweep [] 3,
      expire.event, set.event, .sweep [] 0] := by
  exact ⟨_, _, _, _, _, _, _,
    .round 10 (.asks 10 (frame (requestBody [ascii "get", ascii "k"])) 100)
      (.round 3 (.asks 3 (frame (requestBody [ascii "get", ascii "k"])) 100)
        (.round 0 (.asks 0 (requestCode.encode
            [[ascii "set", ascii "k", ascii "v"], [ascii "pexpire", ascii "k", ascii "5"]]) 100)
          (Run.connects rfl rfl) ⟨by decide, by decide⟩ rfl rfl
          (Turn.asks_legal 100 ⟨by decide, by decide⟩ (by decide) rfl (by decide) rfl rfl
            (by decide)) rfl)
        ⟨by decide, by decide⟩ rfl rfl
        (Turn.asks_legal 100 ⟨by decide, by decide⟩ (by decide) rfl (by decide) rfl rfl
          (by decide)) rfl)
      ⟨by decide, by decide⟩ rfl rfl
      (Turn.asks_legal 100 ⟨by decide, by decide⟩ (by decide) rfl (by decide) rfl rfl
        (by decide)) rfl,
    rfl, rfl, rfl, rfl, rfl, rfl, rfl, rfl, rfl, rfl⟩

/-- The client reads the value after a sweep before the deadline, and `None` after the sweep that
evicts the key. -/
theorem aphelo_lease_sweeps : ∃ (get late : Executed) (evicted : List Bytes),
    get.cmd = ["get", "k"].map Aphelo.utf8 ∧ late.cmd = ["get", "k"].map Aphelo.utf8 ∧
    Aphelo.unpackResponse get.body = .ok (.str "v") ∧ Aphelo.utf8 "k" ∈ evicted ∧
    Aphelo.unpackResponse late.body = .ok .none := by
  obtain ⟨passed, state, value, set, expire, get, late, run, live, executed, isSet, isExpire,
    isGet, isLate, accepted, isNow, timed, history⟩ := Run.readsTwice
  obtain ⟨order, explains⟩ := run.explains
  have isOrder : order = [.sweep [] 0, .command 1 set, .command 1 expire, .sweep [] 3,
      .command 1 get, .sweep [ascii "k"] 10, .command 1 late] := by
    refine explains.order_eq live (by rw [history]; rfl) ?_ (by rw [executed]; rfl)
    simp [Action.conn]
  have noWrap : expire.now.toNat + 5 < 2 ^ 64 := by
    rw [isNow]
    decide
  have isKey : Aphelo.utf8 "k" ∈ [ascii "k"] := List.mem_singleton.mpr rfl
  have reads : ¬ (Action.command 1 get).Touches (Aphelo.utf8 "k") := by
    rw [Action.Touches, isGet]
    exact id
  refine ⟨get, late, [ascii "k"], isGet, isLate, ?_, isKey, ?_⟩
  · refine (@aphelo_lease Nat _ _ _ run _ [.sweep [] 0] [] [.sweep [] 3] _ explains 1 1 1 _ _ _
      "k" "v" 5 isSet isExpire isGet isOrder accepted timed (by decide) noWrap ?_).2.1 ?_
    · exact List.forall_mem_singleton.mpr id
    · exact List.forall_mem_singleton.mpr List.not_mem_nil
  · refine (@aphelo_lease Nat _ _ _ run _ [.sweep [] 0] []
      [.sweep [] 3, .command 1 get, .sweep [ascii "k"] 10] [] explains 1 1 1 _ _ _
      "k" "v" 5 isSet isExpire isLate isOrder accepted timed (by decide) noWrap ?_).2.2
      (.sweep [ascii "k"] 10) (by simp) isKey
    exact List.forall_mem_cons.mpr ⟨id, List.forall_mem_cons.mpr
      ⟨reads, List.forall_mem_singleton.mpr id⟩⟩

end RedisLite
