import RedisLite.EventLoop.Errors
import RedisLite.EventLoop.Order
import RedisLite.EventLoop.Sessions
import RedisLite.Server.Isolation

/-!
# Reading what was written

The keys of the server are registers for its clients: between a SET of a key and the next
SET, DEL or eviction of it, every GET on any connection returns the string that was set.
-/

namespace RedisLite

open Lib

/-- The request replaces the string under the key. -/
def Request.Replaces (key : Bytes) : Request → Prop
  | .set written _ => written = key
  | .del deleted => deleted = key
  | _ => False

/-- The action replaces the string under the key. -/
def Action.Replaces (key : Bytes) : Action → Prop
  | .command _ done => (Request.ofCmd done.cmd).Replaces key
  | .sweep evicted _ => key ∈ evicted

variable {D : Type}

/-- A string is stored under the key. -/
def Store.Stores (key str : Bytes) (store : Store D) : Prop :=
  ∃ deadline, store.lookup key = some ⟨.str str, deadline⟩

variable [Dbl D]

/-- The other requests leave a string alone. -/
theorem Store.Stores.apply {store : Store D} {key str : Bytes} (stores : store.Stores key str)
    (now : Nat) {request : Request} (other : ¬ request.Replaces key) :
    (store.apply now request).Stores key str := by
  obtain ⟨deadline, lookup⟩ := stores
  by_cases names : request.key? = some key
  · cases request with
    | keys | unknown => cases names
    | get | zscore | zquery | pttl => exact ⟨deadline, lookup⟩
    | set | del => exact absurd (Option.some.inj names) other
    | zadd named score name =>
        cases names
        have noMembers : store.members key = none := by rw [Store.members, lookup]
        simp only [Store.apply, noMembers]
        split
        · rename_i isMembers
          cases isMembers
        · exact ⟨deadline, lookup⟩
    | zrem named name =>
        cases names
        simp only [Store.apply, lookup]
        exact ⟨deadline, lookup⟩
    | pexpire named ttlMs =>
        cases names
        simp only [Store.apply, lookup]
        split
        · rename_i isItem
          cases isItem
          exact ⟨_, Finmap.lookup_insert _⟩
        · exact ⟨deadline, lookup⟩
  · rw [Store.Stores, Store.apply_elsewhere store now names]
    exact ⟨deadline, lookup⟩

theorem Store.Performs.stores {before after : Store D} {action : Action} {key str : Bytes}
    (performs : Store.Performs before action after) (other : ¬ action.Replaces key)
    (stores : before.Stores key str) : after.Stores key str := by
  cases performs with
  | command => exact stores.apply _ other
  | sweep =>
      obtain ⟨deadline, lookup⟩ := stores
      have kept : key ∉ _ := other
      exact ⟨deadline, by rw [Store.lookup_evict, if_neg kept, lookup]⟩

theorem Executed.body_eq {done : Executed} {value : Value D}
    (response : done.response = frame ((value.limited Dbl.bits).encode Dbl.bits)) :
    Aphelo.unpackResponse done.body = Aphelo.outcome Dbl.bits (value.limited Dbl.bits) := by
  have limit := value.length_limited_le Dbl.bits
  unfold kMaxMsg at limit
  have body : done.body = (value.limited Dbl.bits).encode Dbl.bits := by
    rw [Executed.body, response, frame, List.drop_left' (LittleEndian.length_encode _ _)]
  rw [body]
  exact Aphelo.unpackResponse_encode _ (Value.bounded_of_length Dbl.bits _ (by omega))

omit [Dbl D] in
/-- An error is raised. -/
theorem outcome_err_ne_ok (bits : D → UInt64) (code : UInt32) (msg : Bytes)
    (value : Aphelo.PyValue) :
    Aphelo.outcome bits ((Value.err code msg : Value D).limited bits) ≠ .ok value := by
  have raised : ∀ (code : UInt32) (msg : Bytes),
      Aphelo.outcome bits (.err code msg : Value D) ≠ .ok value := by
    intro code msg isOk
    rw [Aphelo.outcome] at isOk
    cases decoded : Aphelo.decodeUtf8 msg with
    | error error =>
        rw [decoded] at isOk
        cases isOk
    | ok text =>
        rw [decoded] at isOk
        cases isOk
  rw [Value.limited]
  split
  · exact raised _ _
  · exact raised code msg

/-- A SET that was not refused stores its string. -/
theorem Store.Performs.sets {before after : Store D} {conn : Ptr} {done : Executed}
    {key str : Bytes} (performs : Store.Performs before (.command conn done) after)
    (isSet : Request.ofCmd done.cmd = .set key str)
    (accepted : Aphelo.unpackResponse done.body = .ok .none) : after.Stores key str := by
  cases performs with
  | command answers response =>
      rw [Executed.body_eq response] at accepted
      rw [isSet] at answers ⊢
      simp only [Store.Answers] at answers
      simp only [Store.apply]
      split at answers
      · rw [answers] at accepted
        exact absurd accepted (outcome_err_ne_ok _ _ _ _)
      · exact ⟨_, Finmap.lookup_insert _⟩

/-- A GET reads the string that is stored. -/
theorem Store.Performs.gets {before after : Store D} {conn : Ptr} {done : Executed}
    {key : Bytes} {text : String} (performs : Store.Performs before (.command conn done) after)
    (isGet : Request.ofCmd done.cmd = .get key) (stores : before.Stores key (Aphelo.utf8 text))
    (fits : 5 + (Aphelo.utf8 text).length ≤ kMaxMsg) :
    Aphelo.unpackResponse done.body = .ok (.str text) := by
  cases performs with
  | command answers response =>
      obtain ⟨deadline, lookup⟩ := stores
      rw [isGet] at answers
      simp only [Store.Answers, lookup] at answers
      rw [Executed.body_eq response, answers, Value.limited,
        if_neg (by rw [Store.length_encode_str]; omega)]
      show (Aphelo.decodeUtf8 (Aphelo.utf8 text) >>= _) = _
      rw [Aphelo.decodeUtf8_utf8]
      rfl

theorem Run.set_fits {passed : List (Moment D)} {state : LoopState D} (run : Run passed state)
    {order : List Action} (explains : Explains D order state.g) {conn : Ptr} {done : Executed}
    (member : Action.command conn done ∈ order) {key str : Bytes}
    (isSet : Request.ofCmd done.cmd = .set key str) : 5 + str.length ≤ kMaxMsg := by
  have sent : done.event ∈ state.g.journal.history := by
    rw [explains.history_eq, List.mem_reverse]
    exact List.mem_map_of_mem member
  exact (run.sent _ _ sent).string_fits (D := D) isSet _ rfl

/-- A client of a run that reads a key receives what the last SET of the key stored, on whatever
connections the two are and whatever else happens in between. -/
theorem aphelo_get_after_set {passed : List (Moment D)} {state : LoopState D}
    (run : Run passed state) {order front middle back : List Action}
    (explains : Explains D order state.g) {writer reader : Ptr} {set get : Executed}
    {key text : String} (isSet : set.cmd = ["set", key, text].map Aphelo.utf8)
    (isGet : get.cmd = ["get", key].map Aphelo.utf8)
    (order_eq : order = front ++ .command writer set :: (middle ++ .command reader get :: back))
    (accepted : Aphelo.unpackResponse set.body = .ok .none)
    (kept : ∀ action ∈ middle, ¬ action.Replaces (Aphelo.utf8 key)) :
    Aphelo.unpackResponse get.body = .ok (.str text) := by
  have request : Request.ofCmd set.cmd = .set (Aphelo.utf8 key) (Aphelo.utf8 text) := by
    rw [isSet]
    rfl
  have read : Request.ofCmd get.cmd = .get (Aphelo.utf8 key) := by
    rw [isGet]
    rfl
  have member : Action.command writer set ∈ order := by
    rw [order_eq]
    exact List.mem_append_right _ List.mem_cons_self
  have fits := run.set_fits explains member request
  have performs := explains.performs
  rw [order_eq, ← List.cons_append, ← List.append_assoc] at performs
  obtain ⟨before, after, performsMiddle, step⟩ := performs.split
  have stores : before.Stores (Aphelo.utf8 key) (Aphelo.utf8 text) := by
    rw [List.append_cons] at performsMiddle
    apply performsMiddle.keeps (Store.Stores (Aphelo.utf8 key) (Aphelo.utf8 text))
    · intro stored performsSet
      obtain ⟨earlier, -, setStep⟩ := performsSet.last
      exact Store.Performs.sets setStep request accepted
    · intro action member store next performsAction stores
      exact performsAction.stores (kept action member) stores
  exact Store.Performs.gets step read stores fits

/-- An order has no more commands of one connection than another one with the same events in
which all commands are of that connection. -/
theorem Action.length_own_le {conn : Ptr} : ∀ {order actions : List Action},
    order.map Action.event = actions.map Action.event →
    (∀ action ∈ actions, ∀ other, action.conn = some other → other = conn) →
    (Atomic.own Action.conn conn order).length ≤ (Atomic.own Action.conn conn actions).length
  | [], _, _, _ => Nat.zero_le _
  | _ :: _, [], same, _ => by cases same
  | first :: order, action :: actions, same, alone => by
      rw [List.map_cons, List.map_cons, List.cons.injEq] at same
      rw [List.forall_mem_cons] at alone
      have rest := Action.length_own_le same.2 alone.2
      cases action with
      | sweep keys reading =>
          cases first with
          | command client done => cases same.1
          | sweep evicted now => exact rest
      | command other one =>
          obtain rfl := alone.1 other rfl
          have mine : Atomic.own Action.conn other (.command other one :: actions) =
              .command other one :: Atomic.own Action.conn other actions := by
            simp [Atomic.own, Action.conn]
          rw [mine, List.length_cons, Atomic.own, List.filter_cons]
          split
          · exact Nat.succ_le_succ rest
          · exact Nat.le_succ_of_le rest

/-- An order is determined by its events and its commands of one connection, when no other
connection has executed any. -/
theorem Action.order_unique {conn : Ptr} : ∀ {order actions : List Action},
    order.map Action.event = actions.map Action.event →
    (∀ action ∈ actions, ∀ other, action.conn = some other → other = conn) →
    Atomic.own Action.conn conn order = Atomic.own Action.conn conn actions → order = actions
  | [], [], _, _, _ => rfl
  | [], _ :: _, same, _, _ => by cases same
  | _ :: _, [], same, _, _ => by cases same
  | first :: order, action :: actions, same, alone, own => by
      rw [List.map_cons, List.map_cons, List.cons.injEq] at same
      rw [List.forall_mem_cons] at alone
      cases first with
      | sweep evicted now =>
          cases action with
          | command conn done => cases same.1
          | sweep keys reading =>
              cases same.1
              rw [Action.order_unique same.2 alone.2 own]
      | command client done =>
          cases action with
          | sweep keys reading => cases same.1
          | command other one =>
              obtain rfl := alone.1 other rfl
              by_cases isOwn : client = other
              · subst isOwn
                have own : Action.command client done :: Atomic.own Action.conn client order =
                    .command client one :: Atomic.own Action.conn client actions := by
                  simpa [Atomic.own, Action.conn] using own
                obtain ⟨head, tail⟩ := List.cons.inj own
                rw [head, Action.order_unique same.2 alone.2 tail]
              · have own : Atomic.own Action.conn other order =
                    .command other one :: Atomic.own Action.conn other actions := by
                  simpa [Atomic.own, Action.conn, isOwn] using own
                have few := Action.length_own_le same.2 alone.2
                rw [own, List.length_cons] at few
                exact absurd few (Nat.not_succ_le_self _)

theorem Explains.order_eq {order actions : List Action} {g : GData D}
    (explains : Explains D order g) {conn : Ptr} {value : Conn}
    (live : g.conns.cell conn = some value)
    (history_eq : g.journal.history = (actions.map Action.event).reverse)
    (alone : ∀ action ∈ actions, ∀ other, action.conn = some other → other = conn)
    (own_eq : Atomic.own Action.conn conn actions =
      value.traffic.executed.map (.command conn)) : order = actions := by
  have events : order.map Action.event = actions.map Action.event := by
    rw [← List.reverse_inj, ← explains.history_eq, history_eq]
  exact Action.order_unique events alone ((explains.own conn value live).trans own_eq.symm)

/-- The client reads what it has set. -/
theorem aphelo_get_after_set_same : ∃ get : Executed,
    get.cmd = ["get", "k"].map Aphelo.utf8 ∧
    Aphelo.unpackResponse get.body = .ok (.str "v") := by
  obtain ⟨state, value, set, get, asks, live, executed, isSet, isGet, accepted, history⟩ :
      ∃ (state : LoopState Nat) (value : Conn) (set get : Executed),
        clientAsks (requestCode.encode
          [[ascii "set", ascii "k", ascii "v"], [ascii "get", ascii "k"]]) 100 = .ok state ∧
        state.g.conns.cell 1 = some value ∧ value.traffic.executed = [set, get] ∧
        set.cmd = ["set", "k", "v"].map Aphelo.utf8 ∧ get.cmd = ["get", "k"].map Aphelo.utf8 ∧
        Aphelo.unpackResponse set.body = .ok .none ∧
        state.g.journal.history = [get.event, set.event, .sweep [] 0] :=
    ⟨_, _, _, _, rfl, rfl, rfl, rfl, rfl, rfl, rfl⟩
  obtain ⟨passed, run⟩ := Run.clientAsks (by decide) asks
  obtain ⟨order, explains⟩ := run.explains
  have isOrder : order = [.sweep [] 0, .command 1 set, .command 1 get] := by
    refine explains.order_eq live (by rw [history]; rfl) ?_ (by rw [executed]; rfl)
    simp [Action.conn]
  exact ⟨get, isGet, @aphelo_get_after_set Nat _ _ _ run _ [.sweep [] 0] [] [] explains _ _ _ _ _ _
    isSet isGet isOrder accepted fun _ member => absurd member List.not_mem_nil⟩

end RedisLite
