import RedisLite.Lib.Exec
import Mathlib.Data.Finmap

/-!
# Machines and their references

A `Machine` executes operations that may fault; a `Reference` executes the same
operations on an abstract state and cannot.  `Machine.run_simulates` lifts a
simulation of single operations to runs of any length: the machine never faults,
the states stay related and the responses agree.

The last section has the finite-map facts a reference usually needs: the entries
of a map after inserting an absent key and after erasing a present one.
-/

namespace Lib

universe u

variable {σ τ op out out' : Type u}

/-- One operation of an implementation. -/
abbrev Machine (σ op out : Type u) := σ → op → Exec (σ × out)

/-- One operation of a specification. -/
abbrev Reference (τ op out : Type u) := τ → op → τ × out

/-- The state after a list of operations, and their responses. -/
def Machine.run (machine : Machine σ op out) : σ → List op → Exec (σ × List out)
  | state, [] => .ok (state, [])
  | state, first :: rest => do
      let (state, response) ← machine state first
      let (state, responses) ← Machine.run machine state rest
      return (state, response :: responses)

/-- The abstract state after a list of operations, and their responses. -/
def Reference.run (reference : Reference τ op out) : τ → List op → τ × List out
  | state, [] => (state, [])
  | state, first :: rest =>
      let (state, response) := reference state first
      let (state, responses) := Reference.run reference state rest
      (state, response :: responses)

/-- Every operation is allowed in the abstract state it is executed in. -/
def Permitted (reference : Reference τ op out) (allowed : τ → op → Prop) : τ → List op → Prop
  | _, [] => True
  | state, first :: rest =>
      allowed state first ∧ Permitted reference allowed (reference state first).1 rest

/-- The responses of two runs of the same operations agree one by one. -/
def Agree (agrees : op → out → out' → Prop) : List op → List out → List out' → Prop
  | [], [], [] => True
  | first :: rest, response :: responses, expected :: expecteds =>
      agrees first response expected ∧ Agree agrees rest responses expecteds
  | _, _, _ => False

/-- Responses that agree by equality are the same list. -/
theorem Agree.eq {operations : List op} {responses expecteds : List out}
    (agree : Agree (fun _ response expected => response = expected)
      operations responses expecteds) : responses = expecteds := by
  induction operations generalizing responses expecteds with
  | nil =>
      cases responses <;> cases expecteds
      · rfl
      all_goals cases agree
  | cons first rest ih =>
      cases responses with
      | nil => cases agree
      | cons response responses =>
          cases expecteds with
          | nil => cases agree
          | cons expected expecteds => rw [agree.1, ih agree.2]

/-- Simulation: when every allowed operation returns, keeps the states related
and gives an agreeing response, so does every permitted run. -/
theorem Machine.run_simulates {machine : Machine σ op out} {reference : Reference τ op out'}
    (related : σ → τ → Prop) (allowed : τ → op → Prop) (agrees : op → out → out' → Prop)
    (step : ∀ state abstract first, related state abstract → allowed abstract first →
      Exec.Returns (machine state first) fun result =>
        related result.1 (reference abstract first).1 ∧
          agrees first result.2 (reference abstract first).2)
    (operations : List op) {state : σ} {abstract : τ} (holds : related state abstract)
    (permitted : Permitted reference allowed abstract operations) :
    Exec.Returns (Machine.run machine state operations) fun result =>
      related result.1 (Reference.run reference abstract operations).1 ∧
        Agree agrees operations result.2 (Reference.run reference abstract operations).2 := by
  induction operations generalizing state abstract with
  | nil => exact .of_ok ⟨holds, trivial⟩
  | cons first rest ih =>
      obtain ⟨⟨middle, response⟩, firstEq, middleHolds, firstAgrees⟩ :=
        step state abstract first holds permitted.1
      obtain ⟨⟨after, responses⟩, restEq, afterHolds, restAgree⟩ := ih middleHolds permitted.2
      simp only [Machine.run, firstEq, Exec.ok_bind, restEq, Exec.pure_eq_ok, Exec.returns_ok]
      exact ⟨afterHolds, firstAgrees, restAgree⟩

/-! ## Entries of a finite map -/

namespace Entries

variable {κ : Type*} {β : κ → Type*}

theorem card_keys (map : Finmap β) : map.keys.card = map.entries.card := by
  simp [Finmap.keys, Finset.card, Multiset.keys]

variable [DecidableEq κ]

/-- A map with an entry is the insertion of it into the map of the others. -/
theorem eq_insert_of_cons {map : Finmap β} {key : κ} {value : β key} {rest : Multiset (Sigma β)}
    (entries : map.entries = ⟨key, value⟩ ::ₘ rest) :
    ∃ smaller : Finmap β, key ∉ smaller ∧ smaller.entries = rest ∧
      map = smaller.insert key value := by
  have nodup : (⟨key, value⟩ ::ₘ rest).keys.Nodup := by
    rw [← entries]
    exact Multiset.nodup_keys.mpr map.nodupKeys
  rw [Multiset.keys_cons, Multiset.nodup_cons] at nodup
  have absent : key ∉ (⟨rest, Multiset.nodup_keys.mp nodup.2⟩ : Finmap β) := nodup.1
  refine ⟨_, absent, rfl, ?_⟩
  apply Finmap.ext
  rw [Finmap.entries_insert_of_notMem absent, entries]

theorem erase_of_cons {map : Finmap β} {key : κ} {value : β key} {rest : Multiset (Sigma β)}
    (entries : map.entries = ⟨key, value⟩ ::ₘ rest) : (map.erase key).entries = rest := by
  obtain ⟨smaller, absent, rfl, rfl⟩ := eq_insert_of_cons entries
  have erased : (smaller.insert key value).erase key = smaller := by
    apply Finmap.ext_lookup
    intro query
    by_cases same : query = key
    · rw [same, Finmap.lookup_erase, Finmap.lookup_eq_none.mpr absent]
    · rw [Finmap.lookup_erase_ne same, Finmap.lookup_insert_of_ne _ same]
  rw [erased]

theorem insert_of_cons {map : Finmap β} {key : κ} {value : β key} {rest : Multiset (Sigma β)}
    (entries : map.entries = ⟨key, value⟩ ::ₘ rest) (new : β key) :
    (map.insert key new).entries = ⟨key, new⟩ ::ₘ rest := by
  obtain ⟨smaller, absent, rfl, rfl⟩ := eq_insert_of_cons entries
  rw [Finmap.insert_insert, Finmap.entries_insert_of_notMem absent]

theorem erase_of_notMem {map : Finmap β} {key : κ} (absent : key ∉ map) :
    map.erase key = map := by
  apply Finmap.ext_lookup
  intro query
  by_cases same : query = key
  · rw [same, Finmap.lookup_erase, Finmap.lookup_eq_none.mpr absent]
  · rw [Finmap.lookup_erase_ne same]

theorem card_le_insert (map : Finmap β) (key : κ) (value : β key) :
    map.keys.card ≤ (map.insert key value).keys.card := by
  apply Finset.card_le_card
  intro other member
  rw [Finmap.mem_keys] at member ⊢
  exact Finmap.mem_insert.mpr (.inr member)

theorem card_insert_le (map : Finmap β) (key : κ) (value : β key) :
    (map.insert key value).keys.card ≤ map.keys.card + 1 := by
  have subset : (map.insert key value).keys ⊆ Insert.insert key map.keys := by
    intro other member
    rw [Finmap.mem_keys, Finmap.mem_insert] at member
    rw [Finset.mem_insert, Finmap.mem_keys]
    exact member
  exact (Finset.card_le_card subset).trans (Finset.card_insert_le key map.keys)

theorem card_erase_le (map : Finmap β) (key : κ) :
    (map.erase key).keys.card ≤ map.keys.card := by
  rw [Finmap.keys_erase]
  exact Finset.card_erase_le

end Entries

end Lib
