import RedisLite.Heap.Valid

/-!
# Sifting

`heap_up`, `heap_down` and `heap_update` restore the invariant after one slot has
changed; `heap_delete` and `heap_upsert` keep it.
-/

namespace RedisLite

open Lib Lib.HeapOrder

section Sift

variable {items : List HeapItem} {before : Mem (Option Nat)} {t : HeapItem}
  {timers : Timers} {pos : Nat}

/-- A finished update: the invariant holds and only the indices of the items have
changed. -/
structure Updated (items : List HeapItem) (before : Mem (Option Nat)) (after : Timers) :
    Prop where
  valid : after.Valid
  perm : after.heap.Perm items
  same : Mem.SameOutside (items.map HeapItem.ref) before after.heapIdx

/-- The keys of the array with the saved item put back into the hole. -/
def siftKeys (timers : Timers) (pos : Nat) (t : HeapItem) : Nat → Nat :=
  keyAt (timers.heap.set pos t)

/-- The state of `heap_up`: the saved item fits below. -/
structure SiftingUp (items : List HeapItem) (before : Mem (Option Nat)) (t : HeapItem)
    (state : Timers × Nat) : Prop where
  sifting : Sifting items before t state.1 state.2
  holed : Holed items.length (siftKeys state.1 state.2 t) state.2
  below : FitsBelow items.length (siftKeys state.1 state.2 t) state.2

/-- The state of `heap_down`: the saved item fits above. -/
structure SiftingDown (items : List HeapItem) (before : Mem (Option Nat)) (t : HeapItem)
    (state : Timers × Nat) : Prop where
  sifting : Sifting items before t state.1 state.2
  holed : Holed items.length (siftKeys state.1 state.2 t) state.2
  above : FitsAbove (siftKeys state.1 state.2 t) state.2

/-- The state at the end of a loop: the saved item fits. -/
structure Sifted (items : List HeapItem) (before : Mem (Option Nat)) (t : HeapItem)
    (state : Timers × Nat) : Prop where
  sifting : Sifting items before t state.1 state.2
  ordered : Ordered items.length (siftKeys state.1 state.2 t)

theorem siftKeys_self (sifting : Sifting items before t timers pos) :
    siftKeys timers pos t pos = t.val.toNat :=
  keyAt_set_self sifting.inside t

theorem siftKeys_other {slot : Nat} {item : HeapItem} (different : slot ≠ pos)
    (found : timers.heap[slot]? = some item) : siftKeys timers pos t slot = item.val.toNat := by
  rw [siftKeys, keyAt_set_ne different, keyAt_eq found]

theorem Sifted.place (sifted : Sifted items before t (timers, pos))
    (distinct : (items.map HeapItem.ref).Nodup) :
    Exec.Returns (timers.place pos t) fun after => Updated items before after := by
  have ordered := sifted.ordered
  rw [← sifted.sifting.length_eq] at ordered
  exact (sifted.sifting.finish distinct ordered).mono fun _ holds =>
    ⟨holds.1, holds.2.1, holds.2.2⟩

/-- One turn of `heap_up`. -/
theorem heapUpTurn_spec (distinct : (items.map HeapItem.ref).Nodup) (state : Timers × Nat)
    (up : SiftingUp items before t state) :
    Exec.Returns (heapUpTurn t state) (Step.Holds
      (fun after => SiftingUp items before t after ∧ after.2 < state.2)
      (Sifted items before t)) := by
  obtain ⟨timers, pos⟩ := state
  obtain ⟨sifting, holed, below⟩ := up
  have inside : pos < timers.heap.length := sifting.inside
  have length := sifting.length_eq
  by_cases positive : pos > 0
  · have parentLess : heapParent pos < pos := parent_lt positive
    have found : timers.heap[heapParent pos]? = some timers.heap[heapParent pos] :=
      List.getElem?_eq_getElem (by omega)
    have keySelf : siftKeys timers pos t pos = t.val.toNat := siftKeys_self sifting
    have keyParent : siftKeys timers pos t (parent pos) = timers.heap[heapParent pos].val.toNat :=
      siftKeys_other (Nat.ne_of_lt parentLess) found
    simp only [heapUpTurn, if_pos positive, found, Exec.deref_some, Exec.ok_bind]
    by_cases less : timers.heap[heapParent pos].val > t.val
    · rw [if_pos less]
      have less : siftKeys timers pos t pos < siftKeys timers pos t (parent pos) := by
        rw [keySelf, keyParent]
        exact UInt64.lt_iff_toNat_lt.mp less
      obtain ⟨after, placeEq, afterSifting, keys⟩ :=
        sifting.move distinct (Nat.ne_of_lt parentLess) found
      have keys : siftKeys after (heapParent pos) t =
          exchange (siftKeys timers pos t) pos (parent pos) := keys
      have moved := holed.up below positive (by simp only at length; omega) less
      simp only [placeEq, Exec.ok_bind, Exec.pure_eq_ok, Exec.returns_ok, Step.holds_next]
      refine ⟨⟨afterSifting, ?_, ?_⟩, parentLess⟩
      · rw [keys]
        exact moved.1
      · rw [keys]
        exact moved.2
    · rw [if_neg less, Exec.pure_eq_ok, Exec.returns_ok]
      refine ⟨sifting, holed.ordered (fun _ => ?_) below⟩
      have notLess := mt UInt64.lt_iff_toNat_lt.mpr less
      simp only [keySelf, keyParent]
      omega
  · simp only [heapUpTurn, if_neg positive, Exec.returns_ok, Step.holds_done]
    exact ⟨sifting, holed.ordered (fun abovePos => absurd abovePos positive) below⟩

theorem heapUp_spec (distinct : (items.map HeapItem.ref).Nodup)
    (found : timers.heap[pos]? = some t) (up : SiftingUp items before t (timers, pos)) :
    Exec.Returns (heapUp timers pos) fun after => Updated items before after := by
  obtain ⟨⟨after, hole⟩, loopEq, sifted⟩ :=
    loop_returns (SiftingUp items before t) (fun state => state.2) (heapUpTurn_spec distinct)
      (pos + 1) (timers, pos) up (Nat.lt_succ_self _)
  simp only [heapUp, found, Exec.deref_some, Exec.ok_bind, loopEq]
  exact sifted.place distinct

/-- One comparison of `heap_down` keeps the smaller of the two. -/
theorem heapSmaller_spec {heap : List HeapItem} (kid : Nat) (min : Nat × UInt64) :
    ∃ after, heapSmaller heap heap.length kid min = .ok after ∧
      ((after = min ∧ (kid < heap.length → min.2.toNat ≤ keyAt heap kid)) ∨
        (kid < heap.length ∧ after.1 = kid ∧ after.2.toNat = keyAt heap kid ∧
          keyAt heap kid < min.2.toNat)) := by
  by_cases inside : kid < heap.length
  · have found := List.getElem?_eq_getElem inside
    simp only [heapSmaller, if_pos inside, found, Exec.deref_some, Exec.ok_bind, Exec.pure_eq_ok,
      keyAt_eq found]
    refine ⟨_, rfl, ?_⟩
    by_cases less : heap[kid].val < min.2
    · rw [if_pos less]
      exact .inr ⟨inside, rfl, rfl, UInt64.lt_iff_toNat_lt.mp less⟩
    · rw [if_neg less]
      have notLess := mt UInt64.lt_iff_toNat_lt.mpr less
      exact .inl ⟨rfl, fun _ => by omega⟩
  · exact ⟨min, by simp [heapSmaller, inside], .inl ⟨rfl, fun below => absurd below inside⟩⟩

theorem kid_iff {slot pos : Nat} (positive : 0 < slot) :
    parent slot = pos ↔ slot = heapLeft pos ∨ slot = heapRight pos := by
  unfold parent heapLeft heapRight
  omega

/-- The two comparisons of `heap_down` find the smallest of the item and its kids. -/
theorem heapDown_min (heap : List HeapItem) (pos : Nat) (val : UInt64) :
    ∃ left minPos minVal,
      heapSmaller heap heap.length (heapLeft pos) (pos, val) = .ok left ∧
      heapSmaller heap heap.length (heapRight pos) left = .ok (minPos, minVal) ∧
      ((minPos = pos ∧ ∀ slot, 0 < slot → slot < heap.length → parent slot = pos →
          val.toNat ≤ keyAt heap slot) ∨
        (pos < minPos ∧ minPos < heap.length ∧ parent minPos = pos ∧
          keyAt heap minPos < val.toNat ∧
          ∀ slot, 0 < slot → slot < heap.length → parent slot = pos →
            keyAt heap minPos ≤ keyAt heap slot)) := by
  obtain ⟨left, leftEq, leftHolds⟩ := @heapSmaller_spec heap (heapLeft pos) (pos, val)
  obtain ⟨⟨minPos, minVal⟩, rightEq, rightHolds⟩ := @heapSmaller_spec heap (heapRight pos) left
  refine ⟨left, minPos, minVal, leftEq, rightEq, ?_⟩
  have leftAbove : pos < heapLeft pos := by unfold heapLeft; omega
  have rightAbove : pos < heapRight pos := by unfold heapRight; omega
  have leftKid : parent (heapLeft pos) = pos := (kid_iff (by omega)).mpr (.inl rfl)
  have rightKid : parent (heapRight pos) = pos := (kid_iff (by omega)).mpr (.inr rfl)
  rcases leftHolds with ⟨rfl, leftLe⟩ | ⟨leftInside, leftPos, leftVal, leftLess⟩
  · rcases rightHolds with ⟨⟨rfl, rfl⟩, rightLe⟩ | ⟨rightInside, rfl, -, rightLess⟩
    · refine .inl ⟨rfl, ?_⟩
      intro slot positive inside under
      rcases (kid_iff positive).mp under with rfl | rfl
      · exact leftLe inside
      · exact rightLe inside
    · refine .inr ⟨rightAbove, rightInside, rightKid, rightLess, ?_⟩
      intro slot positive inside under
      rcases (kid_iff positive).mp under with rfl | rfl
      · exact rightLess.le.trans (leftLe inside)
      · exact Nat.le_refl _
  · rcases rightHolds with ⟨equal, rightLe⟩ | ⟨rightInside, rfl, -, rightLess⟩
    · have isLeft : minPos = heapLeft pos := by rw [← leftPos, ← equal]
      subst isLeft
      refine .inr ⟨leftAbove, leftInside, leftKid, leftLess, ?_⟩
      intro slot positive inside under
      rcases (kid_iff positive).mp under with rfl | rfl
      · exact Nat.le_refl _
      · exact leftVal ▸ rightLe inside
    · rw [leftVal] at rightLess
      refine .inr ⟨rightAbove, rightInside, rightKid, rightLess.trans leftLess, ?_⟩
      intro slot positive inside under
      rcases (kid_iff positive).mp under with rfl | rfl
      · exact rightLess.le
      · exact Nat.le_refl _

/-- One turn of `heap_down`. -/
theorem heapDownTurn_spec (distinct : (items.map HeapItem.ref).Nodup) (state : Timers × Nat)
    (down : SiftingDown items before t state) :
    Exec.Returns (heapDownTurn t items.length state) (Step.Holds
      (fun after => SiftingDown items before t after ∧
        items.length - after.2 < items.length - state.2)
      (Sifted items before t)) := by
  obtain ⟨timers, pos⟩ := state
  obtain ⟨sifting, holed, above⟩ := down
  have inside : pos < timers.heap.length := sifting.inside
  have length : timers.heap.length = items.length := sifting.length_eq
  obtain ⟨left, minPos, minVal, leftEq, rightEq, smallest⟩ :=
    heapDown_min timers.heap pos t.val
  have keySelf : siftKeys timers pos t pos = t.val.toNat := siftKeys_self sifting
  have keyKid : ∀ slot, 0 < slot → parent slot = pos →
      siftKeys timers pos t slot = keyAt timers.heap slot := by
    intro slot positive under
    have less := parent_lt positive
    exact keyAt_set_ne (by omega) t
  rw [length] at leftEq rightEq smallest
  simp only [heapDownTurn, leftEq, rightEq, Exec.ok_bind]
  rcases smallest with ⟨rfl, least⟩ | ⟨past, minInside, kid, less, least⟩
  · rw [if_pos rfl, Exec.pure_eq_ok, Exec.returns_ok]
    refine ⟨sifting, holed.ordered above ?_⟩
    intro slot positive below under
    simp only [keySelf, keyKid slot positive under]
    exact least slot positive below under
  · have found : timers.heap[minPos]? = some timers.heap[minPos] :=
      List.getElem?_eq_getElem (by omega)
    obtain ⟨after, placeEq, afterSifting, keys⟩ :=
      sifting.move distinct (Nat.ne_of_gt past) found
    have keys : siftKeys after minPos t = exchange (siftKeys timers pos t) pos minPos := keys
    have keyMin := keyKid minPos (by omega) kid
    have moved := holed.down above (by omega) minInside kid
      (by simp only [keySelf, keyMin]; exact less) fun slot positive below under => by
        simp only [keyMin, keyKid slot positive under]
        exact least slot positive below under
    simp only [if_neg (Nat.ne_of_gt past), found, Exec.deref_some, Exec.ok_bind, placeEq,
      Exec.pure_eq_ok, Exec.returns_ok, Step.holds_next]
    refine ⟨⟨afterSifting, ?_, ?_⟩, by omega⟩
    · rw [keys]
      exact moved.1
    · rw [keys]
      exact moved.2

theorem heapDown_spec (distinct : (items.map HeapItem.ref).Nodup)
    (found : timers.heap[pos]? = some t) (down : SiftingDown items before t (timers, pos)) :
    Exec.Returns (heapDown timers pos items.length) fun after => Updated items before after := by
  obtain ⟨⟨after, hole⟩, loopEq, sifted⟩ :=
    loop_returns (SiftingDown items before t) (fun state => items.length - state.2)
      (heapDownTurn_spec distinct) (items.length + 1) (timers, pos) down (by simp only; omega)
  simp only [heapDown, found, Exec.deref_some, Exec.ok_bind, loopEq]
  exact sifted.place distinct

end Sift

/-! ## Updates -/

/-- A heap in which one slot may be wrong: its key is arbitrary and the index of its
entry is not yet stored. -/
structure Changed (timers : Timers) (pos : Nat) : Prop where
  inside : pos < timers.heap.length
  holed : Holed timers.heap.length (keyAt timers.heap) pos
  distinct : (timers.heap.map HeapItem.ref).Nodup
  live : ∀ item ∈ timers.heap, ∃ old, timers.heapIdx.cell item.ref = some old
  indexed : ∀ slot item, slot ≠ pos → timers.heap[slot]? = some item →
    timers.heapIdx.cell item.ref = some (some slot)

/-- Replacing one item of a heap changes its slot: the new item may have any key and
any stored index, as long as no other item points to the same entry. -/
theorem Timers.Valid.changed {timers : Timers} (valid : timers.Valid) {pos : Nat}
    {item : HeapItem} {heapIdx : Mem (Option Nat)} (inside : pos < timers.heap.length)
    (distinct : ∀ slot other, slot ≠ pos → timers.heap[slot]? = some other →
      other.ref ≠ item.ref)
    (live : ∃ stored, heapIdx.cell item.ref = some stored)
    (same : ∀ entry, entry ≠ item.ref → heapIdx.cell entry = timers.heapIdx.cell entry) :
    Changed ⟨timers.heap.set pos item, heapIdx⟩ pos := by
  have others : ∀ slot other, slot ≠ pos → timers.heap[slot]? = some other →
      heapIdx.cell other.ref = some (some slot) := by
    intro slot other notPos found
    rw [same _ (distinct slot other notPos found)]
    exact valid.indexed slot other found
  have atSlot : ∀ slot other, (timers.heap.set pos item)[slot]? = some other →
      other = item ∨ (slot ≠ pos ∧ timers.heap[slot]? = some other) := by
    intro slot other found
    by_cases isPos : slot = pos
    · rw [isPos, List.getElem?_set_self inside] at found
      exact .inl (Option.some.inj found).symm
    · rw [List.getElem?_set_ne (Ne.symm isPos)] at found
      exact .inr ⟨isPos, found⟩
  refine ⟨by simpa using inside, ?_, ?_, ?_, ?_⟩
  · rw [List.length_set]
    exact valid.ordered.holed (fun slot _ notPos => keyAt_set_ne notPos item) inside
  · have perm : (timers.heap.set pos item).Perm (item :: timers.heap.eraseIdx pos) :=
      List.set_perm_cons_eraseIdx inside item
    refine (perm.map HeapItem.ref).nodup_iff.mpr (List.nodup_cons.mpr ⟨?_, ?_⟩)
    · intro member
      obtain ⟨other, otherMem, sameRef⟩ := List.mem_map.mp member
      obtain ⟨slot, notPos, found⟩ := List.mem_eraseIdx_iff_getElem?.mp otherMem
      exact distinct slot other notPos found sameRef
    · exact valid.indexed.nodup.sublist ((List.eraseIdx_sublist _ _).map _)
  · intro other member
    obtain ⟨slot, found⟩ := List.mem_iff_getElem?.mp member
    rcases atSlot slot other found with isItem | ⟨notPos, found⟩
    · rw [isItem]
      exact live
    · exact ⟨some slot, others slot other notPos found⟩
  · intro slot other notPos found
    rw [List.getElem?_set_ne (Ne.symm notPos)] at found
    exact others slot other notPos found

/-- `heap_update` repairs the changed slot. -/
theorem heapUpdate_spec {timers : Timers} {pos : Nat} (changed : Changed timers pos) :
    Exec.Returns (heapUpdate timers pos timers.heap.length) fun after =>
      Updated timers.heap timers.heapIdx after := by
  have inside := changed.inside
  have found : timers.heap[pos]? = some timers.heap[pos] := List.getElem?_eq_getElem inside
  have whole : timers.heap.set pos timers.heap[pos] = timers.heap := List.set_getElem_self inside
  have sifting : Sifting timers.heap timers.heapIdx timers.heap[pos] timers pos :=
    ⟨inside, by rw [whole], changed.live, changed.indexed, .refl _ _⟩
  have keys : siftKeys timers pos timers.heap[pos] = keyAt timers.heap := by
    rw [siftKeys, whole]
  have holed : Holed timers.heap.length (siftKeys timers pos timers.heap[pos]) pos := by
    rw [keys]
    exact changed.holed
  by_cases positive : pos > 0
  · have parentLess : heapParent pos < pos := parent_lt positive
    have parentFound : timers.heap[heapParent pos]? = some timers.heap[heapParent pos] :=
      List.getElem?_eq_getElem (by omega)
    have keyParent : keyAt timers.heap (parent pos) = timers.heap[heapParent pos].val.toNat :=
      keyAt_eq parentFound
    have keySelf := keyAt_eq found
    simp only [heapUpdate, if_pos positive, parentFound, found, Exec.deref_some, Exec.ok_bind]
    by_cases less : timers.heap[heapParent pos].val > timers.heap[pos].val
    · rw [if_pos less]
      have below := holed.fitsBelow positive (by
        rw [keys, keySelf, keyParent]
        exact UInt64.lt_iff_toNat_lt.mp less)
      exact heapUp_spec changed.distinct found ⟨sifting, holed, below⟩
    · rw [if_neg less]
      have notLess := mt UInt64.lt_iff_toNat_lt.mpr less
      refine heapDown_spec changed.distinct found ⟨sifting, holed, fun _ => ?_⟩
      simp only [keys, keySelf, keyParent]
      omega
  · simp only [heapUpdate, if_neg positive]
    exact heapDown_spec changed.distinct found
      ⟨sifting, holed, fun abovePos => absurd abovePos positive⟩

/-- The front of a heap is a heap. -/
theorem Timers.Valid.front {timers : Timers} (valid : timers.Valid) {front back : List HeapItem}
    (whole : timers.heap = front ++ back) : Timers.Valid { timers with heap := front } := by
  have found : ∀ slot, slot < front.length → front[slot]? = timers.heap[slot]? := by
    intro slot below
    rw [whole, List.getElem?_append_left below]
  constructor
  · refine (valid.ordered.mono ?_).congr ?_
    · simp [whole]
    · intro slot below
      simp [keyAt, found slot below]
  · intro slot other slotFound
    have below := (List.getElem?_eq_some_iff.mp slotFound).1
    exact valid.indexed slot other (by rw [← found slot below, slotFound])

/-- `heap_delete` removes exactly the item at its index. -/
theorem heapDelete_spec {timers : Timers} (valid : timers.Valid) {pos : Nat} {item : HeapItem}
    (found : timers.heap[pos]? = some item) :
    Exec.Returns (heapDelete timers pos) fun after =>
      after.Valid ∧ timers.heap.Perm (item :: after.heap) ∧
        Mem.SameOutside (after.heap.map HeapItem.ref) timers.heapIdx after.heapIdx := by
  obtain ⟨inside, itemEq⟩ := List.getElem?_eq_some_iff.mp found
  obtain ⟨front, last, whole⟩ : ∃ front last, timers.heap = front ++ [last] :=
    ⟨_, _, (List.dropLast_append_getLast (List.ne_nil_of_length_pos (by omega))).symm⟩
  have lastEq : timers.heap.getLast? = some last := by simp [whole]
  have frontValid := valid.front whole
  have turned : timers.heap.Perm (last :: front) := by
    rw [whole]
    exact List.perm_append_comm
  simp only [heapDelete, found, lastEq, Exec.deref_some, Exec.ok_bind]
  by_cases isLast : pos = front.length
  · have heapEq : (timers.heap.set pos last).dropLast = front := by
      simp [whole, isLast]
    have itemLast : item = last := by
      rw [whole, isLast] at found
      simpa using found.symm
    rw [heapEq, if_neg (by omega), Exec.pure_eq_ok, Exec.returns_ok, itemLast]
    exact ⟨frontValid, turned, .refl _ _⟩
  · have length : timers.heap.length = front.length + 1 := by simp [whole]
    have below : pos < front.length := by omega
    have heapEq : (timers.heap.set pos last).dropLast = front.set pos last := by
      rw [whole, List.set_append_left _ _ below, List.dropLast_concat]
    have removed : timers.heap.Perm (item :: front.set pos last) := by
      have self := (List.getElem_cons_eraseIdx_perm below).symm
      have same : front[pos] = item := by
        rw [← itemEq]
        simp [whole, List.getElem_append_left below]
      rw [same] at self
      have replaced : (front.set pos last).Perm (last :: front.eraseIdx pos) :=
        List.set_perm_cons_eraseIdx below last
      exact turned.trans ((self.cons last).trans ((List.Perm.swap _ _ _).trans
        (replaced.symm.cons item)))
    have distinct : ((last :: front).map HeapItem.ref).Nodup :=
      (turned.map HeapItem.ref).nodup_iff.mp valid.indexed.nodup
    obtain ⟨slot, lastFound⟩ := List.mem_iff_getElem?.mp (turned.mem_iff.mpr List.mem_cons_self)
    have changed : Changed { timers with heap := front.set pos last } pos := by
      refine frontValid.changed below ?_ ⟨some slot, valid.indexed slot last lastFound⟩
        fun _ _ => rfl
      intro other held _ heldFound sameRef
      have heldMem : held ∈ front := List.mem_of_getElem? heldFound
      refine (List.nodup_cons.mp distinct).1 ?_
      exact List.mem_map.mpr ⟨held, heldMem, sameRef⟩
    obtain ⟨after, updateEq, updated⟩ := heapUpdate_spec changed
    rw [heapEq, if_pos (by simpa using below), updateEq, Exec.returns_ok]
    refine ⟨updated.valid, removed.trans (updated.perm.symm.cons item), ?_⟩
    exact updated.same.mono _ (updated.perm.symm.map HeapItem.ref).subset

/-- `heap_upsert` at the index of the entry's own item replaces that item. -/
theorem heapUpsert_update {timers : Timers} (valid : timers.Valid) {pos : Nat}
    {old new : HeapItem} (found : timers.heap[pos]? = some old) (same : new.ref = old.ref) :
    Exec.Returns (heapUpsert timers (some pos) new) fun after =>
      after.Valid ∧ (∃ rest, timers.heap.Perm (old :: rest) ∧ after.heap.Perm (new :: rest)) ∧
        Mem.SameOutside (after.heap.map HeapItem.ref) timers.heapIdx after.heapIdx := by
  obtain ⟨inside, itemEq⟩ := List.getElem?_eq_some_iff.mp found
  have before : timers.heap.Perm (old :: timers.heap.eraseIdx pos) := by
    have self := (List.getElem_cons_eraseIdx_perm inside).symm
    rwa [itemEq] at self
  have replaced : (timers.heap.set pos new).Perm (new :: timers.heap.eraseIdx pos) :=
    List.set_perm_cons_eraseIdx inside new
  have others : ∀ slot other, slot ≠ pos → timers.heap[slot]? = some other →
      other.ref ≠ new.ref := by
    intro slot other notPos otherFound sameRef
    have otherIdx := valid.indexed slot other otherFound
    rw [sameRef, same, valid.indexed pos old found] at otherIdx
    simp only [Option.some.injEq] at otherIdx
    exact notPos otherIdx.symm
  have changed : Changed { timers with heap := timers.heap.set pos new } pos :=
    valid.changed inside others ⟨some pos, by rw [same, valid.indexed pos old found]⟩
      fun _ _ => rfl
  obtain ⟨after, updateEq, updated⟩ := heapUpdate_spec changed
  refine ⟨after, ?_, updated.valid, ⟨_, before, updated.perm.trans replaced⟩, ?_⟩
  · have kept : (some pos).filter (fun pos => decide (pos < timers.heap.length)) = some pos := by
      rw [Option.filter_some, if_pos (by simpa using inside)]
    simp only [heapUpsert, kept]
    exact updateEq
  · exact updated.same.mono _ (updated.perm.symm.map HeapItem.ref).subset

/-- `heap_upsert` for an entry without an item adds one. -/
theorem heapUpsert_new {timers : Timers} (valid : timers.Valid) {new : HeapItem}
    {old : Option Nat} (live : timers.heapIdx.cell new.ref = some old)
    (absent : new.ref ∉ timers.heap.map HeapItem.ref) :
    Exec.Returns (heapUpsert timers none new) fun after =>
      after.Valid ∧ after.heap.Perm (new :: timers.heap) ∧
        Mem.SameOutside (after.heap.map HeapItem.ref) timers.heapIdx after.heapIdx := by
  have appended : (timers.heap ++ [new]).Perm (new :: timers.heap) := List.perm_append_comm
  have front : ∀ slot < timers.heap.length, (timers.heap ++ [new])[slot]? = timers.heap[slot]? :=
    fun slot below => List.getElem?_append_left below
  have changed : Changed { timers with heap := timers.heap ++ [new] } timers.heap.length := by
    refine ⟨by simp, ⟨?_, ?_⟩, ?_, ?_, ?_⟩
    · intro slot positive below notLast parentNot
      simp only [List.length_append, List.length_singleton] at below
      have less := parent_lt positive
      simp only [keyAt, front slot (by omega), front (parent slot) (by omega)]
      exact valid.ordered slot positive (by omega)
    · intro slot positive below under
      simp only [List.length_append, List.length_singleton] at below
      have less := parent_lt positive
      omega
    · refine ((appended.map HeapItem.ref).nodup_iff).mpr ?_
      exact List.nodup_cons.mpr ⟨absent, valid.indexed.nodup⟩
    · intro item member
      rcases List.mem_cons.mp (appended.mem_iff.mp member) with rfl | member
      · exact ⟨old, live⟩
      · obtain ⟨slot, slotFound⟩ := List.mem_iff_getElem?.mp member
        exact ⟨_, valid.indexed slot item slotFound⟩
    · intro slot item notLast slotFound
      have below := (List.getElem?_eq_some_iff.mp slotFound).1
      simp only [List.length_append, List.length_singleton] at below
      exact valid.indexed slot item (by rwa [← front slot (by omega)])
  obtain ⟨after, updateEq, updated⟩ := heapUpdate_spec changed
  refine ⟨after, ?_, updated.valid, updated.perm.trans appended, ?_⟩
  · simpa [heapUpsert] using updateEq
  · exact updated.same.mono _ (updated.perm.symm.map HeapItem.ref).subset

end RedisLite
