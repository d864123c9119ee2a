import Mathlib.Data.List.ReduceOption
import LsmStore.SkipList.Session
import LsmStore.Proofs.SkipList.Lookups

/-!
# Live iterators and cursors

A session goes on inserting keys while its iterators and cursors are live.  What an
iterator has handed out and what it still has ahead are together an increasing list, to
which an insertion adds its key exactly if the key is new and lies behind the one that
the iterator would return next.  A cursor stays at its key, from which it moves to where
the upper bound of that key is at the moment, and there is one cursor for each class of
keys in the list.
-/

namespace LsmStore.SkipList

open Std

variable {Key : Type} {order : Key → Key → Ordering} {list : SkipList Key} {elements : List Nat}
  {inserted : List Key} {cursor : Cursor} {key : Key}

/-! ## The keys ahead of a cursor -/

theorem Woven.key?_insert
    (h : Woven list elements) (hcursor : cursor.Within list) (key : Key) :
    (list.insert key).2.key? cursor = list.key? cursor := by
  obtain ⟨elements', hnext⟩ := woven_insertAll h [key]
  have hnext : Woven (list.insert key).2 elements' := hnext
  rw [hnext.key?_eq_head? (h.within_insert hcursor key), h.key?_eq_head? hcursor]
  rcases h.keysFrom_insert_cases hcursor key with hsame | ⟨first, before, after, hold, hnew⟩
  · rw [hsame]
  · rw [hold, hnew]
    rfl

theorem Woven.sublist_keysFrom_insert
    (h : Woven list elements) (hcursor : cursor.Within list) (key : Key) :
    (list.keysFrom cursor).Sublist ((list.insert key).2.keysFrom cursor) := by
  rcases h.keysFrom_insert_cases hcursor key with hsame | ⟨first, before, after, hold, hnew⟩
  · rw [hsame]
  · rw [hold, hnew]
    exact ((List.sublist_cons_self key after).append_left before).cons_cons first

/-- Whether an insertion puts a new element ahead of a cursor: there is no equivalent key, the
cursor is not at the end, and the key lies behind the one that the cursor is at. -/
def Joins (list : SkipList Key) (cursor : Cursor) (key : Key) : Prop :=
  list.contains key = false ∧ ∃ next ∈ list.key? cursor, list.order next key = .lt

/-- An insertion adds its key to what lies ahead of a cursor exactly if the key joins it. -/
theorem KeepsFirst.mem_keysFrom_insert_iff
    [TransCmp order] (h : KeepsFirst order list inserted) (hcursor : cursor.Within list)
    (key other : Key) :
    other ∈ (list.insert key).2.keysFrom cursor ↔
      other ∈ list.keysFrom cursor ∨ other = key ∧ list.Joins cursor key := by
  obtain ⟨elements, hwoven⟩ := h.woven
  have hfresh := h.fresh_iff key
  have hcontains := h.contains_eq_false_iff key
  have hmem := @mem_toList_insert_iff _ list elements (h.order_eq ▸ inferInstance) hwoven
    (h.order_eq ▸ h.increasing) key other
  rw [(h.insert key).mem_keysFrom_iff (hwoven.within_insert hcursor key),
    h.mem_keysFrom_iff hcursor, hwoven.key?_insert hcursor, hmem, Joins, h.order_eq, hcontains,
    ← hfresh]
  constructor
  · rintro ⟨hold | ⟨rfl, hnew⟩, first, hfirst, hnotLess⟩
    · exact Or.inl ⟨hold, first, hfirst, hnotLess⟩
    · refine Or.inr ⟨rfl, hnew, first, hfirst, ?_⟩
      have hpresent : first ∈ list.toList :=
        ((h.mem_keysFrom_iff hcursor first).mp (by
          rw [hwoven.key?_eq_head? hcursor] at hfirst
          exact List.mem_of_mem_head? hfirst)).1
      cases hcompare : order first other with
      | lt => rfl
      | eq => exact absurd hcompare (hnew first hpresent)
      | gt => exact absurd (OrientedCmp.lt_of_gt hcompare) hnotLess
  · rintro (⟨hold, hfirst⟩ | ⟨rfl, hnew, first, hfirst, hless⟩)
    · exact ⟨Or.inl hold, hfirst⟩
    · refine ⟨Or.inr ⟨rfl, hnew⟩, first, hfirst, ?_⟩
      rw [OrientedCmp.gt_of_lt hless]
      decide

/-! ## Steps of a session -/

namespace Operation

/-- The keys that an operation asks to insert. -/
def keys : Operation Key → List Key
  | .insert key => [key]
  | _ => []

/-- Whether an operation opens an iterator under a number. -/
def opens (slot : Nat) : Operation Key → Bool
  | .openIterator other _ => other == slot
  | _ => false

/-- What an operation with its answer has taken from the iterator under a number. -/
def takes (slot : Nat) : Operation Key → Answer Key → List (Option Key)
  | .next other, .key key? => if other = slot then [key?] else []
  | _, _ => []

end Operation

/-- What operations with their answers have taken from the iterator under a number, in the
order in which it was taken. -/
def taken (slot : Nat) (operations : List (Operation Key)) (answers : List (Answer Key)) :
    List (Option Key) :=
  (operations.zip answers).flatMap fun (operation, answer) => operation.takes slot answer

theorem taken_cons
    (slot : Nat) (operation : Operation Key) (operations : List (Operation Key))
    (answer : Answer Key) (answers : List (Answer Key)) :
    taken slot (operation :: operations) (answer :: answers) =
      operation.takes slot answer ++ taken slot operations answers :=
  List.flatMap_cons

namespace Session

/-- The session after some operations. -/
def after (session : Session Key) (operations : List (Operation Key)) : Session Key :=
  operations.foldl (fun session operation => (session.step operation).2) session

/-- The keys that lie ahead of an iterator. -/
def ahead (session : Session Key) (slot : Nat) : List Key :=
  session.list.keysFrom (session.iterators.get slot)

/-- A session whose list was made by insertions, with cursors and iterators in that list. -/
structure Sound (order : Key → Key → Ordering) (session : Session Key) (inserted : List Key) :
    Prop where
  keepsFirst : KeepsFirst order session.list inserted
  cursors_within : ∀ slot, (session.cursors.get slot).Within session.list
  iterators_within : ∀ slot, (session.iterators.get slot).Within session.list

variable {session : Session Key} {operation : Operation Key} {operations : List (Operation Key)}
  {slot : Nat}

theorem sound_ofList
    (h : KeepsFirst order list inserted) :
    (ofList list).Sound order inserted :=
  ⟨h, fun _ => Cursor.atEnd_within list, fun _ => Cursor.atEnd_within list⟩

theorem taken_run_cons
    (session : Session Key) (slot : Nat) (operation : Operation Key)
    (operations : List (Operation Key)) :
    taken slot (operation :: operations) (session.run (operation :: operations)) =
      operation.takes slot (session.step operation).1 ++
        taken slot operations ((session.step operation).2.run operations) :=
  taken_cons slot operation operations _ _

theorem ahead_setIterator
    (session : Session Key) (slot other : Nat) (cursor : Cursor) :
    ahead { session with iterators := session.iterators.set slot cursor } other =
      if other = slot then session.list.keysFrom cursor else session.ahead other := by
  rw [ahead, Slots.get_set]
  split <;> rfl

/-- Putting a cursor of the list under a number keeps all cursors within the list. -/
theorem forall_within_set
    {slots : Slots Cursor} (h : ∀ slot, (slots.get slot).Within list)
    (hcursor : cursor.Within list) (slot : Nat) :
    ∀ other, ((slots.set slot cursor).get other).Within list := by
  intro other
  rw [Slots.get_set]
  split
  · exact hcursor
  · exact h other

section Run

variable [TransCmp order]

theorem Sound.locate_within
    (h : session.Sound order inserted) (position : Position Key) :
    (session.list.locate position).Within session.list := by
  obtain ⟨elements, hwoven⟩ := h.keepsFirst.woven
  cases position with
  | first => exact hwoven.first_within
  | atEnd => exact Cursor.atEnd_within session.list
  | equivalent key => exact (h.keepsFirst.find_endsScan key).within hwoven
  | notLess key => exact hwoven.seek?_within _
  | greater key => exact hwoven.seek?_within _

theorem Sound.step
    (h : session.Sound order inserted) (operation : Operation Key) :
    (session.step operation).2.Sound order (inserted ++ operation.keys) := by
  obtain ⟨elements, hwoven⟩ := h.keepsFirst.woven
  have hlist : KeepsFirst order session.list (inserted ++ []) := by
    rw [List.append_nil]
    exact h.keepsFirst
  cases operation with
  | insert key =>
    exact ⟨h.keepsFirst.insert key, fun slot => hwoven.within_insert (h.cursors_within slot) key,
      fun slot => hwoven.within_insert (h.iterators_within slot) key⟩
  | openIterator slot position =>
    exact ⟨hlist, h.cursors_within,
      forall_within_set h.iterators_within (h.locate_within position) slot⟩
  | next slot =>
    have hmoved := (hwoven.advance_spec (h.iterators_within slot)).1
    exact ⟨hlist, h.cursors_within, forall_within_set h.iterators_within hmoved slot⟩
  | place slot position =>
    exact ⟨hlist, forall_within_set h.cursors_within (h.locate_within position) slot,
      h.iterators_within⟩
  | advance slot =>
    have hmoved := (hwoven.advance_spec (h.cursors_within slot)).1
    exact ⟨hlist, forall_within_set h.cursors_within hmoved slot, h.iterators_within⟩
  | copy source target =>
    exact ⟨hlist, forall_within_set h.cursors_within (h.cursors_within source) target,
      h.iterators_within⟩
  | keyAt | contains | compare | summary | keysFrom | look | equal | dropWriter =>
    exact ⟨hlist, h.cursors_within, h.iterators_within⟩

theorem Sound.after
    (h : session.Sound order inserted) (operations : List (Operation Key)) :
    (session.after operations).Sound order (inserted ++ operations.flatMap Operation.keys) := by
  induction operations generalizing session inserted with
  | nil => simpa [Session.after] using h
  | cons operation operations ih =>
    rw [List.flatMap_cons, ← List.append_assoc]
    exact ih (h.step operation)

/-- What a step does to an iterator that it does not open: nothing; or a key is inserted, which
comes to lie ahead if it joins what does; or the first of the keys ahead is handed out. -/
theorem Sound.ahead_cases
    (h : session.Sound order inserted) (hkept : operation.opens slot = false) :
    (∃ key, operation = .insert key ∧ operation.takes slot (session.step operation).1 = [] ∧
        (session.ahead slot).Sublist ((session.step operation).2.ahead slot) ∧
        ∀ other, other ∈ (session.step operation).2.ahead slot ↔ other ∈ session.ahead slot ∨
          other = key ∧ session.list.Joins (session.iterators.get slot) key) ∨
      (operation.keys = [] ∧ operation.takes slot (session.step operation).1 = [] ∧
        (session.step operation).2.ahead slot = session.ahead slot) ∨
      (operation.keys = [] ∧
        operation.takes slot (session.step operation).1 = [(session.ahead slot).head?] ∧
        (session.step operation).2.ahead slot = (session.ahead slot).tail) := by
  obtain ⟨elements, hwoven⟩ := h.keepsFirst.woven
  cases operation with
  | insert key =>
    left
    have hiterator := h.iterators_within slot
    exact ⟨key, rfl, rfl, hwoven.sublist_keysFrom_insert hiterator key,
      h.keepsFirst.mem_keysFrom_insert_iff hiterator key⟩
  | next other =>
    right
    by_cases hslot : slot = other
    · subst hslot
      refine Or.inr ⟨rfl, ?_, ?_⟩
      · have hkey := hwoven.key?_eq_head? (h.iterators_within slot)
        exact (if_pos rfl).trans (congrArg (fun key? => [key?]) hkey)
      · refine (ahead_setIterator session slot slot _).trans ?_
        rw [if_pos rfl]
        exact (hwoven.advance_spec (h.iterators_within slot)).2
    · refine Or.inl ⟨rfl, if_neg (Ne.symm hslot), ?_⟩
      refine (ahead_setIterator session other slot _).trans ?_
      rw [if_neg hslot]
  | openIterator other position =>
    have hslot : slot ≠ other := by
      rintro rfl
      simp [Operation.opens] at hkept
    refine Or.inr (Or.inl ⟨rfl, rfl, ?_⟩)
    refine (ahead_setIterator session other slot _).trans ?_
    rw [if_neg hslot]
  | place | advance | copy | keyAt | contains | compare | summary | keysFrom | look | equal
  | dropWriter => exact Or.inr (Or.inl ⟨rfl, rfl, rfl⟩)

end Run

/-! ## What a run hands out -/

/-- Whether a key is inserted in some operations when it joins what lies ahead of an iterator. -/
def JoinsDuring
    (session : Session Key) (slot : Nat) (operations : List (Operation Key)) (key : Key) : Prop :=
  ∃ before after, operations = before ++ .insert key :: after ∧
    (session.after before).list.Joins ((session.after before).iterators.get slot) key

/-- What some operations take from an iterator, and what lies ahead of it after them. -/
def yields (session : Session Key) (slot : Nat) (operations : List (Operation Key)) : List Key :=
  (taken slot operations (session.run operations)).reduceOption ++
    (session.after operations).ahead slot

theorem not_joinsDuring_nil
    (session : Session Key) (slot : Nat) (key : Key) :
    ¬ session.JoinsDuring slot [] key := by
  rintro ⟨before, after, hsplit, -⟩
  exact List.append_ne_nil_of_right_ne_nil before (List.cons_ne_nil _ after) hsplit.symm

theorem joinsDuring_cons_iff
    (session : Session Key) (slot : Nat) (operation : Operation Key)
    (operations : List (Operation Key)) (key : Key) :
    session.JoinsDuring slot (operation :: operations) key ↔
      operation = .insert key ∧ session.list.Joins (session.iterators.get slot) key ∨
        (session.step operation).2.JoinsDuring slot operations key := by
  constructor
  · rintro ⟨before, after, hsplit, hjoins⟩
    cases before with
    | nil => exact Or.inl ⟨(List.cons.inj hsplit).1, hjoins⟩
    | cons first before =>
      obtain ⟨rfl, hrest⟩ := List.cons.inj hsplit
      exact Or.inr ⟨before, after, hrest, hjoins⟩
  · rintro (⟨rfl, hjoins⟩ | ⟨before, after, rfl, hjoins⟩)
    · exact ⟨[], operations, rfl, hjoins⟩
    · exact ⟨operation :: before, after, rfl, hjoins⟩

theorem yields_nil
    (session : Session Key) (slot : Nat) :
    session.yields slot [] = session.ahead slot :=
  rfl

theorem yields_cons
    (session : Session Key) (slot : Nat) (operation : Operation Key)
    (operations : List (Operation Key)) :
    session.yields slot (operation :: operations) =
      (operation.takes slot (session.step operation).1).reduceOption ++
        (session.step operation).2.yields slot operations := by
  rw [yields, taken_run_cons, List.reduceOption_append, List.append_assoc]
  rfl

section Run

variable [TransCmp order]

/-- What an iterator yields are the keys ahead of it and those that join them. -/
theorem Sound.mem_yields_iff
    (h : session.Sound order inserted)
    (hkept : ∀ operation ∈ operations, operation.opens slot = false) (key : Key) :
    key ∈ session.yields slot operations ↔
      key ∈ session.ahead slot ∨ session.JoinsDuring slot operations key := by
  induction operations generalizing session inserted with
  | nil => simp [yields_nil, not_joinsDuring_nil]
  | cons operation operations ih =>
    obtain ⟨hfirst, hrest⟩ := List.forall_mem_cons.mp hkept
    rw [yields_cons, List.mem_append, ih (h.step operation) hrest, joinsDuring_cons_iff]
    rcases h.ahead_cases hfirst with
      ⟨new, rfl, htakes, -, hahead⟩ | ⟨hkeys, htakes, hahead⟩ | ⟨hkeys, htakes, hahead⟩
    · rw [htakes, hahead]
      simp only [List.reduceOption_nil, List.not_mem_nil, false_or, Operation.insert.injEq]
      grind
    · have hother : operation ≠ .insert key := by
        rintro rfl
        cases hkeys
      simp [htakes, hahead, hother, List.reduceOption_nil]
    · have hother : operation ≠ .insert key := by
        rintro rfl
        cases hkeys
      rw [htakes, hahead]
      cases session.ahead slot with
      | nil => simp [hother, List.reduceOption]
      | cons next keys => simp [hother, List.reduceOption, or_assoc]

theorem Sound.ahead_sublist_yields
    (h : session.Sound order inserted)
    (hkept : ∀ operation ∈ operations, operation.opens slot = false) :
    (session.ahead slot).Sublist (session.yields slot operations) := by
  induction operations generalizing session inserted with
  | nil => exact List.Sublist.refl _
  | cons operation operations ih =>
    obtain ⟨hfirst, hrest⟩ := List.forall_mem_cons.mp hkept
    have hnext := ih (h.step operation) hrest
    rw [yields_cons]
    rcases h.ahead_cases hfirst with
      ⟨new, -, htakes, hgrown, -⟩ | ⟨-, htakes, hahead⟩ | ⟨-, htakes, hahead⟩
    · rw [htakes]
      exact hgrown.trans hnext
    · rw [htakes, ← hahead]
      exact hnext
    · rw [hahead] at hnext
      rw [htakes]
      cases hkeys : session.ahead slot with
      | nil => exact List.nil_sublist _
      | cons next keys =>
        rw [hkeys] at hnext
        exact hnext.cons_cons next

/-- What lies below all keys ahead of an iterator lies below all that it yields. -/
theorem Sound.lt_of_mem_yields
    (h : session.Sound order inserted)
    (hkept : ∀ operation ∈ operations, operation.opens slot = false) {least : Key}
    (hleast : ∀ key ∈ session.ahead slot, order least key = .lt) :
    ∀ key ∈ session.yields slot operations, order least key = .lt := by
  induction operations generalizing session inserted with
  | nil => exact hleast
  | cons operation operations ih =>
    obtain ⟨hfirst, hrest⟩ := List.forall_mem_cons.mp hkept
    obtain ⟨elements, hwoven⟩ := h.keepsFirst.woven
    rw [yields_cons]
    rcases h.ahead_cases hfirst with
      ⟨new, -, htakes, -, hahead⟩ | ⟨-, htakes, hahead⟩ | ⟨-, htakes, hahead⟩
    · rw [htakes]
      refine ih (h.step operation) hrest fun key hkey => ?_
      rcases (hahead key).mp hkey with hold | ⟨rfl, -, next, hnext, hless⟩
      · exact hleast key hold
      · rw [hwoven.key?_eq_head? (h.iterators_within slot)] at hnext
        rw [h.keepsFirst.order_eq] at hless
        exact TransCmp.lt_trans (hleast next (List.mem_of_mem_head? hnext)) hless
    · rw [htakes]
      exact ih (h.step operation) hrest (hahead ▸ hleast)
    · rw [htakes]
      cases hkeys : session.ahead slot with
      | nil =>
        rw [hkeys] at hahead
        exact ih (h.step operation) hrest (by simp [hahead])
      | cons next keys =>
        rw [hkeys] at hahead hleast
        obtain ⟨hnext, hothers⟩ := List.forall_mem_cons.mp hleast
        refine List.forall_mem_cons.mpr ⟨hnext, ?_⟩
        exact ih (h.step operation) hrest (hahead ▸ hothers)

theorem Sound.yields_increasing
    (h : session.Sound order inserted)
    (hkept : ∀ operation ∈ operations, operation.opens slot = false) :
    Increasing order (session.yields slot operations) := by
  induction operations generalizing session inserted with
  | nil => exact h.keepsFirst.keysFrom_increasing (h.iterators_within slot)
  | cons operation operations ih =>
    obtain ⟨hfirst, hrest⟩ := List.forall_mem_cons.mp hkept
    have hnext := ih (h.step operation) hrest
    rw [yields_cons]
    rcases h.ahead_cases hfirst with
      ⟨new, -, htakes, -⟩ | ⟨-, htakes, -⟩ | ⟨-, htakes, hahead⟩
    · rwa [htakes]
    · rwa [htakes]
    · have hsorted := h.keepsFirst.keysFrom_increasing (h.iterators_within slot)
      rw [htakes]
      cases hkeys : session.ahead slot with
      | nil => exact hnext
      | cons next keys =>
        rw [← ahead, hkeys] at hsorted
        rw [hkeys] at hahead
        refine List.pairwise_cons.mpr ⟨?_, hnext⟩
        refine (h.step operation).lt_of_mem_yields hrest ?_
        rw [hahead]
        exact (List.pairwise_cons.mp hsorted).1

/-! ## The end of an iterator -/

theorem Sound.eq_none_of_ended
    (h : session.Sound order inserted)
    (hkept : ∀ operation ∈ operations, operation.opens slot = false)
    (hended : session.ahead slot = []) :
    (∀ key? ∈ taken slot operations (session.run operations), key? = none) ∧
      (session.after operations).ahead slot = [] := by
  induction operations generalizing session inserted with
  | nil => exact ⟨fun key? hkey => absurd hkey (List.not_mem_nil), hended⟩
  | cons operation operations ih =>
    obtain ⟨hfirst, hrest⟩ := List.forall_mem_cons.mp hkept
    obtain ⟨elements, hwoven⟩ := h.keepsFirst.woven
    rw [taken_run_cons, List.forall_mem_append]
    rcases h.ahead_cases hfirst with
      ⟨new, -, htakes, -, hahead⟩ | ⟨-, htakes, hahead⟩ | ⟨-, htakes, hahead⟩
    · have hstill : (session.step operation).2.ahead slot = [] := by
        rw [List.eq_nil_iff_forall_not_mem]
        intro key hkey
        rcases (hahead key).mp hkey with hold | ⟨-, -, next, hnext, -⟩
        · rw [hended] at hold
          cases hold
        · rw [hwoven.key?_eq_head? (h.iterators_within slot), ← ahead, hended] at hnext
          cases hnext
      obtain ⟨hnone, hfinal⟩ := ih (h.step operation) hrest hstill
      exact ⟨⟨by simp [htakes], hnone⟩, hfinal⟩
    · obtain ⟨hnone, hfinal⟩ := ih (h.step operation) hrest (hahead.trans hended)
      exact ⟨⟨by simp [htakes], hnone⟩, hfinal⟩
    · have hstill : (session.step operation).2.ahead slot = [] := by
        rw [hahead, hended, List.tail_nil]
      obtain ⟨hnone, hfinal⟩ := ih (h.step operation) hrest hstill
      exact ⟨⟨by simp [htakes, hended], hnone⟩, hfinal⟩

/-- Once an iterator has handed out nothing, it is at the end for good. -/
theorem Sound.ended_of_none_taken
    (h : session.Sound order inserted)
    (hkept : ∀ operation ∈ operations, operation.opens slot = false) :
    (taken slot operations (session.run operations)).Pairwise
        (fun first second => first = none → second = none) ∧
      (none ∈ taken slot operations (session.run operations) →
        (session.after operations).ahead slot = []) := by
  induction operations generalizing session inserted with
  | nil => exact ⟨List.Pairwise.nil, fun hnone => absurd hnone List.not_mem_nil⟩
  | cons operation operations ih =>
    obtain ⟨hfirst, hrest⟩ := List.forall_mem_cons.mp hkept
    obtain ⟨hpairs, hfinal⟩ := ih (h.step operation) hrest
    rw [taken_run_cons]
    rcases h.ahead_cases hfirst with
      ⟨new, -, htakes, -⟩ | ⟨-, htakes, -⟩ | ⟨-, htakes, hahead⟩
    · rw [htakes]
      exact ⟨hpairs, hfinal⟩
    · rw [htakes]
      exact ⟨hpairs, hfinal⟩
    · have hlate := fun hended : (session.ahead slot).head? = none =>
        (h.step operation).eq_none_of_ended hrest
          (show (session.step operation).2.ahead slot = [] by
            rw [hahead, List.head?_eq_none_iff.mp hended, List.tail_nil])
      rw [htakes]
      constructor
      · refine List.pairwise_cons.mpr ⟨?_, hpairs⟩
        intro later hlater hended
        exact (hlate hended).1 later hlater
      · intro hnone
        rcases List.mem_cons.mp hnone with hended | hnone
        · exact (hlate hended.symm).2
        · exact hfinal hnone

/-! ## When a new key joins -/

theorem Sound.contains_of_insert_mem
    (h : session.Sound order inserted) (hmember : .insert key ∈ operations) :
    (session.after operations).list.contains key = true := by
  have hkey : key ∈ operations.flatMap Operation.keys :=
    List.mem_flatMap.mpr ⟨_, hmember, List.mem_singleton_self key⟩
  rw [(h.after operations).keepsFirst.contains_iff]
  exact ⟨key, List.mem_append_right _ hkey, ReflCmp.compare_self⟩

theorem Sound.contains_of_mem_ahead
    (h : session.Sound order inserted) (hmember : key ∈ session.ahead slot)
    (operations : List (Operation Key)) :
    (session.after operations).list.contains key = true := by
  have hlisted := ((h.keepsFirst.mem_keysFrom_iff (h.iterators_within slot) key).mp hmember).1
  obtain ⟨earlier, later, rfl, -⟩ := (h.keepsFirst.mem_iff key).mp hlisted
  rw [(h.after operations).keepsFirst.contains_iff]
  exact ⟨key, by simp, ReflCmp.compare_self⟩

/-- A key is new at one of its insertions only: the other ones find it there already. -/
theorem Sound.before_eq_of_fresh
    (h : session.Sound order inserted) {before after before' after' : List (Operation Key)}
    (hsplit : before ++ .insert key :: after = before' ++ .insert key :: after')
    (hfresh : (session.after before).list.contains key = false)
    (hfresh' : (session.after before').list.contains key = false) :
    before = before' := by
  rcases List.append_eq_append_iff.mp hsplit with
    ⟨between, rfl, hrest⟩ | ⟨between, rfl, hrest⟩
  · cases between with
    | nil => exact (List.append_nil before).symm
    | cons first between =>
      obtain ⟨rfl, -⟩ := List.cons.inj hrest
      have hthere := h.contains_of_insert_mem
        (show .insert key ∈ before ++ .insert key :: between by simp)
      rw [hfresh'] at hthere
      cases hthere
  · cases between with
    | nil => exact List.append_nil before'
    | cons first between =>
      obtain ⟨rfl, -⟩ := List.cons.inj hrest
      have hthere := h.contains_of_insert_mem
        (show .insert key ∈ before' ++ .insert key :: between by simp)
      rw [hfresh] at hthere
      cases hthere

/-- A key that is new when it is inserted can join an iterator at that moment only. -/
theorem Sound.mem_yields_iff_of_fresh
    (h : session.Sound order inserted)
    (hkept : ∀ operation ∈ operations, operation.opens slot = false)
    {before after : List (Operation Key)} (hsplit : operations = before ++ .insert key :: after)
    (hfresh : (session.after before).list.contains key = false) :
    key ∈ session.yields slot operations ↔
      ∃ next ∈ (session.after before).list.key? ((session.after before).iterators.get slot),
        order next key = .lt := by
  have horder := (h.after before).keepsFirst.order_eq
  rw [h.mem_yields_iff hkept]
  constructor
  · rintro (hahead | ⟨before', after', hsplit', hnew, next, hnext, hless⟩)
    · have hthere := h.contains_of_mem_ahead hahead before
      rw [hfresh] at hthere
      cases hthere
    · obtain rfl := h.before_eq_of_fresh (hsplit.symm.trans hsplit') hfresh hnew
      rw [horder] at hless
      exact ⟨next, hnext, hless⟩
  · rintro ⟨next, hnext, hless⟩
    refine Or.inr ⟨before, after, hsplit, hfresh, next, hnext, ?_⟩
    rwa [horder]

/-! ## Live iterators and cursors -/

/-- What a session guarantees of its cursors: one at a key moves to where the upper bound of the
key is, one at the end stays, and two are equal if both are at the end or at equivalent keys. -/
theorem Sound.cursor_spec
    (h : session.Sound order inserted) (slot : Nat) :
    let cursor := session.cursors.get slot
    (∀ key ∈ session.list.key? cursor,
        session.list.advance cursor = session.list.upperBound key) ∧
      (cursor.isEnd = true → session.list.advance cursor = cursor) ∧
      ∀ other,
        cursor = session.cursors.get other ↔
          cursor.isEnd = true ∧ (session.cursors.get other).isEnd = true ∨
            ∃ key ∈ session.list.key? cursor,
              ∃ key' ∈ session.list.key? (session.cursors.get other), order key key' = .eq := by
  intro cursor
  refine ⟨fun key hkey => h.keepsFirst.advance_eq_upperBound hkey, ?_, fun other => ?_⟩
  · intro hend
    rw [cursor.isEnd_iff.mp hend]
    rfl
  · obtain ⟨rfl, ⟨elements, hwoven⟩, hsorted, -⟩ := h.keepsFirst
    exact hwoven.cursor_eq_iff hsorted (h.cursors_within slot) (h.cursors_within other)

end Run

/-- Iterators and cursors stay exact while keys are inserted, in whatever way the operations on
them are mixed.  An iterator returns keys that strictly increase, and after the last of them it
returns nothing for good.  If it has come to the end, it has returned all that lay ahead of it
when it was opened; a key that was new when it was inserted meanwhile has been returned exactly
if the iterator was not at the end and the key lies behind the one that it would have returned
next; and it has returned nothing else.  A cursor at a key moves to the upper bound of the key at
the moment and one at the end stays, two cursors are equal exactly if both are at the end or at
equivalent keys, and an insertion returns the cursor at which its key is found then. -/
theorem live_iterators_stay_exact
    (order : Key → Key → Ordering) [TransCmp order] (heights : Nat → Height)
    (earlier : List (Operation Key)) (slot : Nat) (position : Position Key)
    {later : List (Operation Key)} (hkept : ∀ operation ∈ later, operation.opens slot = false) :
    let start := (ofList (empty order heights)).after earlier
    let opened := start.after [.openIterator slot position]
    let final := opened.after later
    let returned := taken slot later (opened.run later)
    Increasing order returned.reduceOption ∧
      returned.Pairwise (fun first second => first = none → second = none) ∧
      (none ∈ returned →
        (start.list.keysFrom (start.list.locate position)).Sublist returned.reduceOption ∧
        (∀ before key after, later = before ++ .insert key :: after →
          let session := opened.after before
          session.list.contains key = false →
            (key ∈ returned.reduceOption ↔
              ∃ next ∈ session.list.key? (session.iterators.get slot), order next key = .lt)) ∧
        ∀ key ∈ returned.reduceOption,
          key ∈ start.list.keysFrom (start.list.locate position) ∨
            ∃ before after, later = before ++ .insert key :: after ∧
              (opened.after before).list.contains key = false) ∧
      (∀ number,
        let cursor := final.cursors.get number
        (∀ key ∈ final.list.key? cursor,
            final.list.advance cursor = final.list.upperBound key) ∧
          (cursor.isEnd = true → final.list.advance cursor = cursor) ∧
          ∀ other,
            cursor = final.cursors.get other ↔
              cursor.isEnd = true ∧ (final.cursors.get other).isEnd = true ∨
                ∃ key ∈ final.list.key? cursor,
                  ∃ key' ∈ final.list.key? (final.cursors.get other), order key key' = .eq) ∧
      ∀ key, (final.list.insert key).1 = (final.list.insert key).2.find key := by
  intro start opened final returned
  have hstart : start.Sound order _ :=
    (sound_ofList (keepsFirst_empty order heights)).after earlier
  have hopened : opened.Sound order _ := hstart.after [.openIterator slot position]
  have hfinal : final.Sound order _ := hopened.after later
  have hahead : opened.ahead slot = start.list.keysFrom (start.list.locate position) :=
    (ahead_setIterator start slot slot _).trans (if_pos rfl)
  have hincreasing := hopened.yields_increasing hkept
  obtain ⟨hforever, hended⟩ := hopened.ended_of_none_taken hkept
  refine ⟨?_, hforever, fun hnone => ?_, hfinal.cursor_spec, hfinal.keepsFirst.insert_eq_find⟩
  · exact (List.pairwise_append.mp hincreasing).1
  · have hall : opened.yields slot later = returned.reduceOption := by
      rw [yields, hended hnone, List.append_nil]
    rw [← hall, ← hahead]
    refine ⟨hopened.ahead_sublist_yields hkept, ?_, ?_⟩
    · intro before key after hsplit session hfresh
      exact hopened.mem_yields_iff_of_fresh hkept hsplit hfresh
    · intro key hkey
      refine ((hopened.mem_yields_iff hkept key).mp hkey).imp id ?_
      rintro ⟨before, after, hsplit, hfresh, -⟩
      exact ⟨before, after, hsplit, hfresh⟩

/-- Three keys and a cursor on the least of them. -/
def threeKeys : List (Operation Int) :=
  [.insert 25, .insert 13, .insert 11, .place 0 (.equivalent 31)]

/-- Keys are inserted in front of what an iterator returns next, equivalent to it, behind it, and
when it is at the end. -/
def mixedInsertions : List (Operation Int) :=
  [.next 0, .insert 14, .insert 45, .insert 36, .next 0, .advance 0, .next 0, .insert 49, .next 0,
    .next 0]

theorem live_iterators_stay_exact_mixedInsertions :
    (∀ operation ∈ mixedInsertions, operation.opens 0 = false) ∧
      let start := (ofList (empty (compareOn fun n : Int => n.tmod 10) (Height.draw 7))).after
        threeKeys
      let opened := start.after [.openIterator 0 (.notLess 2)]
      let halfway := opened.after [.next 0, .insert 14, .insert 45]
      let final := opened.after mixedInsertions
      taken 0 mixedInsertions (opened.run mixedInsertions) =
          [some 13, some 25, some 36, none, none] ∧
        (start.list.keysFrom (start.list.locate (.notLess 2))).Sublist [13, 25, 36] ∧
        (∃ next ∈ halfway.list.key? (halfway.iterators.get 0),
          compareOn (fun n : Int => n.tmod 10) next 36 = .lt) ∧
        final.list.advance (final.cursors.get 0) = final.list.upperBound 13 := by
  have hkept : ∀ operation ∈ mixedInsertions, operation.opens 0 = false := by decide
  obtain ⟨-, -, hexhausted, hcursors, -⟩ := live_iterators_stay_exact
    (compareOn fun n : Int => n.tmod 10) (Height.draw 7) threeKeys 0 (.notLess 2) hkept
  generalize hreturned : taken 0 mixedInsertions _ = returned at hexhausted
  obtain rfl : returned = [some 13, some 25, some 36, none, none] := by
    rw [← hreturned]
    decide +kernel
  obtain ⟨hstarted, hjoined, -⟩ := hexhausted (by decide)
  refine ⟨hkept, hreturned, hstarted, ?_, ?_⟩
  · exact (hjoined [.next 0, .insert 14, .insert 45] 36 _ rfl (by decide +kernel)).mp (by decide)
  · exact (hcursors 0).1 13 (by decide +kernel)

end Session

end LsmStore.SkipList
