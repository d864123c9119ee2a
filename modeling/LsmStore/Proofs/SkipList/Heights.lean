import LsmStore.Proofs.SkipList.LiveIterators
import LsmStore.Proofs.SkipList.Towers

/-!
# The heights of the towers do not show

Two lists into which the same keys are inserted have the same elements in the same order,
whatever towers these stand in.  Under a total preorder the place where a search ends is a
matter of the elements and their keys alone, so the same element is found or put in on both
sides.  From there all answers of a session agree, and its cursors and iterators stay at
the same elements.
-/

namespace LsmStore.SkipList

open Std

variable {Key : Type} {list other : SkipList Key} {elements front back : List Nat}

/-! ## Where a search ends, told without towers -/

/-- If no key with a property lies behind one without it, there is one split at which a search
by the property can end: in front of the first element without the property. -/
theorem Woven.split_eq
    (h : Woven list elements) {p : Key → Bool} (hsplit : elements = front ++ back)
    (hdown : list.toList.Pairwise fun a b => p b = true → p a = true)
    (hlast : ∀ index ∈ front.getLast?, list.holds p index = true)
    (hhead : ∀ index ∈ back.head?, list.holds p index = false) :
    front = elements.takeWhile (list.holds p) ∧ back = elements.dropWhile (list.holds p) := by
  obtain ⟨hpassed, -⟩ := h.forall_of_split hsplit hdown hlast hhead
  have hfront : ∀ index ∈ front, list.holds p index = true := by
    intro index hindex
    obtain ⟨key, hkey⟩ := h.exists_key (show index ∈ elements by simp [hsplit, hindex])
    rw [holds, hkey, Option.any_some]
    exact hpassed key (List.mem_filterMap.mpr ⟨index, hindex, hkey⟩)
  rw [hsplit, List.takeWhile_append_of_pos hfront, List.dropWhile_append_of_pos hfront]
  cases back with
  | nil => simp
  | cons index back =>
    have hstop : list.holds p index = false := hhead index rfl
    simp [hstop]

theorem Woven.seek?_eq_head?_dropWhile
    (h : Woven list elements) {p : Key → Bool}
    (hdown : list.toList.Pairwise fun a b => p b = true → p a = true) :
    list.seek? p = (elements.dropWhile (list.holds p)).head? := by
  obtain ⟨front, back, hsplit, hseek, hlast, hhead⟩ := h.seek?_eq p
  rw [hseek, (h.split_eq hsplit hdown hlast hhead).2]

theorem Woven.insert_eq_splice
    (h : Woven list elements) {key : Key}
    (hdown : list.toList.Pairwise fun a b =>
      list.isLess key b = true → list.isLess key a = true) :
    list.insert key =
      match list.equivalent? key (elements.dropWhile (list.holds (list.isLess key))).head? with
      | some index => (⟨some index⟩, list)
      | none =>
        (⟨some list.towers.size⟩,
          list.splice
            (list.splitTrail (elements.takeWhile (list.holds (list.isLess key)))
              (list.heights list.towers.size)) key) := by
  obtain ⟨front, back, hsplit, hlast, hhead, hinsert⟩ := h.insert_eq key
  obtain ⟨rfl, rfl⟩ := h.split_eq hsplit hdown hlast hhead
  exact hinsert

/-- The number of levels in use never leaves its bounds. -/
theorem Woven.heightInBounds_eq
    (h : Woven list elements) :
    list.heightInBounds = true := by
  rw [heightInBounds]
  by_cases hempty : list.isEmpty = true
  · have hsize : list.size = 0 := by
      rw [← h.length_toList, h.isEmpty_iff.mp hempty, List.length_nil]
    rw [if_pos hempty, h.height_of_empty hsize]
    rfl
  · have hpos : 1 ≤ list.height := h.height_pos
    rw [if_neg hempty]
    simp [hpos, h.height_le]

/-! ## Lists with the same elements -/

/-- Two lists with the same elements in the same order, in towers of whatever heights. -/
structure Alike (list other : SkipList Key) (elements : List Nat) : Prop where
  woven : Woven list elements
  woven_other : Woven other elements
  order_eq : other.order = list.order
  keyAt?_eq : other.keyAt? = list.keyAt?

namespace Alike

theorem towers_size_eq
    (h : Alike list other elements) :
    other.towers.size = list.towers.size := by
  rw [← h.woven.length_eq_towers, h.woven_other.length_eq_towers]

theorem size_eq
    (h : Alike list other elements) :
    other.size = list.size := by
  rw [← h.woven.length_eq, h.woven_other.length_eq]

theorem toList_eq
    (h : Alike list other elements) :
    other.toList = list.toList := by
  rw [h.woven.toList_eq, h.woven_other.toList_eq, h.keyAt?_eq]

theorem holds_eq
    (h : Alike list other elements) (p : Key → Bool) :
    other.holds p = list.holds p := by
  funext index
  rw [holds, holds, h.keyAt?_eq]

theorem isLess_eq
    (h : Alike list other elements) (key : Key) :
    other.isLess key = list.isLess key := by
  funext present
  rw [isLess, isLess, h.order_eq]

theorem isNotGreater_eq
    (h : Alike list other elements) (key : Key) :
    other.isNotGreater key = list.isNotGreater key := by
  funext present
  rw [isNotGreater, isNotGreater, h.order_eq]

theorem equivalent?_eq
    (h : Alike list other elements) (key : Key) (index? : Option Nat) :
    other.equivalent? key index? = list.equivalent? key index? := by
  rw [equivalent?, equivalent?, h.order_eq, h.keyAt?_eq]

theorem key?_eq
    (h : Alike list other elements) (cursor : Cursor) :
    other.key? cursor = list.key? cursor := by
  rw [key?, key?, h.keyAt?_eq]

theorem first_eq
    (h : Alike list other elements) :
    other.first = list.first := by
  rw [h.woven.first_eq, h.woven_other.first_eq]

theorem isEmpty_eq
    (h : Alike list other elements) :
    other.isEmpty = list.isEmpty := by
  rw [isEmpty, isEmpty, h.first_eq]

theorem advance_eq
    (h : Alike list other elements) {cursor : Cursor} (hcursor : cursor.Within list) :
    other.advance cursor = list.advance cursor := by
  obtain ⟨front, back, hsplit, rfl⟩ := h.woven.exists_split hcursor
  cases back with
  | nil => rfl
  | cons index back =>
    rw [List.head?_cons, h.woven.advance_eq hsplit, h.woven_other.advance_eq hsplit]

theorem keysFrom_eq
    (h : Alike list other elements) {cursor : Cursor} (hcursor : cursor.Within list) :
    other.keysFrom cursor = list.keysFrom cursor := by
  obtain ⟨front, back, hsplit, rfl⟩ := h.woven.exists_split hcursor
  rw [h.woven.keysFrom_eq hsplit, h.woven_other.keysFrom_eq hsplit, h.keyAt?_eq]

/-- A search ends at the same element if no key with its property lies behind one without it. -/
theorem seek?_eq
    (h : Alike list other elements) {p : Key → Bool}
    (hdown : list.toList.Pairwise fun a b => p b = true → p a = true) :
    other.seek? p = list.seek? p := by
  rw [h.woven.seek?_eq_head?_dropWhile hdown,
    h.woven_other.seek?_eq_head?_dropWhile (h.toList_eq ▸ hdown), h.holds_eq]

section Sorted

variable [TransCmp list.order]

theorem find_eq
    (h : Alike list other elements) (hsorted : Increasing list.order list.toList) (key : Key) :
    other.find key = list.find key := by
  rw [find, find, h.isLess_eq, h.seek?_eq (increasing_down_isLess hsorted key), h.equivalent?_eq]

theorem locate_eq
    (h : Alike list other elements) (hsorted : Increasing list.order list.toList)
    (position : Position Key) :
    other.locate position = list.locate position := by
  cases position with
  | first => exact h.first_eq
  | atEnd => rfl
  | equivalent key => exact h.find_eq hsorted key
  | notLess key =>
    rw [locate, locate, lowerBound, lowerBound, h.isLess_eq,
      h.seek?_eq (increasing_down_isLess hsorted key)]
  | greater key =>
    rw [locate, locate, upperBound, upperBound, h.isNotGreater_eq,
      h.seek?_eq (increasing_down_isNotGreater hsorted key)]

/-- An insertion finds the same element in both lists or puts in a new one at the same place,
in a tower of one height here and of another there. -/
theorem insert
    (h : Alike list other elements) (hsorted : Increasing list.order list.toList) (key : Key) :
    (other.insert key).1 = (list.insert key).1 ∧
      ∃ elements, Alike (list.insert key).2 (other.insert key).2 elements := by
  have hdown := increasing_down_isLess hsorted key
  have hdown' : other.toList.Pairwise fun a b =>
      other.isLess key b = true → other.isLess key a = true := by
    rwa [h.toList_eq, h.isLess_eq]
  have hinsert := h.woven.insert_eq_splice hdown
  have hinsert' := h.woven_other.insert_eq_splice hdown'
  rw [h.isLess_eq, h.holds_eq, h.equivalent?_eq, h.towers_size_eq] at hinsert'
  cases hequivalent :
      list.equivalent? key (elements.dropWhile (list.holds (list.isLess key))).head? with
  | some index =>
    rw [hequivalent] at hinsert hinsert'
    rw [hinsert, hinsert']
    exact ⟨rfl, elements, h⟩
  | none =>
    rw [hequivalent] at hinsert hinsert'
    rw [hinsert, hinsert']
    refine ⟨rfl, elements.takeWhile (list.holds (list.isLess key)) ++
      list.towers.size :: elements.dropWhile (list.holds (list.isLess key)), ?_⟩
    have hsplit := (List.takeWhile_append_dropWhile
      (p := list.holds (list.isLess key)) (l := elements)).symm
    constructor
    · exact h.woven.splice hsplit _ key
    · have hspliced := h.woven_other.splice hsplit (other.heights list.towers.size) key
      rwa [h.towers_size_eq] at hspliced
    · rw [order_splice, order_splice, h.order_eq]
    · funext index
      rw [keyAt?_splice, keyAt?_splice, h.towers_size_eq, h.keyAt?_eq]

end Sorted

end Alike

theorem alike_empty
    (order : Key → Key → Ordering) (heights heights' : Nat → Height) :
    Alike (empty order heights) (empty order heights') [] where
  woven := woven_empty order heights
  woven_other := woven_empty order heights'
  order_eq := rfl
  keyAt?_eq := rfl

/-! ## Sessions side by side -/

namespace Session

variable {order : Key → Key → Ordering} {session partner : Session Key} {inserted : List Key}

/-- Two sessions whose lists have the same elements in the same order, with their cursors and
iterators at the same elements. -/
structure Alike
    (order : Key → Key → Ordering) (session partner : Session Key) (inserted : List Key) :
    Prop where
  sound : session.Sound order inserted
  lists : ∃ elements, SkipList.Alike session.list partner.list elements
  cursors_eq : partner.cursors = session.cursors
  iterators_eq : partner.iterators = session.iterators

theorem Alike.advance_iterator_eq
    (h : session.Alike order partner inserted) (slot : Nat) :
    partner.list.advance (partner.iterators.get slot) =
      session.list.advance (session.iterators.get slot) := by
  obtain ⟨elements, hlists⟩ := h.lists
  rw [h.iterators_eq, hlists.advance_eq (h.sound.iterators_within slot)]

theorem Alike.advance_cursor_eq
    (h : session.Alike order partner inserted) (slot : Nat) :
    partner.list.advance (partner.cursors.get slot) =
      session.list.advance (session.cursors.get slot) := by
  obtain ⟨elements, hlists⟩ := h.lists
  rw [h.cursors_eq, hlists.advance_eq (h.sound.cursors_within slot)]

variable [TransCmp order]

theorem Alike.locate_eq
    (h : session.Alike order partner inserted) (position : Position Key) :
    partner.list.locate position = session.list.locate position := by
  obtain ⟨elements, hlists⟩ := h.lists
  obtain ⟨⟨rfl, -, hsorted, -⟩, -, -⟩ := h.sound
  exact hlists.locate_eq hsorted position

theorem Alike.contains_eq
    (h : session.Alike order partner inserted) (key : Key) :
    partner.list.contains key = session.list.contains key :=
  congrArg (fun cursor => !Cursor.isEnd cursor) (h.locate_eq (.equivalent key))

theorem Alike.insert
    (h : session.Alike order partner inserted) (key : Key) :
    (partner.list.insert key).1 = (session.list.insert key).1 ∧
      ∃ elements,
        SkipList.Alike (session.list.insert key).2 (partner.list.insert key).2 elements := by
  obtain ⟨elements, hlists⟩ := h.lists
  obtain ⟨⟨rfl, -, hsorted, -⟩, -, -⟩ := h.sound
  exact hlists.insert hsorted key

theorem Alike.key?_locate_eq
    (h : session.Alike order partner inserted) (position : Position Key) :
    partner.list.key? (partner.list.locate position) =
      session.list.key? (session.list.locate position) := by
  obtain ⟨elements, hlists⟩ := h.lists
  rw [h.locate_eq, hlists.key?_eq]

theorem Alike.answer_eq
    (h : session.Alike order partner inserted) (operation : Operation Key) :
    (partner.step operation).1 = (session.step operation).1 := by
  obtain ⟨elements, hlists⟩ := h.lists
  have hcursors := h.cursors_eq
  have hiterators := h.iterators_eq
  cases operation with
  | insert key =>
    obtain ⟨hcursor, grown, hnext⟩ := h.insert key
    have hkey : (partner.list.insert key).2.key? (partner.list.insert key).1 =
        (session.list.insert key).2.key? (session.list.insert key).1 := by
      rw [hcursor, hnext.key?_eq]
    exact congrArg₂ Answer.inserted hkey hnext.size_eq
  | keyAt position => exact congrArg Answer.key (h.key?_locate_eq position)
  | contains key => exact congrArg Answer.truth (h.contains_eq key)
  | compare a b =>
    have hresult : partner.list.order a b = session.list.order a b := by rw [hlists.order_eq]
    exact congrArg Answer.ordering hresult
  | summary =>
    simp only [Session.step]
    rw [hlists.size_eq, hlists.isEmpty_eq, hlists.first_eq, hlists.woven.heightInBounds_eq,
      hlists.woven_other.heightInBounds_eq]
  | keysFrom position =>
    simp only [Session.step]
    rw [h.locate_eq, hlists.keysFrom_eq (h.sound.locate_within position)]
  | next slot =>
    have hkey : partner.list.key? (partner.iterators.get slot) =
        session.list.key? (session.iterators.get slot) := by
      rw [hiterators, hlists.key?_eq]
    exact congrArg Answer.key hkey
  | place slot position => exact congrArg Answer.cursor (h.key?_locate_eq position)
  | advance slot =>
    simp only [Session.step]
    rw [h.advance_cursor_eq, hlists.key?_eq]
  | look slot =>
    simp only [Session.step]
    rw [hcursors, hlists.key?_eq]
  | equal a b =>
    simp only [Session.step]
    rw [hcursors]
  | openIterator | copy | dropWriter => rfl

/-- One operation leaves both sessions side by side. -/
theorem Alike.step
    (h : session.Alike order partner inserted) (operation : Operation Key) :
    (session.step operation).2.Alike order (partner.step operation).2
      (inserted ++ operation.keys) := by
  have hsound := h.sound.step operation
  have hlists := h.lists
  have hcursors := h.cursors_eq
  have hiterators := h.iterators_eq
  cases operation with
  | insert key =>
    obtain ⟨-, hnext⟩ := h.insert key
    exact ⟨hsound, hnext, hcursors, hiterators⟩
  | openIterator slot position =>
    exact ⟨hsound, hlists, hcursors,
      congrArg₂ (Slots.set · slot ·) hiterators (h.locate_eq position)⟩
  | next slot =>
    exact ⟨hsound, hlists, hcursors,
      congrArg₂ (Slots.set · slot ·) hiterators (h.advance_iterator_eq slot)⟩
  | place slot position =>
    exact ⟨hsound, hlists, congrArg₂ (Slots.set · slot ·) hcursors (h.locate_eq position),
      hiterators⟩
  | advance slot =>
    exact ⟨hsound, hlists, congrArg₂ (Slots.set · slot ·) hcursors (h.advance_cursor_eq slot),
      hiterators⟩
  | copy source target =>
    have hcopied : partner.cursors.get source = session.cursors.get source := by rw [hcursors]
    exact ⟨hsound, hlists, congrArg₂ (Slots.set · target ·) hcursors hcopied, hiterators⟩
  | keyAt | contains | compare | summary | keysFrom | look | equal | dropWriter =>
    exact ⟨hsound, hlists, hcursors, hiterators⟩

theorem Alike.run_eq
    (h : session.Alike order partner inserted) (operations : List (Operation Key)) :
    partner.run operations = session.run operations := by
  induction operations generalizing session partner inserted with
  | nil => rfl
  | cons operation operations ih =>
    exact congrArg₂ List.cons (h.answer_eq operation) (ih (h.step operation))

theorem Alike.after
    (h : session.Alike order partner inserted) (operations : List (Operation Key)) :
    (session.after operations).Alike order (partner.after operations)
      (inserted ++ operations.flatMap Operation.keys) := by
  induction operations generalizing session partner inserted with
  | nil =>
    rw [List.flatMap_nil, List.append_nil]
    exact h
  | cons operation operations ih =>
    rw [List.flatMap_cons, ← List.append_assoc]
    exact ih (h.step operation)

omit [TransCmp order] in
theorem alike_ofList
    (order : Key → Key → Ordering) (heights heights' : Nat → Height) :
    Alike order (ofList (empty order heights)) (ofList (empty order heights')) [] where
  sound := sound_ofList (keepsFirst_empty order heights)
  lists := ⟨[], alike_empty order heights heights'⟩
  cursors_eq := rfl
  iterators_eq := rfl

end Session

/-- Whatever heights the towers are given, the answers to any operations are the same: to
insertions, look-ups and listings, and through cursors and iterators that live on while keys
are inserted.  An insertion after them returns the same cursor. -/
theorem answers_independent_of_heights
    (order : Key → Key → Ordering) [TransCmp order] (heights heights' : Nat → Height)
    (operations : List (Operation Key)) :
    let session := Session.ofList (empty order heights)
    let partner := Session.ofList (empty order heights')
    partner.run operations = session.run operations ∧
      ∀ key, ((partner.after operations).list.insert key).1 =
        ((session.after operations).list.insert key).1 := by
  intro session partner
  have halike : session.Alike order partner [] := Session.alike_ofList order heights heights'
  constructor
  · exact halike.run_eq operations
  · intro key
    exact ((halike.after operations).insert key).1

/-- Towers of one level next to towers of twelve. -/
def oneOrTwelve (index : Nat) : Height :=
  if index % 2 = 0 then ⟨1, by decide, by decide⟩ else ⟨12, by decide, by decide⟩

/-- Numbers by their last digit, inserted while a cursor and an iterator are on their way. -/
def interleavedReads : List (Operation Int) :=
  [.insert 13, .insert 25, .openIterator 0 .first, .place 0 (.notLess 14), .insert 4, .next 0,
    .insert 43, .insert 7, .next 0, .advance 0, .place 1 (.greater 25), .equal 0 1, .summary]

theorem answers_independent_of_heights_interleavedReads :
    TransCmp (compareOn fun n : Int => n.tmod 10) ∧
      let session := Session.ofList (empty (compareOn fun n : Int => n.tmod 10) (Height.draw 7))
      let partner := Session.ofList (empty (compareOn fun n : Int => n.tmod 10) oneOrTwelve)
      (session.after interleavedReads).list.height = 2 ∧
        (partner.after interleavedReads).list.height = 12 ∧
        partner.run interleavedReads =
          [.inserted (some 13) 1, .inserted (some 25) 2, .done, .cursor (some 25),
            .inserted (some 4) 3, .key (some 13), .inserted (some 13) 3, .inserted (some 7) 4,
            .key (some 4), .cursor (some 7), .cursor (some 7), .truth true,
            .summary 4 false false true] := by
  have hanswers := answers_independent_of_heights (compareOn fun n : Int => n.tmod 10)
    (Height.draw 7) oneOrTwelve interleavedReads
  refine ⟨inferInstance, by decide, by decide, ?_⟩
  rw [hanswers.1]
  decide

end LsmStore.SkipList
