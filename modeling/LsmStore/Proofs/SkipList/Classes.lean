import Mathlib.Data.Set.Card
import LsmStore.Proofs.SkipList.SortedSet

/-!
# One element for each class

Keys that compare as equal form a class.  Of the keys that are inserted a tower list
keeps the first of each class, so it has as many elements as there are classes.  An
insertion returns a cursor on the element of the class of its key: a new element if
the class was not there before, and else the one that the list has kept.
-/

namespace LsmStore.SkipList

open Std

variable {Key : Type} {order : Key → Key → Ordering}

/-! ## Classes of keys -/

/-- The keys that are equivalent to a key. -/
def classOf (order : Key → Key → Ordering) (key : Key) : Set Key :=
  {other | order other key = .eq}

/-- The classes that some keys belong to. -/
def classes (order : Key → Key → Ordering) (keys : List Key) : Set (Set Key) :=
  classOf order '' {key | key ∈ keys}

theorem classOf_eq_classOf_iff
    [TransCmp order] {key other : Key} :
    classOf order key = classOf order other ↔ order key other = .eq := by
  constructor
  · intro hsame
    have hself : key ∈ classOf order key := ReflCmp.compare_self
    rwa [hsame] at hself
  · intro hequal
    ext member
    show order member key = .eq ↔ order member other = .eq
    rw [TransCmp.congr_right hequal]

theorem classes_eq_empty_iff
    {keys : List Key} :
    classes order keys = ∅ ↔ keys = [] := by
  rw [classes, Set.image_eq_empty, Set.eq_empty_iff_forall_notMem, List.eq_nil_iff_forall_not_mem]
  rfl

/-- Keys that strictly increase belong to a class each. -/
theorem Increasing.ncard_classes
    [TransCmp order] {keys : List Key} (h : Increasing order keys) :
    (classes order keys).ncard = keys.length := by
  induction keys with
  | nil => simp [classes]
  | cons key keys ih =>
    obtain ⟨hleast, htail⟩ := List.pairwise_cons.mp h
    have hcons : classes order (key :: keys) =
        Insert.insert (classOf order key) (classes order keys) := by
      rw [classes, classes, ← Set.image_insert_eq]
      congr 1
      ext other
      exact List.mem_cons
    have hfresh : classOf order key ∉ classes order keys := by
      rintro ⟨other, hother, hsame⟩
      have hless := hleast other hother
      rw [OrientedCmp.eq_symm (classOf_eq_classOf_iff.mp hsame)] at hless
      cases hless
    have hfinite : (classes order keys).Finite := (List.finite_toSet keys).image _
    rw [hcons, Set.ncard_insert_of_notMem hfresh hfinite, ih htail, List.length_cons]

/-! ## Elements and classes -/

variable {list : SkipList Key} {elements : List Nat} {inserted : List Key}

theorem Woven.length_toList
    (h : Woven list elements) :
    list.toList.length = list.size := by
  have hkeys : ∀ index ∈ elements, (list.keyAt? index).isSome = true := by
    intro index hindex
    obtain ⟨key, hkey⟩ := h.exists_key hindex
    rw [hkey, Option.isSome_some]
  rw [h.toList_eq, ← h.length_eq]
  exact List.filterMap_length_eq_length.mpr hkeys

theorem Woven.isEmpty_iff
    (h : Woven list elements) :
    list.isEmpty = true ↔ list.toList = [] := by
  rw [← List.length_eq_zero_iff, h.length_toList, ← h.length_eq, List.length_eq_zero_iff]
  rw [isEmpty, h.first_eq, Cursor.isEnd, Option.isNone_iff_eq_none, List.head?_eq_none_iff]

theorem Woven.take_first
    (h : Woven list elements) (limit : Nat) :
    list.take limit list.first = list.toList.take limit := by
  rw [h.first_eq, h.toList_eq]
  exact h.take_eq limit (List.nil_append elements).symm

section KeepsFirst

variable [TransCmp order] {key : Key}

theorem KeepsFirst.classes_toList
    (h : KeepsFirst order list inserted) :
    classes order list.toList = classes order inserted := by
  apply Set.Subset.antisymm
  · rintro _ ⟨key, hkey, rfl⟩
    obtain ⟨earlier, later, rfl, -⟩ := (h.mem_iff key).mp hkey
    exact ⟨key, by simp, rfl⟩
  · rintro _ ⟨key, hkey, rfl⟩
    obtain ⟨first, hfirst, hequal⟩ := @exists_isFirst _ order _ _ _ hkey
    exact ⟨first, (h.mem_iff first).mpr hfirst, classOf_eq_classOf_iff.mpr hequal⟩

theorem KeepsFirst.size_eq_ncard
    (h : KeepsFirst order list inserted) :
    list.size = (classes order inserted).ncard := by
  obtain ⟨elements, hwoven⟩ := h.woven
  rw [← h.classes_toList, h.increasing.ncard_classes, hwoven.length_toList]

theorem KeepsFirst.isEmpty_iff
    (h : KeepsFirst order list inserted) :
    list.isEmpty = true ↔ classes order inserted = ∅ := by
  obtain ⟨elements, hwoven⟩ := h.woven
  rw [hwoven.isEmpty_iff, ← h.classes_toList, classes_eq_empty_iff]

/-! ## The element that an insertion returns -/

theorem KeepsFirst.insert_of_equivalent
    (h : KeepsFirst order list inserted)
    (hknown : ∃ present ∈ inserted, order present key = .eq) :
    (list.insert key).2 = list ∧
      ∃ element ∈ list.toList, list.key? (list.insert key).1 = some element ∧
        order element key = .eq := by
  have hstale : ¬ ∀ present ∈ list.toList, order present key ≠ .eq := by
    intro hfresh
    obtain ⟨present, hpresent, hequal⟩ := hknown
    exact (h.fresh_iff key).mp hfresh present hpresent hequal
  obtain ⟨rfl, ⟨elements, hwoven⟩, hsorted, -⟩ := h
  rcases hwoven.insert_cases hsorted key with
    ⟨cursor, element, hinsert, hcursor, helement, hequal⟩ |
    ⟨front, back, _, hkeys, hfront, hback, -⟩
  · rw [hinsert]
    exact ⟨rfl, element, helement, hcursor, OrientedCmp.eq_symm hequal⟩
  · exfalso
    apply hstale
    intro present hpresent hequal
    rw [hkeys] at hpresent
    rcases List.mem_append.mp hpresent with hless | hgreater
    · rw [hfront present hless] at hequal
      cases hequal
    · have hbehind := hback present hgreater
      rw [OrientedCmp.eq_symm hequal] at hbehind
      cases hbehind

/-- If no key of the class was inserted before, the key itself is put into a new element. -/
theorem KeepsFirst.insert_of_fresh
    (h : KeepsFirst order list inserted)
    (hfresh : ∀ present ∈ inserted, order present key ≠ .eq) :
    (list.insert key).2.key? (list.insert key).1 = some key ∧
      list.key? (list.insert key).1 = none ∧ key ∈ (list.insert key).2.toList := by
  have hnew := (h.fresh_iff key).mpr hfresh
  obtain ⟨rfl, ⟨elements, hwoven⟩, hsorted, -⟩ := h
  rcases hwoven.insert_cases hsorted key with
    ⟨cursor, element, -, -, helement, hequal⟩ |
    ⟨front, back, _, -, -, -, -, -, hinserted, hcursor, hold⟩
  · exact absurd (OrientedCmp.eq_symm hequal) (hnew element helement)
  · refine ⟨hcursor, hold, ?_⟩
    rw [hinserted]
    simp

end KeepsFirst

/-- After any insertions, with any heights of towers, the elements strictly increase and are the
first keys of their classes.  There are as many as there are classes, and an iteration over them
comes to its end.  One more insertion returns a cursor on an element of the class of its key; that
is the key itself, in a new element, exactly if the class is new, and else the list stays. -/
theorem insertAll_keeps_first_of_each_class
    (order : Key → Key → Ordering) [TransCmp order] (heights : Nat → Height) (keys : List Key) :
    let list := (empty order heights).insertAll keys
    Increasing order list.toList ∧
      (∀ key, key ∈ list.toList ↔ IsFirst order keys key) ∧
      (∀ limit, list.take limit list.first = list.toList.take limit) ∧
      list.size = (classes order keys).ncard ∧
      (list.isEmpty = true ↔ classes order keys = ∅) ∧
      ∀ key,
        let cursor := (list.insert key).1
        let next := (list.insert key).2
        (∃ element ∈ next.toList, next.key? cursor = some element ∧ order element key = .eq) ∧
          (next.key? cursor = some key ∧ list.key? cursor = none ↔
            ∀ present ∈ keys, order present key ≠ .eq) ∧
          ((∃ present ∈ keys, order present key = .eq) → next = list) := by
  intro list
  have hkeeps : KeepsFirst order list keys := (keepsFirst_empty order heights).insertAll keys
  obtain ⟨elements, hwoven⟩ := hkeeps.woven
  refine ⟨hkeeps.increasing, hkeeps.mem_iff, hwoven.take_first, hkeeps.size_eq_ncard,
    hkeeps.isEmpty_iff, ?_⟩
  intro key cursor next
  by_cases hknown : ∃ present ∈ keys, order present key = .eq
  · obtain ⟨hnext, element, helement, hcursor, hequal⟩ := hkeeps.insert_of_equivalent hknown
    have hcursor' : next.key? cursor = some element := by
      rw [show next = list from hnext]
      exact hcursor
    refine ⟨⟨element, ?_, hcursor', hequal⟩, ?_, ?_⟩
    · rw [show next = list from hnext]
      exact helement
    · constructor
      · rintro ⟨-, hnone⟩
        cases hcursor.symm.trans hnone
      · intro hfresh
        obtain ⟨present, hpresent, hsame⟩ := hknown
        exact absurd hsame (hfresh present hpresent)
    · intro _
      exact hnext
  · have hfresh : ∀ present ∈ keys, order present key ≠ .eq := by
      intro present hpresent hequal
      exact hknown ⟨present, hpresent, hequal⟩
    obtain ⟨hcursor, hnew, hmember⟩ := hkeeps.insert_of_fresh hfresh
    refine ⟨⟨key, hmember, hcursor, ReflCmp.compare_self⟩, ?_, ?_⟩
    · exact iff_of_true ⟨hcursor, hnew⟩ hfresh
    · intro hpresent
      exact absurd hpresent hknown

/-- Numbers by their last digit. -/
theorem insertAll_keeps_first_of_each_lastDigit :
    TransCmp (compareOn fun n : Int => n.tmod 10) ∧
      let list := (empty (compareOn fun n : Int => n.tmod 10) (Height.draw 7)).insertAll
        [13, 25, 3, -13, 5, 40]
      list.toList = [-13, 40, 13, 25] ∧ (13 ∈ list.toList) ∧ (list.insert 23).2 = list ∧
        (list.insert 7).2.key? (list.insert 7).1 = some 7 := by
  obtain ⟨-, hmember, -, -, -, hinsert⟩ := insertAll_keeps_first_of_each_class
    (compareOn fun n : Int => n.tmod 10) (Height.draw 7) [13, 25, 3, -13, 5, 40]
  refine ⟨inferInstance, by decide, ?_, ?_, ?_⟩
  · exact (hmember 13).mpr ⟨[], [25, 3, -13, 5, 40], rfl, by simp⟩
  · exact (hinsert 23).2.2 ⟨13, by simp, by decide⟩
  · exact ((hinsert 7).2.1.mpr (by decide)).1

end LsmStore.SkipList
