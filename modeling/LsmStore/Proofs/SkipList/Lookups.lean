import Mathlib.Data.List.TakeWhile
import Mathlib.Logic.Function.Iterate
import LsmStore.Proofs.SkipList.Classes
import LsmStore.Proofs.SkipList.LiveCursors

/-!
# Look-ups as scans

Every look-up of a tower list goes down its levels, but it comes to the place to which
a scan of the elements comes, one after the other from the first.  What a scan passes is
said by a property of keys: the lesser ones on the way to a lower bound, those that are
not greater on the way to an upper bound, and those that are not equivalent on the way
to a key itself.  As the keys strictly increase, a cursor is known by its key.
-/

namespace LsmStore.SkipList

open Std

variable {Key : Type} {list : SkipList Key} {elements front back : List Nat}
  {cursor other : Cursor}

/-! ## Where a scan comes to -/

/-- A cursor to which a scan from the first element on comes if it passes keys with a property:
it is at the first key without the property, and from there all the others are met. -/
structure Cursor.EndsScan (list : SkipList Key) (passes : Key → Bool) (cursor : Cursor) : Prop where
  eq_iterate : cursor = list.advance^[(list.toList.takeWhile passes).length] list.first
  key?_eq : list.key? cursor = list.toList.find? fun key => !passes key
  take_eq : ∀ limit, list.take limit cursor = (list.toList.dropWhile passes).take limit

theorem increasing_down_isNotGreater
    [TransCmp list.order] (hsorted : Increasing list.order list.toList) (key : Key) :
    list.toList.Pairwise fun a b =>
      list.isNotGreater key b = true → list.isNotGreater key a = true := by
  refine hsorted.imp fun {a b} hab hb => ?_
  simp only [isNotGreater, bne_iff_ne] at hb ⊢
  intro hgreater
  exact hb (OrientedCmp.gt_of_lt (TransCmp.lt_trans (OrientedCmp.lt_of_gt hgreater) hab))

theorem within_of_key?
    {key : Key} (hkey : list.key? cursor = some key) :
    cursor.Within list := by
  intro index hindex
  rw [key?, Option.mem_def.mp hindex, Option.bind_some, keyAt?] at hkey
  by_contra houtside
  rw [Array.getElem?_eq_none (Nat.le_of_not_lt houtside)] at hkey
  cases hkey

theorem Cursor.isEnd_iff
    (cursor : Cursor) :
    cursor.isEnd = true ↔ cursor = Cursor.atEnd := by
  obtain ⟨element?⟩ := cursor
  cases element? <;> simp [isEnd, atEnd]

theorem Cursor.EndsScan.within
    {passes : Key → Bool} (h : cursor.EndsScan list passes) (hwoven : Woven list elements) :
    cursor.Within list := by
  have hiterate : ∀ count, (list.advance^[count] list.first).Within list := by
    intro count
    induction count with
    | zero => exact hwoven.first_within
    | succ count ih =>
      rw [Function.iterate_succ_apply']
      exact (hwoven.advance_spec ih).1
  rw [h.eq_iterate]
  exact hiterate _

namespace Woven

theorem iterate_advance
    (h : Woven list elements) {passed : List Nat}
    (hsplit : elements = passed ++ (front ++ back)) :
    list.advance^[front.length] ⟨(front ++ back).head?⟩ = ⟨back.head?⟩ := by
  induction front generalizing passed with
  | nil => rfl
  | cons index front ih =>
    have hmoved : list.advance ⟨(index :: front ++ back).head?⟩ = ⟨(front ++ back).head?⟩ :=
      h.advance_eq hsplit
    rw [List.length_cons, Function.iterate_succ_apply, hmoved]
    exact ih (show elements = (passed ++ [index]) ++ (front ++ back) by simp [hsplit])

theorem length_filterMap_keyAt?
    (h : Woven list elements) {indices : List Nat}
    (hindices : ∀ index ∈ indices, index ∈ elements) :
    (indices.filterMap list.keyAt?).length = indices.length := by
  rw [List.filterMap_length_eq_length]
  intro index hindex
  obtain ⟨key, hkey⟩ := h.exists_key (hindices index hindex)
  rw [hkey, Option.isSome_some]

/-- Elements whose keys a scan passes, in front of one whose key it does not pass. -/
theorem endsScan_of_split
    (h : Woven list elements) (hsplit : elements = front ++ back) {passes : Key → Bool}
    (hfront : ∀ key ∈ front.filterMap list.keyAt?, passes key = true)
    (hback : ∀ key ∈ (back.filterMap list.keyAt?).head?, passes key = false) :
    Cursor.EndsScan list passes ⟨back.head?⟩ := by
  have htoList := h.toList_eq_append hsplit
  have htake : (back.filterMap list.keyAt?).takeWhile passes = [] := by
    cases hkeys : back.filterMap list.keyAt? with
    | nil => rfl
    | cons key keys => simp [hback key (by simp [hkeys])]
  have hdrop : (back.filterMap list.keyAt?).dropWhile passes = back.filterMap list.keyAt? := by
    cases hkeys : back.filterMap list.keyAt? with
    | nil => rfl
    | cons key keys => simp [hback key (by simp [hkeys])]
  have hpassed : list.toList.takeWhile passes = front.filterMap list.keyAt? := by
    rw [htoList, List.takeWhile_append_of_pos hfront, htake, List.append_nil]
  have hrest : list.toList.dropWhile passes = back.filterMap list.keyAt? := by
    rw [htoList, List.dropWhile_append_of_pos hfront, hdrop]
  constructor
  · have hlength : (front.filterMap list.keyAt?).length = front.length := by
      apply h.length_filterMap_keyAt?
      intro index hindex
      rw [hsplit]
      exact List.mem_append_left back hindex
    have hmoved := h.iterate_advance (show elements = [] ++ (front ++ back) from hsplit)
    rw [hpassed, hlength, h.first_eq, hsplit]
    exact hmoved.symm
  · rw [h.key?_head? hsplit, ← hrest]
    exact (List.find?_not_eq_head?_dropWhile ..).symm
  · intro limit
    rw [h.take_eq limit hsplit, hrest]

/-! ## Cursors and their keys -/

theorem key?_eq_none_iff
    (h : Woven list elements) (hcursor : cursor.Within list) :
    list.key? cursor = none ↔ cursor.isEnd = true := by
  obtain ⟨element?⟩ := cursor
  cases element? with
  | none => simp [key?, Cursor.isEnd]
  | some index =>
    obtain ⟨key, hkey⟩ := h.exists_key (h.mem_iff.mpr (hcursor index rfl))
    simp [key?, hkey, Cursor.isEnd]

theorem cursor_eq_of_equivalent
    [TransCmp list.order] (h : Woven list elements) (hsorted : Increasing list.order list.toList)
    (hcursor : cursor.Within list) (hother : other.Within list) {key key' : Key}
    (hkey : list.key? cursor = some key) (hkey' : list.key? other = some key')
    (hequal : list.order key key' = .eq) :
    cursor = other := by
  obtain ⟨first, hfirst, hfirstKey⟩ := Option.bind_eq_some_iff.mp hkey
  obtain ⟨second, hsecond, hsecondKey⟩ := Option.bind_eq_some_iff.mp hkey'
  have hless : elements.Pairwise fun i j =>
      ∀ a ∈ list.keyAt? i, ∀ b ∈ list.keyAt? j, list.order a b = .lt := by
    rwa [h.toList_eq, Increasing, List.pairwise_filterMap] at hsorted
  obtain ⟨front, back, hsplit⟩ := List.append_of_mem (h.mem_iff.mpr (hcursor first hfirst))
  have hmember : second ∈ front ++ first :: back := hsplit ▸ h.mem_iff.mpr (hother second hsecond)
  rw [hsplit, List.pairwise_append, List.pairwise_cons] at hless
  obtain ⟨-, ⟨hbehind, -⟩, hbefore⟩ := hless
  have hsame : second = first := by
    rcases List.mem_append.mp hmember with hfront | hrest
    · have hlt := hbefore second hfront first List.mem_cons_self key' hsecondKey key hfirstKey
      rw [OrientedCmp.eq_symm hequal] at hlt
      cases hlt
    · rcases List.mem_cons.mp hrest with hsame | hback
      · exact hsame
      · have hlt := hbehind second hback key hfirstKey key' hsecondKey
        rw [hequal] at hlt
        cases hlt
  obtain ⟨element?⟩ := cursor
  obtain ⟨other?⟩ := other
  obtain rfl : element? = some first := hfirst
  obtain rfl : other? = some second := hsecond
  rw [hsame]

theorem cursor_eq_iff
    [TransCmp list.order] (h : Woven list elements) (hsorted : Increasing list.order list.toList)
    (hcursor : cursor.Within list) (hother : other.Within list) :
    cursor = other ↔
      cursor.isEnd = true ∧ other.isEnd = true ∨
        ∃ key ∈ list.key? cursor, ∃ key' ∈ list.key? other, list.order key key' = .eq := by
  constructor
  · rintro rfl
    cases hkey : list.key? cursor with
    | none =>
      have hend := (h.key?_eq_none_iff hcursor).mp hkey
      exact Or.inl ⟨hend, hend⟩
    | some key => exact Or.inr ⟨key, rfl, key, rfl, ReflCmp.compare_self⟩
  · rintro (⟨hend, hend'⟩ | ⟨key, hkey, key', hkey', hequal⟩)
    · exact (cursor.isEnd_iff.mp hend).trans (other.isEnd_iff.mp hend').symm
    · exact h.cursor_eq_of_equivalent hsorted hcursor hother hkey hkey' hequal

/-! ## Searches -/

/-- If no key with a property lies behind one without it, a search by the property ends the
scan that passes the keys that have it. -/
theorem seek?_endsScan
    (h : Woven list elements) {passes : Key → Bool}
    (hdown : list.toList.Pairwise fun a b => passes b = true → passes a = true) :
    Cursor.EndsScan list passes ⟨list.seek? passes⟩ := by
  obtain ⟨front, back, hsplit, hseek, hlast, hhead⟩ := h.seek?_eq passes
  obtain ⟨hfront, hback⟩ := h.forall_of_split hsplit hdown hlast hhead
  rw [hseek]
  exact h.endsScan_of_split hsplit hfront fun key hkey => hback key (List.mem_of_mem_head? hkey)

/-- The look-up of a key ends the scan that passes the keys that are not equivalent to it. -/
theorem find_endsScan
    [TransCmp list.order] (h : Woven list elements) (hsorted : Increasing list.order list.toList)
    (key : Key) :
    (list.find key).EndsScan list fun other => list.order other key != .eq := by
  obtain ⟨front, back, hsplit, hseek, hlast, hhead⟩ := h.seek?_eq (list.isLess key)
  obtain ⟨hless, hrest⟩ :=
    h.forall_of_split hsplit (increasing_down_isLess hsorted key) hlast hhead
  have hfront : ∀ other ∈ front.filterMap list.keyAt?, (list.order other key != .eq) = true := by
    intro other hother
    have hother : list.order other key = .lt := by simpa [isLess] using hless other hother
    rw [hother]
    rfl
  rw [find, hseek]
  cases back with
  | nil => exact h.endsScan_of_split hsplit hfront (by simp)
  | cons index back =>
    obtain ⟨least, hleast⟩ := h.exists_key (show index ∈ elements by simp [hsplit])
    have hkeys : (index :: back).filterMap list.keyAt? = least :: back.filterMap list.keyAt? := by
      rw [List.filterMap_cons, hleast]
    have hfound : list.equivalent? key (index :: back).head? =
        if list.order key least == .eq then some index else none := by
      simp [equivalent?, hleast]
    rw [hfound]
    by_cases hequal : list.order key least = .eq
    · rw [if_pos (by simp [hequal])]
      refine h.endsScan_of_split hsplit hfront fun other hother => ?_
      rw [hkeys, List.head?_cons, Option.mem_some_iff] at hother
      rw [← hother, OrientedCmp.eq_symm hequal]
      rfl
    · -- Nothing equivalent lies behind the first element that is not less, so the scan passes all.
      rw [if_neg (by simp [hequal])]
      refine h.endsScan_of_split (List.append_nil elements).symm ?_ (by simp)
      intro other hother
      rw [hsplit, List.filterMap_append, List.mem_append] at hother
      rcases hother with hother | hother
      · exact hfront other hother
      · have hnotLess := hrest least (by simp [hkeys])
        rw [Increasing, h.toList_eq_append hsplit, List.pairwise_append, hkeys,
          List.pairwise_cons] at hsorted
        obtain ⟨-, ⟨hbehind, -⟩, -⟩ := hsorted
        rw [bne_iff_ne]
        intro hsame
        rw [hkeys] at hother
        rcases List.mem_cons.mp hother with rfl | hother
        · exact hequal (OrientedCmp.eq_symm hsame)
        · have hless := TransCmp.lt_of_lt_of_eq (hbehind other hother) hsame
          rw [isLess, hless] at hnotLess
          cases hnotLess

end Woven

/-! ## Lists made by insertions -/

section KeepsFirst

variable {order : Key → Key → Ordering} {inserted : List Key} {key : Key}

theorem KeepsFirst.keysFrom_increasing
    (h : KeepsFirst order list inserted) (hcursor : cursor.Within list) :
    Increasing order (list.keysFrom cursor) := by
  obtain ⟨elements, hwoven⟩ := h.woven
  have hsorted := h.increasing
  obtain ⟨front, back, hsplit, rfl⟩ := hwoven.exists_split hcursor
  rw [Increasing, hwoven.toList_eq_append hsplit, List.pairwise_append] at hsorted
  rw [hwoven.keysFrom_eq hsplit]
  exact hsorted.2.1

variable [TransCmp order]

theorem KeepsFirst.mem_keysFrom_iff
    (h : KeepsFirst order list inserted) (hcursor : cursor.Within list) (key : Key) :
    key ∈ list.keysFrom cursor ↔
      key ∈ list.toList ∧ ∃ first ∈ list.key? cursor, order key first ≠ .lt := by
  obtain ⟨elements, hwoven⟩ := h.woven
  have hsorted := h.increasing
  obtain ⟨front, back, hsplit, rfl⟩ := hwoven.exists_split hcursor
  rw [Increasing, hwoven.toList_eq_append hsplit, List.pairwise_append] at hsorted
  rw [hwoven.toList_eq_append hsplit, hwoven.keysFrom_eq hsplit, hwoven.key?_head? hsplit]
  obtain ⟨-, hback, hapart⟩ := hsorted
  constructor
  · intro hkey
    refine ⟨List.mem_append_right _ hkey, ?_⟩
    cases hkeys : back.filterMap list.keyAt? with
    | nil =>
      rw [hkeys] at hkey
      cases hkey
    | cons first keys =>
      refine ⟨first, rfl, ?_⟩
      rw [hkeys] at hkey hback
      rcases List.mem_cons.mp hkey with rfl | hkey
      · have hself : order key key = .eq := ReflCmp.compare_self
        rw [hself]
        decide
      · rw [OrientedCmp.gt_of_lt ((List.pairwise_cons.mp hback).1 key hkey)]
        decide
  · rintro ⟨hkey, first, hfirst, hnotLess⟩
    rcases List.mem_append.mp hkey with hfront | hkey
    · exact absurd (hapart key hfront first (List.mem_of_mem_head? hfirst)) hnotLess
    · exact hkey

theorem KeepsFirst.lowerBound_endsScan
    (h : KeepsFirst order list inserted) (key : Key) :
    (list.lowerBound key).EndsScan list fun other => order other key == .lt := by
  obtain ⟨rfl, ⟨elements, hwoven⟩, hsorted, -⟩ := h
  exact hwoven.seek?_endsScan (increasing_down_isLess hsorted key)

theorem KeepsFirst.upperBound_endsScan
    (h : KeepsFirst order list inserted) (key : Key) :
    (list.upperBound key).EndsScan list fun other => order other key != .gt := by
  obtain ⟨rfl, ⟨elements, hwoven⟩, hsorted, -⟩ := h
  exact hwoven.seek?_endsScan (increasing_down_isNotGreater hsorted key)

theorem KeepsFirst.find_endsScan
    (h : KeepsFirst order list inserted) (key : Key) :
    (list.find key).EndsScan list fun other => order other key != .eq := by
  obtain ⟨rfl, ⟨elements, hwoven⟩, hsorted, -⟩ := h
  exact hwoven.find_endsScan hsorted key

theorem KeepsFirst.contains_iff
    (h : KeepsFirst order list inserted) (key : Key) :
    list.contains key = true ↔ ∃ present ∈ inserted, order present key = .eq := by
  obtain ⟨elements, hwoven⟩ := h.woven
  have hscan := h.find_endsScan key
  have hend := hwoven.key?_eq_none_iff (hscan.within hwoven)
  have hfresh := h.fresh_iff key
  rw [hscan.key?_eq, List.find?_eq_none] at hend
  rw [contains, Bool.not_eq_true', ← Bool.not_eq_true, ← hend]
  simp only [bne, Bool.not_not, beq_iff_eq]
  rw [hfresh]
  push Not
  rfl

theorem KeepsFirst.contains_eq_false_iff
    (h : KeepsFirst order list inserted) (key : Key) :
    list.contains key = false ↔ ∀ present ∈ inserted, order present key ≠ .eq := by
  rw [← Bool.not_eq_true, h.contains_iff]
  push Not
  rfl

/-- A cursor at a key moves to where a scan comes that passes what is not greater than the key. -/
theorem KeepsFirst.advance_eq_upperBound
    (h : KeepsFirst order list inserted) (hkey : list.key? cursor = some key) :
    list.advance cursor = list.upperBound key := by
  obtain ⟨elements, hwoven⟩ := h.woven
  obtain ⟨front, back, hsplit, rfl⟩ := hwoven.exists_split (within_of_key? hkey)
  cases back with
  | nil => cases hkey
  | cons index back =>
    have hindexKey : list.keyAt? index = some key := hkey
    have hsplit' : elements = (front ++ [index]) ++ back := by simp [hsplit]
    have hself : order key key = .eq := ReflCmp.compare_self
    have hsorted := h.increasing
    rw [Increasing, hwoven.toList_eq_append hsplit, List.filterMap_cons, hindexKey,
      List.pairwise_append, List.pairwise_cons] at hsorted
    obtain ⟨-, ⟨hbehind, -⟩, hbefore⟩ := hsorted
    have hscan : (list.advance ⟨some index⟩).EndsScan list
        fun other => order other key != .gt := by
      rw [hwoven.advance_eq hsplit]
      refine hwoven.endsScan_of_split hsplit' ?_ ?_
      · intro other hother
        rw [List.filterMap_append, List.mem_append, List.filterMap_cons, hindexKey] at hother
        rcases hother with hother | hother
        · rw [hbefore other hother key List.mem_cons_self]
          rfl
        · rw [List.mem_singleton.mp hother, hself]
          rfl
      · intro other hother
        rw [OrientedCmp.gt_of_lt (hbehind other (List.mem_of_mem_head? hother))]
        rfl
    exact hscan.eq_iterate.trans (h.upperBound_endsScan key).eq_iterate.symm

/-- The cursor that an insertion returns is the one that a look-up of the key finds then. -/
theorem KeepsFirst.insert_eq_find
    (h : KeepsFirst order list inserted) (key : Key) :
    (list.insert key).1 = (list.insert key).2.find key := by
  have hnext := h.insert key
  obtain ⟨element, helement, hcursor, hequal⟩ :
      ∃ element ∈ (list.insert key).2.toList,
        (list.insert key).2.key? (list.insert key).1 = some element ∧
          order element key = .eq := by
    by_cases hknown : ∃ present ∈ inserted, order present key = .eq
    · obtain ⟨hsame, hfound⟩ := h.insert_of_equivalent hknown
      rwa [hsame]
    · push Not at hknown
      obtain ⟨hcursor, -, hmember⟩ := h.insert_of_fresh hknown
      exact ⟨key, hmember, hcursor, ReflCmp.compare_self⟩
  have hscan := hnext.find_endsScan key
  obtain ⟨other, hother⟩ : ∃ other, (list.insert key).2.key? ((list.insert key).2.find key) =
      some other := by
    rw [hscan.key?_eq, ← Option.isSome_iff_exists, List.find?_isSome]
    exact ⟨element, helement, by simp [hequal]⟩
  have hotherEqual : order other key = .eq := by
    rw [hscan.key?_eq] at hother
    simpa using List.find?_some hother
  obtain ⟨rfl, ⟨elements, hwoven⟩, hsorted, -⟩ := hnext
  exact hwoven.cursor_eq_of_equivalent hsorted (within_of_key? hcursor) (within_of_key? hother)
    hcursor hother (TransCmp.eq_trans hequal (OrientedCmp.eq_symm hotherEqual))

end KeepsFirst

/-- Whatever was inserted, with any heights of towers, every look-up comes to where a scan of the
elements comes: it is at the first key that the scan does not pass, and an iteration from there
goes through the rest.  A key is contained exactly if an equivalent one was inserted. -/
theorem lookups_end_scans
    (order : Key → Key → Ordering) [TransCmp order] (heights : Nat → Height)
    (keys : List Key) (key : Key) :
    let list := (empty order heights).insertAll keys
    (∀ limit, list.take limit list.first = list.toList.take limit) ∧
      (list.lowerBound key).EndsScan list (fun other => order other key == .lt) ∧
      (list.upperBound key).EndsScan list (fun other => order other key != .gt) ∧
      (list.find key).EndsScan list (fun other => order other key != .eq) ∧
      (list.contains key = true ↔ ∃ present ∈ keys, order present key = .eq) := by
  intro list
  have hkeeps : KeepsFirst order list keys := (keepsFirst_empty order heights).insertAll keys
  obtain ⟨elements, hwoven⟩ := hkeeps.woven
  exact ⟨hwoven.take_eq_take_keysFrom hwoven.first_within, hkeeps.lowerBound_endsScan key,
    hkeeps.upperBound_endsScan key, hkeeps.find_endsScan key, hkeeps.contains_iff key⟩

/-- Numbers by their last digit, with probes between them, equivalent to one and above all. -/
theorem lookups_end_scans_lastDigit :
    TransCmp (compareOn fun n : Int => n.tmod 10) ∧
      let list := (empty (compareOn fun n : Int => n.tmod 10) (Height.draw 7)).insertAll
        [13, 25, 3, -13, 5, 40]
      list.key? (list.lowerBound 31) = some 13 ∧ list.take 9 (list.lowerBound 31) = [13, 25] ∧
        list.key? (list.upperBound 23) = some 25 ∧ list.key? (list.find 23) = some 13 ∧
        list.take 9 (list.find 24) = [] ∧ list.key? (list.upperBound 7) = none ∧
        list.contains (-3) = true := by
  have hlookups := lookups_end_scans (compareOn fun n : Int => n.tmod 10) (Height.draw 7)
    [13, 25, 3, -13, 5, 40]
  have hlist : ((empty (compareOn fun n : Int => n.tmod 10) (Height.draw 7)).insertAll
      [13, 25, 3, -13, 5, 40]).toList = [-13, 40, 13, 25] := by
    decide
  refine ⟨inferInstance, ?_, ?_, ?_, ?_, ?_, ?_, ?_⟩
  · rw [(hlookups 31).2.1.key?_eq, hlist]
    decide
  · rw [(hlookups 31).2.1.take_eq, hlist]
    decide
  · rw [(hlookups 23).2.2.1.key?_eq, hlist]
    decide
  · rw [(hlookups 23).2.2.2.1.key?_eq, hlist]
    decide
  · rw [(hlookups 24).2.2.2.1.take_eq, hlist]
    decide
  · rw [(hlookups 7).2.2.1.key?_eq, hlist]
    decide
  · exact (hlookups (-3)).2.2.2.2.mpr ⟨-13, by simp, by decide⟩

end LsmStore.SkipList
