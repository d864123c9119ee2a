import LsmStore.Proofs.SkipList.Insertion

/-!
# A tower list as a sorted set

Under a comparison that is a total preorder the keys of a tower list strictly
increase.  A search then finds the first key that does not lie before its target,
and insertion adds a key exactly if no equivalent one is there.  So after any
insertions the list holds the first key of each equivalence class.
-/

namespace LsmStore.SkipList

open Std

variable {Key : Type}

/-- Keys that strictly increase. -/
def Increasing (order : Key → Key → Ordering) (keys : List Key) : Prop :=
  keys.Pairwise fun a b => order a b = .lt

/-- Whether a key is the first of its equivalence class among some keys. -/
def IsFirst (order : Key → Key → Ordering) (keys : List Key) (key : Key) : Prop :=
  ∃ earlier later, keys = earlier ++ key :: later ∧ ∀ other ∈ earlier, order other key ≠ .eq

/-! ## Where a search splits the keys -/

section Split

variable {list : SkipList Key} {elements front back : List Nat} {p : Key → Bool}

theorem Woven.toList_eq_append
    (h : Woven list elements) (hsplit : elements = front ++ back) :
    list.toList = front.filterMap list.keyAt? ++ back.filterMap list.keyAt? := by
  rw [h.toList_eq, hsplit, List.filterMap_append]

/-- If no key with a property lies behind one without it, a search by the property passes
exactly the keys that have it. -/
theorem Woven.forall_of_split
    (h : Woven list elements) (hsplit : elements = front ++ back)
    (hdown : list.toList.Pairwise fun a b => p b = true → p a = true)
    (hfront : ∀ index ∈ front.getLast?, list.holds p index = true)
    (hback : ∀ index ∈ back.head?, list.holds p index = false) :
    (∀ key ∈ front.filterMap list.keyAt?, p key = true) ∧
      (∀ key ∈ back.filterMap list.keyAt?, p key = false) := by
  have hindices : elements.Pairwise fun i j => list.holds p j = true → list.holds p i = true := by
    rw [h.toList_eq, List.pairwise_filterMap] at hdown
    refine hdown.imp_of_mem fun {i j} hi hj hij hp => ?_
    obtain ⟨a, ha⟩ := h.exists_key hi
    obtain ⟨b, hb⟩ := h.exists_key hj
    simp only [holds, ha, hb, Option.any_some] at hp ⊢
    exact hij a ha b hb hp
  rw [hsplit, List.pairwise_append] at hindices
  constructor
  · intro key hkey
    obtain ⟨index, hindex, hvalue⟩ := List.mem_filterMap.mp hkey
    obtain ⟨init, final, hfinal⟩ : ∃ init final, front = init ++ [final] := by
      rcases List.eq_nil_or_concat front with rfl | ⟨init, final, hfinal⟩
      · cases hindex
      · exact ⟨init, final, by simpa using hfinal⟩
    have hlast := hfront final (by simp [hfinal])
    have hholds : list.holds p index = true := by
      rw [hfinal] at hindex hindices
      rcases List.mem_append.mp hindex with hinit | hsame
      · exact (List.pairwise_append.mp hindices.1).2.2 index hinit final (by simp) hlast
      · rwa [List.mem_singleton.mp hsame]
    rwa [holds, hvalue, Option.any_some] at hholds
  · intro key hkey
    obtain ⟨index, hindex, hvalue⟩ := List.mem_filterMap.mp hkey
    cases back with
    | nil => cases hindex
    | cons first back =>
      have hhead := hback first (by simp)
      have hholds : list.holds p index = false := by
        rcases List.mem_cons.mp hindex with rfl | htail
        · exact hhead
        · refine Bool.eq_false_iff.mpr fun htrue => ?_
          rw [(List.pairwise_cons.mp hindices.2.1).1 index htail htrue] at hhead
          cases hhead
      rwa [holds, hvalue, Option.any_some] at hholds

theorem Woven.key?_head?
    (h : Woven list elements) (hsplit : elements = front ++ back) :
    list.key? ⟨back.head?⟩ = (back.filterMap list.keyAt?).head? := by
  cases back with
  | nil => simp [key?]
  | cons index back =>
    obtain ⟨key, hkey⟩ := h.exists_key (show index ∈ elements by simp [hsplit])
    simp [key?, hkey]

/-- A search finds the first key without the property, and from there all keys behind it. -/
theorem Woven.seek?_spec
    (h : Woven list elements)
    (hdown : list.toList.Pairwise fun a b => p b = true → p a = true) :
    list.key? ⟨list.seek? p⟩ = list.toList.find? (fun key => !p key) ∧
      list.keysFrom ⟨list.seek? p⟩ = list.toList.dropWhile p := by
  obtain ⟨front, back, hsplit, hseek, hfront, hback⟩ := h.seek?_eq p
  obtain ⟨hpassed, hahead⟩ := h.forall_of_split hsplit hdown hfront hback
  have hnone : (front.filterMap list.keyAt?).find? (fun key => !p key) = none :=
    List.find?_eq_none.mpr fun key hkey => by simp [hpassed key hkey]
  rw [hseek, h.key?_head? hsplit, h.keysFrom_eq hsplit, h.toList_eq_append hsplit,
    List.find?_append, hnone, List.dropWhile_append_of_pos hpassed]
  cases hkeys : back.filterMap list.keyAt? with
  | nil => simp
  | cons key keys =>
    have hkey : p key = false := hahead key (by simp [hkeys])
    simp [hkey]

end Split

/-! ## Insertion into a sorted list -/

section Insert

variable {list : SkipList Key} {elements : List Nat} [TransCmp list.order]

theorem increasing_down_isLess
    (hsorted : Increasing list.order list.toList) (key : Key) :
    list.toList.Pairwise fun a b => list.isLess key b = true → list.isLess key a = true := by
  refine hsorted.imp fun {a b} hab hb => ?_
  simp only [isLess, beq_iff_eq] at hb ⊢
  exact TransCmp.lt_trans hab hb

/-- What an insertion into a sorted list does: the key is there already in an equivalent
form, or it is put between the lesser and the greater keys. -/
theorem Woven.insert_cases
    (h : Woven list elements) (hsorted : Increasing list.order list.toList) (key : Key) :
    (∃ cursor other, list.insert key = (cursor, list) ∧ list.key? cursor = some other ∧
        other ∈ list.toList ∧ list.order key other = .eq) ∨
    (∃ front back elements', list.toList = front ++ back ∧
        (∀ other ∈ front, list.order other key = .lt) ∧
        (∀ other ∈ back, list.order key other = .lt) ∧
        Woven (list.insert key).2 elements' ∧
        (list.insert key).2.order = list.order ∧
        (list.insert key).2.toList = front ++ key :: back ∧
        (list.insert key).2.key? (list.insert key).1 = some key ∧
        list.key? (list.insert key).1 = none) := by
  obtain ⟨front, back, hsplit, hfront, hback, hinsert⟩ := h.insert_eq key
  obtain ⟨hless, hrest⟩ :=
    h.forall_of_split hsplit (increasing_down_isLess hsorted key) hfront hback
  cases hequivalent : list.equivalent? key back.head? with
  | some index =>
    left
    rw [hequivalent] at hinsert
    simp only [equivalent?, Option.bind_eq_bind, Option.bind_eq_some_iff] at hequivalent
    obtain ⟨first, hfirst, other, hother, heq⟩ := hequivalent
    split at heq
    · rename_i horder
      obtain rfl := Option.some.inj heq
      refine ⟨⟨some first⟩, other, hinsert, by simpa [key?] using hother, ?_, by simpa using horder⟩
      obtain ⟨back, rfl⟩ := List.head?_eq_some_iff.mp hfirst
      rw [h.toList_eq, hsplit]
      exact List.mem_filterMap.mpr ⟨first, by simp, hother⟩
    · cases heq
  | none =>
    right
    rw [hequivalent] at hinsert
    have hwoven := h.splice hsplit (list.heights list.towers.size) key
    refine ⟨front.filterMap list.keyAt?, back.filterMap list.keyAt?,
      front ++ list.towers.size :: back, h.toList_eq_append hsplit, ?_, ?_, ?_, ?_, ?_, ?_, ?_⟩
    · intro other hother
      simpa [isLess] using hless other hother
    · cases back with
      | nil => simp
      | cons first back =>
        obtain ⟨least, hleast⟩ := h.exists_key (show first ∈ elements by simp [hsplit])
        have hnotLess : list.order least key ≠ .lt := by
          simpa [isLess] using hrest least (by simp [hleast])
        have hnotEq : list.order key least ≠ .eq := by
          simpa [equivalent?, hleast] using hequivalent
        have hfirst : list.order key least = .lt := by
          cases horder : list.order key least with
          | lt => rfl
          | eq => exact absurd horder hnotEq
          | gt => exact absurd (OrientedCmp.lt_of_gt horder) hnotLess
        rw [Increasing, h.toList_eq_append hsplit, List.pairwise_append] at hsorted
        have htail := hsorted.2.1
        rw [List.filterMap_cons, hleast] at htail ⊢
        intro other hother
        rcases List.mem_cons.mp hother with rfl | hother
        · exact hfirst
        · exact TransCmp.lt_trans hfirst ((List.pairwise_cons.mp htail).1 other hother)
    · rw [hinsert]
      exact hwoven
    · rw [hinsert]
      exact order_splice list _ key
    · rw [hinsert, hwoven.toList_eq, List.filterMap_append, List.filterMap_cons,
        keyAt?_splice, if_pos rfl,
        h.filterMap_keyAt?_splice _ key fun index hindex => by simp [hsplit, hindex],
        h.filterMap_keyAt?_splice _ key fun index hindex => by simp [hsplit, hindex]]
    · rw [hinsert]
      simp [key?, keyAt?_splice]
    · rw [hinsert]
      simp [key?, keyAt?]

theorem increasing_insert
    (h : Woven list elements) (hsorted : Increasing list.order list.toList) (key : Key) :
    Increasing list.order (list.insert key).2.toList := by
  rcases h.insert_cases hsorted key with
    ⟨cursor, other, hinsert, -⟩ | ⟨front, back, _, hkeys, hfront, hback, -, -, hinserted, -⟩
  · rw [hinsert]
    exact hsorted
  · rw [Increasing, hkeys, List.pairwise_append] at hsorted
    rw [Increasing, hinserted, List.pairwise_append]
    refine ⟨hsorted.1, List.pairwise_cons.mpr ⟨hback, hsorted.2.1⟩, ?_⟩
    intro a ha b hb
    rcases List.mem_cons.mp hb with rfl | hb
    · exact hfront a ha
    · exact hsorted.2.2 a ha b hb

/-- After an insertion a key is there if it was before, or if it is the new one and nothing
equivalent was there. -/
theorem mem_toList_insert_iff
    (h : Woven list elements) (hsorted : Increasing list.order list.toList) (key other : Key) :
    other ∈ (list.insert key).2.toList ↔
      other ∈ list.toList ∨
        other = key ∧ ∀ present ∈ list.toList, list.order present key ≠ .eq := by
  rcases h.insert_cases hsorted key with
    ⟨cursor, twin, hinsert, -, htwin, hequal⟩ |
    ⟨front, back, _, hkeys, hfront, hback, -, -, hinserted, -⟩
  · rw [hinsert]
    refine ⟨Or.inl, ?_⟩
    rintro (hother | ⟨-, hfresh⟩)
    · exact hother
    · exact absurd (OrientedCmp.eq_symm hequal) (hfresh twin htwin)
  · have hfresh : ∀ present ∈ list.toList, list.order present key ≠ .eq := by
      intro present hpresent hequal
      rw [hkeys, List.mem_append] at hpresent
      rcases hpresent with hpresent | hpresent
      · rw [hfront present hpresent] at hequal
        cases hequal
      · have hgreater := hback present hpresent
        rw [OrientedCmp.eq_symm hequal] at hgreater
        cases hgreater
    rw [hinserted, hkeys]
    rw [hkeys] at hfresh
    simp only [List.mem_append, List.mem_cons] at hfresh ⊢
    tauto

end Insert

/-! ## Lists made by insertions -/

theorem order_insert
    (list : SkipList Key) (key : Key) :
    (list.insert key).2.order = list.order := by
  unfold insert
  split
  · rfl
  · split
    · rfl
    · exact order_splice list _ key

/-- A list that holds, in increasing order, the first of equivalent keys that were inserted. -/
structure KeepsFirst
    (order : Key → Key → Ordering) (list : SkipList Key) (inserted : List Key) : Prop where
  order_eq : list.order = order
  woven : ∃ elements, Woven list elements
  increasing : Increasing order list.toList
  mem_iff : ∀ key, key ∈ list.toList ↔ IsFirst order inserted key

section KeepsFirst

variable {order : Key → Key → Ordering} {list : SkipList Key} {inserted : List Key}

theorem isFirst_append_singleton_iff
    (keys : List Key) (key other : Key) :
    IsFirst order (keys ++ [key]) other ↔
      IsFirst order keys other ∨ other = key ∧ ∀ earlier ∈ keys, order earlier other ≠ .eq := by
  constructor
  · rintro ⟨earlier, later, hkeys, hfirst⟩
    rcases List.eq_nil_or_concat later with rfl | ⟨later, final, rfl⟩
    · obtain ⟨rfl, hsame⟩ := List.append_inj' hkeys rfl
      obtain rfl : key = other := by simpa using hsame
      exact Or.inr ⟨rfl, hfirst⟩
    · rw [List.concat_eq_append, ← List.cons_append, ← List.append_assoc] at hkeys
      obtain ⟨rfl, -⟩ := List.append_inj' hkeys rfl
      exact Or.inl ⟨earlier, later, rfl, hfirst⟩
  · rintro (⟨earlier, later, rfl, hfirst⟩ | ⟨rfl, hfirst⟩)
    · exact ⟨earlier, later ++ [key], by simp, hfirst⟩
    · exact ⟨keys, [], rfl, hfirst⟩

theorem exists_isFirst
    [TransCmp order] {keys : List Key} {key : Key} (hkey : key ∈ keys) :
    ∃ first, IsFirst order keys first ∧ order first key = .eq := by
  obtain ⟨first, hfind⟩ :
      ∃ first, keys.find? (fun other => order other key == .eq) = some first := by
    rw [← Option.isSome_iff_exists, List.find?_isSome]
    exact ⟨key, hkey, by simp [ReflCmp.compare_self]⟩
  obtain ⟨hequal, earlier, later, rfl, hearlier⟩ := List.find?_eq_some_iff_append.mp hfind
  have hequal : order first key = .eq := by simpa using hequal
  refine ⟨first, ⟨earlier, later, rfl, fun other hother hsame => ?_⟩, hequal⟩
  have := hearlier other hother
  simp [TransCmp.eq_trans hsame hequal] at this

theorem keepsFirst_empty
    (order : Key → Key → Ordering) (heights : Nat → Height) :
    KeepsFirst order (empty order heights) [] where
  order_eq := rfl
  woven := ⟨[], woven_empty order heights⟩
  increasing := by simp [(woven_empty order heights).toList_eq, Increasing]
  mem_iff key := by simp [(woven_empty order heights).toList_eq, IsFirst]

/-- A key has no equivalent one among the elements exactly if none was inserted. -/
theorem KeepsFirst.fresh_iff
    [TransCmp order] (h : KeepsFirst order list inserted) (key : Key) :
    (∀ present ∈ list.toList, order present key ≠ .eq) ↔
      ∀ earlier ∈ inserted, order earlier key ≠ .eq := by
  constructor
  · intro hpresent earlier hearlier hequal
    obtain ⟨first, hfirst, hsame⟩ := @exists_isFirst _ order _ _ _ hearlier
    exact hpresent first ((h.mem_iff first).mpr hfirst) (TransCmp.eq_trans hsame hequal)
  · intro hinserted present hpresent
    obtain ⟨earlier, later, rfl, -⟩ := (h.mem_iff present).mp hpresent
    exact hinserted present (by simp)

theorem KeepsFirst.insert
    [TransCmp order] (h : KeepsFirst order list inserted) (key : Key) :
    KeepsFirst order (list.insert key).2 (inserted ++ [key]) := by
  have hfresh := h.fresh_iff key
  obtain ⟨rfl, ⟨elements, hwoven⟩, hsorted, hmem⟩ := h
  refine ⟨order_insert list key, woven_insertAll hwoven [key],
    increasing_insert hwoven hsorted key, fun other => ?_⟩
  rw [mem_toList_insert_iff hwoven hsorted, isFirst_append_singleton_iff, hmem, hfresh]
  constructor
  · rintro (hold | ⟨rfl, hnew⟩)
    · exact Or.inl hold
    · exact Or.inr ⟨rfl, hnew⟩
  · rintro (hold | ⟨rfl, hnew⟩)
    · exact Or.inl hold
    · exact Or.inr ⟨rfl, hnew⟩

theorem KeepsFirst.insertAll
    [TransCmp order] (h : KeepsFirst order list inserted) (keys : List Key) :
    KeepsFirst order (list.insertAll keys) (inserted ++ keys) := by
  induction keys generalizing list inserted with
  | nil => simpa [SkipList.insertAll] using h
  | cons key keys ih =>
    rw [List.append_cons]
    exact ih (h.insert key)

theorem KeepsFirst.lowerBound_eq
    [TransCmp order] (h : KeepsFirst order list inserted) (key : Key) :
    list.key? (list.lowerBound key) =
        list.toList.find? (fun other => order other key != .lt) ∧
      list.keysFrom (list.lowerBound key) =
        list.toList.dropWhile (fun other => order other key == .lt) := by
  obtain ⟨rfl, ⟨elements, hwoven⟩, hsorted, -⟩ := h
  exact hwoven.seek?_spec (increasing_down_isLess hsorted key)

end KeepsFirst

end LsmStore.SkipList
