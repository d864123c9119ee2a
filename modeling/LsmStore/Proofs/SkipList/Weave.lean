import Mathlib.Data.List.Find
import Mathlib.Data.List.Nodup
import LsmStore.SkipList.Insert

/-!
# The links of a tower list

All levels of a tower list share one order of the elements: the link of a place
on a level leads to the first element behind it whose tower reaches the level.
That is the invariant `Woven`, and it says nothing about the comparison of keys.
From it follows where a search ends: it splits the elements in two, and on each
level the trail holds the last place in front of the split.
-/

namespace LsmStore.SkipList

variable {Key : Type}

/-- The number of levels of the tower of an element. -/
def levels (list : SkipList Key) (index : Nat) : Nat :=
  (list.towers[index]?).elim 0 fun tower => tower.next.size

/-- Whether the tower of an element has a link on a level. -/
def reaches (list : SkipList Key) (level index : Nat) : Bool :=
  level < list.levels index

/-- Whether the key of an element has a property. -/
def holds (list : SkipList Key) (property : Key → Bool) (index : Nat) : Bool :=
  (list.keyAt? index).any property

/-- What holds of the last of some elements holds after as many again without a last one. -/
theorem forall_getLast?_append
    {p : Nat → Prop} {front back : List Nat}
    (hfront : ∀ index ∈ front.getLast?, p index)
    (hback : ∀ index ∈ back.getLast?, p index) :
    ∀ index ∈ (front ++ back).getLast?, p index := by
  intro index hindex
  rw [List.getLast?_append] at hindex
  cases hlast : back.getLast? with
  | none => exact hfront index (by simpa [hlast] using hindex)
  | some other => exact hback index (by simpa [hlast] using hindex)

namespace Place

/-- The place at the last of some elements, or the head if there are none. -/
def last (elements : List Nat) : Place :=
  match elements.getLast? with
  | none => .head
  | some index => .element index

@[simp]
theorem last_nil : last [] = .head :=
  rfl

@[simp]
theorem last_append_singleton
    (elements : List Nat) (index : Nat) :
    last (elements ++ [index]) = .element index := by
  simp [last]

theorem mem_of_last_eq_element
    {elements : List Nat} {index : Nat}
    (h : last elements = .element index) :
    index ∈ elements := by
  unfold last at h
  split at h
  · cases h
  · rename_i other hlast
    cases h
    exact List.mem_of_getLast? hlast

theorem last_filter_of_getLast?
    {elements : List Nat} {p : Nat → Bool}
    (h : ∀ index ∈ elements.getLast?, p index = true) :
    last (elements.filter p) = last elements := by
  rcases List.eq_nil_or_concat elements with rfl | ⟨front, index, rfl⟩
  · rfl
  · have hp : p index = true := h index (by simp)
    simp [List.filter_append, hp]

end Place

/-- The last place on a level when some elements have been passed. -/
def placeOn (list : SkipList Key) (elements : List Nat) (level : Nat) : Place :=
  Place.last (elements.filter (list.reaches level))

/-- The links of all levels lead through the elements in one order. -/
structure Woven (list : SkipList Key) (elements : List Nat) : Prop where
  nodup : elements.Nodup
  mem_iff : ∀ {index}, index ∈ elements ↔ index < list.towers.size
  size_eq : list.size = list.towers.size
  head_size : list.head.size = Height.maxLevels
  height_pos : 0 < list.height
  height_le : list.height ≤ Height.maxLevels
  levels_pos : ∀ {index}, index < list.towers.size → 0 < list.levels index
  levels_le : ∀ index, list.levels index ≤ list.height
  height_used : list.height = 1 ∨ ∃ index, list.levels index = list.height
  next?_last : ∀ {level : Nat} {front back : List Nat},
    elements = front ++ back → level < Height.maxLevels →
      (∀ index ∈ front.getLast?, list.reaches level index = true) →
        list.next? (Place.last front) level = some (back.find? (list.reaches level))

theorem woven_empty
    (order : Key → Key → Ordering) (heights : Nat → Height) :
    Woven (empty order heights) [] where
  nodup := List.nodup_nil
  mem_iff := by simp [empty]
  size_eq := rfl
  head_size := by simp [empty]
  height_pos := by simp [empty]
  height_le := by simp [empty, Height.maxLevels]
  levels_pos := by simp [empty]
  levels_le := by simp [empty, levels]
  height_used := Or.inl rfl
  next?_last := by
    intro level front back hsplit hlevel _
    obtain ⟨rfl, rfl⟩ := List.append_eq_nil_iff.mp hsplit.symm
    simp [next?, links?, empty, hlevel]

namespace Woven

variable {list : SkipList Key} {elements : List Nat}

theorem exists_tower
    (h : Woven list elements) {index : Nat} (hindex : index ∈ elements) :
    ∃ tower, list.towers[index]? = some tower := by
  have hsize : index < list.towers.size := h.mem_iff.mp hindex
  exact ⟨_, Array.getElem?_eq_getElem hsize⟩

theorem reaches_zero
    (h : Woven list elements) {index : Nat} (hindex : index ∈ elements) :
    list.reaches 0 index = true := by
  simpa [reaches] using h.levels_pos (h.mem_iff.mp hindex)

theorem mem_iff_lt_size
    (h : Woven list elements) {index : Nat} :
    index ∈ elements ↔ index < list.size := by
  rw [h.size_eq]
  exact h.mem_iff

theorem length_eq_towers
    (h : Woven list elements) :
    elements.length = list.towers.size := by
  have hperm : elements.Perm (List.range list.towers.size) :=
    (List.perm_ext_iff_of_nodup h.nodup List.nodup_range).mpr fun index => by
      rw [h.mem_iff, List.mem_range]
  simpa using hperm.length_eq

theorem length_eq
    (h : Woven list elements) :
    elements.length = list.size :=
  h.length_eq_towers.trans h.size_eq.symm

theorem find?_reaches_zero
    (h : Woven list elements) {front back : List Nat} (hsplit : elements = front ++ back) :
    back.find? (list.reaches 0) = back.head? := by
  cases back with
  | nil => rfl
  | cons index back => simp [h.reaches_zero (show index ∈ elements by simp [hsplit])]

theorem not_reaches_of_height_le
    (h : Woven list elements) {level : Nat} (hlevel : list.height ≤ level) (index : Nat) :
    list.reaches level index = false := by
  have := h.levels_le index
  simp only [reaches, decide_eq_false_iff_not]
  omega

/-- Every place on a trail has its link, whether or not it is where the split is. -/
theorem next?_placeOn
    (h : Woven list elements) {level : Nat} (hlevel : level < Height.maxLevels)
    {front back : List Nat} (hsplit : elements = front ++ back) :
    list.next? (list.placeOn front level) level = some (back.find? (list.reaches level)) := by
  -- From the split to the front: an element below the level may as well stand behind the split.
  induction hn : front.length generalizing front back with
  | zero =>
    obtain rfl := List.length_eq_zero_iff.mp hn
    exact h.next?_last hsplit hlevel (by simp)
  | succ n ih =>
    obtain ⟨init, index, rfl⟩ : ∃ init index, front = init ++ [index] := by
      rcases List.eq_nil_or_concat front with rfl | ⟨init, index, rfl⟩
      · cases hn
      · exact ⟨init, index, by simp⟩
    by_cases hreach : list.reaches level index = true
    · rw [placeOn, Place.last_filter_of_getLast? (by simp [hreach])]
      exact h.next?_last hsplit hlevel (by simp [hreach])
    · have hinit := ih (show elements = init ++ index :: back by simp [hsplit]) (by simpa using hn)
      simpa [placeOn, List.filter_append, hreach] using hinit

/-! ## Searches -/

/-- A walk on one level passes elements until the next one that reaches the level
does not have the property. -/
theorem walk_eq
    (h : Woven list elements) {level : Nat} (hlevel : level < Height.maxLevels)
    (before : Key → Bool) (budget : Nat) {front back : List Nat}
    (hsplit : elements = front ++ back) (hbudget : back.length < budget)
    (hlast : ∀ index ∈ front.getLast?, list.reaches level index = true) :
    ∃ passed ahead, back = passed ++ ahead ∧
      list.walk before level budget (Place.last front) = some (Place.last (front ++ passed)) ∧
      (∀ index ∈ (front ++ passed).getLast?, list.reaches level index = true) ∧
      (∀ index ∈ passed, list.reaches level index = true → list.holds before index = true) ∧
      (∀ index ∈ passed.getLast?, list.holds before index = true) ∧
      (∀ index ∈ ahead.find? (list.reaches level), list.holds before index = false) := by
  -- Along the budget: each step passes one element that reaches the level, and all before it.
  induction budget generalizing front back with
  | zero => omega
  | succ budget ih =>
    have hnext := h.next?_last hsplit hlevel hlast
    cases hfind : back.find? (list.reaches level) with
    | none =>
      rw [hfind] at hnext
      refine ⟨[], back, rfl, ?_, by simpa using hlast, by simp, by simp, by simp [hfind]⟩
      simp [walk, hnext]
    | some index =>
      rw [hfind] at hnext
      obtain ⟨hreach, skipped, rest, rfl, hskipped⟩ := List.find?_eq_some_iff_append.mp hfind
      obtain ⟨tower, htower⟩ := h.exists_tower (show index ∈ elements by simp [hsplit])
      by_cases hbefore : before tower.key = true
      · have hholds : list.holds before index = true := by
          simp [holds, keyAt?, htower, hbefore]
        obtain ⟨passed, ahead, rfl, hwalk, hreached, hpassed, hpassedLast, hahead⟩ :=
          ih (show elements = front ++ skipped ++ [index] ++ rest by simp [hsplit])
            (by simp at hbudget; omega) (by simp [hreach])
        refine ⟨skipped ++ index :: passed, ahead, by simp, ?_, ?_, ?_, ?_, hahead⟩
        · rw [Place.last_append_singleton] at hwalk
          rw [walk, hnext]
          simpa [htower, hbefore] using hwalk
        · simpa using hreached
        · intro other hother hotherReach
          rcases List.mem_append.mp hother with hskip | hrest
          · have := hskipped other hskip
            simp [hotherReach] at this
          · rcases List.mem_cons.mp hrest with rfl | hmem
            · exact hholds
            · exact hpassed other hmem hotherReach
        · rw [List.append_cons]
          exact forall_getLast?_append (by simpa using hholds) hpassedLast
      · refine ⟨[], skipped ++ index :: rest, rfl, ?_, by simpa using hlast, by simp, by simp, ?_⟩
        · simp [walk, hnext, htower, hbefore]
        · intro other hother
          rw [hfind] at hother
          obtain rfl := Option.some.inj hother
          simp [holds, keyAt?, htower, hbefore]

/-- A descent passes elements on its way down, so that on every level the place
that it leaves behind is the last one in front of where it ends.  Levels above
are not disturbed: an element that stopped the walk there stops it again. -/
theorem descend_eq
    (h : Woven list elements) (before : Key → Bool) {level : Nat}
    (hlevel : level ≤ Height.maxLevels) {front back : List Nat} (trail : List Place)
    (hsplit : elements = front ++ back)
    (hlast : ∀ index ∈ front.getLast?, level ≤ list.levels index) :
    ∃ passed ahead, back = passed ++ ahead ∧
      list.descend before level (Place.last front) trail =
        some ((List.range level).map (list.placeOn (front ++ passed)) ++ trail) ∧
      (∀ index ∈ passed.getLast?, list.holds before index = true) ∧
      (0 < level → ∀ index ∈ ahead.head?, list.holds before index = false) ∧
      (∀ above, level ≤ above →
        (∀ index ∈ back.find? (list.reaches above), list.holds before index = false) →
          ∀ index ∈ passed, list.reaches above index = false) := by
  -- From the top level down; the last conjunct keeps the places of the levels above valid.
  induction level generalizing front back trail with
  | zero => exact ⟨[], back, rfl, by simp [descend], by simp, by simp, by simp⟩
  | succ level ih =>
    have hbudget : back.length < list.towers.size + 1 := by
      have hlength := h.length_eq_towers
      simp [hsplit] at hlength
      omega
    obtain ⟨passed, ahead, rfl, hwalk, hreached, hpassed, hpassedLast, hahead⟩ :=
      h.walk_eq (show level < Height.maxLevels by omega) before (list.towers.size + 1) hsplit
        hbudget fun index hindex => decide_eq_true (hlast index hindex)
    obtain ⟨more, rest, rfl, hdescend, hmore, hrest, habove⟩ :=
      ih (by omega) (Place.last (front ++ passed) :: trail)
        (show elements = front ++ passed ++ ahead by simp [hsplit]) fun index hindex =>
          Nat.le_of_lt (by simpa [reaches] using hreached index hindex)
    have hnone : ∀ index ∈ more, list.reaches level index = false :=
      habove level (Nat.le_refl _) hahead
    have hplace : list.placeOn (front ++ passed ++ more) level = Place.last (front ++ passed) := by
      have hfilter : more.filter (list.reaches level) = [] :=
        List.filter_eq_nil_iff.mpr fun index hindex => by simp [hnone index hindex]
      rw [placeOn, List.filter_append, hfilter, List.append_nil,
        Place.last_filter_of_getLast? hreached]
    have hpassedAbove : ∀ above, level + 1 ≤ above →
        (∀ index ∈ (passed ++ (more ++ rest)).find? (list.reaches above),
          list.holds before index = false) →
        ∀ index ∈ passed, list.reaches above index = false := by
      intro above hle hstop
      by_contra hreach
      obtain ⟨index, hindex⟩ : ∃ index, passed.find? (list.reaches above) = some index := by
        simpa [← Option.isSome_iff_exists] using hreach
      have hlower : list.reaches level index = true := by
        have := List.find?_some hindex
        simp only [reaches, decide_eq_true_eq] at this ⊢
        omega
      have hholds := hpassed index (List.mem_of_find?_eq_some hindex) hlower
      have := hstop index (by simp [List.find?_append, hindex])
      simp [hholds] at this
    refine ⟨passed ++ more, rest, by simp, ?_, forall_getLast?_append hpassedLast hmore, ?_, ?_⟩
    · rw [descend, hwalk]
      simp only [hdescend, List.range_succ, List.map_append, List.map_cons, List.map_nil]
      simp only [← List.append_assoc front, hplace, List.append_assoc _ [_], List.singleton_append]
    · intro _ index hindex
      rcases Nat.eq_zero_or_pos level with rfl | hpos
      · -- Every element is linked on level 0, so the walk itself looked at the first one ahead.
        have hmem : ∀ other ∈ more ++ rest, list.reaches 0 other = true := by
          intro other hother
          exact h.reaches_zero (by simp [hsplit] at hother ⊢; tauto)
        obtain rfl : more = [] := by
          refine List.eq_nil_iff_forall_not_mem.mpr fun other hother => ?_
          have := hmem other (by simp [hother])
          simp [hnone other hother] at this
        obtain ⟨tail, rfl⟩ := List.head?_eq_some_iff.mp hindex
        exact hahead index (by simp [hmem])
      · exact hrest hpos index hindex
    · intro above hle hstop index hindex
      have hpassedNone := hpassedAbove above hle hstop
      have hfind : passed.find? (list.reaches above) = none :=
        List.find?_eq_none.mpr fun other hother => by simp [hpassedNone other hother]
      rcases List.mem_append.mp hindex with hmem | hmem
      · exact hpassedNone index hmem
      · refine habove above (by omega) (fun other hother => hstop other ?_) index hmem
        simpa [List.find?_append, hfind] using hother

/-- A search ends where the elements split in those passed and those ahead: the last of
those passed has the property and the first of those ahead does not. -/
theorem trail?_eq
    (h : Woven list elements) (before : Key → Bool) :
    ∃ front back, elements = front ++ back ∧
      list.trail? before = some ((List.range list.height).map (list.placeOn front)) ∧
      (∀ index ∈ front.getLast?, list.holds before index = true) ∧
      (∀ index ∈ back.head?, list.holds before index = false) := by
  obtain ⟨front, back, rfl, hdescend, hfront, hback, -⟩ :=
    h.descend_eq before h.height_le [] (List.nil_append elements).symm (by simp)
  refine ⟨front, back, rfl, ?_, hfront, hback h.height_pos⟩
  simpa [trail?] using hdescend

theorem behind?_trail
    (h : Woven list elements) {front back : List Nat} (hsplit : elements = front ++ back) :
    list.behind? ((List.range list.height).map (list.placeOn front)) = back.head? := by
  obtain ⟨height, hheight⟩ := Nat.exists_eq_succ_of_ne_zero (Nat.ne_of_gt h.height_pos)
  have hnext := h.next?_placeOn (show 0 < Height.maxLevels by decide) hsplit
  simp [hheight, List.range_succ_eq_map, behind?, hnext, h.find?_reaches_zero hsplit]

/-- A search finds the first element ahead of where the elements split. -/
theorem seek?_eq
    (h : Woven list elements) (before : Key → Bool) :
    ∃ front back, elements = front ++ back ∧ list.seek? before = back.head? ∧
      (∀ index ∈ front.getLast?, list.holds before index = true) ∧
      (∀ index ∈ back.head?, list.holds before index = false) := by
  obtain ⟨front, back, hsplit, htrail, hfront, hback⟩ := h.trail?_eq before
  refine ⟨front, back, hsplit, ?_, hfront, hback⟩
  rw [seek?, htrail, Option.bind_some, h.behind?_trail hsplit]

/-! ## Elements and their keys in order -/

theorem exists_key
    (h : Woven list elements) {index : Nat} (hindex : index ∈ elements) :
    ∃ key, list.keyAt? index = some key := by
  obtain ⟨tower, htower⟩ := h.exists_tower hindex
  exact ⟨tower.key, by simp [keyAt?, htower]⟩

/-- Moving on from the last of some elements leads to the first of the others. -/
theorem advance_eq
    (h : Woven list elements) {front back : List Nat} {index : Nat}
    (hsplit : elements = front ++ index :: back) :
    list.advance ⟨some index⟩ = ⟨back.head?⟩ := by
  have hsplit' : elements = front ++ [index] ++ back := by simp [hsplit]
  have hnext := h.next?_last hsplit' (show 0 < Height.maxLevels by decide)
    (by simpa using h.reaches_zero (by simp [hsplit]))
  rw [Place.last_append_singleton, h.find?_reaches_zero hsplit'] at hnext
  simp [advance, hnext]

theorem first_eq
    (h : Woven list elements) :
    list.first = ⟨elements.head?⟩ := by
  have hsplit := (List.nil_append elements).symm
  have hnext := h.next?_last hsplit (show 0 < Height.maxLevels by decide) (by simp)
  rw [Place.last_nil, h.find?_reaches_zero hsplit] at hnext
  simp [first, hnext]

theorem take_eq
    (h : Woven list elements) (limit : Nat) {front back : List Nat}
    (hsplit : elements = front ++ back) :
    list.take limit ⟨back.head?⟩ = (back.filterMap list.keyAt?).take limit := by
  induction limit generalizing front back with
  | zero => simp [take]
  | succ limit ih =>
    cases back with
    | nil => simp [take, key?]
    | cons index back =>
      obtain ⟨key, hkey⟩ := h.exists_key (show index ∈ elements by simp [hsplit])
      have hrest := ih (show elements = front ++ [index] ++ back by simp [hsplit])
      simp [take, key?, hkey, h.advance_eq hsplit, hrest]

theorem keysFrom_eq
    (h : Woven list elements) {front back : List Nat} (hsplit : elements = front ++ back) :
    list.keysFrom ⟨back.head?⟩ = back.filterMap list.keyAt? := by
  rw [keysFrom, h.take_eq list.towers.size hsplit, List.take_of_length_le]
  have hlength := h.length_eq_towers
  have := List.length_filterMap_le list.keyAt? back
  simp [hsplit] at hlength
  omega

theorem toList_eq
    (h : Woven list elements) :
    list.toList = elements.filterMap list.keyAt? := by
  rw [toList, h.first_eq, h.keysFrom_eq (List.nil_append elements).symm]

end Woven

end LsmStore.SkipList
