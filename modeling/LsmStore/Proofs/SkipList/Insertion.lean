import LsmStore.Proofs.SkipList.Weave

/-!
# Insertion keeps the links in one order

Insertion splits the elements where the search for the new key ends, and puts the
new element between the two parts.  On each of its levels the trail holds the last
place in front of the split, so linking the new tower in behind the trail keeps
all levels in one order.  Again nothing is asked of the comparison of keys.
-/

namespace LsmStore.SkipList

variable {Key : Type}

/-! ## What a new link changes -/

theorem next?_link
    (list : SkipList Key) (level index : Nat) (place other : Place) (otherLevel : Nat) :
    (list.link level index place).next? other otherLevel =
      if other = place ∧ otherLevel = level then
        (list.next? other otherLevel).map fun _ => some index
      else list.next? other otherLevel := by
  cases place with
  | head =>
    cases other with
    | head =>
      by_cases hlevel : otherLevel = level
      · subst hlevel
        by_cases hsize : otherLevel < list.head.size <;> simp [link, next?, links?, hsize]
      · simp [link, next?, links?, hlevel, Ne.symm hlevel]
    | element j => simp [link, next?, links?]
  | element i =>
    cases other with
    | head => simp [link, next?, links?]
    | element j =>
      by_cases hij : j = i
      · subst hij
        cases htower : list.towers[j]? with
        | none => simp [link, next?, links?, Array.getElem?_modify, htower]
        | some tower =>
          by_cases hlevel : otherLevel = level
          · subst hlevel
            by_cases hsize : otherLevel < tower.next.size <;>
              simp [link, next?, links?, Array.getElem?_modify, htower, hsize]
          · simp [link, next?, links?, Array.getElem?_modify, htower, hlevel, Ne.symm hlevel]
      · simp [link, next?, links?, Array.getElem?_modify, hij, Ne.symm hij]

theorem keyAt?_link
    (list : SkipList Key) (level index : Nat) (place : Place) (other : Nat) :
    (list.link level index place).keyAt? other = list.keyAt? other := by
  cases place with
  | head => rfl
  | element i =>
    by_cases hi : i = other
    · cases htower : list.towers[other]? <;>
        simp [link, keyAt?, Array.getElem?_modify, hi, htower]
    · simp [link, keyAt?, Array.getElem?_modify, hi]

theorem levels_link
    (list : SkipList Key) (level index : Nat) (place : Place) (other : Nat) :
    (list.link level index place).levels other = list.levels other := by
  cases place with
  | head => rfl
  | element i =>
    by_cases hi : i = other
    · cases htower : list.towers[other]? <;>
        simp [link, levels, Array.getElem?_modify, hi, htower]
    · simp [link, levels, Array.getElem?_modify, hi]

/-- Links an element in behind the places of a trail, the first of them on level `start`. -/
def linkAll (list : SkipList Key) (index start : Nat) (trail : List Place) : SkipList Key :=
  (trail.zipIdx start).foldl (fun list (place, level) => list.link level index place) list

theorem linkAll_cons
    (list : SkipList Key) (index start : Nat) (place : Place) (trail : List Place) :
    list.linkAll index start (place :: trail) =
      (list.link start index place).linkAll index (start + 1) trail :=
  rfl

/-- What no single link changes, linking a whole tower does not change. -/
theorem linkAll_invariant
    {β : Type} (view : SkipList Key → β) {index : Nat}
    (hview : ∀ list level place, view (link list level index place) = view list)
    (list : SkipList Key) (start : Nat) (trail : List Place) :
    view (list.linkAll index start trail) = view list := by
  induction trail generalizing list start with
  | nil => rfl
  | cons place trail ih => rw [linkAll_cons, ih, hview]

theorem next?_linkAll
    (list : SkipList Key) (index start : Nat) (trail : List Place) (place : Place) (level : Nat) :
    (list.linkAll index start trail).next? place level =
      if start ≤ level ∧ trail[level - start]? = some place then
        (list.next? place level).map fun _ => some index
      else list.next? place level := by
  induction trail generalizing list start with
  | nil => simp [linkAll]
  | cons first trail ih =>
    rw [linkAll_cons, ih, next?_link]
    rcases Nat.lt_trichotomy level start with hbelow | rfl | habove
    · have hnot : ¬ start ≤ level := by omega
      have hnext : ¬ start + 1 ≤ level := by omega
      simp [hnot, hnext, Nat.ne_of_lt hbelow]
    · have hnext : ¬ level + 1 ≤ level := by omega
      simp [hnext, eq_comm]
    · obtain ⟨gap, rfl⟩ : ∃ gap, level = start + 1 + gap := ⟨level - (start + 1), by omega⟩
      have hsub : start + 1 + gap - start = gap + 1 := by omega
      have hne : start + 1 + gap ≠ start := by omega
      have hle : start ≤ start + 1 + gap := by omega
      simp [hsub, hne, hle]

/-! ## The spliced list -/

variable {list : SkipList Key} {elements front back : List Nat} {height : Height} {key : Key}

/-- The last places in front of a split, one for each level of a tower. -/
def splitTrail (list : SkipList Key) (front : List Nat) (height : Height) : List Place :=
  (List.range height.levels).map (list.placeOn front)

theorem getElem?_splitTrail
    (list : SkipList Key) (front : List Nat) (height : Height) (level : Nat) :
    (list.splitTrail front height)[level]? =
      if level < height.levels then some (list.placeOn front level) else none := by
  by_cases hlevel : level < height.levels <;> simp [splitTrail, hlevel]

/-- Fitting the trail of a search to a tower gives the last place on each of its levels:
levels that are not in use are led by the head. -/
theorem Woven.fitTrail_eq
    (h : Woven list elements) (front : List Nat) (height : Height) :
    fitTrail ((List.range list.height).map (list.placeOn front)) height =
      list.splitTrail front height := by
  have hhead : ∀ level, list.height ≤ level → list.placeOn front level = .head := by
    intro level hlevel
    have hfilter : front.filter (list.reaches level) = [] :=
      List.filter_eq_nil_iff.mpr fun index _ => by
        simp [h.not_reaches_of_height_le hlevel index]
    rw [placeOn, hfilter, Place.last_nil]
  apply List.ext_getElem?
  intro level
  rw [getElem?_splitTrail, fitTrail, List.getElem?_take]
  by_cases hlevel : level < height.levels
  · by_cases hused : level < list.height
    · simp [hlevel, hused, List.getElem?_append_left]
    · have hunused : list.height ≤ level := by omega
      have hpad : level - list.height < height.levels - list.height := by omega
      simp [hlevel, hunused, List.getElem?_append_right, hpad, hhead level hunused]
  · simp [hlevel]

theorem splice_eq
    (list : SkipList Key) (trail : List Place) (key : Key) :
    list.splice trail key =
      ({ list with
          towers := list.towers.push (list.towerBehind trail key)
          height := max list.height trail.length
          size := list.size + 1 }).linkAll list.towers.size 0 trail :=
  rfl

theorem order_splice
    (list : SkipList Key) (trail : List Place) (key : Key) :
    (list.splice trail key).order = list.order := by
  rw [splice_eq, linkAll_invariant order (by rintro _ _ (_ | _) <;> rfl)]

theorem height_splice
    (list : SkipList Key) (trail : List Place) (key : Key) :
    (list.splice trail key).height = max list.height trail.length := by
  rw [splice_eq, linkAll_invariant SkipList.height (by rintro _ _ (_ | _) <;> rfl)]

theorem head_size_splice
    (list : SkipList Key) (trail : List Place) (key : Key) :
    (list.splice trail key).head.size = list.head.size := by
  rw [splice_eq, linkAll_invariant (fun list => list.head.size)
    (by rintro _ _ (_ | _) <;> simp [link])]

theorem size_splice
    (list : SkipList Key) (trail : List Place) (key : Key) :
    (list.splice trail key).size = list.size + 1 := by
  rw [splice_eq, linkAll_invariant SkipList.size (by rintro _ _ (_ | _) <;> rfl)]

theorem towers_size_splice
    (list : SkipList Key) (trail : List Place) (key : Key) :
    (list.splice trail key).towers.size = list.towers.size + 1 := by
  rw [splice_eq, linkAll_invariant (fun list => list.towers.size)
    (by rintro _ _ (_ | _) <;> simp [link])]
  exact Array.size_push _

theorem keyAt?_splice
    (list : SkipList Key) (trail : List Place) (key : Key) (index : Nat) :
    (list.splice trail key).keyAt? index =
      if index = list.towers.size then some key else list.keyAt? index := by
  rw [splice_eq, linkAll_invariant (fun list => list.keyAt? index)
    fun list level place => keyAt?_link list level _ place index]
  by_cases hindex : index = list.towers.size <;>
    simp [keyAt?, Array.getElem?_push, towerBehind, hindex]

theorem levels_splice
    (list : SkipList Key) (trail : List Place) (key : Key) (index : Nat) :
    (list.splice trail key).levels index =
      if index = list.towers.size then trail.length else list.levels index := by
  rw [splice_eq, linkAll_invariant (fun list => list.levels index)
    fun list level place => levels_link list level _ place index]
  by_cases hindex : index = list.towers.size <;>
    simp [levels, Array.getElem?_push, towerBehind, hindex]

theorem reaches_splice
    (list : SkipList Key) (trail : List Place) (key : Key) (level : Nat) {index : Nat}
    (hindex : index ≠ list.towers.size) :
    (list.splice trail key).reaches level index = list.reaches level index := by
  simp [reaches, levels_splice, hindex]

/-- The new tower leads on each of its levels to where the trail led, and the places on the
trail lead to it; all other links stay. -/
theorem next?_splice
    (list : SkipList Key) (trail : List Place) (key : Key) (place : Place) (level : Nat)
    (hfresh : Place.element list.towers.size ∉ trail) :
    (list.splice trail key).next? place level =
      if place = .element list.towers.size then
        (trail[level]?).map fun behind => (list.next? behind level).join
      else if trail[level]? = some place then
        (list.next? place level).map fun _ => some list.towers.size
      else list.next? place level := by
  rw [splice_eq, next?_linkAll]
  by_cases hplace : place = .element list.towers.size
  · have hoff : trail[level]? ≠ some (.element list.towers.size) := fun hon =>
      hfresh (List.mem_of_getElem? hon)
    subst hplace
    simp [hoff, next?, links?, towerBehind]
  · have hold :
        ({ list with
            towers := list.towers.push (list.towerBehind trail key)
            height := max list.height trail.length
            size := list.size + 1 } : SkipList Key).next? place level =
          list.next? place level := by
      cases place with
      | head => rfl
      | element index =>
        have hindex : index ≠ list.towers.size := fun same => hplace (by rw [same])
        simp [next?, links?, Array.getElem?_push, hindex]
    simp [hplace, hold]

theorem Woven.not_mem_splitTrail
    (h : Woven list elements) (hsplit : elements = front ++ back) :
    Place.element list.towers.size ∉ list.splitTrail front height := by
  intro hmem
  obtain ⟨level, -, hlast⟩ := List.mem_map.mp hmem
  have hfront := List.mem_of_mem_filter (Place.mem_of_last_eq_element hlast)
  have := h.mem_iff.mp (show list.towers.size ∈ elements by simp [hsplit, hfront])
  omega

theorem reaches_splice_new
    (list : SkipList Key) (front : List Nat) (height : Height) (key : Key) (level : Nat) :
    (list.splice (list.splitTrail front height) key).reaches level list.towers.size =
      decide (level < height.levels) := by
  simp [reaches, levels_splice, splitTrail]

namespace Woven

theorem size_not_mem
    (h : Woven list elements) :
    list.towers.size ∉ elements :=
  fun hmem => Nat.lt_irrefl _ (h.mem_iff.mp hmem)

theorem reaches_splice_of_mem
    (h : Woven list elements) (trail : List Place) (key : Key) (level : Nat) {index : Nat}
    (hindex : index ∈ elements) :
    (list.splice trail key).reaches level index = list.reaches level index :=
  reaches_splice list trail key level fun hsame => h.size_not_mem (hsame ▸ hindex)

theorem find?_splice
    (h : Woven list elements) (trail : List Place) (key : Key) (level : Nat)
    {rest : List Nat} (hrest : ∀ index ∈ rest, index ∈ elements) :
    rest.find? ((list.splice trail key).reaches level) = rest.find? (list.reaches level) :=
  List.find?_congr fun index hindex =>
    h.reaches_splice_of_mem trail key level (hrest index hindex)

/-- The link of an old place, which leads to the new element exactly from the trail. -/
theorem next?_splice_old
    (h : Woven list elements) (hsplit : elements = front ++ back)
    (height : Height) (key : Key) {place : Place} {level : Nat} {ahead : Option Nat}
    (hplace : place ≠ .element list.towers.size) (hnext : list.next? place level = some ahead) :
    (list.splice (list.splitTrail front height) key).next? place level =
      if level < height.levels ∧ list.placeOn front level = place then some (some list.towers.size)
      else some ahead := by
  rw [next?_splice list _ key place level (h.not_mem_splitTrail hsplit), getElem?_splitTrail,
    if_neg hplace, hnext]
  by_cases hlevel : level < height.levels <;> simp [hlevel]

theorem next?_splice_new
    (h : Woven list elements) (hsplit : elements = front ++ back)
    (height : Height) (key : Key) {level : Nat} (hlevel : level < height.levels) :
    (list.splice (list.splitTrail front height) key).next? (.element list.towers.size) level =
      some (back.find? (list.reaches level)) := by
  have hnext := h.next?_placeOn (Nat.lt_of_lt_of_le hlevel height.le_max) hsplit
  rw [next?_splice list _ key _ level (h.not_mem_splitTrail hsplit), getElem?_splitTrail]
  simp [hlevel, hnext]

theorem last_ne_new
    (h : Woven list elements) {passed : List Nat} (hpassed : ∀ index ∈ passed, index ∈ elements) :
    Place.last passed ≠ .element list.towers.size :=
  fun hsame => h.size_not_mem (hpassed _ (Place.mem_of_last_eq_element hsame))

/-- The last place on a level is behind every element that reaches the level. -/
theorem placeOn_ne_last
    (h : Woven list elements) {passed skipped rest : List Nat}
    (hsplit : elements = passed ++ (skipped ++ rest)) {level index : Nat}
    (hindex : index ∈ skipped) (hreach : list.reaches level index = true) :
    list.placeOn (passed ++ skipped) level ≠ Place.last passed := by
  have hnodup := h.nodup
  rw [hsplit] at hnodup
  have hdisjoint := (List.nodup_append.mp hnodup).2.2
  rcases List.eq_nil_or_concat (skipped.filter (list.reaches level)) with
    hnil | ⟨init, final, hlast⟩
  · have := List.filter_eq_nil_iff.mp hnil index hindex
    contradiction
  · have hfinal : final ∈ skipped :=
      List.mem_of_mem_filter (show final ∈ skipped.filter (list.reaches level) by simp [hlast])
    have hplace : list.placeOn (passed ++ skipped) level = .element final := by
      rw [placeOn, List.filter_append, hlast, List.concat_eq_append, ← List.append_assoc,
        Place.last_append_singleton]
    intro hsame
    rw [hplace] at hsame
    exact hdisjoint final (Place.mem_of_last_eq_element hsame.symm) final (by simp [hfinal]) rfl

/-- Links in front of the split: the new element comes between, unless an old element
that reaches the level lies between already. -/
theorem next?_splice_front
    (h : Woven list elements) (height : Height) (key : Key) {level : Nat}
    (hlevel : level < Height.maxLevels) {passed skipped : List Nat}
    (hsplit : elements = passed ++ skipped ++ back)
    (hlast : ∀ index ∈ passed.getLast?,
      (list.splice (list.splitTrail (passed ++ skipped) height) key).reaches level index = true) :
    (list.splice (list.splitTrail (passed ++ skipped) height) key).next?
        (Place.last passed) level =
      some ((skipped ++ list.towers.size :: back).find?
        ((list.splice (list.splitTrail (passed ++ skipped) height) key).reaches level)) := by
  replace hlast : ∀ index ∈ passed.getLast?, list.reaches level index = true := by
    intro index hindex
    rw [← hlast index hindex, h.reaches_splice_of_mem]
    simp [hsplit, List.mem_of_getLast? hindex]
  have hnext := h.next?_last (show elements = passed ++ (skipped ++ back) by simp [hsplit])
    hlevel hlast
  rw [h.next?_splice_old hsplit height key
    (h.last_ne_new fun index hindex => by simp [hsplit, hindex]) hnext]
  have hskipped := h.find?_splice (list.splitTrail (passed ++ skipped) height) key level
    (show ∀ index ∈ skipped, index ∈ elements from
      fun index hindex => by simp [hsplit, hindex])
  have hback := h.find?_splice (list.splitTrail (passed ++ skipped) height) key level
    (show ∀ index ∈ back, index ∈ elements from
      fun index hindex => by simp [hsplit, hindex])
  rw [List.find?_append, List.find?_append, List.find?_cons, hskipped, hback, reaches_splice_new]
  cases hfind : skipped.find? (list.reaches level) with
  | some index =>
    have hoff : list.placeOn (passed ++ skipped) level ≠ Place.last passed :=
      h.placeOn_ne_last (by simpa using hsplit) (List.mem_of_find?_eq_some hfind)
        (List.find?_some hfind)
    simp [hoff]
  | none =>
    have hon : list.placeOn (passed ++ skipped) level = Place.last passed := by
      have hfilter : skipped.filter (list.reaches level) = [] :=
        List.filter_eq_nil_iff.mpr (List.find?_eq_none.mp hfind)
      rw [placeOn, List.filter_append, hfilter, List.append_nil,
        Place.last_filter_of_getLast? hlast]
    by_cases hnew : level < height.levels <;> simp [hon, hnew]

/-- Links behind the split: the new element leads on as the trail did, and no old element
behind the split is on the trail. -/
theorem next?_splice_behind
    (h : Woven list elements) (height : Height) (key : Key) {level : Nat}
    (hlevel : level < Height.maxLevels) {more ahead : List Nat}
    (hsplit : elements = front ++ (more ++ ahead))
    (hlast : ∀ index ∈ (front ++ list.towers.size :: more).getLast?,
      (list.splice (list.splitTrail front height) key).reaches level index = true) :
    (list.splice (list.splitTrail front height) key).next?
        (Place.last (front ++ list.towers.size :: more)) level =
      some (ahead.find? ((list.splice (list.splitTrail front height) key).reaches level)) := by
  rw [h.find?_splice _ key level fun index hindex => by simp [hsplit, hindex]]
  rcases List.eq_nil_or_concat more with rfl | ⟨init, final, rfl⟩
  · have hnew : level < height.levels := by
      simpa [reaches_splice_new] using hlast list.towers.size (by simp)
    rw [Place.last_append_singleton, h.next?_splice_new hsplit height key hnew, List.nil_append]
  · have hconcat : front ++ list.towers.size :: init.concat final =
        front ++ list.towers.size :: init ++ [final] := by simp
    rw [hconcat] at hlast ⊢
    have hmem : final ∈ elements := by simp [hsplit]
    have hreach : list.reaches level final = true := by
      rw [← hlast final List.getLast?_concat, h.reaches_splice_of_mem _ key level hmem]
    have hnext := h.next?_last
      (show elements = front ++ init ++ [final] ++ ahead by simp [hsplit])
      hlevel (by simpa using hreach)
    rw [Place.last_append_singleton] at hnext
    have hplace : Place.element final ≠ .element list.towers.size := fun hsame =>
      h.size_not_mem (Place.element.inj hsame ▸ hmem)
    have hoff : list.placeOn front level ≠ .element final := by
      have hnodup := h.nodup
      rw [hsplit] at hnodup
      intro hsame
      exact (List.nodup_append.mp hnodup).2.2 final
        (List.mem_of_mem_filter (Place.mem_of_last_eq_element hsame)) final (by simp) rfl
    rw [Place.last_append_singleton, h.next?_splice_old hsplit height key hplace hnext]
    simp [hoff]

end Woven

/-- Putting a new element where the elements are split keeps all links in one order. -/
theorem Woven.splice
    (h : Woven list elements) (hsplit : elements = front ++ back)
    (height : Height) (key : Key) :
    Woven (list.splice (list.splitTrail front height) key) (front ++ list.towers.size :: back) := by
  have hlength : (list.splitTrail front height).length = height.levels := by simp [splitTrail]
  refine {
    nodup := ?_, mem_iff := ?_, size_eq := ?_, head_size := ?_, height_pos := ?_, height_le := ?_,
    levels_pos := ?_, levels_le := ?_, height_used := ?_, next?_last := ?_ }
  · have hfresh := h.size_not_mem
    have hnodup := h.nodup
    rw [hsplit] at hfresh hnodup
    exact List.nodup_middle.mpr (List.nodup_cons.mpr ⟨hfresh, hnodup⟩)
  · intro index
    have hmem := @Woven.mem_iff _ _ _ h index
    rw [hsplit, List.mem_append] at hmem
    rw [towers_size_splice, Nat.lt_succ_iff_lt_or_eq, ← hmem, List.mem_append, List.mem_cons]
    tauto
  · rw [size_splice, towers_size_splice, h.size_eq]
  · rw [head_size_splice, h.head_size]
  · have := h.height_pos
    rw [height_splice]
    omega
  · have := h.height_le
    have := height.le_max
    rw [height_splice, hlength]
    omega
  · intro index hindex
    rw [towers_size_splice] at hindex
    rw [levels_splice, hlength]
    split
    · exact height.pos
    · exact h.levels_pos (by omega)
  · intro index
    have := h.levels_le index
    rw [levels_splice, height_splice, hlength]
    split <;> omega
  · rw [height_splice, hlength]
    rcases Nat.le_total list.height height.levels with hle | hle
    · exact Or.inr ⟨list.towers.size, by simp [levels_splice, hlength, hle]⟩
    · rcases h.height_used with hone | ⟨index, hindex⟩
      · have := height.pos
        exact Or.inl (by omega)
      · have hne : index ≠ list.towers.size := by
          rintro rfl
          have := h.height_pos
          simp [levels] at hindex
          omega
        exact Or.inr ⟨index, by simp [levels_splice, hne, hindex, hle]⟩
  · -- What is passed ends at the split, or behind the new element, or in front of the split.
    intro level passed ahead hparts hlevel hlast
    rcases List.append_eq_append_iff.mp hparts with ⟨more, rfl, hback⟩ | ⟨skipped, rfl, rfl⟩
    · cases more with
      | nil =>
        obtain rfl : ahead = list.towers.size :: back := by simpa using hback.symm
        have hfront := h.next?_splice_front height key hlevel
          (show elements = front ++ [] ++ back by simpa using hsplit) (by simpa using hlast)
        simpa using hfront
      | cons new more =>
        obtain ⟨rfl, rfl⟩ := List.cons_eq_cons.mp hback
        exact h.next?_splice_behind height key hlevel hsplit hlast
    · exact h.next?_splice_front height key hlevel hsplit hlast

/-- An insertion splits the elements where the search for the key ends.  It changes nothing if
the first element ahead is equivalent, and otherwise splices the new element in at the split. -/
theorem Woven.insert_eq
    (h : Woven list elements) (key : Key) :
    ∃ front back, elements = front ++ back ∧
      (∀ index ∈ front.getLast?, list.holds (list.isLess key) index = true) ∧
      (∀ index ∈ back.head?, list.holds (list.isLess key) index = false) ∧
      list.insert key =
        match list.equivalent? key back.head? with
        | some index => (⟨some index⟩, list)
        | none =>
          (⟨some list.towers.size⟩,
            list.splice (list.splitTrail front (list.heights list.towers.size)) key) := by
  obtain ⟨front, back, hsplit, htrail, hfront, hback⟩ := h.trail?_eq (list.isLess key)
  refine ⟨front, back, hsplit, hfront, hback, ?_⟩
  rw [insert, htrail]
  cases hequivalent : list.equivalent? key back.head? <;>
    simp only [h.behind?_trail hsplit, h.fitTrail_eq, hequivalent]

theorem Woven.filterMap_keyAt?_splice
    (h : Woven list elements) (trail : List Place) (key : Key) {indices : List Nat}
    (hindices : ∀ index ∈ indices, index ∈ elements) :
    indices.filterMap (list.splice trail key).keyAt? = indices.filterMap list.keyAt? := by
  apply List.filterMap_congr
  intro index hindex
  rw [keyAt?_splice, if_neg]
  intro hsame
  exact h.size_not_mem (hsame ▸ hindices index hindex)

/-- An insertion leaves the list as it is, or puts a new element somewhere between the others. -/
theorem Woven.insert_cases_elements
    (h : Woven list elements) (key : Key) :
    (list.insert key).2 = list ∨
      ∃ front back, elements = front ++ back ∧
        Woven (list.insert key).2 (front ++ list.towers.size :: back) ∧
        (list.insert key).2.keyAt? list.towers.size = some key ∧
        ∀ indices : List Nat, (∀ index ∈ indices, index ∈ elements) →
          indices.filterMap (list.insert key).2.keyAt? = indices.filterMap list.keyAt? := by
  obtain ⟨front, back, hsplit, -, -, hinsert⟩ := h.insert_eq key
  cases hequivalent : list.equivalent? key back.head? with
  | some index =>
    left
    rw [hinsert, hequivalent]
  | none =>
    right
    rw [hinsert, hequivalent]
    refine ⟨front, back, hsplit, h.splice hsplit _ key, ?_, ?_⟩
    · rw [keyAt?_splice, if_pos rfl]
    · intro indices hindices
      exact h.filterMap_keyAt?_splice _ key hindices

/-- Every list that insertions make from the empty one has its links in one order. -/
theorem woven_insertAll
    (h : Woven list elements) (keys : List Key) :
    ∃ elements, Woven (list.insertAll keys) elements := by
  induction keys generalizing list elements with
  | nil => exact ⟨elements, h⟩
  | cons key keys ih =>
    have hnext : ∃ elements, Woven (list.insert key).2 elements := by
      rcases h.insert_cases_elements key with hsame | ⟨front, back, -, hwoven, -⟩
      · exact ⟨elements, hsame.symm ▸ h⟩
      · exact ⟨_, hwoven⟩
    obtain ⟨_, hwoven⟩ := hnext
    exact ih hwoven

end LsmStore.SkipList
