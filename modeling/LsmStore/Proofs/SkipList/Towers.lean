import LsmStore.Proofs.SkipList.Insertion

/-!
# Towers under any comparison

Nothing here asks that the comparison of keys is an order.  Whatever it answers, insertion
keeps all levels in one order of the elements, so the links of a level lead from the head
through the towers that reach it and end.  A search is told here as a loop, turn by turn and
without a bound: it reads a link, and goes forward, goes down or stops.  In the lists that
insertions make it stops, it never reads a link that a tower does not have, and what it
stops at is what the bounded search finds.
-/

namespace LsmStore.SkipList

variable {Key : Type} {list : SkipList Key} {elements front back : List Nat}

/-! ## Chains -/

/-- The elements to which the links of a level lead from a place on, until a link leads nowhere. -/
inductive Leads (list : SkipList Key) (level : Nat) : Place → List Nat → Prop
  | nil {place : Place} (hnext : list.next? place level = some none) :
      Leads list level place []
  | cons {place : Place} {index : Nat} {rest : List Nat}
      (hnext : list.next? place level = some (some index))
      (hrest : Leads list level (.element index) rest) :
      Leads list level place (index :: rest)

/-- Behind a split the links of a level lead through the elements whose towers reach it. -/
theorem Woven.leads
    (h : Woven list elements) {level : Nat} (hlevel : level < Height.maxLevels)
    (hsplit : elements = front ++ back) :
    list.Leads level (list.placeOn front level) (back.filter (list.reaches level)) := by
  -- Along the elements behind the split: one that does not reach the level moves the split only.
  induction back generalizing front with
  | nil =>
    apply Leads.nil
    simpa using h.next?_placeOn hlevel hsplit
  | cons index back ih =>
    have hnext := h.next?_placeOn hlevel hsplit
    have hrest := ih (show elements = (front ++ [index]) ++ back by simp [hsplit])
    by_cases hreach : list.reaches level index = true
    · have hplace : list.placeOn (front ++ [index]) level = .element index := by
        simp [placeOn, List.filter_append, hreach]
      rw [hplace] at hrest
      rw [List.find?_cons_of_pos hreach] at hnext
      rw [List.filter_cons_of_pos hreach]
      exact Leads.cons hnext hrest
    · have hplace : list.placeOn (front ++ [index]) level = list.placeOn front level := by
        simp [placeOn, List.filter_append, hreach]
      rw [hplace] at hrest
      rwa [List.filter_cons_of_neg hreach]

/-! ## Searches turn by turn -/

/-- Where a search is. -/
structure Descent where
  place : Place
  level : Nat

/-- What a turn of a search does. -/
inductive Turn where
  /-- It reads a link or an element that is not there. -/
  | lost
  /-- It ends the search at an element, or at the end of the list. -/
  | ends (found : Option Nat)
  /-- It goes on from another place or level. -/
  | goesTo (descent : Descent)

/-- Leaves a level: down to the next one, and out of the search from level 0. -/
def Descent.leave (descent : Descent) (ahead : Option Nat) : Turn :=
  match descent.level with
  | 0 => .ends ahead
  | level + 1 => .goesTo ⟨descent.place, level⟩

/-- One turn: reads the link ahead, and goes forward exactly if the key there is `before`. -/
def turn (list : SkipList Key) (before : Key → Bool) (descent : Descent) : Turn :=
  match list.next? descent.place descent.level with
  | none => .lost
  | some none => descent.leave none
  | some (some index) =>
    match list.keyAt? index with
    | none => .lost
    | some key =>
      if before key then .goesTo ⟨.element index, descent.level⟩
      else descent.leave (some index)

/-- A search that ends after a number of turns, none of which is lost. -/
inductive Turns (list : SkipList Key) (before : Key → Bool) : Nat → Descent → Option Nat → Prop
  | ends {descent : Descent} {found : Option Nat}
      (hturn : list.turn before descent = .ends found) :
      Turns list before 1 descent found
  | goesTo {descent other : Descent} {turns : Nat} {found : Option Nat}
      (hturn : list.turn before descent = .goesTo other)
      (hrest : Turns list before turns other found) :
      Turns list before (turns + 1) descent found

section Turns

variable {before : Key → Bool} {descent : Descent} {found other : Option Nat} {turns more : Nat}

/-- A search has one number of turns and one end. -/
theorem Turns.unique
    (h : list.Turns before turns descent found) (hother : list.Turns before more descent other) :
    turns = more ∧ found = other := by
  induction h generalizing more with
  | ends hturn =>
    cases hother with
    | ends hsame =>
      rw [hturn] at hsame
      cases hsame
      exact ⟨rfl, rfl⟩
    | goesTo hsame _ =>
      rw [hturn] at hsame
      cases hsame
  | goesTo hturn _ ih =>
    cases hother with
    | ends hsame =>
      rw [hturn] at hsame
      cases hsame
    | goesTo hsame hmore =>
      rw [hturn] at hsame
      cases hsame
      obtain ⟨hturns, hfound⟩ := ih hmore
      exact ⟨congrArg (· + 1) hturns, hfound⟩

/-- A bounded walk does forward turns, and where it stops the next turn leaves the level. -/
theorem turns_of_walk
    {level budget : Nat} {place last : Place}
    (hwalk : list.walk before level budget place = some last) :
    list.turn before ⟨last, level⟩ = Descent.leave ⟨last, level⟩ (list.next? last level).join ∧
      ∀ {turns found}, list.Turns before turns ⟨last, level⟩ found →
        ∃ more, list.Turns before more ⟨place, level⟩ found := by
  induction budget generalizing place with
  | zero => cases hwalk
  | succ budget ih =>
    rw [walk] at hwalk
    cases hnext : list.next? place level with
    | none =>
      rw [hnext] at hwalk
      cases hwalk
    | some ahead =>
      rw [hnext] at hwalk
      cases ahead with
      | none =>
        cases hwalk
        constructor
        · simp [turn, hnext]
        · intro turns found hturns
          exact ⟨turns, hturns⟩
      | some index =>
        cases htower : list.towers[index]? with
        | none => simp [htower] at hwalk
        | some tower =>
          by_cases hbefore : before tower.key = true
          · obtain ⟨hleave, hforward⟩ := ih (by simpa [htower, hbefore] using hwalk)
            refine ⟨hleave, fun {turns found} hturns => ?_⟩
            obtain ⟨more, hmore⟩ := hforward hturns
            have hturn : list.turn before ⟨place, level⟩ = .goesTo ⟨.element index, level⟩ := by
              simp [turn, hnext, keyAt?, htower, hbefore]
            exact ⟨more + 1, Turns.goesTo hturn hmore⟩
          · obtain rfl : place = last := by simpa [htower, hbefore] using hwalk
            constructor
            · simp [turn, hnext, keyAt?, htower, hbefore]
            · intro turns found hturns
              exact ⟨turns, hturns⟩

/-- A bounded descent does the turns of a search, which ends right behind the trail. -/
theorem turns_of_descend
    {level : Nat} {place : Place} {trail result : List Place}
    (hdescend : list.descend before (level + 1) place trail = some result) :
    ∃ turns, list.Turns before turns ⟨place, level⟩ (list.behind? result) := by
  induction level generalizing place trail with
  | zero =>
    cases hwalk : list.walk before 0 (list.towers.size + 1) place with
    | none => simp [descend, hwalk] at hdescend
    | some last =>
      obtain rfl : last :: trail = result := by simpa [descend, hwalk] using hdescend
      obtain ⟨hleave, hforward⟩ := turns_of_walk hwalk
      exact hforward (Turns.ends hleave)
  | succ level ih =>
    cases hwalk : list.walk before (level + 1) (list.towers.size + 1) place with
    | none => simp [descend, hwalk] at hdescend
    | some last =>
      rw [descend, hwalk] at hdescend
      obtain ⟨turns, hturns⟩ := ih hdescend
      obtain ⟨hleave, hforward⟩ := turns_of_walk hwalk
      exact hforward (Turns.goesTo hleave hturns)

end Turns

/-- From the last element in front of a split, a search needs at most one turn for each element
behind the split and one for each level: a turn passes an element or leaves a level. -/
theorem Woven.exists_turns
    (h : Woven list elements) (before : Key → Bool) {level : Nat}
    (hlevel : level < Height.maxLevels) (hsplit : elements = front ++ back)
    (hlast : ∀ index ∈ front.getLast?, list.reaches level index = true) :
    ∃ turns ≤ back.length + (level + 1), ∃ found,
      list.Turns before turns ⟨Place.last front, level⟩ found := by
  induction hn : back.length + level using Nat.strong_induction_on
    generalizing front back level with
  | _ n ih =>
    have hnext := h.next?_last hsplit hlevel hlast
    have hleave : ∀ ahead,
        list.turn before ⟨Place.last front, level⟩ =
          Descent.leave ⟨Place.last front, level⟩ ahead →
        ∃ turns ≤ back.length + (level + 1), ∃ found,
          list.Turns before turns ⟨Place.last front, level⟩ found := by
      intro ahead hturn
      cases level with
      | zero => exact ⟨1, by omega, ahead, Turns.ends hturn⟩
      | succ level =>
        -- The last element reaches the level, so it reaches the one below.
        have hlower : ∀ index ∈ front.getLast?, list.reaches level index = true := by
          intro index hindex
          have hreach := hlast index hindex
          simp only [reaches, decide_eq_true_eq] at hreach ⊢
          omega
        obtain ⟨turns, hturns, found, hrest⟩ :=
          ih (back.length + level) (by omega) (by omega) hsplit hlower rfl
        exact ⟨turns + 1, by omega, found, Turns.goesTo hturn hrest⟩
    cases hfind : back.find? (list.reaches level) with
    | none =>
      apply hleave none
      simp [turn, hnext, hfind]
    | some index =>
      obtain ⟨hreach, skipped, rest, rfl, -⟩ := List.find?_eq_some_iff_append.mp hfind
      obtain ⟨key, hkey⟩ := h.exists_key (show index ∈ elements by simp [hsplit])
      by_cases hbefore : before key = true
      · obtain ⟨turns, hturns, found, hrest⟩ :=
          ih (rest.length + level) (by simp at hn; omega) hlevel
            (show elements = (front ++ skipped ++ [index]) ++ rest by simp [hsplit])
            (by simp [hreach]) rfl
        rw [Place.last_append_singleton] at hrest
        have hturn : list.turn before ⟨Place.last front, level⟩ =
            .goesTo ⟨.element index, level⟩ := by
          simp [turn, hnext, hfind, hkey, hbefore]
        refine ⟨turns + 1, ?_, found, Turns.goesTo hturn hrest⟩
        rw [List.length_append, List.length_cons]
        omega
      · apply hleave (some index)
        simp [turn, hnext, hfind, hkey, hbefore]

/-- The search loop ends after a bounded number of turns, at what the bounded search finds. -/
theorem Woven.turns_seek?
    (h : Woven list elements) (before : Key → Bool) :
    ∃ turns ≤ list.size + list.height,
      list.Turns before turns ⟨.head, list.height - 1⟩ (list.seek? before) := by
  obtain ⟨level, hheight⟩ := Nat.exists_eq_succ_of_ne_zero (Nat.ne_of_gt h.height_pos)
  have hlevel : level < Height.maxLevels := by
    have hle := h.height_le
    omega
  obtain ⟨turns, hturns, found, hsearch⟩ :=
    h.exists_turns before hlevel (List.nil_append elements).symm (by simp)
  obtain ⟨front, back, _, htrail, _⟩ := h.trail?_eq before
  have hdescend := htrail
  rw [trail?, hheight] at hdescend
  obtain ⟨_, hfound⟩ := turns_of_descend hdescend
  rw [Place.last_nil] at hsearch
  have hseek : found = list.seek? before := by
    rw [(hsearch.unique hfound).2, seek?, htrail, hheight, Option.bind_some]
  rw [hheight, ← h.length_eq]
  exact ⟨turns, hturns, hseek ▸ hsearch⟩

/-! ## Lists made by insertions -/

theorem heights_splice
    (list : SkipList Key) (trail : List Place) (key : Key) :
    (list.splice trail key).heights = list.heights := by
  rw [splice_eq, linkAll_invariant SkipList.heights (by rintro _ _ (_ | _) <;> rfl)]

theorem lt_towers_size_of_levels_pos
    {index : Nat} (hlevels : 0 < list.levels index) :
    index < list.towers.size := by
  by_contra houtside
  have hnone : list.towers[index]? = none := Array.getElem?_eq_none (Nat.le_of_not_lt houtside)
  simp [levels, hnone] at hlevels

theorem Woven.height_of_empty
    (h : Woven list elements) (hempty : list.size = 0) :
    list.height = 1 := by
  rcases h.height_used with hone | ⟨index, hindex⟩
  · exact hone
  · have hinside := lt_towers_size_of_levels_pos (hindex ▸ h.height_pos)
    have hsize := h.size_eq
    omega

/-- A list made by inserting keys under any comparison: its links are in one order, its towers
have the heights given to them, and its elements have some of the keys, in order of insertion. -/
structure Built
    (order : Key → Key → Ordering) (heights : Nat → Height) (inserted : List Key)
    (list : SkipList Key) (elements : List Nat) : Prop where
  woven : Woven list elements
  order_eq : list.order = order
  heights_eq : list.heights = heights
  levels_eq : ∀ index < list.size, list.levels index = (heights index).levels
  exists_added : ∃ added : List Key, added.Sublist inserted ∧
    (List.range list.size).map list.keyAt? = added.map some

variable {order : Key → Key → Ordering} {heights : Nat → Height} {inserted : List Key}

theorem built_empty
    (order : Key → Key → Ordering) (heights : Nat → Height) :
    Built order heights [] (empty order heights) [] where
  woven := woven_empty order heights
  order_eq := rfl
  heights_eq := rfl
  levels_eq := by
    intro index hindex
    exact absurd hindex (Nat.not_lt_zero index)
  exists_added := ⟨[], List.Sublist.refl [], rfl⟩

theorem Built.skip
    (h : Built order heights inserted list elements) (key : Key) :
    Built order heights (inserted ++ [key]) list elements where
  woven := h.woven
  order_eq := h.order_eq
  heights_eq := h.heights_eq
  levels_eq := h.levels_eq
  exists_added := by
    obtain ⟨added, hsublist, hkeys⟩ := h.exists_added
    exact ⟨added, hsublist.trans (List.sublist_append_left inserted [key]), hkeys⟩

theorem Built.splice
    (h : Built order heights inserted list elements) (hsplit : elements = front ++ back)
    (key : Key) :
    Built order heights (inserted ++ [key])
      (list.splice (list.splitTrail front (list.heights list.towers.size)) key)
      (front ++ list.towers.size :: back) where
  woven := h.woven.splice hsplit _ key
  order_eq := (order_splice ..).trans h.order_eq
  heights_eq := (heights_splice ..).trans h.heights_eq
  levels_eq := by
    intro index hindex
    rw [size_splice] at hindex
    rw [levels_splice, ← h.woven.size_eq]
    by_cases hnew : index = list.size
    · rw [if_pos hnew, hnew, splitTrail, List.length_map, List.length_range, h.heights_eq]
    · rw [if_neg hnew]
      exact h.levels_eq index (by omega)
  exists_added := by
    obtain ⟨added, hsublist, hkeys⟩ := h.exists_added
    refine ⟨added ++ [key], hsublist.append (List.Sublist.refl [key]), ?_⟩
    have hold : (List.range list.size).map (list.splice
        (list.splitTrail front (list.heights list.towers.size)) key).keyAt? = added.map some := by
      rw [← hkeys]
      apply List.map_congr_left
      intro index hindex
      rw [keyAt?_splice, ← h.woven.size_eq, if_neg (Nat.ne_of_lt (List.mem_range.mp hindex))]
    rw [size_splice, List.range_succ, List.map_append, hold, List.map_append, List.map_singleton,
      keyAt?_splice, if_pos h.woven.size_eq, List.map_singleton]

/-- What an insertion does under any comparison: it finds an element that is equivalent to the
key where the search ends and changes nothing, or adds one element, which has the key. -/
theorem Built.insert_cases
    (h : Built order heights inserted list elements) (key : Key) :
    (∃ index < list.size, ∃ other ∈ list.keyAt? index, order key other = .eq ∧
        list.insert key = (⟨some index⟩, list)) ∨
      ∃ next, list.insert key = (⟨some list.size⟩, next) ∧ next.size = list.size + 1 ∧
        (∀ index, next.keyAt? index = if index = list.size then some key else list.keyAt? index) ∧
        ∃ elements, Built order heights (inserted ++ [key]) next elements := by
  obtain ⟨front, back, hsplit, -, -, hinsert⟩ := h.woven.insert_eq key
  cases hequivalent : list.equivalent? key back.head? with
  | some index =>
    left
    rw [hequivalent] at hinsert
    obtain ⟨first, hfirst, hcompared⟩ := Option.bind_eq_some_iff.mp hequivalent
    obtain ⟨other, hother, hresult⟩ := Option.bind_eq_some_iff.mp hcompared
    obtain ⟨hequal, rfl⟩ : order key other = .eq ∧ first = index := by
      simpa [h.order_eq] using hresult
    have hmember : first ∈ elements := by
      rw [hsplit]
      exact List.mem_append_right _ (List.mem_of_mem_head? hfirst)
    exact ⟨first, h.woven.mem_iff_lt_size.mp hmember, other, hother, hequal, hinsert⟩
  | none =>
    right
    rw [hequivalent] at hinsert
    refine ⟨_, ?_, size_splice .., ?_, _, h.splice hsplit key⟩
    · rw [h.woven.size_eq]
      exact hinsert
    · intro index
      rw [h.woven.size_eq]
      exact keyAt?_splice list _ key index

theorem Built.insertAll
    (h : Built order heights inserted list elements) (keys : List Key) :
    ∃ elements, Built order heights (inserted ++ keys) (list.insertAll keys) elements := by
  induction keys generalizing list elements inserted with
  | nil =>
    rw [List.append_nil]
    exact ⟨elements, h⟩
  | cons key keys ih =>
    rw [List.append_cons, SkipList.insertAll, List.foldl_cons]
    rcases h.insert_cases key with
      ⟨index, -, other, -, -, hsame⟩ | ⟨next, hinsert, -, -, grown, hgrown⟩
    · rw [hsame]
      exact ih (h.skip key)
    · rw [hinsert]
      exact ih hgrown

/-- What the links and the height of a list are, given the heights of its towers: level 0 leads
through every element once, and a higher level through those whose towers are higher than it. -/
structure Chained
    (heights : Nat → Height) (list : SkipList Key) (elements : List Nat) : Prop where
  nodup : elements.Nodup
  mem_iff : ∀ index, index ∈ elements ↔ index < list.size
  length_eq : elements.length = list.size
  leads_bottom : list.Leads 0 .head elements
  leads : ∀ level < Height.maxLevels,
    list.Leads level .head (elements.filter fun index => level < (heights index).levels)
  unset : ∀ level, list.height ≤ level → level < Height.maxLevels →
    list.next? .head level = some none
  height_of_empty : list.size = 0 → list.height = 1
  le_height : ∀ index < list.size, (heights index).levels ≤ list.height
  exists_highest : 0 < list.size → ∃ index < list.size, (heights index).levels = list.height
  height_le : list.height ≤ Height.maxLevels

theorem Built.chained
    (h : Built order heights inserted list elements) :
    Chained heights list elements := by
  have hreaches : ∀ level, ∀ index ∈ elements,
      list.reaches level index = decide (level < (heights index).levels) := by
    intro level index hindex
    rw [reaches, h.levels_eq index (h.woven.mem_iff_lt_size.mp hindex)]
  have hleads : ∀ level < Height.maxLevels,
      list.Leads level .head (elements.filter fun index => level < (heights index).levels) := by
    intro level hlevel
    rw [← List.filter_congr (hreaches level)]
    exact h.woven.leads hlevel (List.nil_append elements).symm
  refine {
    nodup := h.woven.nodup, mem_iff := fun index => h.woven.mem_iff_lt_size
    length_eq := h.woven.length_eq, leads_bottom := ?_, leads := hleads, unset := ?_
    height_of_empty := h.woven.height_of_empty, le_height := ?_, exists_highest := ?_
    height_le := h.woven.height_le }
  · have hall : (elements.filter fun index => 0 < (heights index).levels) = elements := by
      apply List.filter_eq_self.mpr
      intro index _
      exact decide_eq_true (heights index).pos
    have hbottom := hleads 0 (by decide)
    rwa [hall] at hbottom
  · intro level hheight hlevel
    have hnext := h.woven.next?_last (List.nil_append elements).symm hlevel (by simp)
    have hnone : elements.find? (list.reaches level) = none := by
      apply List.find?_eq_none.mpr
      intro index _
      rw [h.woven.not_reaches_of_height_le hheight index]
      exact Bool.false_ne_true
    rwa [hnone] at hnext
  · intro index hindex
    rw [← h.levels_eq index hindex]
    exact h.woven.levels_le index
  · intro hsize
    rcases h.woven.height_used with hone | ⟨index, hindex⟩
    · -- One level is in use, so the first element reaches no other.
      refine ⟨0, hsize, ?_⟩
      have hle := h.woven.levels_le 0
      have hpos := (heights 0).pos
      rw [h.levels_eq 0 hsize] at hle
      omega
    · have hinside : index < list.size := by
        rw [h.woven.size_eq]
        exact lt_towers_size_of_levels_pos (hindex ▸ h.woven.height_pos)
      exact ⟨index, hinside, (h.levels_eq index hinside).symm.trans hindex⟩

/-- Every link that an insertion is to change is there. -/
theorem Woven.next?_fitTrail
    (h : Woven list elements) (before : Key → Bool) (height : Height) :
    ∃ trail, list.trail? before = some trail ∧
      ∀ level place, (fitTrail trail height)[level]? = some place →
        ∃ ahead, list.next? place level = some ahead := by
  obtain ⟨front, back, hsplit, htrail, -, -⟩ := h.trail?_eq before
  refine ⟨_, htrail, ?_⟩
  intro level place hplace
  rw [h.fitTrail_eq, getElem?_splitTrail] at hplace
  by_cases hlevel : level < height.levels
  · rw [if_pos hlevel, Option.some.injEq] at hplace
    rw [← hplace]
    exact ⟨_, h.next?_placeOn (Nat.lt_of_lt_of_le hlevel height.le_max) hsplit⟩
  · rw [if_neg hlevel] at hplace
    cases hplace

/-- Whatever a comparison answers and whatever the heights of the towers are, insertions keep
the structure of the towers: level 0 leads through every element once, a higher level through
those whose towers are higher than it, the links of the head above the height of the list are
unset, and that height is the one of the highest tower.  Every search ends and never reads a
link that is not there, and every insertion finds the links that it changes and either comes
to an element that compares as equal or adds one. -/
theorem insertAll_keeps_towers
    (order : Key → Key → Ordering) (heights : Nat → Height) (keys : List Key) :
    let list := (empty order heights).insertAll keys
    (∃ elements, Chained heights list elements) ∧
      (∃ added : List Key, added.Sublist keys ∧
        (List.range list.size).map list.keyAt? = added.map some) ∧
      (∀ before, ∃ turns ≤ list.size + list.height,
        list.Turns before turns ⟨.head, list.height - 1⟩ (list.seek? before)) ∧
      ∀ key,
        (∃ trail, list.trail? (list.isLess key) = some trail ∧
          ∀ level place, (fitTrail trail (heights list.size))[level]? = some place →
            ∃ ahead, list.next? place level = some ahead) ∧
        ((∃ index < list.size, ∃ other ∈ list.keyAt? index, order key other = .eq ∧
            list.insert key = (⟨some index⟩, list)) ∨
          ∃ next, list.insert key = (⟨some list.size⟩, next) ∧ next.size = list.size + 1 ∧
            ∀ index, next.keyAt? index =
              if index = list.size then some key else list.keyAt? index) := by
  intro list
  obtain ⟨elements, hbuilt⟩ : ∃ elements, Built order heights ([] ++ keys) list elements :=
    (built_empty order heights).insertAll keys
  refine ⟨⟨elements, hbuilt.chained⟩, hbuilt.exists_added, hbuilt.woven.turns_seek?, ?_⟩
  intro key
  constructor
  · exact hbuilt.woven.next?_fitTrail _ _
  · rcases hbuilt.insert_cases key with hsame | ⟨next, hinsert, hsize, hkeys, -⟩
    · exact Or.inl hsame
    · exact Or.inr ⟨next, hinsert, hsize, hkeys⟩

/-- A comparison that takes even keys for lesser than everything, themselves included, and no
two keys for equal: the towers still hold all of them, in an order that is none. -/
example :
    let order := fun a b : Nat =>
      if a % 2 = 0 then Ordering.lt else if b % 3 = 0 then .gt else .lt
    let list := (empty order (Height.draw 7)).insertAll [0, 1, 2, 3, 4, 6, 3, 3]
    list.toList = [0, 6, 3, 3, 3, 1, 2, 4] := by
  decide

end LsmStore.SkipList
