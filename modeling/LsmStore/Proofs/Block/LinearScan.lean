import Mathlib.Data.List.TakeWhile
import LsmStore.Proofs.Block.Layout
import LsmStore.Proofs.Comparator

/-!
# Searching finds what a linear scan finds

A bisection leaves a restart point with only lesser entries before it, so the walk
from there passes lesser entries only.  On a block whose keys strictly increase a
search therefore comes to the very entry that a scan of all entries would stop at.
What such a block is like is told by its own walk and restart points, so that it does
not matter who wrote it; a block that is written from increasing keys is like that.
-/

namespace LsmStore.Block

open Std

/-! ## Bisection -/

section Bisect

variable {block : Block} {target : Bytes} {left right : Nat}

/-- Where a bisection ends: no key that it has found there is greater than the target, and the
key of the next restart point is. -/
theorem bisect_eq_ok
    {hnonempty : left < right} {hbound : right ≤ block.restarts.size}
    {index : Fin block.restarts.size}
    (h : block.bisect target left right hnonempty hbound = .ok index) :
    ((index : Nat) = left ∨ ∃ key, block.fullKeyAt index block.restarts[index] = .ok key ∧
        block.order.compare key target ≠ .gt) ∧
      ((index : Nat) + 1 = right ∨ ∃ next : Fin block.restarts.size, (next : Nat) = index + 1 ∧
        ∃ key, block.fullKeyAt next block.restarts[next] = .ok key ∧
          block.order.compare key target = .gt) := by
  -- Along the halvings; each half has one end in common with the whole interval.
  fun_induction bisect block target left right hnonempty hbound with
  | case1 => cases h
  | case2 left right hnonempty hbound several middle key hkey hgreater ih =>
    obtain ⟨hlower, hupper⟩ := ih h
    refine ⟨hlower, Or.inr ?_⟩
    rcases hupper with hend | hnext
    · exact ⟨⟨middle, by omega⟩, hend.symm, key, hkey, hgreater⟩
    · exact hnext
  | case3 left right hnonempty hbound several middle key hkey hgreater ih =>
    obtain ⟨hlower, hupper⟩ := ih h
    refine ⟨Or.inr ?_, hupper⟩
    rcases hlower with hend | hfound
    · have hindex : index = ⟨middle, by omega⟩ := Fin.ext hend
      rw [hindex]
      exact ⟨key, hkey, hgreater⟩
    · exact hfound
  | case4 left right hnonempty hbound hsingle =>
    cases h
    exact ⟨Or.inl rfl, Or.inl (show left + 1 = right by omega)⟩

/-- A bisection fails only with the damage that it meets at one of the restart points. -/
theorem exists_fullKeyAt_eq_error_of_bisect
    {hnonempty : left < right} {hbound : right ≤ block.restarts.size} {cause : Corruption}
    (h : block.bisect target left right hnonempty hbound = .error cause) :
    ∃ (index : Nat) (inside : index < block.restarts.size),
      block.fullKeyAt index block.restarts[index] = .error cause := by
  fun_induction bisect block target left right hnonempty hbound with
  | case1 left right hnonempty hbound several middle other hkey =>
    cases h
    exact ⟨middle, _, hkey⟩
  | case2 left right hnonempty hbound several middle key hkey hgreater ih => exact ih h
  | case3 left right hnonempty hbound several middle key hkey hgreater ih => exact ih h
  | case4 => cases h

/-- A bisection comes to a restart point if each of them leads to a whole key. -/
theorem exists_bisect_eq_ok
    (hkeys : ∀ (index : Nat) (inside : index < block.restarts.size), ∃ key,
      block.fullKeyAt index block.restarts[index] = .ok key)
    (hnonempty : left < right) (hbound : right ≤ block.restarts.size) :
    ∃ index, block.bisect target left right hnonempty hbound = .ok index := by
  cases hbisect : block.bisect target left right hnonempty hbound with
  | ok index => exact ⟨index, rfl⟩
  | error cause =>
    obtain ⟨index, inside, herror⟩ := exists_fullKeyAt_eq_error_of_bisect hbisect
    obtain ⟨key, hkey⟩ := hkeys index inside
    rw [hkey] at herror
    cases herror

end Bisect

/-! ## Searches of a block in good order -/

/-- A block that is walked through without damage, along strictly increasing keys.  Its restart
points lie in the order of the entries, the first one at the first entry, and each leads to an
entry that stores its whole key. -/
structure WellFormed (block : Block) : Prop where
  undamaged : block.walk.result.damage? = none
  increasing : block.walk.result.visits.Pairwise fun first second =>
    block.order.compare first.key second.key = .lt
  restarts_increasing : block.restarts.toList.Pairwise (· < ·)
  restarts_head : block.walk.result.visits ≠ [] → block.restarts.toList.head? = some 0
  restarts_whole : block.walk.result.visits ≠ [] →
    ∀ (index : Nat) (inside : index < block.restarts.size),
      (∃ visit ∈ block.walk.result.visits, visit.offset = block.restarts[index]) ∧
        ∃ key, block.fullKeyAt index block.restarts[index] = .ok key

theorem Position.Follows.fullKeyAt_eq
    {block : Block} {previous key : Bytes} {position : Position} {index : Nat}
    (h : position.Follows block previous)
    (hkey : block.fullKeyAt index position.offset = .ok key) :
    position.entry.isFull = true ∧ key = position.entry.keyAfter previous := by
  obtain ⟨found, hread, hfull, rfl⟩ := fullKeyAt_eq_ok_iff.mp hkey
  obtain rfl := Except.ok.inj (h.read_eq.symm.trans hread)
  exact ⟨hfull, (Entry.Found.keyAfter_of_isFull hfull previous).symm⟩

namespace WellFormed

variable {block : Block}

theorem walk_eq_visits
    (h : block.WellFormed) :
    block.walkAt 0 [] = ⟨block.walk.result.visits, none⟩ := by
  have hundamaged := h.undamaged
  rw [walk_eq] at hundamaged ⊢
  rw [← hundamaged]

theorem size_eq_zero
    (h : block.WellFormed) (hvisits : block.walk.result.visits = []) :
    block.entries.size = 0 := by
  have hwalk := h.walk_eq_visits
  rw [hvisits] at hwalk
  rcases walkAt_undamaged_cases hwalk with ⟨-, hnothing⟩ | ⟨found, later, -, hlater, -⟩
  · have hlength := block.entries.length_dropTo 0
    rw [hnothing] at hlength
    exact hlength.symm
  · cases hlater

/-- At a restart point the visits are split: the eager walk from there makes the later ones. -/
theorem exists_split
    (h : block.WellFormed) (hvisits : block.walk.result.visits ≠ [])
    {index : Nat} (inside : index < block.restarts.size) :
    ∃ front visit back, block.walk.result.visits = front ++ visit :: back ∧
      visit.offset = block.restarts[index] ∧
      (∀ earlier ∈ front, earlier.offset < block.restarts[index]) ∧
      block.walkAt block.restarts[index] [] = ⟨visit :: back, none⟩ ∧
      block.fullKeyAt index block.restarts[index] = .ok visit.key := by
  obtain ⟨⟨visit, hvisit, hoffset⟩, key, hkey⟩ := h.restarts_whole hvisits index inside
  obtain ⟨front, back, hsplit⟩ := List.append_of_mem hvisit
  have hwalk := h.walk_eq_visits
  have hshows := startAt_shows block 0
  rw [hwalk, hsplit] at hshows
  obtain ⟨position, previous, hfollows, rfl, hrest⟩ := hshows.exists_follows
  have hposition : position.offset = block.restarts[index] := hoffset
  rw [← hposition] at hkey
  obtain ⟨hfull, rfl⟩ := hfollows.fullKeyAt_eq hkey
  have hbehind : ∀ earlier ∈ front, earlier.offset < position.offset := by
    have hoffsets := (Walk.offsets_ofRegion 0 (block.entries.dropTo 0) []).2
    rw [← walkAt, hwalk, hsplit] at hoffsets
    intro earlier hearlier
    exact (List.pairwise_append.mp hoffsets).2.2 earlier hearlier _ List.mem_cons_self
  rw [← hposition]
  refine ⟨front, position.visit previous, back, hsplit, rfl, hbehind, ?_, hkey⟩
  rw [walkAt_of_isFull hfollows.read_eq hfull, hrest]

theorem usable
    (h : block.WellFormed) (hvisits : block.walk.result.visits ≠ []) :
    0 < block.restarts.size ∧ 0 < block.entries.size := by
  have hhead := h.restarts_head hvisits
  have hsome : 0 < block.restarts.size := by
    rw [← Array.length_toList, List.length_pos_iff]
    rintro hnone
    rw [hnone] at hhead
    cases hhead
  refine ⟨hsome, Nat.pos_of_ne_zero fun hempty => hvisits ?_⟩
  rw [walk_eq, walkAt_of_size_le (Nat.le_of_eq hempty)]

theorem restart_eq_zero
    (h : block.WellFormed) (hvisits : block.walk.result.visits ≠ [])
    {index : Nat} {inside : index < block.restarts.size} (hfirst : index = 0) :
    block.restarts[index] = 0 := by
  have hhead := h.restarts_head hvisits
  have hget : block.restarts[index]? = some 0 := by
    rw [hfirst, ← Array.getElem?_toList, ← List.head?_eq_getElem?, hhead]
  exact (Array.getElem?_eq_some_iff.mp hget).2

theorem exists_bisect_eq_ok
    (h : block.WellFormed) (hvisits : block.walk.result.visits ≠ []) (target : Bytes) :
    ∃ index, block.bisect target 0 block.restarts.size (h.usable hvisits).1 (Nat.le_refl _) =
      .ok index := by
  apply Block.exists_bisect_eq_ok
  intro index inside
  exact (h.restarts_whole hvisits index inside).2

/-- The entries before the restart point that a bisection comes to are less than the target. -/
theorem less_of_bisect
    [TransCmp block.order.compare] (h : block.WellFormed) {target : Bytes}
    {front back : List Visit} {visit : Visit} {hnonempty : 0 < block.restarts.size}
    {index : Nat} {inside : index < block.restarts.size}
    (hbisect : block.bisect target 0 _ hnonempty (Nat.le_refl _) = .ok ⟨index, inside⟩)
    (hsplit : block.walk.result.visits = front ++ visit :: back)
    (hbefore : ∀ earlier ∈ front, earlier.offset < block.restarts[index])
    (hkey : block.fullKeyAt index block.restarts[index] = .ok visit.key) :
    ∀ earlier ∈ front, block.order.compare earlier.key target = .lt := by
  intro earlier hearlier
  rcases (bisect_eq_ok hbisect).1 with hfirst | ⟨key, hfull, hcompare⟩
  · have hvisits : block.walk.result.visits ≠ [] := by
      rw [hsplit]
      exact List.append_ne_nil_of_right_ne_nil front (List.cons_ne_nil visit back)
    have hearlier' := hbefore earlier hearlier
    rw [h.restart_eq_zero hvisits hfirst] at hearlier'
    exact absurd hearlier' (Nat.not_lt_zero _)
  · have hincreasing := h.increasing
    rw [hsplit] at hincreasing
    have hless := (List.pairwise_append.mp hincreasing).2.2 earlier hearlier visit
      List.mem_cons_self
    obtain rfl : visit.key = key := Except.ok.inj (hkey.symm.trans hfull)
    exact TransCmp.lt_of_lt_of_isLE hless (Ordering.isLE_iff_ne_gt.mpr hcompare)

theorem searchedWalk_of_empty
    (h : block.WellFormed) (hvisits : block.walk.result.visits = []) (target : Bytes) :
    block.searchedWalk target = ⟨[], none⟩ := by
  have hunusable : ¬ (0 < block.restarts.size ∧ 0 < block.entries.size) := by
    rw [h.size_eq_zero hvisits]
    exact fun husable => Nat.lt_irrefl 0 husable.2
  rw [searchedWalk, startIndex?_of_not_usable hunusable]

/-- The walk that a search goes along starts at the restart point to which it bisects. -/
theorem searchedWalk_of_bisect
    (h : block.WellFormed) (hvisits : block.walk.result.visits ≠ []) {target : Bytes}
    {index : Nat} {inside : index < block.restarts.size} {visit : Visit} {visits : List Visit}
    (hbisect : block.bisect target 0 _ (h.usable hvisits).1 (Nat.le_refl _) = .ok ⟨index, inside⟩)
    (hwalk : block.walkAt block.restarts[index] [] = ⟨visit :: visits, none⟩) :
    block.searchedWalk target = ⟨visit :: visits, none⟩ := by
  have hinside : ¬ block.entries.size ≤ block.restarts[index] := by
    intro hpast
    rw [walkAt_of_size_le hpast] at hwalk
    cases hwalk
  rw [searchedWalk, startIndex?_of_usable (h.usable hvisits), hbisect]
  exact (if_neg hinside).trans hwalk

/-- A search starts with the visits from its restart point on, before which there are only lesser
keys. -/
theorem exists_searchedWalk
    [TransCmp block.order.compare] (h : block.WellFormed)
    (hvisits : block.walk.result.visits ≠ []) (target : Bytes) :
    ∃ (index : Nat) (inside : index < block.restarts.size) (front rest : List Visit),
      block.bisect target 0 block.restarts.size (h.usable hvisits).1 (Nat.le_refl _) =
        .ok ⟨index, inside⟩ ∧
      block.walk.result.visits = front ++ rest ∧
      (∀ visit ∈ front, visit.offset < block.restarts[index] ∧
        block.order.compare visit.key target = .lt) ∧
      (∀ visit ∈ rest, block.restarts[index] ≤ visit.offset) ∧
      block.searchedWalk target = ⟨rest, none⟩ := by
  obtain ⟨⟨index, inside⟩, hindex⟩ := h.exists_bisect_eq_ok hvisits target
  obtain ⟨front, visit, back, hsplit, -, hbefore, hwalk, hkey⟩ := h.exists_split hvisits inside
  have hless := h.less_of_bisect hindex hsplit hbefore hkey
  have hbehind := (Walk.offsets_ofRegion block.restarts[index]
    (block.entries.dropTo block.restarts[index]) []).1
  rw [← walkAt, hwalk] at hbehind
  refine ⟨index, inside, front, visit :: back, hindex, hsplit, ?_, hbehind,
    h.searchedWalk_of_bisect hvisits hindex hwalk⟩
  intro earlier hearlier
  exact ⟨hbefore earlier hearlier, hless earlier hearlier⟩

/-- The walk at whose front a search stops is what the lesser keys leave of all visits. -/
theorem lowerBoundWalk_eq
    [TransCmp block.order.compare] (h : block.WellFormed) (target : Bytes) :
    block.lowerBoundWalk target =
      ⟨block.walk.result.visits.dropWhile fun visit =>
        block.order.compare visit.key target == .lt, none⟩ := by
  rw [lowerBoundWalk_eq_seek]
  by_cases hvisits : block.walk.result.visits = []
  · rw [h.searchedWalk_of_empty hvisits, hvisits]
    rfl
  · obtain ⟨index, inside, front, rest, -, hsplit, hfront, -, hwalk⟩ :=
      h.exists_searchedWalk hvisits target
    have hless : ∀ visit ∈ front, (block.order.compare visit.key target == .lt) = true := by
      intro visit hvisit
      rw [(hfront visit hvisit).2]
      rfl
    rw [hwalk, hsplit, List.dropWhile_append_of_pos hless, Walk.seek]

/-- What a search comes to: the cursors of both searches are where a scan of all visits stops. -/
theorem searches_show
    [TransCmp block.order.compare] (h : block.WellFormed) (target : Bytes) :
    let rest := block.walk.result.visits.dropWhile fun visit =>
      block.order.compare visit.key target == .lt
    (block.lowerBound target).result.Shows block ⟨rest, none⟩ ∧
      (block.find target).result.Shows block
        ((⟨rest, none⟩ : Walk).keepEquivalent block.order target) := by
  have hlower := lowerBound_shows block target
  have hfind := find_shows block target
  rw [h.lowerBoundWalk_eq] at hlower hfind
  exact ⟨hlower, hfind⟩

end WellFormed

/-! ## Searches of a written block -/

namespace Layout

variable {layout : Layout} {order : Comparator}

theorem Sorted.visits_increasing
    (h : layout.Sorted order) :
    layout.visits.Pairwise fun first second => order.compare first.key second.key = .lt := by
  have hpairs := layout.stores.map_visitsFrom 0
  have hincreasing := h.increasing
  rw [← hpairs, List.pairwise_map] at hincreasing
  exact hincreasing

theorem wholeAt_restart
    (layout : Layout) (order : Comparator) (index : Fin (layout.block order).restarts.size) :
    WholeAt layout.entries (layout.block order).restarts[index] := by
  refine layout.restarts_whole _ ?_
  have hmember : (layout.block order).restarts[index] ∈ (layout.block order).restarts :=
    Array.getElem_mem _
  exact List.mem_toArray.mp hmember

theorem visits_eq_nil
    (hentries : layout.entries = []) :
    layout.visits = [] := by
  rw [visits, hentries]
  cases layout.pairs <;> rfl

/-- A block that is written from increasing keys is in good order. -/
theorem Sorted.wellFormed
    (h : layout.Sorted order) :
    (layout.block order).WellFormed := by
  have hwalk := layout.walk_block order
  constructor
  · rw [hwalk]
  · rw [hwalk]
    exact h.visits_increasing
  · exact h.restarts_increasing
  · intro hvisits
    rw [hwalk] at hvisits
    exact h.restarts_head fun hnone => hvisits (visits_eq_nil hnone)
  · intro _ index inside
    obtain ⟨front, visit, back, hvisits, hoffset, -, -, hkey⟩ :=
      layout.exists_split order (layout.wholeAt_restart order ⟨index, inside⟩)
    rw [hwalk]
    exact ⟨⟨visit, by simp [hvisits], hoffset⟩, visit.key, hkey index⟩

theorem Sorted.searches_show
    [TransCmp order.compare] (h : layout.Sorted order) (target : Bytes) :
    let rest := layout.visits.dropWhile fun visit => order.compare visit.key target == .lt
    ((layout.block order).lowerBound target).result.Shows (layout.block order) ⟨rest, none⟩ ∧
      ((layout.block order).find target).result.Shows (layout.block order)
        ((⟨rest, none⟩ : Walk).keepEquivalent order target) := by
  have horder : TransCmp (layout.block order).order.compare := ‹TransCmp order.compare›
  have hshow := h.wellFormed.searches_show target
  rw [layout.walk_block order] at hshow
  exact hshow

end Layout

/-- A cursor that is at a visit, or at the undamaged end if there is none. -/
def Cursor.StandsAt (block : Block) (cursor : Cursor) : Option Visit → Prop
  | some visit =>
    block.look cursor = ⟨true, visit.offset, none⟩ ∧
      (∃ keyed, block.key cursor = .ok keyed ∧ keyed.result.1 = visit.key) ∧
      Block.value cursor = .ok visit.value
  | none => block.look cursor = ⟨false, block.entries.size, none⟩

theorem Cursor.Shows.standsAt_of_cons
    {block : Block} {cursor : Cursor} {visit : Visit} {visits : List Visit}
    {damage : Option Corruption} (h : cursor.Shows block ⟨visit :: visits, damage⟩) :
    cursor.StandsAt block (some visit) := by
  obtain ⟨position, previous, hcursor, hfollows, rfl, -⟩ := h.exists_on
  rw [hcursor]
  exact ⟨rfl, ⟨_, rfl, hfollows.keyAt_eq⟩, rfl⟩

theorem Cursor.Shows.standsAt
    {block : Block} {cursor : Cursor} {visits : List Visit}
    (h : cursor.Shows block ⟨visits, none⟩) :
    cursor.StandsAt block visits.head? := by
  cases visits with
  | nil =>
    rw [h.eq_ended]
    rfl
  | cons visit visits => exact h.standsAt_of_cons

/-- A written block is opened, and each of its searches stops where a scan of the pairs from
the first on would stop, whatever the entries share and wherever restart points are. -/
theorem Layout.Sorted.searches_eq_linear_scan
    {layout : Layout} {order : Comparator} [TransCmp order.compare] (h : layout.Sorted order) :
    ∃ block, ofContents order layout.bytes = .ok block ∧ ∀ target,
      let found? := layout.visits.find? fun visit => order.compare visit.key target != .lt
      (block.lowerBound target).result.StandsAt block found? ∧
        (block.find target).result.StandsAt block
          (found?.filter fun visit => order.compare visit.key target == .eq) := by
  refine ⟨layout.block order, layout.ofContents_eq order, fun target => ?_⟩
  obtain ⟨hlower, hfind⟩ := h.searches_show target
  have hfound : (layout.visits.dropWhile fun visit =>
      order.compare visit.key target == .lt).head? =
        layout.visits.find? fun visit => order.compare visit.key target != .lt :=
    (List.find?_not_eq_head?_dropWhile ..).symm
  generalize (layout.visits.dropWhile fun visit =>
    order.compare visit.key target == .lt) = rest at hlower hfind hfound
  rw [← hfound]
  constructor
  · exact hlower.standsAt
  · cases rest with
    | nil => exact hfind.standsAt
    | cons visit rest =>
      simp only [Walk.keepEquivalent] at hfind
      by_cases hequal : order.compare visit.key target = .eq
      · rw [if_pos hequal] at hfind
        rw [List.head?_cons, Option.filter_some_pos (by simp [hequal])]
        exact hfind.standsAt
      · rw [if_neg hequal] at hfind
        rw [List.head?_cons, Option.filter_some_neg (by simp [hequal])]
        exact hfind.standsAt

/-- The keys `ab`, `Ac`, `ACd` and `b`, of which the second shares nothing and is no restart
point. -/
def mixedCase : Layout where
  pairs := [([97, 98], [49]), ([65, 99], [50]), ([65, 67, 100], []), ([98], [51])]
  entries := [⟨0, [97, 98], [49]⟩, ⟨0, [65, 99], [50]⟩, ⟨1, [67, 100], []⟩, ⟨0, [98], [51]⟩]
  restarts := [0, 17]
  stores := .cons (by decide) (.cons (by decide) (.cons (by decide) (.cons (by decide) (.nil _))))
  restarts_whole := by
    intro offset hoffset
    rcases List.mem_cons.mp hoffset with rfl | htail
    · exact ⟨[], _, _, rfl, rfl, rfl⟩
    · rw [List.mem_singleton.mp htail]
      exact ⟨[⟨0, [97, 98], [49]⟩, ⟨0, [65, 99], [50]⟩, ⟨1, [67, 100], []⟩], ⟨0, [98], [51]⟩,
        [], rfl, rfl, by cbv⟩
  fits := by cbv

theorem Layout.Sorted.searches_mixedCase :
    mixedCase.Sorted ⟨"caseless", Bytes.compareCaseless⟩ ∧
      ∃ block, ofContents ⟨"caseless", Bytes.compareCaseless⟩ mixedCase.bytes = .ok block ∧
        (block.find [97, 67]).result.StandsAt block (some ⟨6, [65, 99], [50]⟩) ∧
        (block.lowerBound [97, 100]).result.StandsAt block (some ⟨17, [98], [51]⟩) ∧
        (block.find [97, 100]).result.StandsAt block none := by
  have hsorted : mixedCase.Sorted ⟨"caseless", Bytes.compareCaseless⟩ :=
    ⟨by decide, by decide, fun _ => rfl⟩
  have hvisits : mixedCase.visits =
      [⟨0, [97, 98], [49]⟩, ⟨6, [65, 99], [50]⟩, ⟨12, [65, 67, 100], []⟩, ⟨17, [98], [51]⟩] := by
    cbv
  obtain ⟨block, hblock, hsearches⟩ := Layout.Sorted.searches_eq_linear_scan hsorted
  rw [hvisits] at hsearches
  exact ⟨hsorted, block, hblock, (hsearches [97, 67]).2, (hsearches [97, 100]).1,
    (hsearches [97, 100]).2⟩

end LsmStore.Block
