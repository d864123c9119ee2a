import LsmStore.Proofs.Block.LinearScan

/-!
# How many headers a walk reads

A cursor steps onto an entry by reading its header, and it reads headers again only to
rebuild a key of which it knows nothing.  A walk asks for every key on its way, so each
key is known when the next one is asked for, and no header is read twice.  So the
number of headers is the number of entries.  Where a search starts is told by the keys
at the restart points, and from there on it passes the lesser keys.
-/

namespace LsmStore.Block

open Std

variable {block : Block} {position : Position} {previous : Bytes}

/-! ## Keys without a replay -/

theorem Position.Ready.headers_keyAt
    (h : position.Ready) :
    (block.keyAt position).headers = 0 := by
  obtain ⟨key, hkey, -⟩ := h.exists_keyAt_eq block
  rw [hkey]
  rfl

theorem Position.ready_remember
    (position : Position) (key : Bytes) :
    (position.remember key).Ready :=
  Or.inl (position.knownKey?_remember_ne_none key)

namespace Position.Follows

theorem headers_walkOn
    (h : position.Follows block previous) (hready : position.Ready) :
    (block.walkOn position).headers + 1 =
      (block.walkAt position.offset previous).visits.length := by
  -- Along the entries that are still to be read.
  induction hrest : position.rest.length using Nat.strongRecOn generalizing position previous with
  | ind length ih =>
    rw [LsmStore.Block.walkOn_eq, h.walkAt_eq, Counted.headers_bind, hready.headers_keyAt,
      Nat.zero_add, h.keyAt_eq]
    rcases h.advance_remember_cases with
      ⟨next, hnext, hshorter, hknown, hoffset, hfollows⟩ | ⟨damage, hended, hnone⟩
    · have htail := ih next.rest.length (hrest ▸ hshorter) hfollows (Or.inr hknown) rfl
      rw [hoffset] at htail
      rw [hnext]
      simp only [Counted.headers_bind, Counted.headers_tick, Counted.headers_pure, Walk.after,
        List.length_append, List.length_singleton]
      omega
    · rw [hended, hnone]
      rfl

end Position.Follows

/-! ## Walks from the front -/

/-- A walk through the whole block reads each header once. -/
theorem headers_walk
    (block : Block) :
    block.walk.headers = (block.walkAt 0 []).visits.length := by
  rw [walk, first, Counted.headers_bind]
  rcases startAt_cases block 0 with ⟨position, hstart, hoffset, hfollows⟩ | ⟨damage, hstart, hnone⟩
  · rw [hstart, ← hoffset, ← hfollows.headers_walkOn hfollows.ready_of_nil]
    exact Nat.add_comm 1 _
  · rw [hstart, hnone]
    rfl

/-! ## Blocks in good order -/

/-- The restart point at which a search starts: the last one whose key is not greater than the
target, or the first one. -/
structure SearchStart (block : Block) (target : Bytes) (start : Nat) : Prop where
  mem : start ∈ block.restarts
  last : ∀ visit ∈ block.walk.result.visits, visit.offset ∈ block.restarts →
    block.order.compare visit.key target ≠ .gt → visit.offset ≤ start
  first_or_not_greater : start = 0 ∨ ∃ visit ∈ block.walk.result.visits,
    visit.offset = start ∧ block.order.compare visit.key target ≠ .gt

theorem length_eq_of_dropWhile
    {p : Visit → Bool} {visits : List Visit} (hrest : ∀ visit ∈ visits.dropWhile p, ¬ p visit) :
    visits.length = (visits.dropWhile p).length + visits.countP p := by
  have htaken : (visits.takeWhile p).countP p = (visits.takeWhile p).length :=
    List.countP_eq_length.mpr fun visit hvisit => List.mem_takeWhile_imp hvisit
  have hleft : (visits.dropWhile p).countP p = 0 := List.countP_eq_zero.mpr hrest
  calc
    visits.length = (visits.takeWhile p ++ visits.dropWhile p).length := by
      rw [List.takeWhile_append_dropWhile]
    _ = (visits.dropWhile p).length + (visits.takeWhile p ++ visits.dropWhile p).countP p := by
      rw [List.length_append, List.countP_append, htaken, hleft, Nat.add_zero, Nat.add_comm]
    _ = (visits.dropWhile p).length + visits.countP p := by
      rw [List.takeWhile_append_dropWhile]

namespace WellFormed

/-- The keys of entries from a restart point on are greater than a target if its own key is. -/
theorem greater_of_restart
    [TransCmp block.order.compare] (h : block.WellFormed) {target key : Bytes}
    {index : Nat} {inside : index < block.restarts.size}
    (hkey : block.fullKeyAt index block.restarts[index] = .ok key)
    (hgreater : block.order.compare key target = .gt) :
    ∀ visit ∈ block.walk.result.visits, block.restarts[index] ≤ visit.offset →
      block.order.compare visit.key target = .gt := by
  intro visit hvisit hbehind
  obtain ⟨front, reached, back, hsplit, -, hbefore, -, hfull⟩ :=
    h.exists_split (List.ne_nil_of_mem hvisit) inside
  obtain rfl : reached.key = key := Except.ok.inj (hfull.symm.trans hkey)
  have hincreasing := h.increasing
  rw [hsplit] at hvisit hincreasing
  rcases List.mem_append.mp hvisit with hfront | hrest
  · exact absurd hbehind (Nat.not_le.mpr (hbefore visit hfront))
  · rcases List.mem_cons.mp hrest with rfl | hback
    · exact hgreater
    · have hless := (List.pairwise_cons.mp (List.pairwise_append.mp hincreasing).2.1).1 visit hback
      exact TransCmp.gt_trans (OrientedCmp.gt_of_lt hless) hgreater

theorem restart_le
    (h : block.WellFormed) {first second : Nat} {hfirst : first < block.restarts.size}
    {hsecond : second < block.restarts.size} (hle : first ≤ second) :
    block.restarts[first] ≤ block.restarts[second] := by
  have hincreasing := List.pairwise_iff_getElem.mp h.restarts_increasing
  rcases Nat.lt_or_eq_of_le hle with hless | rfl
  · exact Nat.le_of_lt (hincreasing first second hfirst hsecond hless)
  · exact Nat.le_refl _

theorem searchStart_of_bisect
    [TransCmp block.order.compare] (h : block.WellFormed)
    (hvisits : block.walk.result.visits ≠ []) {target : Bytes} {hnonempty : 0 < block.restarts.size}
    {index : Nat} {inside : index < block.restarts.size}
    (hbisect : block.bisect target 0 _ hnonempty (Nat.le_refl _) = .ok ⟨index, inside⟩) :
    block.SearchStart target block.restarts[index] := by
  obtain ⟨hlower, hupper⟩ := bisect_eq_ok hbisect
  dsimp only at hlower hupper
  constructor
  · exact Array.getElem_mem inside
  · intro visit hvisit hrestart hnotGreater
    obtain ⟨other, hother, hsame⟩ := Array.getElem_of_mem hrestart
    by_cases hbefore : other ≤ index
    · rw [← hsame]
      exact h.restart_le hbefore
    · -- Behind the point that was found lies one whose key is greater, and greater keys follow.
      rcases hupper with hend | ⟨next, hnext, key, hkey, hgreater⟩
      · omega
      · have hreached : block.restarts[(next : Nat)] ≤ visit.offset := by
          rw [← hsame]
          exact h.restart_le (show (next : Nat) ≤ other by omega)
        exact absurd (h.greater_of_restart hkey hgreater visit hvisit hreached) hnotGreater
  · rcases hlower with hfirst | ⟨key, hkey, hnotGreater⟩
    · exact Or.inl (h.restart_eq_zero hvisits hfirst)
    · obtain ⟨front, visit, back, hsplit, hoffset, -, -, hfull⟩ := h.exists_split hvisits inside
      obtain rfl : visit.key = key := Except.ok.inj (hfull.symm.trans hkey)
      exact Or.inr ⟨visit, by simp [hsplit], hoffset, hnotGreater⟩

/-- The keys from the first one on that is not less than a target are not less than it. -/
theorem not_less_of_mem_dropWhile
    [TransCmp block.order.compare] (h : block.WellFormed) (target : Bytes) :
    ∀ visit ∈ block.walk.result.visits.dropWhile fun visit =>
        block.order.compare visit.key target == .lt,
      block.order.compare visit.key target ≠ .lt := by
  intro visit hvisit hless
  have hincreasing := h.increasing.sublist (List.dropWhile_sublist fun visit =>
    block.order.compare visit.key target == .lt)
  cases hrest : block.walk.result.visits.dropWhile fun visit =>
      block.order.compare visit.key target == .lt with
  | nil =>
    rw [hrest] at hvisit
    cases hvisit
  | cons first rest =>
    have hfirst : block.order.compare first.key target ≠ .lt := by
      have hhead := List.head?_dropWhile_not (fun visit : Visit =>
        block.order.compare visit.key target == .lt) block.walk.result.visits
      rw [hrest] at hhead
      simpa using hhead
    rw [hrest] at hvisit hincreasing
    rcases List.mem_cons.mp hvisit with rfl | hvisit
    · exact hfirst hless
    · have hbehind := (List.pairwise_cons.mp hincreasing).1 visit hvisit
      exact hfirst (TransCmp.lt_trans hbehind hless)

/-- A search and the walk behind it make the visits that the search leaves, and pass those of the
lesser keys from the restart point on. -/
theorem length_searchedWalk
    [TransCmp block.order.compare] (h : block.WellFormed) (target : Bytes) :
    ∃ start, (block.walk.result.visits ≠ [] → block.SearchStart target start) ∧
      (block.searchedWalk target).visits.length =
        (block.walk.result.visits.dropWhile fun visit =>
          block.order.compare visit.key target == .lt).length +
        block.walk.result.visits.countP fun visit =>
          start ≤ visit.offset && block.order.compare visit.key target == .lt := by
  by_cases hvisits : block.walk.result.visits = []
  · refine ⟨0, fun hsome => absurd hvisits hsome, ?_⟩
    rw [h.searchedWalk_of_empty hvisits, hvisits]
    rfl
  · obtain ⟨index, inside, front, rest, hindex, hsplit, hfront, hbehind, hwalk⟩ :=
      h.exists_searchedWalk hvisits target
    generalize hstart : block.restarts[index] = start at hfront hbehind
    refine ⟨start, fun _ => hstart ▸ h.searchStart_of_bisect hvisits hindex, ?_⟩
    have hpassed : front.countP (fun visit =>
        start ≤ visit.offset && block.order.compare visit.key target == .lt) = 0 := by
      apply List.countP_eq_zero.mpr
      intro visit hvisit
      simp [Nat.not_le.mpr (hfront visit hvisit).1]
    have hreached : rest.countP (fun visit =>
        start ≤ visit.offset && block.order.compare visit.key target == .lt) =
        rest.countP fun visit => block.order.compare visit.key target == .lt := by
      apply List.countP_congr
      intro visit hvisit
      simp [hbehind visit hvisit]
    have hleft := h.not_less_of_mem_dropWhile target
    rw [hsplit, List.dropWhile_append_of_pos fun visit hvisit => by
      simp [(hfront visit hvisit).2]] at hleft ⊢
    rw [hwalk, List.countP_append, hpassed, Nat.zero_add, hreached]
    exact length_eq_of_dropWhile (by simpa using hleft)

end WellFormed

end LsmStore.Block
