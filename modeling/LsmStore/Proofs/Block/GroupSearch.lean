import LsmStore.Proofs.Block.HeaderCount

/-!
# A search reads one group of entries

The restart points of a block cut its entries into groups.  A search starts at the
first entry of a group and passes entries: it asks for the key at its cursor, and
moves on if that key is less than the target.  A cursor that moves on carries the key
along, so none of the keys is replayed, and the search steps once onto each entry up
to the one where it stops; a walk behind it goes on in the same way.  The next restart
point has a greater key, so the search stops there at the latest.
-/

namespace LsmStore.Block

open Std

variable {block : Block} {cursor : Cursor} {position : Position} {walk : Walk} {previous : Bytes}

/-! ## Passing entries -/

/-- Passes an entry: asks for its key and moves on. -/
def pass (block : Block) (cursor : Cursor) : Counted Cursor := do
  (← block.settle cursor).advance

/-- Passes a number of entries. -/
def passes (block : Block) : Nat → Cursor → Counted Cursor
  | 0, cursor => return cursor
  | count + 1, cursor => do block.passes count (← block.pass cursor)

/-- Whether the key at a cursor, if it is on an entry, can be given without a replay. -/
def Cursor.Ready : Cursor → Prop
  | .ended _ => True
  | .on position => position.Ready

/-- The number of visits before the first key that is not less than a target. -/
def Walk.passed (order : Comparator) (target : Bytes) (walk : Walk) : Nat :=
  walk.visits.findIdx fun visit => order.compare visit.key target != .lt

theorem Walk.passed_after
    (order : Comparator) (target : Bytes) (visit : Visit) (walk : Walk) :
    (walk.after [visit]).passed order target =
      if order.compare visit.key target = .lt then walk.passed order target + 1 else 0 := by
  simp only [passed, after, List.singleton_append, List.findIdx_cons]
  cases order.compare visit.key target <;> rfl

theorem Walk.passed_after_of_less
    {order : Comparator} {target : Bytes} {front : List Visit}
    (hless : ∀ visit ∈ front, order.compare visit.key target = .lt) (walk : Walk) :
    (walk.after front).passed order target = front.length + walk.passed order target := by
  have hnone : front.findIdx (fun visit => order.compare visit.key target != .lt) = front.length :=
    List.findIdx_eq_length_of_false fun visit hvisit => by simp [hless visit hvisit]
  simp only [passed, after, List.findIdx_append, hnone, Nat.lt_irrefl, if_false]
  exact Nat.add_comm _ _

theorem Walk.passed_le
    (order : Comparator) (target : Bytes) (walk : Walk) :
    walk.passed order target ≤ walk.visits.length :=
  List.findIdx_le_length

theorem Cursor.Shows.isOn_iff
    (h : cursor.Shows block walk) :
    cursor.isOn = true ↔ 0 < walk.visits.length := by
  cases cursor with
  | ended damage => simp [isOn, show walk = ⟨[], damage⟩ from h]
  | on position =>
    obtain ⟨previous, hfollows, rfl⟩ := h
    simp [isOn, hfollows.walkAt_eq, Walk.after]

theorem Cursor.headers_counted
    (cursor : Cursor) :
    cursor.counted.headers = if cursor.isOn then 1 else 0 := by
  cases cursor <;> rfl

theorem Cursor.Shows.headers_advance
    (h : cursor.Shows block walk) :
    cursor.advance.headers = if 1 < walk.visits.length then 1 else 0 := by
  have hmoved := h.advance.isOn_iff
  rw [Walk.dropped, List.length_drop, Nat.sub_pos_iff_lt] at hmoved
  cases cursor with
  | ended damage =>
    rw [show walk = ⟨[], damage⟩ from h]
    rfl
  | on position =>
    rw [Cursor.advance, result_counted] at hmoved
    rw [Cursor.advance, headers_counted]
    exact if_congr hmoved rfl rfl

theorem settle_ready
    (block : Block) (cursor : Cursor) :
    (block.settle cursor).result.Ready := by
  cases cursor with
  | ended damage => trivial
  | on position => exact position.ready_remember _

theorem Cursor.Ready.headers_settle
    (h : cursor.Ready) :
    (block.settle cursor).headers = 0 := by
  cases cursor with
  | ended damage => rfl
  | on position => exact Position.Ready.headers_keyAt h

/-- No key has to be replayed where a cursor is ready. -/
theorem Cursor.Ready.headers_key
    (h : cursor.Ready) {keyed : Counted (Bytes × Cursor)} (hkey : block.key cursor = .ok keyed) :
    keyed.headers = 0 := by
  cases cursor with
  | ended damage => cases hkey
  | on position =>
    cases hkey
    exact Position.Ready.headers_keyAt h

theorem pass_shows
    (h : cursor.Shows block walk) :
    (block.pass cursor).result.Shows block (walk.dropped 1) :=
  (settle_shows h).advance

/-- A cursor that has passed an entry carries its key along. -/
theorem pass_ready
    (block : Block) (cursor : Cursor) :
    (block.pass cursor).result.Ready := by
  cases cursor with
  | ended damage => trivial
  | on position =>
    simp only [pass, settle, Counted.result_bind, Counted.result_pure, Cursor.advance,
      Cursor.result_counted]
    cases hmoved : (position.remember (block.keyAt position).result).advance with
    | ended damage => trivial
    | on next =>
      right
      rw [Position.previous?_of_advance hmoved]
      exact position.knownKey?_remember_ne_none _

theorem headers_pass
    (h : cursor.Shows block walk) (hready : cursor.Ready) :
    (block.pass cursor).headers = if 1 < walk.visits.length then 1 else 0 := by
  rw [pass, Counted.headers_bind, hready.headers_settle, Nat.zero_add,
    (settle_shows h).headers_advance]

/-- Passing entries drops their visits, and steps once onto each entry behind the first one. -/
theorem passes_spec
    (h : cursor.Shows block walk) (hready : cursor.Ready) (count : Nat) :
    (block.passes count cursor).result.Shows block (walk.dropped count) ∧
      (block.passes count cursor).result.Ready ∧
      (block.passes count cursor).headers = min count (walk.visits.length - 1) := by
  induction count generalizing cursor walk with
  | zero => exact ⟨h, hready, (Nat.zero_min _).symm⟩
  | succ count ih =>
    obtain ⟨hshows, hlater, hheaders⟩ := ih (pass_shows h) (block.pass_ready cursor)
    rw [Walk.dropped_dropped, Nat.add_comm] at hshows
    refine ⟨hshows, hlater, ?_⟩
    rw [passes, Counted.headers_bind, hheaders, headers_pass h hready, Walk.dropped,
      List.length_drop]
    split <;> omega

theorem Counted.bind_congr
    {First Second : Type} {computed : Counted First} {first second : First → Counted Second}
    (h : first computed.result = second computed.result) :
    computed >>= first = computed >>= second := by
  simp only [bind, h]

/-- A search from an entry on passes the entries of lesser keys and asks for the key where it
stops. -/
theorem Position.Follows.scan_eq_passes
    (h : position.Follows block previous) (target : Bytes) :
    block.scan target position =
      block.passes ((block.walkAt position.offset previous).passed block.order target)
        (.on position) >>= block.settle := by
  -- Along the entries that are still to be read.
  induction hrest : position.rest.length using Nat.strongRecOn generalizing position previous with
  | ind length ih =>
    rw [scan_eq, h.walkAt_eq, Walk.passed_after, Position.visit]
    by_cases hless : block.order.compare (position.entry.keyAfter previous) target = .lt
    · rw [if_pos hless, passes, pass, settle, bind_assoc, bind_assoc, bind_assoc]
      refine Counted.bind_congr ?_
      rw [h.keyAt_eq, if_pos hless, pure_bind, Cursor.advance]
      rcases h.advance_remember_cases with
        ⟨next, hnext, hshorter, -, hoffset, hfollows⟩ | ⟨damage, hended, hnone⟩
      · have hlater := ih next.rest.length (hrest ▸ hshorter) hfollows rfl
        rw [hoffset] at hlater
        rw [hnext]
        simp only [hlater]
        rfl
      · rw [hended, hnone]
        rfl
    · rw [if_neg hless, passes, pure_bind, settle]
      refine Counted.bind_congr ?_
      rw [h.keyAt_eq, if_neg hless]

/-! ## One group -/

/-- What a search does: it ends at once like a walk without visits, or it passes the entries of
lesser keys from one on that stores its whole key, and asks for the key where it stops. -/
theorem lowerBound_cases
    (block : Block) (target : Bytes) :
    (∃ damage, block.lowerBound target = pure (.ended damage) ∧
        block.searchedWalk target = ⟨[], damage⟩) ∨
      ∃ start, block.searchedWalk target = block.walkAt start [] ∧
        block.lowerBound target = block.startAt start >>=
          block.passes ((block.searchedWalk target).passed block.order target) >>=
            block.settle := by
  rw [lowerBound, searchedWalk]
  cases block.startIndex? target with
  | none => exact Or.inl ⟨none, rfl, rfl⟩
  | some started =>
    cases started with
    | error cause => exact Or.inl ⟨some cause, rfl, rfl⟩
    | ok index =>
      simp only [scanFrom, Fin.getElem_fin]
      by_cases hpast : block.entries.size ≤ block.restarts[(index : Nat)]
      · rw [if_pos hpast, if_pos hpast]
        exact Or.inl ⟨_, rfl, rfl⟩
      · rw [if_neg hpast, if_neg hpast]
        refine Or.inr ⟨_, rfl, ?_⟩
        rw [bind_assoc]
        refine Counted.bind_congr ?_
        rcases startAt_cases block block.restarts[(index : Nat)] with
          ⟨position, hstart, hoffset, hfollows⟩ | ⟨damage, hstart, hnone⟩
        · rw [hstart, ← hoffset]
          exact hfollows.scan_eq_passes target
        · rw [hstart, hnone]
          rfl

theorem startAt_passes_spec
    (block : Block) (start count : Nat) :
    let passed := block.startAt start >>= block.passes count
    passed.result.Shows block ((block.walkAt start []).dropped count) ∧ passed.result.Ready ∧
      passed.headers = min (count + 1) (block.walkAt start []).visits.length := by
  rcases startAt_cases block start with
    ⟨position, hstart, hoffset, hfollows⟩ | ⟨damage, hstart, hnone⟩
  · have hshows : (Cursor.on position).Shows block (block.walkAt start []) :=
      ⟨[], hfollows, by rw [hoffset]⟩
    have hsome := hshows.isOn_iff.mp rfl
    obtain ⟨hpassed, hready, hheaders⟩ := passes_spec hshows hfollows.ready_of_nil count
    simp only [hstart, Counted.result_bind, Counted.headers_bind]
    refine ⟨hpassed, hready, ?_⟩
    rw [hheaders]
    omega
  · have hshows : (Cursor.ended damage).Shows block (block.walkAt start []) := hnone
    obtain ⟨hpassed, hready, hheaders⟩ := passes_spec hshows trivial count
    simp only [hstart, Counted.result_bind, Counted.headers_bind]
    refine ⟨hpassed, hready, ?_⟩
    rw [hheaders, hnone]
    simp

/-- A walk on from a cursor that is ready reads the header of each entry behind the first one. -/
theorem Cursor.Ready.headers_walkFrom
    (hready : cursor.Ready) (h : cursor.Shows block walk) :
    (block.walkFrom cursor).headers = walk.visits.length - 1 := by
  cases cursor with
  | ended damage =>
    rw [show walk = ⟨[], damage⟩ from h]
    rfl
  | on position =>
    obtain ⟨previous, hfollows, rfl⟩ := h
    rw [← hfollows.headers_walkOn hready]
    rfl

/-- A search and the walk behind it read each header once from the restart point on at which the
search starts. -/
theorem headers_lowerBound
    (block : Block) (target : Bytes) :
    (block.lowerBound target >>= block.walkFrom).headers =
      (block.searchedWalk target).visits.length := by
  rcases block.lowerBound_cases target with ⟨damage, hended, hnone⟩ | ⟨start, hwalk, hpasses⟩
  · rw [hended, hnone]
    rfl
  · have hpassed := (block.searchedWalk target).passed_le block.order target
    generalize (block.searchedWalk target).passed block.order target = count at hpasses hpassed
    obtain ⟨hshows, hready, hheaders⟩ := block.startAt_passes_spec start count
    have hrest := (block.settle_ready _).headers_walkFrom (settle_shows hshows)
    rw [hpasses, Counted.headers_bind, Counted.headers_bind, hready.headers_settle, hheaders,
      Counted.result_bind, hrest, hwalk, Walk.dropped, List.length_drop]
    rw [hwalk] at hpassed
    omega

namespace SearchStart

theorem unique
    {target : Bytes} {first second : Nat} (hfirst : block.SearchStart target first)
    (hsecond : block.SearchStart target second) :
    first = second := by
  have hle : ∀ {lower upper : Nat}, block.SearchStart target lower →
      block.SearchStart target upper → lower ≤ upper := by
    intro lower upper hlower hupper
    rcases hlower.first_or_not_greater with rfl | ⟨visit, hvisit, rfl, hnotGreater⟩
    · exact Nat.zero_le upper
    · exact hupper.last visit hvisit hlower.mem hnotGreater
  exact Nat.le_antisymm (hle hfirst hsecond) (hle hsecond hfirst)

/-- No entry between the one at which a search starts and the one where it stops is at a restart
point. -/
theorem not_mem_restarts_of_between
    {target : Bytes} {first index : Nat} {start visit : Visit}
    (h : block.SearchStart target start.offset)
    (hfirst : block.walk.result.visits[first]? = some start)
    (hvisit : block.walk.result.visits[index]? = some visit)
    (hbehind : first < index) (hbefore : index < block.walk.result.passed block.order target) :
    visit.offset ∉ block.restarts := by
  intro hrestart
  obtain ⟨hinside, hget⟩ := List.getElem?_eq_some_iff.mp hvisit
  obtain ⟨hinsideFirst, hgetFirst⟩ := List.getElem?_eq_some_iff.mp hfirst
  have hless : block.order.compare visit.key target = .lt := by
    have hpassed := List.not_of_lt_findIdx hbefore
    rw [hget] at hpassed
    simpa using hpassed
  have hle := h.last visit (List.mem_of_getElem? hvisit) hrestart (by simp [hless])
  have hoffsets := List.pairwise_iff_getElem.mp
    (Walk.offsets_ofRegion 0 (block.entries.dropTo 0) []).2
  rw [← walkAt, ← walk_eq] at hoffsets
  have hlater := hoffsets first index hinsideFirst hinside hbehind
  rw [hget, hgetFirst] at hlater
  exact Nat.not_le.mpr hlater hle

end SearchStart

/-- Where a cursor stands that has passed entries from a split of the visits on. -/
theorem Cursor.Shows.standsAt_of_split
    {visits front rest : List Visit} {passed : Nat} (hsplit : visits = front ++ rest)
    (h : cursor.Shows block ((⟨rest, none⟩ : Walk).dropped passed)) :
    cursor.StandsAt block visits[front.length + passed]? := by
  have hhead : (rest.drop passed).head? = visits[front.length + passed]? := by
    simp [hsplit, List.head?_drop, List.getElem?_append_right]
  rw [← hhead]
  exact h.standsAt

/-- What a search does that steps onto the entries from the one with index `first` to the one with
index `answer`, where it stops, and onto no others. -/
structure SearchSteps (block : Block) (target : Bytes) (start first answer : Nat) : Prop where
  /-- The search passes the entries before the last one, and asks for the key there. -/
  passes_eq : block.lowerBound target =
    block.startAt start >>= block.passes (answer - first) >>= block.settle
  /-- After each pass the cursor is at the next entry, and has stepped onto nothing else. -/
  standsAt : ∀ count ≤ answer - first,
    (block.startAt start >>= block.passes count).result.StandsAt block
        block.walk.result.visits[first + count]? ∧
      (block.startAt start >>= block.passes count).headers =
        min (count + 1) (block.walk.result.visits.length - first)

namespace WellFormed

/-- The restart point at which a search starts splits the visits into lesser ones and those that the
search goes along. -/
theorem exists_searchStart
    [TransCmp block.order.compare] (h : block.WellFormed)
    (hvisits : block.walk.result.visits ≠ []) (target : Bytes) :
    ∃ (front : List Visit) (start : Visit) (back : List Visit),
      block.walk.result.visits = front ++ start :: back ∧
      block.SearchStart target start.offset ∧
      (∀ visit ∈ front, block.order.compare visit.key target = .lt) ∧
      block.walkAt start.offset [] = ⟨start :: back, none⟩ ∧
      block.lowerBound target = block.startAt start.offset >>=
        block.passes ((⟨start :: back, none⟩ : Walk).passed block.order target) >>=
          block.settle := by
  obtain ⟨⟨index, inside⟩, hindex⟩ := h.exists_bisect_eq_ok hvisits target
  obtain ⟨front, start, back, hsplit, hoffset, hbefore, hwalk, hkey⟩ :=
    h.exists_split hvisits inside
  have hsearched := h.searchedWalk_of_bisect hvisits hindex hwalk
  have hless := h.less_of_bisect hindex hsplit hbefore hkey
  have hstart := h.searchStart_of_bisect hvisits hindex
  rw [← hoffset] at hstart hwalk
  refine ⟨front, start, back, hsplit, hstart, hless, hwalk, ?_⟩
  rcases block.lowerBound_cases target with ⟨damage, -, hnone⟩ | ⟨offset, hfrom, hsteps⟩
  · rw [hsearched] at hnone
    cases hnone
  · rw [hsearched] at hfrom hsteps
    obtain ⟨hnothing, -⟩ | ⟨found, later, -, hvisit, -⟩ := walkAt_undamaged_cases hfrom.symm
    · cases hnothing
    · rw [(List.cons.inj hvisit).1] at hsteps ⊢
      exact hsteps

/-- A search for any target steps onto the entry at the last restart point whose key is not greater
than the target, or onto the first entry, and from there once onto each entry up to its answer.  If
there is no answer it comes to the last entry.  The entries before its answer lie in one group, and
the key of its answer costs nothing more. -/
theorem lowerBound_reads_one_group
    [TransCmp block.order.compare] (h : block.WellFormed)
    (hvisits : block.walk.result.visits ≠ []) (target : Bytes) :
    let visits := block.walk.result.visits
    let answer := block.walk.result.passed block.order target
    let found := block.lowerBound target
    ∃ first start, visits[first]? = some start ∧ block.SearchStart target start.offset ∧
      first ≤ answer ∧
      found.result.StandsAt block visits[answer]? ∧
      (answer < visits.length → found.headers = answer - first + 1) ∧
      (answer = visits.length → found.headers = visits.length - first) ∧
      block.SearchSteps target start.offset first answer ∧
      (∀ index visit, visits[index]? = some visit → first < index → index < answer →
        visit.offset ∉ block.restarts) ∧
      ∀ keyed, block.key found.result = .ok keyed → keyed.headers = 0 := by
  intro visits answer found
  obtain ⟨front, start, back, hsplit, hstart, hless, hwalk, hsteps⟩ :=
    h.exists_searchStart hvisits target
  have hall : block.walk.result = (⟨start :: back, none⟩ : Walk).after front := by
    rw [walk_eq, h.walk_eq_visits, hsplit]
    rfl
  generalize hcount : (⟨start :: back, none⟩ : Walk).passed block.order target = count at hsteps
  have hanswer : answer = front.length + count := by
    rw [← hcount, ← Walk.passed_after_of_less hless, ← hall]
  have hfirst : visits[front.length]? = some start := by simp [visits, hsplit]
  have hlength : visits.length = front.length + (start :: back).length := by simp [visits, hsplit]
  have hspec := block.startAt_passes_spec start.offset
  simp only [hwalk] at hspec
  obtain ⟨hshows, hready, hheaders⟩ := hspec count
  have hfound : found.headers = min (count + 1) (start :: back).length := by
    rw [show found = _ from hsteps, Counted.headers_bind, hready.headers_settle, hheaders,
      Nat.add_zero]
  refine ⟨front.length, start, hfirst, hstart, by omega, ?_, ?_, ?_, ⟨?_, ?_⟩, ?_, ?_⟩
  · rw [show found = _ from hsteps, hanswer]
    exact (settle_shows hshows).standsAt_of_split hsplit
  · omega
  · omega
  · rw [hanswer, Nat.add_sub_cancel_left]
    exact hsteps
  · intro passed _
    obtain ⟨hshows, -, hheaders⟩ := hspec passed
    refine ⟨hshows.standsAt_of_split hsplit, hheaders.trans ?_⟩
    rw [show block.walk.result.visits.length = _ from hlength, Nat.add_sub_cancel_left]
  · intro index visit hvisit hbehind hbefore
    exact hstart.not_mem_restarts_of_between hfirst hvisit hbehind hbefore
  · intro keyed hkeyed
    rw [show found = _ from hsteps] at hkeyed
    exact (block.settle_ready _).headers_key hkeyed

end WellFormed

/-- A search for `ad` goes along the whole first group, up to the `b` at the next restart point. -/
theorem WellFormed.lowerBound_reads_one_group_mixedCase :
    let block := mixedCase.block ⟨"caseless", Bytes.compareCaseless⟩
    block.WellFormed ∧ block.walk.result.visits ≠ [] ∧
      (block.lowerBound [97, 100]).headers = 4 := by
  intro block
  have hsorted : mixedCase.Sorted ⟨"caseless", Bytes.compareCaseless⟩ :=
    ⟨by decide, by decide, fun _ => rfl⟩
  have hwalk : block.walk.result =
      ⟨[⟨0, [97, 98], [49]⟩, ⟨6, [65, 99], [50]⟩, ⟨12, [65, 67, 100], []⟩, ⟨17, [98], [51]⟩],
        none⟩ := by
    rw [mixedCase.walk_block]
    cbv
  have hvisits : block.walk.result.visits ≠ [] := by simp [hwalk]
  have horder : TransCmp block.order.compare :=
    inferInstanceAs (TransCmp Bytes.compareCaseless)
  have hrestarts : ∀ offset, offset ∈ block.restarts ↔ offset = 0 ∨ offset = 17 := by
    intro offset
    simp [block, Layout.block, mixedCase]
  have hzero : block.SearchStart [97, 100] 0 := by
    refine ⟨(hrestarts 0).mpr (Or.inl rfl), ?_, Or.inl rfl⟩
    simp only [hrestarts, hwalk]
    change ∀ visit ∈ ([_, _, _, _] : List Visit), (visit.offset = 0 ∨ visit.offset = 17) →
      Bytes.compareCaseless visit.key [97, 100] ≠ .gt → visit.offset ≤ 0
    decide
  have hanswer : block.walk.result.passed block.order [97, 100] = 3 := by
    rw [hwalk]
    change [_, _, _, _].findIdx (fun visit : Visit =>
      Bytes.compareCaseless visit.key [97, 100] != .lt) = 3
    decide
  obtain ⟨first, start, hfirst, hstart, -, -, hheaders, -⟩ :=
    hsorted.wellFormed.lowerBound_reads_one_group hvisits [97, 100]
  refine ⟨hsorted.wellFormed, hvisits, ?_⟩
  have hoffset := hstart.unique hzero
  change block.walk.result.visits[first]? = some start at hfirst
  rw [hwalk] at hfirst
  obtain rfl : first = 0 := by
    -- The entries behind the first one lie at other offsets than it.
    rcases first with _ | _ | _ | _ | first
    · rfl
    all_goals
      cases hfirst
      try cases hoffset
  rw [hheaders (by rw [hanswer, hwalk]; decide), hanswer]

end LsmStore.Block
