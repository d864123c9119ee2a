import Mathlib.Tactic.SplitIfs
import LsmStore.Proofs.Block.EagerWalk

/-!
# Keys do not depend on what a cursor remembers

A cursor that is put on an entry by a start or a search stands at the front of an
eager walk, and advancing it drops the first visit of that walk.  Nothing else that
is done to a cursor or to a copy of it changes the walk before it.  So what a cursor
answers is a function of how it was started and of how often it was advanced.
-/

namespace LsmStore.Block

variable {block : Block} {cursor : Cursor} {position : Position} {walk : Walk}
variable {previous : Bytes}

/-! ## What a cursor answers -/

namespace Walk

/-- The state of a cursor at the front of a walk. -/
def look (block : Block) (walk : Walk) : Look :=
  match walk.visits with
  | [] => ⟨false, block.entries.size, walk.damage?⟩
  | visit :: _ => ⟨true, visit.offset, none⟩

/-- The key at the front of a walk. -/
def keyAnswer (walk : Walk) : Answer :=
  match walk.visits with
  | [] => .refused .keyOffEntry
  | visit :: _ => .bytes visit.key

/-- The value at the front of a walk. -/
def valueAnswer (walk : Walk) : Answer :=
  match walk.visits with
  | [] => .refused .valueOffEntry
  | visit :: _ => .bytes visit.value

/-- What is left of a walk from the first key on that is not less than a target. -/
def seek (order : Comparator) (target : Bytes) (walk : Walk) : Walk :=
  ⟨walk.visits.dropWhile fun visit => order.compare visit.key target == .lt, walk.damage?⟩

/-- A walk whose first key is equivalent to a target or that is damaged at once; any other is
given up for an undamaged walk without visits. -/
def keepEquivalent (order : Comparator) (target : Bytes) (walk : Walk) : Walk :=
  match walk.visits with
  | [] => walk
  | visit :: _ => if order.compare visit.key target = .eq then walk else ⟨[], none⟩

end Walk

@[simp]
theorem Cursor.result_counted
    (cursor : Cursor) :
    cursor.counted.result = cursor := by
  cases cursor <;> rfl

namespace Cursor.Shows

theorem eq_ended
    {damage : Option Corruption} (h : cursor.Shows block ⟨[], damage⟩) :
    cursor = .ended damage := by
  cases cursor with
  | ended other => exact congrArg Cursor.ended (congrArg Walk.damage? h).symm
  | on position =>
    obtain ⟨previous, hfollows, hwalk⟩ := h
    rw [hfollows.walkAt_eq] at hwalk
    cases congrArg Walk.visits hwalk

theorem exists_on
    {visit : Visit} {visits : List Visit} {damage : Option Corruption}
    (h : cursor.Shows block ⟨visit :: visits, damage⟩) :
    ∃ position previous, cursor = .on position ∧ position.Follows block previous ∧
      visit = position.visit previous ∧
      ⟨visit :: visits, damage⟩ = block.walkAt position.offset previous := by
  cases cursor with
  | ended other => cases congrArg Walk.visits h
  | on position =>
    obtain ⟨previous, hfollows, hwalk⟩ := h
    have hvisits := congrArg Walk.visits (hwalk.trans hfollows.walkAt_eq)
    exact ⟨position, previous, rfl, hfollows, (List.cons.inj hvisits).1, hwalk⟩

theorem advance
    (h : cursor.Shows block walk) :
    cursor.advance.result.Shows block (walk.dropped 1) := by
  cases cursor with
  | ended damage =>
    rw [show walk = ⟨[], damage⟩ from h, Walk.dropped_nil]
    rfl
  | on position =>
    obtain ⟨previous, hfollows, rfl⟩ := h
    rw [Cursor.advance, Cursor.result_counted]
    exact hfollows.advance_shows

/-- At each visit of the walk before a cursor there is an entry, from which the later visits are
made. -/
theorem exists_follows
    {front back : List Visit} {visit : Visit} {damage : Option Corruption}
    (h : cursor.Shows block ⟨front ++ visit :: back, damage⟩) :
    ∃ (position : Position) (previous : Bytes), position.Follows block previous ∧
      visit = position.visit previous ∧
      block.walkAt position.offset previous = ⟨visit :: back, damage⟩ := by
  induction front generalizing cursor with
  | nil =>
    obtain ⟨position, previous, -, hfollows, hvisit, hwalk⟩ := h.exists_on
    exact ⟨position, previous, hfollows, hvisit, hwalk.symm⟩
  | cons earlier front ih => exact ih h.advance

end Cursor.Shows

/-! ## Searches and walks -/

theorem Position.Follows.remember_shows
    (h : position.Follows block previous) :
    (Cursor.on (position.remember (position.entry.keyAfter previous))).Shows block
      (block.walkAt position.offset previous) :=
  ⟨previous, h.remember, by rw [offset_remember]⟩

/-- Asks for the key at a cursor, which then remembers it. -/
def settle (block : Block) : Cursor → Counted Cursor
  | .ended damage => return .ended damage
  | .on position => do
    let key ← block.keyAt position
    return .on (position.remember key)

/-- Asking for a key does not change the walk before a cursor. -/
theorem settle_shows
    (h : cursor.Shows block walk) :
    (block.settle cursor).result.Shows block walk := by
  cases cursor with
  | ended damage => exact h
  | on position =>
    obtain ⟨previous, hfollows, rfl⟩ := h
    simp only [settle, Counted.result_bind, Counted.result_pure, hfollows.keyAt_eq]
    exact hfollows.remember_shows

theorem Position.Follows.scan_shows
    (h : position.Follows block previous) (target : Bytes) :
    (block.scan target position).result.Shows block
      ((block.walkAt position.offset previous).seek block.order target) := by
  -- Along the entries that are still to be read.
  induction hrest : position.rest.length using Nat.strongRecOn generalizing position previous with
  | ind length ih =>
    rw [scan_eq]
    simp only [Counted.result_bind, h.keyAt_eq]
    by_cases hless : block.order.compare (position.entry.keyAfter previous) target = .lt
    · have hwalk : (block.walkAt position.offset previous).seek block.order target =
          (block.walkAt position.nextOffset (position.entry.keyAfter previous)).seek block.order
            target := by
        simp [h.walkAt_eq, Walk.seek, Walk.after, Position.visit, hless]
      rw [if_pos hless, hwalk]
      rcases h.advance_remember_cases with
        ⟨next, hnext, hshorter, -, hoffset, hfollows⟩ | ⟨damage, hended, hnone⟩
      · rw [hnext, ← hoffset]
        exact ih next.rest.length (hrest ▸ hshorter) hfollows rfl
      · rw [hended, hnone]
        rfl
    · have hwalk : (block.walkAt position.offset previous).seek block.order target =
          block.walkAt position.offset previous := by
        simp [h.walkAt_eq, Walk.seek, Walk.after, Position.visit, hless]
      rw [if_neg hless, hwalk]
      exact h.remember_shows

/-- The walk at whose front a search stops: from the restart point at which the search starts,
the visits of lesser keys are passed. -/
def lowerBoundWalk (block : Block) (target : Bytes) : Walk :=
  match block.startIndex? target with
  | none => ⟨[], none⟩
  | some (.error cause) => ⟨[], some cause⟩
  | some (.ok ⟨index, inside⟩) =>
    if block.entries.size ≤ block.restarts[index] then
      ⟨[], some (.restartPastEntries index)⟩
    else (block.walkAt block.restarts[index] []).seek block.order target

/-- The walk from the restart point at which a search starts, with the visits of lesser keys that
the search passes. -/
def searchedWalk (block : Block) (target : Bytes) : Walk :=
  match block.startIndex? target with
  | none => ⟨[], none⟩
  | some (.error cause) => ⟨[], some cause⟩
  | some (.ok ⟨index, inside⟩) =>
    if block.entries.size ≤ block.restarts[index] then
      ⟨[], some (.restartPastEntries index)⟩
    else block.walkAt block.restarts[index] []

theorem lowerBoundWalk_eq_seek
    (block : Block) (target : Bytes) :
    block.lowerBoundWalk target = (block.searchedWalk target).seek block.order target := by
  rw [lowerBoundWalk, searchedWalk]
  cases block.startIndex? target with
  | none => rfl
  | some started =>
    cases started with
    | error cause => rfl
    | ok index =>
      simp only
      split <;> rfl

theorem offsets_searchedWalk
    (block : Block) (target : Bytes) :
    (block.searchedWalk target).visits.Pairwise fun first second =>
      first.offset < second.offset := by
  rw [searchedWalk]
  split
  · exact List.Pairwise.nil
  · exact List.Pairwise.nil
  · split_ifs with hpast
    · exact List.Pairwise.nil
    · exact (Walk.offsets_ofRegion _ _ _).2

theorem offsets_lowerBoundWalk
    (block : Block) (target : Bytes) :
    (block.lowerBoundWalk target).visits.Pairwise fun first second =>
      first.offset < second.offset := by
  rw [lowerBoundWalk_eq_seek]
  exact (block.offsets_searchedWalk target).sublist (List.dropWhile_sublist _)

theorem lowerBound_shows
    (block : Block) (target : Bytes) :
    (block.lowerBound target).result.Shows block (block.lowerBoundWalk target) := by
  rw [lowerBound, lowerBoundWalk]
  cases block.startIndex? target with
  | none => exact rfl
  | some started =>
    cases started with
    | error cause => exact rfl
    | ok index =>
      simp only [scanFrom, Fin.getElem_fin]
      by_cases hpast : block.entries.size ≤ block.restarts[(index : Nat)]
      · rw [if_pos hpast, if_pos hpast]
        exact rfl
      rw [if_neg hpast, if_neg hpast]
      rcases startAt_cases block block.restarts[(index : Nat)] with
        ⟨start, hstart, hoffset, hfollows⟩ | ⟨damage, hstart, hnone⟩
      · rw [hstart, ← hoffset]
        exact hfollows.scan_shows target
      · rw [hstart, hnone]
        exact rfl

theorem find_shows
    (block : Block) (target : Bytes) :
    (block.find target).result.Shows block
      ((block.lowerBoundWalk target).keepEquivalent block.order target) := by
  have hlower := lowerBound_shows block target
  rw [find, Counted.result_bind]
  cases hcursor : (block.lowerBound target).result with
  | ended damage =>
    rw [hcursor] at hlower
    rw [show block.lowerBoundWalk target = ⟨[], damage⟩ from hlower]
    exact rfl
  | on position =>
    rw [hcursor] at hlower
    obtain ⟨previous, hfollows, hwalk⟩ := hlower
    have hkeep : (block.lowerBoundWalk target).keepEquivalent block.order target =
        if block.order.compare (position.entry.keyAfter previous) target = .eq then
          block.walkAt position.offset previous
        else ⟨[], none⟩ := by
      simp only [hwalk, hfollows.walkAt_eq]
      rfl
    simp only [Counted.result_bind, hfollows.keyAt_eq, hkeep]
    by_cases hequal : block.order.compare (position.entry.keyAfter previous) target = .eq
    · rw [if_pos hequal, if_pos hequal]
      exact hfollows.remember_shows
    · rw [if_neg hequal, if_neg hequal]
      exact rfl

theorem Position.Follows.walkOn_eq
    (h : position.Follows block previous) :
    (block.walkOn position).result = block.walkAt position.offset previous := by
  -- Along the entries that are still to be read.
  induction hrest : position.rest.length using Nat.strongRecOn generalizing position previous with
  | ind length ih =>
    rw [LsmStore.Block.walkOn_eq, h.walkAt_eq]
    simp only [Counted.result_bind, h.keyAt_eq]
    rcases h.advance_remember_cases with
      ⟨next, hnext, hshorter, -, hoffset, hfollows⟩ | ⟨damage, hended, hnone⟩
    · have htail := ih next.rest.length (hrest ▸ hshorter) hfollows rfl
      rw [hoffset] at htail
      rw [hnext]
      simp only [Counted.result_bind, Counted.result_pure, htail]
      rfl
    · rw [hended, hnone]
      rfl

theorem Cursor.Shows.walkFrom_eq
    (h : cursor.Shows block walk) :
    (block.walkFrom cursor).result = walk := by
  cases cursor with
  | ended damage => exact h.symm
  | on position =>
    obtain ⟨previous, hfollows, hwalk⟩ := h
    rw [hwalk, ← hfollows.walkOn_eq]
    rfl

theorem walk_eq
    (block : Block) :
    block.walk.result = block.walkAt 0 [] := by
  rw [walk, Counted.result_bind]
  exact (startAt_shows block 0).walkFrom_eq

/-! ## Cursors and their copies -/

/-- A way to obtain a cursor on an entry. -/
inductive Start where
  | first
  | lowerBound (target : Bytes)
  | find (target : Bytes)
  deriving DecidableEq, Repr

namespace Start

/-- The operation that puts such a cursor into a slot. -/
def operation (slot : Nat) : Start → Operation
  | first => .first slot
  | lowerBound target => .lowerBound slot target
  | find target => .find slot target

/-- The cursor that is obtained. -/
def obtained (block : Block) : Start → Counted Cursor
  | first => block.first
  | lowerBound target => block.lowerBound target
  | find target => block.find target

/-- The eager walk that such a cursor stands at the front of. -/
def eagerWalk (block : Block) : Start → Walk
  | first => block.walkAt 0 []
  | lowerBound target => block.lowerBoundWalk target
  | find target => (block.lowerBoundWalk target).keepEquivalent block.order target

end Start

/-- What is said of the cursors in a session, after an operation.  It changes with a cursor that is
advanced or asked for its key, and is said of its copies as well; nothing is said of a cursor that
is put anew. -/
def Operation.noted
    {State : Type} (advanced asked : State → State) (states : Slots (Option State)) :
    Operation → Slots (Option State)
  | .first slot | .atEnd slot | .lowerBound slot _ | .find slot _ => states.set slot none
  | .advance slot => states.set slot ((states.get slot).map advanced)
  | .key slot => states.set slot ((states.get slot).map asked)
  | .copy source target => states.set target (states.get source)
  | _ => states

/-- How often the cursor that was started in a slot and its copies were advanced, after some
operations; asking for a key changes nothing. -/
def advancesAfter (slot : Nat) (operations : List Operation) : Slots (Option Nat) :=
  operations.foldl (Operation.noted (· + 1) id) ((Slots.fill none).set slot (some 0))

/-- A session after some operations. -/
def Session.after (session : Session) (operations : List Operation) : Session :=
  operations.foldl (fun session operation => (session.step operation).2) session

/-- A session in which what is said of a cursor holds of it. -/
structure Session.Tracks
    {State : Type} (block : Block) (Holds : State → Cursor → Prop)
    (states : Slots (Option State)) (session : Session) : Prop where
  block_eq : session.block = block
  holds : ∀ slot state, states.get slot = some state → Holds state (session.cursors.get slot)

/-- Asking for a key is refused off the entries, and settles the cursor on them. -/
theorem Session.step_key
    (session : Session) (slot : Nat) :
    (session.step (.key slot)).2 =
      { session with
        cursors := session.cursors.set slot
          (session.block.settle (session.cursors.get slot)).result
        headers := session.headers +
          (session.block.settle (session.cursors.get slot)).headers } := by
  simp only [step]
  cases hcursor : session.cursors.get slot with
  | ended damage =>
    simp only [key, settle, Counted.result_pure, Counted.headers_pure, Nat.add_zero]
    rw [← hcursor, Slots.set_get]
  | on position => rfl

namespace Session.Tracks

variable {State : Type} {Holds : State → Cursor → Prop} {states : Slots (Option State)}
variable {advanced asked : State → State} {session : Session}

theorem put
    (h : session.Tracks block Holds states) {slot : Nat} {state? : Option State}
    (hcursor : ∀ state, state? = some state → Holds state cursor) (headers : Nat) :
    Session.Tracks block Holds (states.set slot state?)
      ⟨session.block, session.cursors.set slot cursor, headers⟩ := by
  refine ⟨h.block_eq, fun other state hstate => ?_⟩
  rw [Slots.get_set] at hstate ⊢
  by_cases hother : other = slot
  · rw [if_pos hother] at hstate ⊢
    exact hcursor state hstate
  · rw [if_neg hother] at hstate ⊢
    exact h.holds other state hstate

/-- One operation: what is said of a cursor has to go over to the cursor that is advanced and to
the one that is asked for its key. -/
theorem step
    (hadvanced : ∀ state cursor, Holds state cursor → Holds (advanced state) cursor.advance.result)
    (hasked : ∀ state cursor, Holds state cursor →
      Holds (asked state) (block.settle cursor).result)
    (h : session.Tracks block Holds states) (operation : Operation) :
    (session.step operation).2.Tracks block Holds (operation.noted advanced asked states) := by
  cases operation with
  | advance slot =>
    refine h.put (fun state hstate => ?_) _
    obtain ⟨before, hbefore, rfl⟩ := Option.map_eq_some_iff.mp hstate
    exact hadvanced before _ (h.holds slot before hbefore)
  | key slot =>
    rw [Session.step_key]
    refine h.put (fun state hstate => ?_) _
    obtain ⟨before, hbefore, rfl⟩ := Option.map_eq_some_iff.mp hstate
    rw [h.block_eq]
    exact hasked before _ (h.holds slot before hbefore)
  | copy source target => exact h.put (h.holds source) _
  | first slot => exact h.put (by simp) _
  | atEnd slot => exact h.put (by simp) _
  | lowerBound slot target => exact h.put (by simp) _
  | find slot target => exact h.put (by simp) _
  | summary => exact h
  | restartPoint index =>
    simp only [Session.step]
    split <;> exact h
  | keyAtRestart index =>
    simp only [Session.step]
    split <;> exact h
  | walk => exact ⟨h.block_eq, h.holds⟩
  | probe targets => exact ⟨h.block_eq, h.holds⟩
  | look slot => exact h
  | value slot =>
    simp only [Session.step]
    split <;> exact h
  | equal a b => exact h

theorem after
    (hadvanced : ∀ state cursor, Holds state cursor → Holds (advanced state) cursor.advance.result)
    (hasked : ∀ state cursor, Holds state cursor →
      Holds (asked state) (block.settle cursor).result)
    (h : session.Tracks block Holds states) (operations : List Operation) :
    (session.after operations).Tracks block Holds
      (operations.foldl (Operation.noted advanced asked) states) := by
  induction operations generalizing session states with
  | nil => exact h
  | cons operation operations ih => exact ih (h.step hadvanced hasked operation)

end Session.Tracks

/-- What is said of a cursor at its start; nothing is said of other cursors. -/
theorem Start.tracks
    {State : Type} {Holds : State → Cursor → Prop} {state : State}
    (start : Start) (session : Session) (slot : Nat)
    (h : Holds state (start.obtained session.block).result) :
    (session.step (start.operation slot)).2.Tracks session.block Holds
      ((Slots.fill none).set slot (some state)) := by
  have hnone : session.Tracks session.block Holds (Slots.fill none) := by
    refine ⟨rfl, fun other state hstate => ?_⟩
    cases hstate
  have hput : Session.Tracks session.block Holds ((Slots.fill none).set slot (some state))
      (session.put slot (start.obtained session.block)).2 := by
    refine hnone.put (fun other hother => ?_) _
    cases hother
    exact h
  cases start <;> exact hput

/-- A cursor that has a walk before it without the visits that it has left behind. -/
def Cursor.ShowsAfter (block : Block) (walk : Walk) (count : Nat) (cursor : Cursor) : Prop :=
  cursor.Shows block (walk.dropped count)

namespace Session.Tracks

variable {session : Session} {advances : Slots (Option Nat)}

/-- Through a run every cursor that comes from one start shows what its advances have left of the
walk from there; asking for keys changes what cursors remember, and not the walks before them. -/
theorem after_shows
    (h : session.Tracks block (Cursor.ShowsAfter block walk) advances)
    (operations : List Operation) :
    (session.after operations).Tracks block (Cursor.ShowsAfter block walk)
      (operations.foldl (Operation.noted (· + 1) id) advances) := by
  refine h.after (fun count cursor hshows => ?_) (fun count cursor hshows => ?_) operations
  · rw [Cursor.ShowsAfter, ← Walk.dropped_dropped]
    exact hshows.advance
  · exact settle_shows hshows

/-- What a cursor answers is read off the walk before it. -/
theorem answers_eq
    (h : session.Tracks block (Cursor.ShowsAfter block walk) advances) {slot count : Nat}
    (hcount : advances.get slot = some count) :
    (session.step (.look slot)).1 = .look ((walk.dropped count).look block) ∧
      (session.step (.key slot)).1 = (walk.dropped count).keyAnswer ∧
      (session.step (.value slot)).1 = (walk.dropped count).valueAnswer := by
  have hshows : (session.cursors.get slot).Shows block (walk.dropped count) :=
    h.holds slot count hcount
  simp only [Session.step, h.block_eq]
  generalize walk.dropped count = left at hshows ⊢
  obtain ⟨visits, damage⟩ := left
  cases visits with
  | nil =>
    rw [hshows.eq_ended]
    exact ⟨rfl, rfl, rfl⟩
  | cons visit visits =>
    obtain ⟨position, previous, hcursor, hfollows, rfl, -⟩ := hshows.exists_on
    rw [hcursor]
    exact ⟨rfl, congrArg Answer.bytes hfollows.keyAt_eq, rfl⟩

end Session.Tracks

theorem Start.shows
    (block : Block) (start : Start) :
    (start.obtained block).result.Shows block (start.eagerWalk block) := by
  cases start with
  | first => exact startAt_shows block 0
  | lowerBound target => exact lowerBound_shows block target
  | find target => exact find_shows block target

/-- A cursor that was started in any session, and each of its copies, whatever else is done
in the session: what it answers is read off the eager walk of its start without as many
visits as it made advances. -/
theorem Start.answers_eq_eagerWalk
    (start : Start) (session : Session) (slot : Nat) (operations : List Operation)
    {copy count : Nat} (hcopy : (advancesAfter slot operations).get copy = some count) :
    let walk := (start.eagerWalk session.block).dropped count
    let reached := (session.step (start.operation slot)).2.after operations
    (reached.step (.look copy)).1 = .look (walk.look session.block) ∧
      (reached.step (.key copy)).1 = walk.keyAnswer ∧
      (reached.step (.value copy)).1 = walk.valueAnswer := by
  have hstart : Cursor.ShowsAfter session.block (start.eagerWalk session.block) 0
      (start.obtained session.block).result := start.shows session.block
  have hreached := (start.tracks session slot hstart).after_shows operations
  exact hreached.answers_eq hcopy

/-- The entries `ab`, `ac` and `acd`, of which only the first stores its whole key. -/
def sharedTriple : Block :=
  ⟨.ofBytes [0, 2, 1, 97, 98, 49, 1, 1, 1, 99, 50, 2, 1, 0, 100], #[0], Comparator.bytewise⟩

theorem Start.key_of_advanced_copy :
    (advancesAfter 0 [.copy 0 1, .advance 1, .key 0]).get 1 = some 1 ∧
      let reached := ((Session.ofBlock sharedTriple).step
        ((Start.lowerBound [97, 99]).operation 0)).2.after [.copy 0 1, .advance 1, .key 0]
      (reached.step (.key 1)).1 = .bytes [97, 99, 100] := by
  have hcount : (advancesAfter 0 [.copy 0 1, .advance 1, .key 0]).get 1 = some 1 := rfl
  have hanswers := Start.answers_eq_eagerWalk (.lowerBound [97, 99])
    (Session.ofBlock sharedTriple) 0 [.copy 0 1, .advance 1, .key 0] hcount
  have hwalk : (Start.lowerBound [97, 99]).eagerWalk sharedTriple =
      ⟨[⟨6, [97, 99], [50]⟩, ⟨11, [97, 99, 100], []⟩], none⟩ := by decide +kernel
  refine ⟨hcount, hanswers.2.1.trans ?_⟩
  rw [show (Session.ofBlock sharedTriple).block = sharedTriple from rfl, hwalk]
  rfl

end LsmStore.Block
