import LsmStore.Block.Iterator
import LsmStore.Proofs.Block.GroupSearch

/-!
# What a key costs

A cursor is spared the replay of a key if the entry stores the whole key, if the key
has been built since the cursor came to the entry, or if the cursor carries the key of
the entry before, which it knew when it left that entry.  All of this can be told from
how the cursor was started and from what has been asked of it, or of the cursor that it
was copied from.  In all other cases a key costs the entries from the last one that
stores its whole key.  A cursor that is asked for every key on its way always carries
the key before, so it reads each entry once; the cursor that replays is such a one, so a
replay never leads to another.
-/

namespace LsmStore.Block

variable {block : Block} {cursor : Cursor} {position : Position} {walk : Walk} {previous : Bytes}

/-! ## Prices -/

namespace Walk

/-- Whether the entry of a visit stores its whole key. -/
def stores (block : Block) (walk : Walk) (index : Nat) : Bool :=
  match walk.visits[index]? with
  | none => false
  | some visit =>
    match block.entryAt visit.offset with
    | .error _ => false
    | .ok found => found.isFull

/-- Whether the entry before a visit stores its whole key. -/
def storesBefore (block : Block) (walk : Walk) : Nat → Bool
  | 0 => false
  | before + 1 => walk.stores block before

/-- The last visit up to a place whose entry stores its whole key; the first visit if there is
none. -/
def lastStored (block : Block) (walk : Walk) : Nat → Nat
  | 0 => 0
  | before + 1 =>
    if walk.stores block (before + 1) then before + 1 else walk.lastStored block before

theorem lastStored_le
    (block : Block) (walk : Walk) (place : Nat) :
    walk.lastStored block place ≤ place := by
  induction place with
  | zero => exact Nat.le_refl 0
  | succ before ih =>
    rw [lastStored]
    split
    · exact Nat.le_refl _
    · exact Nat.le_succ_of_le ih

/-- The entry of the last visit up to a place that stores its whole key does so if the first one
does, and no later entry up to the place does. -/
theorem lastStored_spec
    (hfirst : walk.stores block 0 = true) (place : Nat) :
    walk.stores block (walk.lastStored block place) = true ∧
      ∀ index, walk.lastStored block place < index → index ≤ place →
        walk.stores block index = false := by
  induction place with
  | zero => exact ⟨hfirst, fun index hlater hle => absurd hlater (Nat.not_lt.mpr hle)⟩
  | succ before ih =>
    rw [lastStored]
    cases hstores : walk.stores block (before + 1) with
    | true => exact ⟨hstores, fun index hlater hle => absurd hlater (Nat.not_lt.mpr hle)⟩
    | false =>
      refine ⟨ih.1, fun index hlater hle => ?_⟩
      rcases Nat.lt_or_eq_of_le hle with hless | rfl
      · exact ih.2 index hlater (Nat.le_of_lt_succ hless)
      · exact hstores

end Walk

/-- Where a cursor is on a walk, and what has been asked of it. -/
structure Memo where
  /-- The number of visits that the cursor has left behind. -/
  place : Nat
  /-- Whether the key has been asked for since the cursor came here. -/
  built : Bool
  /-- Whether the key of the entry before had been asked for when the cursor left it. -/
  carried : Bool
  deriving DecidableEq, Repr

namespace Memo

/-- A cursor moves on. -/
def moved (memo : Memo) : Memo :=
  ⟨memo.place + 1, false, memo.built⟩

/-- A cursor is asked for its key. -/
def asked (memo : Memo) : Memo :=
  { memo with built := true }

/-- Whether a cursor is spared a replay. -/
def spared (block : Block) (walk : Walk) (memo : Memo) : Bool :=
  walk.stores block memo.place || memo.built ||
    (walk.storesBefore block memo.place || memo.carried)

/-- What it costs to ask for the key. -/
def price (block : Block) (walk : Walk) (memo : Memo) : Nat :=
  if memo.place < walk.visits.length ∧ memo.spared block walk = false then
    memo.place - walk.lastStored block memo.place + 1
  else 0

@[simp]
theorem price_asked
    (block : Block) (walk : Walk) (memo : Memo) :
    memo.asked.price block walk = 0 := by
  simp [price, spared, asked]

end Memo

/-! ## Replays -/

/-- A replay that reaches its target reads the header of each entry behind the first one, and
none for the keys that the replaying cursor is asked for. -/
theorem Position.Follows.headers_replay
    (h : position.Follows block previous) (hready : position.Ready) {target : Nat}
    (hreached : ∃ visit ∈ (block.walkAt position.offset previous).visits, target ≤ visit.offset) :
    (block.replay target previous position).headers =
      ((block.walkAt position.offset previous).before target).length := by
  -- Along the entries that are still to be read.
  induction hrest : position.rest.length using Nat.strongRecOn generalizing position previous with
  | ind length ih =>
    rw [h.replay_of_ready hready]
    by_cases hbefore : position.offset < target
    · have hvisit : ∀ visit ∈ [position.visit previous], visit.offset < target := by
        simpa [Position.visit] using hbefore
      obtain ⟨reached, hmem, hbehind⟩ := hreached
      rw [h.walkAt_eq] at hmem
      have hlater : reached ∈
          (block.walkAt position.nextOffset (position.entry.keyAfter previous)).visits := by
        rcases List.mem_append.mp hmem with hfirst | hlater
        · exact absurd (hvisit reached hfirst) (Nat.not_lt.mpr hbehind)
        · exact hlater
      rw [if_pos hbefore, h.walkAt_eq, Walk.before_after hvisit]
      rcases h.advance_remember_cases with
        ⟨next, hnext, hshorter, hcarried, hoffset, hfollows⟩ | ⟨damage, -, hnone⟩
      · rw [← hoffset] at hlater ⊢
        have hreplay := ih next.rest.length (hrest ▸ hshorter) hfollows (Or.inr hcarried)
          ⟨_, hlater, hbehind⟩ rfl
        rw [hnext]
        simp only [Counted.headers_bind, Counted.headers_tick, hreplay, List.length_append,
          List.length_singleton]
      · rw [hnone] at hlater
        cases hlater
    · rw [if_neg hbefore, h.before_walkAt (Nat.le_of_not_lt hbefore)]
      rfl

/-- A replay reads the entries from the last one that stores its whole key up to the one whose key
is asked for. -/
theorem Position.Follows.headers_replayTo
    (h : position.Follows block previous) :
    (block.replayTo position).headers +
        (block.walkAt position.offset previous).visits.length =
      (block.walkAt position.fullAt []).visits.length + 1 := by
  obtain ⟨front, hwalk, hbefore, -⟩ := h.retraced
  have hreached : position.visit previous ∈ (block.walkAt position.fullAt []).visits := by
    rw [hwalk, h.walkAt_eq]
    simp [Walk.after]
  have hfront : (block.walkAt position.fullAt []).before position.offset = front := by
    rw [hwalk, Walk.before_after hbefore, h.before_walkAt (Nat.le_refl _), List.append_nil]
  rw [replayTo]
  rcases startAt_cases block position.fullAt with
    ⟨start, hstart, hoffset, hfollows⟩ | ⟨damage, -, hnone⟩
  · rw [← hoffset] at hreached hfront
    have hreplay :=
      hfollows.headers_replay hfollows.ready_of_nil ⟨_, hreached, Nat.le_refl position.offset⟩
    rw [hfront] at hreplay
    simp only [hstart, Counted.headers_bind, hreplay, hwalk, Walk.after, List.length_append]
    omega
  · rw [hnone] at hreached
    cases hreached

/-! ## What a cursor remembers -/

theorem Position.knownKey?_of_built?_eq_none
    (h : position.built? = none) :
    position.knownKey?.isSome = position.entry.isFull := by
  rw [knownKey?, h]
  split <;> simp_all

@[simp]
theorem Position.previous?_remember
    (position : Position) (key : Bytes) :
    (position.remember key).previous? = position.previous? := by
  rw [remember]
  split <;> rfl

@[simp]
theorem Position.fullAt_remember
    (position : Position) (key : Bytes) :
    (position.remember key).fullAt = position.fullAt := by
  rw [remember]
  split <;> rfl

/-- A position that remembers what its memo says, and nothing else. -/
structure Position.Recalls
    (block : Block) (walk : Walk) (memo : Memo) (previous : Bytes) (position : Position) :
    Prop where
  follows : position.Follows block previous
  walk_eq : block.walkAt position.offset previous = walk.dropped memo.place
  knownKey?_isSome : position.knownKey?.isSome = (walk.stores block memo.place || memo.built)
  previous?_isSome : position.previous?.isSome =
    (walk.storesBefore block memo.place || memo.carried)
  full_eq : block.walkAt position.fullAt [] = walk.dropped (walk.lastStored block memo.place)

/-- A cursor that is where its memo says and remembers what its memo says. -/
def Cursor.Recalls (block : Block) (walk : Walk) (memo : Memo) : Cursor → Prop
  | .ended _ => walk.visits.length ≤ memo.place
  | .on position => ∃ previous, position.Recalls block walk memo previous

theorem Position.Follows.getElem?_visits
    {place : Nat} (h : position.Follows block previous)
    (hwalk : block.walkAt position.offset previous = walk.dropped place) :
    walk.visits[place]? = some (position.visit previous) := by
  have hvisits := congrArg Walk.visits (hwalk.symm.trans h.walkAt_eq)
  rw [← List.head?_drop]
  exact congrArg List.head? hvisits

theorem Position.Follows.stores_eq
    {place : Nat} (h : position.Follows block previous)
    (hwalk : block.walkAt position.offset previous = walk.dropped place) :
    walk.stores block place = position.entry.isFull := by
  have hentry : block.entryAt (position.visit previous).offset = .ok position.entry :=
    entryAt_eq_ok_iff.mpr h.read_eq
  rw [Walk.stores, h.getElem?_visits hwalk]
  simp only [hentry]

namespace Position.Recalls

variable {memo : Memo}

theorem place_lt
    (h : position.Recalls block walk memo previous) :
    memo.place < walk.visits.length :=
  (List.getElem?_eq_some_iff.mp (h.follows.getElem?_visits h.walk_eq)).1

theorem ready_iff
    (h : position.Recalls block walk memo previous) :
    position.Ready ↔ memo.spared block walk = true := by
  rw [Ready, ← Option.isSome_iff_ne_none, ← Option.isSome_iff_ne_none, h.knownKey?_isSome,
    h.previous?_isSome, Memo.spared, Bool.or_eq_true (_ || _)]

/-- A key costs its price. -/
theorem headers_keyAt
    (h : position.Recalls block walk memo previous) :
    (block.keyAt position).headers = memo.price block walk := by
  rw [Memo.price]
  by_cases hspared : memo.spared block walk = true
  · rw [(h.ready_iff.mpr hspared).headers_keyAt, if_neg (by simp [hspared])]
  · have hunready : ¬ position.Ready := fun hready => hspared (h.ready_iff.mp hready)
    rw [Ready, not_or, not_not, not_not] at hunready
    rw [if_pos ⟨h.place_lt, Bool.eq_false_iff.mpr hspared⟩, keyAt, hunready.1]
    simp only [hunready.2, Counted.headers_bind, Counted.headers_pure]
    have hreplay := h.follows.headers_replayTo
    have hplace := h.place_lt
    rw [h.walk_eq, h.full_eq, Walk.dropped, Walk.dropped, List.length_drop, List.length_drop]
      at hreplay
    have hlast := walk.lastStored_le block memo.place
    omega

theorem remember
    (h : position.Recalls block walk memo previous) :
    (position.remember (position.entry.keyAfter previous)).Recalls block walk memo.asked
      previous := by
  constructor
  · exact h.follows.remember
  · rw [offset_remember]
    exact h.walk_eq
  · rw [Memo.asked, Bool.or_true, Option.isSome_iff_ne_none]
    exact position.knownKey?_remember_ne_none _
  · rw [previous?_remember]
    exact h.previous?_isSome
  · rw [fullAt_remember]
    exact h.full_eq

/-- Moving on. -/
theorem advance
    (h : position.Recalls block walk memo previous) :
    position.advance.Recalls block walk memo.moved := by
  have hlater : block.walkAt position.nextOffset (position.entry.keyAfter previous) =
      walk.dropped (memo.place + 1) := by
    rw [← Walk.dropped_dropped, ← h.walk_eq, h.follows.walkAt_eq]
    rfl
  rcases h.follows.advance_cases with ⟨next, hnext, hoffset, hfollows⟩ | ⟨damage, hended, hnone⟩
  · obtain ⟨hprevious, hbuilt, hfull⟩ := memory_of_land hnext
    rw [← hoffset] at hlater
    have hstores := hfollows.stores_eq hlater
    rw [hnext]
    refine ⟨_, hfollows, hlater, ?_, ?_, ?_⟩
    · rw [knownKey?_of_built?_eq_none hbuilt, ← hstores, Memo.moved, Bool.or_false]
    · rw [hprevious]
      exact h.knownKey?_isSome
    · rw [hfull]
      simp only [Memo.moved, Walk.lastStored, hstores]
      cases hnextFull : next.entry.isFull with
      | true => exact (walkAt_of_isFull hfollows.read_eq hnextFull).trans hlater
      | false => exact h.full_eq
  · rw [hended]
    have hvisits := congrArg Walk.visits (hnone.symm.trans hlater)
    exact List.drop_eq_nil_iff.mp hvisits.symm

end Position.Recalls

namespace Cursor.Recalls

variable {memo : Memo}

theorem advance
    (h : cursor.Recalls block walk memo) :
    cursor.advance.result.Recalls block walk memo.moved := by
  cases cursor with
  | ended damage => exact Nat.le_succ_of_le h
  | on position =>
    obtain ⟨previous, hrecalls⟩ := h
    rw [Cursor.advance, result_counted]
    exact hrecalls.advance

theorem settle
    (h : cursor.Recalls block walk memo) :
    (block.settle cursor).result.Recalls block walk memo.asked := by
  cases cursor with
  | ended damage => exact h
  | on position =>
    obtain ⟨previous, hrecalls⟩ := h
    simp only [Block.settle, Counted.result_bind, Counted.result_pure, hrecalls.follows.keyAt_eq]
    exact ⟨previous, hrecalls.remember⟩

theorem headers_settle
    (h : cursor.Recalls block walk memo) :
    (block.settle cursor).headers = memo.price block walk := by
  cases cursor with
  | ended damage => exact (if_neg fun hboth => Nat.not_lt.mpr h hboth.1).symm
  | on position =>
    obtain ⟨previous, hrecalls⟩ := h
    exact hrecalls.headers_keyAt

theorem exists_shows
    (h : cursor.Recalls block walk memo) :
    ∃ left : Walk, cursor.Shows block left ∧ left.visits = walk.visits.drop memo.place := by
  cases cursor with
  | ended damage => exact ⟨⟨[], damage⟩, rfl, (List.drop_eq_nil_iff.mpr h).symm⟩
  | on position =>
    obtain ⟨previous, hrecalls⟩ := h
    exact ⟨_, ⟨previous, hrecalls.follows, rfl⟩, by rw [hrecalls.walk_eq, Walk.dropped]⟩

theorem headers_advance
    (h : cursor.Recalls block walk memo) :
    cursor.advance.headers = if memo.place + 1 < walk.visits.length then 1 else 0 := by
  obtain ⟨left, hshows, hleft⟩ := h.exists_shows
  rw [hshows.headers_advance, hleft, List.length_drop]
  exact if_congr (by omega) rfl rfl

/-- Passing entries with a cursor that carries a key: from then on the key before is carried. -/
theorem passes
    {place : Nat} {carried : Bool} (h : cursor.Recalls block walk ⟨place, false, carried⟩)
    (count : Nat) :
    (block.passes count cursor).result.Recalls block walk
      ⟨place + count, false, carried || decide (0 < count)⟩ := by
  induction count generalizing cursor place carried with
  | zero =>
    rw [Nat.lt_irrefl 0 |> decide_eq_false, Bool.or_false]
    exact h
  | succ count ih =>
    have hpass : (block.pass cursor).result.Recalls block walk ⟨place + 1, false, true⟩ :=
      h.settle.advance
    have hpassed := ih hpass
    rw [Bool.true_or, Nat.add_right_comm] at hpassed
    rw [decide_eq_true (Nat.succ_pos count), Bool.or_true]
    exact hpassed

end Cursor.Recalls

/-! ## Starts -/

theorem startAt_recalls
    (block : Block) (offset : Nat) :
    (block.startAt offset).result.Recalls block (block.walkAt offset []) ⟨0, false, false⟩ := by
  rcases startAt_cases block offset with
    ⟨position, hstart, hoffset, hfollows⟩ | ⟨damage, hstart, hnone⟩
  · have hland : land offset (block.entries.dropTo offset) ⟨0, offset, none⟩ = .on position := by
      rw [← Cursor.result_counted (land ..)]
      exact congrArg Counted.result hstart
    obtain ⟨hprevious, hbuilt, hfull⟩ := memory_of_land hland
    have hwalk : block.walkAt position.offset [] = (block.walkAt offset []).dropped 0 := by
      rw [hoffset]
      rfl
    have hstores := hfollows.stores_eq hwalk
    rw [hstart]
    refine ⟨[], hfollows, hwalk, ?_, ?_, ?_⟩
    · rw [Position.knownKey?_of_built?_eq_none hbuilt, hstores, Bool.or_false]
    · rw [hprevious]
      rfl
    · rw [hfull, hoffset, ite_self]
      rfl
  · rw [hstart, hnone]
    exact Nat.le_refl 0

namespace Start

/-- The walk that a cursor goes along from where its start began to read; a search passes visits of
it before the cursor is handed out. -/
def wholeWalk (block : Block) : Start → Walk
  | first => block.walkAt 0 []
  | lowerBound target | find target => block.searchedWalk target

/-- Whether a search comes to a key that is equivalent to its target. -/
def hits (block : Block) (target : Bytes) : Bool :=
  let walk := block.searchedWalk target
  (walk.visits[walk.passed block.order target]?).any fun visit =>
    block.order.compare visit.key target == .eq

/-- Where a cursor is after its start, and what has been asked of it: a search asks for the key of
each visit that it comes to. -/
def memo (block : Block) : Start → Memo
  | first => ⟨0, false, false⟩
  | lowerBound target =>
    let place := (block.searchedWalk target).passed block.order target
    ⟨place, true, decide (0 < place)⟩
  | find target =>
    let walk := block.searchedWalk target
    let place := walk.passed block.order target
    ⟨if hits block target then place else walk.visits.length, true, decide (0 < place)⟩

end Start

theorem lowerBound_recalls
    (block : Block) (target : Bytes) :
    (block.lowerBound target).result.Recalls block (block.searchedWalk target)
      ((Start.lowerBound target).memo block) := by
  rcases block.lowerBound_cases target with ⟨damage, hended, hnone⟩ | ⟨start, hwalk, hpasses⟩
  · rw [hended, hnone]
    exact Nat.zero_le _
  · rw [hpasses]
    have hpassed := (block.startAt_recalls start).passes
      ((block.searchedWalk target).passed block.order target)
    rw [← hwalk, Nat.zero_add, Bool.false_or] at hpassed
    exact hpassed.settle

theorem find_recalls
    (block : Block) (target : Bytes) :
    (block.find target).result.Recalls block (block.searchedWalk target)
      ((Start.find target).memo block) := by
  have hlower := block.lowerBound_recalls target
  rw [find, Counted.result_bind]
  cases hcursor : (block.lowerBound target).result with
  | ended damage =>
    rw [hcursor] at hlower
    have hnone : (block.searchedWalk target).visits[
        (block.searchedWalk target).passed block.order target]? = none :=
      List.getElem?_eq_none hlower
    simp [Start.memo, Start.hits, hnone, Cursor.Recalls]
  | on position =>
    rw [hcursor] at hlower
    obtain ⟨previous, hrecalls⟩ := hlower
    have hvisit := hrecalls.follows.getElem?_visits hrecalls.walk_eq
    simp only [Start.memo] at hvisit
    have hhits : Start.hits block target =
        (block.order.compare (position.entry.keyAfter previous) target == .eq) := by
      simp only [Start.hits, hvisit, Option.any_some, Position.visit]
    simp only [Counted.result_bind, hrecalls.follows.keyAt_eq, Start.memo, hhits, beq_iff_eq]
    split
    · exact ⟨previous, hrecalls.remember⟩
    · exact Nat.le_refl _

theorem Start.recalls
    (block : Block) (start : Start) :
    (start.obtained block).result.Recalls block (start.wholeWalk block) (start.memo block) := by
  cases start with
  | first => exact block.startAt_recalls 0
  | lowerBound target => exact block.lowerBound_recalls target
  | find target => exact block.find_recalls target

/-- A walk from an entry that has to store its whole key starts with such an entry. -/
theorem stores_walkAt_zero
    {offset : Nat} (hsome : 0 < (block.walkAt offset []).visits.length) :
    (block.walkAt offset []).stores block 0 = true := by
  rcases startAt_cases block offset with
    ⟨position, -, rfl, hfollows⟩ | ⟨damage, -, hnone⟩
  · rw [hfollows.stores_eq rfl, Entry.Found.isFull_iff]
    exact Nat.le_zero.mp hfollows.shared_le
  · simp [hnone] at hsome

theorem Start.stores_zero
    (start : Start) (hsome : 0 < (start.wholeWalk block).visits.length) :
    (start.wholeWalk block).stores block 0 = true := by
  have hsearched : ∀ target, 0 < (block.searchedWalk target).visits.length →
      (block.searchedWalk target).stores block 0 = true := by
    intro target hsome
    rcases block.lowerBound_cases target with ⟨damage, -, hnone⟩ | ⟨start, hwalk, -⟩
    · simp [hnone] at hsome
    · rw [hwalk] at hsome ⊢
      exact stores_walkAt_zero hsome
  cases start with
  | first => exact stores_walkAt_zero hsome
  | lowerBound target => exact hsearched target hsome
  | find target => exact hsearched target hsome

/-! ## Sessions -/

/-- The memos of the cursor that was started in a slot and of its copies, after some operations. -/
def Start.memosAfter
    (block : Block) (start : Start) (slot : Nat) (operations : List Operation) :
    Slots (Option Memo) :=
  operations.foldl (Operation.noted Memo.moved Memo.asked)
    ((Slots.fill none).set slot (some (start.memo block)))

/-- What some operations add to the number of headers. -/
def Session.Costs (session : Session) (operations : List Operation) (headers : Nat) : Prop :=
  (session.after operations).headers = session.headers + headers

namespace Session.Tracks

variable {session : Session} {memos : Slots (Option Memo)} {slot : Nat} {memo : Memo}

/-- Through a run every cursor that comes from one start is as its memo says. -/
theorem after_recalls
    (h : session.Tracks block (Cursor.Recalls block walk) memos) (operations : List Operation) :
    (session.after operations).Tracks block (Cursor.Recalls block walk)
      (operations.foldl (Operation.noted Memo.moved Memo.asked) memos) :=
  h.after (fun _ _ hrecalls => hrecalls.advance) (fun _ _ hrecalls => hrecalls.settle) operations

theorem costs_key
    (h : session.Tracks block (Cursor.Recalls block walk) memos)
    (hmemo : memos.get slot = some memo) :
    session.Costs [.key slot] (memo.price block walk) := by
  change (session.step (.key slot)).2.headers = _
  rw [Session.step_key, h.block_eq, (h.holds slot memo hmemo).headers_settle]

theorem costs_advance
    (h : session.Tracks block (Cursor.Recalls block walk) memos)
    (hmemo : memos.get slot = some memo) :
    session.Costs [.advance slot] (if memo.place + 1 < walk.visits.length then 1 else 0) := by
  change session.headers + (session.cursors.get slot).advance.headers = _
  rw [(h.holds slot memo hmemo).headers_advance]

theorem answers_of_getElem?
    (h : session.Tracks block (Cursor.Recalls block walk) memos)
    (hmemo : memos.get slot = some memo) {visit : Visit}
    (hvisit : walk.visits[memo.place]? = some visit) :
    (session.step (.look slot)).1 = .look ⟨true, visit.offset, none⟩ ∧
      (session.step (.key slot)).1 = .bytes visit.key := by
  have hrecalls := h.holds slot memo hmemo
  simp only [Session.step, h.block_eq]
  cases hcursor : session.cursors.get slot with
  | ended damage =>
    rw [hcursor] at hrecalls
    rw [List.getElem?_eq_none hrecalls] at hvisit
    cases hvisit
  | on position =>
    rw [hcursor] at hrecalls
    obtain ⟨previous, hrecalls⟩ := hrecalls
    rw [hrecalls.follows.getElem?_visits hrecalls.walk_eq] at hvisit
    cases hvisit
    exact ⟨rfl, congrArg Answer.bytes hrecalls.follows.keyAt_eq⟩

theorem look_of_length_le
    (h : session.Tracks block (Cursor.Recalls block walk) memos)
    (hmemo : memos.get slot = some memo) (hpast : walk.visits.length ≤ memo.place) :
    ∃ damage, (session.step (.look slot)).1 = .look ⟨false, block.entries.size, damage⟩ := by
  have hrecalls := h.holds slot memo hmemo
  simp only [Session.step, h.block_eq]
  cases hcursor : session.cursors.get slot with
  | ended damage => exact ⟨damage, rfl⟩
  | on position =>
    rw [hcursor] at hrecalls
    obtain ⟨previous, hrecalls⟩ := hrecalls
    exact absurd hrecalls.place_lt (Nat.not_lt.mpr hpast)

end Session.Tracks

theorem Session.costs_append
    {session : Session} {first second : List Operation} {firstHeaders secondHeaders : Nat}
    (hfirst : session.Costs first firstHeaders)
    (hsecond : (session.after first).Costs second secondHeaders) :
    session.Costs (first ++ second) (firstHeaders + secondHeaders) := by
  rw [Costs, after, List.foldl_append]
  exact hsecond.trans (by rw [hfirst, Nat.add_assoc])

/-- Asks for the key at a cursor and moves it on, a number of times. -/
def Operation.passing (slot count : Nat) : List Operation :=
  (List.replicate count [.key slot, .advance slot]).flatten

/-! ## Walks that ask for every key -/

/-- Asking for every key on the way costs the first of them, and one header for each entry that is
stepped onto. -/
theorem Cursor.Recalls.headers_passes
    {memo : Memo} (h : cursor.Recalls block walk memo) (count : Nat) :
    (block.passes (count + 1) cursor).headers =
      memo.price block walk + min (count + 1) (walk.visits.length - (memo.place + 1)) := by
  obtain ⟨left, hshows, hleft⟩ := h.exists_shows
  have hlater := (passes_spec (pass_shows hshows) (block.pass_ready cursor) count).2.2
  rw [Block.passes, Counted.headers_bind, hlater, pass, Counted.headers_bind, h.headers_settle,
    (settle_shows hshows).headers_advance, Walk.dropped, List.length_drop, hleft,
    List.length_drop]
  split <;> omega

theorem Session.step_passing
    (session : Session) (slot : Nat) :
    let passed := ((session.step (.key slot)).2.step (.advance slot)).2
    passed.block = session.block ∧
      passed.cursors.get slot = (session.block.pass (session.cursors.get slot)).result ∧
      passed.headers =
        session.headers + (session.block.pass (session.cursors.get slot)).headers := by
  rw [Session.step_key]
  simp only [step, put, Slots.get_set, if_true, pass, Counted.result_bind, Counted.headers_bind,
    Nat.add_assoc, and_self]

theorem Session.costs_passing
    (session : Session) (slot count : Nat) :
    session.Costs (Operation.passing slot count)
      (session.block.passes count (session.cursors.get slot)).headers := by
  induction count generalizing session with
  | zero => rfl
  | succ count ih =>
    obtain ⟨hblock, hcursor, hheaders⟩ := session.step_passing slot
    have hlater := ih ((session.step (.key slot)).2.step (.advance slot)).2
    rw [Costs, hblock, hcursor, hheaders, Nat.add_assoc] at hlater
    exact hlater

namespace Iterator

/-- The iterator after a number of calls. -/
def afterCalls (block : Block) : Nat → Iterator → Counted Iterator
  | 0, iterator => return iterator
  | count + 1, iterator => do afterCalls block count (← iterator.next block).2

theorem headers_afterCalls_of_done
    (cursor : Cursor) (count : Nat) :
    (afterCalls block count ⟨cursor, true⟩).headers = 0 := by
  induction count with
  | zero => rfl
  | succ count ih => simpa [afterCalls, next] using ih

theorem headers_afterCalls
    (cursor : Cursor) (count : Nat) :
    (afterCalls block count ⟨cursor, false⟩).headers = (block.passes count cursor).headers := by
  induction count generalizing cursor with
  | zero => rfl
  | succ count ih =>
    cases cursor with
    | ended damage =>
      have hpasses := (passes_spec (show (Cursor.ended damage).Shows block ⟨[], damage⟩ from rfl)
        trivial (count + 1)).2.2
      rw [hpasses]
      exact (Nat.zero_add _).trans (headers_afterCalls_of_done _ count)
    | on position => exact congrArg (_ + ·) (ih _)

end Iterator

/-- An iterator reads the first entry, and one more entry with each call. -/
theorem headers_iterator
    (block : Block) (count : Nat) :
    (block.iterator >>= Iterator.afterCalls block count).headers =
      min (count + 1) block.walk.result.visits.length := by
  have hpasses := (block.startAt_passes_spec 0 count).2.2
  simp only [walk_eq, ← hpasses, iterator, first, bind_assoc, pure_bind, Counted.headers_bind,
    Iterator.headers_afterCalls]

/-- A cursor that was started in any session, and each of its copies, whatever else is done in the
session: it costs nothing to look at it, to ask for its value or to copy it, one header to move it
onto an entry, and the price that its memo tells to ask for its key, once.  So a cursor that is
asked for every key on its way reads each entry once, as an iterator does. -/
theorem Start.key_costs_its_price
    (start : Start) (session : Session) (slot : Nat) (operations : List Operation)
    {copy : Nat} {memo : Memo}
    (hcopy : (start.memosAfter session.block slot operations).get copy = some memo) :
    let block := session.block
    let walk := start.wholeWalk block
    let reached := (session.step (start.operation slot)).2.after operations
    (∀ visit, walk.visits[memo.place]? = some visit →
        (reached.step (.look copy)).1 = .look ⟨true, visit.offset, none⟩ ∧
          (reached.step (.key copy)).1 = .bytes visit.key) ∧
      (walk.visits.length ≤ memo.place → ∃ damage,
        (reached.step (.look copy)).1 = .look ⟨false, block.entries.size, damage⟩) ∧
      reached.Costs [.look copy] 0 ∧
      reached.Costs [.value copy] 0 ∧
      (∀ target, reached.Costs [.copy copy target] 0) ∧
      reached.Costs [.advance copy] (if memo.place + 1 < walk.visits.length then 1 else 0) ∧
      reached.Costs [.key copy] (memo.price block walk) ∧
      reached.Costs [.key copy, .key copy] (memo.price block walk) ∧
      (memo.place < walk.visits.length →
        walk.stores block (walk.lastStored block memo.place) = true ∧
          ∀ index, walk.lastStored block memo.place < index → index ≤ memo.place →
            walk.stores block index = false) ∧
      (∀ count, reached.Costs (Operation.passing copy (count + 1))
        (memo.price block walk + min (count + 1) (walk.visits.length - (memo.place + 1)))) ∧
      ∀ count, (block.iterator >>= Iterator.afterCalls block count).headers =
        min (count + 1) block.walk.result.visits.length := by
  intro block walk reached
  generalize hmemos : start.memosAfter session.block slot operations = memos at hcopy
  have hrecalls : reached.Tracks block (Cursor.Recalls block walk) memos :=
    hmemos ▸ (start.tracks session slot (start.recalls session.block)).after_recalls operations
  have hstart : (reached.cursors.get copy).Recalls block walk memo :=
    hrecalls.holds copy memo hcopy
  refine ⟨?_, hrecalls.look_of_length_le hcopy, rfl, ?_, fun _ => rfl,
    hrecalls.costs_advance hcopy, hrecalls.costs_key hcopy, ?_, ?_, ?_, block.headers_iterator⟩
  · intro visit hvisit
    exact hrecalls.answers_of_getElem? hcopy hvisit
  · change (reached.step (.value copy)).2.headers = _
    simp only [Session.step]
    split <;> rfl
  · have hasked : ((Operation.key copy).noted Memo.moved Memo.asked memos).get copy =
        some memo.asked := by
      rw [Operation.noted, Slots.get_set, if_pos rfl, hcopy]
      rfl
    have hsecond := (hrecalls.after_recalls [.key copy]).costs_key hasked
    rw [Memo.price_asked] at hsecond
    exact Session.costs_append (hrecalls.costs_key hcopy) hsecond
  · intro hinside
    exact Walk.lastStored_spec (start.stores_zero (Nat.zero_lt_of_lt hinside)) memo.place
  · intro count
    have hpassing := reached.costs_passing copy (count + 1)
    rw [hrecalls.block_eq, hstart.headers_passes] at hpassing
    exact hpassing

/-- A copy that was made before the key of its original was built replays all three entries. -/
theorem Start.key_costs_its_price_earlyCopy :
    let operations : List Operation := [.advance 0, .advance 0, .copy 0 1, .key 0]
    (Start.first.memosAfter sharedTriple 0 operations).get 1 = some ⟨2, false, false⟩ ∧
      (((Session.ofBlock sharedTriple).step (Start.first.operation 0)).2.after operations).Costs
        [.key 1] 3 := by
  intro operations
  have hmemo : (Start.first.memosAfter sharedTriple 0 operations).get 1 =
      some ⟨2, false, false⟩ := rfl
  have hprice : Memo.price sharedTriple (Start.first.wholeWalk sharedTriple) ⟨2, false, false⟩ =
      3 := by cbv
  obtain ⟨-, -, -, -, -, -, hkey, -⟩ :=
    Start.first.key_costs_its_price (Session.ofBlock sharedTriple) 0 operations hmemo
  refine ⟨hmemo, ?_⟩
  rw [← hprice]
  exact hkey

end LsmStore.Block
