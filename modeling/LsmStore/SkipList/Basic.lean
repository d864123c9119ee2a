import LsmStore.SkipList.Height

/-!
# Tower lists

A tower list keeps elements in order, each in a tower with one forward link for
each of its levels.  Level 0 links all elements; the links of a higher level skip
the towers that do not reach it.  A search starts at the head on the highest
level in use, follows links as long as the element ahead lies before what is
looked for, and then goes down one level, until it has done so on level 0.

Elements are never removed, so an element is known for good by its number in the
order of insertion.  A search cannot follow a link that a tower does not have: it
stops without a result there, as it does when a level takes more steps than there
are elements.  For the lists that insertion makes, neither happens.
-/

namespace LsmStore

/-- An element with its tower of forward links, one for each level. -/
structure Tower (Key : Type) where
  key : Key
  /-- The number of the element ahead on each level, if there is one. -/
  next : Array (Option Nat)
  deriving Repr

/-- An ordered set with one forward link for each level of each tower. -/
structure SkipList (Key : Type) where
  /-- The comparison of keys; keys that compare as equal are one element. -/
  order : Key → Key → Ordering
  /-- The height of the tower that is built as the element of that number. -/
  heights : Nat → Height
  /-- The elements in the order of their insertion. -/
  towers : Array (Tower Key)
  /-- The first element of each level. -/
  head : Array (Option Nat)
  /-- The number of levels in use. -/
  height : Nat
  /-- The number of elements, counted as they are inserted. -/
  size : Nat

namespace SkipList

/-- What has forward links: the head or an element. -/
inductive Place where
  | head
  | element (index : Nat)
  deriving DecidableEq, Repr

def empty (order : Key → Key → Ordering) (heights : Nat → Height) : SkipList Key where
  order := order
  heights := heights
  towers := #[]
  head := Array.replicate Height.maxLevels none
  height := 1
  size := 0

def links? (list : SkipList Key) : Place → Option (Array (Option Nat))
  | .head => some list.head
  | .element index => (list.towers[index]?).map Tower.next

/-- The element ahead of a place on a level; no result if the place does not reach the level. -/
def next? (list : SkipList Key) (place : Place) (level : Nat) : Option (Option Nat) := do
  let links ← list.links? place
  links[level]?

/-- Goes forward on one level, in fewer than `budget` steps, while the element ahead is `before`. -/
def walk
    (list : SkipList Key) (before : Key → Bool) (level : Nat) :
    Nat → Place → Option Place
  | 0, _ => none
  | budget + 1, place =>
    match list.next? place level with
    | none => none
    | some none => some place
    | some (some index) =>
      match list.towers[index]? with
      | none => none
      | some tower =>
        if before tower.key then list.walk before level budget (.element index)
        else some place

/-- Goes forward on each of the levels below `level`, from the highest down to level 0. -/
def descend
    (list : SkipList Key) (before : Key → Bool) :
    Nat → Place → List Place → Option (List Place)
  | 0, _, trail => some trail
  | level + 1, place, trail =>
    match list.walk before level (list.towers.size + 1) place with
    | none => none
    | some place => list.descend before level place (place :: trail)

/-- The last place before what is looked for on each level in use, from level 0 up. -/
def trail? (list : SkipList Key) (before : Key → Bool) : Option (List Place) :=
  list.descend before list.height .head []

/-- The element right behind a trail. -/
def behind? (list : SkipList Key) : List Place → Option Nat
  | [] => none
  | place :: _ => (list.next? place 0).join

/-- The first element that is not `before`. -/
def seek? (list : SkipList Key) (before : Key → Bool) : Option Nat :=
  (list.trail? before).bind list.behind?

def keyAt? (list : SkipList Key) (index : Nat) : Option Key :=
  (list.towers[index]?).map Tower.key

def isLess (list : SkipList Key) (key : Key) (other : Key) : Bool :=
  list.order other key == .lt

def isNotGreater (list : SkipList Key) (key : Key) (other : Key) : Bool :=
  list.order other key != .gt

/-- The element of that number, if there is one and its key is equivalent to `key`. -/
def equivalent? (list : SkipList Key) (key : Key) (index? : Option Nat) : Option Nat := do
  let index ← index?
  let other ← list.keyAt? index
  if list.order key other == .eq then some index else none

end SkipList

end LsmStore
