import LsmStore.SkipList.Cursor

/-!
# Insertion

A new element is linked in behind the places at which the search for its key
went down a level.  On levels that were not in use before, the head is that
place.  An element that is equivalent to one in the list is not inserted.
-/

namespace LsmStore.SkipList

/-- Lets the forward link of a place on a level lead to an element. -/
def link (list : SkipList Key) (level index : Nat) : Place → SkipList Key
  | .head => { list with head := list.head.setIfInBounds level (some index) }
  | .element other =>
    { list with
      towers := list.towers.modify other fun tower =>
        { tower with next := tower.next.setIfInBounds level (some index) } }

/-- A trail for a tower: cut off above its height, and at the head where it does not reach. -/
def fitTrail (trail : List Place) (height : Height) : List Place :=
  (trail ++ List.replicate (height.levels - trail.length) Place.head).take height.levels

/-- A tower behind a trail: on each level it leads to where the place on the trail leads. -/
def towerBehind (list : SkipList Key) (trail : List Place) (key : Key) : Tower Key where
  key := key
  next := (trail.mapIdx fun level place => (list.next? place level).join).toArray

/-- Adds a tower that has the levels of a trail and lies behind it on each of them. -/
def splice (list : SkipList Key) (trail : List Place) (key : Key) : SkipList Key :=
  let index := list.towers.size
  let grown :=
    { list with
      towers := list.towers.push (list.towerBehind trail key)
      height := max list.height trail.length
      size := list.size + 1 }
  trail.zipIdx.foldl (fun list (place, level) => list.link level index place) grown

/-- Inserts a key unless an equivalent one is there; the cursor is at the new or the old one. -/
def insert (list : SkipList Key) (key : Key) : Cursor × SkipList Key :=
  match list.trail? (list.isLess key) with
  | none => (Cursor.atEnd, list)
  | some trail =>
    match list.equivalent? key (list.behind? trail) with
    | some index => (⟨some index⟩, list)
    | none =>
      let index := list.towers.size
      (⟨some index⟩, list.splice (fitTrail trail (list.heights index)) key)

def insertAll (list : SkipList Key) (keys : List Key) : SkipList Key :=
  keys.foldl (fun list key => (list.insert key).2) list

end LsmStore.SkipList
