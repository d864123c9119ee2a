import LsmStore.SkipList.Insert
import LsmStore.Slots

/-!
# Sessions with a tower list

A session is a list together with numbered cursors and numbered iterators that
stay alive while the list grows.  Each operation has one answer.  The answers
never show the heights of the towers.
-/

namespace LsmStore.SkipList

/-- A list with live cursors and iterators. -/
structure Session (Key : Type) where
  list : SkipList Key
  cursors : Slots Cursor
  iterators : Slots Cursor

inductive Operation (Key : Type) where
  | insert (key : Key)
  | keyAt (position : Position Key)
  | contains (key : Key)
  | compare (a b : Key)
  | summary
  | keysFrom (position : Position Key)
  | openIterator (slot : Nat) (position : Position Key)
  | next (slot : Nat)
  | place (slot : Nat) (position : Position Key)
  | advance (slot : Nat)
  | look (slot : Nat)
  | copy (source target : Nat)
  /-- Asks whether two cursors are at the same element. -/
  | equal (a b : Nat)
  /-- Lets the writer go; reads go on. -/
  | dropWriter
  deriving DecidableEq, Repr

inductive Answer (Key : Type) where
  /-- The key that the cursor of an insertion is at, and the number of elements. -/
  | inserted (key : Option Key) (size : Nat)
  | key (key : Option Key)
  | cursor (key : Option Key)
  | truth (answer : Bool)
  | ordering (result : Ordering)
  /-- The number of elements, twice whether there are none, and whether the height is in bounds. -/
  | summary (size : Nat) (empty firstIsEnd heightInBounds : Bool)
  | keys (keys : List Key)
  | done
  deriving DecidableEq, Repr

/-- Whether as many levels are in use as a list of that size can have. -/
def heightInBounds (list : SkipList Key) : Bool :=
  if list.isEmpty then list.height == 1
  else 1 ≤ list.height && list.height ≤ Height.maxLevels

namespace Session

def ofList (list : SkipList Key) : Session Key :=
  ⟨list, Slots.fill Cursor.atEnd, Slots.fill Cursor.atEnd⟩

def step (session : Session Key) : Operation Key → Answer Key × Session Key
  | .insert key =>
    let (cursor, list) := session.list.insert key
    (.inserted (list.key? cursor) list.size, { session with list })
  | .keyAt position =>
    (.key (session.list.key? (session.list.locate position)), session)
  | .contains key => (.truth (session.list.contains key), session)
  | .compare a b => (.ordering (session.list.order a b), session)
  | .summary =>
    let list := session.list
    (.summary list.size list.isEmpty (list.first == Cursor.atEnd) list.heightInBounds, session)
  | .keysFrom position =>
    (.keys (session.list.keysFrom (session.list.locate position)), session)
  | .openIterator slot position =>
    let cursor := session.list.locate position
    (.done, { session with iterators := session.iterators.set slot cursor })
  | .next slot =>
    let (key, cursor) := session.list.next (session.iterators.get slot)
    (.key key, { session with iterators := session.iterators.set slot cursor })
  | .place slot position =>
    let cursor := session.list.locate position
    (.cursor (session.list.key? cursor),
      { session with cursors := session.cursors.set slot cursor })
  | .advance slot =>
    let cursor := session.list.advance (session.cursors.get slot)
    (.cursor (session.list.key? cursor),
      { session with cursors := session.cursors.set slot cursor })
  | .look slot => (.cursor (session.list.key? (session.cursors.get slot)), session)
  | .copy source target =>
    let cursor := session.cursors.get source
    (.done, { session with cursors := session.cursors.set target cursor })
  | .equal a b => (.truth (session.cursors.get a == session.cursors.get b), session)
  | .dropWriter => (.done, session)

def run (session : Session Key) : List (Operation Key) → List (Answer Key)
  | [] => []
  | operation :: operations =>
    let (answer, session) := session.step operation
    answer :: session.run operations

end Session

end LsmStore.SkipList
