import LsmStore.SkipList.Basic

/-!
# Cursors and look-ups

A cursor is at an element or at the end.  It stays at its element whatever is
inserted; moving it on looks up at that moment what lies ahead.  An iterator is a
cursor that hands out the key of its element and has then moved on already, so
what is inserted right behind that key afterwards is not seen.
-/

namespace LsmStore.SkipList

/-- An element of a list or its end.  Cursors are equal if they are at the same element. -/
structure Cursor where
  element? : Option Nat
  deriving DecidableEq, Repr

namespace Cursor

def atEnd : Cursor := ⟨none⟩

def isEnd (cursor : Cursor) : Bool :=
  cursor.element?.isNone

/-- A cursor as text, by the key that it is at. -/
def describe (showKey : Key → String) : Option Key → String
  | some key => "Cursor(" ++ showKey key ++ ")"
  | none => "Cursor(end)"

end Cursor

def key? (list : SkipList Key) (cursor : Cursor) : Option Key :=
  cursor.element?.bind list.keyAt?

/-- Moves a cursor to the element ahead; at the end it stays. -/
def advance (list : SkipList Key) (cursor : Cursor) : Cursor :=
  ⟨cursor.element?.bind fun index => (list.next? (.element index) 0).join⟩

/-- The key that a cursor is at, and the cursor moved on. -/
def next (list : SkipList Key) (cursor : Cursor) : Option Key × Cursor :=
  (list.key? cursor, list.advance cursor)

def first (list : SkipList Key) : Cursor :=
  ⟨(list.next? .head 0).join⟩

def lowerBound (list : SkipList Key) (key : Key) : Cursor :=
  ⟨list.seek? (list.isLess key)⟩

def upperBound (list : SkipList Key) (key : Key) : Cursor :=
  ⟨list.seek? (list.isNotGreater key)⟩

def find (list : SkipList Key) (key : Key) : Cursor :=
  ⟨list.equivalent? key (list.seek? (list.isLess key))⟩

def contains (list : SkipList Key) (key : Key) : Bool :=
  !(list.find key).isEnd

def isEmpty (list : SkipList Key) : Bool :=
  list.first.isEnd

/-- The keys from a cursor on, at most `limit` of them. -/
def take (list : SkipList Key) : Nat → Cursor → List Key
  | 0, _ => []
  | limit + 1, cursor =>
    match list.key? cursor with
    | none => []
    | some key => key :: list.take limit (list.advance cursor)

/-- All keys from a cursor on. -/
def keysFrom (list : SkipList Key) (cursor : Cursor) : List Key :=
  list.take list.towers.size cursor

def toList (list : SkipList Key) : List Key :=
  list.keysFrom list.first

/-- A way to say where a cursor is to be put. -/
inductive Position (Key : Type) where
  | first
  | atEnd
  /-- At the element equivalent to the key, or else at the end. -/
  | equivalent (key : Key)
  | notLess (key : Key)
  | greater (key : Key)
  deriving DecidableEq, Repr

def locate (list : SkipList Key) : Position Key → Cursor
  | .first => list.first
  | .atEnd => Cursor.atEnd
  | .equivalent key => list.find key
  | .notLess key => list.lowerBound key
  | .greater key => list.upperBound key

end LsmStore.SkipList
