import LsmStore.Block.Basic
import LsmStore.Block.Counted

/-!
# Cursors of a block

A cursor is on an entry or at the end, and at the end it knows whether damage
brought it there.  It rebuilds the key of its entry only when it is asked.  If
the entry does not store its whole key, the key before it is needed: a cursor
that knew it when it left that entry has carried it along, and any other replays
the entries from the last one that stores its whole key.  The replaying cursor is
itself asked for the key of each entry that it comes to.  A key that was rebuilt is
remembered until the cursor moves.
-/

namespace LsmStore.Block

/-- An entry that a cursor is on. -/
structure Position where
  offset : Nat
  entry : Entry.Found
  /-- Where the last entry, up to this one, starts that stores its whole key. -/
  fullAt : Nat
  /-- The key of the entry before, if it was known when the cursor left that entry. -/
  previous? : Option Bytes
  /-- The key of this entry, if it was rebuilt. -/
  built? : Option Bytes
  deriving DecidableEq, Repr

/-- A place to read from in a block. -/
inductive Cursor where
  | on (position : Position)
  /-- Behind all entries, or stopped by damage. -/
  | ended (damage : Option Corruption)
  deriving DecidableEq, Repr

/-- Where a replay of entries came to. -/
structure Replay where
  /-- The key of the last entry before the target. -/
  key : Bytes
  /-- The cursor after that entry. -/
  landed : Cursor
  deriving DecidableEq, Repr

/-- The key that an entry may share bytes with. -/
structure Context where
  /-- The number of bytes of the key before. -/
  keyLength : Nat
  /-- Where the last entry before starts that stores its whole key. -/
  fullAt : Nat
  /-- The key before, if it is known. -/
  key? : Option Bytes
  deriving DecidableEq, Repr

/-- Steps onto the entry at the front of a region, which lies at `offset` in its block. -/
def land (offset : Nat) (region : Bytes) (context : Context) : Cursor :=
  if region.isEmpty then .ended none
  else
    match Entry.read offset region with
    | .error cause => .ended (some cause)
    | .ok found =>
      if context.keyLength < found.shared then
        .ended (some (.sharedPastKey offset found.shared context.keyLength))
      else
        .on {
          offset := offset
          entry := found
          fullAt := if found.isFull then offset else context.fullAt
          previous? := context.key?
          built? := none }

namespace Position

def nextOffset (position : Position) : Nat :=
  position.offset + position.entry.size

def rest (position : Position) : Bytes :=
  position.entry.rest

end Position

theorem length_rest_of_land
    {offset : Nat} {region : Bytes} {context : Context} {position : Position}
    (h : land offset region context = .on position) :
    position.rest.length < region.length := by
  unfold land at h
  split at h
  · cases h
  · split at h
    · cases h
    · rename_i found hread
      split at h
      · cases h
      · cases h
        exact Entry.read_shortens hread

namespace Position

/-- The key of the entry, if it is known without the entries before it. -/
def knownKey? (position : Position) : Option Bytes :=
  if position.entry.isFull then some position.entry.delta else position.built?

def context (position : Position) : Context :=
  ⟨position.entry.keyLength, position.fullAt, position.knownKey?⟩

def advance (position : Position) : Cursor :=
  land position.nextOffset position.rest position.context

theorem length_rest_of_advance
    {position next : Position}
    (h : position.advance = .on next) :
    next.rest.length < position.rest.length :=
  length_rest_of_land h

/-- Remembers the key of the entry, unless the entry stores it anyway. -/
def remember (position : Position) (key : Bytes) : Position :=
  if position.entry.isFull then position else { position with built? := some key }

@[simp]
theorem rest_remember
    (position : Position) (key : Bytes) :
    (position.remember key).rest = position.rest := by
  unfold remember
  split <;> rfl

theorem length_rest_of_advance_remember
    {position next : Position} {key : Bytes}
    (h : (position.remember key).advance = .on next) :
    next.rest.length < position.rest.length := by
  rw [← rest_remember position key]
  exact length_rest_of_advance h

end Position

namespace Cursor

/-- Stepping onto an entry counts its header. -/
def counted : Cursor → Counted Cursor
  | .on position => ⟨.on position, 1⟩
  | .ended damage => ⟨.ended damage, 0⟩

def isOn : Cursor → Bool
  | .on _ => true
  | .ended _ => false

def damage? : Cursor → Option Corruption
  | .on _ => none
  | .ended damage => damage

/-- Moves a cursor on; at the end it stays. -/
def advance : Cursor → Counted Cursor
  | .on position => position.advance.counted
  | .ended damage => return .ended damage

end Cursor

/-- The cursor on the entry at an offset, which has to store its whole key. -/
def startAt (block : Block) (offset : Nat) : Counted Cursor :=
  (land offset (block.entries.dropTo offset) ⟨0, offset, none⟩).counted

def first (block : Block) : Counted Cursor :=
  block.startAt 0

/-- The offset of a cursor: that of its entry, or the end of the entries. -/
def offsetOf (block : Block) : Cursor → Nat
  | .on position => position.offset
  | .ended _ => block.entries.size

mutual

def keyAt (block : Block) (position : Position) : Counted Bytes :=
  match position.knownKey? with
  | some key => return key
  | none =>
    match position.previous? with
    | some previous => return position.entry.keyAfter previous
    | none => do
      let replay ← block.replayTo position
      return position.entry.keyAfter replay.key
termination_by (position.offset, 2, 0)

/-- Replays the entries from the last one that stores its whole key up to a position. -/
def replayTo (block : Block) (position : Position) : Counted Replay := do
  match ← block.startAt position.fullAt with
  | .ended damage => return ⟨[], .ended damage⟩
  | .on start => block.replay position.offset [] start
termination_by (position.offset, 1, 0)

/-- Follows the entries up to the one at `target` with a cursor that is asked for its key at each
of them; `previous` is the key before the first. -/
def replay (block : Block) (target : Nat) (previous : Bytes) (position : Position) :
    Counted Replay :=
  if position.offset < target then do
    let key ← block.keyAt position
    match hmoved : (position.remember key).advance with
    | .ended damage => return ⟨key, .ended damage⟩
    | .on next => do
      have := Position.length_rest_of_advance_remember hmoved
      Counted.tick
      block.replay target key next
  else return ⟨previous, .on position⟩
termination_by (target, 0, position.rest.length)

end

theorem replay_eq
    (block : Block) (target : Nat) (previous : Bytes) (position : Position) :
    block.replay target previous position =
      if position.offset < target then do
        let key ← block.keyAt position
        match (position.remember key).advance with
        | .ended damage => return ⟨key, .ended damage⟩
        | .on next => do
          Counted.tick
          block.replay target key next
      else return ⟨previous, .on position⟩ := by
  rw [replay]
  split
  · congr
    funext key
    split <;> rename_i hmoved <;> simp [hmoved]
  · rfl

/-- The key at a cursor, and the cursor that remembers it. -/
def key (block : Block) : Cursor → Except Fault (Counted (Bytes × Cursor))
  | .ended _ => .error .keyOffEntry
  | .on position => .ok do
    let key ← block.keyAt position
    return (key, .on (position.remember key))

def value : Cursor → Except Fault Bytes
  | .ended _ => .error .valueOffEntry
  | .on position => .ok position.entry.value

end LsmStore.Block
