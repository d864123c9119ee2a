import LsmStore.Block.Entry
import LsmStore.Block.EntryRegion
import LsmStore.Comparator

/-!
# Blocks

A block holds entries in the order of their keys, then the offsets of some entries
that store their whole key, the restart points, and at its end the number of those.
Offsets and number take four bytes each, low byte first.  Opening a block checks
that the restart points fit; everything else is checked when it is read.
-/

namespace LsmStore

/-- A block of entries, with the comparison of its keys. -/
structure Block where
  entries : Block.EntryRegion
  /-- The offsets of the restart points, in the order in which they are stored. -/
  restarts : Array Nat
  order : Comparator

namespace Block

/-- The number of bytes of a restart point, and of their number. -/
def restartWidth : Nat := 4

/-- The restart count at the end of contents that are long enough for one. -/
def restartCount (contents : Bytes) : Nat :=
  LittleEndian.decode (contents.drop (contents.length - restartWidth))

/-- The number of bytes behind the entries for so many restart points. -/
def trailerSize (count : Nat) : Nat :=
  restartWidth * (count + 1)

/-- Opens the contents of a block. -/
def ofContents (order : Comparator) (contents : Bytes) : Except Corruption Block :=
  if contents.length < restartWidth then .error (.noRestartCount contents.length)
  else
    let count := restartCount contents
    if contents.length < trailerSize count then
      .error (.restartsDoNotFit count contents.length)
    else
      let regionSize := contents.length - trailerSize count
      .ok {
        entries := .ofBytes (contents.take regionSize)
        restarts :=
          (LittleEndian.words ((contents.drop regionSize).take (restartWidth * count))).toArray
        order := order }

def size (block : Block) : Nat :=
  block.entries.size + trailerSize block.restarts.size

def restartPoint (block : Block) (index : Nat) : Except Fault Nat :=
  match block.restarts[index]? with
  | some offset => .ok offset
  | none => .error (.restartOutOfRange index block.restarts.size)

def entryAt (block : Block) (offset : Nat) : Except Corruption Entry.Found :=
  if block.entries.size ≤ offset then
    .error (.offsetPastEntries offset block.entries.size)
  else Entry.read offset (block.entries.dropTo offset)

/-- The whole key that has to be stored at a restart point with that index and offset. -/
def fullKeyAt (block : Block) (index offset : Nat) : Except Corruption Bytes := do
  let found ← block.entryAt offset
  if found.isFull then return found.delta
  else .error (.sharedRestart index found.shared)

def keyAtRestart (block : Block) (index : Nat) : Except Fault (Except Corruption Bytes) := do
  return block.fullKeyAt index (← block.restartPoint index)

def describe (block : Block) : String :=
  "Block \x7b " ++
    s!"size: {block.size}, num_restarts: {block.restarts.size}, comparator: " ++
    String.ofList (Text.quote block.order.name.toList) ++ " \x7d"

end Block

end LsmStore
