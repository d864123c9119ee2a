import LsmStore.Block.Walk

/-!
# Iterators of a block

An iterator hands out the pairs of a block, one with each call.  When it has come to
damage it hands that out, once, and from then on it hands out nothing, as it does when
it has come to the end of the entries.
-/

namespace LsmStore.Block

/-- A cursor that hands out what it comes to. -/
structure Iterator where
  cursor : Cursor
  /-- Whether the end or the damage has been handed out. -/
  done : Bool
  deriving DecidableEq, Repr

/-- What a call hands out: a key with its value, or the damage that stopped the iterator. -/
abbrev Iterator.Item := Except Corruption (Bytes × Bytes)

def iterator (block : Block) : Counted Iterator := do
  return ⟨← block.first, false⟩

namespace Iterator

/-- One call: what is handed out, if there is anything, and the iterator after it. -/
def next (block : Block) (iterator : Iterator) : Counted (Option Item × Iterator) :=
  if iterator.done then return (none, iterator)
  else
    match iterator.cursor with
    | .ended damage => return (damage.map .error, ⟨.ended damage, true⟩)
    | .on position => do
      let key ← block.keyAt position
      let cursor ← (Cursor.on (position.remember key)).advance
      return (some (.ok (key, position.entry.value)), ⟨cursor, false⟩)

/-- What the call with a number hands out, the first of them with number 0. -/
def call (block : Block) (iterator : Iterator) : Nat → Option Item
  | 0 => (iterator.next block).result.1
  | number + 1 => (iterator.next block).result.2.call block number

end Iterator

end LsmStore.Block
