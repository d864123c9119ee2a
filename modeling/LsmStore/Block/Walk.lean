import LsmStore.Block.Search

/-!
# Walks through a block

A walk visits the entries from a cursor on, with their keys, until it comes to the
end or meets damage.
-/

namespace LsmStore.Block

structure Visit where
  offset : Nat
  key : Bytes
  value : Bytes
  deriving DecidableEq, Repr

/-- The entries that a walk visited, and the damage that stopped it. -/
structure Walk where
  visits : List Visit
  damage? : Option Corruption
  deriving DecidableEq, Repr

def walkOn (block : Block) (position : Position) : Counted Walk := do
  let key ← block.keyAt position
  let visit : Visit := ⟨position.offset, key, position.entry.value⟩
  match hmoved : (position.remember key).advance with
  | .ended damage => return ⟨[visit], damage⟩
  | .on next => do
    have := Position.length_rest_of_advance_remember hmoved
    Counted.tick
    let walk ← block.walkOn next
    return { walk with visits := visit :: walk.visits }
termination_by position.rest.length

theorem walkOn_eq
    (block : Block) (position : Position) :
    block.walkOn position = do
      let key ← block.keyAt position
      let visit : Visit := ⟨position.offset, key, position.entry.value⟩
      match (position.remember key).advance with
      | .ended damage => return ⟨[visit], damage⟩
      | .on next => do
        Counted.tick
        let walk ← block.walkOn next
        return { walk with visits := visit :: walk.visits } := by
  rw [walkOn]
  congr
  funext key
  simp only
  split <;> rename_i hmoved <;> simp [hmoved]

def walkFrom (block : Block) : Cursor → Counted Walk
  | .ended damage => return ⟨[], damage⟩
  | .on position => block.walkOn position

def walk (block : Block) : Counted Walk := do
  block.walkFrom (← block.first)

end LsmStore.Block
