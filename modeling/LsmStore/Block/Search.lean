import LsmStore.Block.Cursor

/-!
# Searching a block

A search for a key first finds, by bisection, the last restart point whose key is
not greater than the target, and then walks from there to the first entry whose
key is not less than it.  The first restart point is never looked at in the
bisection, as the search would start there in any case.  Damage that the search
meets on its way leaves the cursor at the end and is told.
-/

namespace LsmStore.Block

/-- Bisects the restart points from `left` up to, not including, `right`. -/
def bisect
    (block : Block) (target : Bytes) (left right : Nat)
    (hnonempty : left < right) (hbound : right ≤ block.restarts.size) :
    Except Corruption (Fin block.restarts.size) :=
  if hseveral : 1 < right - left then
    let middle := left + (right - left) / 2
    match block.fullKeyAt middle block.restarts[middle] with
    | .error cause => .error cause
    | .ok key =>
      if block.order.compare key target = .gt then
        block.bisect target left middle (by omega) (by omega)
      else block.bisect target middle right (by omega) hbound
  else .ok ⟨left, by omega⟩
termination_by right - left

/-- The index of the restart point at which a search starts, if there is anything to search. -/
def startIndex? (block : Block) (target : Bytes) :
    Option (Except Corruption (Fin block.restarts.size)) :=
  if husable : 0 < block.restarts.size ∧ 0 < block.entries.size then
    some (block.bisect target 0 block.restarts.size husable.1 (Nat.le_refl _))
  else none

theorem startIndex?_of_usable
    {block : Block} (husable : 0 < block.restarts.size ∧ 0 < block.entries.size)
    (target : Bytes) :
    block.startIndex? target =
      some (block.bisect target 0 block.restarts.size husable.1 (Nat.le_refl _)) :=
  dif_pos husable

theorem startIndex?_of_not_usable
    {block : Block} (hunusable : ¬ (0 < block.restarts.size ∧ 0 < block.entries.size))
    (target : Bytes) :
    block.startIndex? target = none :=
  dif_neg hunusable

/-- Walks to the first entry, from a position on, whose key is not less than the target. -/
def scan (block : Block) (target : Bytes) (position : Position) : Counted Cursor := do
  let key ← block.keyAt position
  if block.order.compare key target = .lt then
    match hmoved : (position.remember key).advance with
    | .ended damage => return .ended damage
    | .on next => do
      have := Position.length_rest_of_advance_remember hmoved
      Counted.tick
      block.scan target next
  else return .on (position.remember key)
termination_by position.rest.length

theorem scan_eq
    (block : Block) (target : Bytes) (position : Position) :
    block.scan target position = do
      let key ← block.keyAt position
      if block.order.compare key target = .lt then
        match (position.remember key).advance with
        | .ended damage => return .ended damage
        | .on next => do
          Counted.tick
          block.scan target next
      else return .on (position.remember key) := by
  rw [scan]
  congr
  funext key
  split
  · split <;> rename_i hmoved <;> simp [hmoved]
  · rfl

def scanFrom (block : Block) (target : Bytes) (index offset : Nat) : Counted Cursor :=
  if block.entries.size ≤ offset then return .ended (some (.restartPastEntries index))
  else do
    match ← block.startAt offset with
    | .ended damage => return .ended damage
    | .on position => block.scan target position

/-- The cursor on the first entry whose key is not less than a target. -/
def lowerBound (block : Block) (target : Bytes) : Counted Cursor :=
  match block.startIndex? target with
  | none => return .ended none
  | some (.error cause) => return .ended (some cause)
  | some (.ok index) => block.scanFrom target index block.restarts[index]

/-- The cursor on the entry whose key is equivalent to a target, or at the end; damage is told. -/
def find (block : Block) (target : Bytes) : Counted Cursor := do
  match ← block.lowerBound target with
  | .ended damage => return .ended damage
  | .on position =>
    let key ← block.keyAt position
    if block.order.compare key target = .eq then return .on (position.remember key)
    else return .ended none

end LsmStore.Block
