import LsmStore.Block.Iterator
import LsmStore.Proofs.Block.LazyKeys

/-!
# What an iterator hands out

An iterator moves a cursor of its own, and it asks for the key of each entry that it
comes to.  So its calls hand out the pairs of the walk before that cursor, one after the
other, then the damage if there is any, and from then on nothing.
-/

namespace LsmStore.Block

variable {block : Block}

/-- What an iterator hands out along a walk: its pairs, and then the damage if there is any. -/
def Walk.items (walk : Walk) : List Iterator.Item :=
  walk.visits.map (fun visit => .ok (visit.key, visit.value)) ++ walk.damage?.toList.map .error

theorem Walk.forall_error_not_mem_items_iff
    (walk : Walk) :
    (∀ cause, .error cause ∉ walk.items) ↔ walk.damage? = none := by
  cases hdamage : walk.damage? <;> simp [items, hdamage]

namespace Iterator

theorem call_of_done
    (block : Block) (cursor : Cursor) (number : Nat) :
    Iterator.call block ⟨cursor, true⟩ number = none := by
  induction number with
  | zero => rfl
  | succ number ih => exact ih

end Iterator

/-- Calls hand out the items of the walk before the cursor one after the other, and nothing when
these are used up. -/
theorem Cursor.Shows.call_eq
    {cursor : Cursor} {walk : Walk} (h : cursor.Shows block walk) (number : Nat) :
    Iterator.call block ⟨cursor, false⟩ number = walk.items[number]? := by
  obtain ⟨visits, damage?⟩ := walk
  induction visits generalizing cursor number with
  | nil =>
    rw [h.eq_ended]
    cases number with
    | zero => cases damage? <;> rfl
    | succ number =>
      have hdone := Iterator.call_of_done block (.ended damage?) number
      have hnothing : (⟨[], damage?⟩ : Walk).items[number + 1]? = none := by
        cases damage? <;> simp [Walk.items]
      rw [hnothing]
      exact hdone
  | cons visit visits ih =>
    obtain ⟨position, previous, rfl, hfollows, rfl, hwalk⟩ := h.exists_on
    have hkey := hfollows.keyAt_eq
    cases number with
    | zero =>
      show some (Except.ok ((block.keyAt position).result, position.entry.value)) = _
      rw [hkey]
      rfl
    | succ number =>
      have hkept := hfollows.remember_shows
      rw [← hwalk, ← hkey] at hkept
      exact ih number hkept.advance

theorem call_iterator
    (block : Block) (number : Nat) :
    block.iterator.result.call block number = block.walk.result.items[number]? := by
  rw [walk_eq]
  exact (startAt_shows block 0).call_eq number

theorem forall_call_iterator_ne_error_iff
    (block : Block) :
    (∀ number cause, block.iterator.result.call block number ≠ some (.error cause)) ↔
      block.walk.result.damage? = none := by
  rw [← Walk.forall_error_not_mem_items_iff, forall_comm]
  refine forall_congr' fun cause => ?_
  simp only [call_iterator, List.mem_iff_getElem?, not_exists, ne_eq]

end LsmStore.Block
