/-!
# Numbered slots

Cursors that stay alive through a session are kept under numbers.
-/

namespace LsmStore

/-- A value under every number. -/
structure Slots (Value : Type) where
  get : Nat → Value

namespace Slots

def fill (value : Value) : Slots Value :=
  ⟨fun _ => value⟩

def set (slots : Slots Value) (slot : Nat) (value : Value) : Slots Value :=
  ⟨fun other => if other = slot then value else slots.get other⟩

@[simp]
theorem get_fill
    (value : Value) (slot : Nat) :
    (fill value).get slot = value :=
  rfl

theorem get_set
    (slots : Slots Value) (slot other : Nat) (value : Value) :
    (slots.set slot value).get other = if other = slot then value else slots.get other :=
  rfl

@[simp]
theorem set_get
    (slots : Slots Value) (slot : Nat) :
    slots.set slot (slots.get slot) = slots := by
  cases slots with
  | mk get =>
    rw [set, mk.injEq]
    funext other
    by_cases hother : other = slot
    · rw [if_pos hother, hother]
    · rw [if_neg hother]

end Slots

end LsmStore
