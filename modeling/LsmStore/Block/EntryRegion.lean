import LsmStore.Bytes

/-!
# Entry regions

Entries are read one after the other, but a search jumps to the middle of them.
So a region keeps, beside its bytes, what follows each position, and its size.
Both are found without walking through the bytes, and the two main statements
say that they are what a walk would find.
-/

namespace LsmStore.Block

/-- Every suffix of a byte string, the longest first, behind some that were found before. -/
def suffixes (found : Array Bytes) : Bytes → Array Bytes
  | [] => found.push []
  | bytes@(_ :: rest) => suffixes (found.push bytes) rest

theorem getElem?_suffixes
    (found : Array Bytes) (bytes : Bytes) (position : Nat) :
    (suffixes found bytes)[position]? =
      if position < found.size then found[position]?
      else if position - found.size ≤ bytes.length then some (bytes.drop (position - found.size))
      else none := by
  induction bytes generalizing found with
  | nil =>
    rw [suffixes, Array.getElem?_push]
    rcases Nat.lt_trichotomy position found.size with hbefore | hsame | hafter
    · simp [hbefore, Nat.ne_of_lt hbefore]
    · simp [hsame]
    · have hapart : ¬ position - found.size ≤ 0 := by omega
      simp [Nat.ne_of_gt hafter, Nat.not_lt_of_gt hafter, hapart]
  | cons byte bytes ih =>
    rw [suffixes, ih, Array.size_push, Array.getElem?_push]
    rcases Nat.lt_trichotomy position found.size with hbefore | hsame | hafter
    · simp [hbefore, Nat.ne_of_lt hbefore, Nat.lt_succ_of_lt hbefore]
    · simp [hsame]
    · have hbehind : ¬ position < found.size + 1 := by omega
      have hstep : position - found.size = position - (found.size + 1) + 1 := by omega
      simp [hbehind, Nat.not_lt_of_gt hafter, hstep]

theorem size_suffixes
    (found : Array Bytes) (bytes : Bytes) :
    (suffixes found bytes).size = found.size + bytes.length + 1 := by
  induction bytes generalizing found with
  | nil => simp [suffixes]
  | cons byte bytes ih =>
    rw [suffixes, ih, Array.size_push, List.length_cons]
    omega

/-- Bytes that can be entered at any position. -/
structure EntryRegion where
  bytes : Bytes
  /-- What follows each position, the end included. -/
  tails : Array Bytes
  tails_eq : tails = suffixes #[] bytes
  deriving DecidableEq, Repr

namespace EntryRegion

def ofBytes (bytes : Bytes) : EntryRegion :=
  ⟨bytes, suffixes #[] bytes, rfl⟩

def size (region : EntryRegion) : Nat :=
  region.tails.size - 1

/-- What follows a position; nothing follows the end or a position behind it. -/
def dropTo (region : EntryRegion) (position : Nat) : Bytes :=
  region.tails[position]?.getD []

@[simp]
theorem size_eq
    (region : EntryRegion) :
    region.size = region.bytes.length := by
  rw [size, region.tails_eq, size_suffixes]
  simp

@[simp]
theorem dropTo_eq
    (region : EntryRegion) (position : Nat) :
    region.dropTo position = region.bytes.drop position := by
  rw [dropTo, region.tails_eq, getElem?_suffixes]
  by_cases hinside : position ≤ region.bytes.length
  · simp [hinside]
  · simp [hinside, List.drop_of_length_le (Nat.le_of_not_le hinside)]

end EntryRegion

end LsmStore.Block
