/-!
# Tower heights

Every element of a tower list stands in a tower of one to twelve levels.  The
heights are drawn once for each element, and a tower grows by one more level in
one case of four.  No answer of a list depends on them.
-/

namespace LsmStore

/-- The most levels that a tower has. -/
def Height.maxLevels : Nat := 12

/-- The number of levels of a tower. -/
structure Height where
  levels : Nat
  pos : 0 < levels
  le_max : levels ≤ Height.maxLevels
  deriving DecidableEq, Repr

namespace Height

/-- How often the two low bits are zero before they are not, at most `limit` times. -/
def zeroPairs : Nat → UInt64 → Nat
  | 0, _ => 0
  | limit + 1, bits => if bits % 4 = 0 then zeroPairs limit (bits / 4) + 1 else 0

theorem zeroPairs_le
    (limit : Nat) (bits : UInt64) :
    zeroPairs limit bits ≤ limit := by
  induction limit generalizing bits with
  | zero => simp [zeroPairs]
  | succ limit ih =>
    unfold zeroPairs
    split
    · exact Nat.succ_le_succ (ih _)
    · exact Nat.zero_le _

/-- Scatters the bits of a word, so that consecutive words give unrelated results. -/
def scatter (word : UInt64) : UInt64 :=
  let word := (word ^^^ (word >>> 30)) * 0xbf58476d1ce4e5b9
  let word := (word ^^^ (word >>> 27)) * 0x94d049bb133111eb
  word ^^^ (word >>> 31)

/-- The height of the tower that is drawn as number `index` from a seed. -/
def draw (seed : UInt64) (index : Nat) : Height where
  levels := zeroPairs 11 (scatter (seed + (index + 1).toUInt64 * 0x9e3779b97f4a7c15)) + 1
  pos := Nat.succ_pos _
  le_max := Nat.succ_le_succ (zeroPairs_le _ _)

end Height

end LsmStore
