/-!
# Byte strings

Keys, values, records and files are all finite byte strings.  They are kept as
lists, so that a decoder is a function from an input to an item and the part of
the input that follows the item.
-/

namespace LsmStore

/-- A finite byte string. -/
abbrev Bytes := List UInt8

namespace Bytes

/-- The first `n` bytes and what follows them, if there are that many. -/
def split? (n : Nat) (bytes : Bytes) : Option (Bytes × Bytes) :=
  let (front, rest) := bytes.splitAt n
  if front.length = n then some (front, rest) else none

theorem split?_eq
    (n : Nat) (bytes : Bytes) :
    split? n bytes =
      if n ≤ bytes.length then some (bytes.take n, bytes.drop n) else none := by
  have henough : (bytes.take n).length = n ↔ n ≤ bytes.length := by
    rw [List.length_take]
    omega
  simp only [split?, List.splitAt_eq, henough]

/-- What follows the first `n` bytes, if there are that many. -/
def skip? : Nat → Bytes → Option Bytes
  | 0, bytes => some bytes
  | _ + 1, [] => none
  | n + 1, _ :: bytes => skip? n bytes

theorem skip?_eq
    (n : Nat) (bytes : Bytes) :
    skip? n bytes = if n ≤ bytes.length then some (bytes.drop n) else none := by
  induction n generalizing bytes with
  | zero => simp [skip?]
  | succ n ih => cases bytes <;> simp [skip?, ih]

theorem skip?_eq_some_iff
    {n : Nat} {bytes rest : Bytes} :
    skip? n bytes = some rest ↔ ∃ front, bytes = front ++ rest ∧ front.length = n := by
  rw [skip?_eq]
  constructor
  · intro h
    split at h
    · rename_i hlong
      cases h
      exact ⟨bytes.take n, by simp, by simp [hlong]⟩
    · cases h
  · rintro ⟨front, rfl, rfl⟩
    simp

theorem split?_eq_some_iff
    {n : Nat} {bytes front rest : Bytes} :
    split? n bytes = some (front, rest) ↔ bytes = front ++ rest ∧ front.length = n := by
  rw [split?_eq]
  constructor
  · intro h
    split at h
    · rename_i hn
      obtain ⟨rfl, rfl⟩ := Prod.mk.inj (Option.some.inj h)
      simp [hn]
    · cases h
  · rintro ⟨rfl, rfl⟩
    simp

theorem split?_eq_none_iff
    {n : Nat} {bytes : Bytes} :
    split? n bytes = none ↔ bytes.length < n := by
  rw [split?_eq]
  split <;> simp <;> omega

def hexPair (byte : UInt8) : List Char :=
  [Nat.digitChar (byte.toNat / 16), Nat.digitChar (byte.toNat % 16)]

/-- Two lowercase hexadecimal digits for each byte. -/
def hex (bytes : Bytes) : List Char :=
  bytes.flatMap hexPair

/-- The decimal values of the bytes, in square brackets and separated by commas. -/
def describe (bytes : Bytes) : String :=
  "[" ++ String.intercalate ", " (bytes.map fun byte => toString byte.toNat) ++ "]"

/-- Lexicographic order by what a function makes of each byte. -/
@[specialize]
def compareBy (fold : UInt8 → UInt8) : Bytes → Bytes → Ordering
  | [], [] => .eq
  | [], _ :: _ => .lt
  | _ :: _, [] => .gt
  | a :: as, b :: bs =>
    if fold a < fold b then .lt
    else if fold b < fold a then .gt
    else compareBy fold as bs

theorem compareBy_eq
    (fold : UInt8 → UInt8) (a b : Bytes) :
    compareBy fold a b = compare (a.map fold) (b.map fold) := by
  induction a generalizing b with
  | nil => cases b <;> rfl
  | cons a as ih =>
    cases b with
    | nil => rfl
    | cons b bs =>
      rw [compareBy, List.map_cons, List.map_cons, List.compare_eq_compareLex,
        List.compareLex_cons_cons, ← List.compare_eq_compareLex, ← ih bs]
      have hcompare : compare (fold a) (fold b) =
          if fold a < fold b then .lt else if fold a = fold b then .eq else .gt := rfl
      rw [hcompare]
      by_cases hless : fold a < fold b
      · simp [hless]
      · by_cases hgreater : fold b < fold a
        · have hdifferent : fold a ≠ fold b := fun hsame => UInt8.lt_irrefl _ (hsame ▸ hgreater)
          simp [hless, hgreater, hdifferent]
        · have hsame : fold a = fold b :=
            UInt8.le_antisymm (UInt8.not_lt.mp hgreater) (UInt8.not_lt.mp hless)
          simp [hsame]

def compareBytewise (a b : Bytes) : Ordering :=
  compareBy id a b

/-- An ASCII capital letter as its small letter, any other byte as itself. -/
def foldByte (byte : UInt8) : UInt8 :=
  if 65 ≤ byte ∧ byte ≤ 90 then byte + 32 else byte

/-- Bytewise order that does not tell ASCII capitals from small letters. -/
def compareCaseless (a b : Bytes) : Ordering :=
  compareBy foldByte a b

theorem compareBytewise_eq
    (a b : Bytes) :
    compareBytewise a b = compare a b := by
  rw [compareBytewise, compareBy_eq, List.map_id, List.map_id]

/-- Shorter strings first, strings of one length bytewise. -/
def compareShortlex (a b : Bytes) : Ordering :=
  (compare a.length b.length).then (compareBytewise a b)

end Bytes

end LsmStore
