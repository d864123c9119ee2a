import LsmStore.Coding.Var32

/-!
# Entries of a block

An entry is written as three numbers and two byte strings: how many bytes its key
shares with the key before it, how many bytes of its own the key has, how long the
value is, then the key bytes of its own and then the value.  Entries follow each
other without gaps.
-/

namespace LsmStore.Block

/-- An entry as it is stored: the key is only known together with the key before it. -/
structure Entry where
  /-- How many bytes the key takes over from the key before it. -/
  shared : Nat
  /-- The key bytes behind those. -/
  delta : Bytes
  value : Bytes
  deriving DecidableEq, Repr

namespace Entry

/-- The key of an entry that follows a given key. -/
def keyAfter (entry : Entry) (previous : Bytes) : Bytes :=
  previous.take entry.shared ++ entry.delta

/-- An entry that was found in a region; its key and its value are not copied out of it. -/
structure Found where
  /-- How many bytes the key takes over from the key before it. -/
  shared : Nat
  /-- How many bytes of its own the key has. -/
  deltaLength : Nat
  valueLength : Nat
  /-- The region from the key bytes of its own on. -/
  payload : Bytes
  /-- The number of bytes that the entry takes. -/
  size : Nat
  /-- The region behind the entry. -/
  rest : Bytes
  deriving DecidableEq, Repr

namespace Found

def delta (found : Found) : Bytes :=
  found.payload.take found.deltaLength

def value (found : Found) : Bytes :=
  (found.payload.drop found.deltaLength).take found.valueLength

def entry (found : Found) : Entry :=
  ⟨found.shared, found.delta, found.value⟩

/-- Whether the whole key is stored. -/
def isFull (found : Found) : Bool :=
  found.shared == 0

/-- The key, if the entry follows a given key. -/
def keyAfter (found : Found) (previous : Bytes) : Bytes :=
  previous.take found.shared ++ found.delta

def keyLength (found : Found) : Nat :=
  found.shared + found.deltaLength

@[simp]
theorem keyAfter_entry
    (found : Found) (previous : Bytes) :
    found.entry.keyAfter previous = found.keyAfter previous :=
  rfl

end Found

/-- Reads the entry at the front of a region, which lies at `offset` in its block. -/
def read (offset : Nat) (region : Bytes) : Except Corruption Found := do
  let (shared, afterShared) ← Var32.decode region
  let (unshared, afterUnshared) ← Var32.decode afterShared
  let (valueLength, payload) ← Var32.decode afterUnshared
  let claimed := unshared.toNat + valueLength.toNat
  match Bytes.skip? claimed payload with
  | none => .error (.entryOverrun offset claimed payload.length)
  | some rest =>
    return {
      shared := shared.toNat
      deltaLength := unshared.toNat
      valueLength := valueLength.toNat
      payload := payload
      size := Var32.span region + Var32.span afterShared + Var32.span afterUnshared + claimed
      rest := rest }

/-- An entry takes at least three bytes, and what follows it is all the rest of the region. -/
theorem length_eq_of_read
    {offset : Nat} {region : Bytes} {found : Found}
    (h : read offset region = .ok found) :
    region.length = found.size + found.rest.length ∧ 3 ≤ found.size := by
  unfold read at h
  cases hs : Var32.decode region with
  | error cause => simp [hs, bind, Except.bind] at h
  | ok first =>
    obtain ⟨shared, afterShared⟩ := first
    cases hu : Var32.decode afterShared with
    | error cause => simp [hs, hu, bind, Except.bind] at h
    | ok second =>
      obtain ⟨unshared, afterUnshared⟩ := second
      cases hv : Var32.decode afterUnshared with
      | error cause => simp [hs, hu, hv, bind, Except.bind] at h
      | ok third =>
        obtain ⟨valueLength, payload⟩ := third
        cases hp : Bytes.skip? (unshared.toNat + valueLength.toNat) payload with
        | none => simp [hs, hu, hv, hp, bind, Except.bind] at h
        | some rest =>
          simp only [hs, hu, hv, hp, bind, Except.bind, pure, Except.pure,
            Except.ok.injEq] at h
          subst h
          obtain ⟨front, rfl, hsize⟩ := Bytes.skip?_eq_some_iff.mp hp
          have hspanShared := Var32.length_eq_of_decode hs
          have hspanUnshared := Var32.length_eq_of_decode hu
          have hspanValue := Var32.length_eq_of_decode hv
          have hshorter := Var32.decode_shortens hs
          have hshorterStill := Var32.decode_shortens hu
          have hshortest := Var32.decode_shortens hv
          simp only [List.length_append] at *
          constructor <;> omega

theorem read_shortens
    {offset : Nat} {region : Bytes} {found : Found}
    (h : read offset region = .ok found) :
    found.rest.length < region.length := by
  have := length_eq_of_read h
  omega

end Entry

end LsmStore.Block
