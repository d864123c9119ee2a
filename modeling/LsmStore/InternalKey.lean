import LsmStore.Failure
import LsmStore.Coding.LittleEndian

/-!
# Versions of keys

A user key is stored in many versions.  A version is known by its user key, by
the sequence number of the write that made it, and by the kind of that write.
Its stored form, the internal key, is the user key followed by a tag of eight
bytes: a little-endian number that has the kind in its low byte and the sequence
number in the other seven.
-/

namespace LsmStore

/-- What a write does to its key. -/
inductive Kind where
  | deletion
  | value
  deriving DecidableEq, Repr

namespace Kind

def code : Kind → Nat
  | deletion => 0
  | value => 1

def ofCode? : Nat → Option Kind
  | 0 => some deletion
  | 1 => some value
  | _ => none

/-- The kind with the highest code, which a search asks for so as to miss no version. -/
def forSeek : Kind := value

theorem ofCode?_eq_some_iff
    {n : Nat} {kind : Kind} :
    ofCode? n = some kind ↔ n = kind.code := by
  match n with
  | 0 => cases kind <;> simp [ofCode?, code]
  | 1 => cases kind <;> simp [ofCode?, code]
  | n + 2 => cases kind <;> simp [ofCode?, code]

theorem code_le_forSeek
    (kind : Kind) :
    kind.code ≤ forSeek.code := by
  cases kind <;> decide

end Kind

/-- How many numbers writes can have: 2⁵⁶, as a tag has seven bytes for them. -/
abbrev sequenceCount : Nat := 72057594037927936

abbrev Sequence := Fin sequenceCount

namespace Sequence

/-- A number as a sequence number, refused if it has more than 56 bits. -/
def check (n : Nat) : Except Fault Sequence :=
  if h : n < sequenceCount then .ok ⟨n, h⟩ else .error (.sequenceTooLarge n)

/-- A snapshot as a sequence number: one above them all reads like the last. -/
def clamp (snapshot : Nat) : Sequence :=
  ⟨min snapshot (sequenceCount - 1), by simp only [sequenceCount]; omega⟩

end Sequence

/-- A version of a user key. -/
structure InternalKey where
  userKey : Bytes
  sequence : Sequence
  kind : Kind
  deriving DecidableEq, Repr

namespace InternalKey

def tagSize : Nat := 8

/-- A sequence number and a kind in one number. -/
def tag (sequence : Sequence) (kind : Kind) : Nat :=
  sequence.val * 256 + kind.code

/-- The tag of any number and kind, refused for more than 56 bits. -/
def packTag (sequence : Nat) (kind : Kind) : Except Fault Nat := do
  return tag (← Sequence.check sequence) kind

def make
    (userKey : Bytes) (sequence : Nat) (kind : Kind) :
    Except Fault InternalKey := do
  return ⟨userKey, ← Sequence.check sequence, kind⟩

/-- The number of bytes of an internal key for a user key of that length. -/
def encodedLength (userKeyLength : Nat) : Nat :=
  userKeyLength + tagSize

def encode (key : InternalKey) : Bytes :=
  key.userKey ++ LittleEndian.encode tagSize (tag key.sequence key.kind)

/-- The user key in a stored form, empty if there is not even room for a tag. -/
def userPart (stored : Bytes) : Bytes :=
  stored.take (stored.length - tagSize)

/-- The tag in a stored form, zero if there is no room for it. -/
def tagPart (stored : Bytes) : Nat :=
  if tagSize ≤ stored.length then
    LittleEndian.decode (stored.drop (stored.length - tagSize))
  else 0

theorem tagPart_lt
    (stored : Bytes) :
    tagPart stored < UInt64.size := by
  unfold tagPart
  split
  · rename_i hlong
    refine Nat.lt_of_lt_of_le (LittleEndian.decode_lt _) ?_
    have hsize : (stored.drop (stored.length - tagSize)).length = tagSize := by
      simp
      omega
    rw [hsize]
    decide
  · decide

def decode (stored : Bytes) : Except Corruption InternalKey :=
  if stored.length < tagSize then .error (.shortInternalKey stored.length)
  else
    match Kind.ofCode? (tagPart stored % 256) with
    | none => .error (.unknownKind (tagPart stored % 256))
    | some kind =>
      .ok {
        userKey := userPart stored
        sequence := ⟨tagPart stored / 256, Nat.div_lt_of_lt_mul (tagPart_lt stored)⟩
        kind := kind }

/-- What a search for a key compares with stored versions: its newest version at a snapshot. -/
def probe (userKey : Bytes) (snapshot : Nat) : InternalKey :=
  ⟨userKey, Sequence.clamp snapshot, Kind.forSeek⟩

theorem tag_lt
    (sequence : Sequence) (kind : Kind) :
    tag sequence kind < UInt64.size := by
  have hwhole : UInt64.size = sequenceCount * 256 := rfl
  cases kind <;> simp only [tag, Kind.code] <;> omega

@[simp]
theorem length_encode
    (key : InternalKey) :
    key.encode.length = encodedLength key.userKey.length := by
  simp [encode, encodedLength]

@[simp]
theorem userPart_encode
    (key : InternalKey) :
    userPart key.encode = key.userKey := by
  simp [userPart, encode]

@[simp]
theorem tagPart_encode
    (key : InternalKey) :
    tagPart key.encode = tag key.sequence key.kind := by
  have hsmall := tag_lt key.sequence key.kind
  have hread :=
    LittleEndian.decode_encode_of_lt (show _ < LittleEndian.capacity tagSize from hsmall)
  simp [tagPart, encode, hread]

theorem decode_encode
    (key : InternalKey) :
    decode key.encode = .ok key := by
  have hlong : ¬ key.encode.length < tagSize := by
    simp [encodedLength]
  have hquotient : tag key.sequence key.kind / 256 = key.sequence.val := by
    cases key.kind <;> simp only [tag, Kind.code] <;> omega
  have hremainder : tag key.sequence key.kind % 256 = key.kind.code := by
    cases key.kind <;> simp only [tag, Kind.code] <;> omega
  have hkind := Kind.ofCode?_eq_some_iff.mpr (rfl : key.kind.code = key.kind.code)
  rw [decode, if_neg hlong]
  simp only [tagPart_encode, hremainder, hkind, userPart_encode, hquotient]

end InternalKey

end LsmStore
