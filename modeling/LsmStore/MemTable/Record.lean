import LsmStore.Comparator
import LsmStore.LookupKey

/-!
# Records of a memtable

A write becomes one contiguous record: the internal key behind its length, and
then the value behind its length.  What is read back from a record is a version
of a key with its value.  A memtable compares records many times, so it keeps the
parts of the internal key beside the bytes of a record.
-/

namespace LsmStore

/-- A request to store a value for a key, or to delete it, under a sequence number. -/
structure Write where
  sequence : Nat
  kind : Kind
  key : Bytes
  value : Bytes
  deriving DecidableEq, Repr

namespace Write

/-- Whether a write has a record: its number fits a tag and its lengths fit a prefix. -/
def Recordable (write : Write) : Prop :=
  write.sequence < sequenceCount ∧
    InternalKey.encodedLength write.key.length < UInt32.size ∧
    write.value.length < UInt32.size

/-- The number of bytes of the record of a write, refused if a length does not fit its prefix. -/
def recordLength (write : Write) : Except Fault Nat :=
  let keyLength := InternalKey.encodedLength write.key.length
  let valueLength := write.value.length
  if UInt32.size ≤ keyLength then .error (.keyTooLong write.key.length)
  else if UInt32.size ≤ valueLength then .error (.valueTooLong valueLength)
  else
    .ok (Var32.length keyLength.toUInt32 + keyLength +
      Var32.length valueLength.toUInt32 + valueLength)

end Write

structure Version where
  /-- The stored form of the internal key. -/
  stored : Bytes
  /-- The user key, sequence number and kind that it stands for. -/
  key : InternalKey
  /-- The value, normally empty for a deletion. -/
  value : Bytes
  deriving DecidableEq, Repr

namespace Record

/-- The bytes of the record of a version and its value. -/
def encode (key : InternalKey) (value : Bytes) : Bytes :=
  LengthPrefixed.encode key.encode ++ LengthPrefixed.encode value

/-- The stored internal key at the front of a record, empty if the record is damaged there. -/
def internalKey (bytes : Bytes) : Bytes :=
  match LengthPrefixed.decode bytes with
  | .ok (stored, _) => stored
  | .error _ => []

end Record

/-- A record with the parts of the internal key at its front. -/
structure Record where
  bytes : Bytes
  userKey : Bytes
  tag : Nat
  userKey_eq : userKey = InternalKey.userPart (Record.internalKey bytes)
  tag_eq : tag = InternalKey.tagPart (Record.internalKey bytes)
  deriving DecidableEq, Repr

namespace Record

def ofBytes (bytes : Bytes) : Record :=
  let stored := internalKey bytes
  ⟨bytes, InternalKey.userPart stored, InternalKey.tagPart stored, rfl, rfl⟩

/-- The order of the internal keys of records. -/
def compare (order : InternalOrder) (a b : Record) : Ordering :=
  (order.user.compare a.userKey b.userKey).then (Ord.compare b.tag a.tag)

theorem compare_eq
    (order : InternalOrder) (a b : Record) :
    compare order a b =
      order.toComparator.compare (internalKey a.bytes) (internalKey b.bytes) := by
  rw [compare, a.userKey_eq, b.userKey_eq, a.tag_eq, b.tag_eq]
  rfl

def decode (bytes : Bytes) : Except Corruption Version := do
  let (stored, rest) ← LengthPrefixed.decode bytes
  let key ← InternalKey.decode stored
  let (value, _) ← LengthPrefixed.decode rest
  return ⟨stored, key, value⟩

/-- The version in a record that the library has written itself. -/
def version (record : Record) : Except Fault Version :=
  (decode record.bytes).mapError .unreadableRecord

/-- The internal key at the front is found whatever follows it. -/
theorem internalKey_encode_append
    {stored : Bytes}
    (hfits : stored.length < UInt32.size) (rest : Bytes) :
    internalKey (LengthPrefixed.encode stored ++ rest) = stored := by
  rw [internalKey, LengthPrefixed.decode_encode hfits]

theorem decode_encode
    {key : InternalKey} {value : Bytes}
    (hkey : InternalKey.encodedLength key.userKey.length < UInt32.size)
    (hvalue : value.length < UInt32.size) :
    decode (encode key value) = .ok ⟨key.encode, key, value⟩ := by
  have hstored : key.encode.length < UInt32.size := by simpa using hkey
  have hkeyRead := LengthPrefixed.decode_encode hstored (LengthPrefixed.encode value)
  have hvalueRead := LengthPrefixed.decode_encode hvalue []
  rw [List.append_nil] at hvalueRead
  simp only [decode, encode, hkeyRead, hvalueRead, InternalKey.decode_encode, bind, Except.bind,
    pure, Except.pure]

/-- The record of a write has the length that was computed for it. -/
theorem length_encode
    {write : Write} {key : InternalKey} {length : Nat}
    (hsame : key.userKey = write.key) (hcomputed : write.recordLength = .ok length) :
    (encode key write.value).length = length := by
  unfold Write.recordLength at hcomputed
  simp only at hcomputed
  split at hcomputed
  · cases hcomputed
  · split at hcomputed
    · cases hcomputed
    · cases hcomputed
      simp only [encode, LengthPrefixed.encode, List.length_append, Var32.length_encode,
        InternalKey.length_encode, hsame]
      omega

end Record

end LsmStore
