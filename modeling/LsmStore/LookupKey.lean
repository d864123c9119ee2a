import LsmStore.InternalKey
import LsmStore.Coding.LengthPrefixed

/-!
# Lookup keys

To read a key as of a snapshot, a search looks for the newest version that the
snapshot can see.  The lookup key holds that version in its stored form, and can
show it in the way in which a record of a memtable begins.
-/

namespace LsmStore

structure LookupKey where
  /-- The stored form of the version that is looked for. -/
  internalKey : Bytes
  deriving DecidableEq, Repr

namespace LookupKey

/-- The probe for a user key; snapshots above all sequence numbers see everything. -/
def ofSnapshot (userKey : Bytes) (snapshot : Nat) : LookupKey :=
  ⟨(InternalKey.probe userKey snapshot).encode⟩

/-- The internal key behind its length, as at the front of a record. -/
def memtableKey (key : LookupKey) : Bytes :=
  LengthPrefixed.encode key.internalKey

def userKey (key : LookupKey) : Bytes :=
  InternalKey.userPart key.internalKey

theorem userKey_ofSnapshot
    (userKey : Bytes) (snapshot : Nat) :
    (ofSnapshot userKey snapshot).userKey = userKey :=
  InternalKey.userPart_encode _

end LookupKey

end LsmStore
