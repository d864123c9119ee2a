import LsmStore.InternalKey
import LsmStore.Text.Quoted

/-!
# Orders of keys

A comparator is a three-way comparison of byte strings with a name.  Nothing
makes it an order: what holds only for orders is stated under `Std.TransCmp`.
From the order of the user keys comes the order of internal keys, in which the
versions of a key lie together and the newest comes first.
-/

namespace LsmStore

/-- A named three-way comparison of byte strings. -/
structure Comparator where
  name : String
  compare : Bytes → Bytes → Ordering

namespace Comparator

def bytewise : Comparator :=
  ⟨"lessdb.BytewiseComparator", Bytes.compareBytewise⟩

/-- The opposite of a comparator, under a name of its own. -/
def reversed (name : String) (order : Comparator) : Comparator :=
  ⟨name, fun a b => order.compare b a⟩

/-- User keys in their order, and the versions of equivalent keys from the highest tag down. -/
def internal (user : Comparator) : Comparator where
  name := "lessdb.InternalKeyComparator"
  compare a b :=
    (user.compare (InternalKey.userPart a) (InternalKey.userPart b)).then
      (Ord.compare (InternalKey.tagPart b) (InternalKey.tagPart a))

end Comparator

/-- The order of internal keys over an order of user keys. -/
structure InternalOrder where
  user : Comparator

namespace InternalOrder

def bytewise : InternalOrder := ⟨Comparator.bytewise⟩

def toComparator (order : InternalOrder) : Comparator :=
  order.user.internal

def describe (order : InternalOrder) : String :=
  "InternalKeyComparator \x7b user: " ++
    String.ofList (Text.quote order.user.name.toList) ++ " \x7d"

end InternalOrder

end LsmStore
