import LsmStore.MemTable.Record

/-!
# Lawful comparisons

A comparison is lawful if it comes from a total preorder, which is what `Std.TransCmp`
says.  The bytewise order is lawful, and a lawful order of user keys makes the orders
of internal keys and of records lawful.
-/

namespace LsmStore

open Std

theorem transCmp_comap
    {α β : Type} (cmp : β → β → Ordering) [TransCmp cmp] (f : α → β) :
    TransCmp fun a b => cmp (f a) (f b) where
  eq_swap {a b} := OrientedCmp.eq_swap (a := f a) (b := f b)
  isLE_trans {a b c} := @TransCmp.isLE_trans _ cmp _ (f a) (f b) (f c)

instance transCmp_compareBy
    (fold : UInt8 → UInt8) :
    TransCmp (Bytes.compareBy fold) := by
  have hcompare : Bytes.compareBy fold = fun a b => compare (a.map fold) (b.map fold) := by
    funext a b
    exact Bytes.compareBy_eq fold a b
  rw [hcompare]
  exact transCmp_comap (fun a b : Bytes => compare a b) (List.map fold)

instance transCmp_bytewise : TransCmp Comparator.bytewise.compare :=
  transCmp_compareBy id

instance transCmp_caseless : TransCmp Bytes.compareCaseless :=
  transCmp_compareBy Bytes.foldByte

theorem transCmp_versions
    {α : Type} (user : Bytes → Bytes → Ordering) [TransCmp user]
    (userKey : α → Bytes) (tag : α → Nat) :
    TransCmp fun a b => (user (userKey a) (userKey b)).then (compare (tag b) (tag a)) := by
  have := transCmp_comap user userKey
  have := transCmp_comap (fun m n : Nat => compare n m) tag
  exact inferInstanceAs <| TransCmp <|
    compareLex (fun a b => user (userKey a) (userKey b)) fun a b => compare (tag b) (tag a)

instance transCmp_internal
    (user : Comparator) [TransCmp user.compare] :
    TransCmp user.internal.compare :=
  transCmp_versions user.compare InternalKey.userPart InternalKey.tagPart

instance transCmp_toComparator
    (order : InternalOrder) [TransCmp order.user.compare] :
    TransCmp order.toComparator.compare :=
  transCmp_internal order.user

instance transCmp_record
    (order : InternalOrder) [TransCmp order.user.compare] :
    TransCmp (Record.compare order) :=
  transCmp_versions order.user.compare Record.userKey Record.tag

end LsmStore
