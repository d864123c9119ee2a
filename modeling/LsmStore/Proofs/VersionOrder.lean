import LsmStore.Proofs.Comparator

/-!
# The order of versions

Internal keys are compared as byte strings, from which the tag is cut off at the end.
Whatever the tags are, this is a lawful order in which two internal keys are equivalent
exactly if their user keys are and their tags are the same bytes.  The tag has the number of
a write above its kind and is compared the other way round.  So of the versions of a key
the one with the higher number comes first, and under one number a value comes before a
deletion.
-/

namespace LsmStore

open Std

theorem LittleEndian.decode_eq_decode_iff
    {a b : Bytes} (hwidth : a.length = b.length) :
    decode a = decode b ↔ a = b := by
  constructor
  · intro hsame
    rw [← encode_decode a, ← encode_decode b, hwidth, hsame]
  · rintro rfl
    rfl

/-- Under one number a value comes before a deletion. -/
def Kind.compare : Kind → Kind → Ordering
  | value, deletion => .lt
  | deletion, value => .gt
  | value, value | deletion, deletion => .eq

namespace InternalKey

/-- The bytes of the tag in a stored form. -/
def tagBytes (stored : Bytes) : Bytes :=
  stored.drop (stored.length - tagSize)

/-- The order of versions: by user key, then the higher number first, then by kind. -/
def compare (user : Comparator) (key other : InternalKey) : Ordering :=
  (user.compare key.userKey other.userKey).then
    ((Ord.compare other.sequence.val key.sequence.val).then (key.kind.compare other.kind))

theorem tagPart_eq_tagPart_iff
    {a b : Bytes} (ha : tagSize ≤ a.length) (hb : tagSize ≤ b.length) :
    tagPart a = tagPart b ↔ tagBytes a = tagBytes b := by
  have hwidth : (tagBytes a).length = (tagBytes b).length := by
    rw [tagBytes, tagBytes, List.length_drop, List.length_drop]
    omega
  rw [tagPart, tagPart, if_pos ha, if_pos hb]
  exact LittleEndian.decode_eq_decode_iff hwidth

/-- Tags that are compared the other way round tell the higher number first. -/
theorem compare_tag
    (sequence other : Sequence) (kind otherKind : Kind) :
    Ord.compare (tag other otherKind) (tag sequence kind) =
      (Ord.compare other.val sequence.val).then (kind.compare otherKind) := by
  have hcode : kind.code ≤ 1 := kind.code_le_forSeek
  have hotherCode : otherKind.code ≤ 1 := otherKind.code_le_forSeek
  rcases Nat.lt_trichotomy other.val sequence.val with hless | hsame | hgreater
  · have htags : tag other otherKind < tag sequence kind := by
      simp only [tag]
      omega
    rw [Nat.compare_eq_lt.mpr htags, Nat.compare_eq_lt.mpr hless]
    rfl
  · rw [tag, tag, hsame, Nat.compare_eq_eq.mpr rfl]
    cases kind <;> cases otherKind <;>
      simp [Kind.code, Kind.compare, Nat.compare_eq_lt, Nat.compare_eq_gt]
  · have htags : tag sequence kind < tag other otherKind := by
      simp only [tag]
      omega
    rw [Nat.compare_eq_gt.mpr htags, Nat.compare_eq_gt.mpr hgreater]
    rfl

/-- Before the probe for a key as of a snapshot come the versions of lesser keys, and those of
equivalent keys under a number above the snapshot. -/
theorem compare_probe_eq_lt_iff
    (user : Comparator) (key : InternalKey) (userKey : Bytes) (snapshot : Nat) :
    key.compare user (probe userKey snapshot) = .lt ↔
      user.compare key.userKey userKey = .lt ∨
        user.compare key.userKey userKey = .eq ∧ snapshot < key.sequence.val := by
  -- A probe has the kind that comes first, so nothing comes before it under its own number.
  have hkind : key.kind.compare Kind.forSeek ≠ .lt := by
    cases key.kind <;> decide
  have hnewer : (Ord.compare (Sequence.clamp snapshot).val key.sequence.val).then
      (key.kind.compare Kind.forSeek) = .lt ↔ snapshot < key.sequence.val := by
    have hbound := key.sequence.isLt
    rw [Ordering.then_eq_lt, Nat.compare_eq_lt, or_iff_left fun htie => hkind htie.2]
    simp only [Sequence.clamp, sequenceCount] at hbound ⊢
    omega
  rw [compare, Ordering.then_eq_lt, probe, hnewer]

end InternalKey

namespace InternalOrder

theorem compare_encode
    (order : InternalOrder) (key other : InternalKey) :
    order.toComparator.compare key.encode other.encode = key.compare order.user other := by
  simp only [toComparator, Comparator.internal, InternalKey.userPart_encode,
    InternalKey.tagPart_encode, InternalKey.compare_tag, InternalKey.compare]

theorem compare_eq_eq_iff
    (order : InternalOrder) {a b : Bytes} (ha : InternalKey.tagSize ≤ a.length)
    (hb : InternalKey.tagSize ≤ b.length) :
    order.toComparator.compare a b = .eq ↔
      order.user.compare (InternalKey.userPart a) (InternalKey.userPart b) = .eq ∧
        InternalKey.tagBytes a = InternalKey.tagBytes b := by
  rw [← InternalKey.tagPart_eq_tagPart_iff ha hb, @eq_comm _ (InternalKey.tagPart a)]
  simp only [toComparator, Comparator.internal, Ordering.then_eq_eq, Nat.compare_eq_eq]

/-- Over a lawful order of user keys, internal keys with any tags are ordered lawfully: to swap
them swaps the result, each is equivalent to itself, and what holds between a first and a second
and between the second and a third holds between the first and the third.  They are equivalent
exactly if what lies in front of the last eight bytes is equivalent and the last eight bytes are
the same.  The stored forms of versions come in the order of their user keys; of equivalent keys
the higher number comes first, and under one number a value comes before a deletion. -/
theorem compare_is_lawful_version_order
    (order : InternalOrder) [TransCmp order.user.compare] :
    (∀ a b c : Bytes, 8 ≤ a.length → 8 ≤ b.length → 8 ≤ c.length →
      order.toComparator.compare b a = (order.toComparator.compare a b).swap ∧
      order.toComparator.compare a a = .eq ∧
      (order.toComparator.compare a b ≠ .gt → order.toComparator.compare b c ≠ .gt →
        order.toComparator.compare a c ≠ .gt) ∧
      (∀ result, order.toComparator.compare a b = result →
        order.toComparator.compare b c = result → order.toComparator.compare a c = result) ∧
      (order.toComparator.compare a b = .eq ↔
        order.user.compare (a.take (a.length - 8)) (b.take (b.length - 8)) = .eq ∧
          a.drop (a.length - 8) = b.drop (b.length - 8))) ∧
    ∀ key other : InternalKey,
      order.toComparator.compare key.encode other.encode = key.compare order.user other := by
  constructor
  · intro a b c ha hb _
    refine ⟨OrientedCmp.eq_swap, ReflCmp.compare_self, ?_, ?_, order.compare_eq_eq_iff ha hb⟩
    · intro hab hbc
      exact Ordering.isLE_iff_ne_gt.mp (TransCmp.isLE_trans (Ordering.isLE_iff_ne_gt.mpr hab)
        (Ordering.isLE_iff_ne_gt.mpr hbc))
    · intro result hab hbc
      cases result with
      | lt => exact TransCmp.lt_trans hab hbc
      | eq => exact TransCmp.eq_trans hab hbc
      | gt => exact TransCmp.gt_trans hab hbc
  · intro key other
    exact order.compare_encode key other

/-- Keys that differ in case only, under a tag of no known kind and under two tags of one number. -/
theorem compare_is_lawful_version_order_caseless :
    let order : InternalOrder := ⟨⟨"caseless", Bytes.compareCaseless⟩⟩
    order.toComparator.compare [75, 9, 0, 0, 0, 0, 0, 0, 255] [107, 9, 0, 0, 0, 0, 0, 0, 255] =
        .eq ∧
      order.toComparator.compare (InternalKey.encode ⟨[107], 5, .deletion⟩)
        (InternalKey.encode ⟨[75], 5, .value⟩) = .gt := by
  have hlawful : TransCmp (InternalOrder.mk ⟨"caseless", Bytes.compareCaseless⟩).user.compare :=
    transCmp_caseless
  obtain ⟨hlaws, hversions⟩ :=
    compare_is_lawful_version_order ⟨⟨"caseless", Bytes.compareCaseless⟩⟩
  constructor
  · obtain ⟨-, -, -, -, hequivalent⟩ := hlaws [75, 9, 0, 0, 0, 0, 0, 0, 255]
      [107, 9, 0, 0, 0, 0, 0, 0, 255] [107, 9, 0, 0, 0, 0, 0, 0, 255] (by decide) (by decide)
      (by decide)
    exact hequivalent.mpr (by decide)
  · rw [hversions]
    decide

end InternalOrder

end LsmStore
