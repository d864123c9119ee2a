import Mathlib.Algebra.Ring.Nat
import LsmStore.Proofs.MemTable.Records
import LsmStore.Proofs.VersionOrder

/-!
# Lookup keys among the versions

The lookup key of a key as of a snapshot is the stored form of a version that nobody need
have written: of the last number that the snapshot sees, and of the kind that comes first.
So it lies between the versions of the key that are newer than the snapshot and those that
are not, also if one of these was written at the snapshot.  A memtable compares it behind
its length, as it compares the records, and what follows the internal key in a record has no
part in that.
-/

namespace LsmStore.LookupKey

open Std

variable {userKey : Bytes}

theorem length_internalKey_lt
    (hkey : InternalKey.encodedLength userKey.length < UInt32.size) (snapshot : Nat) :
    (ofSnapshot userKey snapshot).internalKey.length < UInt32.size := by
  rw [ofSnapshot, InternalKey.length_encode]
  exact hkey

/-- The lookup key comes behind the versions of lesser keys, and behind those of equivalent keys
under a number above the snapshot. -/
theorem compare_internalKey_eq_gt_iff
    (order : InternalOrder) [TransCmp order.user.compare] (userKey : Bytes) (snapshot : Nat)
    (key : InternalKey) :
    order.toComparator.compare (ofSnapshot userKey snapshot).internalKey key.encode = .gt ↔
      order.user.compare key.userKey userKey = .lt ∨
        order.user.compare key.userKey userKey = .eq ∧ snapshot < key.sequence.val := by
  rw [OrientedCmp.gt_iff_lt, ofSnapshot, order.compare_encode]
  exact InternalKey.compare_probe_eq_lt_iff order.user key userKey snapshot

theorem decode_memtableKey
    (hkey : InternalKey.encodedLength userKey.length < UInt32.size) (snapshot : Nat) :
    LengthPrefixed.decode (ofSnapshot userKey snapshot).memtableKey =
      .ok ((ofSnapshot userKey snapshot).internalKey, []) := by
  have hread := LengthPrefixed.decode_encode (length_internalKey_lt hkey snapshot) []
  rwa [List.append_nil] at hread

theorem compare_memtableKey
    (order : InternalOrder) (hkey : InternalKey.encodedLength userKey.length < UInt32.size)
    (snapshot : Nat) {key : InternalKey}
    (hother : InternalKey.encodedLength key.userKey.length < UInt32.size) (value : Bytes) :
    Record.compare order (Record.ofBytes (ofSnapshot userKey snapshot).memtableKey)
        (Record.ofBytes (Record.encode key value)) =
      order.toComparator.compare (ofSnapshot userKey snapshot).internalKey key.encode := by
  have hlength : key.encode.length < UInt32.size := by
    rwa [InternalKey.length_encode]
  have hcompare := Record.compare_encode_append order (length_internalKey_lt hkey snapshot) hlength
    [] (LengthPrefixed.encode value)
  rwa [List.append_nil] at hcompare

/-- The lookup key of a key splits the order of versions at its snapshot.  It comes behind the
stored form of a version exactly if that is one of a lesser key, or of an equivalent key under a
number above the snapshot, where a snapshot above all numbers counts as the last of them.  Behind
its length it is compared with a record as the internal keys of both are, whatever the value in
the record is; each of the two internal keys is read back from the front.  And the user key is
told from it. -/
theorem splits_versions_at_snapshot
    (order : InternalOrder) [TransCmp order.user.compare] (userKey : Bytes)
    (hkey : InternalKey.encodedLength userKey.length < UInt32.size) (snapshot : Nat) :
    let probe := ofSnapshot userKey snapshot
    probe.userKey = userKey ∧
      LengthPrefixed.decode probe.memtableKey = .ok (probe.internalKey, []) ∧
      ∀ key : InternalKey,
        (order.toComparator.compare probe.internalKey key.encode = .gt ↔
          order.user.compare key.userKey userKey = .lt ∨
            order.user.compare key.userKey userKey = .eq ∧
              min snapshot (2 ^ 56 - 1) < key.sequence.val) ∧
        (InternalKey.encodedLength key.userKey.length < UInt32.size → ∀ value : Bytes,
          LengthPrefixed.decode (Record.encode key value) =
            .ok (key.encode, LengthPrefixed.encode value) ∧
          Record.compare order (Record.ofBytes probe.memtableKey)
              (Record.ofBytes (Record.encode key value)) =
            order.toComparator.compare probe.internalKey key.encode) := by
  intro probe
  refine ⟨userKey_ofSnapshot userKey snapshot, decode_memtableKey hkey snapshot, ?_⟩
  intro key
  constructor
  · have hclamp : min snapshot (2 ^ 56 - 1) < key.sequence.val ↔ snapshot < key.sequence.val := by
      have hbound := key.sequence.isLt
      simp only [sequenceCount] at hbound
      omega
    rw [hclamp]
    exact compare_internalKey_eq_gt_iff order userKey snapshot key
  · intro hother value
    constructor
    · apply LengthPrefixed.decode_encode
      rwa [InternalKey.length_encode]
    · exact compare_memtableKey order hkey snapshot hother value

/-- Caseless keys: behind a deletion under the next number, but not behind a value under the
snapshot itself, nor behind one under the last number of all. -/
theorem splits_versions_at_snapshot_caseless :
    let order : InternalOrder := ⟨⟨"caseless", Bytes.compareCaseless⟩⟩
    order.toComparator.compare (ofSnapshot [107] 5).internalKey
        (InternalKey.encode ⟨[75], 6, .deletion⟩) = .gt ∧
      order.toComparator.compare (ofSnapshot [107] 5).internalKey
        (InternalKey.encode ⟨[75], 5, .value⟩) ≠ .gt ∧
      order.toComparator.compare (ofSnapshot [107] (UInt64.size - 1)).internalKey
        (InternalKey.encode ⟨[75], Fin.last _, .value⟩) ≠ .gt ∧
      Record.compare order (Record.ofBytes (ofSnapshot [107] 5).memtableKey)
        (Record.ofBytes (Record.encode ⟨[75], 6, .deletion⟩ [9, 0])) = .gt := by
  intro order
  have hlawful : TransCmp order.user.compare := transCmp_caseless
  obtain ⟨-, -, hearly⟩ := splits_versions_at_snapshot order [107] (by decide) 5
  obtain ⟨-, -, hlate⟩ := splits_versions_at_snapshot order [107] (by decide) (UInt64.size - 1)
  have hnewer : order.toComparator.compare (ofSnapshot [107] 5).internalKey
      (InternalKey.encode ⟨[75], 6, .deletion⟩) = .gt := by
    rw [(hearly _).1]
    decide
  refine ⟨hnewer, ?_, ?_, ?_⟩
  · rw [ne_eq, (hearly _).1]
    decide
  · rw [ne_eq, (hlate _).1]
    decide
  · rw [((hearly _).2 (by decide) _).2]
    exact hnewer

end LsmStore.LookupKey
