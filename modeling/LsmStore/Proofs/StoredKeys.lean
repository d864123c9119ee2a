import Mathlib.Algebra.Ring.Nat
import LsmStore.InternalKey

/-!
# Stored forms of versions

The stored form of a version has one reading, and what can be read is the stored form of a
version.  The kind is the low byte of the tag, so it is the eighth byte from the end.  The
seven bytes behind it give a number of 56 bits whatever they are, and what lies in front
of it is the user key.  So a string of at least eight bytes is a stored form exactly if that
one byte stands for a kind.
-/

namespace LsmStore.InternalKey

theorem userPart_append_tagPart
    {stored : Bytes} (hlong : tagSize ≤ stored.length) :
    userPart stored ++ LittleEndian.encode tagSize (tagPart stored) = stored := by
  have hwidth : (stored.drop (stored.length - tagSize)).length = tagSize := by
    rw [List.length_drop]
    omega
  have htag := LittleEndian.encode_decode (stored.drop (stored.length - tagSize))
  rw [hwidth] at htag
  rw [userPart, tagPart, if_pos hlong, htag, List.take_append_drop]

theorem getElem?_tag
    {stored : Bytes} (hlong : tagSize ≤ stored.length) :
    ∃ byte : UInt8, stored[stored.length - tagSize]? = some byte ∧
      tagPart stored % 256 = byte.toNat := by
  have hinside : stored.length - tagSize < stored.length := by
    rw [tagSize] at hlong ⊢
    omega
  refine ⟨stored[stored.length - tagSize], List.getElem?_eq_getElem hinside, ?_⟩
  have hless := stored[stored.length - tagSize].toNat_lt
  rw [tagPart, if_pos hlong, List.drop_eq_getElem_cons hinside, LittleEndian.decode]
  omega

theorem encode_of_decode
    {stored : Bytes} {key : InternalKey} (h : decode stored = .ok key) :
    key.encode = stored := by
  rw [decode] at h
  split at h
  · cases h
  · rename_i hlong
    split at h
    · cases h
    · rename_i kind hkind
      obtain rfl := Except.ok.inj h
      have hcode := Kind.ofCode?_eq_some_iff.mp hkind
      have htag : tagPart stored / 256 * 256 + kind.code = tagPart stored := by
        omega
      rw [encode, tag, htag]
      exact userPart_append_tagPart (Nat.le_of_not_lt hlong)

/-- A string can be read exactly if it has room for a tag whose low byte stands for a kind. -/
theorem exists_decode_eq_ok_iff
    {stored : Bytes} :
    (∃ key, decode stored = .ok key) ↔
      tagSize ≤ stored.length ∧ ∃ kind, Kind.ofCode? (tagPart stored % 256) = some kind := by
  rw [decode]
  split
  · rename_i hshort
    constructor
    · rintro ⟨key, himpossible⟩
      cases himpossible
    · rintro ⟨hlong, -⟩
      exact absurd hshort (Nat.not_lt.mpr hlong)
  · rename_i hlong
    rw [and_iff_right (Nat.le_of_not_lt hlong)]
    split
    · rename_i hnone
      simp [hnone]
    · rename_i kind hkind
      exact iff_of_true ⟨_, rfl⟩ ⟨kind, hkind⟩

theorem exists_ofCode?_iff
    {n : Nat} :
    (∃ kind, Kind.ofCode? n = some kind) ↔ n = 0 ∨ n = 1 := by
  constructor
  · rintro ⟨kind, hkind⟩
    rw [Kind.ofCode?_eq_some_iff.mp hkind]
    cases kind
    · exact .inl rfl
    · exact .inr rfl
  · rintro (rfl | rfl)
    · exact ⟨.deletion, rfl⟩
    · exact ⟨.value, rfl⟩

theorem make_of_lt
    {userKey : Bytes} {sequence : Nat} {kind : Kind} (h : sequence < sequenceCount) :
    make userKey sequence kind = .ok ⟨userKey, ⟨sequence, h⟩, kind⟩ := by
  rw [make, Sequence.check, dif_pos h]
  rfl

theorem make_of_le
    {userKey : Bytes} {sequence : Nat} {kind : Kind} (h : sequenceCount ≤ sequence) :
    make userKey sequence kind = .error (.sequenceTooLarge sequence) := by
  rw [make, Sequence.check, dif_neg (Nat.not_lt.mpr h)]
  rfl

/-- A user key, a number of at most 56 bits and a kind have a stored form of eight bytes more than
the user key, and they are what is read from it.  A string can be read exactly if it has at least
eight bytes and the eighth from its end is 0 or 1, and it is then the stored form of what is read.
Under a larger number nothing has a stored form. -/
theorem stored_forms_are_what_is_read :
    (∀ (userKey : Bytes) (sequence : Nat) (kind : Kind), sequence ≤ 2 ^ 56 - 1 →
      ∃ stored, (make userKey sequence kind).map encode = .ok stored ∧
        stored.length = encodedLength userKey.length ∧
        ∃ key, decode stored = .ok key ∧
          key.userKey = userKey ∧ key.sequence.val = sequence ∧ key.kind = kind) ∧
    (∀ stored : Bytes, (∃ key, decode stored = .ok key) ↔
      8 ≤ stored.length ∧
        (stored[stored.length - 8]? = some 0 ∨ stored[stored.length - 8]? = some 1)) ∧
    (∀ (stored : Bytes) (key : InternalKey), decode stored = .ok key →
      (make key.userKey key.sequence.val key.kind).map encode = .ok stored) ∧
    ∀ (userKey : Bytes) (sequence : Nat) (kind : Kind), 2 ^ 56 - 1 < sequence →
      (make userKey sequence kind).map encode = .error (.sequenceTooLarge sequence) := by
  refine ⟨?_, ?_, ?_, ?_⟩
  · intro userKey sequence kind hsequence
    have hless : sequence < sequenceCount := Nat.lt_of_le_of_lt hsequence (by decide)
    rw [make_of_lt hless]
    exact ⟨_, rfl, length_encode _, _, decode_encode _, rfl, rfl, rfl⟩
  · intro stored
    rw [exists_decode_eq_ok_iff, exists_ofCode?_iff]
    apply and_congr_right
    intro hlong
    obtain ⟨byte, hbyte, htag⟩ := getElem?_tag hlong
    rw [tagSize] at hbyte
    rw [htag, hbyte, Option.some.injEq, Option.some.injEq, ← UInt8.toNat_inj, ← UInt8.toNat_inj]
    rfl
  · intro stored key hdecode
    rw [make_of_lt key.sequence.isLt]
    exact congrArg Except.ok (encode_of_decode hdecode)
  · intro userKey sequence kind hsequence
    have hle : sequenceCount ≤ sequence := by
      rw [sequenceCount]
      omega
    rw [make_of_le hle]
    rfl

/-- A user key that itself ends like a tag, under the last number of all and one beyond it. -/
theorem stored_forms_are_what_is_read_atLimit :
    (∃ stored, (make [1, 0, 0, 0, 0, 0, 0, 9] (2 ^ 56 - 1) .deletion).map encode = .ok stored ∧
      stored.length = 16 ∧ ∃ key, decode stored = .ok key ∧
        key.userKey = [1, 0, 0, 0, 0, 0, 0, 9] ∧ key.sequence.val = 2 ^ 56 - 1 ∧
        key.kind = .deletion) ∧
      (make [107] (2 ^ 56) .value).map encode = .error (.sequenceTooLarge (2 ^ 56)) ∧
      (make [107] 3 .value).map encode = .ok [107, 1, 3, 0, 0, 0, 0, 0, 0] := by
  obtain ⟨hstored, -, hread, hrefused⟩ := stored_forms_are_what_is_read
  refine ⟨hstored _ _ _ (by decide), hrefused _ _ _ (by decide), ?_⟩
  exact hread [107, 1, 3, 0, 0, 0, 0, 0, 0] ⟨[107], 3, .value⟩ (by decide)

end LsmStore.InternalKey
