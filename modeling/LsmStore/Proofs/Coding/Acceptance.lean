import Mathlib.Data.Nat.Digits.Lemmas
import LsmStore.Proofs.Coding.InPlace

/-!
# Which inputs begin with a number

A number ends at the first byte without the high mark, and has to end within five bytes.
So a reader looks at no more than five bytes, and what follows the end of a number makes
no difference to it.  A failure is final exactly if there were five bytes to look at: the
bytes that a shorter input lacks can still end the number.
-/

namespace LsmStore.Var32

theorem digitsValue_eq_sum
    (digits : Bytes) :
    digitsValue digits =
      (digits.mapIdx fun index byte => byte.toNat % 128 * 128 ^ index).sum := by
  rw [digitsValue, Nat.ofDigits_eq_sum_mapIdx]
  congr 1
  apply List.ext_getElem
  · simp
  · simp

theorem exists_decode_eq_ok_iff
    {input : Bytes} :
    (∃ value rest, decode input = .ok (value, rest)) ↔
      ∃ byte ∈ input.take maxLength, byte.toNat < 128 := by
  constructor
  · rintro ⟨value, rest, hdecode⟩
    by_contra hnone
    push Not at hnone
    rw [decode_eq_error_iff.mpr ⟨hnone, rfl⟩] at hdecode
    cases hdecode
  · rintro ⟨byte, hbyte, hlast⟩
    cases hdecode : decode input with
    | ok read => exact ⟨read.1, read.2, rfl⟩
    | error cause =>
      have hmarked := (decode_eq_error_iff.mp hdecode).1 byte hbyte
      exact absurd hlast (Nat.not_lt.mpr hmarked)

theorem cause_cases
    {input : Bytes} {cause : Corruption} (h : decode input = .error cause) :
    input.length < maxLength ∧ cause = .truncatedVar32 ∨
      maxLength ≤ input.length ∧ cause = .overlongVar32 := by
  obtain ⟨-, hcause⟩ := decode_eq_error_iff.mp h
  by_cases hshort : input.length < maxLength
  · exact .inl ⟨hshort, by rw [hcause, if_pos hshort]⟩
  · exact .inr ⟨Nat.le_of_not_lt hshort, by rw [hcause, if_neg hshort]⟩

/-- Any byte without the high mark completes an input that ends inside of a number. -/
theorem exists_decode_append_eq_ok
    {input : Bytes} (hshort : input.length < maxLength) :
    ∃ extension value rest, decode (input ++ extension) = .ok (value, rest) := by
  refine ⟨[0], exists_decode_eq_ok_iff.mpr ⟨0, ?_, by decide⟩⟩
  rw [List.take_of_length_le]
  · simp
  · rw [List.length_append, List.length_singleton]
    exact hshort

/-- Five bytes that do not end a number are the front of no number. -/
theorem decode_append_eq_error
    {input : Bytes} {cause : Corruption} (h : decode input = .error cause)
    (hlong : maxLength ≤ input.length) (extension : Bytes) :
    decode (input ++ extension) = .error cause := by
  obtain ⟨hmarked, hcause⟩ := decode_eq_error_iff.mp h
  refine decode_eq_error_iff.mpr ⟨?_, ?_⟩
  · rwa [List.take_append_of_le_length hlong]
  · rw [hcause, List.length_append, if_neg (by omega), if_neg (by omega)]

/-- A number is read exactly if one of the first five bytes lacks the high mark.  The bytes up to
the first such byte are taken, their low seven bits give the number, as far as it fits 32 bits, and
what follows makes no difference.  If no number is read the input stays as it is.  It is truncated
if it has fewer than five bytes, and then something can follow that completes it; otherwise it is
too long, whatever follows.  The reader that works in place with machine words reads the same: it
shifts no group out of its word, and none of its sums and products overflows. -/
theorem decode_is_exact
    (input : Bytes) :
    ((∃ value rest, decode input = .ok (value, rest)) ↔
      ∃ byte ∈ input.take 5, byte.toNat < 128) ∧
    (∀ value rest, decode input = .ok (value, rest) →
      InPlace.number.over input = .ok (.ok value, rest) ∧
      (∃ more last, input = more ++ last :: rest ∧ (∀ byte ∈ more, 128 ≤ byte.toNat) ∧
        last.toNat < 128 ∧
        value.toNat = ((more ++ [last]).mapIdx fun index byte =>
          byte.toNat % 128 * 128 ^ index).sum % 2 ^ 32) ∧
      ∀ extension, decode (input ++ extension) = .ok (value, rest ++ extension)) ∧
    ∀ cause, decode input = .error cause →
      InPlace.number.over input = .ok (.error cause, input) ∧
      (cause.detail = "truncated var32" ↔ input.length < 5) ∧
      (cause.detail = "var32 longer than 5 bytes" ↔ 5 ≤ input.length) ∧
      (input.length < 5 →
        ∃ extension value rest, decode (input ++ extension) = .ok (value, rest)) ∧
      (5 ≤ input.length → ∀ extension, decode (input ++ extension) = .error cause) := by
  have hinPlace := InPlace.number_over input
  refine ⟨exists_decode_eq_ok_iff, ?_, ?_⟩
  · intro value rest hdecode
    rw [hdecode] at hinPlace
    refine ⟨hinPlace, ?_, decode_append hdecode⟩
    obtain ⟨digits, rfl, hspells⟩ := decode_eq_ok_iff_spells.mp hdecode
    obtain ⟨more, last, rfl, hmore, hlast⟩ := hspells.terminated
    refine ⟨more, last, by simp, hmore, hlast, ?_⟩
    rw [← digitsValue_eq_sum]
    exact hspells.number_eq
  · intro cause hdecode
    rw [hdecode] at hinPlace
    refine ⟨hinPlace, ?_, ?_, exists_decode_append_eq_ok, decode_append_eq_error hdecode⟩
    · rcases cause_cases hdecode with ⟨hshort, rfl⟩ | ⟨hlong, rfl⟩
      · exact iff_of_true rfl hshort
      · exact iff_of_false (by decide) (Nat.not_lt.mpr hlong)
    · rcases cause_cases hdecode with ⟨hshort, rfl⟩ | ⟨hlong, rfl⟩
      · exact iff_of_false (by decide) (Nat.not_le.mpr hshort)
      · exact iff_of_true rfl hlong

/-- A number with four needless bytes of which the last does not fit, an input that is cut off,
and one that goes on for too long. -/
theorem decode_is_exact_threeInputs :
    InPlace.number.over [129, 128, 128, 128, 16, 7] = .ok (.ok 1, [7]) ∧
      (∀ extension, decode ([129, 128, 128, 128, 16, 7] ++ extension) = .ok (1, 7 :: extension)) ∧
      InPlace.number.over [128, 255] = .ok (.error .truncatedVar32, [128, 255]) ∧
      (∃ extension value rest, decode ([128, 255] ++ extension) = .ok (value, rest)) ∧
      ∀ extension,
        decode ([255, 255, 255, 255, 255, 1] ++ extension) = .error .overlongVar32 := by
  obtain ⟨hinPlace, -, hextended⟩ :=
    (decode_is_exact [129, 128, 128, 128, 16, 7]).2.1 1 [7] (by decide)
  obtain ⟨huntouched, -, -, hcompleted, -⟩ :=
    (decode_is_exact [128, 255]).2.2 .truncatedVar32 (by decide)
  obtain ⟨-, -, -, -, hfinal⟩ :=
    (decode_is_exact [255, 255, 255, 255, 255, 1]).2.2 .overlongVar32 (by decide)
  exact ⟨hinPlace, hextended, huntouched, hcompleted (by decide), hfinal (by decide)⟩

end LsmStore.Var32
