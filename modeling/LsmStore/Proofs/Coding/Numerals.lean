import Mathlib.Data.Nat.Digits.Defs
import LsmStore.Coding.Var32

/-!
# Numerals

A numeral is a byte string that ends at its first byte without the high mark, and its
low seven bits are the digits of a number in base 128.  A reader of variable-length
numbers accepts every numeral of at most five bytes, the shortest one for a number or
not, and gives its number without what does not fit 32 bits.
-/

namespace LsmStore.Var32

/-- Whether all bytes but the last have the high mark, and the last does not. -/
def Terminated (digits : Bytes) : Prop :=
  ∃ more last, digits = more ++ [last] ∧ (∀ byte ∈ more, 128 ≤ byte.toNat) ∧ last.toNat < 128

/-- The number whose digits in base 128 are the low seven bits of the bytes, low digit first. -/
def digitsValue (digits : Bytes) : Nat :=
  Nat.ofDigits 128 (digits.map fun byte => byte.toNat % 128)

/-- Bytes that stand for a number of 32 bits. -/
structure Spells (digits : Bytes) (number : Nat) : Prop where
  terminated : Terminated digits
  length_le : digits.length ≤ maxLength
  number_eq : number = digitsValue digits % UInt32.size

theorem terminated_singleton_iff
    (byte : UInt8) :
    Terminated [byte] ↔ byte.toNat < 128 := by
  constructor
  · rintro ⟨more, last, hdigits, -, hlast⟩
    obtain ⟨rfl, rfl⟩ : more = [] ∧ last = byte := by
      simpa using (List.append_eq_singleton_iff.mp hdigits.symm)
    exact hlast
  · intro hlast
    exact ⟨[], byte, rfl, by simp, hlast⟩

theorem terminated_cons_iff
    {byte : UInt8} {digits : Bytes} (hdigits : digits ≠ []) :
    Terminated (byte :: digits) ↔ 128 ≤ byte.toNat ∧ Terminated digits := by
  constructor
  · rintro ⟨more, last, hsplit, hmore, hlast⟩
    cases more with
    | nil =>
      exact absurd (List.cons.inj hsplit).2 hdigits
    | cons first more =>
      obtain ⟨rfl, rfl⟩ := List.cons.inj hsplit
      obtain ⟨hfirst, hothers⟩ := List.forall_mem_cons.mp hmore
      exact ⟨hfirst, more, last, rfl, hothers, hlast⟩
  · rintro ⟨hfirst, more, last, rfl, hmore, hlast⟩
    exact ⟨byte :: more, last, rfl, List.forall_mem_cons.mpr ⟨hfirst, hmore⟩, hlast⟩

theorem Terminated.ne_nil
    {digits : Bytes} (h : Terminated digits) :
    digits ≠ [] := by
  obtain ⟨more, last, rfl, -, -⟩ := h
  simp

theorem digitsValue_cons
    (byte : UInt8) (digits : Bytes) :
    digitsValue (byte :: digits) = byte.toNat % 128 + 128 * digitsValue digits := by
  simp [digitsValue, Nat.ofDigits_cons]

theorem digitsValue_singleton
    (byte : UInt8) :
    digitsValue [byte] = byte.toNat % 128 := by
  rw [digitsValue, List.map_singleton, Nat.ofDigits_singleton]

theorem digitsValue_append
    (front back : Bytes) :
    digitsValue (front ++ back) =
      digitsValue front + 128 ^ front.length * digitsValue back := by
  rw [digitsValue, List.map_append, Nat.ofDigits_append, List.length_map]
  rfl

theorem digitsValue_lt
    (digits : Bytes) :
    digitsValue digits < 128 ^ digits.length := by
  have hsmall : ∀ digit ∈ digits.map fun byte => byte.toNat % 128, digit < 128 := by
    intro digit hdigit
    obtain ⟨byte, -, rfl⟩ := List.mem_map.mp hdigit
    exact Nat.mod_lt _ (by decide)
  have hless := Nat.ofDigits_lt_base_pow_length (by decide) hsmall
  rwa [List.length_map] at hless

/-- What is read within a limit is a numeral of at most so many bytes at the front. -/
theorem groups?_eq_some_iff
    {limit number : Nat} {input rest : Bytes} :
    groups? limit input = some (number, rest) ↔
      ∃ digits, input = digits ++ rest ∧ Terminated digits ∧ digits.length ≤ limit ∧
        number = digitsValue digits := by
  induction limit generalizing input number with
  | zero =>
    constructor
    · intro h
      cases h
    · rintro ⟨digits, -, hterminated, hlength, -⟩
      exact absurd (List.length_eq_zero_iff.mp (Nat.le_zero.mp hlength)) hterminated.ne_nil
  | succ limit ih =>
    cases input with
    | nil =>
      constructor
      · intro h
        cases h
      · rintro ⟨digits, hinput, hterminated, -, -⟩
        exact absurd (List.append_eq_nil_iff.mp hinput.symm).1 hterminated.ne_nil
    | cons byte input =>
      rw [groups?]
      by_cases hlast : byte.toNat < 128
      · rw [if_pos hlast]
        constructor
        · intro h
          obtain ⟨rfl, rfl⟩ := Prod.mk.inj (Option.some.inj h)
          refine ⟨[byte], rfl, (terminated_singleton_iff byte).mpr hlast, by simp, ?_⟩
          simp [digitsValue, Nat.mod_eq_of_lt hlast]
        · rintro ⟨digits, hinput, hterminated, -, rfl⟩
          obtain ⟨first, digits, rfl⟩ := List.exists_cons_of_ne_nil hterminated.ne_nil
          obtain ⟨rfl, rfl⟩ := List.cons.inj hinput
          obtain rfl : digits = [] := by
            by_contra hmore
            have := ((terminated_cons_iff hmore).mp hterminated).1
            omega
          simp [digitsValue, Nat.mod_eq_of_lt hlast]
      · rw [if_neg hlast, Option.map_eq_some_iff]
        have hbyte := byte.toNat_lt
        have hlow : byte.toNat - 128 = byte.toNat % 128 := by omega
        constructor
        · rintro ⟨⟨high, tail⟩, hgroups, hsame⟩
          obtain ⟨rfl, rfl⟩ := Prod.mk.inj hsame
          obtain ⟨digits, rfl, hterminated, hlength, rfl⟩ := ih.mp hgroups
          refine ⟨byte :: digits, rfl, ?_, Nat.succ_le_succ hlength, ?_⟩
          · exact (terminated_cons_iff hterminated.ne_nil).mpr ⟨Nat.le_of_not_lt hlast, hterminated⟩
          · rw [digitsValue_cons, hlow]
        · rintro ⟨digits, hinput, hterminated, hlength, rfl⟩
          obtain ⟨first, digits, rfl⟩ := List.exists_cons_of_ne_nil hterminated.ne_nil
          obtain ⟨rfl, rfl⟩ := List.cons.inj hinput
          have hmore : digits ≠ [] := by
            rintro rfl
            exact hlast ((terminated_singleton_iff byte).mp hterminated)
          obtain ⟨-, htail⟩ := (terminated_cons_iff hmore).mp hterminated
          refine ⟨(digitsValue digits, rest), ih.mpr ?_, ?_⟩
          · exact ⟨digits, rfl, htail, Nat.le_of_succ_le_succ hlength, rfl⟩
          · rw [digitsValue_cons, hlow]

/-- Nothing is read within a limit exactly if none of so many bytes ends a numeral. -/
theorem groups?_eq_none_iff
    {limit : Nat} {input : Bytes} :
    groups? limit input = none ↔ ∀ byte ∈ input.take limit, 128 ≤ byte.toNat := by
  induction limit generalizing input with
  | zero => simp [groups?]
  | succ limit ih =>
    cases input with
    | nil => simp [groups?]
    | cons byte input =>
      rw [groups?, List.take_succ_cons, List.forall_mem_cons, ← ih]
      by_cases hlast : byte.toNat < 128
      · rw [if_pos hlast]
        constructor
        · intro h
          cases h
        · intro h
          exact absurd hlast (Nat.not_lt.mpr h.1)
      · rw [if_neg hlast, Option.map_eq_none_iff]
        exact (and_iff_right (Nat.le_of_not_lt hlast)).symm

/-- A reader fails exactly if none of the first five bytes ends a numeral, and it then tells
whether the input has so many bytes. -/
theorem decode_eq_error_iff
    {input : Bytes} {cause : Corruption} :
    decode input = .error cause ↔
      (∀ byte ∈ input.take maxLength, 128 ≤ byte.toNat) ∧
        cause = if input.length < maxLength then .truncatedVar32 else .overlongVar32 := by
  rw [← groups?_eq_none_iff, decode]
  cases groups? maxLength input with
  | some read => simp
  | none => simp [eq_comm]

/-- A reader takes a numeral from the front, whatever it is, and nothing else. -/
theorem decode_eq_ok_iff_spells
    {input rest : Bytes} {value : UInt32} :
    decode input = .ok (value, rest) ↔
      ∃ digits, input = digits ++ rest ∧ Spells digits value.toNat := by
  rw [decode_eq_ok_iff]
  constructor
  · rintro ⟨number, hgroups, rfl⟩
    obtain ⟨digits, hinput, hterminated, hlength, rfl⟩ := groups?_eq_some_iff.mp hgroups
    exact ⟨digits, hinput, hterminated, hlength, UInt32.toNat_ofNat'⟩
  · rintro ⟨digits, hinput, hterminated, hlength, hnumber⟩
    refine ⟨digitsValue digits, groups?_eq_some_iff.mpr ⟨digits, hinput, hterminated, hlength, rfl⟩,
      ?_⟩
    rw [← UInt32.toNat_inj, hnumber]
    exact UInt32.toNat_ofNat'

theorem decode_append_eq_ok_iff
    {digits rest : Bytes} {value : UInt32} :
    decode (digits ++ rest) = .ok (value, rest) ↔ Spells digits value.toNat := by
  rw [decode_eq_ok_iff_spells]
  constructor
  · rintro ⟨digits', hsame, hspells⟩
    rwa [List.append_cancel_right hsame]
  · intro hspells
    exact ⟨digits, rfl, hspells⟩

theorem Spells.toNat_ofNat
    {digits : Bytes} {number : Nat} (h : Spells digits number) :
    (UInt32.ofNat number).toNat = number := by
  apply UInt32.toNat_ofNat_of_lt
  rw [h.number_eq]
  exact Nat.mod_lt _ (by decide)

theorem Spells.decode_append
    {digits : Bytes} {number : Nat} (h : Spells digits number) (rest : Bytes) :
    decode (digits ++ rest) = .ok (UInt32.ofNat number, rest) := by
  rw [decode_append_eq_ok_iff, h.toNat_ofNat]
  exact h

theorem span_append_of_spells
    {digits : Bytes} {number : Nat} (h : Spells digits number) (rest : Bytes) :
    span (digits ++ rest) = digits.length := by
  have hlength := length_eq_of_decode (h.decode_append rest)
  rw [List.length_append] at hlength
  omega

/-- The number 1 with four needless bytes, the last of which does not fit 32 bits. -/
example : Spells [129, 128, 128, 128, 16] 1 where
  terminated := ⟨[129, 128, 128, 128], 16, rfl, by simp, by decide⟩
  length_le := by decide
  number_eq := by decide

end LsmStore.Var32
