import LsmStore.Proofs.Coding.Numerals

/-!
# Shortest forms

A writer gives each number the shortest of its numerals.  Two numerals of one length that
stand for one number of 32 bits have the same digits, as far as these fit; only the fifth
digit has bits that do not.  So no other numeral is as short, unless five bytes are needed,
and then the others differ in those bits alone.
-/

namespace LsmStore.Var32

theorem spells_encode
    (value : UInt32) :
    Spells (encode value) value.toNat :=
  decode_append_eq_ok_iff.mp (decode_encode value [])

/-! ## Lengths -/

theorem groupCount_pos
    (n : Nat) :
    0 < groupCount n := by
  rw [groupCount]
  split
  · exact Nat.one_pos
  · exact Nat.succ_pos _

/-- So many groups hold a number exactly if it is less than that power of their base. -/
theorem groupCount_le_iff
    {n limit : Nat} (hlimit : 0 < limit) :
    groupCount n ≤ limit ↔ n < 128 ^ limit := by
  induction limit, hlimit using Nat.le_induction generalizing n with
  | base =>
    rw [groupCount]
    split
    · omega
    · have hpositive := groupCount_pos (n / 128)
      omega
  | succ limit _ ih =>
    rw [groupCount, Nat.pow_succ]
    split
    · have hpower : 0 < 128 ^ limit := Nat.pow_pos (by decide)
      omega
    · rw [Nat.add_le_add_iff_right, ih, Nat.div_lt_iff_lt_mul (by decide)]

theorem length_pos
    (value : UInt32) :
    0 < length value :=
  groupCount_pos _

theorem length_le
    (value : UInt32) :
    length value ≤ maxLength :=
  (groupCount_le_iff (by decide)).mpr (Nat.lt_trans value.toNat_lt (by decide))

theorem Spells.length_le_length
    {digits : Bytes} {value : UInt32} (h : Spells digits value.toNat) :
    length value ≤ digits.length := by
  apply (groupCount_le_iff (List.length_pos_iff.mpr h.terminated.ne_nil)).mpr
  calc
    value.toNat = digitsValue digits % UInt32.size := h.number_eq
    _ ≤ digitsValue digits := Nat.mod_le _ _
    _ < 128 ^ digits.length := digitsValue_lt digits

/-! ## Numerals of one length -/

theorem eq_of_digitsValue_eq
    {more other : Bytes} (hlength : more.length = other.length)
    (hmore : ∀ byte ∈ more, 128 ≤ byte.toNat) (hother : ∀ byte ∈ other, 128 ≤ byte.toNat)
    (hvalue : digitsValue more = digitsValue other) :
    more = other := by
  induction more generalizing other with
  | nil => exact (List.length_eq_zero_iff.mp hlength.symm).symm
  | cons byte more ih =>
    obtain ⟨byte', other, rfl⟩ := List.exists_cons_of_length_eq_add_one hlength.symm
    obtain ⟨hbyte, hmore⟩ := List.forall_mem_cons.mp hmore
    obtain ⟨hbyte', hother⟩ := List.forall_mem_cons.mp hother
    rw [digitsValue_cons, digitsValue_cons] at hvalue
    have hless := byte.toNat_lt
    have hless' := byte'.toNat_lt
    have hfirst : byte = byte' := UInt8.toNat_inj.mp (by omega)
    have hrest := ih (Nat.succ.inj hlength) hmore hother (by omega)
    rw [hfirst, hrest]

/-- How many values of the last digit are told apart in 32 bits, behind so many digits. -/
def lastRange (count : Nat) : Nat := 2 ^ (32 - 7 * count)

theorem digitsValue_mod
    {more : Bytes} (hmore : more.length < maxLength) (last : UInt8) :
    digitsValue (more ++ [last]) % UInt32.size =
      digitsValue more +
        128 ^ more.length * (last.toNat % 128 % lastRange more.length) := by
  have hsize : UInt32.size = 128 ^ more.length * lastRange more.length := by
    rw [maxLength] at hmore
    rw [lastRange, show 128 = 2 ^ 7 from rfl, ← Nat.pow_mul, ← Nat.pow_add,
      Nat.add_sub_of_le (by omega)]
  have hless := digitsValue_lt more
  have hpower : 0 < 128 ^ more.length := Nat.pow_pos (by decide)
  rw [hsize, Nat.mod_mul, digitsValue_append, digitsValue_singleton, Nat.add_mul_mod_self_left,
    Nat.mod_eq_of_lt hless, Nat.add_mul_div_left _ _ hpower, Nat.div_eq_of_lt hless, Nat.zero_add]

theorem terminated_append_singleton_iff
    {more : Bytes} {last : UInt8} :
    Terminated (more ++ [last]) ↔ (∀ byte ∈ more, 128 ≤ byte.toNat) ∧ last.toNat < 128 := by
  constructor
  · rintro ⟨front, final, hdigits, hfront, hfinal⟩
    obtain ⟨rfl, hlast⟩ := List.append_inj' hdigits rfl
    obtain ⟨rfl, -⟩ := List.cons.inj hlast
    exact ⟨hfront, hfinal⟩
  · rintro ⟨hmore, hlast⟩
    exact ⟨more, last, rfl, hmore, hlast⟩

/-- A numeral as long as another one stands for the same number exactly if it has the same digits,
where of the last digit only what fits is told apart. -/
theorem Spells.iff_of_length_eq
    {front more : Bytes} {last other : UInt8} {number : Nat}
    (h : Spells (front ++ [last]) number) (hlength : more.length = front.length) :
    Spells (more ++ [other]) number ↔
      more = front ∧ other.toNat < 128 ∧
        other.toNat % lastRange front.length = last.toNat % lastRange front.length := by
  obtain ⟨hfront, hlast⟩ := terminated_append_singleton_iff.mp h.terminated
  have hshort : front.length < maxLength := by
    have hle := h.length_le
    rwa [List.length_append, List.length_singleton] at hle
  have hnumber := h.number_eq
  rw [digitsValue_mod hshort, Nat.mod_eq_of_lt hlast] at hnumber
  constructor
  · intro hspells
    obtain ⟨hmore, hother⟩ := terminated_append_singleton_iff.mp hspells.terminated
    have hsame := hspells.number_eq
    rw [digitsValue_mod (hlength ▸ hshort), Nat.mod_eq_of_lt hother, hnumber, hlength] at hsame
    have hless := digitsValue_lt front
    have hless' := digitsValue_lt more
    rw [hlength] at hless'
    have hlow : digitsValue more = digitsValue front := by
      have hmod := congrArg (· % 128 ^ front.length) hsame
      simpa [Nat.mod_eq_of_lt hless, Nat.mod_eq_of_lt hless'] using hmod.symm
    refine ⟨eq_of_digitsValue_eq hlength hmore hfront hlow, hother, ?_⟩
    rw [hlow] at hsame
    exact (Nat.eq_of_mul_eq_mul_left (Nat.pow_pos (by decide)) (Nat.add_left_cancel hsame)).symm
  · rintro ⟨rfl, hother, hsame⟩
    refine ⟨terminated_append_singleton_iff.mpr ⟨hfront, hother⟩, ?_, ?_⟩
    · rw [List.length_append, List.length_singleton]
      exact hshort
    · rw [digitsValue_mod hshort, Nat.mod_eq_of_lt hother, hsame, hnumber]

/-- In a fifth byte the high mark and the low four bits count. -/
theorem and_counted_eq_iff
    {last other : UInt8} (hlast : last.toNat < 128) :
    other &&& 0x8f = last &&& 0x8f ↔
      other.toNat < 128 ∧ other.toNat % 16 = last.toNat % 16 := by
  have hcounted : ∀ byte : UInt8,
      (byte &&& 0x8f).toNat = byte.toNat / 128 * 128 + byte.toNat % 16 := by
    intro byte
    have hbits : ∀ n : Fin 256, n.val &&& 143 = n.val / 128 * 128 + n.val % 16 := by
      decide +kernel
    rw [UInt8.toNat_and]
    exact hbits ⟨byte.toNat, byte.toNat_lt⟩
  rw [← UInt8.toNat_inj, hcounted, hcounted]
  omega

/-- Only a fifth digit can be another one for the same number. -/
theorem mod_lastRange_eq_iff
    {last other : UInt8} {count : Nat} (hcount : count < maxLength) (hlast : last.toNat < 128) :
    other.toNat < 128 ∧ other.toNat % lastRange count = last.toNat % lastRange count ↔
      other = last ∨ count = 4 ∧ other &&& 0x8f = last &&& 0x8f := by
  by_cases hfifth : count = 4
  · subst hfifth
    rw [and_counted_eq_iff hlast]
    constructor
    · intro hother
      exact .inr ⟨rfl, hother⟩
    · rintro (rfl | ⟨-, hother⟩)
      · exact ⟨hlast, rfl⟩
      · exact hother
  · have hrange : 128 ≤ lastRange count := by
      rw [maxLength] at hcount
      calc
        128 = 2 ^ 7 := rfl
        _ ≤ lastRange count := Nat.pow_le_pow_right (by decide) (by omega)
    constructor
    · rintro ⟨hother, hsame⟩
      rw [Nat.mod_eq_of_lt (by omega), Nat.mod_eq_of_lt (by omega)] at hsame
      exact .inl (UInt8.toNat_inj.mp hsame)
    · rintro (rfl | ⟨himpossible, -⟩)
      · exact ⟨hlast, rfl⟩
      · exact absurd himpossible hfifth

/-! ## The written form -/

theorem encode_eq_of_isPrefix
    {value other : UInt32} (h : encode value <+: encode other) :
    encode value = encode other := by
  obtain ⟨more, hmore⟩ := h
  have hdecode := decode_encode value more
  have hother := decode_encode other []
  rw [List.append_nil, ← hmore, hdecode] at hother
  obtain ⟨-, rfl⟩ := Prod.mk.inj (Except.ok.inj hother)
  rw [← hmore, List.append_nil]

/-- A numeral as short as the written one is the written one, or has five bytes and differs from it
in the bits of the fifth byte that do not count. -/
theorem spells_iff_of_length_eq
    {digits : Bytes} {value : UInt32} (hlength : digits.length = length value) :
    Spells digits value.toNat ↔
      digits = encode value ∨
        length value = 5 ∧ ∃ front last other, encode value = front ++ [last] ∧
          digits = front ++ [other] ∧ other &&& 0x8f = last &&& 0x8f := by
  have hwritten := spells_encode value
  obtain ⟨front, last, hencode, -, hlast⟩ := hwritten.terminated
  have hfront : front.length + 1 = length value := by
    rw [← length_encode, hencode, List.length_append, List.length_singleton]
  have hdigits : digits ≠ [] := by
    apply List.ne_nil_of_length_pos
    rw [hlength]
    exact length_pos value
  obtain ⟨more, other, rfl⟩ : ∃ more other, digits = more ++ [other] :=
    ⟨_, _, (List.dropLast_concat_getLast hdigits).symm⟩
  rw [List.length_append, List.length_singleton, ← hfront] at hlength
  have hshort : front.length < maxLength := by
    have hle := length_le value
    omega
  rw [hencode] at hwritten
  rw [hwritten.iff_of_length_eq (Nat.succ.inj hlength), mod_lastRange_eq_iff hshort hlast, hencode,
    ← hfront]
  constructor
  · rintro ⟨rfl, rfl | ⟨hfifth, hother⟩⟩
    · exact .inl rfl
    · exact .inr ⟨congrArg (· + 1) hfifth, more, last, other, rfl, rfl, hother⟩
  · rintro (hsame | ⟨hfifth, front', last', other', hform, hsame, hother⟩)
    · obtain ⟨rfl, hlasts⟩ := List.append_inj' hsame rfl
      exact ⟨rfl, .inl (List.cons.inj hlasts).1⟩
    · obtain ⟨rfl, hlasts⟩ := List.append_inj' hform rfl
      obtain ⟨rfl, hothers⟩ := List.append_inj' hsame rfl
      rw [(List.cons.inj hothers).1, (List.cons.inj hlasts).1]
      exact ⟨rfl, .inr ⟨Nat.succ.inj hfifth, hother⟩⟩

/-- What is written is read back, whatever follows it.  It has the length that is computed for it,
of one to five bytes, and is not the front of another written form.  Nothing shorter is read as the
same number.  What is as short and is read so is what is written, or it has five bytes and differs
in the bits of the fifth that are dropped; and whatever differs in these alone is read so. -/
theorem encode_is_shortest :
    (∀ (value : UInt32) (rest : Bytes), decode (encode value ++ rest) = .ok (value, rest)) ∧
    (∀ value : UInt32,
      (encode value).length = length value ∧ 1 ≤ length value ∧ length value ≤ 5) ∧
    (∀ value other : UInt32, encode value <+: encode other → encode value = encode other) ∧
    (∀ (value : UInt32) (input rest : Bytes), decode input = .ok (value, rest) →
      ∃ digits, input = digits ++ rest ∧ length value ≤ digits.length) ∧
    ∀ (value : UInt32) (digits rest : Bytes), digits.length = length value →
      (decode (digits ++ rest) = .ok (value, rest) ↔
        digits = encode value ∨
          length value = 5 ∧ ∃ front last other, encode value = front ++ [last] ∧
            digits = front ++ [other] ∧ other &&& 0x8f = last &&& 0x8f) := by
  refine ⟨decode_encode, ?_, ?_, ?_, ?_⟩
  · intro value
    exact ⟨length_encode value, length_pos value, length_le value⟩
  · intro value other hprefix
    exact encode_eq_of_isPrefix hprefix
  · intro value input rest hdecode
    obtain ⟨digits, hinput, hspells⟩ := decode_eq_ok_iff_spells.mp hdecode
    exact ⟨digits, hinput, hspells.length_le_length⟩
  · intro value digits rest hlength
    rw [decode_append_eq_ok_iff]
    exact spells_iff_of_length_eq hlength

/-- A numeral of 300 that is longer than it has to be, and one of 2²⁸ + 1 whose fifth byte has the
bits set that are dropped. -/
theorem encode_is_shortest_neighbours :
    (∃ digits : Bytes, [0xac, 0x82, 0, 7] = digits ++ [7] ∧ length 300 ≤ digits.length) ∧
      decode ([129, 128, 128, 128, 0x71] ++ [7]) = .ok (268435457, [7]) := by
  have hlength : length 268435457 = 5 := by simp [length, groupCount]
  have hencode : encode 268435457 = [129, 128, 128, 128] ++ [1] := by simp [encode, encodeNat]
  obtain ⟨-, -, -, hleast, hequal⟩ := encode_is_shortest
  refine ⟨hleast 300 [0xac, 0x82, 0, 7] [7] (by decide), ?_⟩
  apply (hequal 268435457 [129, 128, 128, 128, 0x71] [7] hlength.symm).mpr
  exact .inr ⟨hlength, [129, 128, 128, 128], 1, 0x71, hencode, rfl, by decide⟩

end LsmStore.Var32
