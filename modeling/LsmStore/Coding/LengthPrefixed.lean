import LsmStore.Coding.Var32

/-!
# Length-prefixed byte strings

A byte string is written behind its length.  The length is a variable-length
number, so strings of 2³² bytes and more have no written form of their own.
-/

namespace LsmStore.LengthPrefixed

def encode (bytes : Bytes) : Bytes :=
  Var32.encode bytes.length.toUInt32 ++ bytes

def decode (input : Bytes) : Except Corruption (Bytes × Bytes) := do
  let (length, rest) ← Var32.decode input
  match Bytes.split? length.toNat rest with
  | some (bytes, rest) => .ok (bytes, rest)
  | none => .error (.shortSlice length.toNat rest.length)

/-- A string is read exactly if a length is read and so many bytes follow it. -/
theorem decode_eq_ok_iff
    {input bytes rest : Bytes} :
    decode input = .ok (bytes, rest) ↔
      ∃ length, Var32.decode input = .ok (length, bytes ++ rest) ∧
        length.toNat = bytes.length := by
  unfold decode
  cases h : Var32.decode input with
  | error cause => simp [bind, Except.bind]
  | ok read =>
    obtain ⟨length, tail⟩ := read
    simp only [bind, Except.bind]
    cases hs : Bytes.split? length.toNat tail with
    | none =>
      have hshort := Bytes.split?_eq_none_iff.mp hs
      constructor
      · intro himpossible
        cases himpossible
      · rintro ⟨other, hsame, hcount⟩
        simp only [Except.ok.injEq, Prod.mk.injEq] at hsame
        obtain ⟨rfl, rfl⟩ := hsame
        simp at hshort
        omega
    | some parts =>
      obtain ⟨front, back⟩ := parts
      obtain ⟨rfl, hcount⟩ := Bytes.split?_eq_some_iff.mp hs
      constructor
      · intro hsame
        simp only [Except.ok.injEq, Prod.mk.injEq] at hsame
        obtain ⟨rfl, rfl⟩ := hsame
        exact ⟨length, rfl, hcount.symm⟩
      · rintro ⟨other, hsame, hsize⟩
        simp only [Except.ok.injEq, Prod.mk.injEq] at hsame
        obtain ⟨rfl, hwhole⟩ := hsame
        obtain ⟨rfl, rfl⟩ := List.append_inj hwhole (by omega)
        rfl

theorem length_eq_of_decode
    {input bytes rest : Bytes}
    (h : decode input = .ok (bytes, rest)) :
    input.length = Var32.span input + bytes.length + rest.length := by
  obtain ⟨length, hread, _⟩ := decode_eq_ok_iff.mp h
  have := Var32.length_eq_of_decode hread
  rw [List.length_append] at this
  omega

theorem decode_shortens
    {input bytes rest : Bytes}
    (h : decode input = .ok (bytes, rest)) :
    rest.length < input.length := by
  obtain ⟨length, hread, _⟩ := decode_eq_ok_iff.mp h
  have := Var32.decode_shortens hread
  simp at this
  omega

theorem decode_encode
    {bytes : Bytes}
    (hfits : bytes.length < UInt32.size) (rest : Bytes) :
    decode (encode bytes ++ rest) = .ok (bytes, rest) := by
  refine decode_eq_ok_iff.mpr ⟨bytes.length.toUInt32, ?_, ?_⟩
  · rw [encode, List.append_assoc, Var32.decode_encode]
  · exact UInt32.toNat_ofNat_of_lt hfits

end LsmStore.LengthPrefixed
