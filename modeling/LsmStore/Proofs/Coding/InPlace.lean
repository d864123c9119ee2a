import LsmStore.Coding.LengthPrefixed
import LsmStore.Proofs.Coding.Numerals

/-!
# Reading in place

A decoder is a function from an input to an item and what follows the item.  A reader
at work is given one input, which it moves behind what it has read, and it computes with
machine words: it shifts the groups of a number to their places, counts the bytes that
it has seen, and cuts the input at an index.  Such a computation can slip, and a reader
that gives up half way can leave the input moved.  The readers of this file do exactly
that work.  None of their computations slips, they find what the decoders find, and they
move the input only if they find something.
-/

namespace LsmStore.InPlace

/-! ## Computations over an input -/

/-- The ways in which a computation of a reader can go wrong. -/
inductive Slip where
  /-- A sum or a product does not fit a machine word. -/
  | overflow (wanted : Nat)
  /-- A number is shifted by as many places as it has, or by more. -/
  | wideShift (places : Nat)
  /-- A byte string is cut behind its end. -/
  | outside (index size : Nat)
  deriving DecidableEq, Repr

/-- A computation over an input that it can move.  It can slip, and it can find that the
input is corrupt. -/
abbrev Reader := ExceptT Corruption (StateT Bytes (Except Slip))

/-- What a reader comes to over an input, and the input as it leaves it. -/
def Reader.over (reader : Reader Item) (input : Bytes) :
    Except Slip (Except Corruption Item × Bytes) :=
  (ExceptT.run reader).run input

/-- Goes on only if a condition holds. -/
def ensure (condition : Prop) [Decidable condition] (slip : Slip) : Reader Unit :=
  if condition then pure () else throwThe Slip slip

/-- A sum or a product as a machine word. -/
def word (n : Nat) : Reader Nat := do
  ensure (n < UInt64.size) (.overflow n)
  return n

def shiftLeft (bits : UInt32) (places : Nat) : Reader UInt32 := do
  ensure (places < 32) (.wideShift places)
  return bits <<< UInt32.ofNat places

def splitAt (bytes : Bytes) (index : Nat) : Reader (Bytes × Bytes) := do
  ensure (index ≤ bytes.length) (.outside index bytes.length)
  return bytes.splitAt index

/-- Runs a reader over a copy of the input, and gives what is left of the copy. -/
def onCopy (reader : Reader Item) : Reader (Item × Bytes) := do
  match reader.over (← get) with
  | .error slip => throwThe Slip slip
  | .ok (.error cause, _) => throw cause
  | .ok (.ok item, rest) => return (item, rest)

/-- A decoder's answer as what a reader comes to: the input is moved behind an item, and is
left as it was if there is none. -/
def settled (input : Bytes) :
    Except Corruption (Item × Bytes) → Except Corruption Item × Bytes
  | .ok (item, rest) => (.ok item, rest)
  | .error cause => (.error cause, input)

section Rules

variable {Item Other : Type} {input rest : Bytes}

theorem ensure_eq
    {condition : Prop} [Decidable condition] {slip : Slip} (h : condition) :
    ensure condition slip = pure () := by
  rw [ensure, if_pos h]

theorem word_eq
    {n : Nat} (h : n < UInt64.size) :
    word n = pure n := by
  rw [word, ensure_eq h, pure_bind]

theorem shiftLeft_eq
    {bits : UInt32} {places : Nat} (h : places < 32) :
    shiftLeft bits places = pure (bits <<< UInt32.ofNat places) := by
  rw [shiftLeft, ensure_eq h, pure_bind]

theorem splitAt_eq
    {bytes front : Bytes} {index : Nat}
    (hbytes : bytes = front ++ rest) (hindex : index = front.length) :
    splitAt bytes index = pure (front, rest) := by
  have hsplit : (front ++ rest).splitAt front.length = (front, rest) := by
    simp [List.splitAt_eq]
  rw [hbytes, hindex, splitAt, ensure_eq (by simp), pure_bind, hsplit]

theorem over_bind_of_ok
    {reader : Reader Item} {next : Item → Reader Other} {item : Item}
    (h : reader.over input = .ok (.ok item, rest)) :
    (reader >>= next).over input = (next item).over rest := by
  have hreader : reader input = .ok (.ok item, rest) := h
  change Except.bind (reader input) _ = _
  rw [hreader]
  rfl

theorem over_bind_of_error
    {reader : Reader Item} {next : Item → Reader Other} {cause : Corruption}
    (h : reader.over input = .ok (.error cause, rest)) :
    (reader >>= next).over input = .ok (.error cause, rest) := by
  have hreader : reader input = .ok (.error cause, rest) := h
  change Except.bind (reader input) _ = _
  rw [hreader]
  rfl

/-- Whatever becomes of the copy, the input stays as it is. -/
theorem onCopy_over_of_settled
    {reader : Reader Item} {read : Except Corruption (Item × Bytes)}
    (h : reader.over input = .ok (settled input read)) :
    (onCopy reader).over input = .ok (read, input) := by
  change Reader.over (match reader.over input with
    | .error slip => throwThe Slip slip
    | .ok (.error cause, _) => throw cause
    | .ok (.ok item, rest) => return (item, rest)) input = _
  rw [h]
  cases read <;> rfl

end Rules

/-! ## Numbers -/

/-- Joins the groups from an index on to those before it, up to the first that is the last. -/
def groups (input : Bytes) (index : Nat) (result : UInt32) : Bytes → Reader UInt32
  | [] => throw (if input.length < Var32.maxLength then .truncatedVar32 else .overlongVar32)
  | byte :: bytes => do
    let group ← shiftLeft (byte &&& 127).toUInt32 (← word (7 * index))
    let result := result ||| group
    if byte &&& 128 = 0 then
      let (_, rest) ← splitAt input (← word (index + 1))
      set rest
      return result
    groups input (← word (index + 1)) result bytes

/-- Reads a variable-length number. -/
def number : Reader UInt32 := do
  let input ← get
  groups input 0 0 (input.take Var32.maxLength)

/-- A sixth group would be shifted out of its word. -/
example :
    (groups [] 5 0 [1]).over [] = .error (.wideShift 35) := rfl

theorem toNat_and_low
    (byte : UInt8) :
    (byte &&& 127).toNat = byte.toNat % 128 := by
  rw [UInt8.toNat_and]
  exact Nat.and_two_pow_sub_one_eq_mod byte.toNat 7

theorem and_high_eq_zero_iff
    (byte : UInt8) :
    byte &&& 128 = 0 ↔ byte.toNat < 128 := by
  have hmark : ∀ n : Fin 256, n.val &&& 128 = 0 ↔ n.val < 128 := by decide +kernel
  rw [← UInt8.toNat_inj, UInt8.toNat_and]
  exact hmark ⟨byte.toNat, byte.toNat_lt⟩

/-- Shifted bits are joined to lower ones by addition, as far as both fit 32 bits. -/
theorem or_shiftLeft
    {bits : UInt32} {low places : Nat} (hlow : low < 2 ^ places) (hplaces : places < 32) :
    UInt32.ofNat low ||| bits <<< UInt32.ofNat places =
      UInt32.ofNat (low + 2 ^ places * bits.toNat) := by
  have hshift : (UInt32.ofNat places).toNat % 32 = places := by
    rw [UInt32.toNat_ofNat']
    omega
  apply UInt32.toNat_inj.mp
  rw [UInt32.toNat_or, UInt32.toNat_shiftLeft, hshift, UInt32.toNat_ofNat', UInt32.toNat_ofNat',
    Nat.shiftLeft_eq, Nat.mul_comm bits.toNat, ← Nat.or_mod_two_pow, Nat.or_comm,
    ← Nat.two_pow_add_eq_or_of_lt hlow, Nat.add_comm]

/-- One group more gives the number with one digit more. -/
theorem join_group
    {front : Bytes} (hfront : front.length < Var32.maxLength) (byte : UInt8) :
    UInt32.ofNat (Var32.digitsValue front) |||
        (byte &&& 127).toUInt32 <<< UInt32.ofNat (7 * front.length) =
      UInt32.ofNat (Var32.digitsValue (front ++ [byte])) := by
  have hlow : Var32.digitsValue front < 2 ^ (7 * front.length) := by
    rw [Nat.pow_mul]
    exact Var32.digitsValue_lt front
  have hplaces : 7 * front.length < 32 := by
    rw [Var32.maxLength] at hfront
    omega
  rw [or_shiftLeft hlow hplaces, UInt8.toNat_toUInt32, toNat_and_low, Nat.pow_mul,
    Var32.digitsValue_append, Var32.digitsValue_singleton]

-- The loop is behind some bytes of which none ends a number, and what it has joined is the
-- number of these digits.  So what it comes to is what the decoder finds in the whole input.
theorem groups_over
    {input front pending : Bytes} (hpending : front ++ pending = input.take Var32.maxLength)
    (hfront : ∀ byte ∈ front, 128 ≤ byte.toNat) :
    (groups input front.length (UInt32.ofNat (Var32.digitsValue front)) pending).over input =
      .ok (settled input (Var32.decode input)) := by
  induction pending generalizing front with
  | nil =>
    rw [List.append_nil] at hpending
    rw [Var32.decode_eq_error_iff.mpr ⟨hpending ▸ hfront, rfl⟩]
    rfl
  | cons byte pending ih =>
    have hinput : input = (front ++ [byte]) ++ (pending ++ input.drop Var32.maxLength) := by
      rw [← List.append_assoc, List.append_assoc front, List.singleton_append, hpending,
        List.take_append_drop]
    have hlength : (front ++ [byte]).length = front.length + 1 := by
      rw [List.length_append, List.length_singleton]
    have hindex : front.length < 5 := by
      have hless := congrArg List.length hpending
      rw [List.length_append, List.length_cons, List.length_take, Var32.maxLength] at hless
      omega
    have hproduct : 7 * front.length < UInt64.size := by
      simp only [UInt64.size]
      omega
    have hsum : front.length + 1 < UInt64.size := by
      simp only [UInt64.size]
      omega
    rw [groups, word_eq hproduct, pure_bind, shiftLeft_eq (by omega), pure_bind]
    simp only [join_group hindex byte, word_eq hsum, pure_bind]
    by_cases hlast : byte.toNat < 128
    · have hspells : Var32.Spells (front ++ [byte])
          (UInt32.ofNat (Var32.digitsValue (front ++ [byte]))).toNat :=
        ⟨⟨front, byte, rfl, hfront, hlast⟩, hlength ▸ hindex, UInt32.toNat_ofNat'⟩
      have hdecode := Var32.decode_eq_ok_iff_spells.mpr ⟨front ++ [byte], hinput, hspells⟩
      rw [if_pos ((and_high_eq_zero_iff byte).mpr hlast), splitAt_eq hinput hlength.symm, hdecode]
      rfl
    · have hmore : ∀ other ∈ front ++ [byte], 128 ≤ other.toNat := by
        rw [List.forall_mem_append, List.forall_mem_singleton]
        exact ⟨hfront, Nat.le_of_not_lt hlast⟩
      rw [if_neg (mt (and_high_eq_zero_iff byte).mp hlast), ← hlength]
      apply ih
      · rw [List.append_assoc, List.singleton_append, hpending]
      · exact hmore

theorem number_over
    (input : Bytes) :
    number.over input = .ok (settled input (Var32.decode input)) :=
  groups_over (List.nil_append _) (List.forall_mem_nil _)

/-! ## Length-prefixed byte strings -/

/-- Reads a length, and then so many bytes; until both are found only a copy is moved. -/
def slice : Reader Bytes := do
  let (length, rest) ← onCopy number
  if rest.length < length.toNat then throw (.shortSlice length.toNat rest.length)
  let (bytes, rest) ← splitAt rest length.toNat
  set rest
  return bytes

theorem slice_over
    (input : Bytes) :
    slice.over input = .ok (settled input (LengthPrefixed.decode input)) := by
  have hcopy := onCopy_over_of_settled (number_over input)
  rw [slice, LengthPrefixed.decode]
  cases hlength : Var32.decode input with
  | error cause =>
    rw [hlength] at hcopy
    exact over_bind_of_error hcopy
  | ok read =>
    obtain ⟨length, rest⟩ := read
    rw [hlength] at hcopy
    rw [over_bind_of_ok hcopy]
    simp only [bind, Except.bind]
    by_cases hshort : rest.length < length.toNat
    · rw [if_pos hshort, Bytes.split?_eq_none_iff.mpr hshort]
      rfl
    · have hrest := (List.take_append_drop length.toNat rest).symm
      have htaken : length.toNat = (rest.take length.toNat).length := by
        rw [List.length_take]
        omega
      rw [if_neg hshort, Bytes.split?_eq_some_iff.mpr ⟨hrest, htaken.symm⟩,
        splitAt_eq hrest htaken]
      rfl

end LsmStore.InPlace
