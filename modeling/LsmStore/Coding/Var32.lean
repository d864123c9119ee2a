import LsmStore.Failure
import LsmStore.Bytes

/-!
# Variable-length numbers

A 32-bit number is cut into groups of seven bits.  The low group comes first,
and the high bit of a byte says that another group follows.  Five bytes hold
every number.  A reader accepts longer forms than the writer makes, as long as
they end within five bytes, and drops what does not fit 32 bits.
-/

namespace LsmStore.Var32

def maxLength : Nat := 5

/-- The groups of a number, each but the last with its high bit set. -/
def encodeNat (n : Nat) : Bytes :=
  if n < 128 then [n.toUInt8] else (n % 128 + 128).toUInt8 :: encodeNat (n / 128)
termination_by n
decreasing_by omega

def encode (value : UInt32) : Bytes :=
  encodeNat value.toNat

/-- The number of seven-bit groups that a number needs. -/
def groupCount (n : Nat) : Nat :=
  if n < 128 then 1 else groupCount (n / 128) + 1
termination_by n
decreasing_by omega

/-- How many numbers have a form of at most so many groups. -/
def capacity : Nat → Nat
  | 0 => 1
  | limit + 1 => 128 * capacity limit

def length (value : UInt32) : Nat :=
  groupCount value.toNat

/-- Reads at most `limit` groups; nothing if none of them is marked as the last. -/
def groups? : Nat → Bytes → Option (Nat × Bytes)
  | 0, _ => none
  | _ + 1, [] => none
  | limit + 1, byte :: rest =>
    if byte.toNat < 128 then some (byte.toNat, rest)
    else (groups? limit rest).map fun (high, rest) => (byte.toNat - 128 + 128 * high, rest)

/-- The number of bytes up to the first one that is marked as the last of a number. -/
def span : Bytes → Nat
  | [] => 0
  | byte :: rest => if byte.toNat < 128 then 1 else span rest + 1

def decode (input : Bytes) : Except Corruption (UInt32 × Bytes) :=
  match groups? maxLength input with
  | some (n, rest) => .ok (n.toUInt32, rest)
  | none => .error (if input.length < maxLength then .truncatedVar32 else .overlongVar32)

theorem span_pos_of_groups?
    {limit : Nat} {input rest : Bytes} {n : Nat}
    (h : groups? limit input = some (n, rest)) :
    0 < span input := by
  cases limit with
  | zero => simp [groups?] at h
  | succ limit =>
    cases input with
    | nil => simp [groups?] at h
    | cons byte input =>
      simp only [span]
      split <;> omega

/-- What is read are the bytes up to the first that is marked as the last. -/
theorem length_eq_of_groups?
    {limit : Nat} {input rest : Bytes} {n : Nat}
    (h : groups? limit input = some (n, rest)) :
    input.length = span input + rest.length := by
  induction limit generalizing input n with
  | zero => simp [groups?] at h
  | succ limit ih =>
    cases input with
    | nil => simp [groups?] at h
    | cons byte input =>
      simp only [groups?] at h
      simp only [span, List.length_cons]
      split at h
      · rename_i hlast
        simp only [Option.some.injEq, Prod.mk.injEq] at h
        rw [if_pos hlast, ← h.2, Nat.add_comm]
      · rename_i hmore
        obtain ⟨⟨high, tail⟩, hfound, hsame⟩ := Option.map_eq_some_iff.mp h
        simp only [Prod.mk.injEq] at hsame
        obtain ⟨_, rfl⟩ := hsame
        rw [if_neg hmore, ih hfound]
        omega

theorem decode_eq_ok_iff
    {input rest : Bytes} {value : UInt32} :
    decode input = .ok (value, rest) ↔
      ∃ n, groups? maxLength input = some (n, rest) ∧ n.toUInt32 = value := by
  unfold decode
  split
  · rename_i n tail hfound
    simp only [Except.ok.injEq, Prod.mk.injEq, hfound, Option.some.injEq]
    exact ⟨fun ⟨hsame, hrest⟩ => ⟨n, ⟨rfl, hrest⟩, hsame⟩,
      fun ⟨_, ⟨hnumber, hrest⟩, hsame⟩ => ⟨hnumber ▸ hsame, hrest⟩⟩
  · simp_all

theorem length_eq_of_decode
    {input rest : Bytes} {value : UInt32}
    (h : decode input = .ok (value, rest)) :
    input.length = span input + rest.length := by
  obtain ⟨n, hfound, _⟩ := decode_eq_ok_iff.mp h
  exact length_eq_of_groups? hfound

/-- Whatever is read takes at least one byte. -/
theorem decode_shortens
    {input rest : Bytes} {value : UInt32}
    (h : decode input = .ok (value, rest)) :
    rest.length < input.length := by
  obtain ⟨n, hfound, _⟩ := decode_eq_ok_iff.mp h
  have := span_pos_of_groups? hfound
  have := length_eq_of_groups? hfound
  omega

theorem groups?_append
    {limit n : Nat} {input rest : Bytes}
    (h : groups? limit input = some (n, rest)) (more : Bytes) :
    groups? limit (input ++ more) = some (n, rest ++ more) := by
  induction limit generalizing input n with
  | zero => cases h
  | succ limit ih =>
    cases input with
    | nil => cases h
    | cons byte input =>
      rw [List.cons_append, groups?]
      rw [groups?] at h
      split at h
      · rename_i hlast
        cases h
        rw [if_pos hlast]
      · rename_i hunfinished
        obtain ⟨⟨high, tail⟩, hfound, hsame⟩ := Option.map_eq_some_iff.mp h
        cases hsame
        rw [if_neg hunfinished, ih hfound]
        rfl

/-- What follows a number makes no difference to what is read. -/
theorem decode_append
    {input rest : Bytes} {value : UInt32}
    (h : decode input = .ok (value, rest)) (more : Bytes) :
    decode (input ++ more) = .ok (value, rest ++ more) := by
  obtain ⟨n, hfound, hsame⟩ := decode_eq_ok_iff.mp h
  exact decode_eq_ok_iff.mpr ⟨n, groups?_append hfound more, hsame⟩

theorem span_append
    {input rest : Bytes} {value : UInt32}
    (h : decode input = .ok (value, rest)) (more : Bytes) :
    span (input ++ more) = span input := by
  have hshort := length_eq_of_decode h
  have hlong := length_eq_of_decode (decode_append h more)
  rw [List.length_append, List.length_append] at hlong
  omega

theorem length_encodeNat
    (n : Nat) :
    (encodeNat n).length = groupCount n := by
  induction n using encodeNat.induct with
  | case1 n hsmall =>
    rw [encodeNat, groupCount, if_pos hsmall, if_pos hsmall]
    rfl
  | case2 n hlarge ih =>
    rw [encodeNat, groupCount, if_neg hlarge, if_neg hlarge, List.length_cons, ih]

theorem length_encode
    (value : UInt32) :
    (encode value).length = length value :=
  length_encodeNat _

theorem toNat_toUInt8_of_lt
    {n : Nat}
    (hsmall : n < 256) :
    n.toUInt8.toNat = n := by
  simp [Nat.mod_eq_of_lt hsmall]

/-- Written groups are read back, whatever follows them. -/
theorem groups?_encodeNat
    {limit n : Nat}
    (hfits : n < capacity limit) (hpositive : 0 < limit) (rest : Bytes) :
    groups? limit (encodeNat n ++ rest) = some (n, rest) := by
  induction limit generalizing n with
  | zero => omega
  | succ limit ih =>
    rw [encodeNat]
    split
    · rename_i hsmall
      simp [groups?, toNat_toUInt8_of_lt (show n < 256 by omega), hsmall]
    · rename_i hlarge
      have hnarrower : n / 128 < capacity limit := Nat.div_lt_of_lt_mul hfits
      have hmore : 0 < limit := by
        rcases Nat.eq_zero_or_pos limit with rfl | hmore
        · simp only [capacity] at hfits
          omega
        · exact hmore
      have hbyte := toNat_toUInt8_of_lt (show n % 128 + 128 < 256 by omega)
      have hsum : n % 128 + 128 - 128 + 128 * (n / 128) = n := by omega
      rw [List.cons_append, groups?, hbyte, if_neg (by omega), ih hnarrower hmore]
      simp only [Option.map_some, hsum]

theorem decode_encode
    (value : UInt32) (rest : Bytes) :
    decode (encode value ++ rest) = .ok (value, rest) := by
  have hfits : value.toNat < capacity maxLength :=
    Nat.lt_trans value.toNat_lt (by decide)
  rw [decode, encode, groups?_encodeNat hfits (by decide)]
  simp

theorem span_encode
    (value : UInt32) (rest : Bytes) :
    span (encode value ++ rest) = length value := by
  have hwhole := length_eq_of_decode (decode_encode value rest)
  rw [List.length_append, length_encode] at hwhole
  omega

end LsmStore.Var32
