import LsmStore.Bytes

/-!
# Fixed-width numbers

A number of fixed width is written with its low byte first.  The two widths in
use are four bytes, for restart points and their count, and eight bytes, for the
tag of an internal key.
-/

namespace LsmStore.LittleEndian

/-- The lowest `width` base-256 digits of a number, low digit first. -/
def encode : Nat → Nat → Bytes
  | 0, _ => []
  | width + 1, n => n.toUInt8 :: encode width (n / 256)

/-- The number whose base-256 digits are the bytes, low digit first. -/
def decode : Bytes → Nat
  | [] => 0
  | byte :: bytes => byte.toNat + 256 * decode bytes

/-- How many numbers have a form of that width. -/
def capacity : Nat → Nat
  | 0 => 1
  | width + 1 => 256 * capacity width

def front? (width : Nat) (input : Bytes) : Option Nat :=
  (Bytes.split? width input).map fun (front, _) => decode front

/-- The four-byte numbers that lie one behind the other; an incomplete last one is left out. -/
def words : Bytes → List Nat
  | a :: b :: c :: d :: rest => decode [a, b, c, d] :: words rest
  | _ => []

@[simp]
theorem length_encode
    (width n : Nat) :
    (encode width n).length = width := by
  induction width generalizing n with
  | zero => rfl
  | succ width ih => simp [encode, ih]

theorem decode_encode
    (width n : Nat) :
    decode (encode width n) = n % capacity width := by
  induction width generalizing n with
  | zero => simp [encode, decode, capacity, Nat.mod_one]
  | succ width ih =>
    have hdigit : n.toUInt8.toNat = n % 256 := by simp
    simp only [encode, decode, ih, hdigit, capacity, Nat.mod_mul]

theorem decode_encode_of_lt
    {width n : Nat}
    (hfits : n < capacity width) :
    decode (encode width n) = n := by
  rw [decode_encode, Nat.mod_eq_of_lt hfits]

theorem decode_lt
    (bytes : Bytes) :
    decode bytes < capacity bytes.length := by
  induction bytes with
  | nil => simp [decode, capacity]
  | cons byte bytes ih =>
    have := byte.toNat_lt
    simp only [decode, List.length_cons, capacity]
    omega

theorem encode_decode
    (bytes : Bytes) :
    encode bytes.length (decode bytes) = bytes := by
  induction bytes with
  | nil => rfl
  | cons byte bytes ih =>
    have hbyte := byte.toNat_lt
    have hquotient : (byte.toNat + 256 * decode bytes) / 256 = decode bytes := by omega
    simp only [decode, List.length_cons, encode, hquotient, ih, List.cons.injEq, and_true]
    apply UInt8.toNat_inj.mp
    have hdigit : (byte.toNat + 256 * decode bytes).toUInt8.toNat =
        (byte.toNat + 256 * decode bytes) % 256 := by simp
    omega

end LsmStore.LittleEndian
