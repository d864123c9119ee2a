import LsmStore.Coding.LengthPrefixed

/-!
# Reading one item after the other

A `Decoder` reads one item from the front of an input and takes at least one
byte when it succeeds.  So it can be repeated until the input is used up or an
item cannot be read, and what it did is a finite `Reading`.  It also knows how
many bytes an item took, so that the bytes left behind every item of a reading
are found by subtraction.
-/

namespace LsmStore

/-- A reader of single items that never succeeds without taking a byte. -/
structure Decoder (Item : Type) where
  /-- The item at the front of an input and what follows it. -/
  decode : Bytes → Except Corruption (Item × Bytes)
  /-- How many bytes an item takes that was read from the front of an input. -/
  taken : Bytes → Item → Nat
  length_eq : ∀ {input item rest},
    decode input = .ok (item, rest) → input.length = taken input item + rest.length
  /-- What follows an item is shorter than the input. -/
  shortens : ∀ {input item rest},
    decode input = .ok (item, rest) → rest.length < input.length

/-- What repeated decoding found. -/
structure Reading (Item : Type) where
  /-- The items in order, each with the input that was left behind it. -/
  items : List (Item × Bytes)
  /-- Why decoding stopped and at which input, unless the input was used up. -/
  failure : Option (Corruption × Bytes)
  deriving DecidableEq, Repr

namespace Reading

def push
    (reading : Reading Item) (item : Item) (rest : Bytes) :
    Reading Item :=
  { reading with items := (item, rest) :: reading.items }

end Reading

namespace Decoder

/-- Decodes items until the input is empty or an item cannot be read. -/
def drain
    (decoder : Decoder Item) (input : Bytes) :
    Reading Item :=
  match input with
  | [] => ⟨[], none⟩
  | byte :: bytes =>
    match hread : decoder.decode (byte :: bytes) with
    | .error cause => ⟨[], some (cause, byte :: bytes)⟩
    | .ok (item, rest) =>
      have := decoder.shortens hread
      (drain decoder rest).push item rest
termination_by input.length
decreasing_by exact this

/-- Decodes one item even of an empty input, and then drains what is left. -/
def drainSome
    (decoder : Decoder Item) (input : Bytes) :
    Reading Item :=
  match decoder.decode input with
  | .error cause => ⟨[], some (cause, input)⟩
  | .ok (item, rest) => (decoder.drain rest).push item rest

/-- The number of bytes left behind each item, from the input of `left` bytes that they begin. -/
def lefts
    (decoder : Decoder Item) (left : Nat) (input : Bytes) :
    List (Item × Bytes) → List Nat
  | [] => []
  | (item, rest) :: items =>
    let left := left - decoder.taken input item
    left :: decoder.lefts left rest items

theorem lefts_drain
    (decoder : Decoder Item) (input : Bytes) :
    decoder.lefts input.length input (decoder.drain input).items =
      (decoder.drain input).items.map fun (_, rest) => rest.length := by
  fun_induction drain decoder input with
  | case1 => rfl
  | case2 => rfl
  | case3 byte bytes item rest hread _ ih =>
    have hwhole := decoder.length_eq hread
    have hleft : (byte :: bytes).length - decoder.taken (byte :: bytes) item = rest.length := by
      omega
    simp only [Reading.push, lefts, hleft, ih, List.map_cons]

theorem lefts_drainSome
    (decoder : Decoder Item) (input : Bytes) :
    decoder.lefts input.length input (decoder.drainSome input).items =
      (decoder.drainSome input).items.map fun (_, rest) => rest.length := by
  unfold drainSome
  split
  · rfl
  · rename_i item rest hread
    have hwhole := decoder.length_eq hread
    have hleft : input.length - decoder.taken input item = rest.length := by omega
    simp only [Reading.push, lefts, hleft, lefts_drain, List.map_cons]

def var32 : Decoder UInt32 where
  decode := Var32.decode
  taken input _ := Var32.span input
  length_eq := Var32.length_eq_of_decode
  shortens := Var32.decode_shortens

def lengthPrefixed : Decoder Bytes where
  decode := LengthPrefixed.decode
  taken input bytes := Var32.span input + bytes.length
  length_eq := LengthPrefixed.length_eq_of_decode
  shortens := LengthPrefixed.decode_shortens

end Decoder

end LsmStore
