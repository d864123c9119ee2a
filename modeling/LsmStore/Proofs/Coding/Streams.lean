import LsmStore.Coding.Decoder
import LsmStore.Proofs.Coding.InPlace

/-!
# Streams of length-prefixed strings

Written one behind the other, byte strings are read back one after the other.  A stream
that is cut off gives the strings that lie wholly before the cut.  What is left then is
nothing, if the cut is between two strings, or the front of a written string.  Such a
front cannot be read: as a reader does not look behind what it reads, it would have read
the same in the whole string, and left something of it.
-/

namespace LsmStore

/-! ## Repeated decoding -/

namespace Decoder

variable {Item : Type} {decoder : Decoder Item} {input rest : Bytes}

/-- Decodes so many items one after the other. -/
def decodeMany (decoder : Decoder Item) :
    Nat → Bytes → Except Corruption (List Item × Bytes)
  | 0, input => .ok ([], input)
  | count + 1, input => do
    let (item, rest) ← decoder.decode input
    let (items, rest) ← decoder.decodeMany count rest
    return (item :: items, rest)

theorem drain_of_ok
    {item : Item} (h : decoder.decode input = .ok (item, rest)) :
    decoder.drain input = (decoder.drain rest).push item rest := by
  cases input with
  | nil => exact absurd (decoder.shortens h) (Nat.not_lt_zero _)
  | cons byte bytes =>
    rw [drain]
    split
    · rename_i cause hcause
      rw [h] at hcause
      cases hcause
    · rename_i other hother
      rw [h] at hother
      cases hother
      rfl

theorem drain_of_error
    {cause : Corruption} (h : decoder.decode input = .error cause) (hinput : input ≠ []) :
    decoder.drain input = ⟨[], some (cause, input)⟩ := by
  obtain ⟨byte, bytes, rfl⟩ := List.exists_cons_of_ne_nil hinput
  rw [drain]
  split
  · rename_i other hother
    rw [h] at hother
    cases hother
    rfl
  · rename_i hother
    rw [h] at hother
    cases hother

/-- Items that can be decoded are the first that repeated decoding finds; it goes on with what
follows them. -/
theorem drain_of_decodeMany
    {count : Nat} {items : List Item} (h : decoder.decodeMany count input = .ok (items, rest)) :
    (decoder.drain input).items.map Prod.fst =
        items ++ (decoder.drain rest).items.map Prod.fst ∧
      (decoder.drain input).failure = (decoder.drain rest).failure := by
  induction count generalizing input items with
  | zero =>
    cases h
    exact ⟨rfl, rfl⟩
  | succ count ih =>
    rw [decodeMany] at h
    cases hfirst : decoder.decode input with
    | error cause =>
      rw [hfirst] at h
      cases h
    | ok first =>
      rw [hfirst] at h
      cases hlater : decoder.decodeMany count first.2 with
      | error cause =>
        simp only [bind, Except.bind, hlater] at h
        cases h
      | ok later =>
        simp only [bind, Except.bind, hlater, pure, Except.pure] at h
        obtain ⟨rfl, rfl⟩ := Prod.mk.inj (Except.ok.inj h)
        obtain ⟨hitems, hfailure⟩ := ih hlater
        rw [drain_of_ok hfirst, Reading.push, List.map_cons, hitems]
        exact ⟨rfl, hfailure⟩

end Decoder

/-- A front part of what is written consists of whole items and a front part of the next. -/
theorem exists_split_of_isPrefix
    {encode : Bytes → Bytes} {items : List Bytes} {cut : Bytes}
    (hcut : cut <+: items.flatMap encode) (hproper : cut ≠ items.flatMap encode) :
    ∃ whole next later part, items = whole ++ next :: later ∧
      cut = whole.flatMap encode ++ part ∧ part <+: encode next ∧ part ≠ encode next := by
  induction items generalizing cut with
  | nil => exact absurd (List.prefix_nil.mp hcut) hproper
  | cons item items ih =>
    rw [List.flatMap_cons] at hcut hproper
    by_cases hwhole : encode item <+: cut
    · obtain ⟨behind, rfl⟩ := hwhole
      have hbehind : behind ≠ items.flatMap encode := fun hsame => hproper (by rw [hsame])
      obtain ⟨whole, next, later, part, rfl, rfl, hpart, hpartial⟩ :=
        ih ((List.prefix_append_right_inj _).mp hcut) hbehind
      exact ⟨item :: whole, next, later, part, rfl, by simp, hpart, hpartial⟩
    · have hinside : cut <+: encode item :=
        (List.prefix_or_prefix_of_prefix hcut (List.prefix_append _ _)).resolve_right hwhole
      have hpartial : cut ≠ encode item := fun hsame => hwhole (hsame ▸ List.prefix_rfl)
      exact ⟨[], item, items, cut, rfl, rfl, hinside, hpartial⟩

/-! ## Streams -/

namespace LengthPrefixed

theorem decode_append
    {input bytes rest : Bytes} (h : decode input = .ok (bytes, rest)) (more : Bytes) :
    decode (input ++ more) = .ok (bytes, rest ++ more) := by
  obtain ⟨length, hlength, hbytes⟩ := decode_eq_ok_iff.mp h
  refine decode_eq_ok_iff.mpr ⟨length, ?_, hbytes⟩
  rw [Var32.decode_append hlength, List.append_assoc]

theorem decodeMany_encode
    {items : List Bytes} (hfits : ∀ item ∈ items, item.length < UInt32.size) (rest : Bytes) :
    Decoder.lengthPrefixed.decodeMany items.length (items.flatMap encode ++ rest) =
      .ok (items, rest) := by
  induction items with
  | nil => rfl
  | cons item items ih =>
    obtain ⟨hitem, hitems⟩ := List.forall_mem_cons.mp hfits
    have hfirst : Decoder.lengthPrefixed.decode
        (encode item ++ (items.flatMap encode ++ rest)) =
        .ok (item, items.flatMap encode ++ rest) := decode_encode hitem _
    rw [List.flatMap_cons, List.append_assoc, List.length_cons, Decoder.decodeMany, hfirst]
    simp only [bind, Except.bind, ih hitems]
    rfl

theorem exists_decode_eq_error
    {bytes part : Bytes} (hfits : bytes.length < UInt32.size) (hpart : part <+: encode bytes)
    (hpartial : part ≠ encode bytes) :
    ∃ cause, decode part = .error cause := by
  cases hread : decode part with
  | error cause => exact ⟨cause, rfl⟩
  | ok read =>
    obtain ⟨more, hmore⟩ := hpart
    have hwhole := decode_append hread more
    rw [hmore, ← List.append_nil (encode bytes), decode_encode hfits] at hwhole
    have hrest := (Prod.mk.inj (Except.ok.inj hwhole)).2
    obtain ⟨-, rfl⟩ := List.append_eq_nil_iff.mp hrest.symm
    exact absurd ((List.append_nil part).symm.trans hmore) hpartial

/-- Of a front part of a written string nothing is found, and it is left unless it is empty. -/
theorem drain_of_isPrefix
    {bytes part : Bytes} (hfits : bytes.length < UInt32.size) (hpart : part <+: encode bytes)
    (hpartial : part ≠ encode bytes) :
    (Decoder.lengthPrefixed.drain part).items = [] ∧
      (part = [] → (Decoder.lengthPrefixed.drain part).failure = none) ∧
      (part ≠ [] → ∃ cause, (Decoder.lengthPrefixed.drain part).failure = some (cause, part)) := by
  by_cases hempty : part = []
  · rw [hempty, Decoder.drain]
    exact ⟨rfl, fun _ => rfl, fun hinside => absurd rfl hinside⟩
  · obtain ⟨cause, hcause⟩ := exists_decode_eq_error hfits hpart hpartial
    rw [Decoder.drain_of_error hcause hempty]
    exact ⟨rfl, fun himpossible => absurd himpossible hempty, fun _ => ⟨cause, rfl⟩⟩

/-- Strings that are written one behind the other are read back in order, and what follows them is
left.  If what is written is cut off, the strings are read that lie wholly before the cut.  That
uses up the input if the cut is between two strings; otherwise the next one fails, and the input is
left where it starts.  Whatever the input is, a failure leaves it as it was, also in the reader that
works in place; and where a string is read, the input is a numeral of its length, the string and
what is left. -/
theorem streams_decode_up_to_cut :
    (∀ items : List Bytes, (∀ item ∈ items, item.length < 2 ^ 32) →
      (∀ rest, Decoder.lengthPrefixed.decodeMany items.length (items.flatMap encode ++ rest) =
        .ok (items, rest)) ∧
      ∀ cut, cut <+: items.flatMap encode → cut ≠ items.flatMap encode →
        ∃ whole next later part, items = whole ++ next :: later ∧
          cut = whole.flatMap encode ++ part ∧ part <+: encode next ∧ part ≠ encode next ∧
          (Decoder.lengthPrefixed.drain cut).items.map Prod.fst = whole ∧
          (part = [] → (Decoder.lengthPrefixed.drain cut).failure = none) ∧
          (part ≠ [] →
            ∃ cause, (Decoder.lengthPrefixed.drain cut).failure = some (cause, part))) ∧
    ∀ input,
      (∀ cause, decode input = .error cause →
        InPlace.slice.over input = .ok (.error cause, input)) ∧
      ∀ bytes rest, decode input = .ok (bytes, rest) →
        InPlace.slice.over input = .ok (.ok bytes, rest) ∧
        ∃ digits, input = digits ++ (bytes ++ rest) ∧ Var32.Spells digits bytes.length := by
  constructor
  · intro items hfits
    refine ⟨decodeMany_encode hfits, ?_⟩
    intro cut hcut hproper
    obtain ⟨whole, next, later, part, rfl, rfl, hpart, hpartial⟩ :=
      exists_split_of_isPrefix hcut hproper
    rw [List.forall_mem_append, List.forall_mem_cons] at hfits
    obtain ⟨hwhole, hnext, -⟩ := hfits
    obtain ⟨hitems, hfailure⟩ := Decoder.drain_of_decodeMany (decodeMany_encode hwhole part)
    obtain ⟨hnone, hleft⟩ := drain_of_isPrefix hnext hpart hpartial
    rw [hnone, List.map_nil, List.append_nil] at hitems
    rw [← hfailure] at hleft
    exact ⟨whole, next, later, part, rfl, rfl, hpart, hpartial, hitems, hleft⟩
  · intro input
    have hinPlace := InPlace.slice_over input
    constructor
    · intro cause hdecode
      rw [hdecode] at hinPlace
      exact hinPlace
    · intro bytes rest hdecode
      rw [hdecode] at hinPlace
      obtain ⟨length, hlength, hbytes⟩ := decode_eq_ok_iff.mp hdecode
      obtain ⟨digits, hinput, hspells⟩ := Var32.decode_eq_ok_iff_spells.mp hlength
      rw [hbytes] at hspells
      exact ⟨hinPlace, digits, hinput, hspells⟩

/-- A cut between the two bytes of a length, and a length that asks for too much. -/
theorem streams_decode_up_to_cut_insideLength :
    let items : List Bytes := [[7], List.replicate 200 9, []]
    Decoder.lengthPrefixed.decodeMany 3 (items.flatMap encode ++ [5]) = .ok (items, [5]) ∧
      (∃ whole next later part, items = whole ++ next :: later ∧
        [1, 7, 200] = whole.flatMap encode ++ part ∧ part <+: encode next ∧ part ≠ encode next ∧
        (Decoder.lengthPrefixed.drain [1, 7, 200]).items.map Prod.fst = whole ∧
        (part = [] → (Decoder.lengthPrefixed.drain [1, 7, 200]).failure = none) ∧
        (part ≠ [] →
          ∃ cause, (Decoder.lengthPrefixed.drain [1, 7, 200]).failure = some (cause, part))) ∧
      InPlace.slice.over [3, 8, 9] = .ok (.error (.shortSlice 3 2), [3, 8, 9]) := by
  intro items
  obtain ⟨hstreams, hanyInput⟩ := streams_decode_up_to_cut
  obtain ⟨hread, hcut⟩ := hstreams items (by decide +kernel)
  have hprefix : [1, 7, 200] <+: items.flatMap encode := by decide +kernel
  have hproper : [1, 7, 200] ≠ items.flatMap encode := by decide +kernel
  exact ⟨hread [5], hcut [1, 7, 200] hprefix hproper, (hanyInput [3, 8, 9]).1 _ (by decide)⟩

end LengthPrefixed

end LsmStore
