import LsmStore.Proofs.Block.Indexed.Reader
import LsmStore.Proofs.Block.LazyKeys

/-!
# Indices are right

The reader that works with indices is compared with the block that it reads.  Its
sums fit machine words and its slices lie inside the contents, so each of its
computations ends without a slip, with what is found at the same place in the block.
-/

namespace LsmStore

/-! ## Words -/

theorem LittleEndian.length_words
    (bytes : Bytes) :
    (words bytes).length = bytes.length / 4 := by
  induction bytes using words.induct with
  | case1 a b c d rest ih =>
    simp only [words, List.length_cons, ih]
    omega
  | case2 bytes hshort =>
    rcases bytes with _ | ⟨a, _ | ⟨b, _ | ⟨c, _ | ⟨d, rest⟩⟩⟩⟩
    · rfl
    · simp [words]
    · simp [words]
    · simp [words]
    · exact absurd rfl (hshort a b c d rest)

theorem LittleEndian.getElem?_words
    {bytes : Bytes} {index : Nat} (hindex : index < bytes.length / 4) :
    (words bytes)[index]? = some (decode ((bytes.drop (index * 4)).take 4)) := by
  induction bytes using words.induct generalizing index with
  | case1 a b c d rest ih =>
    cases index with
    | zero => rfl
    | succ index =>
      simp only [List.length_cons] at hindex
      rw [words, List.getElem?_cons_succ, ih (by omega), Nat.succ_mul]
      rfl
  | case2 bytes hshort =>
    rcases bytes with _ | ⟨a, _ | ⟨b, _ | ⟨c, _ | ⟨d, rest⟩⟩⟩⟩
    · simp at hindex
    · simp at hindex
    · simp at hindex
    · simp at hindex
    · exact absurd rfl (hshort a b c d rest)

namespace Block.Indexed

/-! ## Computations that do not slip -/

theorem ensure_eq
    {condition : Prop} [Decidable condition] {slip : Slip} (h : condition) :
    ensure condition slip = pure () := by
  rw [ensure, if_pos h]

theorem add_eq
    {a b : Nat} (h : a + b < UInt64.size) :
    add a b = pure (a + b) := by
  rw [add, ensure_eq h, pure_bind]

theorem sub_eq
    {a b : Nat} (h : b ≤ a) :
    sub a b = pure (a - b) := by
  rw [sub, ensure_eq h, pure_bind]

theorem mul_eq
    {a b : Nat} (h : a * b < UInt64.size) :
    mul a b = pure (a * b) := by
  rw [mul, ensure_eq h, pure_bind]

theorem slice_eq
    {bytes : Bytes} {first last : Nat} (hfirst : first ≤ last) (hlast : last ≤ bytes.length) :
    slice bytes first last = pure ((bytes.drop first).take (last - first)) := by
  rw [slice, ensure_eq ⟨hfirst, hlast⟩, pure_bind]

theorem slice_to_end
    {bytes : Bytes} {first : Nat} (hfirst : first ≤ bytes.length) :
    slice bytes first bytes.length = pure (bytes.drop first) := by
  rw [slice_eq hfirst (Nat.le_refl _), List.take_of_length_le]
  exact Nat.le_of_eq List.length_drop

theorem number_eq
    (input : Bytes) :
    number input =
      pure ((Var32.decode input).map fun found => (found.1.toNat, found.2)) := by
  rw [number]
  cases hdecode : Var32.decode input with
  | error cause => rfl
  | ok found =>
    obtain ⟨value, rest⟩ := found
    have hlength := Var32.length_eq_of_decode hdecode
    have hrest := Var32.rest_eq_of_decode hdecode
    have hspan : Var32.span input ≤ input.length := Nat.le.intro hlength.symm
    simp only [slice_to_end hspan, pure_bind, ← hrest]
    rfl

theorem word_eq
    {bytes : Bytes} {index : Nat} (h : index + restartWidth ≤ bytes.length) :
    word bytes index = pure (LittleEndian.decode ((bytes.drop index).take restartWidth)) := by
  have hindex : index ≤ bytes.length := Nat.le_trans (Nat.le_add_right _ _) h
  rw [word, slice_to_end hindex, pure_bind, ensure_eq, pure_bind]
  rw [List.length_drop]
  exact Nat.le_sub_of_add_le' h

/-! ## Readers of a block -/

/-- A reader of the contents that a block was opened from. -/
structure Reader.Reads (reader : Reader) (block : Block) : Prop where
  order_eq : reader.order = block.order
  bytes_eq : block.entries.bytes = reader.data.take reader.restartsOffset
  length_eq : reader.data.length =
    reader.restartsOffset + (reader.restartCount + 1) * restartWidth
  restarts_eq : block.restarts.toList =
    LittleEndian.words ((reader.data.drop reader.restartsOffset).take
      (reader.restartCount * restartWidth))
  length_lt : reader.data.length < UInt32.size

namespace Reader

variable {reader : Reader} {block : Block}

namespace Reads

theorem size_eq
    (h : reader.Reads block) :
    block.entries.size = reader.restartsOffset := by
  have hlength := h.length_eq
  rw [EntryRegion.size_eq, h.bytes_eq, List.length_take]
  omega

theorem count_eq
    (h : reader.Reads block) :
    block.restarts.size = reader.restartCount := by
  have hlength := h.length_eq
  rw [← Array.length_toList, h.restarts_eq, LittleEndian.length_words, List.length_take,
    List.length_drop]
  rw [restartWidth] at hlength ⊢
  omega

theorem dropTo_eq
    (h : reader.Reads block) (offset : Nat) :
    block.entries.dropTo offset =
      (reader.data.drop offset).take (reader.restartsOffset - offset) := by
  rw [EntryRegion.dropTo_eq, h.bytes_eq, List.drop_take]

theorem restartsOffset_lt
    (h : reader.Reads block) :
    reader.restartsOffset < UInt32.size := by
  have hlength := h.length_eq
  have hsmall := h.length_lt
  omega

theorem restartPoint_eq
    (h : reader.Reads block) {index : Nat} (hindex : index < block.restarts.size) :
    reader.restartPoint index = pure block.restarts[index] := by
  have hlength := h.length_eq
  have hsmall := h.length_lt
  have hcount : index < reader.restartCount := h.count_eq ▸ hindex
  have hword : 4294967296 ≤ UInt64.size := by decide
  rw [restartWidth] at hlength
  rw [show UInt32.size = 4294967296 from rfl] at hsmall
  have hstored : block.restarts.toList[index]? =
      some (LittleEndian.decode
        ((reader.data.drop (reader.restartsOffset + index * 4)).take 4)) := by
    rw [h.restarts_eq, LittleEndian.getElem?_words]
    · rw [List.drop_take, List.take_take, List.drop_drop, restartWidth, Nat.min_eq_left (by omega)]
    · rw [List.length_take, List.length_drop, restartWidth]
      omega
  rw [Array.getElem?_toList] at hstored
  rw [restartPoint, ensure_eq hcount, pure_bind, restartWidth, mul_eq (by omega), pure_bind,
    add_eq (by omega), pure_bind, word_eq (by rw [restartWidth]; omega)]
  rw [(Array.getElem?_eq_some_iff.mp hstored).2]
  rfl

end Reads

theorem length_restarts
    {data : Bytes} {count : Nat} (hinside : trailerSize count ≤ data.length) :
    (LittleEndian.words ((data.drop (data.length - trailerSize count)).take
      (restartWidth * count))).length = count := by
  rw [LittleEndian.length_words, List.length_take, List.length_drop]
  rw [trailerSize, restartWidth] at hinside ⊢
  omega

theorem size_entries
    {data : Bytes} {count : Nat} :
    (EntryRegion.ofBytes (data.take (data.length - trailerSize count))).size =
      data.length - trailerSize count := by
  rw [EntryRegion.size_eq, EntryRegion.ofBytes, List.length_take]
  omega

/-- Opening contents does not slip either, whether a block is opened or not. -/
theorem ofContents_eq
    (order : Comparator) {data : Bytes} (hsmall : data.length < UInt32.size) :
    Reader.ofContents order data =
      pure ((Block.ofContents order data).map fun block =>
        ⟨data, block.entries.size, block.restarts.size, order⟩) := by
  rw [Reader.ofContents, Block.ofContents]
  by_cases hshort : data.length < restartWidth
  · simp only [hshort, if_true]
    rfl
  have hcount : word data (data.length - restartWidth) = pure (Block.restartCount data) := by
    rw [word_eq (by omega), Block.restartCount, List.take_of_length_le]
    rw [List.length_drop]
    omega
  simp only [hshort, if_false]
  rw [sub_eq (Nat.le_of_not_lt hshort), pure_bind, hcount, pure_bind]
  generalize Block.restartCount data = count
  rw [show (count + 1) * restartWidth = trailerSize count from Nat.mul_comm _ _]
  by_cases hover : data.length < trailerSize count
  · have hunfit : ¬ (trailerSize count < UInt64.size ∧ trailerSize count ≤ data.length) :=
      fun hfit => Nat.not_le_of_lt hover hfit.2
    simp only [hover, if_true, hunfit, if_false]
    rfl
  · have hinside : trailerSize count ≤ data.length := Nat.le_of_not_lt hover
    have hword : trailerSize count < UInt64.size :=
      Nat.lt_trans (Nat.lt_of_le_of_lt hinside hsmall) (by decide)
    simp only [hover, if_false]
    rw [if_pos ⟨hword, hinside⟩, sub_eq hinside, pure_bind]
    simp only [Except.map, size_entries, List.size_toArray, length_restarts hinside]

theorem reads_of_ofContents
    {order : Comparator} {data : Bytes} (hsmall : data.length < UInt32.size)
    (h : Block.ofContents order data = .ok block) :
    Reads ⟨data, block.entries.size, block.restarts.size, order⟩ block := by
  rw [Block.ofContents] at h
  by_cases hshort : data.length < restartWidth
  · simp [hshort] at h
  simp only [hshort, if_false] at h
  generalize Block.restartCount data = count at h
  by_cases hover : data.length < trailerSize count
  · simp [hover] at h
  have hinside : trailerSize count ≤ data.length := Nat.le_of_not_lt hover
  simp only [hover, if_false, Except.ok.injEq] at h
  subst h
  constructor
  · rfl
  · rw [size_entries]
    rfl
  · simp only [size_entries, List.size_toArray, length_restarts hinside]
    rw [show (count + 1) * restartWidth = trailerSize count from Nat.mul_comm _ _,
      Nat.sub_add_cancel hinside]
  · simp only [size_entries, List.size_toArray, length_restarts hinside]
    rw [Nat.mul_comm count]
  · exact hsmall

end Reader

/-! ## Entries -/

/-- The header of an entry that was found at an offset. -/
def headerAt (offset : Nat) (found : Entry.Found) : Header :=
  ⟨found.shared, found.deltaLength, found.valueLength,
    offset + (found.size - (found.deltaLength + found.valueLength))⟩

namespace Reader.Reads

variable {reader : Reader} {block : Block} {offset : Nat} {found : Entry.Found}

theorem slice_region
    (h : reader.Reads block) (hinside : offset ≤ reader.restartsOffset) :
    slice reader.data offset reader.restartsOffset = pure (block.entries.dropTo offset) := by
  have hlength := h.length_eq
  rw [slice_eq hinside (by omega), h.dropTo_eq]

theorem header_eq
    (h : reader.Reads block) (offset : Nat) :
    reader.header offset = pure ((block.entryAt offset).map (headerAt offset)) := by
  rw [Reader.header, entryAt, h.size_eq]
  by_cases hpast : reader.restartsOffset ≤ offset
  · rw [if_pos hpast, if_pos hpast]
    rfl
  rw [if_neg hpast, if_neg hpast, h.slice_region (Nat.le_of_not_le hpast), pure_bind]
  have hregion : (block.entries.dropTo offset).length = reader.restartsOffset - offset := by
    rw [EntryRegion.length_dropTo, h.size_eq]
  have hsmall := h.restartsOffset_lt
  generalize block.entries.dropTo offset = region at hregion
  rw [number_eq, pure_bind, Entry.read_eq]
  cases hshared : Var32.decode region with
  | error cause => rfl
  | ok first =>
    obtain ⟨shared, afterShared⟩ := first
    simp only [Except.map]
    rw [number_eq, pure_bind]
    cases hunshared : Var32.decode afterShared with
    | error cause => rfl
    | ok second =>
      obtain ⟨unshared, afterUnshared⟩ := second
      simp only [Except.map]
      rw [number_eq, pure_bind]
      cases hvalue : Var32.decode afterUnshared with
      | error cause => rfl
      | ok third =>
        obtain ⟨valueLength, payload⟩ := third
        have hword : 3 * UInt32.size < UInt64.size := by decide
        have hunsharedFits : unshared.toNat < UInt32.size := unshared.toNat_lt
        have hvalueFits : valueLength.toNat < UInt32.size := valueLength.toNat_lt
        have hspans := Var32.length_eq_of_decode hshared
        have hspans' := Var32.length_eq_of_decode hunshared
        have hspans'' := Var32.length_eq_of_decode hvalue
        simp only [Except.map]
        rw [add_eq (by omega), pure_bind, Bytes.skip?_eq]
        by_cases hover : payload.length < unshared.toNat + valueLength.toNat
        · simp only [hover, if_true, Nat.not_le_of_lt hover, if_false]
        · simp only [hover, if_false, Nat.le_of_not_lt hover, if_true]
          rw [sub_eq (by omega), pure_bind, add_eq (by omega), pure_bind, headerAt]
          rw [show region.length - payload.length = Var32.span region + Var32.span afterShared +
              Var32.span afterUnshared + (unshared.toNat + valueLength.toNat) -
                (unshared.toNat + valueLength.toNat) by omega]

theorem end_le
    (h : reader.Reads block)
    (hread : Entry.read offset (block.entries.dropTo offset) = .ok found) :
    offset + found.size ≤ reader.restartsOffset :=
  h.size_eq ▸ Entry.end_le_of_read hread

theorem slice_payload
    (h : reader.Reads block)
    (hread : Entry.read offset (block.entries.dropTo offset) = .ok found)
    {first count : Nat} (hpart : first + count ≤ found.deltaLength + found.valueLength) :
    slice reader.data ((headerAt offset found).keyStart + first)
        ((headerAt offset found).keyStart + first + count) =
      pure ((found.payload.drop first).take count) := by
  obtain ⟨headerSize, -, hpayload, hsize, -, -⟩ := Entry.layout_of_read hread
  have hend := h.end_le hread
  have hlength := h.length_eq
  have hstart : (headerAt offset found).keyStart = offset + headerSize := by
    rw [headerAt, hsize, Nat.add_sub_cancel]
  rw [hstart, slice_eq (by omega) (by omega), hpayload, h.dropTo_eq]
  rw [List.drop_take, List.drop_take, List.take_take, List.drop_drop, List.drop_drop,
    Nat.min_eq_left (by omega), Nat.add_sub_cancel_left, Nat.add_assoc]

theorem keyEnd_eq
    (h : reader.Reads block)
    (hread : Entry.read offset (block.entries.dropTo offset) = .ok found) :
    (headerAt offset found).keyEnd =
      pure ((headerAt offset found).keyStart + found.deltaLength) := by
  obtain ⟨headerSize, -, -, hsize, -, -⟩ := Entry.layout_of_read hread
  have hend := h.end_le hread
  have hsmall := h.restartsOffset_lt
  have hword : UInt32.size < UInt64.size := by decide
  have hfits : (headerAt offset found).keyStart + found.deltaLength < UInt64.size := by
    simp only [headerAt]
    omega
  exact add_eq hfits

theorem delta_eq
    (h : reader.Reads block)
    (hread : Entry.read offset (block.entries.dropTo offset) = .ok found) :
    reader.delta (headerAt offset found) = pure found.delta := by
  have hslice := h.slice_payload hread (Nat.le_trans
    (Nat.le_of_eq (Nat.zero_add found.deltaLength)) (Nat.le_add_right _ found.valueLength))
  rw [Reader.delta, h.keyEnd_eq hread, pure_bind]
  exact hslice

theorem value_eq
    (h : reader.Reads block)
    (hread : Entry.read offset (block.entries.dropTo offset) = .ok found) :
    reader.value (headerAt offset found) = pure found.value := by
  obtain ⟨headerSize, -, -, hsize, -, -⟩ := Entry.layout_of_read hread
  have hend := h.end_le hread
  have hsmall := h.restartsOffset_lt
  have hword : UInt32.size < UInt64.size := by decide
  have hfits : (headerAt offset found).keyStart + found.deltaLength +
      (headerAt offset found).valueLength < UInt64.size := by
    simp only [headerAt]
    omega
  rw [Reader.value, h.keyEnd_eq hread, pure_bind, add_eq hfits, pure_bind]
  exact h.slice_payload hread (Nat.le_refl _)

theorem next_eq
    (h : reader.Reads block)
    (hread : Entry.read offset (block.entries.dropTo offset) = .ok found) :
    (headerAt offset found).next = pure (offset + found.size) := by
  obtain ⟨headerSize, -, -, hsize, -, -⟩ := Entry.layout_of_read hread
  have hend := h.end_le hread
  have hsmall := h.restartsOffset_lt
  have hword : UInt32.size < UInt64.size := by decide
  have hsum : (headerAt offset found).keyStart + found.deltaLength +
      (headerAt offset found).valueLength = offset + found.size := by
    simp only [headerAt]
    omega
  rw [Header.next, h.keyEnd_eq hread, pure_bind, add_eq (by omega), hsum]

theorem keyAtRestart_eq
    (h : reader.Reads block) {index : Nat} (hindex : index < block.restarts.size) :
    reader.keyAtRestart index = pure (block.fullKeyAt index block.restarts[index]) := by
  rw [Reader.keyAtRestart, h.restartPoint_eq hindex, pure_bind, h.header_eq, pure_bind,
    fullKeyAt]
  cases hfound : block.entryAt block.restarts[index] with
  | error cause => rfl
  | ok found =>
    have hread : Entry.read block.restarts[index]
        (block.entries.dropTo block.restarts[index]) = .ok found := by
      rw [entryAt] at hfound
      split at hfound
      · cases hfound
      · exact hfound
    simp only [Except.map]
    by_cases hshared : found.shared = 0
    · have hfull := Entry.Found.isFull_iff.mpr hshared
      rw [if_neg (show ¬ (headerAt _ found).shared ≠ 0 from fun hne => hne hshared),
        h.delta_eq hread, pure_bind]
      simp only [bind, Except.bind, hfull, if_true]
      rfl
    · have hpartial := Bool.eq_false_iff.mpr (mt Entry.Found.isFull_iff.mp hshared)
      rw [if_pos (show (headerAt _ found).shared ≠ 0 from hshared)]
      simp only [bind, Except.bind, hpartial, Bool.false_eq_true, if_false]
      rfl

end Reader.Reads

end Block.Indexed

end LsmStore
