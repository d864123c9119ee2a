import LsmStore.Block.Basic

/-!
# Writing blocks

The written form of an entry and of a whole block.  Reading an entry gives back
what was written, whatever follows it, and opening a written block gives back its
entry region and its restart points.
-/

namespace LsmStore.Block

namespace Entry

def encode (entry : Entry) : Bytes :=
  Var32.encode entry.shared.toUInt32 ++
    (Var32.encode entry.delta.length.toUInt32 ++
      (Var32.encode entry.value.length.toUInt32 ++ (entry.delta ++ entry.value)))

/-- Whether the three numbers of an entry fit 32 bits. -/
def Encodable (entry : Entry) : Prop :=
  entry.shared < UInt32.size ∧ entry.delta.length < UInt32.size ∧
    entry.value.length < UInt32.size

/-- An entry as it is found when it is written in front of other bytes. -/
def foundBefore (entry : Entry) (rest : Bytes) : Found where
  shared := entry.shared
  deltaLength := entry.delta.length
  valueLength := entry.value.length
  payload := entry.delta ++ (entry.value ++ rest)
  size := entry.encode.length
  rest := rest

@[simp]
theorem entry_foundBefore
    (entry : Entry) (rest : Bytes) :
    (entry.foundBefore rest).entry = entry := by
  simp [foundBefore, Found.entry, Found.delta, Found.value]

theorem read_encode
    {entry : Entry}
    (hencodable : entry.Encodable) (offset : Nat) (rest : Bytes) :
    read offset (entry.encode ++ rest) = .ok (entry.foundBefore rest) := by
  obtain ⟨hsharedFits, hdeltaFits, hvalueFits⟩ := hencodable
  have hshared : entry.shared.toUInt32.toNat = entry.shared :=
    UInt32.toNat_ofNat_of_lt hsharedFits
  have hdelta : entry.delta.length.toUInt32.toNat = entry.delta.length :=
    UInt32.toNat_ofNat_of_lt hdeltaFits
  have hvalue : entry.value.length.toUInt32.toNat = entry.value.length :=
    UInt32.toNat_ofNat_of_lt hvalueFits
  have hpayload : Bytes.skip? (entry.delta.length + entry.value.length)
      (entry.delta ++ (entry.value ++ rest)) = some rest :=
    Bytes.skip?_eq_some_iff.mpr ⟨entry.delta ++ entry.value, by simp, by simp⟩
  simp only [read, encode, List.append_assoc, Var32.decode_encode, bind, Except.bind, pure,
    Except.pure, hshared, hdelta, hvalue, hpayload, Var32.span_encode, foundBefore,
    List.length_append, Var32.length_encode]
  simp only [Except.ok.injEq, Found.mk.injEq, true_and, and_true]
  omega

end Entry

def encodeEntries (entries : List Entry) : Bytes :=
  entries.flatMap Entry.encode

/-- The written form of the restart points and their number. -/
def encodeTrailer (restarts : List Nat) : Bytes :=
  restarts.flatMap (LittleEndian.encode restartWidth) ++
    LittleEndian.encode restartWidth restarts.length

def encode (entries : List Entry) (restarts : List Nat) : Bytes :=
  encodeEntries entries ++ encodeTrailer restarts

theorem length_encodeRestarts
    (restarts : List Nat) :
    (restarts.flatMap (LittleEndian.encode restartWidth)).length =
      restartWidth * restarts.length := by
  induction restarts with
  | nil => rfl
  | cons offset restarts ih =>
    simp only [List.flatMap_cons, List.length_append, LittleEndian.length_encode, ih,
      List.length_cons, Nat.mul_succ, Nat.add_comm]

theorem words_encodeRestarts
    {restarts : List Nat}
    (hfits : ∀ offset ∈ restarts, offset < UInt32.size) :
    LittleEndian.words (restarts.flatMap (LittleEndian.encode restartWidth)) = restarts := by
  induction restarts with
  | nil => rfl
  | cons offset restarts ih =>
    have hsmall : offset < LittleEndian.capacity restartWidth := hfits offset (by simp)
    have hword := LittleEndian.decode_encode_of_lt hsmall
    have htail := ih fun other hother => hfits other (by simp [hother])
    simp only [restartWidth, LittleEndian.encode] at hword htail ⊢
    simp only [List.flatMap_cons, List.cons_append, List.nil_append, LittleEndian.words, hword,
      htail]

/-- Whatever bytes lie before them, written restart points are found behind these. -/
theorem ofContents_append_encodeTrailer
    (region : Bytes) {restarts : List Nat}
    (hfits : ∀ offset ∈ restarts, offset < UInt32.size) (hfew : restarts.length < UInt32.size)
    (order : Comparator) :
    ofContents order (region ++ encodeTrailer restarts) =
      .ok ⟨.ofBytes region, restarts.toArray, order⟩ := by
  have hsmall : restarts.length < LittleEndian.capacity restartWidth := hfew
  have hsize : (region ++ encodeTrailer restarts).length =
      region.length + trailerSize restarts.length := by
    simp only [encodeTrailer, List.length_append, length_encodeRestarts,
      LittleEndian.length_encode, trailerSize, Nat.mul_succ]
  have hcount : restartCount (region ++ encodeTrailer restarts) = restarts.length := by
    have hfront : (region ++ encodeTrailer restarts).length - restartWidth =
        (region ++ restarts.flatMap (LittleEndian.encode restartWidth)).length := by
      rw [hsize, List.length_append, length_encodeRestarts, trailerSize]
      simp only [restartWidth]
      omega
    rw [restartCount, hfront, encodeTrailer, ← List.append_assoc, List.drop_left,
      LittleEndian.decode_encode_of_lt hsmall]
  have hleast : ¬ (region ++ encodeTrailer restarts).length < restartWidth := by
    rw [hsize, trailerSize]
    simp only [restartWidth]
    omega
  have henough : ¬ (region ++ encodeTrailer restarts).length < trailerSize restarts.length := by
    omega
  have hregionSize : (region ++ encodeTrailer restarts).length - trailerSize restarts.length =
      region.length := by
    omega
  have htrailer : (encodeTrailer restarts).take (restartWidth * restarts.length) =
      restarts.flatMap (LittleEndian.encode restartWidth) := by
    rw [encodeTrailer, ← length_encodeRestarts, List.take_left]
  simp only [ofContents, if_neg hleast, hcount, if_neg henough, hregionSize, List.take_left,
    List.drop_left, htrailer, words_encodeRestarts hfits]

theorem ofContents_encode
    {entries : List Entry} {restarts : List Nat}
    (hfits : ∀ offset ∈ restarts, offset < UInt32.size) (hfew : restarts.length < UInt32.size)
    (order : Comparator) :
    ofContents order (encode entries restarts) =
      .ok ⟨.ofBytes (encodeEntries entries), restarts.toArray, order⟩ :=
  ofContents_append_encodeTrailer (encodeEntries entries) hfits hfew order

end LsmStore.Block
