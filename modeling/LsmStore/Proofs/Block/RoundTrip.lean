import LsmStore.Proofs.Block.Indexed.Entries
import LsmStore.Proofs.Block.Truncation

/-!
# Opening undoes writing

What is opened and iterated is what was written: the pairs of every layout, its restart
points, and the keys at these.  The other way round, a block through which an iterator
comes without damage is the written form of the entries that are found on the way, if the
numbers in their headers are in the form in which a writer puts them.  A reader accepts
longer forms of numbers too, so this cannot be left out.
-/

namespace LsmStore

theorem LittleEndian.flatMap_encode_words
    {bytes : Bytes} {count : Nat} (hlength : bytes.length = 4 * count) :
    (words bytes).flatMap (encode 4) = bytes := by
  induction bytes using words.induct generalizing count with
  | case1 a b c d rest ih =>
    simp only [List.length_cons] at hlength
    have hrest : rest.length = 4 * (count - 1) := by omega
    have hword : encode 4 (decode [a, b, c, d]) = [a, b, c, d] := encode_decode [a, b, c, d]
    rw [words, List.flatMap_cons, hword, ih hrest]
    rfl
  | case2 bytes hshort =>
    have hnone : words bytes = [] := by
      rw [words]
      exact hshort
    have hfew := length_words bytes
    rw [hnone, List.length_nil] at hfew
    have hempty : bytes = [] := List.eq_nil_of_length_eq_zero (by omega)
    rw [hempty]
    rfl

namespace Block

variable {block : Block} {order : Comparator} {contents : Bytes} {offset : Nat}
variable {previous : Bytes} {visits : List Visit}

/-! ## From a written block to what is read -/

/-- Along an undamaged walk an iterator hands out pairs only. -/
theorem call_iterator_of_undamaged
    (hundamaged : block.walk.result.damage? = none) (number : Nat) :
    block.iterator.result.call block number =
      (block.walk.result.visits.map fun visit => Except.ok (visit.key, visit.value))[number]? := by
  rw [call_iterator, Walk.items, hundamaged, Option.toList_none, List.map_nil, List.append_nil]

/-- An opened block that gives back what a layout was made from. -/
structure Layout.GivenBackBy (layout : Layout) (block : Block) : Prop where
  undamaged : block.walk.result.damage? = none
  pairs_eq : block.walk.result.visits.map (fun visit => (visit.key, visit.value)) = layout.pairs
  /-- The calls of an iterator hand out the pairs in order, and then nothing. -/
  call_iterator_eq : ∀ number,
    block.iterator.result.call block number = (layout.pairs.map Except.ok)[number]?
  size_restarts : block.restarts.size = layout.restarts.length
  restartPoint_eq : ∀ index offset, layout.restarts[index]? = some offset →
    block.restartPoint index = .ok offset
  /-- At a restart point there is the key of the pair whose entry was written there. -/
  keyAtRestart_eq : ∀ index offset, layout.restarts[index]? = some offset →
    ∃ position key value, offset = (encodeEntries (layout.entries.take position)).length ∧
      layout.pairs[position]? = some (key, value) ∧ block.keyAtRestart index = .ok (.ok key)

theorem Stores.length_eq
    {pairs : List (Bytes × Bytes)} {entries : List Entry} (h : Stores previous pairs entries) :
    pairs.length = entries.length := by
  induction h with
  | nil previous => rfl
  | cons hshared hstores ih => rw [List.length_cons, List.length_cons, ih]

namespace Layout

variable (layout : Layout) (order : Comparator)

/-- An entry that stores its whole key stores the key of the pair at its own position. -/
theorem exists_pair_of_shared_eq_zero
    {front back : List Entry} {entry : Entry}
    (hentries : layout.entries = front ++ entry :: back) (hshared : entry.shared = 0) :
    layout.pairs[front.length]? = some (entry.delta, entry.value) := by
  have hstores := layout.stores
  rw [hentries] at hstores
  obtain ⟨frontPairs, backPairs, between, hpairs, hfront, hback, -⟩ := hstores.split 0
  rw [hpairs, ← hfront.length_eq, List.getElem?_append_right (Nat.le_refl _), Nat.sub_self]
  cases hback with
  | @cons _ key value shared pairs _ hprefix hstores =>
    simp only at hshared
    simp [hshared]

theorem restartPoint_eq
    {index offset : Nat} (hrestart : layout.restarts[index]? = some offset) :
    (layout.block order).restartPoint index = .ok offset := by
  have hstored : (layout.block order).restarts[index]? = some offset := by
    rw [← hrestart]
    exact List.getElem?_toArray
  rw [restartPoint, hstored]

theorem givenBackBy_block :
    layout.GivenBackBy (layout.block order) := by
  have hwalk := layout.walk_block order
  have hundamaged : (layout.block order).walk.result.damage? = none := by rw [hwalk]
  have hpairs : (layout.block order).walk.result.visits.map
      (fun visit => (visit.key, visit.value)) = layout.pairs := by
    rw [hwalk]
    exact layout.stores.map_visitsFrom 0
  refine ⟨hundamaged, hpairs, ?_, rfl, ?_, ?_⟩
  · intro number
    rw [call_iterator_of_undamaged hundamaged, ← hpairs, List.map_map]
    rfl
  · intro index offset hrestart
    exact layout.restartPoint_eq order hrestart
  · intro index offset hrestart
    obtain ⟨front, entry, back, hentries, hshared, rfl⟩ :=
      layout.restarts_whole offset (List.mem_of_getElem? hrestart)
    refine ⟨front.length, entry.delta, entry.value, ?_, ?_, ?_⟩
    · rw [hentries, List.take_left]
    · exact layout.exists_pair_of_shared_eq_zero hentries hshared
    · have hkey := layout.fullKeyAt_eq order hentries hshared index
      rw [keyAtRestart, layout.restartPoint_eq order hrestart]
      exact congrArg Except.ok hkey

end Layout

/-! ## From what is read to a written block -/

/-- Whether the three numbers at the front of a region are in the form in which a writer puts
them. -/
def Entry.HeaderWritten (region : Bytes) : Prop :=
  ∃ shared deltaLength valueLength payload, region =
    Var32.encode shared ++
      (Var32.encode deltaLength ++ (Var32.encode valueLength ++ payload))

/-- An entry that was found behind a written header is written as it was found. -/
theorem Entry.encode_append_rest_of_read
    {region : Bytes} {found : Found}
    (hread : read offset region = .ok found) (hwritten : HeaderWritten region) :
    found.entry.encode ++ found.rest = region := by
  obtain ⟨shared, deltaLength, valueLength, payload, rfl⟩ := hwritten
  obtain ⟨_, _, _, _, _, hshared, hdelta, hvalue, hsharedEq, hdeltaEq, hvalueEq, hskip, -⟩ :=
    exists_decode_of_read hread
  have hlength := length_delta_of_read hread
  rw [Var32.decode_encode] at hshared
  cases hshared
  rw [Var32.decode_encode] at hdelta
  cases hdelta
  rw [Var32.decode_encode, Except.ok.injEq, Prod.mk.injEq] at hvalue
  obtain ⟨rfl, hpayload⟩ := hvalue
  obtain ⟨front, hfront, hclaimed⟩ := Bytes.skip?_eq_some_iff.mp hskip
  have hvalueLength : found.value.length = found.valueLength := by
    rw [Found.value, List.length_take, List.length_drop, hfront, List.length_append]
    omega
  have hbytes : found.delta ++ (found.value ++ found.rest) = payload := by
    have hrest : found.rest = found.payload.drop (found.deltaLength + found.valueLength) := by
      rw [hfront, ← hclaimed, List.drop_left]
    rw [hpayload, Found.delta, Found.value, hrest, ← List.drop_drop, List.take_append_drop,
      List.take_append_drop]
  simp only [encode, Found.entry, hlength, hvalueLength, hsharedEq, hdeltaEq, hvalueEq,
    List.append_assoc, hbytes]
  simp

/-- A longer form of a number is read, but it is not what a writer puts. -/
example : Entry.read 0 [128, 0, 1, 0, 97] = .ok ⟨0, 1, 0, [97], 5, []⟩ ∧
    (Entry.mk 0 [97] []).encode = [0, 1, 0, 97] := by
  constructor
  · cbv
  · cbv

/-- An undamaged walk finds entries whose written form is what it has walked over. -/
theorem exists_mapM_entryAt
    (h : block.walkAt offset previous = ⟨visits, none⟩)
    (hwritten : ∀ visit ∈ visits,
      Entry.HeaderWritten (block.entries.dropTo visit.offset)) :
    ∃ founds, visits.mapM (fun visit => block.entryAt visit.offset) = .ok founds ∧
      encodeEntries (founds.map Entry.Found.entry) = block.entries.dropTo offset := by
  -- Along the visits; each step of the walk makes one.
  induction visits generalizing offset previous with
  | nil =>
    rcases walkAt_undamaged_cases h with ⟨-, hnothing⟩ | ⟨found, later, -, hvisits, -⟩
    · exact ⟨[], rfl, hnothing.symm⟩
    · cases hvisits
  | cons visit visits ih =>
    rcases walkAt_undamaged_cases h with
      ⟨hvisits, -⟩ | ⟨found, later, hread, hvisits, hrest, hlater⟩
    · cases hvisits
    · obtain ⟨rfl, rfl⟩ := List.cons.inj hvisits
      obtain ⟨hfirst, hothers⟩ := List.forall_mem_cons.mp hwritten
      obtain ⟨founds, hfounds, hencoded⟩ := ih hlater hothers
      refine ⟨found :: founds, ?_, ?_⟩
      · rw [List.mapM_cons, entryAt_eq_ok_iff.mpr hread, hfounds]
        rfl
      · rw [List.map_cons, encodeEntries_cons, hencoded, ← hrest]
        exact Entry.encode_append_rest_of_read hread hfirst

/-- Contents that are opened are long enough for as many restart points as they count. -/
theorem parts_of_ofContents
    (h : ofContents order contents = .ok block) :
    block.order = order ∧
      trailerSize (restartCount contents) ≤ contents.length ∧
      block.entries.bytes =
        contents.take (contents.length - trailerSize (restartCount contents)) ∧
      block.restarts.toList = LittleEndian.words
        ((contents.drop (contents.length - trailerSize (restartCount contents))).take
          (restartWidth * restartCount contents)) := by
  rw [ofContents] at h
  by_cases hshort : contents.length < restartWidth
  · rw [if_pos hshort] at h
    cases h
  · rw [if_neg hshort] at h
    by_cases hmisfit : contents.length < trailerSize (restartCount contents)
    · simp [hmisfit] at h
    · simp only [if_neg hmisfit] at h
      cases h
      exact ⟨rfl, Nat.le_of_not_lt hmisfit, rfl, rfl⟩

theorem encode_restartCount
    (hlong : restartWidth ≤ contents.length) :
    LittleEndian.encode restartWidth (restartCount contents) =
      contents.drop (contents.length - restartWidth) := by
  have hwidth : (contents.drop (contents.length - restartWidth)).length = restartWidth := by
    rw [List.length_drop]
    omega
  have hdigits := LittleEndian.encode_decode (contents.drop (contents.length - restartWidth))
  rwa [hwidth] at hdigits

/-- The bytes behind the entries of an opened block are the written form of its restart
points. -/
theorem append_encodeTrailer_of_ofContents
    (h : ofContents order contents = .ok block) :
    block.entries.bytes ++ encodeTrailer block.restarts.toList = contents := by
  obtain ⟨-, hinside, hentries, hrestarts⟩ := parts_of_ofContents h
  have hcount := Indexed.Reader.length_restarts hinside
  have hlong : restartWidth ≤ contents.length := by
    refine Nat.le_trans ?_ hinside
    exact Nat.le_mul_of_pos_right restartWidth (Nat.succ_pos _)
  -- The count lies behind the last restart point.
  have hbehind : contents.length - restartWidth =
      contents.length - trailerSize (restartCount contents) +
        restartWidth * restartCount contents := by
    rw [trailerSize, restartWidth] at hinside ⊢
    omega
  have hlength : ((contents.drop (contents.length - trailerSize (restartCount contents))).take
      (restartWidth * restartCount contents)).length = 4 * restartCount contents := by
    rw [List.length_take, List.length_drop]
    rw [trailerSize, restartWidth] at hinside ⊢
    omega
  have hwords := LittleEndian.flatMap_encode_words hlength
  rw [← hrestarts] at hcount hwords
  rw [encodeTrailer, hcount, encode_restartCount hlong, hbehind, restartWidth, hwords,
    ← restartWidth, ← List.drop_drop, List.take_append_drop, hentries, List.take_append_drop]

theorem size_of_ofContents
    (h : ofContents order contents = .ok block) :
    block.size = contents.length := by
  have hlength := congrArg List.length (append_encodeTrailer_of_ofContents h)
  rw [List.length_append, encodeTrailer, List.length_append, length_encodeRestarts,
    LittleEndian.length_encode, Array.length_toList] at hlength
  rw [size, EntryRegion.size_eq, trailerSize, Nat.mul_succ, hlength]

/-! ## Both ways -/

/-- Opening undoes writing, and writing undoes opening.  A written layout is opened, whatever the
order of its keys, and gives back what it was made from.  Contents that are opened and iterated
without damage, with headers as a writer puts them, are the written form of the entries that are
found on the way, whose pairs the iterator hands out, and of the restart points. -/
theorem opening_undoes_writing
    (order : Comparator) :
    (∀ layout : Layout, ∃ block, ofContents order layout.bytes = .ok block ∧
      layout.GivenBackBy block) ∧
    ∀ contents block, ofContents order contents = .ok block →
      (∀ number cause, block.iterator.result.call block number ≠ some (.error cause)) →
      (∀ visit ∈ block.walk.result.visits,
        Entry.HeaderWritten (block.entries.dropTo visit.offset)) →
      block.walk.result.damage? = none ∧
      (∀ number, block.iterator.result.call block number =
        (block.walk.result.visits.map fun visit => Except.ok (visit.key, visit.value))[number]?) ∧
      ∃ founds,
        block.walk.result.visits.mapM (fun visit => block.entryAt visit.offset) = .ok founds ∧
        encode (founds.map Entry.Found.entry) block.restarts.toList = contents := by
  constructor
  · intro layout
    exact ⟨layout.block order, layout.ofContents_eq order, layout.givenBackBy_block order⟩
  · intro contents block hopened hnoDamage hwritten
    have hundamaged := block.forall_call_iterator_ne_error_iff.mp hnoDamage
    have hwalk : block.walkAt 0 [] = ⟨block.walk.result.visits, none⟩ := by
      rw [← walk_eq, ← hundamaged]
    obtain ⟨founds, hfounds, hencoded⟩ := exists_mapM_entryAt hwalk hwritten
    refine ⟨hundamaged, call_iterator_of_undamaged hundamaged, founds, hfounds, ?_⟩
    rw [encode, hencoded, EntryRegion.dropTo_eq, List.drop_zero]
    exact append_encodeTrailer_of_ofContents hopened

/-- The keys `ba`, `b`, the empty key and `bax`, in no order, with the third and the first entry
as restart points. -/
def disordered : Layout where
  pairs := [([98, 97], [49]), ([98], []), ([], [50]), ([98, 97, 120], [51])]
  entries := [⟨0, [98, 97], [49]⟩, ⟨1, [], []⟩, ⟨0, [], [50]⟩, ⟨0, [98, 97, 120], [51]⟩]
  restarts := [9, 0]
  stores := .cons (by decide) (.cons (by decide) (.cons (by decide) (.cons (by decide) (.nil _))))
  restarts_whole := by
    intro offset hoffset
    rcases List.mem_cons.mp hoffset with rfl | htail
    · exact ⟨[⟨0, [98, 97], [49]⟩, ⟨1, [], []⟩], _, _, rfl, rfl, by cbv⟩
    · rw [List.mem_singleton.mp htail]
      exact ⟨[], _, _, rfl, rfl, rfl⟩
  fits := by cbv

/-- The entries `b` and `ba`, with a restart point far behind them. -/
def strayRestart : Block :=
  ⟨.ofBytes [0, 1, 1, 98, 49, 1, 1, 0, 97], #[200], Comparator.bytewise⟩

/-- The written form of `disordered` gives it back, and a block with a stray restart point is
written as it was. -/
theorem opening_undoes_writing_disordered :
    (∃ block, ofContents Comparator.bytewise disordered.bytes = .ok block ∧
      disordered.GivenBackBy block) ∧
    ofContents Comparator.bytewise
      [0, 1, 1, 98, 49, 1, 1, 0, 97, 200, 0, 0, 0, 1, 0, 0, 0] = .ok strayRestart ∧
    strayRestart.iterator.result.call strayRestart 1 = some (.ok ([98, 97], [])) ∧
    strayRestart.iterator.result.call strayRestart 2 = none ∧
    ∃ founds, [strayRestart.entryAt 0, strayRestart.entryAt 5].mapM id = .ok founds ∧
      encode (founds.map Entry.Found.entry) [200] =
        [0, 1, 1, 98, 49, 1, 1, 0, 97, 200, 0, 0, 0, 1, 0, 0, 0] := by
  obtain ⟨hlayouts, hcontents⟩ := opening_undoes_writing Comparator.bytewise
  have hopened : ofContents Comparator.bytewise
      [0, 1, 1, 98, 49, 1, 1, 0, 97, 200, 0, 0, 0, 1, 0, 0, 0] = .ok strayRestart := rfl
  have hwalk : strayRestart.walk.result = ⟨[⟨0, [98], [49]⟩, ⟨5, [98, 97], []⟩], none⟩ := by
    rw [walk_eq]
    cbv
  have hwritten : ∀ visit ∈ strayRestart.walk.result.visits,
      Entry.HeaderWritten (strayRestart.entries.dropTo visit.offset) := by
    rw [hwalk]
    intro visit hvisit
    rcases List.mem_cons.mp hvisit with rfl | htail
    · exact ⟨0, 1, 1, [98, 49, 1, 1, 0, 97], by cbv⟩
    · rw [List.mem_singleton.mp htail]
      exact ⟨1, 1, 0, [97], by cbv⟩
  have hnoDamage := strayRestart.forall_call_iterator_ne_error_iff.mpr (by rw [hwalk])
  obtain ⟨-, hcalls, founds, hfounds, hencoded⟩ :=
    hcontents _ strayRestart hopened hnoDamage hwritten
  rw [hwalk] at hcalls hfounds
  exact ⟨hlayouts disordered, hopened, hcalls 1, hcalls 2, founds, hfounds, hencoded⟩

end Block

end LsmStore
