import LsmStore.Proofs.Block.Iteration
import LsmStore.Proofs.Block.LinearScan

/-!
# Entries that are cut off

A reader of an entry takes what it has read for the whole entry and does not look behind
it.  So nothing that is read from cut off entries was not there before: an entry lies
wholly before the cut and is read as it was, or it cannot be read.  A walk thus makes
the visits before the cut and is then damaged, unless the cut is between two entries.
And a search takes the steps that it took in the whole block, until it comes to the
same entry or meets the damage.  An iterator hands out the pairs of those visits, and then
that one damage.
-/

namespace LsmStore

namespace Block

/-! ## Reading does not look ahead -/

/-- An entry as it is found if more bytes follow the region. -/
def Entry.Found.before (found : Entry.Found) (more : Bytes) : Entry.Found :=
  { found with payload := found.payload ++ more, rest := found.rest ++ more }

theorem Entry.read_append
    {offset : Nat} {region : Bytes} {found : Found}
    (h : read offset region = .ok found) (more : Bytes) :
    read offset (region ++ more) = .ok (found.before more) := by
  obtain ⟨shared, unshared, valueLength, afterShared, afterUnshared, hshared, hunshared, hvalue,
    hfoundShared, hdeltaLength, hvalueLength, hskip, hsize⟩ := exists_decode_of_read h
  obtain ⟨front, hpayload, hclaimed⟩ := Bytes.skip?_eq_some_iff.mp hskip
  have hskip' : Bytes.skip? (unshared.toNat + valueLength.toNat) (found.payload ++ more) =
      some (found.rest ++ more) := by
    rw [← hdeltaLength, ← hvalueLength]
    refine Bytes.skip?_eq_some_iff.mpr ⟨front, ?_, hclaimed⟩
    rw [hpayload, List.append_assoc]
  rw [hdeltaLength, hvalueLength] at hsize
  rw [read_eq, Var32.decode_append hshared]
  simp only [Var32.decode_append hunshared, Var32.decode_append hvalue, hskip',
    Var32.span_append hshared, Var32.span_append hunshared, Var32.span_append hvalue,
    Found.before, hfoundShared, hdeltaLength, hvalueLength, hsize]

theorem Entry.delta_before
    {offset : Nat} {region : Bytes} {found : Found}
    (h : read offset region = .ok found) (more : Bytes) :
    (found.before more).delta = found.delta := by
  have hlength := length_delta_of_read h
  rw [Found.delta, List.length_take] at hlength
  have hinside : found.deltaLength ≤ found.payload.length := by omega
  exact List.take_append_of_le_length hinside

theorem Entry.exists_read_take_eq_error
    {entry : Entry} {count : Nat}
    (hencodable : entry.Encodable) (hcount : count < entry.encode.length) (offset : Nat) :
    ∃ cause, read offset (entry.encode.take count) = .error cause := by
  cases hread : read offset (entry.encode.take count) with
  | error cause => exact ⟨cause, rfl⟩
  | ok found =>
    have hwhole := read_append hread (entry.encode.drop count)
    have hencode := read_encode hencodable offset []
    rw [List.take_append_drop] at hwhole
    rw [List.append_nil, hwhole] at hencode
    have hsize : found.size = entry.encode.length := congrArg Found.size (Except.ok.inj hencode)
    have hinside := (length_eq_of_read hread).1
    rw [List.length_take] at hinside
    omega

/-! ## Cuts through written entries -/

/-- Whether a position lies between two entries, in front of all or behind all. -/
def IsBoundary (entries : List Entry) (position : Nat) : Prop :=
  ∃ front back, entries = front ++ back ∧ position = (encodeEntries front).length

/-- A position in written entries: some entries lie before it, and it is at the start of what
follows them or inside of the first entry there. -/
structure Splits
    (entries : List Entry) (position : Nat) (front back : List Entry) (inside : Nat) : Prop where
  entries_eq : entries = front ++ back
  position_eq : position = (encodeEntries front).length + inside
  inside_lt : inside ≠ 0 → ∃ entry rest, back = entry :: rest ∧ inside < entry.encode.length

theorem exists_splits
    {entries : List Entry} {position : Nat}
    (hposition : position ≤ (encodeEntries entries).length) :
    ∃ front back inside, Splits entries position front back inside := by
  induction entries generalizing position with
  | nil =>
    have hzero : position = 0 := Nat.le_zero.mp hposition
    exact ⟨[], [], 0, rfl, hzero, fun h => absurd rfl h⟩
  | cons entry entries ih =>
    rw [encodeEntries_cons, List.length_append] at hposition
    by_cases hfirst : position < entry.encode.length
    · exact ⟨[], entry :: entries, position, rfl, (Nat.zero_add position).symm,
        fun _ => ⟨entry, entries, rfl, hfirst⟩⟩
    · obtain ⟨front, back, inside, hsplits⟩ :=
        @ih (position - entry.encode.length) (by omega)
      refine ⟨entry :: front, back, inside, ?_, ?_, hsplits.inside_lt⟩
      · rw [hsplits.entries_eq, List.cons_append]
      · have hposition := hsplits.position_eq
        rw [encodeEntries_cons, List.length_append]
        omega

theorem Splits.inside_lt_of_cons
    {entries front back : List Entry} {entry : Entry} {position inside : Nat}
    (h : Splits entries position front (entry :: back) inside) :
    inside < entry.encode.length := by
  by_cases hzero : inside = 0
  · have hbytes := entry.length_encode_ge
    omega
  · obtain ⟨other, rest, hsame, hless⟩ := h.inside_lt hzero
    rwa [(List.cons.inj hsame).1]

/-- Entries that end before the end of the entry at a split all lie in front of the split. -/
theorem exists_between
    {front back front' back' : List Entry} {entry : Entry}
    (hsame : front ++ entry :: back = front' ++ back')
    (hbefore : (encodeEntries front').length <
      (encodeEntries front).length + entry.encode.length) :
    ∃ between, front = front' ++ between ∧ back' = between ++ entry :: back := by
  rcases List.append_eq_append_iff.mp hsame with
    ⟨more, hfront, hrest⟩ | ⟨between, hfront, hback⟩
  · cases more with
    | nil => exact ⟨[], by simpa using hfront.symm, by simpa using hrest.symm⟩
    | cons other more =>
      obtain ⟨rfl, -⟩ := List.cons.inj hrest
      rw [hfront, encodeEntries_append, encodeEntries_cons, List.length_append,
        List.length_append] at hbefore
      omega
  · exact ⟨between, hfront, hback⟩

theorem Splits.isBoundary_iff
    {entries front back : List Entry} {position inside : Nat}
    (h : Splits entries position front back inside) :
    IsBoundary entries position ↔ inside = 0 := by
  constructor
  · rintro ⟨front', back', hentries, hposition⟩
    by_contra hinside
    obtain ⟨entry, rest, rfl, hless⟩ := h.inside_lt hinside
    rw [h.position_eq] at hposition
    obtain ⟨between, hfront, -⟩ :=
      exists_between (h.entries_eq.symm.trans hentries) (by omega)
    rw [hfront, encodeEntries_append, List.length_append] at hposition
    omega
  · intro hinside
    refine ⟨front, back, h.entries_eq, ?_⟩
    rw [h.position_eq, hinside, Nat.add_zero]

theorem Splits.take_encodeEntries
    {entries front back : List Entry} {position inside : Nat}
    (h : Splits entries position front back inside) :
    (encodeEntries entries).take position =
      encodeEntries front ++ (encodeEntries back).take inside := by
  rw [h.entries_eq, h.position_eq, encodeEntries_append, List.take_length_add_append]

/-- Over a part of an entry a walk makes no visit and is damaged. -/
theorem Walk.ofRegion_take
    {back : List Entry} {inside : Nat}
    (hencodable : ∀ entry ∈ back, entry.Encodable)
    (hinside : inside ≠ 0 → ∃ entry rest, back = entry :: rest ∧ inside < entry.encode.length)
    (offset : Nat) (previous : Bytes) :
    ∃ damage?, ofRegion offset ((encodeEntries back).take inside) previous = ⟨[], damage?⟩ ∧
      (damage?.isSome = true ↔ inside ≠ 0) := by
  by_cases hzero : inside = 0
  · subst hzero
    refine ⟨none, ?_, by simp⟩
    rw [List.take_zero, ofRegion_eq]
    rfl
  · obtain ⟨entry, rest, rfl, hless⟩ := hinside hzero
    obtain ⟨cause, hread⟩ :=
      Entry.exists_read_take_eq_error (hencodable entry List.mem_cons_self) hless offset
    have hnonempty : (entry.encode.take inside).isEmpty = false := by
      rw [List.isEmpty_eq_false_iff, ← List.length_pos_iff, List.length_take]
      omega
    refine ⟨some cause, ?_, by simp [hzero]⟩
    rw [encodeEntries_cons, List.take_append_of_le_length (Nat.le_of_lt hless), ofRegion_eq,
      hnonempty, hread]
    rfl

namespace Stores

variable {previous : Bytes} {pairs : List (Bytes × Bytes)} {entries front back : List Entry}
  {position inside : Nat}

/-- The walk over entries that are cut off makes the visits of those before the cut, and it is
damaged if the cut is inside of an entry. -/
theorem ofRegion_cut
    (h : Stores previous pairs entries) (hencodable : ∀ entry ∈ entries, entry.Encodable)
    (hsplits : Splits entries position front back inside) (offset : Nat) :
    ∃ frontPairs backPairs damage?,
      Stores previous frontPairs front ∧
      Walk.ofRegion offset ((encodeEntries entries).take position) previous =
        ⟨visitsFrom offset frontPairs front, damage?⟩ ∧
      (damage?.isSome = true ↔ inside ≠ 0) ∧
      visitsFrom offset pairs entries = visitsFrom offset frontPairs front ++
        visitsFrom (offset + (encodeEntries front).length) backPairs back := by
  have hentries := hsplits.entries_eq
  subst hentries
  obtain ⟨frontPairs, backPairs, between, -, hfront, -, hvisits⟩ := h.split offset
  have hfrontEncodable : ∀ entry ∈ front, entry.Encodable := fun entry hentry =>
    hencodable entry (List.mem_append_left _ hentry)
  have hbackEncodable : ∀ entry ∈ back, entry.Encodable := fun entry hentry =>
    hencodable entry (List.mem_append_right _ hentry)
  obtain ⟨last, hwalk⟩ :=
    hfront.ofRegion_append hfrontEncodable offset ((encodeEntries back).take inside)
  obtain ⟨damage?, hpart, hdamage⟩ := Walk.ofRegion_take hbackEncodable hsplits.inside_lt
    (offset + (encodeEntries front).length) last
  refine ⟨frontPairs, backPairs, damage?, hfront, ?_, hdamage, hvisits⟩
  rw [hsplits.take_encodeEntries, hwalk, hpart, Walk.after, List.append_nil]

theorem length_visitsFrom
    (h : Stores previous pairs entries) (offset : Nat) :
    (visitsFrom offset pairs entries).length = entries.length := by
  induction h generalizing offset with
  | nil previous => rfl
  | cons hshared hstores ih => rw [visitsFrom, List.length_cons, List.length_cons, ih]

end Stores

/-! ## The visits before a cut -/

theorem le_offset_of_mem_visitsFrom
    {offset : Nat} {pairs : List (Bytes × Bytes)} {entries : List Entry} {visit : Visit}
    (h : visit ∈ visitsFrom offset pairs entries) :
    offset ≤ visit.offset := by
  induction entries generalizing offset pairs with
  | nil => simp [visitsFrom] at h
  | cons entry entries ih =>
    cases pairs with
    | nil => simp [visitsFrom] at h
    | cons pair pairs =>
      rcases List.mem_cons.mp h with rfl | htail
      · exact Nat.le_refl _
      · exact Nat.le_of_add_right_le (ih htail)

theorem first_end_le_of_mem_zip
    {offset : Nat} {pairs : List (Bytes × Bytes)} {first : Entry} {entries : List Entry}
    {visit : Visit} {entry : Entry}
    (h : (visit, entry) ∈ (visitsFrom offset pairs (first :: entries)).zip (first :: entries)) :
    offset + first.encode.length ≤ visit.offset + entry.encode.length := by
  cases pairs with
  | nil => simp [visitsFrom] at h
  | cons pair pairs =>
    rw [visitsFrom, List.zip_cons_cons] at h
    rcases List.mem_cons.mp h with hsame | htail
    · cases hsame
      exact Nat.le_refl _
    · have hlater := le_offset_of_mem_visitsFrom (List.of_mem_zip htail).1
      omega

theorem end_le_of_mem_zip
    {offset : Nat} {pairs : List (Bytes × Bytes)} {entries : List Entry} {visit : Visit}
    {entry : Entry} (h : (visit, entry) ∈ (visitsFrom offset pairs entries).zip entries) :
    visit.offset + entry.encode.length ≤ offset + (encodeEntries entries).length := by
  induction entries generalizing offset pairs with
  | nil => simp at h
  | cons first entries ih =>
    cases pairs with
    | nil => simp [visitsFrom] at h
    | cons pair pairs =>
      rw [encodeEntries_cons, List.length_append]
      rw [visitsFrom, List.zip_cons_cons] at h
      rcases List.mem_cons.mp h with hsame | htail
      · cases hsame
        simp only
        omega
      · have hend := ih htail
        omega

/-- The visits of entries that follow each other, as far as an entry ends up to a position. -/
def visitsUpTo (position : Nat) (visits : List Visit) (entries : List Entry) : List Visit :=
  ((visits.zip entries).filter fun (visit, entry) =>
    visit.offset + entry.encode.length ≤ position).map Prod.fst

theorem Stores.visitsUpTo_eq
    {previous : Bytes} {frontPairs : List (Bytes × Bytes)} {entries front back : List Entry}
    {position inside : Nat}
    (h : Stores previous frontPairs front) (hsplits : Splits entries position front back inside)
    (backPairs : List (Bytes × Bytes)) :
    visitsUpTo position
        (visitsFrom 0 frontPairs front ++ visitsFrom (encodeEntries front).length backPairs back)
        entries =
      visitsFrom 0 frontPairs front := by
  have hlength := h.length_visitsFrom 0
  have hposition := hsplits.position_eq
  have hfront : ((visitsFrom 0 frontPairs front).zip front).filter (fun (visit, entry) =>
      visit.offset + entry.encode.length ≤ position) =
        (visitsFrom 0 frontPairs front).zip front := by
    rw [List.filter_eq_self]
    rintro ⟨visit, entry⟩ hmember
    have hend := end_le_of_mem_zip hmember
    rw [decide_eq_true_iff]
    omega
  have hback : ((visitsFrom (encodeEntries front).length backPairs back).zip back).filter
      (fun (visit, entry) => visit.offset + entry.encode.length ≤ position) = [] := by
    rw [List.filter_eq_nil_iff]
    rintro ⟨visit, entry⟩ hmember
    rw [decide_eq_true_iff]
    cases back with
    | nil => simp at hmember
    | cons first rest =>
      have hend := first_end_le_of_mem_zip hmember
      have hless := hsplits.inside_lt_of_cons
      omega
  rw [visitsUpTo, hsplits.entries_eq, List.zip_append hlength, List.filter_append, hfront, hback,
    List.append_nil, List.map_fst_zip hlength.le]

/-! ## Blocks that are cut off -/

/-- A block whose entries are cut off at a position, with its restart points as they are. -/
@[reducible]
def cutAt (block : Block) (position : Nat) : Block :=
  { block with entries := .ofBytes (block.entries.bytes.take position) }

section CutAt

variable {block : Block} {position : Nat}

theorem size_cutAt
    (hposition : position ≤ block.entries.size) :
    (block.cutAt position).entries.size = position := by
  rw [EntryRegion.size_eq] at hposition ⊢
  exact List.length_take_of_le hposition

theorem dropTo_cutAt
    (block : Block) (position offset : Nat) :
    (block.cutAt position).entries.dropTo offset =
      (block.entries.dropTo offset).take (position - offset) := by
  rw [EntryRegion.dropTo_eq, EntryRegion.dropTo_eq, cutAt, EntryRegion.ofBytes, List.drop_take]

theorem fullKeyAt_of_cutAt
    {index offset : Nat} {key : Bytes}
    (h : (block.cutAt position).fullKeyAt index offset = .ok key) :
    block.fullKeyAt index offset = .ok key := by
  obtain ⟨found, hread, hfull, rfl⟩ := fullKeyAt_eq_ok_iff.mp h
  rw [dropTo_cutAt] at hread
  have hwhole := Entry.read_append hread ((block.entries.dropTo offset).drop (position - offset))
  rw [List.take_append_drop] at hwhole
  exact fullKeyAt_eq_ok_iff.mpr ⟨_, hwhole, hfull, (Entry.delta_before hread _).symm⟩

/-- A bisection of what is left fails, or it takes the steps that it took before. -/
theorem bisect_of_cutAt
    {target : Bytes} {left right : Nat}
    {hnonempty : left < right} {hbound : right ≤ block.restarts.size}
    {index : Fin block.restarts.size}
    (h : (block.cutAt position).bisect target left right hnonempty hbound = .ok index) :
    block.bisect target left right hnonempty hbound = .ok index := by
  fun_induction bisect (block.cutAt position) target left right hnonempty hbound with
  | case1 => cases h
  | case2 left right hnonempty hbound several middle key hkey hgreater ih =>
    have hwhole := fullKeyAt_of_cutAt hkey
    simp only [middle] at hwhole
    rw [bisect, dif_pos several]
    simp only [hwhole]
    exact (if_pos hgreater).trans (ih h)
  | case3 left right hnonempty hbound several middle key hkey hgreater ih =>
    have hwhole := fullKeyAt_of_cutAt hkey
    simp only [middle] at hwhole
    rw [bisect, dif_pos several]
    simp only [hwhole]
    exact (if_neg hgreater).trans (ih h)
  | case4 left right hnonempty hbound hsingle =>
    rw [bisect, dif_neg hsingle]
    exact h

end CutAt

namespace Layout

/-- A written block with its entries cut off at a position, and what lies behind the entries as
it was. -/
def cutBytes (layout : Layout) (position : Nat) : Bytes :=
  (encodeEntries layout.entries).take position ++ encodeTrailer layout.restarts

/-- The visits of the entries that lie wholly before a position. -/
def visitsBefore (layout : Layout) (position : Nat) : List Visit :=
  visitsUpTo position layout.visits layout.entries

variable (layout : Layout) (order : Comparator) {position inside : Nat} {front back : List Entry}

theorem ofContents_cutBytes
    (position : Nat) :
    ofContents order (layout.cutBytes position) = .ok ((layout.block order).cutAt position) :=
  ofContents_append_encodeTrailer _ layout.restarts_fit.1 layout.restarts_fit.2 order

theorem walkAt_cutAt
    {front behind : List Entry} (hentries : layout.entries = front ++ behind)
    (position : Nat) (previous : Bytes) :
    ((layout.block order).cutAt position).walkAt (encodeEntries front).length previous =
      Walk.ofRegion (encodeEntries front).length
        ((encodeEntries behind).take (position - (encodeEntries front).length)) previous := by
  rw [walkAt, dropTo_cutAt, layout.dropTo_eq order hentries]

/-- The walk over what is left makes the visits before the cut, and it is damaged if the cut is
inside of an entry. -/
theorem exists_walk_cutAt
    (hsplits : Splits layout.entries position front back inside) :
    ∃ damage?, ((layout.block order).cutAt position).walk.result =
        ⟨layout.visitsBefore position, damage?⟩ ∧
      (damage?.isSome = true ↔ inside ≠ 0) := by
  obtain ⟨frontPairs, backPairs, damage?, hfront, hwalk, hdamage, hvisits⟩ :=
    layout.stores.ofRegion_cut layout.encodable hsplits 0
  refine ⟨damage?, ?_, hdamage⟩
  have hleft := layout.walkAt_cutAt order (List.nil_append layout.entries).symm position []
  rw [Nat.zero_add] at hvisits
  rw [visitsBefore, visits, hvisits, hfront.visitsUpTo_eq hsplits, walk_eq, ← hwalk]
  exact hleft

/-- From a restart point before a cut inside of an entry the walk makes the visits that it made,
as far as the cut, and is damaged then. -/
theorem exists_walkAt_cutAt
    (hsplits : Splits layout.entries position front back inside) (hinside : inside ≠ 0)
    {offset : Nat} (hwhole : WholeAt layout.entries offset) (hbefore : offset < position) :
    ∃ visits more cause,
      ((layout.block order).cutAt position).walkAt offset [] = ⟨visits, some cause⟩ ∧
      (layout.block order).walkAt offset [] = ⟨visits ++ more, none⟩ := by
  obtain ⟨front', entry', back', hentries, hshared, rfl⟩ := hwhole
  obtain ⟨entry, rest, rfl, hless⟩ := hsplits.inside_lt hinside
  have hposition := hsplits.position_eq
  obtain ⟨between, hfront, hback⟩ :=
    exists_between (hsplits.entries_eq.symm.trans hentries) (by omega)
  have hsplits' : Splits (entry' :: back') (position - (encodeEntries front').length) between
      (entry :: rest) inside := by
    refine ⟨hback, ?_, hsplits.inside_lt⟩
    rw [hposition, hfront, encodeEntries_append, List.length_append]
    omega
  have hstores := layout.stores
  rw [hentries] at hstores
  obtain ⟨-, pairs, previous, -, -, hbehind, -⟩ := hstores.split 0
  have hstart := hbehind.of_shared_eq_zero hshared []
  have hencodable : ∀ entry ∈ entry' :: back', entry.Encodable := by
    intro entry hentry
    apply layout.encodable
    rw [hentries]
    exact List.mem_append_right _ hentry
  obtain ⟨frontPairs, backPairs, damage?, -, hwalk, hdamage, hvisits⟩ :=
    hstart.ofRegion_cut hencodable hsplits' (encodeEntries front').length
  obtain ⟨cause, rfl⟩ := Option.isSome_iff_exists.mp (hdamage.mpr hinside)
  have hleft := layout.walkAt_cutAt order hentries position []
  have hall : (layout.block order).walkAt (encodeEntries front').length [] =
      ⟨visitsFrom (encodeEntries front').length pairs (entry' :: back'), none⟩ := by
    rw [walkAt, layout.dropTo_eq order hentries]
    exact hstart.ofRegion_eq hencodable _
  rw [hvisits] at hall
  exact ⟨_, _, cause, hleft.trans hwalk, hall⟩

/-- A search of what is left, with the cut inside of an entry: it comes to the visit that the
search of the whole block comes to, or it is damaged. -/
theorem lowerBoundWalk_cutAt_cases
    (hsplits : Splits layout.entries position front back inside) (hinside : inside ≠ 0)
    (hrestarts : layout.restarts ≠ []) (target : Bytes) :
    (∃ cause, ((layout.block order).cutAt position).lowerBoundWalk target = ⟨[], some cause⟩) ∨
      ∃ visit left damage? all,
        ((layout.block order).cutAt position).lowerBoundWalk target = ⟨visit :: left, damage?⟩ ∧
        (layout.block order).lowerBoundWalk target = ⟨visit :: all, none⟩ := by
  have hposition : position ≤ (layout.block order).entries.size := by
    obtain ⟨entry, rest, hback, hless⟩ := hsplits.inside_lt hinside
    rw [layout.size_block order, hsplits.entries_eq, hsplits.position_eq, hback,
      encodeEntries_append, encodeEntries_cons, List.length_append, List.length_append]
    omega
  have hsize := size_cutAt hposition
  have hsome : 0 < (layout.block order).restarts.size := List.length_pos_iff.mpr hrestarts
  have hstart := hsplits.position_eq
  have hleft : 0 < ((layout.block order).cutAt position).restarts.size ∧
      0 < ((layout.block order).cutAt position).entries.size := ⟨hsome, by omega⟩
  have hall : 0 < (layout.block order).restarts.size ∧ 0 < (layout.block order).entries.size :=
    ⟨hsome, by omega⟩
  rw [lowerBoundWalk, startIndex?_of_usable hleft]
  cases hbisect : ((layout.block order).cutAt position).bisect target 0 _ hsome (Nat.le_refl _) with
  | error cause => exact Or.inl ⟨cause, rfl⟩
  | ok index =>
    simp only
    have hwhole := bisect_of_cutAt hbisect
    rw [lowerBoundWalk, startIndex?_of_usable hall, hwhole]
    simp only
    by_cases hpast : ((layout.block order).cutAt position).entries.size ≤
        (layout.block order).restarts[(index : Nat)]
    · rw [if_pos hpast]
      exact Or.inl ⟨_, rfl⟩
    have hbefore : (layout.block order).restarts[(index : Nat)] < position := by omega
    obtain ⟨visits, more, cause, hwalk, hwhole⟩ := layout.exists_walkAt_cutAt order hsplits hinside
      (layout.wholeAt_restart order index) hbefore
    simp only [Fin.getElem_fin] at hwalk hwhole
    rw [if_neg hpast, if_neg (by omega), hwalk, hwhole, Walk.seek, Walk.seek,
      List.dropWhile_append]
    cases visits.dropWhile fun visit =>
      (layout.block order).order.compare visit.key target == .lt with
    | nil => exact Or.inl ⟨cause, rfl⟩
    | cons visit left => exact Or.inr ⟨visit, left, _, left ++ more, rfl, rfl⟩

end Layout

/-- What is left of a written block whose entries are cut off is not read as good data.  The
walk over it makes just the visits of the entries that lie wholly before the cut, and it is
damaged then exactly if the cut is inside of an entry.  So the calls of an iterator hand out the
pairs of those entries, then one damage if the cut is inside of an entry, and from then on
nothing.  And if it is, every search comes to the entry that the search of the whole block comes
to, or it tells the damage. -/
theorem Layout.cut_entries_are_not_misread
    (layout : Layout) (order : Comparator)
    (hrestarts : layout.entries ≠ [] → layout.restarts ≠ []) {position : Nat}
    (hposition : position ≤ (encodeEntries layout.entries).length) :
    ∃ whole cut damage?,
      ofContents order layout.bytes = .ok whole ∧
      ofContents order (layout.cutBytes position) = .ok cut ∧
      cut.walk.result = ⟨layout.visitsBefore position, damage?⟩ ∧
      (∀ number, cut.iterator.result.call cut number =
        ((layout.visitsBefore position).map (fun visit => Except.ok (visit.key, visit.value)) ++
          damage?.toList.map Except.error)[number]?) ∧
      (damage?.isSome = true ↔ ¬ IsBoundary layout.entries position) ∧
      (¬ IsBoundary layout.entries position → ∀ target : Bytes,
        let cursor := (cut.lowerBound target).result
        (∃ visit, cursor.StandsAt cut (some visit) ∧
          (whole.lowerBound target).result.StandsAt whole (some visit)) ∨
        ∃ cause, cut.look cursor = ⟨false, cut.entries.size, some cause⟩) := by
  obtain ⟨front, back, inside, hsplits⟩ := exists_splits hposition
  obtain ⟨damage?, hwalk, hdamage⟩ := layout.exists_walk_cutAt order hsplits
  refine ⟨layout.block order, (layout.block order).cutAt position, damage?,
    layout.ofContents_eq order, layout.ofContents_cutBytes order position, hwalk, ?_, ?_, ?_⟩
  · intro number
    rw [call_iterator, hwalk, Walk.items]
  · rw [hdamage, hsplits.isBoundary_iff]
  · intro hinside target cursor
    rw [hsplits.isBoundary_iff] at hinside
    obtain ⟨entry, rest, hback, -⟩ := hsplits.inside_lt hinside
    have hentries : layout.entries ≠ [] := by
      rw [hsplits.entries_eq, hback]
      exact List.append_ne_nil_of_right_ne_nil _ (List.cons_ne_nil _ _)
    have hcut := lowerBound_shows ((layout.block order).cutAt position) target
    have hwhole := lowerBound_shows (layout.block order) target
    rcases layout.lowerBoundWalk_cutAt_cases order hsplits hinside (hrestarts hentries) target with
      ⟨cause, hended⟩ | ⟨visit, left, damage?, all, hleft, hall⟩
    · rw [hended] at hcut
      refine Or.inr ⟨cause, ?_⟩
      rw [show cursor = .ended (some cause) from hcut.eq_ended]
      rfl
    · rw [hleft] at hcut
      rw [hall] at hwhole
      exact Or.inl ⟨visit, hcut.standsAt_of_cons, hwhole.standsAt_of_cons⟩

/-- The pairs of `mixedCase` with restart points at the first two entries. -/
def earlyRestarts : Layout where
  pairs := mixedCase.pairs
  entries := mixedCase.entries
  restarts := [0, 6]
  stores := mixedCase.stores
  restarts_whole := by
    intro offset hoffset
    rcases List.mem_cons.mp hoffset with rfl | htail
    · exact ⟨[], _, _, rfl, rfl, rfl⟩
    · rw [List.mem_singleton.mp htail]
      exact ⟨[_], _, _, rfl, rfl, by cbv⟩
  fits := by cbv

/-- A cut through the third entry hides it and the fourth, and leaves the second as it was. -/
theorem Layout.cut_entries_are_not_misread_earlyRestarts :
    ¬ IsBoundary earlyRestarts.entries 14 ∧
      ∃ whole cut cause,
        ofContents ⟨"caseless", Bytes.compareCaseless⟩ earlyRestarts.bytes = .ok whole ∧
        ofContents ⟨"caseless", Bytes.compareCaseless⟩ (earlyRestarts.cutBytes 14) = .ok cut ∧
        cut.walk.result = ⟨[⟨0, [97, 98], [49]⟩, ⟨6, [65, 99], [50]⟩], some cause⟩ ∧
        cut.iterator.result.call cut 1 = some (.ok ([65, 99], [50])) ∧
        cut.iterator.result.call cut 2 = some (.error cause) ∧
        cut.iterator.result.call cut 3 = none ∧
        (∃ visit, (cut.lowerBound [97, 67]).result.StandsAt cut (some visit) ∧
          (whole.lowerBound [97, 67]).result.StandsAt whole (some visit)) ∧
        ∃ cause, cut.look (cut.lowerBound [98]).result = ⟨false, cut.entries.size, some cause⟩ := by
  have hsplits : Splits earlyRestarts.entries 14 [⟨0, [97, 98], [49]⟩, ⟨0, [65, 99], [50]⟩]
      [⟨1, [67, 100], []⟩, ⟨0, [98], [51]⟩] 2 :=
    ⟨rfl, by cbv, fun _ => ⟨_, _, rfl, by cbv⟩⟩
  have hinside : ¬ IsBoundary earlyRestarts.entries 14 := by
    rw [hsplits.isBoundary_iff]
    decide
  have hvisits : earlyRestarts.visitsBefore 14 = [⟨0, [97, 98], [49]⟩, ⟨6, [65, 99], [50]⟩] := by
    cbv
  obtain ⟨whole, cut, damage?, hwhole, hcut, hwalk, hcalls, hdamage, hsearches⟩ :=
    Layout.cut_entries_are_not_misread earlyRestarts ⟨"caseless", Bytes.compareCaseless⟩
      (fun _ => by decide) (show 14 ≤ (encodeEntries earlyRestarts.entries).length by cbv)
  obtain ⟨cause, rfl⟩ := Option.isSome_iff_exists.mp (hdamage.mpr hinside)
  rw [hvisits] at hwalk hcalls
  obtain rfl := Except.ok.inj (hcut.symm.trans (earlyRestarts.ofContents_cutBytes _ 14))
  refine ⟨hinside, whole, _, cause, hwhole, hcut, hwalk, hcalls 1, hcalls 2, hcalls 3, ?_, ?_⟩
  · rcases hsearches hinside [97, 67] with hfound | ⟨cause, hended⟩
    · exact hfound
    · have hon : (((earlyRestarts.block ⟨"caseless", Bytes.compareCaseless⟩).cutAt 14).lowerBound
          [97, 67]).result.isOn = true := by
        cbv
      cases hon.symm.trans (congrArg Look.isOn hended)
  · rcases hsearches hinside [98] with ⟨visit, hfound, -⟩ | hended
    · have hoff : (((earlyRestarts.block ⟨"caseless", Bytes.compareCaseless⟩).cutAt 14).lowerBound
          [98]).result.isOn = false := by
        cbv
      cases hoff.symm.trans (congrArg Look.isOn hfound.1)
    · exact hended

end Block

end LsmStore
