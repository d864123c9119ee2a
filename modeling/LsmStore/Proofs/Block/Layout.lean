import LsmStore.Block.Encoding
import LsmStore.Proofs.Block.LazyKeys

/-!
# Layouts of blocks

A writer of blocks is free in two ways: an entry may share fewer bytes with the key
before it than it could, and any entries that store their whole keys may serve as
restart points.  A layout fixes both.  Every layout is opened as a block whose eager
walk makes exactly one visit for each pair, wherever it starts.
-/

namespace LsmStore.Block

/-! ## Pairs and the entries that store them -/

/-- The number of bytes that two byte strings have in common at their fronts. -/
def commonPrefix : Bytes → Bytes → Nat
  | a :: as, b :: bs => if a = b then commonPrefix as bs + 1 else 0
  | _, _ => 0

theorem take_eq_of_le_commonPrefix
    {count : Nat} {first second : Bytes}
    (hcount : count ≤ commonPrefix first second) :
    first.take count = second.take count ∧ count ≤ first.length := by
  induction first generalizing second count with
  | nil =>
    have hzero : count = 0 := by simpa [commonPrefix] using hcount
    simp [hzero]
  | cons a as ih =>
    cases second with
    | nil =>
      have hzero : count = 0 := by simpa [commonPrefix] using hcount
      simp [hzero]
    | cons b bs =>
      by_cases hsame : a = b
      · cases count with
        | zero => simp
        | succ count =>
          rw [commonPrefix, if_pos hsame] at hcount
          obtain ⟨htake, hlength⟩ := ih (Nat.le_of_succ_le_succ hcount)
          simp [hsame, htake, hlength]
      · rw [commonPrefix, if_neg hsame] at hcount
        simp [Nat.le_zero.mp hcount]

/-- Entries that store pairs of a key and a value behind a key: each entry shares bytes that
its key has in common with the key before it. -/
inductive Stores : Bytes → List (Bytes × Bytes) → List Entry → Prop where
  | nil (previous : Bytes) : Stores previous [] []
  | cons {previous key value : Bytes} {shared : Nat} {pairs : List (Bytes × Bytes)}
      {entries : List Entry} (hshared : shared ≤ commonPrefix previous key)
      (hstores : Stores key pairs entries) :
      Stores previous ((key, value) :: pairs) (⟨shared, key.drop shared, value⟩ :: entries)

/-- The visits of entries that store pairs, from an offset on. -/
def visitsFrom : Nat → List (Bytes × Bytes) → List Entry → List Visit
  | offset, (key, value) :: pairs, entry :: entries =>
    ⟨offset, key, value⟩ :: visitsFrom (offset + entry.encode.length) pairs entries
  | _, _, _ => []

@[simp]
theorem encodeEntries_cons
    (entry : Entry) (entries : List Entry) :
    encodeEntries (entry :: entries) = entry.encode ++ encodeEntries entries :=
  List.flatMap_cons

@[simp]
theorem encodeEntries_append
    (front back : List Entry) :
    encodeEntries (front ++ back) = encodeEntries front ++ encodeEntries back :=
  List.flatMap_append

theorem Entry.length_encode_ge
    (entry : Entry) :
    entry.delta.length + entry.value.length + 3 ≤ entry.encode.length := by
  have hpositive : ∀ value : UInt32, 1 ≤ (Var32.encode value).length := by
    intro value
    have hread := Var32.decode_shortens (Var32.decode_encode value [])
    exact Nat.succ_le_of_lt (by simpa using hread)
  have hshared := hpositive entry.shared.toUInt32
  have hdelta := hpositive entry.delta.length.toUInt32
  have hvalue := hpositive entry.value.length.toUInt32
  simp only [encode, List.length_append]
  omega

theorem Walk.ofRegion_encode
    {entry : Entry} {previous : Bytes}
    (hencodable : entry.Encodable) (hshared : entry.shared ≤ previous.length)
    (offset : Nat) (rest : Bytes) :
    ofRegion offset (entry.encode ++ rest) previous =
      (ofRegion (offset + entry.encode.length) rest (entry.keyAfter previous)).after
        [⟨offset, entry.keyAfter previous, entry.value⟩] := by
  have hnonempty : (entry.encode ++ rest).isEmpty = false := by
    have hbytes := entry.length_encode_ge
    rw [List.isEmpty_eq_false_iff, ← List.length_pos_iff, List.length_append]
    omega
  have hshared' : ¬ previous.length < (entry.foundBefore rest).shared := Nat.not_lt.mpr hshared
  have hvalue : (entry.foundBefore rest).value = entry.value :=
    congrArg Entry.value (entry.entry_foundBefore rest)
  have hkey : (entry.foundBefore rest).keyAfter previous = entry.keyAfter previous := by
    rw [← Entry.Found.keyAfter_entry, Entry.entry_foundBefore]
  rw [ofRegion_eq, hnonempty, Entry.read_encode hencodable]
  simp only [Bool.false_eq_true, if_false]
  rw [if_neg hshared', hkey, hvalue]
  rfl

namespace Stores

variable {previous : Bytes} {pairs : List (Bytes × Bytes)} {entries : List Entry}

theorem encodable
    (h : Stores previous pairs entries)
    (hfits : previous.length + (encodeEntries entries).length < UInt32.size) :
    ∀ entry ∈ entries, entry.Encodable := by
  induction h with
  | nil previous =>
    intro entry hentry
    cases hentry
  | @cons previous key value shared pairs entries hshared hstores ih =>
    have hprevious := (take_eq_of_le_commonPrefix hshared).2
    have hbytes := Entry.length_encode_ge ⟨shared, key.drop shared, value⟩
    simp only [List.length_drop] at hbytes
    rw [encodeEntries_cons, List.length_append] at hfits
    intro entry hentry
    rcases List.mem_cons.mp hentry with rfl | htail
    · refine ⟨?_, ?_, ?_⟩
      · exact Nat.lt_of_le_of_lt (Nat.le_add_right_of_le hprevious) hfits
      · rw [List.length_drop]
        omega
      · simp only
        omega
    · exact ih (by omega) entry htail

/-- The eager walk visits the pairs that written entries store and goes on behind them. -/
theorem ofRegion_append
    (h : Stores previous pairs entries) (hencodable : ∀ entry ∈ entries, entry.Encodable)
    (offset : Nat) (rest : Bytes) :
    ∃ last, Walk.ofRegion offset (encodeEntries entries ++ rest) previous =
      (Walk.ofRegion (offset + (encodeEntries entries).length) rest last).after
        (visitsFrom offset pairs entries) := by
  induction h generalizing offset with
  | nil previous => exact ⟨previous, rfl⟩
  | @cons previous key value shared pairs entries hshared hstores ih =>
    obtain ⟨htake, hlength⟩ := take_eq_of_le_commonPrefix hshared
    have hkey : (Entry.mk shared (key.drop shared) value).keyAfter previous = key := by
      rw [Entry.keyAfter, htake, List.take_append_drop]
    obtain ⟨hfirst, hothers⟩ := List.forall_mem_cons.mp hencodable
    obtain ⟨last, htail⟩ := ih hothers
      (offset + (Entry.mk shared (key.drop shared) value).encode.length)
    refine ⟨last, ?_⟩
    rw [encodeEntries_cons, List.append_assoc, Walk.ofRegion_encode hfirst hlength, hkey,
      htail, Walk.after_after, List.length_append, ← Nat.add_assoc]
    rfl

theorem ofRegion_eq
    (h : Stores previous pairs entries) (hencodable : ∀ entry ∈ entries, entry.Encodable)
    (offset : Nat) :
    Walk.ofRegion offset (encodeEntries entries) previous =
      ⟨visitsFrom offset pairs entries, none⟩ := by
  obtain ⟨last, hwalk⟩ := h.ofRegion_append hencodable offset []
  rw [List.append_nil] at hwalk
  rw [hwalk, Walk.ofRegion_eq]
  simp [Walk.after]

/-- Where entries are split, the pairs are split, and the entries on each side of the split
store the pairs on that side. -/
theorem split
    {front back : List Entry}
    (h : Stores previous pairs (front ++ back)) (offset : Nat) :
    ∃ frontPairs backPairs between, pairs = frontPairs ++ backPairs ∧
      Stores previous frontPairs front ∧ Stores between backPairs back ∧
      visitsFrom offset pairs (front ++ back) = visitsFrom offset frontPairs front ++
        visitsFrom (offset + (encodeEntries front).length) backPairs back := by
  induction front generalizing previous pairs offset with
  | nil => exact ⟨[], pairs, previous, rfl, .nil previous, h, rfl⟩
  | cons entry front ih =>
    cases h with
    | @cons _ key value shared pairs _ hshared hstores =>
      obtain ⟨frontPairs, backPairs, between, hpairs, hfront, hback, hvisits⟩ :=
        ih hstores (offset + (Entry.mk shared (key.drop shared) value).encode.length)
      refine ⟨(key, value) :: frontPairs, backPairs, between, ?_, .cons hshared hfront, hback, ?_⟩
      · rw [hpairs, List.cons_append]
      · simp only [List.cons_append, visitsFrom, hvisits, encodeEntries_cons,
          List.length_append, Nat.add_assoc]

theorem map_visitsFrom
    (h : Stores previous pairs entries) (offset : Nat) :
    (visitsFrom offset pairs entries).map (fun visit => (visit.key, visit.value)) = pairs := by
  induction h generalizing offset with
  | nil previous => rfl
  | cons hshared hstores ih => rw [visitsFrom, List.map_cons, ih]

/-- An entry that stores its whole key may follow any other. -/
theorem of_shared_eq_zero
    {entry : Entry}
    (h : Stores previous pairs (entry :: entries)) (hshared : entry.shared = 0)
    (other : Bytes) :
    Stores other pairs (entry :: entries) := by
  cases h with
  | cons _ hstores =>
    refine Stores.cons ?_ hstores
    simp only at hshared
    rw [hshared]
    exact Nat.zero_le _

end Stores

theorem visitsFrom_offset_lt
    (offset : Nat) (pairs : List (Bytes × Bytes)) (entries : List Entry) :
    ∀ visit ∈ visitsFrom offset pairs entries,
      visit.offset < offset + (encodeEntries entries).length := by
  induction entries generalizing offset pairs with
  | nil => simp [visitsFrom]
  | cons entry entries ih =>
    cases pairs with
    | nil => simp [visitsFrom]
    | cons pair pairs =>
      have hbytes := entry.length_encode_ge
      intro visit hvisit
      rw [encodeEntries_cons, List.length_append]
      rcases List.mem_cons.mp hvisit with rfl | htail
      · simp only
        omega
      · have hbefore := ih _ pairs visit htail
        omega

/-! ## Layouts -/

/-- Whether an entry that stores its whole key starts at an offset. -/
def WholeAt (entries : List Entry) (offset : Nat) : Prop :=
  ∃ front entry back, entries = front ++ entry :: back ∧ entry.shared = 0 ∧
    offset = (encodeEntries front).length

/-- Pairs of a key and a value, with a way to write them as a block. -/
structure Layout where
  pairs : List (Bytes × Bytes)
  entries : List Entry
  restarts : List Nat
  stores : Stores [] pairs entries
  restarts_whole : ∀ offset ∈ restarts, WholeAt entries offset
  /-- The block is small enough for four-byte offsets. -/
  fits : (encode entries restarts).length < UInt32.size

/-- A layout of strictly increasing keys, which has restart points in the order of the entries
and one at the first entry. -/
structure Layout.Sorted (layout : Layout) (order : Comparator) : Prop where
  increasing : layout.pairs.Pairwise fun first second => order.compare first.1 second.1 = .lt
  restarts_increasing : layout.restarts.Pairwise (· < ·)
  restarts_head : layout.entries ≠ [] → layout.restarts.head? = some 0

namespace Layout

variable (layout : Layout) (order : Comparator)

/-- The written block. -/
def bytes : Bytes :=
  encode layout.entries layout.restarts

/-- The block that is opened. -/
def block : Block :=
  ⟨.ofBytes (encodeEntries layout.entries), layout.restarts.toArray, order⟩

/-- One visit for each pair. -/
def visits : List Visit :=
  visitsFrom 0 layout.pairs layout.entries

theorem size_block :
    (layout.block order).entries.size = (encodeEntries layout.entries).length :=
  EntryRegion.size_eq _

theorem length_bytes :
    layout.bytes.length =
      (encodeEntries layout.entries).length + restartWidth * (layout.restarts.length + 1) := by
  rw [bytes, encode, encodeTrailer, List.length_append, List.length_append,
    length_encodeRestarts, LittleEndian.length_encode, Nat.mul_succ]

theorem encodable :
    ∀ entry ∈ layout.entries, entry.Encodable := by
  refine layout.stores.encodable ?_
  have hlength := layout.length_bytes
  have hfits := layout.fits
  rw [← bytes, hlength] at hfits
  rw [List.length_nil]
  omega

theorem restarts_fit :
    (∀ offset ∈ layout.restarts, offset < UInt32.size) ∧
      layout.restarts.length < UInt32.size := by
  have hlength := layout.length_bytes
  have hfits := layout.fits
  rw [← bytes, hlength, restartWidth] at hfits
  refine ⟨?_, by omega⟩
  intro offset hoffset
  obtain ⟨front, entry, back, hentries, -, rfl⟩ := layout.restarts_whole offset hoffset
  rw [hentries, encodeEntries_append, List.length_append] at hfits
  omega

theorem ofContents_eq :
    ofContents order layout.bytes = .ok (layout.block order) :=
  ofContents_encode layout.restarts_fit.1 layout.restarts_fit.2 order

theorem dropTo_eq
    {front back : List Entry} (hentries : layout.entries = front ++ back) :
    (layout.block order).entries.dropTo (encodeEntries front).length = encodeEntries back := by
  have hbytes : (layout.block order).entries.bytes = encodeEntries layout.entries := rfl
  rw [EntryRegion.dropTo_eq, hbytes, hentries, encodeEntries_append, List.drop_left]

/-- The walk through the block makes the visits, and nothing is wrong with it. -/
theorem walk_block :
    (layout.block order).walk.result = ⟨layout.visits, none⟩ := by
  have hregion : (layout.block order).entries.dropTo 0 = encodeEntries layout.entries :=
    layout.dropTo_eq order (List.nil_append layout.entries).symm
  rw [walk_eq, walkAt, hregion]
  exact layout.stores.ofRegion_eq layout.encodable 0

theorem fullKeyAt_eq
    {front back : List Entry} {entry : Entry}
    (hentries : layout.entries = front ++ entry :: back) (hshared : entry.shared = 0)
    (index : Nat) :
    (layout.block order).fullKeyAt index (encodeEntries front).length = .ok entry.delta := by
  have hencodable : entry.Encodable := layout.encodable entry (by simp [hentries])
  have hdrop := layout.dropTo_eq order hentries
  rw [encodeEntries_cons] at hdrop
  have hread := Entry.read_encode hencodable (encodeEntries front).length (encodeEntries back)
  rw [← hdrop] at hread
  have hfull : (entry.foundBefore (encodeEntries back)).isFull = true := by
    simp [Entry.foundBefore, Entry.Found.isFull, hshared]
  have hdelta : (entry.foundBefore (encodeEntries back)).delta = entry.delta :=
    congrArg Entry.delta (entry.entry_foundBefore _)
  exact fullKeyAt_eq_ok_iff.mpr ⟨_, hread, hfull, hdelta.symm⟩

/-- At an entry that stores its key the visits are split: the eager walk from there makes the
later ones. -/
theorem exists_split
    {offset : Nat} (hwhole : WholeAt layout.entries offset) :
    ∃ front visit back, layout.visits = front ++ visit :: back ∧ visit.offset = offset ∧
      (∀ earlier ∈ front, earlier.offset < offset) ∧
      (layout.block order).walkAt offset [] = ⟨visit :: back, none⟩ ∧
      ∀ index, (layout.block order).fullKeyAt index offset = .ok visit.key := by
  obtain ⟨front, entry, back, hentries, hshared, rfl⟩ := hwhole
  have hstores := layout.stores
  rw [hentries] at hstores
  obtain ⟨frontPairs, backPairs, between, -, -, hback, hvisits⟩ := hstores.split 0
  have hwalk := (hback.of_shared_eq_zero hshared []).ofRegion_eq
    (fun entry hentry => layout.encodable entry (by simp [hentries, List.mem_cons.mp hentry]))
    (encodeEntries front).length
  rw [← layout.dropTo_eq order hentries, ← walkAt] at hwalk
  rw [← hentries, ← visits, Nat.zero_add] at hvisits
  have hkeys := layout.fullKeyAt_eq order hentries hshared
  cases hback with
  | @cons _ key value shared pairs _ hprefix hstores =>
    have hzero : shared = 0 := hshared
    subst hzero
    refine ⟨visitsFrom 0 frontPairs front, _, _, hvisits, rfl, ?_, hwalk, hkeys⟩
    intro earlier hearlier
    have hbefore := visitsFrom_offset_lt 0 frontPairs front earlier hearlier
    rwa [Nat.zero_add] at hbefore

end Layout

end LsmStore.Block
