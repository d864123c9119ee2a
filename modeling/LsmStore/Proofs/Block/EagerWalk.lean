import LsmStore.Block.Session

/-!
# Rebuilding every key

The key of an entry is its own bytes behind bytes of the key before it.  The walk
that rebuilds every key at once, from the front of a region on, is the plain
meaning of a chain of entries.  A cursor rebuilds keys only when it is asked, from
whatever it happens to remember.  Here a cursor is related to the eager walk that
it stands at the front of, and every step of a cursor is shown to keep that
relation.
-/

namespace LsmStore

/-- Whatever is read from the front, the rest is what follows the bytes of the number. -/
theorem Var32.rest_eq_of_decode
    {input rest : Bytes} {value : UInt32}
    (h : decode input = .ok (value, rest)) :
    rest = input.drop (span input) := by
  obtain ⟨n, hgroups, -⟩ := decode_eq_ok_iff.mp h
  generalize maxLength = limit at hgroups
  clear h
  induction limit generalizing input n with
  | zero => simp [groups?] at hgroups
  | succ limit ih =>
    cases input with
    | nil => simp [groups?] at hgroups
    | cons byte input =>
      simp only [groups?] at hgroups
      by_cases hlast : byte.toNat < 128
      · simp only [hlast, if_true, Option.some.injEq, Prod.mk.injEq] at hgroups
        simp [span, hlast, hgroups.2]
      · simp only [hlast, if_false] at hgroups
        obtain ⟨⟨high, tail⟩, htail, hsame⟩ := Option.map_eq_some_iff.mp hgroups
        have hrest : tail = rest := by simpa using congrArg Prod.snd hsame
        subst hrest
        simpa [span, hlast] using ih high htail

namespace Block

/-! ## Where an entry lies -/

theorem Entry.read_eq
    (offset : Nat) (region : Bytes) :
    read offset region =
      match Var32.decode region with
      | .error cause => .error cause
      | .ok (shared, afterShared) =>
        match Var32.decode afterShared with
        | .error cause => .error cause
        | .ok (unshared, afterUnshared) =>
          match Var32.decode afterUnshared with
          | .error cause => .error cause
          | .ok (valueLength, payload) =>
            match Bytes.skip? (unshared.toNat + valueLength.toNat) payload with
            | none => .error (.entryOverrun offset (unshared.toNat + valueLength.toNat)
                payload.length)
            | some rest => .ok ⟨shared.toNat, unshared.toNat, valueLength.toNat, payload,
                Var32.span region + Var32.span afterShared + Var32.span afterUnshared +
                  (unshared.toNat + valueLength.toNat), rest⟩ := by
  rw [read]
  cases Var32.decode region with
  | error cause => rfl
  | ok first =>
    cases hunshared : Var32.decode first.2 with
    | error cause => simp [bind, Except.bind, hunshared]
    | ok second =>
      cases hvalue : Var32.decode second.2 with
      | error cause => simp [bind, Except.bind, hunshared, hvalue]
      | ok third =>
        cases hskip : Bytes.skip? (second.1.toNat + third.1.toNat) third.2 <;>
          simp [bind, Except.bind, pure, Except.pure, hunshared, hvalue, hskip]

theorem Entry.exists_decode_of_read
    {offset : Nat} {region : Bytes} {found : Found}
    (h : read offset region = .ok found) :
    ∃ (shared unshared valueLength : UInt32) (afterShared afterUnshared : Bytes),
      Var32.decode region = .ok (shared, afterShared) ∧
      Var32.decode afterShared = .ok (unshared, afterUnshared) ∧
      Var32.decode afterUnshared = .ok (valueLength, found.payload) ∧
      found.shared = shared.toNat ∧ found.deltaLength = unshared.toNat ∧
      found.valueLength = valueLength.toNat ∧
      Bytes.skip? (found.deltaLength + found.valueLength) found.payload = some found.rest ∧
      found.size = Var32.span region + Var32.span afterShared + Var32.span afterUnshared +
        (found.deltaLength + found.valueLength) := by
  rw [read_eq] at h
  cases hshared : Var32.decode region with
  | error cause => simp [hshared] at h
  | ok first =>
    cases hunshared : Var32.decode first.2 with
    | error cause => simp [hshared, hunshared] at h
    | ok second =>
      cases hvalue : Var32.decode second.2 with
      | error cause => simp [hshared, hunshared, hvalue] at h
      | ok third =>
        cases hskip : Bytes.skip? (second.1.toNat + third.1.toNat) third.2 with
        | none => simp [hshared, hunshared, hvalue, hskip] at h
        | some rest =>
          simp only [hshared, hunshared, hvalue, hskip, Except.ok.injEq] at h
          subst h
          exact ⟨first.1, second.1, third.1, first.2, second.2, rfl, hunshared, hvalue, rfl, rfl,
            rfl, hskip, rfl⟩

theorem Entry.shared_lt_of_read
    {offset : Nat} {region : Bytes} {found : Found}
    (h : read offset region = .ok found) :
    found.shared < UInt32.size := by
  obtain ⟨shared, -, -, -, -, -, -, -, hshared, -⟩ := exists_decode_of_read h
  rw [hshared]
  exact shared.toNat_lt

/-- An entry that was found in a region: its header, then its key bytes and its value, then
the rest of the region. -/
theorem Entry.layout_of_read
    {offset : Nat} {region : Bytes} {found : Found}
    (h : read offset region = .ok found) :
    ∃ headerSize, 3 ≤ headerSize ∧ found.payload = region.drop headerSize ∧
      found.size = headerSize + (found.deltaLength + found.valueLength) ∧
      found.size ≤ region.length ∧ found.rest = region.drop found.size := by
  have hpositive : ∀ {input rest : Bytes} {value : UInt32},
      Var32.decode input = .ok (value, rest) → 1 ≤ Var32.span input := by
    intro input rest value hdecode
    have hsum := Var32.length_eq_of_decode hdecode
    have hless := Var32.decode_shortens hdecode
    omega
  obtain ⟨shared, unshared, valueLength, afterShared, afterUnshared, hshared, hunshared, hvalue,
    -, -, -, hskip, hsize⟩ := exists_decode_of_read h
  have hpayload : found.payload = region.drop
      (Var32.span region + Var32.span afterShared + Var32.span afterUnshared) := by
    rw [Var32.rest_eq_of_decode hvalue, Var32.rest_eq_of_decode hunshared,
      Var32.rest_eq_of_decode hshared, List.drop_drop, List.drop_drop, Nat.add_assoc]
  obtain ⟨front, hfront, hclaimed⟩ := Bytes.skip?_eq_some_iff.mp hskip
  have hfirst := hpositive hshared
  have hsecond := hpositive hunshared
  have hthird := hpositive hvalue
  refine ⟨_, ?_, hpayload, hsize, ?_, ?_⟩
  · omega
  · exact Nat.le.intro (length_eq_of_read h).1.symm
  · rw [hsize, ← List.drop_drop, ← hpayload, hfront, ← hclaimed, List.drop_left]

theorem Entry.length_delta_of_read
    {offset : Nat} {region : Bytes} {found : Found}
    (h : read offset region = .ok found) :
    found.delta.length = found.deltaLength := by
  obtain ⟨headerSize, -, hpayload, hsize, hinside, -⟩ := layout_of_read h
  rw [Found.delta, List.length_take, hpayload, List.length_drop]
  omega

theorem EntryRegion.length_dropTo
    (region : EntryRegion) (position : Nat) :
    (region.dropTo position).length = region.size - position := by
  rw [dropTo_eq, List.length_drop, size_eq]

theorem Entry.end_le_of_read
    {region : EntryRegion} {offset : Nat} {found : Found}
    (h : read offset (region.dropTo offset) = .ok found) :
    offset + found.size ≤ region.size := by
  have hlength := length_eq_of_read h
  rw [EntryRegion.length_dropTo] at hlength
  omega

theorem Entry.Found.isFull_iff
    {found : Entry.Found} :
    found.isFull = true ↔ found.shared = 0 := by
  rw [isFull, beq_iff_eq]

/-- An entry that stores its whole key has the same key behind every other. -/
theorem Entry.Found.keyAfter_of_isFull
    {found : Entry.Found}
    (hfull : found.isFull = true) (previous : Bytes) :
    found.keyAfter previous = found.delta := by
  rw [keyAfter, isFull_iff.mp hfull, List.take_zero, List.nil_append]

theorem entryAt_eq_ok_iff
    {block : Block} {offset : Nat} {found : Entry.Found} :
    block.entryAt offset = .ok found ↔
      Entry.read offset (block.entries.dropTo offset) = .ok found := by
  rw [entryAt]
  by_cases hpast : block.entries.size ≤ offset
  · rw [if_pos hpast]
    constructor
    · intro h
      cases h
    · intro hread
      have hend := Entry.end_le_of_read hread
      have hsize := (Entry.length_eq_of_read hread).2
      omega
  · rw [if_neg hpast]

theorem fullKeyAt_eq_ok_iff
    {block : Block} {index offset : Nat} {key : Bytes} :
    block.fullKeyAt index offset = .ok key ↔
      ∃ found, Entry.read offset (block.entries.dropTo offset) = .ok found ∧
        found.isFull = true ∧ key = found.delta := by
  rw [fullKeyAt]
  cases hfound : block.entryAt offset with
  | error cause =>
    constructor
    · intro h
      cases h
    · rintro ⟨found, hread, -⟩
      rw [entryAt_eq_ok_iff.mpr hread] at hfound
      cases hfound
  | ok found =>
    have hread := entryAt_eq_ok_iff.mp hfound
    simp only [bind, Except.bind, hread, Except.ok.injEq, exists_eq_left']
    cases hfull : found.isFull with
    | true => simp [pure, Except.pure, eq_comm]
    | false => simp

/-! ## The eager walk -/

namespace Walk

/-- A walk that first makes some visits. -/
def after (front : List Visit) (walk : Walk) : Walk :=
  ⟨front ++ walk.visits, walk.damage?⟩

/-- A walk without its first visits. -/
def dropped (walk : Walk) (count : Nat) : Walk :=
  ⟨walk.visits.drop count, walk.damage?⟩

/-- The walk over a region that lies at `offset` in its block, where each key is rebuilt from
the one before it and `previous` is the key before the region. -/
def ofRegion (offset : Nat) (region previous : Bytes) : Walk :=
  if region.isEmpty then ⟨[], none⟩
  else
    match read : Entry.read offset region with
    | .error cause => ⟨[], some cause⟩
    | .ok found =>
      if previous.length < found.shared then
        ⟨[], some (.sharedPastKey offset found.shared previous.length)⟩
      else
        have := Entry.read_shortens read
        let key := found.keyAfter previous
        (ofRegion (offset + found.size) found.rest key).after [⟨offset, key, found.value⟩]
termination_by region.length

theorem ofRegion_eq
    (offset : Nat) (region previous : Bytes) :
    ofRegion offset region previous =
      if region.isEmpty then ⟨[], none⟩
      else
        match Entry.read offset region with
        | .error cause => ⟨[], some cause⟩
        | .ok found =>
          if previous.length < found.shared then
            ⟨[], some (.sharedPastKey offset found.shared previous.length)⟩
          else
            (ofRegion (offset + found.size) found.rest (found.keyAfter previous)).after
              [⟨offset, found.keyAfter previous, found.value⟩] := by
  rw [ofRegion]
  split
  · rfl
  · split <;> rename_i hread <;> simp [hread]

/-- Each visit takes at least three bytes. -/
theorem length_visits_ofRegion_le
    (offset : Nat) (region previous : Bytes) :
    3 * (ofRegion offset region previous).visits.length ≤ region.length := by
  induction hlength : region.length using Nat.strongRecOn generalizing offset region previous with
  | ind length ih =>
    rw [ofRegion_eq]
    split
    · exact Nat.zero_le _
    · cases hread : Entry.read offset region with
      | error cause => exact Nat.zero_le _
      | ok found =>
        obtain ⟨hsum, hsize⟩ := Entry.length_eq_of_read hread
        have htail := ih found.rest.length (by omega) (offset + found.size) found.rest
          (found.keyAfter previous) rfl
        simp only
        split
        · exact Nat.zero_le _
        · simp only [after, List.length_append, List.length_singleton]
          omega

theorem offsets_ofRegion
    (offset : Nat) (region previous : Bytes) :
    (∀ visit ∈ (ofRegion offset region previous).visits, offset ≤ visit.offset) ∧
      (ofRegion offset region previous).visits.Pairwise fun first second =>
        first.offset < second.offset := by
  induction hlength : region.length using Nat.strongRecOn generalizing offset region previous with
  | ind length ih =>
    rw [ofRegion_eq]
    split
    · simp
    · cases hread : Entry.read offset region with
      | error cause => simp
      | ok found =>
        obtain ⟨hsum, hsize⟩ := Entry.length_eq_of_read hread
        obtain ⟨hbehind, hrest⟩ := ih found.rest.length (by omega) (offset + found.size) found.rest
          (found.keyAfter previous) rfl
        simp only
        split
        · simp
        · constructor
          · intro visit hvisit
            rcases List.mem_cons.mp hvisit with rfl | hvisit
            · exact Nat.le_refl offset
            · exact Nat.le_of_add_right_le (hbehind visit hvisit)
          · refine List.pairwise_cons.mpr ⟨?_, hrest⟩
            intro visit hvisit
            have hafter := hbehind visit hvisit
            simp only
            omega

theorem after_after
    (front middle : List Visit) (walk : Walk) :
    (walk.after middle).after front = walk.after (front ++ middle) := by
  simp [after]

@[simp]
theorem dropped_dropped
    (walk : Walk) (first second : Nat) :
    (walk.dropped first).dropped second = walk.dropped (first + second) := by
  simp [dropped]

@[simp]
theorem dropped_after
    (front : List Visit) (walk : Walk) :
    (walk.after front).dropped front.length = walk := by
  simp [dropped, after]

@[simp]
theorem dropped_nil
    (damage : Option Corruption) (count : Nat) :
    (⟨[], damage⟩ : Walk).dropped count = ⟨[], damage⟩ := by
  simp [dropped]

end Walk

variable {block : Block} {position : Position} {previous key : Bytes}

/-- The eager walk from an entry on, where `previous` is the key before it. -/
def walkAt (block : Block) (offset : Nat) (previous : Bytes) : Walk :=
  Walk.ofRegion offset (block.entries.dropTo offset) previous

/-- A position on the entry behind a key, with nothing wrong in what it remembers. -/
structure Position.Follows (block : Block) (previous : Bytes) (position : Position) : Prop where
  read_eq : Entry.read position.offset (block.entries.dropTo position.offset) =
    .ok position.entry
  shared_le : position.entry.shared ≤ previous.length
  length_le : previous.length ≤ position.offset
  previous?_eq : ∀ key ∈ position.previous?, key = previous
  built?_eq : ∀ key ∈ position.built?, key = position.entry.keyAfter previous
  /-- The walk from the last entry that stores its whole key leads to this entry, and to the
  key before it if that is needed. -/
  retraced : ∃ front : List Visit,
    block.walkAt position.fullAt [] = (block.walkAt position.offset previous).after front ∧
      (∀ visit ∈ front, visit.offset < position.offset) ∧
      (position.entry.isFull = false → front.getLast?.map Visit.key = some previous)

/-- A cursor that has a walk before it. -/
def Cursor.Shows (block : Block) (walk : Walk) : Cursor → Prop
  | .ended damage => walk = ⟨[], damage⟩
  | .on position =>
    ∃ previous, position.Follows block previous ∧
      walk = block.walkAt position.offset previous

/-- The visit of an entry that follows a key. -/
def Position.visit (position : Position) (previous : Bytes) : Visit :=
  ⟨position.offset, position.entry.keyAfter previous, position.entry.value⟩

namespace Position.Follows

theorem nextOffset_le
    (h : position.Follows block previous) :
    position.nextOffset ≤ block.entries.size :=
  Entry.end_le_of_read h.read_eq

theorem offset_lt
    (h : position.Follows block previous) :
    position.offset < block.entries.size := by
  have hend := h.nextOffset_le
  have hsize := (Entry.length_eq_of_read h.read_eq).2
  rw [nextOffset] at hend
  omega

theorem rest_eq
    (h : position.Follows block previous) :
    position.rest = block.entries.dropTo position.nextOffset := by
  obtain ⟨-, -, -, -, -, hrest⟩ := Entry.layout_of_read h.read_eq
  rw [Position.rest, hrest, EntryRegion.dropTo_eq, EntryRegion.dropTo_eq, List.drop_drop,
    Position.nextOffset]

theorem keyLength_eq
    (h : position.Follows block previous) :
    position.entry.keyLength = (position.entry.keyAfter previous).length := by
  rw [Entry.Found.keyAfter, List.length_append, List.length_take,
    Nat.min_eq_left h.shared_le, Entry.length_delta_of_read h.read_eq, Entry.Found.keyLength]

/-- Keys grow by fewer bytes than their entries take. -/
theorem length_keyAfter_lt
    (h : position.Follows block previous) :
    (position.entry.keyAfter previous).length < position.nextOffset := by
  have hshared := h.shared_le
  have hlength := h.length_le
  obtain ⟨headerSize, hheader, -, hsize, -, -⟩ := Entry.layout_of_read h.read_eq
  rw [← h.keyLength_eq, Entry.Found.keyLength, nextOffset]
  omega

theorem walkAt_eq
    (h : position.Follows block previous) :
    block.walkAt position.offset previous =
      (block.walkAt position.nextOffset (position.entry.keyAfter previous)).after
        [position.visit previous] := by
  have hnonempty : (block.entries.dropTo position.offset).isEmpty = false := by
    have hshorter := Entry.read_shortens h.read_eq
    rw [List.isEmpty_eq_false_iff_exists_mem]
    exact List.exists_mem_of_length_pos (Nat.zero_lt_of_lt hshorter)
  rw [walkAt, Walk.ofRegion_eq, hnonempty, h.read_eq]
  simp only [Bool.false_eq_true, if_false, Nat.not_lt.mpr h.shared_le]
  rw [walkAt, ← h.rest_eq]
  rfl

end Position.Follows

/-- The walk from an entry that stores its whole key does not depend on the key before. -/
theorem walkAt_of_isFull
    {offset : Nat} {found : Entry.Found}
    (hread : Entry.read offset (block.entries.dropTo offset) = .ok found)
    (hfull : found.isFull = true) :
    block.walkAt offset [] = block.walkAt offset previous := by
  have hshared := Entry.Found.isFull_iff.mp hfull
  rw [walkAt, walkAt, Walk.ofRegion_eq, Walk.ofRegion_eq, hread]
  simp [hshared, Entry.Found.keyAfter]

theorem walkAt_of_size_le
    {offset : Nat} (hpast : block.entries.size ≤ offset) :
    block.walkAt offset previous = ⟨[], none⟩ := by
  have hempty : block.entries.dropTo offset = [] := by
    rw [← List.length_eq_zero_iff, EntryRegion.length_dropTo]
    exact Nat.sub_eq_zero_of_le hpast
  rw [walkAt, hempty, Walk.ofRegion_eq]
  rfl

/-- One step of an undamaged walk: nothing is left of the entries, or one is found and the walk
goes on behind it. -/
theorem walkAt_undamaged_cases
    {offset : Nat} {visits : List Visit} (h : block.walkAt offset previous = ⟨visits, none⟩) :
    (visits = [] ∧ block.entries.dropTo offset = []) ∨
      ∃ found later, Entry.read offset (block.entries.dropTo offset) = .ok found ∧
        visits = ⟨offset, found.keyAfter previous, found.value⟩ :: later ∧
        found.rest = block.entries.dropTo (offset + found.size) ∧
        block.walkAt (offset + found.size) (found.keyAfter previous) = ⟨later, none⟩ := by
  rw [walkAt, Walk.ofRegion_eq] at h
  by_cases hempty : (block.entries.dropTo offset).isEmpty = true
  · rw [if_pos hempty] at h
    exact Or.inl ⟨(congrArg Walk.visits h).symm, List.isEmpty_iff.mp hempty⟩
  · rw [if_neg hempty] at h
    cases hread : Entry.read offset (block.entries.dropTo offset) with
    | error cause =>
      rw [hread] at h
      cases congrArg Walk.damage? h
    | ok found =>
      simp only [hread] at h
      by_cases hshared : previous.length < found.shared
      · simp [hshared] at h
      · have hrest : found.rest = block.entries.dropTo (offset + found.size) := by
          obtain ⟨-, -, -, -, -, hrest⟩ := Entry.layout_of_read hread
          rw [hrest, EntryRegion.dropTo_eq, EntryRegion.dropTo_eq, List.drop_drop]
        rw [if_neg hshared, hrest, ← walkAt] at h
        have hdamage : (block.walkAt (offset + found.size) (found.keyAfter previous)).damage? =
            none := congrArg Walk.damage? h
        refine Or.inr ⟨found, _, rfl, (congrArg Walk.visits h).symm, hrest, ?_⟩
        rw [← hdamage]
        rfl

/-! ## Steps of a cursor -/

/-- Stepping onto an entry: if what is said of the key before is true, the cursor comes to the
first entry of the eager walk, or it ends like a walk without entries. -/
theorem land_cases
    {offset : Nat} {context : Context}
    (hlength : context.keyLength = previous.length) (hbefore : previous.length ≤ offset)
    (hkey : ∀ key ∈ context.key?, key = previous)
    (hretraced : previous ≠ [] → ∃ front : List Visit,
      block.walkAt context.fullAt [] = (block.walkAt offset previous).after front ∧
        (∀ visit ∈ front, visit.offset < offset) ∧
        front.getLast?.map Visit.key = some previous) :
    (∃ position, land offset (block.entries.dropTo offset) context = .on position ∧
        position.offset = offset ∧ position.Follows block previous) ∨
      (∃ damage, land offset (block.entries.dropTo offset) context = .ended damage ∧
        block.walkAt offset previous = ⟨[], damage⟩) := by
  rw [land, walkAt, Walk.ofRegion_eq]
  by_cases hempty : (block.entries.dropTo offset).isEmpty = true
  · rw [if_pos hempty, if_pos hempty]
    exact Or.inr ⟨none, rfl, rfl⟩
  rw [if_neg hempty, if_neg hempty]
  cases hread : Entry.read offset (block.entries.dropTo offset) with
  | error cause => exact Or.inr ⟨some cause, rfl, rfl⟩
  | ok found =>
    simp only [hlength]
    by_cases hpast : previous.length < found.shared
    · rw [if_pos hpast, if_pos hpast]
      exact Or.inr ⟨_, rfl, rfl⟩
    rw [if_neg hpast]
    refine Or.inl ⟨_, rfl, rfl, ?_⟩
    constructor
    · exact hread
    · exact Nat.le_of_not_lt hpast
    · exact hbefore
    · exact hkey
    · intro key hbuilt
      cases hbuilt
    · cases hfull : found.isFull with
      | true =>
        refine ⟨[], ?_, ?_, ?_⟩
        · exact walkAt_of_isFull hread hfull
        · intro visit hvisit
          cases hvisit
        · intro hpartial
          cases hpartial
      | false =>
        have hprevious : previous ≠ [] := by
          intro hnil
          have hshared : found.shared = 0 := by simpa [hnil] using hpast
          rw [Entry.Found.isFull_iff.mpr hshared] at hfull
          cases hfull
        obtain ⟨front, hwalk, hfront, hlast⟩ := hretraced hprevious
        exact ⟨front, by simpa using hwalk, hfront, fun _ => hlast⟩

theorem startAt_cases
    (block : Block) (offset : Nat) :
    (∃ position, block.startAt offset = ⟨.on position, 1⟩ ∧ position.offset = offset ∧
        position.Follows block []) ∨
      (∃ damage, block.startAt offset = ⟨.ended damage, 0⟩ ∧
        block.walkAt offset [] = ⟨[], damage⟩) := by
  rw [startAt]
  rcases @land_cases block [] offset ⟨0, offset, none⟩ rfl (by simp) (by simp) (by simp) with
    ⟨position, hland, hoffset, hfollows⟩ | ⟨damage, hland, hwalk⟩
  · rw [hland]
    exact Or.inl ⟨position, rfl, hoffset, hfollows⟩
  · rw [hland]
    exact Or.inr ⟨damage, rfl, hwalk⟩

theorem startAt_shows
    (block : Block) (offset : Nat) :
    (block.startAt offset).result.Shows block (block.walkAt offset []) := by
  rcases startAt_cases block offset with
    ⟨position, hstart, hoffset, hfollows⟩ | ⟨damage, hstart, hwalk⟩
  · rw [hstart]
    exact ⟨[], hfollows, by rw [hoffset]⟩
  · rw [hstart]
    exact hwalk

@[simp]
theorem Position.offset_remember
    (position : Position) (key : Bytes) :
    (position.remember key).offset = position.offset := by
  rw [remember]
  split <;> rfl

@[simp]
theorem Position.entry_remember
    (position : Position) (key : Bytes) :
    (position.remember key).entry = position.entry := by
  rw [remember]
  split <;> rfl

@[simp]
theorem Position.nextOffset_remember
    (position : Position) (key : Bytes) :
    (position.remember key).nextOffset = position.nextOffset := by
  rw [nextOffset, nextOffset, offset_remember, entry_remember]

theorem Position.knownKey?_remember_ne_none
    (position : Position) (key : Bytes) :
    (position.remember key).knownKey? ≠ none := by
  cases hfull : position.entry.isFull <;> simp [remember, knownKey?, hfull]

theorem memory_of_land
    {offset : Nat} {region : Bytes} {context : Context}
    (h : land offset region context = .on position) :
    position.previous? = context.key? ∧ position.built? = none ∧
      position.fullAt = if position.entry.isFull then position.offset else context.fullAt := by
  rw [land] at h
  split at h
  · cases h
  · split at h
    · cases h
    · split at h
      · cases h
      · cases h
        exact ⟨rfl, rfl, rfl⟩

/-- A cursor carries the key along that it knows when it leaves an entry. -/
theorem Position.previous?_of_advance
    {next : Position} (h : position.advance = .on next) :
    next.previous? = position.knownKey? :=
  (memory_of_land h).1

namespace Position.Follows

theorem knownKey?_eq
    (h : position.Follows block previous) :
    ∀ key ∈ position.knownKey?, key = position.entry.keyAfter previous := by
  intro key hknown
  rw [knownKey?] at hknown
  cases hfull : position.entry.isFull with
  | true =>
    rw [Entry.Found.keyAfter_of_isFull hfull]
    simpa [hfull, eq_comm] using hknown
  | false => exact h.built?_eq key (by simpa [hfull] using hknown)

theorem advance_cases
    (h : position.Follows block previous) :
    (∃ next, position.advance = .on next ∧ next.offset = position.nextOffset ∧
        next.Follows block (position.entry.keyAfter previous)) ∨
      (∃ damage, position.advance = .ended damage ∧
        block.walkAt position.nextOffset (position.entry.keyAfter previous) = ⟨[], damage⟩) := by
  rw [Position.advance, h.rest_eq]
  refine land_cases h.keyLength_eq (Nat.le_of_lt h.length_keyAfter_lt) h.knownKey?_eq fun _ => ?_
  obtain ⟨front, hwalk, hbefore, -⟩ := h.retraced
  refine ⟨front ++ [position.visit previous], ?_, ?_, ?_⟩
  · rw [← Walk.after_after, ← h.walkAt_eq]
    exact hwalk
  · have hforward : position.offset < position.nextOffset := by
      have hsize := (Entry.length_eq_of_read h.read_eq).2
      rw [nextOffset]
      omega
    intro visit hvisit
    rcases List.mem_append.mp hvisit with hfront | hlast
    · exact Nat.lt_trans (hbefore visit hfront) hforward
    · rw [List.mem_singleton.mp hlast]
      exact hforward
  · simp [Position.visit]

theorem advance_shows
    (h : position.Follows block previous) :
    position.advance.Shows block ((block.walkAt position.offset previous).dropped 1) := by
  rw [h.walkAt_eq]
  rcases h.advance_cases with ⟨next, hnext, hoffset, hfollows⟩ | ⟨damage, hended, hwalk⟩
  · rw [hnext]
    refine ⟨_, hfollows, ?_⟩
    rw [hoffset]
    rfl
  · rw [hended, hwalk]
    rfl

theorem remember
    (h : position.Follows block previous) :
    (position.remember (position.entry.keyAfter previous)).Follows block previous := by
  rw [Position.remember]
  split
  · exact h
  · exact ⟨h.read_eq, h.shared_le, h.length_le, h.previous?_eq, by simp, h.retraced⟩

end Position.Follows

/-- Moving on from an entry whose key has been built: the cursor carries that key along. -/
theorem Position.Follows.advance_remember_cases
    (h : position.Follows block previous) :
    (∃ next, (position.remember (position.entry.keyAfter previous)).advance = .on next ∧
        next.rest.length < position.rest.length ∧ next.previous? ≠ none ∧
        next.offset = position.nextOffset ∧
        next.Follows block (position.entry.keyAfter previous)) ∨
      (∃ damage,
        (position.remember (position.entry.keyAfter previous)).advance = .ended damage ∧
        block.walkAt position.nextOffset (position.entry.keyAfter previous) = ⟨[], damage⟩) := by
  have hmoved := h.remember.advance_cases
  rw [entry_remember, nextOffset_remember] at hmoved
  rcases hmoved with ⟨next, hnext, hoffset, hfollows⟩ | hended
  · refine Or.inl ⟨next, hnext, ?_, ?_, hoffset, hfollows⟩
    · have hshorter := length_rest_of_advance hnext
      rwa [rest_remember] at hshorter
    · rw [previous?_of_advance hnext]
      exact position.knownKey?_remember_ne_none _
  · exact Or.inr hended

/-! ## Keys -/

/-- The visits of a walk before the first one at a target or behind it. -/
def Walk.before (walk : Walk) (target : Nat) : List Visit :=
  walk.visits.takeWhile fun visit => visit.offset < target

theorem lastKey_cons
    (visit : Visit) (visits : List Visit) (given : Bytes) :
    ((visit :: visits).getLast?.map Visit.key).getD given =
      (visits.getLast?.map Visit.key).getD visit.key := by
  rw [List.getLast?_cons, Option.map_some, Option.getD_some]
  exact (Option.getD_map Visit.key visit _).symm

theorem Walk.before_after
    {front : List Visit} {target : Nat}
    (hfront : ∀ visit ∈ front, visit.offset < target) (walk : Walk) :
    (walk.after front).before target = front ++ walk.before target := by
  rw [before, after, List.takeWhile_append_of_pos (by simpa using hfront), before]

theorem Position.Follows.before_walkAt
    {target : Nat}
    (h : position.Follows block previous) (htarget : target ≤ position.offset) :
    (block.walkAt position.offset previous).before target = [] := by
  rw [h.walkAt_eq]
  simp [Walk.before, Walk.after, Position.visit, htarget]

/-- Whether the key of an entry can be given without a replay of the entries before it. -/
def Position.Ready (position : Position) : Prop :=
  position.knownKey? ≠ none ∨ position.previous? ≠ none

/-- A key that is known, or can be built on a key that is carried along, is given at once. -/
theorem Position.Ready.exists_keyAt_eq
    (h : position.Ready) (block : Block) :
    ∃ key, block.keyAt position = pure key ∧
      (position.knownKey? = some key ∨
        ∃ carried, position.previous? = some carried ∧ key = position.entry.keyAfter carried) := by
  rw [keyAt]
  cases hknown : position.knownKey? with
  | some key => exact ⟨key, rfl, Or.inl rfl⟩
  | none =>
    cases hprevious : position.previous? with
    | some carried => exact ⟨_, rfl, Or.inr ⟨carried, rfl, rfl⟩⟩
    | none => exact absurd h (by simp [Ready, hknown, hprevious])

theorem Position.Follows.ready_of_nil
    (h : position.Follows block []) :
    position.Ready := by
  left
  have hfull : position.entry.isFull = true :=
    Entry.Found.isFull_iff.mpr (Nat.le_zero.mp h.shared_le)
  simp [knownKey?, hfull]

namespace Position.Follows

theorem keyAt_of_ready
    (h : position.Follows block previous) (hready : position.Ready) :
    block.keyAt position = pure (position.entry.keyAfter previous) := by
  obtain ⟨key, hkey, hknown | ⟨carried, hcarried, rfl⟩⟩ := hready.exists_keyAt_eq block
  · rw [hkey, h.knownKey?_eq key hknown]
  · rw [hkey, h.previous?_eq carried hcarried]

/-- The first entry of a replay stores its key, and from there on the replaying cursor carries
the key before: none of the keys that it is asked for is replayed in turn. -/
theorem replay_of_ready
    (h : position.Follows block previous) (hready : position.Ready) (target : Nat) :
    block.replay target previous position =
      if position.offset < target then
        match (position.remember (position.entry.keyAfter previous)).advance with
        | .ended damage => pure ⟨position.entry.keyAfter previous, .ended damage⟩
        | .on next => do
          Counted.tick
          block.replay target (position.entry.keyAfter previous) next
      else pure ⟨previous, .on position⟩ := by
  have hstep := LsmStore.Block.replay_eq block target previous position
  rw [h.keyAt_of_ready hready, pure_bind] at hstep
  exact hstep

/-- A replay passes the entries before its target, keeps the key of the last of them, and
stands where it has come to. -/
theorem replay_eq
    (h : position.Follows block previous) (hready : position.Ready) (target : Nat) :
    let walk := block.walkAt position.offset previous
    let replay := (block.replay target previous position).result
    replay.key = ((walk.before target).getLast?.map Visit.key).getD previous ∧
      replay.landed.Shows block (walk.dropped (walk.before target).length) := by
  -- Along the entries that are still to be read.
  induction hrest : position.rest.length using Nat.strongRecOn generalizing position previous with
  | ind length ih =>
    simp only
    rw [h.replay_of_ready hready]
    by_cases hbefore : position.offset < target
    · have hwalk := h.walkAt_eq
      have hvisit : ∀ visit ∈ [position.visit previous], visit.offset < target := by
        simpa [Position.visit] using hbefore
      rw [if_pos hbefore, hwalk, Walk.before_after hvisit]
      rcases h.advance_remember_cases with
        ⟨next, hnext, hshorter, hcarried, hoffset, hfollows⟩ | ⟨damage, hended, hnone⟩
      · obtain ⟨hkey, hlanded⟩ :=
          ih next.rest.length (hrest ▸ hshorter) hfollows (Or.inr hcarried) rfl
        rw [hoffset] at hkey hlanded
        rw [hnext]
        constructor
        · simp only [Counted.result_bind, hkey]
          exact (lastKey_cons (position.visit previous) _ previous).symm
        · simpa [Walk.dropped, Walk.after] using hlanded
      · rw [hended, hnone]
        exact ⟨rfl, rfl⟩
    · rw [if_neg hbefore, h.before_walkAt (Nat.le_of_not_lt hbefore)]
      exact ⟨rfl, previous, h, rfl⟩

/-- A replay from the last entry that stores its whole key retraces the way to an entry that
needs the key before it. -/
theorem replayTo_eq
    (h : position.Follows block previous) (hpartial : position.entry.isFull = false) :
    (block.replayTo position).result.key = previous ∧
      (block.replayTo position).result.landed.Shows block
        (block.walkAt position.offset previous) := by
  obtain ⟨front, hwalk, hbefore, hlast⟩ := h.retraced
  have hfront : (block.walkAt position.fullAt []).before position.offset = front := by
    rw [hwalk, Walk.before_after hbefore, h.before_walkAt (Nat.le_refl _), List.append_nil]
  rw [replayTo]
  rcases startAt_cases block position.fullAt with
    ⟨start, hstart, hoffset, hfollows⟩ | ⟨damage, hstart, hnone⟩
  · obtain ⟨hkey, hlanded⟩ := hfollows.replay_eq hfollows.ready_of_nil position.offset
    rw [hoffset, hfront] at hkey hlanded
    rw [hwalk, Walk.dropped_after] at hlanded
    simp only [hstart, Counted.result_bind]
    constructor
    · rw [hkey, hlast hpartial]
      rfl
    · exact hlanded
  · have hvisits := congrArg Walk.visits (hnone.symm.trans hwalk)
    rw [Walk.after, h.walkAt_eq] at hvisits
    simp [Walk.after] at hvisits

/-- Whatever a cursor remembers, the key that it gives is the one rebuilt from the key
before. -/
theorem keyAt_eq
    (h : position.Follows block previous) :
    (block.keyAt position).result = position.entry.keyAfter previous := by
  rw [keyAt]
  cases hknown : position.knownKey? with
  | some key => exact h.knownKey?_eq key hknown
  | none =>
    cases hprevious : position.previous? with
    | some key =>
      rw [← h.previous?_eq key hprevious]
      rfl
    | none =>
      have hpartial : position.entry.isFull = false := by
        cases hfull : position.entry.isFull with
        | true => simp [knownKey?, hfull] at hknown
        | false => rfl
      simp only [Counted.result_bind, Counted.result_pure, (h.replayTo_eq hpartial).1]

end Position.Follows

end Block

end LsmStore
