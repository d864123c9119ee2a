import LsmStore.MemTable.Basic
import LsmStore.Proofs.Arena.Disjoint
import LsmStore.Proofs.Comparator
import LsmStore.Proofs.SkipList.SortedSet

/-!
# The records of a memtable

Every write that has a record is taken in: its record is carved from the arena,
written, read back and inserted into the tower list.  So the list of a memtable is
the list made by inserting the records of its writes, and each of these is read
back as the version that the write stands for.
-/

namespace LsmStore

open Std

/-- What begins with internal keys behind their lengths is compared as these are, whatever follows
them. -/
theorem Record.compare_encode_append
    (order : InternalOrder) {stored other : Bytes} (hstored : stored.length < UInt32.size)
    (hother : other.length < UInt32.size) (rest otherRest : Bytes) :
    compare order (ofBytes (LengthPrefixed.encode stored ++ rest))
        (ofBytes (LengthPrefixed.encode other ++ otherRest)) =
      order.toComparator.compare stored other := by
  rw [compare_eq, ofBytes, ofBytes, internalKey_encode_append hstored,
    internalKey_encode_append hother]

namespace Write

/-- The version that a write stands for. -/
def internalKey (write : Write) : InternalKey :=
  ⟨write.key, Sequence.clamp write.sequence, write.kind⟩

/-- The record of a write. -/
def record (write : Write) : Record :=
  Record.ofBytes (Record.encode write.internalKey write.value)

instance (write : Write) : Decidable write.Recordable :=
  inferInstanceAs (Decidable (_ ∧ _ ∧ _))

variable {write : Write}

theorem sequence_internalKey
    (h : write.Recordable) :
    write.internalKey.sequence.val = write.sequence := by
  have := h.1
  simp only [internalKey, Sequence.clamp]
  omega

theorem make_eq
    (h : write.Recordable) :
    InternalKey.make write.key write.sequence write.kind = .ok write.internalKey := by
  have hsequence : (⟨write.sequence, h.1⟩ : Sequence) = Sequence.clamp write.sequence :=
    Fin.ext (sequence_internalKey h).symm
  simp [InternalKey.make, Sequence.check, h.1, internalKey, hsequence, bind, Except.bind, pure,
    Except.pure]

theorem recordLength_eq
    (h : write.Recordable) :
    write.recordLength = .ok
      (Var32.length (InternalKey.encodedLength write.key.length).toUInt32 +
        InternalKey.encodedLength write.key.length +
        Var32.length write.value.length.toUInt32 + write.value.length) := by
  obtain ⟨-, hkey, hvalue⟩ := h
  rw [recordLength, if_neg (Nat.not_le.mpr hkey), if_neg (Nat.not_le.mpr hvalue)]

theorem exists_recordLength
    (h : write.Recordable) :
    ∃ length, write.recordLength = .ok length ∧ 0 < length := by
  refine ⟨_, recordLength_eq h, ?_⟩
  simp only [InternalKey.encodedLength, InternalKey.tagSize]
  omega

theorem internalKey_record
    (h : write.Recordable) :
    Record.internalKey (Record.encode write.internalKey write.value) =
      write.internalKey.encode := by
  refine Record.internalKey_encode_append ?_ _
  rw [InternalKey.length_encode]
  exact h.2.1

@[simp]
theorem userKey_record
    (h : write.Recordable) :
    write.record.userKey = write.key := by
  simp only [record, Record.ofBytes, internalKey_record h, InternalKey.userPart_encode]
  rfl

@[simp]
theorem tag_record
    (h : write.Recordable) :
    write.record.tag = write.sequence * 256 + write.kind.code := by
  simp only [record, Record.ofBytes, internalKey_record h, InternalKey.tagPart_encode,
    InternalKey.tag, sequence_internalKey h]
  rfl

theorem version_record
    (h : write.Recordable) :
    write.record.version = .ok ⟨write.internalKey.encode, write.internalKey, write.value⟩ := by
  have hread : Record.decode (Record.encode write.internalKey write.value) = .ok _ :=
    Record.decode_encode h.2.1 h.2.2
  simp [Record.version, record, Record.ofBytes, hread, Except.mapError]

end Write

namespace MemTable

variable {table : MemTable} {write : Write}

/-- How a write is taken in: a region is reserved and filled with the record, to the last byte,
and what is read back from it is inserted. -/
theorem exists_region_of_add
    (hsound : table.arena.Sound) (h : write.Recordable) :
    ∃ region reserved next, write.recordLength = .ok region.length ∧
      table.arena.allocate region.length = .ok (region, reserved) ∧
      (Record.encode write.internalKey write.value).length = region.length ∧
      reserved.Sound ∧ reserved.Lent region ∧ table.add write = .ok next ∧
      next.order = table.order ∧
      next.arena = reserved.write region (Record.encode write.internalKey write.value) ∧
      next.records = (table.records.insert write.record).2 := by
  obtain ⟨length, hlength, hpos⟩ := Write.exists_recordLength h
  obtain ⟨region, reserved, hallocate, rfl, hcontains, hreserved⟩ := hsound.allocate hpos
  have hrecord : (Record.encode write.internalKey write.value).length = region.length :=
    Record.length_encode rfl hlength
  have hread := Arena.read_write hcontains hrecord
  have htaken : ∃ next, table.add write = .ok next ∧ next.order = table.order ∧
      next.arena = reserved.write region (Record.encode write.internalKey write.value) ∧
      next.records = (table.records.insert write.record).2 := by
    simp only [add, hlength, hallocate, Write.make_eq h, bind, Except.bind, pure, Except.pure,
      hread]
    exact ⟨_, rfl, rfl, rfl, rfl⟩
  obtain ⟨next, hadd, hnext⟩ := htaken
  exact ⟨region, reserved, next, hlength, hallocate, hrecord, hreserved,
    hsound.lent_of_allocate hallocate, hadd, hnext⟩

/-- What a write does to a memtable: its record is inserted. -/
theorem add_eq
    (hsound : table.arena.Sound) (h : write.Recordable) :
    ∃ next, table.add write = .ok next ∧ next.order = table.order ∧ next.arena.Sound ∧
      next.records = (table.records.insert write.record).2 := by
  obtain ⟨region, reserved, next, -, -, -, hreserved, -, hadd, horder, harena, hrecords⟩ :=
    exists_region_of_add hsound h
  refine ⟨next, hadd, horder, ?_, hrecords⟩
  rw [harena]
  exact hreserved.write region _

/-- A memtable that has taken in some writes: of each version it holds the record of the
first write, in the order of versions. -/
structure Holds (order : InternalOrder) (table : MemTable) (writes : List Write) : Prop where
  order_eq : table.order = order
  sound : table.arena.Sound
  recordable : ∀ write ∈ writes, write.Recordable
  keepsFirst :
    SkipList.KeepsFirst (Record.compare order) table.records (writes.map Write.record)

theorem holds_empty
    (order : InternalOrder) {arena : Arena} (hsound : arena.Sound) (heights : Nat → Height) :
    Holds order (empty order arena heights) [] where
  order_eq := rfl
  sound := hsound
  recordable := by simp
  keepsFirst := SkipList.keepsFirst_empty _ heights

section Run

variable {order : InternalOrder} [TransCmp order.user.compare] {writes : List Write}

theorem Holds.add
    (h : Holds order table writes) (hwrite : write.Recordable) :
    ∃ next, table.add write = .ok next ∧ Holds order next (writes ++ [write]) := by
  obtain ⟨next, hadd, horder, hsound, hrecords⟩ := add_eq h.sound hwrite
  refine ⟨next, hadd, horder.trans h.order_eq, hsound, ?_, ?_⟩
  · intro other hother
    rcases List.mem_append.mp hother with hold | hnew
    · exact h.recordable other hold
    · rwa [List.mem_singleton.mp hnew]
  · rw [hrecords, List.map_append, List.map_singleton]
    exact h.keepsFirst.insert write.record

/-- Writes that have records are all taken in, and what each of them keeps is kept by all. -/
theorem Holds.addAll_keeps
    {motive : MemTable → List Write → Prop}
    (hstep : ∀ {table next : MemTable} {writes : List Write} {write : Write},
      Holds order table writes → write.Recordable → table.add write = .ok next →
        motive table writes → motive next (writes ++ [write]))
    (h : Holds order table writes) (hkept : motive table writes) (more : List Write)
    (hmore : ∀ write ∈ more, write.Recordable) :
    ∃ next, table.addAll more = .ok next ∧ Holds order next (writes ++ more) ∧
      motive next (writes ++ more) := by
  induction more generalizing table writes with
  | nil => exact ⟨table, rfl, by simpa using h, by simpa using hkept⟩
  | cons write more ih =>
    obtain ⟨hwrite, hothers⟩ := List.forall_mem_cons.mp hmore
    obtain ⟨next, hadd, hnext⟩ := h.add hwrite
    obtain ⟨final, haddAll, hfinal, hlast⟩ := ih hnext (hstep h hwrite hadd hkept) hothers
    refine ⟨final, ?_, by simpa using hfinal, by simpa using hlast⟩
    rw [MemTable.addAll, List.foldlM_cons, hadd]
    exact haddAll

/-- Writes that have records are all taken in. -/
theorem Holds.addAll
    (h : Holds order table writes) (more : List Write) (hmore : ∀ write ∈ more, write.Recordable) :
    ∃ next, table.addAll more = .ok next ∧ Holds order next (writes ++ more) := by
  obtain ⟨next, haddAll, hnext, -⟩ :=
    h.addAll_keeps (motive := fun _ _ => True) (fun _ _ _ _ => trivial) trivial more hmore
  exact ⟨next, haddAll, hnext⟩

end Run

theorem Holds.exists_write
    {order : InternalOrder} {writes : List Write} (h : Holds order table writes)
    {record : Record} (hrecord : record ∈ table.records.toList) :
    ∃ write ∈ writes, write.Recordable ∧ record = write.record := by
  obtain ⟨earlier, later, hwrites, -⟩ := (h.keepsFirst.mem_iff record).mp hrecord
  have hmem : record ∈ writes.map Write.record := by simp [hwrites]
  obtain ⟨write, hwrite, rfl⟩ := List.mem_map.mp hmem
  exact ⟨write, hwrite, h.recordable write hwrite, rfl⟩

end MemTable

end LsmStore
