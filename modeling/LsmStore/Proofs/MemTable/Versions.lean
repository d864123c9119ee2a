import LsmStore.Proofs.MemTable.Reads
import LsmStore.Proofs.SkipList.LiveCursors

/-!
# The versions that lie ahead

Every record of a memtable is read back as a version.  So what a memtable lists from a
cursor on, and what an iterator hands out, are the versions in the records that lie
ahead of the cursor, and neither ever meets a fault.  From the cursor of a search on
they are what the versions before the probe leave of all versions, and a write puts at
most its own version among them, behind the first.
-/

namespace LsmStore

open Std

/-- The version that a write stands for, with its value. -/
def Write.version (write : Write) : Version :=
  ⟨write.internalKey.encode, write.internalKey, write.value⟩

/-- Whether a version lies before the one that a lookup key holds. -/
def Version.isBefore (order : InternalOrder) (key : LookupKey) (version : Version) : Bool :=
  order.toComparator.compare version.stored key.internalKey == .lt

namespace Record

/-- The version in a record, if it can be read. -/
def version? (record : Record) : Option Version :=
  record.version.toOption

theorem version?_record
    {write : Write} (h : write.Recordable) :
    write.record.version? = some write.version := by
  rw [version?, Write.version_record h]
  rfl

theorem mapM_version
    {records : List Record}
    (h : ∀ record ∈ records, ∃ write : Write, write.Recordable ∧ record = write.record) :
    records.mapM version = .ok (records.filterMap version?) := by
  induction records with
  | nil => rfl
  | cons record records ih =>
    obtain ⟨write, hwrite, rfl⟩ := h record List.mem_cons_self
    have htail := ih fun other hother => h other (List.mem_cons_of_mem _ hother)
    rw [List.mapM_cons, htail, Write.version_record hwrite, List.filterMap_cons,
      version?_record hwrite]
    rfl

theorem filterMap_version?_take
    {records : List Record}
    (h : ∀ record ∈ records, ∃ write : Write, write.Recordable ∧ record = write.record)
    (limit : Nat) :
    (records.take limit).filterMap version? = (records.filterMap version?).take limit := by
  induction records generalizing limit with
  | nil => simp
  | cons record records ih =>
    obtain ⟨write, hwrite, rfl⟩ := h record List.mem_cons_self
    have htail := ih fun other hother => h other (List.mem_cons_of_mem _ hother)
    cases limit with
    | zero => rfl
    | succ limit =>
      rw [List.take_succ_cons, List.filterMap_cons, List.filterMap_cons, version?_record hwrite]
      simp only [List.take_succ_cons, htail]

theorem compare_probe_eq
    (order : InternalOrder) {write : Write} (hwrite : write.Recordable) {userKey : Bytes}
    (hkey : InternalKey.encodedLength userKey.length < UInt32.size) (snapshot : Nat) :
    compare order write.record (probe userKey snapshot) =
      order.toComparator.compare write.version.stored
        (LookupKey.ofSnapshot userKey snapshot).internalKey := by
  rw [compare_record_probe order hwrite hkey, ← order.compare_encode]
  rfl

/-- The records before a probe are those of the versions before its lookup key. -/
theorem filterMap_version?_dropWhile
    (order : InternalOrder) {records : List Record} {userKey : Bytes}
    (h : ∀ record ∈ records, ∃ write : Write, write.Recordable ∧ record = write.record)
    (hkey : InternalKey.encodedLength userKey.length < UInt32.size) (snapshot : Nat) :
    (records.dropWhile fun record =>
        compare order record (probe userKey snapshot) == .lt).filterMap version? =
      (records.filterMap version?).dropWhile
        (Version.isBefore order (LookupKey.ofSnapshot userKey snapshot)) := by
  induction records with
  | nil => rfl
  | cons record records ih =>
    obtain ⟨write, hwrite, rfl⟩ := h record List.mem_cons_self
    have htail := ih fun other hother => h other (List.mem_cons_of_mem _ hother)
    rw [List.filterMap_cons, version?_record hwrite, List.dropWhile_cons, List.dropWhile_cons,
      compare_probe_eq order hwrite hkey, Version.isBefore]
    split
    · exact htail
    · rw [List.filterMap_cons, version?_record hwrite]

end Record

namespace MemTable

/-- The versions in the records that lie ahead of a cursor. -/
def versionsFrom (table : MemTable) (cursor : SkipList.Cursor) : List Version :=
  (table.records.keysFrom cursor).filterMap Record.version?

variable {order : InternalOrder} {table : MemTable} {writes : List Write}
  {cursor : SkipList.Cursor}

namespace Holds

theorem seekCursor_within
    (h : Holds order table writes) (userKey : Bytes) (snapshot : Nat) :
    (table.seekCursor userKey snapshot).Within table.records := by
  obtain ⟨elements, hwoven⟩ := h.keepsFirst.woven
  exact hwoven.seek?_within _

theorem first_within
    (h : Holds order table writes) :
    table.records.first.Within table.records := by
  obtain ⟨elements, hwoven⟩ := h.keepsFirst.woven
  exact hwoven.first_within

theorem exists_write_of_keysFrom
    (h : Holds order table writes) (hcursor : cursor.Within table.records) :
    ∀ record ∈ table.records.keysFrom cursor,
      ∃ write : Write, write.Recordable ∧ record = write.record := by
  intro record hrecord
  obtain ⟨elements, hwoven⟩ := h.keepsFirst.woven
  obtain ⟨write, -, hwrite, hsame⟩ :=
    h.exists_write (hwoven.mem_toList_of_mem_keysFrom hcursor hrecord)
  exact ⟨write, hwrite, hsame⟩

theorem take_eq
    (h : Holds order table writes) (hcursor : cursor.Within table.records) (limit : Nat) :
    table.take limit cursor = .ok ((table.versionsFrom cursor).take limit) := by
  obtain ⟨elements, hwoven⟩ := h.keepsFirst.woven
  have hwrites := h.exists_write_of_keysFrom hcursor
  rw [MemTable.take, hwoven.take_eq_take_keysFrom hcursor, Record.mapM_version,
    Record.filterMap_version?_take hwrites]
  · rfl
  · intro record hrecord
    exact hwrites record (List.mem_of_mem_take hrecord)

theorem mapM_keysFrom
    (h : Holds order table writes) (hcursor : cursor.Within table.records) :
    (table.records.keysFrom cursor).mapM Record.version = .ok (table.versionsFrom cursor) :=
  Record.mapM_version (h.exists_write_of_keysFrom hcursor)

theorem take_size
    (h : Holds order table writes) (hcursor : cursor.Within table.records) :
    table.take table.size cursor = .ok (table.versionsFrom cursor) := by
  obtain ⟨elements, hwoven⟩ := h.keepsFirst.woven
  rw [MemTable.take, size, hwoven.size_eq]
  exact h.mapM_keysFrom hcursor

theorem versions_eq
    (h : Holds order table writes) :
    table.versions = .ok (table.versionsFrom table.records.first) :=
  h.mapM_keysFrom h.first_within

theorem pairwise_versionsFrom_first
    (h : Holds order table writes) {relation : Version → Version → Prop}
    (hrelation : ∀ write other : Write, write.Recordable → other.Recordable →
      Record.compare order write.record other.record = .lt →
        relation write.version other.version) :
    (table.versionsFrom table.records.first).Pairwise relation := by
  have hincreasing := h.keepsFirst.increasing
  have hrecords := h.exists_write_of_keysFrom h.first_within
  rw [versionsFrom, List.pairwise_filterMap]
  refine hincreasing.imp_of_mem ?_
  intro record other hrecord hother hless version hversion version' hversion'
  obtain ⟨write, hwrite, rfl⟩ := hrecords record hrecord
  obtain ⟨write', hwrite', rfl⟩ := hrecords other hother
  rw [Record.version?_record hwrite] at hversion
  rw [Record.version?_record hwrite'] at hversion'
  cases hversion
  cases hversion'
  exact hrelation write write' hwrite hwrite' hless

theorem seek_eq
    (h : Holds order table writes) (userKey : Bytes) (snapshot : Nat) :
    table.seek userKey snapshot = .ok (table.versionsFrom (table.seekCursor userKey snapshot)) :=
  h.mapM_keysFrom (h.seekCursor_within userKey snapshot)

theorem versionsFrom_seekCursor
    [TransCmp order.user.compare] (h : Holds order table writes) {userKey : Bytes}
    (hkey : InternalKey.encodedLength userKey.length < UInt32.size) (snapshot : Nat) :
    table.versionsFrom (table.seekCursor userKey snapshot) =
      (table.versionsFrom table.records.first).dropWhile
        (Version.isBefore order (LookupKey.ofSnapshot userKey snapshot)) := by
  obtain ⟨-, hahead⟩ := h.keepsFirst.lowerBound_eq (Record.probe userKey snapshot)
  have hwrites := h.exists_write_of_keysFrom h.first_within
  have hdropped := Record.filterMap_version?_dropWhile order hwrites hkey snapshot
  rw [versionsFrom, seekCursor, ← Record.probe, hahead]
  exact hdropped

/-- An iterator hands out the first version that lies ahead of it, and has then moved behind. -/
theorem next_eq
    (h : Holds order table writes) (hcursor : cursor.Within table.records) :
    table.next cursor =
      .ok ((table.versionsFrom cursor).head?, table.records.advance cursor) := by
  obtain ⟨elements, hwoven⟩ := h.keepsFirst.woven
  have hrecords := h.exists_write_of_keysFrom hcursor
  rw [MemTable.next, SkipList.next, hwoven.key?_eq_head? hcursor, versionsFrom]
  cases hahead : table.records.keysFrom cursor with
  | nil => rfl
  | cons record records =>
    obtain ⟨write, hwrite, rfl⟩ := hrecords record (by simp [hahead])
    rw [List.filterMap_cons, Record.version?_record hwrite]
    simp only [List.head?_cons, Option.mapM_some, Write.version_record hwrite]
    rfl

/-- Moving a cursor on takes away the first version that lies ahead. -/
theorem versionsFrom_advance
    (h : Holds order table writes) (hcursor : cursor.Within table.records) :
    table.versionsFrom (table.records.advance cursor) = (table.versionsFrom cursor).tail := by
  obtain ⟨elements, hwoven⟩ := h.keepsFirst.woven
  have hrecords := h.exists_write_of_keysFrom hcursor
  rw [versionsFrom, (hwoven.advance_spec hcursor).2, versionsFrom]
  cases hahead : table.records.keysFrom cursor with
  | nil => rfl
  | cons record records =>
    obtain ⟨write, hwrite, rfl⟩ := hrecords record (by simp [hahead])
    rw [List.filterMap_cons, Record.version?_record hwrite, List.tail_cons, List.tail_cons]

end Holds

/-- What the call with a number gives of an iterator at a cursor, the first of them with number
0. -/
def call (table : MemTable) (cursor : SkipList.Cursor) : Nat → Except Fault (Option Version)
  | 0 => do return (← table.next cursor).1
  | number + 1 => do table.call (← table.next cursor).2 number

namespace Holds

/-- Calls give the versions that lie ahead one after the other, and none when these are used
up. -/
theorem call_eq
    (h : Holds order table writes) (hcursor : cursor.Within table.records) (number : Nat) :
    table.call cursor number = .ok (table.versionsFrom cursor)[number]? := by
  induction number generalizing cursor with
  | zero =>
    rw [call, h.next_eq hcursor, ← List.head?_eq_getElem?]
    rfl
  | succ number ih =>
    obtain ⟨elements, hwoven⟩ := h.keepsFirst.woven
    have hlater := ih (hwoven.advance_spec hcursor).1
    rw [h.versionsFrom_advance hcursor, List.getElem?_tail] at hlater
    rw [call, h.next_eq hcursor]
    exact hlater

/-! ## Writes -/

variable {next : MemTable} {write : Write}

theorem within_add
    (h : Holds order table writes) (hcursor : cursor.Within table.records)
    (hwrite : write.Recordable) (hadd : table.add write = .ok next) :
    cursor.Within next.records := by
  obtain ⟨elements, hwoven⟩ := h.keepsFirst.woven
  obtain ⟨table', hadd', -, -, hrecords⟩ := add_eq h.sound hwrite
  obtain rfl := Except.ok.inj (hadd.symm.trans hadd')
  rw [hrecords]
  exact hwoven.within_insert hcursor write.record

/-- A write leaves what lies ahead of a cursor as it is, or puts its version behind the first
of the versions that lie ahead. -/
theorem versionsFrom_add_cases
    (h : Holds order table writes) (hcursor : cursor.Within table.records)
    (hwrite : write.Recordable) (hadd : table.add write = .ok next) :
    next.versionsFrom cursor = table.versionsFrom cursor ∨
      ∃ first before after, table.versionsFrom cursor = first :: (before ++ after) ∧
        next.versionsFrom cursor = first :: (before ++ write.version :: after) := by
  obtain ⟨elements, hwoven⟩ := h.keepsFirst.woven
  obtain ⟨table', hadd', -, -, hrecords⟩ := add_eq h.sound hwrite
  obtain rfl := Except.ok.inj (hadd.symm.trans hadd')
  rw [versionsFrom, versionsFrom, hrecords]
  rcases hwoven.keysFrom_insert_cases hcursor write.record with
    hsame | ⟨first, before, after, hold, hnew⟩
  · left
    rw [hsame]
  · right
    obtain ⟨other, hother, rfl⟩ := h.exists_write_of_keysFrom hcursor first (by simp [hold])
    refine ⟨other.version, before.filterMap Record.version?, after.filterMap Record.version?,
      ?_, ?_⟩
    · rw [hold, List.filterMap_cons, Record.version?_record hother, List.filterMap_append]
    · rw [hnew, List.filterMap_cons, Record.version?_record hother, List.filterMap_append,
        List.filterMap_cons, Record.version?_record hwrite]

end Holds

end MemTable

end LsmStore
