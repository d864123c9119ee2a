import LsmStore.MemTable.History
import LsmStore.Proofs.LookupKeys

/-!
# Reads answer as the writes demand

The probe for a key as of a snapshot splits the order of versions: in front of it
lie the lesser keys and the versions of the key that the snapshot does not see.
So the first record that is not before the probe is the newest visible version, if
there is one, and among the writes of that version it belongs to the earliest.
-/

namespace LsmStore

open Std

/-! ## The newest of some writes -/

namespace History

/-- The newest write is strictly newer than the writes before it, and no later one is newer. -/
theorem newest?_split
    {writes : List Write} {write : Write} (h : newest? writes = some write) :
    ∃ earlier later, writes = earlier ++ write :: later ∧
      (∀ other ∈ earlier, write.isNewer other = true) ∧
      (∀ other ∈ later, other.isNewer write = false) := by
  induction writes with
  | nil => cases h
  | cons first writes ih =>
    have hnewest := h
    rw [newest?] at h
    split at h
    · rename_i hnone
      cases h
      obtain rfl := newest?_eq_none_iff.mp hnone
      exact ⟨[], [], rfl, by simp, by simp⟩
    · rename_i other hother
      split at h
      · rename_i hnewer
        cases h
        obtain ⟨earlier, later, rfl, hearlier, hlater⟩ := ih hother
        refine ⟨first :: earlier, later, rfl, ?_, hlater⟩
        intro early hearly
        rcases List.mem_cons.mp hearly with rfl | hearly
        · exact hnewer
        · exact hearlier early hearly
      · cases h
        refine ⟨[], writes, rfl, by simp, fun late hlate => ?_⟩
        exact Bool.eq_false_iff.mpr
          (not_isNewer_of_newest? hnewest (List.mem_cons_of_mem _ hlate))

end History

/-! ## The probe among the records -/

namespace Record

/-- What a search for a key as of a snapshot compares records with. -/
def probe (userKey : Bytes) (snapshot : Nat) : Record :=
  ofBytes (LookupKey.ofSnapshot userKey snapshot).memtableKey

variable {userKey : Bytes}

theorem compare_record_probe
    (order : InternalOrder) {write : Write} (hwrite : write.Recordable)
    (hkey : InternalKey.encodedLength userKey.length < UInt32.size) (snapshot : Nat) :
    compare order write.record (probe userKey snapshot) =
      write.internalKey.compare order.user (InternalKey.probe userKey snapshot) := by
  have hlength : write.internalKey.encode.length < UInt32.size := by
    rw [InternalKey.length_encode]
    exact hwrite.2.1
  have hcompare := compare_encode_append order hlength
    (LookupKey.length_internalKey_lt hkey snapshot) (LengthPrefixed.encode write.value) []
  rw [List.append_nil] at hcompare
  exact hcompare.trans (order.compare_encode _ _)

/-- A record is not before the probe exactly if its key is greater, or if it is a version of
an equivalent key that the snapshot sees. -/
theorem compare_probe_ne_lt_iff
    (order : InternalOrder) {write : Write} (hwrite : write.Recordable)
    (hkey : InternalKey.encodedLength userKey.length < UInt32.size) (snapshot : Nat) :
    compare order write.record (probe userKey snapshot) ≠ .lt ↔
      order.user.compare write.key userKey = .gt ∨
        write.isVisible order.user userKey snapshot = true := by
  rw [compare_record_probe order hwrite hkey, ne_eq, InternalKey.compare_probe_eq_lt_iff,
    Write.sequence_internalKey hwrite, Write.internalKey, Write.isVisible]
  cases order.user.compare write.key userKey <;> simp

theorem tag_lt_tag_iff
    {write other : Write} (hwrite : write.Recordable) (hother : other.Recordable) :
    write.record.tag < other.record.tag ↔ other.isNewer write = true := by
  have hcode : write.kind.code ≤ 1 := Kind.code_le_forSeek write.kind
  have hotherCode : other.kind.code ≤ 1 := Kind.code_le_forSeek other.kind
  rw [Write.tag_record hwrite, Write.tag_record hother, Write.isNewer]
  simp only [Bool.or_eq_true, Bool.and_eq_true, decide_eq_true_eq, beq_iff_eq]
  omega

theorem compare_eq_eq_iff
    (order : InternalOrder) {write other : Write}
    (hwrite : write.Recordable) (hother : other.Recordable) :
    compare order write.record other.record = .eq ↔
      order.user.compare write.key other.key = .eq ∧ write.record.tag = other.record.tag := by
  rw [compare, Ordering.then_eq_eq, Nat.compare_eq_eq, Write.userKey_record hwrite,
    Write.userKey_record hother, @eq_comm _ other.record.tag]

/-- A record in front of the newest visible version is in front of the probe. -/
theorem compare_lt_probe
    (order : InternalOrder) [TransCmp order.user.compare] {write other : Write}
    (hother : other.Recordable) (hwrite : write.Recordable)
    (hkey : InternalKey.encodedLength userKey.length < UInt32.size) {snapshot : Nat}
    (hvisible : write.isVisible order.user userKey snapshot = true)
    (hnewest : other.isVisible order.user userKey snapshot = true →
      ¬ other.isNewer write = true)
    (hless : compare order other.record write.record = .lt) :
    compare order other.record (probe userKey snapshot) = .lt := by
  by_contra hnot
  have hequal : order.user.compare write.key userKey = .eq := by
    simp only [Write.isVisible, Bool.and_eq_true, beq_iff_eq] at hvisible
    exact hvisible.1
  rw [compare, Write.userKey_record hother, Write.userKey_record hwrite,
    TransCmp.congr_right hequal, Ordering.then_eq_lt, Nat.compare_eq_lt] at hless
  rcases (compare_probe_ne_lt_iff order hother hkey snapshot).mp hnot with hgreater | hseen
  · simp [hgreater] at hless
  · have hotherEqual : order.user.compare other.key userKey = .eq := by
      simp only [Write.isVisible, Bool.and_eq_true, beq_iff_eq] at hseen
      exact hseen.1
    simp only [hotherEqual, reduceCtorEq, true_and, false_or] at hless
    exact hnewest hseen ((tag_lt_tag_iff hwrite hother).mp hless)

end Record

/-- Versions that are not older than a visible one are visible up to the snapshot. -/
theorem Write.isVisible_of_tag_eq
    {order : Comparator} [TransCmp order.compare] {userKey : Bytes} {snapshot : Nat}
    {write other : Write} (hwrite : write.Recordable) (hother : other.Recordable)
    (hvisible : write.isVisible order userKey snapshot = true)
    (hkeys : order.compare other.key write.key = .eq)
    (htags : other.record.tag = write.record.tag) :
    other.isVisible order userKey snapshot = true := by
  have hcode : write.kind.code ≤ 1 := Kind.code_le_forSeek write.kind
  rw [Write.tag_record hwrite, Write.tag_record hother] at htags
  simp only [isVisible, Bool.and_eq_true, beq_iff_eq, decide_eq_true_eq] at hvisible ⊢
  exact ⟨TransCmp.eq_trans hkeys hvisible.1, by omega⟩

/-! ## Reads -/

namespace MemTable

variable {order : InternalOrder} [TransCmp order.user.compare] {table : MemTable}
  {writes : List Write} {userKey : Bytes}

/-- What a read makes of the first record that is not before its probe. -/
def answerOf (order : InternalOrder) (userKey : Bytes) : Option Record → Except Fault Lookup
  | none => .ok .notFound
  | some record => do
    let version ← record.version
    if order.user.compare version.key.userKey userKey ≠ .eq then return .notFound
    match version.key.kind with
    | .value => return .found version.value
    | .deletion => return .deleted

theorem Holds.get_eq
    (h : Holds order table writes) (userKey : Bytes) (snapshot : Nat) :
    table.get userKey snapshot =
      answerOf order userKey (table.records.toList.find? fun record =>
        Record.compare order record (Record.probe userKey snapshot) != .lt) := by
  obtain ⟨hfound, -⟩ := h.keepsFirst.lowerBound_eq (Record.probe userKey snapshot)
  rw [← hfound, get, seekCursor, ← Record.probe, h.order_eq]
  cases table.records.key? (table.records.lowerBound (Record.probe userKey snapshot)) <;> rfl

theorem answerOf_record
    (order : InternalOrder) (userKey : Bytes) {write : Write} (hwrite : write.Recordable) :
    answerOf order userKey (some write.record) =
      .ok (if order.user.compare write.key userKey = .eq then
        match write.kind with
        | .value => .found write.value
        | .deletion => .deleted
      else .notFound) := by
  simp only [answerOf, Write.version_record hwrite, bind, Except.bind, pure, Except.pure,
    Write.internalKey]
  by_cases hequal : order.user.compare write.key userKey = .eq
  · cases write.kind <;> simp [hequal]
  · simp [hequal]

/-- The record of the newest visible write is in the table: an earlier write of the same
version would be visible and no older. -/
theorem Holds.mem_toList_of_newest
    (h : Holds order table writes) {snapshot : Nat} {write : Write}
    (hnewest : History.newest?
      (writes.filter (Write.isVisible order.user userKey snapshot)) = some write) :
    write.record ∈ table.records.toList := by
  obtain ⟨earlier, later, hvisible, hearlier, -⟩ := History.newest?_split hnewest
  obtain ⟨before, rest, rfl, rfl, hrest⟩ := List.filter_eq_append_iff.mp hvisible
  obtain ⟨hidden, after, rfl, hhidden, hwrite, rfl⟩ := List.filter_eq_cons_iff.mp hrest
  rw [h.keepsFirst.mem_iff]
  refine ⟨(before ++ hidden).map Write.record, after.map Write.record, by simp, ?_⟩
  intro record hrecord hequal
  obtain ⟨other, hother, rfl⟩ := List.mem_map.mp hrecord
  have hwriteRecordable := h.recordable write (by simp)
  have hotherRecordable := h.recordable other (by simp at hother ⊢; tauto)
  obtain ⟨hkeys, htags⟩ :=
    (Record.compare_eq_eq_iff order hotherRecordable hwriteRecordable).mp hequal
  have hotherVisible :=
    Write.isVisible_of_tag_eq hwriteRecordable hotherRecordable hwrite hkeys htags
  rcases List.mem_append.mp hother with hbefore | hhid
  · have hnewer := hearlier other (List.mem_filter.mpr ⟨hbefore, hotherVisible⟩)
    have := (Record.tag_lt_tag_iff hotherRecordable hwriteRecordable).mpr hnewer
    omega
  · exact hhidden other hhid hotherVisible

/-- A read finds the newest visible write, or nothing if there is none. -/
theorem Holds.get_eq_lookup
    (h : Holds order table writes)
    (hkey : InternalKey.encodedLength userKey.length < UInt32.size) (snapshot : Nat) :
    table.get userKey snapshot = .ok (History.lookup order.user writes userKey snapshot) := by
  rw [h.get_eq]
  have hnotBefore : ∀ {write : Write}, write.Recordable →
      ((Record.compare order write.record (Record.probe userKey snapshot) != .lt) = true ↔
        order.user.compare write.key userKey = .gt ∨
          write.isVisible order.user userKey snapshot = true) := by
    intro write hwrite
    rw [bne_iff_ne]
    exact Record.compare_probe_ne_lt_iff order hwrite hkey snapshot
  rw [History.lookup]
  cases hnewest : History.newest?
      (writes.filter (Write.isVisible order.user userKey snapshot)) with
  | none =>
    have hnone := List.filter_eq_nil_iff.mp (History.newest?_eq_none_iff.mp hnewest)
    cases hfind : table.records.toList.find? fun record =>
        Record.compare order record (Record.probe userKey snapshot) != .lt with
    | none => rfl
    | some record =>
      obtain ⟨write, hwrite, hrecordable, rfl⟩ :=
        h.exists_write (List.mem_of_find?_eq_some hfind)
      have hfirst := List.find?_some hfind
      have hgreater : order.user.compare write.key userKey = .gt :=
        ((hnotBefore hrecordable).mp hfirst).resolve_right (hnone write hwrite)
      simp [answerOf_record order userKey hrecordable, hgreater]
  | some write =>
    have hmem := h.mem_toList_of_newest hnewest
    obtain ⟨hwrite, hvisible⟩ := List.mem_filter.mp (History.mem_of_newest? hnewest)
    have hrecordable := h.recordable write hwrite
    obtain ⟨before, behind, hkeys⟩ := List.append_of_mem hmem
    have hfind : (table.records.toList.find? fun record =>
        Record.compare order record (Record.probe userKey snapshot) != .lt) =
          some write.record := by
      refine List.find?_eq_some_iff_append.mpr
        ⟨(hnotBefore hrecordable).mpr (Or.inr hvisible), before, behind, hkeys, ?_⟩
      intro record hrecord
      obtain ⟨other, hother, hotherRecordable, rfl⟩ :=
        h.exists_write (show record ∈ table.records.toList by simp [hkeys, hrecord])
      have hincreasing := h.keepsFirst.increasing
      rw [SkipList.Increasing, hkeys, List.pairwise_append] at hincreasing
      have hless := hincreasing.2.2 other.record hrecord write.record (by simp)
      have hbefore := Record.compare_lt_probe order hotherRecordable hrecordable hkey hvisible
        (fun hotherVisible => History.not_isNewer_of_newest? hnewest
          (List.mem_filter.mpr ⟨hother, hotherVisible⟩)) hless
      simp [hbefore]
    have hequal : order.user.compare write.key userKey = .eq := by
      simp only [Write.isVisible, Bool.and_eq_true, beq_iff_eq] at hvisible
      exact hvisible.1
    rw [hfind, answerOf_record order userKey hrecordable]
    exact congrArg Except.ok (if_pos hequal)

/-- After any writes that have records, in any order and with any heights of towers, every
read as of every snapshot answers as the writes demand. -/
theorem get_addAll_eq_lookup
    (order : InternalOrder) [TransCmp order.user.compare]
    (blockSize : Nat) (hpos : 0 < blockSize) (heights : Nat → Height)
    (writes : List Write) (hwrites : ∀ write ∈ writes, write.Recordable) :
    ∃ table, (empty order (Arena.ofBlockSize blockSize hpos) heights).addAll writes = .ok table ∧
      ∀ userKey : Bytes, InternalKey.encodedLength userKey.length < UInt32.size →
        ∀ snapshot : Nat,
          table.get userKey snapshot =
            .ok (History.lookup order.user writes userKey snapshot) := by
  have hempty := holds_empty order (Arena.sound_ofBlockSize blockSize hpos) heights
  obtain ⟨table, haddAll, hholds⟩ := hempty.addAll writes hwrites
  exact ⟨table, haddAll, fun userKey hkey snapshot => hholds.get_eq_lookup hkey snapshot⟩

/-- Caseless keys, numbers out of order, a deletion and two values under one number. -/
theorem get_addAll_caseless :
    ∃ table,
      (empty ⟨⟨"caseless", Bytes.compareCaseless⟩⟩ (Arena.ofBlockSize 64 (by decide))
        (Height.draw 7)).addAll
          [⟨9, .deletion, [107], []⟩, ⟨9, .value, [75], [50]⟩, ⟨12, .value, [108], [49]⟩,
            ⟨9, .value, [107], [51]⟩, ⟨4, .value, [107], [52]⟩] = .ok table ∧
      table.get [107] (UInt64.size - 1) = .ok (.found [50]) ∧
      table.get [107] 3 = .ok .notFound := by
  obtain ⟨table, haddAll, hget⟩ := get_addAll_eq_lookup
    ⟨⟨"caseless", Bytes.compareCaseless⟩⟩ 64 (by decide) (Height.draw 7)
    [⟨9, .deletion, [107], []⟩, ⟨9, .value, [75], [50]⟩, ⟨12, .value, [108], [49]⟩,
      ⟨9, .value, [107], [51]⟩, ⟨4, .value, [107], [52]⟩] (by decide)
  refine ⟨table, haddAll, ?_, ?_⟩
  · rw [hget [107] (by decide)]
    decide
  · rw [hget [107] (by decide)]
    decide

end MemTable

end LsmStore
