import LsmStore.Proofs.MemTable.Versions

/-!
# What an iteration gives back

Every write fills a region of the arena with its record, to the last byte, and no later
write touches that region.  The list holds the first record of each version, in the order
of versions.  So an iteration over a memtable gives back, once for each version that was
written, all the parts of the first write of it, and no reader of records fails.
-/

namespace LsmStore

open Std

/-! ## Writes of one version -/

namespace Write

/-- Whether two writes are of one version: to equivalent keys, under one number and of one
kind. -/
def SameVersion (user : Comparator) (write other : Write) : Prop :=
  user.compare write.key other.key = .eq ∧ write.sequence = other.sequence ∧
    write.kind = other.kind

/-- Whether a write is one of some writes, and none before it is of the same version. -/
def IsEarliest (user : Comparator) (writes : List Write) (write : Write) : Prop :=
  ∃ earlier later, writes = earlier ++ write :: later ∧
    ∀ other ∈ earlier, ¬ other.SameVersion user write

variable {write other : Write} {writes : List Write} {user : Comparator}

theorem IsEarliest.mem
    (h : write.IsEarliest user writes) :
    write ∈ writes := by
  obtain ⟨earlier, later, rfl, -⟩ := h
  exact List.mem_append_right earlier List.mem_cons_self

theorem tag_eq_tag_iff
    (hwrite : write.Recordable) (hother : other.Recordable) :
    write.record.tag = other.record.tag ↔
      write.sequence = other.sequence ∧ write.kind = other.kind := by
  rw [tag_record hwrite, tag_record hother]
  constructor
  · intro htags
    cases hkind : write.kind <;> cases hkind' : other.kind <;>
      simp only [hkind, hkind', Kind.code] at htags
    · exact ⟨by omega, rfl⟩
    · omega
    · omega
    · exact ⟨by omega, rfl⟩
  · rintro ⟨hsequence, hkind⟩
    rw [hsequence, hkind]

theorem compare_record_eq_eq_iff
    (order : InternalOrder) (hwrite : write.Recordable) (hother : other.Recordable) :
    Record.compare order write.record other.record = .eq ↔
      write.SameVersion order.user other := by
  rw [Record.compare_eq_eq_iff order hwrite hother, tag_eq_tag_iff hwrite hother]
  rfl

/-- The first records of the versions are those of the earliest writes of them. -/
theorem isFirst_map_record_iff
    (order : InternalOrder) (hwrites : ∀ write ∈ writes, write.Recordable) {record : Record} :
    SkipList.IsFirst (Record.compare order) (writes.map Write.record) record ↔
      ∃ write : Write, write.IsEarliest order.user writes ∧ record = write.record := by
  constructor
  · rintro ⟨earlierRecords, laterRecords, hrecords, hfirst⟩
    obtain ⟨earlier, rest, rfl, rfl, hrest⟩ := List.map_eq_append_iff.mp hrecords
    obtain ⟨write, later, rfl, rfl, rfl⟩ := List.map_eq_cons_iff.mp hrest
    refine ⟨write, ⟨earlier, later, rfl, ?_⟩, rfl⟩
    intro other hother hsame
    have hcompare := (compare_record_eq_eq_iff order (hwrites other (by simp [hother]))
      (hwrites write (by simp))).mpr hsame
    exact hfirst other.record (List.mem_map_of_mem hother) hcompare
  · rintro ⟨write, ⟨earlier, later, rfl, hearliest⟩, rfl⟩
    refine ⟨earlier.map Write.record, later.map Write.record, ?_, ?_⟩
    · rw [List.map_append, List.map_cons]
    · intro record hrecord hcompare
      obtain ⟨other, hother, rfl⟩ := List.mem_map.mp hrecord
      have hsame := (compare_record_eq_eq_iff order (hwrites other (by simp [hother]))
        (hwrites write (by simp))).mp hcompare
      exact hearliest other hother hsame

theorem exists_isEarliest
    (order : InternalOrder) [TransCmp order.user.compare]
    (hwrites : ∀ write ∈ writes, write.Recordable) (hwrite : write ∈ writes) :
    ∃ first : Write, first.IsEarliest order.user writes ∧ first.SameVersion order.user write := by
  obtain ⟨record, hfirst, hcompare⟩ := @SkipList.exists_isFirst _ (Record.compare order) _ _ _
    (List.mem_map_of_mem (f := Write.record) hwrite)
  obtain ⟨first, hearliest, rfl⟩ := (isFirst_map_record_iff order hwrites).mp hfirst
  have hsame := (compare_record_eq_eq_iff order (hwrites first hearliest.mem)
    (hwrites write hwrite)).mp hcompare
  exact ⟨first, hearliest, hsame⟩

end Write

/-! ## Versions in their order -/

namespace Version

/-- Whether a version is the one of a write, up to the equivalence of keys. -/
def IsOf (user : Comparator) (write : Write) (version : Version) : Prop :=
  user.compare version.key.userKey write.key = .eq ∧
    version.key.sequence.val = write.sequence ∧ version.key.kind = write.kind

instance (user : Comparator) (write : Write) (version : Version) :
    Decidable (version.IsOf user write) :=
  inferInstanceAs (Decidable (_ ∧ _ ∧ _))

/-- A version that has all the parts of a write and is stored as its internal key. -/
structure Carries (write : Write) (version : Version) : Prop where
  userKey_eq : version.key.userKey = write.key
  sequence_eq : version.key.sequence.val = write.sequence
  kind_eq : version.key.kind = write.kind
  value_eq : version.value = write.value
  stored_eq : version.stored = version.key.encode

/-- The order of versions: a lesser key comes first, of equivalent keys the one with the higher
number, and under one number a value comes before a deletion. -/
def Precedes (user : Comparator) (version other : Version) : Prop :=
  user.compare version.key.userKey other.key.userKey = .lt ∨
    user.compare version.key.userKey other.key.userKey = .eq ∧
      (other.key.sequence.val < version.key.sequence.val ∨
        other.key.sequence.val = version.key.sequence.val ∧
          version.key.kind = .value ∧ other.key.kind = .deletion)

variable {user : Comparator} {write other : Write} {version : Version} {versions : List Version}

theorem carries_version
    (hwrite : write.Recordable) :
    write.version.Carries write :=
  ⟨rfl, Write.sequence_internalKey hwrite, rfl, rfl, rfl⟩

theorem isOf_version_iff
    (hwrite : write.Recordable) :
    write.version.IsOf user other ↔ write.SameVersion user other := by
  rw [IsOf, Write.SameVersion, Write.version, Write.sequence_internalKey hwrite]
  rfl

theorem precedes_version_iff
    (order : InternalOrder) (hwrite : write.Recordable) (hother : other.Recordable) :
    write.version.Precedes order.user other.version ↔
      Record.compare order write.record other.record = .lt := by
  have htags : other.record.tag < write.record.tag ↔ other.sequence < write.sequence ∨
      other.sequence = write.sequence ∧ write.kind = .value ∧ other.kind = .deletion := by
    rw [Write.tag_record hwrite, Write.tag_record hother]
    cases write.kind <;> cases other.kind <;> simp [Kind.code] <;> omega
  rw [Record.compare, Ordering.then_eq_lt, Nat.compare_eq_lt, Write.userKey_record hwrite,
    Write.userKey_record hother, htags, Precedes, Write.version, Write.version,
    Write.sequence_internalKey hwrite, Write.sequence_internalKey hother]
  rfl

theorem not_precedes_of_isOf
    [TransCmp user.compare] {another : Version} (h : version.IsOf user write)
    (hanother : another.IsOf user write) :
    ¬ version.Precedes user another := by
  have hequal : user.compare version.key.userKey another.key.userKey = .eq :=
    TransCmp.eq_trans h.1 (OrientedCmp.eq_symm hanother.1)
  rintro (hless | ⟨-, hhigher | ⟨-, hvalue, hdeletion⟩⟩)
  · rw [hequal] at hless
    cases hless
  · rw [h.2.1, hanother.2.1] at hhigher
    exact Nat.lt_irrefl _ hhigher
  · rw [h.2.2] at hvalue
    rw [hanother.2.2, hvalue] at hdeletion
    cases hdeletion

/-- Among versions in their order there is only one of a write. -/
theorem filter_isOf_eq
    [TransCmp user.compare] (hordered : versions.Pairwise (Precedes user))
    (hmem : version ∈ versions) (h : version.IsOf user write) :
    versions.filter (fun version => version.IsOf user write) = [version] := by
  obtain ⟨front, back, rfl⟩ := List.append_of_mem hmem
  obtain ⟨-, htail, hfront⟩ := List.pairwise_append.mp hordered
  obtain ⟨hback, -⟩ := List.pairwise_cons.mp htail
  have hnoneBefore : front.filter (fun version => version.IsOf user write) = [] := by
    refine List.filter_eq_nil_iff.mpr ?_
    intro another hanother hsame
    exact not_precedes_of_isOf (of_decide_eq_true hsame) h
      (hfront another hanother version List.mem_cons_self)
  have hnoneBehind : back.filter (fun version => version.IsOf user write) = [] := by
    refine List.filter_eq_nil_iff.mpr ?_
    intro another hanother hsame
    exact not_precedes_of_isOf h (of_decide_eq_true hsame) (hback another hanother)
  simp only [List.filter_append, List.filter_cons, hnoneBefore, hnoneBehind, h, decide_true,
    if_true, List.nil_append]

end Version

namespace MemTable

variable {order : InternalOrder} {table next final : MemTable} {writes : List Write}
  {write : Write} {region : Region}

namespace Holds

theorem mem_versionsFrom_first_iff
    (h : Holds order table writes) {version : Version} :
    version ∈ table.versionsFrom table.records.first ↔
      ∃ write : Write, write.IsEarliest order.user writes ∧ version = write.version := by
  rw [versionsFrom, List.mem_filterMap]
  constructor
  · rintro ⟨record, hrecord, hversion⟩
    obtain ⟨write, hearliest, rfl⟩ := (Write.isFirst_map_record_iff order h.recordable).mp
      ((h.keepsFirst.mem_iff record).mp hrecord)
    rw [Record.version?_record (h.recordable write hearliest.mem)] at hversion
    exact ⟨write, hearliest, (Option.some.inj hversion).symm⟩
  · rintro ⟨write, hearliest, rfl⟩
    refine ⟨write.record, ?_, Record.version?_record (h.recordable write hearliest.mem)⟩
    exact (h.keepsFirst.mem_iff write.record).mpr
      ((Write.isFirst_map_record_iff order h.recordable).mpr ⟨write, hearliest, rfl⟩)

theorem pairwise_precedes
    (h : Holds order table writes) :
    (table.versionsFrom table.records.first).Pairwise (Version.Precedes order.user) := by
  refine h.pairwise_versionsFrom_first ?_
  intro write other hwrite hother hless
  exact (Version.precedes_version_iff order hwrite hother).mpr hless

theorem exists_filter_isOf_eq
    [TransCmp order.user.compare] (h : Holds order table writes) (hwrite : write ∈ writes) :
    ∃ first version, first.IsEarliest order.user writes ∧ first.SameVersion order.user write ∧
      version.Carries first ∧
      (table.versionsFrom table.records.first).filter
        (fun version => version.IsOf order.user write) = [version] := by
  obtain ⟨first, hearliest, hsame⟩ := Write.exists_isEarliest order h.recordable hwrite
  have hfirst := h.recordable first hearliest.mem
  refine ⟨first, first.version, hearliest, hsame, Version.carries_version hfirst, ?_⟩
  refine Version.filter_isOf_eq h.pairwise_precedes ?_ ?_
  · exact h.mem_versionsFrom_first_iff.mpr ⟨first, hearliest, rfl⟩
  · exact (Version.isOf_version_iff hfirst).mpr hsame

end Holds

/-! ## Records in the arena -/

/-- A write that is taken in by a memtable fills a region with its record, which is left alone up
to a later memtable and can be read there. -/
structure Fills (write : Write) (before after : MemTable) (region : Region) : Prop where
  /-- The region is reserved, and the whole record is written into it. -/
  added : ∃ reserved next, before.arena.allocate region.length = .ok (region, reserved) ∧
    before.add write = .ok next ∧
    next.arena = reserved.write region (Record.encode write.internalKey write.value)
  length_region : region.length =
    Var32.length (InternalKey.encodedLength write.key.length).toUInt32 +
      InternalKey.encodedLength write.key.length +
      Var32.length write.value.length.toUInt32 + write.value.length
  /-- None of the region is left, and none is missing. -/
  length_record : (Record.encode write.internalKey write.value).length = region.length
  lent : after.arena.Lent region
  read_eq : after.arena.read region = Record.encode write.internalKey write.value
  /-- A comparison finds the internal key. -/
  key_read : LengthPrefixed.decode (after.arena.read region) =
    .ok (write.internalKey.encode, LengthPrefixed.encode write.value)
  /-- An iteration finds the version with its value. -/
  version_read : ∃ version, Record.decode (after.arena.read region) = .ok version ∧
    version.Carries write

theorem lent_of_add
    (hsound : table.arena.Sound) (h : write.Recordable) (hadd : table.add write = .ok next)
    (hlent : table.arena.Lent region) :
    next.arena.Lent region ∧ next.arena.read region = table.arena.read region := by
  obtain ⟨fresh, reserved, next', -, hallocate, hlength, -, hfresh, hadd', -, harena, -⟩ :=
    exists_region_of_add hsound h
  cases hadd.symm.trans hadd'
  obtain ⟨hkept, hapart, hread⟩ := hlent.allocate hallocate
  rw [harena]
  refine ⟨hkept.write fresh _, ?_⟩
  rw [Arena.read_write_of_apart hfresh.contains (Nat.le_of_eq hlength) hapart, hread]

theorem Holds.lent_of_addAll
    [TransCmp order.user.compare] {more : List Write} (h : Holds order table writes)
    (hmore : ∀ write ∈ more, write.Recordable) (haddAll : table.addAll more = .ok final)
    (hlent : table.arena.Lent region) :
    final.arena.Lent region ∧ final.arena.read region = table.arena.read region := by
  obtain ⟨final', haddAll', -, hkept⟩ := h.addAll_keeps
    (motive := fun later _ =>
      later.arena.Lent region ∧ later.arena.read region = table.arena.read region)
    (by
      intro later next' _ _ hholds hwrite hadd hlater
      obtain ⟨hstill, hread⟩ := lent_of_add hholds.sound hwrite hadd hlater.1
      exact ⟨hstill, hread.trans hlater.2⟩)
    ⟨hlent, rfl⟩ more hmore
  cases haddAll.symm.trans haddAll'
  exact hkept

theorem Holds.exists_fills
    [TransCmp order.user.compare] {earlier later : List Write} (h : Holds order table [])
    (hwrites : ∀ other ∈ earlier ++ write :: later, other.Recordable)
    (haddAll : table.addAll (earlier ++ write :: later) = .ok final) :
    ∃ before region, table.addAll earlier = .ok before ∧ Fills write before final region := by
  -- The run is cut in three: up to the write, the write, and what follows it.
  obtain ⟨hearlier, hrest⟩ := List.forall_mem_append.mp hwrites
  obtain ⟨hwrite, hlater⟩ := List.forall_mem_cons.mp hrest
  obtain ⟨before, hbefore, hholds⟩ := h.addAll earlier hearlier
  obtain ⟨next, hadd, hnext⟩ := hholds.add hwrite
  obtain ⟨region, reserved, next', hlength, hallocate, hrecord, -, hlent, hadd', -, harena, -⟩ :=
    exists_region_of_add hholds.sound hwrite
  cases hadd.symm.trans hadd'
  have hrun : next.addAll later = .ok final := by
    rw [MemTable.addAll, List.foldlM_append, ← MemTable.addAll, hbefore] at haddAll
    rw [← haddAll]
    simp only [bind, Except.bind, List.foldlM_cons, hadd]
    rfl
  have hnextLent : next.arena.Lent region := by
    rw [harena]
    exact hlent.write region _
  obtain ⟨hfinal, hsame⟩ := hnext.lent_of_addAll hlater hrun hnextLent
  have hread : final.arena.read region = Record.encode write.internalKey write.value := by
    rw [hsame, harena]
    exact Arena.read_write hlent.contains hrecord
  refine ⟨before, region, hbefore, ⟨reserved, next, hallocate, hadd, harena⟩, ?_, hrecord, hfinal,
    hread, ?_, ?_⟩
  · rw [Write.recordLength_eq hwrite] at hlength
    exact (Except.ok.inj hlength).symm
  · have hstored : write.internalKey.encode.length < UInt32.size := by
      rw [InternalKey.length_encode]
      exact hwrite.2.1
    rw [hread]
    exact LengthPrefixed.decode_encode hstored _
  · refine ⟨write.version, ?_, Version.carries_version hwrite⟩
    rw [hread]
    exact Record.decode_encode hwrite.2.1 hwrite.2.2

/-! ## Iterations -/

/-- After any writes that have records, with any heights of towers and blocks of any size, the
calls of an iterator give the versions one after the other, in their strict order, and then none,
and so do listings of any length; each version belongs to a write, and for each write there is
exactly one, which carries the earliest write of that version.  Every write has filled a region of
the arena with its record, where it is still read as it was written, and the records that are
iterated over are those in the arena. -/
theorem iteration_returns_history
    (order : InternalOrder) [TransCmp order.user.compare]
    (blockSize : Nat) (hpos : 0 < blockSize) (heights : Nat → Height)
    (writes : List Write) (hwrites : ∀ write ∈ writes, write.Recordable) :
    let start := empty order (Arena.ofBlockSize blockSize hpos) heights
    ∃ table versions, start.addAll writes = .ok table ∧ table.versions = .ok versions ∧
      (∀ limit, table.take limit table.records.first = .ok (versions.take limit)) ∧
      (∀ number, table.call table.records.first number = .ok versions[number]?) ∧
      versions.Pairwise (Version.Precedes order.user) ∧
      (∀ version ∈ versions, ∃ write ∈ writes, version.Carries write) ∧
      (∀ write ∈ writes, ∃ first version, first.IsEarliest order.user writes ∧
        first.SameVersion order.user write ∧ version.Carries first ∧
        versions.filter (fun version => version.IsOf order.user write) = [version]) ∧
      (∀ earlier write later, writes = earlier ++ write :: later →
        ∃ before region, start.addAll earlier = .ok before ∧
          Fills write before table region) ∧
      ∀ record ∈ table.records.toList, ∃ region, table.arena.Lent region ∧
        record.bytes = table.arena.read region := by
  intro start
  have hempty : Holds order start [] :=
    holds_empty order (Arena.sound_ofBlockSize blockSize hpos) heights
  obtain ⟨table, haddAll, hholds⟩ := hempty.addAll writes hwrites
  rw [List.nil_append] at hholds
  have hfills : ∀ earlier write later, writes = earlier ++ write :: later →
      ∃ before region, start.addAll earlier = .ok before ∧ Fills write before table region := by
    rintro earlier write later rfl
    exact hempty.exists_fills hwrites haddAll
  refine ⟨table, _, haddAll, hholds.versions_eq, hholds.take_eq hholds.first_within,
    hholds.call_eq hholds.first_within, hholds.pairwise_precedes, ?_, ?_, hfills, ?_⟩
  · intro version hversion
    obtain ⟨write, hearliest, rfl⟩ := hholds.mem_versionsFrom_first_iff.mp hversion
    exact ⟨write, hearliest.mem, Version.carries_version (hwrites write hearliest.mem)⟩
  · intro write hwrite
    exact hholds.exists_filter_isOf_eq hwrite
  · intro record hrecord
    obtain ⟨write, hwrite, -, rfl⟩ := hholds.exists_write hrecord
    obtain ⟨earlier, later, hsplit⟩ := List.append_of_mem hwrite
    obtain ⟨before, region, -, hfilled⟩ := hfills earlier write later hsplit
    exact ⟨region, hfilled.lent, hfilled.read_eq.symm⟩

/-- A deletion and a value under one number, a value that needs an arena block of its own, and
a second value of a version that is there already. -/
def rewrites : List Write :=
  [⟨9, .deletion, [107], []⟩, ⟨9, .value, [75], [50]⟩, ⟨12, .value, [108], List.replicate 40 7⟩,
    ⟨9, .value, [107], [51]⟩]

/-- The iteration gives the first of the two values, before the deletion. -/
theorem iteration_returns_history_rewrites :
    ∃ table versions,
      (empty ⟨⟨"caseless", Bytes.compareCaseless⟩⟩ (Arena.ofBlockSize 64 (by decide))
        (Height.draw 7)).addAll rewrites = .ok table ∧
      table.versions = .ok versions ∧
      versions.map Version.value = [[50], [], List.replicate 40 7] ∧
      (∃ last, table.call table.records.first 2 = .ok (some last) ∧
        last.value = List.replicate 40 7) ∧
      table.call table.records.first 3 = .ok none ∧
      (∃ version, versions.filter (fun version =>
          version.IsOf ⟨"caseless", Bytes.compareCaseless⟩ ⟨9, .value, [107], [51]⟩) =
        [version]) ∧
      ∃ region, region.length = 51 ∧ table.arena.read region =
        [9, 108, 1, 12, 0, 0, 0, 0, 0, 0, 40] ++ List.replicate 40 7 := by
  obtain ⟨table, versions, haddAll, hversions, -, hcalls, -, -, hfilter, hfills, -⟩ :=
    @iteration_returns_history ⟨⟨"caseless", Bytes.compareCaseless⟩⟩ transCmp_caseless 64
      (by decide) (Height.draw 7) rewrites (by decide)
  have hlisted : (do
      let table ← (empty ⟨⟨"caseless", Bytes.compareCaseless⟩⟩
        (Arena.ofBlockSize 64 (by decide)) (Height.draw 7)).addAll rewrites
      let versions ← table.versions
      return versions.map Version.value) = Except.ok [[50], [], List.replicate 40 7] := by
    decide +kernel
  rw [haddAll] at hlisted
  simp only [bind, Except.bind, hversions] at hlisted
  have hvalues : versions.map Version.value = [[50], [], List.replicate 40 7] :=
    Except.ok.inj hlisted
  obtain ⟨last, hlast, hlastValue⟩ : ∃ last, versions[2]? = some last ∧
      last.value = List.replicate 40 7 := by
    rw [← Option.map_eq_some_iff, ← List.getElem?_map, hvalues]
    rfl
  have hlength : versions.length = 3 := by
    rw [← List.length_map Version.value, hvalues]
    rfl
  obtain ⟨first, version, -, -, -, hversion⟩ := hfilter ⟨9, .value, [107], [51]⟩ (by decide)
  obtain ⟨before, region, -, hfilled⟩ := hfills
    [⟨9, .deletion, [107], []⟩, ⟨9, .value, [75], [50]⟩] _ [⟨9, .value, [107], [51]⟩] rfl
  refine ⟨table, versions, haddAll, hversions, hvalues, ⟨last, ?_, hlastValue⟩, ?_,
    ⟨version, hversion⟩, region, ?_, ?_⟩
  · rw [hcalls, hlast]
  · rw [hcalls, List.getElem?_eq_none (Nat.le_of_eq hlength)]
  · rw [hfilled.length_region]
    decide +kernel
  · rw [hfilled.read_eq]
    decide +kernel

end MemTable

end LsmStore
