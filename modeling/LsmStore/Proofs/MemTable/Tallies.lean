import LsmStore.Proofs.MemTable.Iteration
import LsmStore.Proofs.SkipList.Classes

/-!
# Counters tell what is stored

Whether a write has stored anything is told by the number of records before and after it.
A write of a new version puts one version among those of the memtable and is counted by
its kind and by its lengths; a write of a version that is there already is counted as a
duplicate and leaves everything that is read as it was.  So the counters are at all times
the numbers that a walk over the versions would give.
-/

namespace LsmStore

open Std

namespace Counters

/-- Whether counters tell what is stored after so many writes.  All are 64-bit words. -/
structure Tell (counters : Counters) (versions : List Version) (added : Nat) : Prop where
  length_le : versions.length ≤ added
  values_eq : counters.values =
    (versions.countP fun version => version.key.kind = .value).toUInt64
  tombstones_eq : counters.tombstones =
    (versions.countP fun version => version.key.kind = .deletion).toUInt64
  duplicates_eq : counters.duplicates = (added - versions.length).toUInt64
  keyBytes_eq : counters.keyBytes =
    (versions.map fun version : Version => version.key.userKey.length).sum.toUInt64
  valueBytes_eq : counters.valueBytes =
    (versions.map fun version : Version => version.value.length).sum.toUInt64

theorem tell_nothing : Tell {} [] 0 := by
  constructor <;> rfl

variable {counters : Counters} {versions : List Version} {added : Nat}

theorem countP_kind_eq_length
    (versions : List Version) :
    (versions.countP fun version => version.key.kind = .value) +
      (versions.countP fun version => version.key.kind = .deletion) = versions.length := by
  have hother : (versions.countP fun version => version.key.kind = .deletion) =
      versions.countP fun version => decide ¬ decide (version.key.kind = .value) = true := by
    refine List.countP_congr ?_
    intro version _
    cases version.key.kind <;> decide
  rw [hother]
  exact (List.length_eq_countP_add_countP _).symm

namespace Tell

theorem total_eq
    (h : counters.Tell versions added) :
    counters.total = versions.length.toUInt64 := by
  rw [total, h.values_eq, h.tombstones_eq, ← countP_kind_eq_length versions]
  exact (UInt64.ofNat_add _ _).symm

theorem perm
    {others : List Version} (h : counters.Tell versions added) (hperm : versions.Perm others) :
    counters.Tell others added where
  length_le := hperm.length_eq ▸ h.length_le
  values_eq := hperm.countP_eq _ ▸ h.values_eq
  tombstones_eq := hperm.countP_eq _ ▸ h.tombstones_eq
  duplicates_eq := hperm.length_eq ▸ h.duplicates_eq
  keyBytes_eq := by
    rw [h.keyBytes_eq, (hperm.map _).sum_eq]
  valueBytes_eq := by
    rw [h.valueBytes_eq, (hperm.map _).sum_eq]

theorem recordAdd
    (h : counters.Tell versions added) (version : Version) :
    (counters.recordAdd version.key.kind version.key.userKey.length.toUInt64
      version.value.length.toUInt64).Tell (version :: versions) (added + 1) where
  length_le := Nat.succ_le_succ h.length_le
  values_eq := by
    rw [Counters.recordAdd, h.values_eq, List.countP_cons]
    cases version.key.kind <;> exact (UInt64.ofNat_add _ _).symm
  tombstones_eq := by
    rw [Counters.recordAdd, h.tombstones_eq, List.countP_cons]
    cases version.key.kind <;> exact (UInt64.ofNat_add _ _).symm
  duplicates_eq := by
    rw [Counters.recordAdd, h.duplicates_eq, List.length_cons, Nat.add_sub_add_right]
  keyBytes_eq := by
    rw [Counters.recordAdd, h.keyBytes_eq, List.map_cons, List.sum_cons, Nat.add_comm]
    exact (UInt64.ofNat_add _ _).symm
  valueBytes_eq := by
    rw [Counters.recordAdd, h.valueBytes_eq, List.map_cons, List.sum_cons, Nat.add_comm]
    exact (UInt64.ofNat_add _ _).symm

theorem recordDuplicate
    (h : counters.Tell versions added) :
    counters.recordDuplicate.Tell versions (added + 1) where
  length_le := Nat.le_succ_of_le h.length_le
  values_eq := h.values_eq
  tombstones_eq := h.tombstones_eq
  duplicates_eq := by
    rw [Counters.recordDuplicate, h.duplicates_eq, Nat.succ_sub h.length_le]
    exact (UInt64.ofNat_add _ _).symm
  keyBytes_eq := h.keyBytes_eq
  valueBytes_eq := h.valueBytes_eq

/-- As long as the writes can be counted in a word, the numbers of versions are exact. -/
theorem exact
    (h : counters.Tell versions added) (hfits : added < UInt64.size) :
    counters.values.toNat = versions.countP (fun version => version.key.kind = .value) ∧
      counters.tombstones.toNat =
        versions.countP (fun version => version.key.kind = .deletion) ∧
      counters.total.toNat = versions.length ∧
      counters.duplicates.toNat = added - versions.length := by
  have hlength := h.length_le
  have hkinds := countP_kind_eq_length versions
  rw [h.total_eq, h.values_eq, h.tombstones_eq, h.duplicates_eq]
  refine ⟨?_, ?_, ?_, ?_⟩ <;> exact UInt64.toNat_ofNat_of_lt' (by omega)

end Tell

end Counters

namespace MemTable

variable {order : InternalOrder} {table next : MemTable} {writes : List Write} {write : Write}

/-- Whether everything that can be read is the same in two memtables. -/
structure ReadsAlike (table other : MemTable) : Prop where
  get_eq : ∀ userKey snapshot, other.get userKey snapshot = table.get userKey snapshot
  seek_eq : ∀ userKey snapshot, other.seek userKey snapshot = table.seek userKey snapshot
  versions_eq : other.versions = table.versions
  size_eq : other.size = table.size
  /-- An iterator goes on alike, wherever it is. -/
  next_eq : ∀ cursor, other.next cursor = table.next cursor
  /-- A new iterator starts alike. -/
  first_eq : other.records.first = table.records.first
  seekCursor_eq : ∀ userKey snapshot,
    other.seekCursor userKey snapshot = table.seekCursor userKey snapshot

theorem readsAlike_of_records_eq
    (horder : next.order = table.order) (hrecords : next.records = table.records) :
    table.ReadsAlike next := by
  obtain ⟨order, records, arena, counters⟩ := table
  obtain ⟨order', records', arena', counters'⟩ := next
  obtain rfl : order' = order := horder
  obtain rfl : records' = records := hrecords
  constructor <;> intros <;> rfl

theorem counters_of_add
    (hadd : table.add write = .ok next) :
    next.counters =
      if table.records.size < next.records.size then
        table.counters.recordAdd write.kind write.key.length.toUInt64 write.value.length.toUInt64
      else table.counters.recordDuplicate := by
  simp only [add, bind, Except.bind, pure, Except.pure] at hadd
  split at hadd
  · cases hadd
  · split at hadd
    · cases hadd
    · split at hadd
      · cases hadd
      · cases hadd
        rfl

namespace Holds

theorem size_eq
    (h : Holds order table writes) :
    table.size = (table.versionsFrom table.records.first).length := by
  obtain ⟨elements, hwoven⟩ := h.keepsFirst.woven
  have hread : ∀ record ∈ table.records.toList, (Record.version? record).isSome = true := by
    intro record hrecord
    obtain ⟨write, -, hwrite, rfl⟩ := h.exists_write hrecord
    rw [Record.version?_record hwrite, Option.isSome_some]
  rw [size, ← hwoven.length_toList]
  exact (List.filterMap_length_eq_length.mpr hread).symm

theorem isEmpty_iff
    (h : Holds order table writes) :
    table.isEmpty = true ↔ table.size = 0 := by
  obtain ⟨elements, hwoven⟩ := h.keepsFirst.woven
  rw [isEmpty, size, hwoven.isEmpty_iff, ← hwoven.length_toList, List.length_eq_zero_iff]

variable [TransCmp order.user.compare]

/-- What a write does to the versions: it leaves the records as they are, or puts its version
among them. -/
theorem versionsFrom_first_add_cases
    (h : Holds order table writes) (hwrite : write.Recordable) (hadd : table.add write = .ok next) :
    next.records = table.records ∨
      ∃ front back, table.versionsFrom table.records.first = front ++ back ∧
        next.versionsFrom next.records.first = front ++ write.version :: back := by
  obtain ⟨table', hadd', -, -, hrecords⟩ := add_eq h.sound hwrite
  obtain rfl := Except.ok.inj (hadd.symm.trans hadd')
  obtain ⟨horder, ⟨elements, hwoven⟩, hsorted, -⟩ := h.keepsFirst
  have : TransCmp table.records.order := horder ▸ transCmp_record order
  rcases hwoven.insert_cases (horder ▸ hsorted) write.record with
    ⟨cursor, other, hinsert, -⟩ | ⟨front, back, _, hold, -, -, -, -, hnew, -⟩
  · left
    rw [hrecords, hinsert]
  · right
    refine ⟨front.filterMap Record.version?, back.filterMap Record.version?, ?_, ?_⟩
    · rw [versionsFrom, ← SkipList.toList, hold, List.filterMap_append]
    · rw [versionsFrom, ← SkipList.toList, hrecords, hnew, List.filterMap_append,
        List.filterMap_cons, Record.version?_record hwrite]

/-- Counters that tell what is stored do so after one more write. -/
theorem tell_add
    (h : Holds order table writes) (hwrite : write.Recordable) (hadd : table.add write = .ok next)
    (htell : table.counters.Tell (table.versionsFrom table.records.first) writes.length) :
    next.counters.Tell (next.versionsFrom next.records.first) (writes ++ [write]).length := by
  obtain ⟨next', hadd', hnext⟩ := h.add hwrite
  obtain rfl := Except.ok.inj (hadd.symm.trans hadd')
  rw [counters_of_add hadd, List.length_append, List.length_singleton]
  rcases h.versionsFrom_first_add_cases hwrite hadd with hsame | ⟨front, back, hold, hnew⟩
  · have hnotMore : ¬ table.records.size < next.records.size := by
      rw [hsame]
      exact Nat.lt_irrefl _
    rw [if_neg hnotMore, versionsFrom, hsame]
    exact htell.recordDuplicate
  · have hmore : table.records.size < next.records.size := by
      have hbefore := h.size_eq
      have hafter := hnext.size_eq
      rw [hold, List.length_append] at hbefore
      rw [hnew, List.length_append, List.length_cons] at hafter
      rw [size] at hbefore hafter
      omega
    rw [if_pos hmore, hnew]
    rw [hold] at htell
    exact (htell.recordAdd write.version).perm List.perm_middle.symm

/-- A write of a version that is there already changes one counter and nothing that is read. -/
theorem add_of_isOf
    (h : Holds order table writes) (hwrite : write.Recordable)
    (hknown : ∃ version ∈ table.versionsFrom table.records.first,
      version.IsOf order.user write) :
    ∃ next, table.add write = .ok next ∧ next.order = table.order ∧
      next.records = table.records ∧ next.counters = table.counters.recordDuplicate := by
  obtain ⟨version, hversion, hsame⟩ := hknown
  obtain ⟨first, hearliest, rfl⟩ := h.mem_versionsFrom_first_iff.mp hversion
  have hfirst := h.recordable first hearliest.mem
  have hequal : Record.compare order first.record write.record = .eq :=
    (Write.compare_record_eq_eq_iff order hfirst hwrite).mpr
      ((Version.isOf_version_iff hfirst).mp hsame)
  obtain ⟨next, hadd, horder, -, hrecords⟩ := add_eq h.sound hwrite
  have hkept := (h.keepsFirst.insert_of_equivalent
    ⟨first.record, List.mem_map_of_mem hearliest.mem, hequal⟩).1
  rw [hkept] at hrecords
  refine ⟨next, hadd, horder, hrecords, ?_⟩
  rw [counters_of_add hadd, hrecords, if_neg (Nat.lt_irrefl _)]

end Holds

/-! ## Runs -/

/-- After any writes that have records, with any heights of towers and blocks of any size, the
counters tell what an iteration gives: the versions of values and of deletions, which together are
all versions, the writes that have stored nothing, and the bytes of the user keys and of the
values.  One more write of a version that is there, whatever its key and value, counts as a
duplicate; it changes no other counter, no record and nothing that can be read. -/
theorem counters_tell_what_is_stored
    (order : InternalOrder) [TransCmp order.user.compare]
    (blockSize : Nat) (hpos : 0 < blockSize) (heights : Nat → Height)
    (writes : List Write) (hwrites : ∀ write ∈ writes, write.Recordable) :
    ∃ table versions,
      (empty order (Arena.ofBlockSize blockSize hpos) heights).addAll writes = .ok table ∧
      table.versions = .ok versions ∧
      table.counters.Tell versions writes.length ∧
      table.size = versions.length ∧
      table.counters.total = table.size.toUInt64 ∧
      (table.isEmpty = true ↔ table.size = 0) ∧
      (writes.length < UInt64.size →
        table.counters.values.toNat =
          versions.countP (fun version => version.key.kind = .value) ∧
        table.counters.tombstones.toNat =
          versions.countP (fun version => version.key.kind = .deletion) ∧
        table.counters.total.toNat = table.size ∧
        table.counters.duplicates.toNat = writes.length - table.size) ∧
      ∀ write : Write, write.Recordable →
        (∃ version ∈ versions, version.IsOf order.user write) →
        ∃ next, table.add write = .ok next ∧
          next.counters =
            { table.counters with duplicates := table.counters.duplicates + 1 } ∧
          next.records = table.records ∧
          (∀ region, table.arena.Lent region →
            next.arena.read region = table.arena.read region) ∧
          table.ReadsAlike next := by
  have hempty := holds_empty order (Arena.sound_ofBlockSize blockSize hpos) heights
  have hnothing : (empty order (Arena.ofBlockSize blockSize hpos) heights).versionsFrom
      (empty order (Arena.ofBlockSize blockSize hpos) heights).records.first = [] := by
    have hsize := hempty.size_eq
    exact List.length_eq_zero_iff.mp hsize.symm
  obtain ⟨table, haddAll, hholds, htell⟩ := hempty.addAll_keeps
    (motive := fun table writes =>
      table.counters.Tell (table.versionsFrom table.records.first) writes.length)
    Holds.tell_add (hnothing ▸ Counters.tell_nothing) writes hwrites
  rw [List.nil_append] at hholds htell
  refine ⟨table, _, haddAll, hholds.versions_eq, htell, hholds.size_eq, ?_, hholds.isEmpty_iff,
    ?_, ?_⟩
  · rw [hholds.size_eq]
    exact htell.total_eq
  · rw [hholds.size_eq]
    exact htell.exact
  · intro write hwrite hknown
    obtain ⟨next, hadd, horder, hrecords, hcounters⟩ := hholds.add_of_isOf hwrite hknown
    refine ⟨next, hadd, hcounters, hrecords, ?_, readsAlike_of_records_eq horder hrecords⟩
    intro region hlent
    exact (lent_of_add hholds.sound hwrite hadd hlent).2

/-- Two deletions of equivalent keys with different lengths, of which only the first is stored with
its payload, and a value under the same number. -/
theorem counters_tell_what_is_stored_payloads :
    ∃ table next,
      (empty ⟨⟨"lead", compareOn fun key => key.headD 0⟩⟩ (Arena.ofBlockSize 64 (by decide))
        (Height.draw 7)).addAll
          [⟨4, .deletion, [107, 1, 2], [50]⟩, ⟨4, .deletion, [107], []⟩,
            ⟨4, .value, [107, 9], [51, 52]⟩] = .ok table ∧
      table.counters = ⟨1, 1, 1, 5, 3⟩ ∧
      table.add ⟨4, .value, [107], [53]⟩ = .ok next ∧
      next.counters = ⟨1, 1, 2, 5, 3⟩ ∧
      next.get [107] 4 = table.get [107] 4 := by
  obtain ⟨table, versions, haddAll, hversions, -, -, -, -, -, hknown⟩ :=
    counters_tell_what_is_stored ⟨⟨"lead", compareOn fun key => key.headD 0⟩⟩ 64 (by decide)
      (Height.draw 7)
      [⟨4, .deletion, [107, 1, 2], [50]⟩, ⟨4, .deletion, [107], []⟩,
        ⟨4, .value, [107, 9], [51, 52]⟩] (by decide)
  have hrun : (do
      let table ← (empty ⟨⟨"lead", compareOn fun key => key.headD 0⟩⟩
        (Arena.ofBlockSize 64 (by decide)) (Height.draw 7)).addAll
          [⟨4, .deletion, [107, 1, 2], [50]⟩, ⟨4, .deletion, [107], []⟩,
            ⟨4, .value, [107, 9], [51, 52]⟩]
      let versions ← table.versions
      return (table.counters, versions.map Version.key)) =
        Except.ok (⟨1, 1, 1, 5, 3⟩, [⟨[107, 9], 4, .value⟩, ⟨[107, 1, 2], 4, .deletion⟩]) := by
    decide +kernel
  rw [haddAll] at hrun
  simp only [bind, Except.bind, hversions] at hrun
  obtain ⟨hcounters, hkeys⟩ := Prod.mk.inj (Except.ok.inj hrun)
  have hstored : (⟨[107, 9], 4, .value⟩ : InternalKey) ∈ versions.map Version.key := by
    rw [hkeys]
    exact List.mem_cons_self
  obtain ⟨version, hversion, hkey⟩ := List.mem_map.mp hstored
  obtain ⟨next, hadd, hnext, -, -, halike⟩ := hknown ⟨4, .value, [107], [53]⟩ (by decide)
    ⟨version, hversion, by rw [Version.IsOf, hkey]; decide⟩
  refine ⟨table, next, haddAll, hcounters, hadd, ?_, halike.get_eq _ _⟩
  rw [hnext, hcounters]
  rfl

end MemTable

end LsmStore
