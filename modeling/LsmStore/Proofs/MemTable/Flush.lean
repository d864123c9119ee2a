import LsmStore.Proofs.Block.LinearScan
import LsmStore.Proofs.MemTable.Versions

/-!
# Flushed memtables

The versions of a memtable, in their order, are pairs of an internal key and a value.
However these are laid out as a block, a search of the block for a lookup key comes to
the versions that the memtable lists from there.  So a read that decides by the first
of them answers what the memtable answers.
-/

namespace LsmStore

open Std

/-- The pair under which a version is stored in a block. -/
def Version.pair (version : Version) : Bytes × Bytes :=
  (version.stored, version.value)

/-- What a read of a key decides by the first version that is not before its lookup key: the
version has to be one of an equivalent key, and then its kind counts. -/
def Lookup.ofFirst (user : Comparator) (userKey : Bytes) : Option Version → Lookup
  | none => .notFound
  | some version =>
    if user.compare version.key.userKey userKey = .eq then
      match version.key.kind with
      | .value => .found version.value
      | .deletion => .deleted
    else .notFound

/-- What a read of a key decides at a cursor of a block whose keys are internal keys. -/
def Block.lookupAt
    (block : Block) (user : Comparator) (userKey : Bytes) :
    Block.Cursor → Except Corruption Lookup
  | .ended none => .ok .notFound
  | .ended (some cause) => .error cause
  | .on position => do
    let stored := (block.keyAt position).result
    let key ← InternalKey.decode stored
    return Lookup.ofFirst user userKey (some ⟨stored, key, position.entry.value⟩)

/-- At the front of an undamaged walk over versions, the first of them decides. -/
theorem Block.Cursor.Shows.lookupAt_eq
    {block : Block} {cursor : Block.Cursor} {visits : List Block.Visit}
    (h : cursor.Shows block ⟨visits, none⟩) {versions : List Version}
    (hpairs : visits.map (fun visit => (visit.key, visit.value)) = versions.map Version.pair)
    (hdecode : ∀ version ∈ versions, InternalKey.decode version.stored = .ok version.key)
    (user : Comparator) (userKey : Bytes) :
    block.lookupAt user userKey cursor = .ok (Lookup.ofFirst user userKey versions.head?) := by
  cases visits with
  | nil =>
    have hnone : versions = [] := by simpa using hpairs.symm
    rw [h.eq_ended, hnone]
    rfl
  | cons visit visits =>
    obtain ⟨position, previous, rfl, hfollows, rfl, -⟩ := h.exists_on
    cases versions with
    | nil => cases hpairs
    | cons version versions =>
      obtain ⟨hkey, hvalue⟩ := Prod.mk.inj (List.cons.inj hpairs).1
      have hstored : (block.keyAt position).result = version.stored := hfollows.keyAt_eq.trans hkey
      have hvalue' : position.entry.value = version.value := hvalue
      have hversion := hdecode version List.mem_cons_self
      simp only [lookupAt, hstored, hvalue', hversion, bind, Except.bind]
      rfl

namespace MemTable

variable {order : InternalOrder} {table : MemTable} {writes : List Write}
  {cursor : SkipList.Cursor}

namespace Holds

theorem exists_write_of_versionsFrom
    (h : Holds order table writes) (hcursor : cursor.Within table.records) :
    ∀ version ∈ table.versionsFrom cursor, ∃ write : Write, version = write.version := by
  intro version hversion
  obtain ⟨record, hrecord, hread⟩ := List.mem_filterMap.mp hversion
  obtain ⟨write, hwrite, rfl⟩ := h.exists_write_of_keysFrom hcursor record hrecord
  rw [Record.version?_record hwrite] at hread
  exact ⟨write, (Option.some.inj hread).symm⟩

theorem decode_stored
    (h : Holds order table writes) (hcursor : cursor.Within table.records) :
    ∀ version ∈ table.versionsFrom cursor,
      InternalKey.decode version.stored = .ok version.key := by
  intro version hversion
  obtain ⟨write, rfl⟩ := h.exists_write_of_versionsFrom hcursor version hversion
  exact InternalKey.decode_encode write.internalKey

theorem get_eq_ofFirst
    (h : Holds order table writes) (userKey : Bytes) (snapshot : Nat) :
    table.get userKey snapshot =
      .ok (Lookup.ofFirst order.user userKey
        (table.versionsFrom (table.seekCursor userKey snapshot)).head?) := by
  obtain ⟨elements, hwoven⟩ := h.keepsFirst.woven
  have hcursor := h.seekCursor_within userKey snapshot
  have hrecords := h.exists_write_of_keysFrom hcursor
  rw [get, hwoven.key?_eq_head? hcursor, h.order_eq, versionsFrom]
  cases hahead : table.records.keysFrom (table.seekCursor userKey snapshot) with
  | nil => rfl
  | cons record records =>
    obtain ⟨write, hwrite, rfl⟩ := hrecords record (by simp [hahead])
    rw [List.filterMap_cons, Record.version?_record hwrite]
    exact answerOf_record order userKey hwrite

theorem versions_increasing
    [TransCmp order.user.compare] (h : Holds order table writes) :
    ((table.versionsFrom table.records.first).map Version.pair).Pairwise fun first second =>
      order.toComparator.compare first.1 second.1 = .lt := by
  rw [List.pairwise_map]
  refine h.pairwise_versionsFrom_first ?_
  intro write other hwrite hother hless
  rw [Record.compare_eq, Write.record, Write.record, Record.ofBytes, Record.ofBytes,
    Write.internalKey_record hwrite, Write.internalKey_record hother] at hless
  exact hless

/-- In a layout of the versions, the visits that are not before a lookup key are the versions
from the cursor of its search on. -/
theorem map_dropWhile_visits
    [TransCmp order.user.compare] (h : Holds order table writes) {layout : Block.Layout}
    (hpairs : layout.pairs = (table.versionsFrom table.records.first).map Version.pair)
    {userKey : Bytes} (hkey : InternalKey.encodedLength userKey.length < UInt32.size)
    (snapshot : Nat) :
    let start := LookupKey.ofSnapshot userKey snapshot
    (layout.visits.dropWhile fun visit =>
        order.toComparator.compare visit.key start.internalKey == .lt).map
      (fun visit => (visit.key, visit.value)) =
    (table.versionsFrom (table.seekCursor userKey snapshot)).map Version.pair := by
  intro start
  let before : Bytes × Bytes → Bool := fun pair =>
    order.toComparator.compare pair.1 start.internalKey == .lt
  calc
    _ = (layout.visits.map fun visit => (visit.key, visit.value)).dropWhile before :=
      List.dropWhile_map.symm
    _ = ((table.versionsFrom table.records.first).map Version.pair).dropWhile before := by
      rw [Block.Layout.visits, layout.stores.map_visitsFrom, hpairs]
    _ = ((table.versionsFrom table.records.first).dropWhile
          (Version.isBefore order start)).map Version.pair := List.dropWhile_map
    _ = _ := by rw [h.versionsFrom_seekCursor hkey]

end Holds

/-- However the versions of a memtable are laid out as a block, the block is opened and reads
the same: from the cursor of a search for a lookup key the block is walked, without damage,
through the versions that the memtable lists from there, and what is decided at the cursor is
what the memtable answers. -/
theorem flushed_block_reads_alike
    (order : InternalOrder) [TransCmp order.user.compare]
    (blockSize : Nat) (hpos : 0 < blockSize) (heights : Nat → Height)
    (writes : List Write) (hwrites : ∀ write ∈ writes, write.Recordable) :
    ∃ table versions,
      (empty order (Arena.ofBlockSize blockSize hpos) heights).addAll writes = .ok table ∧
      table.versions = .ok versions ∧
      ∀ layout : Block.Layout, layout.pairs = versions.map Version.pair →
        layout.restarts.Pairwise (· < ·) →
        (layout.entries ≠ [] → layout.restarts.head? = some 0) →
        ∃ block, Block.ofContents order.toComparator layout.bytes = .ok block ∧
          ∀ userKey : Bytes, InternalKey.encodedLength userKey.length < UInt32.size →
            ∀ snapshot : Nat,
              let start := LookupKey.ofSnapshot userKey snapshot
              let cursor := (block.lowerBound start.internalKey).result
              ∃ found visits result,
                table.seek userKey snapshot = .ok found ∧
                (block.walkFrom cursor).result = ⟨visits, none⟩ ∧
                visits.map (fun visit => (visit.key, visit.value)) = found.map Version.pair ∧
                table.get userKey snapshot = .ok result ∧
                block.lookupAt order.user userKey cursor = .ok result := by
  have hempty := holds_empty order (Arena.sound_ofBlockSize blockSize hpos) heights
  obtain ⟨table, haddAll, hholds⟩ := hempty.addAll writes hwrites
  refine ⟨table, _, haddAll, hholds.versions_eq, ?_⟩
  intro layout hpairs hrestarts hhead
  have hincreasing := hholds.versions_increasing
  rw [← hpairs] at hincreasing
  have hsorted : layout.Sorted order.toComparator := ⟨hincreasing, hrestarts, hhead⟩
  refine ⟨layout.block order.toComparator, layout.ofContents_eq order.toComparator, ?_⟩
  intro userKey hkey snapshot start cursor
  have hshows := (hsorted.searches_show start.internalKey).1
  have hvisits := hholds.map_dropWhile_visits hpairs hkey snapshot
  have hdecode := hholds.decode_stored (hholds.seekCursor_within userKey snapshot)
  exact ⟨_, _, _, hholds.seek_eq userKey snapshot, hshows.walkFrom_eq, hvisits,
    hholds.get_eq_ofFirst userKey snapshot, hshows.lookupAt_eq hvisits hdecode order.user userKey⟩

/-- Three writes to equivalent keys, with their numbers out of order, and one to another key. -/
def overwrites : List Write :=
  [⟨5, .value, [107], [49]⟩, ⟨9, .deletion, [75], []⟩, ⟨7, .value, [107], [50]⟩,
    ⟨3, .value, [108], [51]⟩]

/-- The versions of these writes in a block, of which the second is a restart point and the third
shares a byte of its tag with it. -/
def splitVersions : Block.Layout where
  pairs := [([75, 0, 9, 0, 0, 0, 0, 0, 0], []), ([107, 1, 7, 0, 0, 0, 0, 0, 0], [50]),
    ([107, 1, 5, 0, 0, 0, 0, 0, 0], [49]), ([108, 1, 3, 0, 0, 0, 0, 0, 0], [51])]
  entries := [⟨0, [75, 0, 9, 0, 0, 0, 0, 0, 0], []⟩, ⟨0, [107, 1, 7, 0, 0, 0, 0, 0, 0], [50]⟩,
    ⟨2, [5, 0, 0, 0, 0, 0, 0], [49]⟩, ⟨0, [108, 1, 3, 0, 0, 0, 0, 0, 0], [51]⟩]
  restarts := [0, 12, 36]
  stores := .cons (by decide) (.cons (by decide) (.cons (by decide) (.cons (by decide) (.nil _))))
  restarts_whole := by
    intro offset hoffset
    simp only [List.mem_cons, List.not_mem_nil, or_false] at hoffset
    rcases hoffset with rfl | rfl | rfl
    · exact ⟨[], _, _, rfl, rfl, rfl⟩
    · exact ⟨[_], _, _, rfl, rfl, by decide +kernel⟩
    · exact ⟨[_, _, _], _, _, rfl, rfl, by decide +kernel⟩
  fits := by decide +kernel

theorem flushed_block_reads_alike_splitVersions :
    ∃ table block,
      (empty ⟨⟨"caseless", Bytes.compareCaseless⟩⟩ (Arena.ofBlockSize 64 (by decide))
        (Height.draw 7)).addAll overwrites = .ok table ∧
      Block.ofContents (Comparator.internal ⟨"caseless", Bytes.compareCaseless⟩)
        splitVersions.bytes = .ok block ∧
      table.get [75] 8 = .ok (.found [50]) ∧
      block.lookupAt ⟨"caseless", Bytes.compareCaseless⟩ [75]
        (block.lowerBound (LookupKey.ofSnapshot [75] 8).internalKey).result =
          .ok (.found [50]) := by
  obtain ⟨table, versions, haddAll, hversions, hflush⟩ :=
    @flushed_block_reads_alike ⟨⟨"caseless", Bytes.compareCaseless⟩⟩ transCmp_caseless 64
      (by decide) (Height.draw 7) overwrites (by decide)
  have hlisted : (do
      let table ← (empty ⟨⟨"caseless", Bytes.compareCaseless⟩⟩
        (Arena.ofBlockSize 64 (by decide)) (Height.draw 7)).addAll overwrites
      let versions ← table.versions
      return versions.map Version.pair) = Except.ok splitVersions.pairs := by
    decide +kernel
  have hread : (do
      let table ← (empty ⟨⟨"caseless", Bytes.compareCaseless⟩⟩
        (Arena.ofBlockSize 64 (by decide)) (Height.draw 7)).addAll overwrites
      table.get [75] 8) = Except.ok (.found [50]) := by
    decide +kernel
  rw [haddAll] at hlisted hread
  simp only [bind, Except.bind, hversions] at hlisted
  have hpairs : splitVersions.pairs = versions.map Version.pair := (Except.ok.inj hlisted).symm
  obtain ⟨block, hblock, hreads⟩ := hflush splitVersions hpairs (by decide) fun _ => rfl
  obtain ⟨found, visits, result, -, -, -, hget, hlookup⟩ := hreads [75] (by decide) 8
  have hresult : result = .found [50] := Except.ok.inj (hget.symm.trans hread)
  rw [hresult] at hget hlookup
  exact ⟨table, block, haddAll, hblock, hget, hlookup⟩

end MemTable

end LsmStore
