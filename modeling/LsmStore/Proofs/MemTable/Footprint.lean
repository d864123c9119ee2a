import LsmStore.Proofs.Arena.Waste
import LsmStore.Proofs.MemTable.Records

/-!
# The footprint of a memtable

A memtable is a client of its arena: for each write, also for one of a version that is there
already, it asks for a region of the length of the record and writes the record into it.  So
the bounds for what any client wastes are bounds for the memory of a memtable, in terms of the
records that it was given.
-/

namespace LsmStore.MemTable

open Arena (WasteBounded)
open Arena.Client (Request)

/-- The length of the record of a write. -/
def recordSize (write : Write) : Nat :=
  (Record.encode write.internalKey write.value).length

/-- What a memtable asks of its arena for some writes, if it has asked for `index` regions
before. -/
def requestsFrom : Nat → List Write → List Request
  | _, [] => []
  | index, write :: writes =>
    .allocate (recordSize write) ::
      .write index (Record.encode write.internalKey write.value) ::
      requestsFrom (index + 1) writes

theorem filterMap_size?_requestsFrom
    (index : Nat) (writes : List Write) :
    (requestsFrom index writes).filterMap Request.size? = writes.map recordSize := by
  induction writes generalizing index with
  | nil => rfl
  | cons write writes ih =>
    rw [requestsFrom, List.filterMap_cons_some (show Request.size? _ = some _ from rfl),
      List.filterMap_cons_none (show Request.size? _ = none from rfl), ih, List.map_cons]

theorem recordSize_pos
    {write : Write} (h : write.Recordable) :
    0 < recordSize write := by
  obtain ⟨length, hlength, hpos⟩ := Write.exists_recordLength h
  rw [recordSize, Record.length_encode rfl hlength]
  exact hpos

theorem exists_client_of_addAll
    {table : MemTable} {client : Arena.Client} (harena : client.arena = table.arena)
    (hsound : table.arena.Sound) (writes : List Write)
    (hwrites : ∀ write ∈ writes, write.Recordable) :
    ∃ final served, table.addAll writes = .ok final ∧
      client.serveAll (requestsFrom client.regions.size writes) = .ok served ∧
      served.arena = final.arena := by
  induction writes generalizing table client with
  | nil => exact ⟨table, client, rfl, rfl, harena⟩
  | cons write writes ih =>
    obtain ⟨hwrite, hothers⟩ := List.forall_mem_cons.mp hwrites
    obtain ⟨region, reserved, next, -, hallocate, hrecord, hreserved, -, hadd, -, hnext, -⟩ :=
      exists_region_of_add hsound hwrite
    let record := Record.encode write.internalKey write.value
    let filled : Arena.Client := ⟨reserved.write region record, client.regions.push region⟩
    have hfilled : client.serveAll [.allocate region.length, .write client.regions.size record] =
        .ok filled := by
      simp [Arena.Client.serveAll, Arena.Client.serve, Arena.Client.allocate,
        Arena.Client.write, harena, hallocate, bind, Except.bind, pure, Except.pure, filled]
    have hsize : filled.regions.size = client.regions.size + 1 := Array.size_push region
    obtain ⟨final, served, haddAll, hserved, hsame⟩ :=
      ih (show filled.arena = next.arena from hnext.symm)
        (hnext ▸ hreserved.write region record) hothers
    refine ⟨final, served, ?_, ?_, hsame⟩
    · rw [addAll, List.foldlM_cons, hadd]
      exact haddAll
    · have hrequests : requestsFrom client.regions.size (write :: writes) =
          [.allocate region.length, .write client.regions.size record] ++
            requestsFrom filled.regions.size writes := by
        rw [requestsFrom, recordSize, hrecord, hsize]
        rfl
      rw [hrequests, Arena.Client.serveAll, List.foldlM_append, ← Arena.Client.serveAll, hfilled]
      exact hserved

/-- Whatever a client of an arena asks for and writes, as long as it does not ask for empty
regions: the arena has obtained the blocks that its log tells of.  What is neither handed out nor
unused was given up, with each current block but the last less than a quarter of a block; so
the memory is at least what was asked for, and three quarters of it, not counting one block, are at
most that.  A memtable of any order, with towers of any heights, is such a client for each of its
writes, and the bounds hold for its memory and the lengths of the records that it was given. -/
theorem memory_is_bounded_by_requests
    (blockSize : Nat) (hpos : 0 < blockSize) :
    let start := Arena.Client.ofArena (Arena.ofBlockSize blockSize hpos)
    (∀ requests : List Request, (∀ size ∈ requests.filterMap Request.size?, 0 < size) →
      ∃ client, start.serveAll requests = .ok client ∧
        client.arena.blockSizes = ((start.log requests).flatMap fun served =>
          served.2.obtains blockSize served.1) ∧
        WasteBounded blockSize client.arena.memoryUsage
          (requests.filterMap Request.size?).sum client.arena.spare.length
          (start.renewals requests)) ∧
    ∀ (order : InternalOrder) (heights : Nat → Height) (writes : List Write),
      (∀ write ∈ writes, write.Recordable) →
      ∃ table client,
        (empty order (Arena.ofBlockSize blockSize hpos) heights).addAll writes = .ok table ∧
        start.serveAll (requestsFrom 0 writes) = .ok client ∧ client.arena = table.arena ∧
        WasteBounded blockSize table.memoryUsage (writes.map recordSize).sum
          table.arena.spare.length (start.renewals (requestsFrom 0 writes)) := by
  intro start
  constructor
  · exact Arena.Client.exists_wasteBounded blockSize hpos
  · intro order heights writes hwrites
    have hsound := Arena.sound_ofBlockSize blockSize hpos
    have hstart : start.arena =
        (empty order (Arena.ofBlockSize blockSize hpos) heights).arena := rfl
    obtain ⟨table, client, haddAll, hserved, harena⟩ :=
      exists_client_of_addAll hstart hsound writes hwrites
    have hsizes : ∀ size ∈ (requestsFrom 0 writes).filterMap Request.size?, 0 < size := by
      intro size hsize
      rw [filterMap_size?_requestsFrom] at hsize
      obtain ⟨write, hwrite, rfl⟩ := List.mem_map.mp hsize
      exact recordSize_pos (hwrites write hwrite)
    obtain ⟨client', hserved', -, hbounded⟩ :=
      Arena.Client.exists_wasteBounded blockSize hpos (requestsFrom 0 writes) hsizes
    obtain rfl := Except.ok.inj (hserved.symm.trans hserved')
    rw [filterMap_size?_requestsFrom, harena] at hbounded
    exact ⟨table, client, haddAll, hserved, harena, hbounded⟩

/-- Regions of which the third gets a block of its own and the last a new current block, so that
one byte is given up, and a record that is stored once but takes memory twice. -/
theorem memory_is_bounded_by_requests_repeated :
    let requests : List Request := [.allocate 3, .allocate 10, .write 1 [7, 7], .allocate 5,
      .allocate 2, .allocate 4]
    let writes : List Write := [⟨5, .value, [107], [49]⟩, ⟨5, .value, [107], [50]⟩,
      ⟨6, .value, [107], List.replicate 30 51⟩]
    (∃ client, (Arena.Client.ofArena (Arena.ofBlockSize 16 (by decide))).serveAll requests =
        .ok client ∧
      client.arena.blockSizes = [16, 5, 16] ∧
      WasteBounded 16 client.arena.memoryUsage 24 client.arena.spare.length 2) ∧
    ∃ table, (empty InternalOrder.bytewise (Arena.ofBlockSize 64 (by decide))
        (Height.draw 0)).addAll writes = .ok table ∧
      WasteBounded 64 table.memoryUsage 65 table.arena.spare.length 1 := by
  intro requests writes
  constructor
  · obtain ⟨client, hserved, hblocks, hbounded⟩ :=
      (memory_is_bounded_by_requests 16 (by decide)).1 requests (by decide)
    refine ⟨client, hserved, hblocks.trans ?_, ?_⟩
    · rfl
    · have hcount : (Arena.Client.ofArena (Arena.ofBlockSize 16 (by decide))).renewals requests =
          2 := rfl
      rwa [hcount] at hbounded
  · obtain ⟨table, client, haddAll, -, -, hbounded⟩ :=
      (memory_is_bounded_by_requests 64 (by decide)).2 InternalOrder.bytewise (Height.draw 0) writes
        (by decide)
    refine ⟨table, haddAll, ?_⟩
    have hcount : (Arena.Client.ofArena (Arena.ofBlockSize 64 (by decide))).renewals
        (requestsFrom 0 writes) = 1 := by decide +kernel
    have hsizes : (writes.map recordSize).sum = 65 := by decide +kernel
    rwa [hcount, hsizes] at hbounded

end LsmStore.MemTable
