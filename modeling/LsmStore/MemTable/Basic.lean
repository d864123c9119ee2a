import LsmStore.Arena.Basic
import LsmStore.Config
import LsmStore.MemTable.Counters
import LsmStore.MemTable.Record
import LsmStore.SkipList.Insert

/-!
# Memtables

A memtable takes in writes and keeps every version of every key.  Records lie in
an arena and are ordered by a tower list, user keys first and the versions of a
key from the newest to the oldest.  A read as of a snapshot finds the newest
version that the snapshot can see.  A write of a version that is there already
takes arena space but changes nothing else.
-/

namespace LsmStore

inductive Lookup where
  /-- The newest visible version gives the key this value. -/
  | found (value : Bytes)
  /-- The newest visible version deletes the key. -/
  | deleted
  /-- There is no visible version of the key. -/
  | notFound
  deriving DecidableEq, Repr

/-- An ordered set of records with the arena that they lie in. -/
structure MemTable where
  order : InternalOrder
  records : SkipList Record
  arena : Arena
  counters : Counters

namespace MemTable

/-- A memtable without records whose towers get the given heights. -/
def empty (order : InternalOrder) (arena : Arena) (heights : Nat → Height) : MemTable where
  order := order
  records := SkipList.empty (Record.compare order) heights
  arena := arena
  counters := {}

/-- A memtable of a configuration, which has to be a valid one. -/
def ofConfig (order : InternalOrder) (config : Config) : Except StoreError MemTable :=
  match hvalid : config.validate with
  | .error cause => .error cause
  | .ok () =>
    let arena := Arena.ofBlockSize config.arenaBlockSize (Config.arenaBlockSize_pos hvalid)
    .ok (empty order arena (Height.draw (config.heightSeed.getD 0)))

/-- Takes in a write; one whose version is there already is only counted. -/
def add (table : MemTable) (write : Write) : Except Fault MemTable := do
  let length ← write.recordLength
  let (region, arena) ← table.arena.allocate length
  let key ← InternalKey.make write.key write.sequence write.kind
  let arena := arena.write region (Record.encode key write.value)
  let records := (table.records.insert (Record.ofBytes (arena.read region))).2
  let counters :=
    if table.records.size < records.size then
      table.counters.recordAdd write.kind write.key.length.toUInt64 write.value.length.toUInt64
    else table.counters.recordDuplicate
  return { table with records, arena, counters }

def addAll (table : MemTable) (writes : List Write) : Except Fault MemTable :=
  writes.foldlM add table

/-- The first record not before the newest version of a key that a snapshot sees. -/
def seekCursor (table : MemTable) (userKey : Bytes) (snapshot : Nat) : SkipList.Cursor :=
  table.records.lowerBound
    (Record.ofBytes (LookupKey.ofSnapshot userKey snapshot).memtableKey)

/-- A read of a key as of a snapshot, decided by the newest version that the snapshot sees. -/
def get (table : MemTable) (userKey : Bytes) (snapshot : Nat) : Except Fault Lookup :=
  match table.records.key? (table.seekCursor userKey snapshot) with
  | none => .ok .notFound
  | some record => do
    let version ← Record.version record
    if table.order.user.compare version.key.userKey userKey ≠ .eq then return .notFound
    match version.key.kind with
    | .value => return .found version.value
    | .deletion => return .deleted

/-- The versions from a cursor on, at most `limit` of them. -/
def take (table : MemTable) (limit : Nat) (cursor : SkipList.Cursor) :
    Except Fault (List Version) :=
  (table.records.take limit cursor).mapM Record.version

def versions (table : MemTable) : Except Fault (List Version) :=
  table.records.toList.mapM Record.version

/-- The versions from the newest one of a key that a snapshot sees, to the end. -/
def seek (table : MemTable) (userKey : Bytes) (snapshot : Nat) : Except Fault (List Version) :=
  (table.records.keysFrom (table.seekCursor userKey snapshot)).mapM Record.version

/-- The version at a cursor, if it is not at the end, and the cursor moved on. -/
def next (table : MemTable) (cursor : SkipList.Cursor) :
    Except Fault (Option Version × SkipList.Cursor) := do
  let (record?, cursor) := table.records.next cursor
  let version? ← record?.mapM Record.version
  return (version?, cursor)

def size (table : MemTable) : Nat :=
  table.records.size

def isEmpty (table : MemTable) : Bool :=
  table.records.isEmpty

def memoryUsage (table : MemTable) : Nat :=
  table.arena.memoryUsage

end MemTable

end LsmStore
