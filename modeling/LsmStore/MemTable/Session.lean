import LsmStore.MemTable.Basic
import LsmStore.Slots

/-!
# Sessions with a memtable

A session is a memtable together with numbered iterators that stay alive while
writes come in.  Each operation has one answer, until one meets a fault.
-/

namespace LsmStore.MemTable

/-- A memtable with live iterators. -/
structure Session where
  table : MemTable
  iterators : Slots SkipList.Cursor
  /-- Whether the writer is still there; without it, the arena is out of sight. -/
  writable : Bool

inductive Operation where
  | add (write : Write)
  | get (userKey : Bytes) (snapshot : Nat)
  | versions
  /-- Lists versions from a key as of a snapshot, at most `limit` of them. -/
  | seek (userKey : Bytes) (snapshot limit : Nat)
  | openFirst (slot : Nat)
  | openAt (slot : Nat) (userKey : Bytes) (snapshot : Nat)
  | next (slot : Nat)
  | summary
  | counters
  /-- Lets the writer go; reads go on. -/
  | dropWriter
  deriving DecidableEq, Repr

inductive Answer where
  /-- The number of versions and the bytes of the arena after a write. -/
  | added (size memoryUsage : Nat)
  | lookup (result : Lookup)
  | versions (versions : List Version)
  | version (version : Option Version)
  /-- The number of versions, whether it is none, the bytes of the arena, the name of the order. -/
  | summary (size : Nat) (empty : Bool) (memoryUsage : Option Nat) (userOrder : String)
  | counters (counters : Counters)
  | done
  deriving DecidableEq, Repr

namespace Session

def ofTable (table : MemTable) : Session :=
  ⟨table, Slots.fill SkipList.Cursor.atEnd, true⟩

def step (session : Session) : Operation → Except Fault (Answer × Session)
  | .add write => do
    let table ← session.table.add write
    return (.added table.size table.memoryUsage, { session with table })
  | .get userKey snapshot => do
    return (.lookup (← session.table.get userKey snapshot), session)
  | .versions => do
    return (.versions (← session.table.versions), session)
  | .seek userKey snapshot limit => do
    let cursor := session.table.seekCursor userKey snapshot
    return (.versions (← session.table.take limit cursor), session)
  | .openFirst slot =>
    let cursor := session.table.records.first
    .ok (.done, { session with iterators := session.iterators.set slot cursor })
  | .openAt slot userKey snapshot =>
    let cursor := session.table.seekCursor userKey snapshot
    .ok (.done, { session with iterators := session.iterators.set slot cursor })
  | .next slot => do
    let (version?, cursor) ← session.table.next (session.iterators.get slot)
    return (.version version?, { session with iterators := session.iterators.set slot cursor })
  | .summary =>
    let table := session.table
    let memoryUsage := if session.writable then some table.memoryUsage else none
    .ok (.summary table.size table.isEmpty memoryUsage table.order.user.name, session)
  | .counters => .ok (.counters session.table.counters, session)
  | .dropWriter => .ok (.done, { session with writable := false })

/-- The answers to operations, one after the other, and the fault that stopped them. -/
def run (session : Session) : List Operation → List Answer × Option Fault
  | [] => ([], none)
  | operation :: operations =>
    match session.step operation with
    | .error fault => ([], some fault)
    | .ok (answer, session) =>
      let (answers, fault?) := session.run operations
      (answer :: answers, fault?)

end Session

end LsmStore.MemTable
