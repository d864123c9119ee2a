import LsmStore.Block.Walk
import LsmStore.Slots

/-!
# Sessions with a block

A session is a block together with numbered cursors and with the number of entry
headers that its cursors have stepped onto so far.  Each operation has one answer.
-/

namespace LsmStore.Block

/-- A block with live cursors and a count of headers. -/
structure Session where
  block : Block
  cursors : Slots Cursor
  headers : Nat

inductive Operation where
  | summary
  | restartPoint (index : Nat)
  | keyAtRestart (index : Nat)
  | walk
  | probe (targets : List Bytes)
  | first (slot : Nat)
  | atEnd (slot : Nat)
  | lowerBound (slot : Nat) (target : Bytes)
  | find (slot : Nat) (target : Bytes)
  | advance (slot : Nat)
  | look (slot : Nat)
  | key (slot : Nat)
  | value (slot : Nat)
  /-- Copies a cursor with the keys that it remembers. -/
  | copy (source target : Nat)
  /-- Asks whether two cursors have the same offset. -/
  | equal (a b : Nat)
  deriving DecidableEq, Repr

/-- The state of a cursor that can be seen without asking for its key. -/
structure Look where
  isOn : Bool
  offset : Nat
  damage? : Option Corruption
  deriving DecidableEq, Repr

inductive Probe where
  | found (key value : Bytes)
  /-- There is none, or damage hides it. -/
  | missed (damage? : Option Corruption)
  deriving DecidableEq, Repr

inductive Answer where
  /-- The size of the block, the number of its restart points and its text. -/
  | summary (size restarts : Nat) (text : String)
  | offset (offset : Nat)
  | bytes (bytes : Bytes)
  /-- What was asked for is damaged. -/
  | damaged (cause : Corruption)
  /-- What was asked for is not offered. -/
  | refused (fault : Fault)
  | walk (walk : Walk)
  | probes (probes : List Probe)
  | look (look : Look)
  | truth (answer : Bool)
  | done
  deriving DecidableEq, Repr

def look (block : Block) (cursor : Cursor) : Look :=
  ⟨cursor.isOn, block.offsetOf cursor, cursor.damage?⟩

/-- The key and value of the first entry not less than a target, if there is one. -/
def probe (block : Block) (target : Bytes) : Counted Probe := do
  match ← block.lowerBound target with
  | .ended damage => return .missed damage
  | .on position => return .found (← block.keyAt position) position.entry.value

namespace Session

def ofBlock (block : Block) : Session :=
  ⟨block, Slots.fill (.ended none), 0⟩

/-- Puts a cursor that was searched for into a slot, and shows it. -/
def put (session : Session) (slot : Nat) (found : Counted Cursor) : Answer × Session :=
  (.look (session.block.look found.result),
    { session with
      cursors := session.cursors.set slot found.result
      headers := session.headers + found.headers })

def step (session : Session) : Operation → Answer × Session
  | .summary =>
    let block := session.block
    (.summary block.size block.restarts.size block.describe, session)
  | .restartPoint index =>
    match session.block.restartPoint index with
    | .error fault => (.refused fault, session)
    | .ok offset => (.offset offset, session)
  | .keyAtRestart index =>
    match session.block.keyAtRestart index with
    | .error fault => (.refused fault, session)
    | .ok (.error cause) => (.damaged cause, session)
    | .ok (.ok key) => (.bytes key, session)
  | .walk =>
    let walked := session.block.walk
    (.walk walked.result, { session with headers := session.headers + walked.headers })
  | .probe targets =>
    let probed := targets.mapM session.block.probe
    (.probes probed.result, { session with headers := session.headers + probed.headers })
  | .first slot => session.put slot session.block.first
  | .atEnd slot => session.put slot (pure (.ended none))
  | .lowerBound slot target => session.put slot (session.block.lowerBound target)
  | .find slot target => session.put slot (session.block.find target)
  | .advance slot => session.put slot (session.cursors.get slot).advance
  | .look slot => (.look (session.block.look (session.cursors.get slot)), session)
  | .key slot =>
    match session.block.key (session.cursors.get slot) with
    | .error fault => (.refused fault, session)
    | .ok ⟨(key, cursor), headers⟩ =>
      (.bytes key,
        { session with
          cursors := session.cursors.set slot cursor
          headers := session.headers + headers })
  | .value slot =>
    match Block.value (session.cursors.get slot) with
    | .error fault => (.refused fault, session)
    | .ok value => (.bytes value, session)
  | .copy source target =>
    let cursor := session.cursors.get source
    (.done, { session with cursors := session.cursors.set target cursor })
  | .equal a b =>
    let offset slot := session.block.offsetOf (session.cursors.get slot)
    (.truth (offset a == offset b), session)

/-- The answers to operations, each with the headers counted after it. -/
def run (session : Session) : List Operation → List (Answer × Nat)
  | [] => []
  | operation :: operations =>
    let (answer, session) := session.step operation
    (answer, session.headers) :: session.run operations

end Session

end LsmStore.Block
