import LsmStore.Block.Session

/-!
# A reader that works with indices

Cursors are easiest to understand over the bytes that follow a position.  A reader
of a block in memory has no such bytes at hand: it computes indices in machine words,
cuts slices out of the contents, relies on assertions, and loops until a cursor
ends.  Each of these can go wrong on contents that nobody has checked.  The reader
of this file does exactly that work, so that what goes wrong in it can be seen: a
computation slips, and a loop without end has no result at all.
-/

namespace LsmStore.Block.Indexed

/-! ## Computations that can slip -/

/-- The ways in which a reader can go wrong. -/
inductive Slip where
  /-- A slice does not lie inside the bytes that it is cut out of. -/
  | outside (first last size : Nat)
  /-- A sum or a product does not fit a machine word. -/
  | overflow (wanted : Nat)
  /-- A difference is negative. -/
  | underflow (a b : Nat)
  /-- An assertion does not hold. -/
  | unmet
  /-- A restart point is asked for that the block does not have. -/
  | noRestart (index : Nat)
  /-- A key or a value is asked of a cursor that is at no entry. -/
  | offEntry
  /-- A cursor is moved on to an entry that starts less than three bytes behind its own. -/
  | stalled (before after : Nat)
  /-- A key is rebuilt that takes as many bytes as all entries. -/
  | oversized (length : Nat)
  deriving DecidableEq, Repr

/-- A computation that ends with a result, or slips, or does not end. -/
abbrev Checked := ExceptT Slip Option

/-- Goes on only if a condition holds. -/
def ensure (condition : Prop) [Decidable condition] (slip : Slip) : Checked Unit :=
  if condition then pure () else throw slip

def add (a b : Nat) : Checked Nat := do
  ensure (a + b < UInt64.size) (.overflow (a + b))
  return a + b

def sub (a b : Nat) : Checked Nat := do
  ensure (b ≤ a) (.underflow a b)
  return a - b

def mul (a b : Nat) : Checked Nat := do
  ensure (a * b < UInt64.size) (.overflow (a * b))
  return a * b

def slice (bytes : Bytes) (first last : Nat) : Checked Bytes := do
  ensure (first ≤ last ∧ last ≤ bytes.length) (.outside first last bytes.length)
  return (bytes.drop first).take (last - first)

/-- Reads a variable-length number, and cuts off its bytes. -/
def number (input : Bytes) : Checked (Except Corruption (Nat × Bytes)) :=
  match Var32.decode input with
  | .error cause => return .error cause
  | .ok (value, _) => do
    let rest ← slice input (Var32.span input) input.length
    return .ok (value.toNat, rest)

def word (bytes : Bytes) (index : Nat) : Checked Nat := do
  let source ← slice bytes index bytes.length
  ensure (restartWidth ≤ source.length) .unmet
  return LittleEndian.decode (source.take restartWidth)

/-! ## Headers -/

/-- The lengths of an entry, and where its own key bytes start. -/
structure Header where
  shared : Nat
  unshared : Nat
  valueLength : Nat
  keyStart : Nat
  deriving DecidableEq, Repr

/-- The contents of a block, and what opening it has found out. -/
structure Reader where
  data : Bytes
  /-- Where the entries end and the restart points start. -/
  restartsOffset : Nat
  restartCount : Nat
  order : Comparator

namespace Header

/-- Where the key bytes of an entry end and its value starts. -/
def keyEnd (header : Header) : Checked Nat :=
  add header.keyStart header.unshared

def next (header : Header) : Checked Nat := do
  add (← header.keyEnd) header.valueLength

end Header

namespace Reader

/-- Opens the contents of a block. -/
def ofContents (order : Comparator) (data : Bytes) : Checked (Except Corruption Reader) := do
  if data.length < restartWidth then return .error (.noRestartCount data.length)
  let count ← word data (← sub data.length restartWidth)
  -- The size of the trailer is computed with checks: if it does not fit a word, nothing fits.
  if (count + 1) * restartWidth < UInt64.size ∧ (count + 1) * restartWidth ≤ data.length then
    return .ok ⟨data, ← sub data.length ((count + 1) * restartWidth), count, order⟩
  else return .error (.restartsDoNotFit count data.length)

def restartPoint (reader : Reader) (index : Nat) : Checked Nat := do
  ensure (index < reader.restartCount) (.noRestart index)
  word reader.data (← add reader.restartsOffset (← mul index restartWidth))

def header (reader : Reader) (offset : Nat) : Checked (Except Corruption Header) := do
  if reader.restartsOffset ≤ offset then
    return .error (.offsetPastEntries offset reader.restartsOffset)
  let region ← slice reader.data offset reader.restartsOffset
  match ← number region with
  | .error cause => return .error cause
  | .ok (shared, input) =>
    match ← number input with
    | .error cause => return .error cause
    | .ok (unshared, input) =>
      match ← number input with
      | .error cause => return .error cause
      | .ok (valueLength, input) =>
        let claimed ← add unshared valueLength
        if input.length < claimed then
          return .error (.entryOverrun offset claimed input.length)
        let keyStart ← add offset (← sub region.length input.length)
        return .ok ⟨shared, unshared, valueLength, keyStart⟩

/-- The key bytes of its own that an entry has. -/
def delta (reader : Reader) (header : Header) : Checked Bytes := do
  slice reader.data header.keyStart (← header.keyEnd)

def value (reader : Reader) (header : Header) : Checked Bytes := do
  let start ← header.keyEnd
  slice reader.data start (← add start header.valueLength)

def keyAtRestart (reader : Reader) (index : Nat) : Checked (Except Corruption Bytes) := do
  match ← reader.header (← reader.restartPoint index) with
  | .error cause => return .error cause
  | .ok header =>
    if header.shared ≠ 0 then return .error (.sharedRestart index header.shared)
    return .ok (← reader.delta header)

end Reader

/-! ## Cursors -/

/-- Where the key before an entry is found. -/
inductive Source where
  /-- In the contents, from one index up to another. -/
  | stored (first last : Nat)
  /-- In a copy. -/
  | copied (key : Bytes)
  deriving DecidableEq, Repr

/-- A place to read from; at the end its offset is that of the restart points. -/
structure Cursor where
  offset : Nat
  header : Header
  /-- Where the last entry, up to this one, starts that stores its whole key. -/
  restart : Nat
  /-- The number of bytes of the key of this entry. -/
  keyLength : Nat
  previous? : Option Source
  /-- The key of this entry, if it was rebuilt. -/
  key? : Option Bytes
  damage? : Option Corruption
  deriving DecidableEq, Repr

namespace Reader

def ended (reader : Reader) : Cursor :=
  ⟨reader.restartsOffset, ⟨0, 0, 0, 0⟩, 0, 0, none, none, none⟩

def fail (reader : Reader) (cursor : Cursor) (cause : Corruption) : Cursor :=
  { cursor with offset := reader.restartsOffset, damage? := some cause }

def isOn (reader : Reader) (cursor : Cursor) : Bool :=
  cursor.offset < reader.restartsOffset

def seekEntry (reader : Reader) (cursor : Cursor) (offset : Nat) : Checked Cursor := do
  let cursor := { cursor with key? := none }
  if reader.restartsOffset ≤ offset then
    return { cursor with offset := reader.restartsOffset }
  match ← reader.header offset with
  | .error cause => return reader.fail cursor cause
  | .ok header =>
    if cursor.keyLength < header.shared then
      return reader.fail cursor (.sharedPastKey offset header.shared cursor.keyLength)
    let keyLength ← add header.shared header.unshared
    return { cursor with
      offset := offset
      header := header
      keyLength := keyLength
      restart := if header.shared = 0 then offset else cursor.restart }

/-- The cursor on the entry at an offset, which has to store its whole key. -/
def startAt (reader : Reader) (offset : Nat) : Checked Cursor :=
  reader.seekEntry { reader.ended with restart := offset } offset

def first (reader : Reader) : Checked Cursor :=
  if reader.restartsOffset = 0 then pure reader.ended else reader.startAt 0

def resolve (reader : Reader) : Source → Checked Bytes
  | .stored first last => slice reader.data first last
  | .copied key => pure key

/-- What a cursor carries along of its key, if it knows it, when it is moved on. -/
def carried (cursor : Cursor) : Checked (Option Source) :=
  if cursor.header.shared = 0 then do
    return some (.stored cursor.header.keyStart (← cursor.header.keyEnd))
  else return cursor.key?.map .copied

def advance (reader : Reader) (cursor : Cursor) : Checked Cursor := do
  if reader.isOn cursor = false then return cursor
  let previous? ← carried cursor
  let next ← reader.seekEntry { cursor with previous? := previous? } (← cursor.header.next)
  ensure (reader.isOn next = true → cursor.offset + 3 ≤ next.offset)
    (.stalled cursor.offset next.offset)
  return next

mutual

/-- The key at a cursor, and the cursor that remembers it. -/
def key (reader : Reader) (cursor : Cursor) : Checked (Bytes × Cursor) := do
  ensure (reader.isOn cursor = true) .offEntry
  if cursor.header.shared = 0 then return (← reader.delta cursor.header, cursor)
  match cursor.key? with
  | some key => return (key, cursor)
  | none =>
    let key ← reader |>.rebuild cursor
    ensure (key.length < reader.restartsOffset) (.oversized key.length)
    return (key, { cursor with key? := some key })
partial_fixpoint

def rebuild (reader : Reader) (cursor : Cursor) : Checked Bytes := do
  let previous ← reader |>.previousKey cursor
  ensure (cursor.header.shared ≤ previous.length) .unmet
  let delta ← reader.delta cursor.header
  let _ ← add cursor.header.shared delta.length
  return (← slice previous 0 cursor.header.shared) ++ delta
partial_fixpoint

/-- The key before the entry of a cursor. -/
def previousKey (reader : Reader) (cursor : Cursor) : Checked Bytes :=
  match cursor.previous? with
  | some source => reader.resolve source
  | none => reader |>.replay cursor
partial_fixpoint

/-- Finds the key before an entry, from the last entry on that stores its whole key. -/
def replay (reader : Reader) (cursor : Cursor) : Checked Bytes := do
  let (previous, landed) ← reader |>.retrace cursor.offset [] (← reader.startAt cursor.restart)
  ensure (landed.offset = cursor.offset) .unmet
  return previous
partial_fixpoint

/-- Follows the entries up to an offset, and keeps the key of the last one before it. -/
def retrace (reader : Reader) (target : Nat) (previous : Bytes) (cursor : Cursor) :
    Checked (Bytes × Cursor) := do
  if reader.isOn cursor = true ∧ cursor.offset < target then
    let (key, cursor) ← reader |>.key cursor
    reader |>.retrace target key (← reader.advance cursor)
  else return (previous, cursor)
partial_fixpoint

end

/-! ## Searches and walks -/

/-- Bisects the restart points from `left` up to, not including, `right`. -/
def bisect (reader : Reader) (target : Bytes) (left right : Nat) :
    Checked (Except Corruption Nat) := do
  if 1 < (← sub right left) then
    let middle ← add left ((← sub right left) / 2)
    match ← reader.keyAtRestart middle with
    | .error cause => return .error cause
    | .ok key =>
      if reader.order.compare key target = .gt then reader |>.bisect target left middle
      else reader |>.bisect target middle right
  else return .ok left
partial_fixpoint

/-- Walks to the first entry whose key is not less than a target. -/
def scan (reader : Reader) (target : Bytes) (cursor : Cursor) : Checked Cursor := do
  if reader.isOn cursor = false then return cursor
  let (key, cursor) ← reader.key cursor
  if reader.order.compare key target = .lt then
    reader |>.scan target (← reader.advance cursor)
  else return cursor
partial_fixpoint

/-- The cursor on the first entry whose key is not less than a target. -/
def lowerBound (reader : Reader) (target : Bytes) : Checked Cursor := do
  if reader.restartCount = 0 ∨ reader.restartsOffset = 0 then return reader.ended
  match ← reader.bisect target 0 reader.restartCount with
  | .error cause => return reader.fail reader.ended cause
  | .ok index =>
    let start ← reader.restartPoint index
    if reader.restartsOffset ≤ start then
      return reader.fail reader.ended (.restartPastEntries index)
    reader.scan target (← reader.startAt start)

def find (reader : Reader) (target : Bytes) : Checked Cursor := do
  let cursor ← reader.lowerBound target
  if reader.isOn cursor = false then return cursor
  let (key, cursor) ← reader.key cursor
  if reader.order.compare key target = .eq then return cursor else return reader.ended

def walkFrom (reader : Reader) (cursor : Cursor) : Checked Walk := do
  if reader.isOn cursor = false then return ⟨[], cursor.damage?⟩
  let (key, cursor) ← reader.key cursor
  let value ← reader.value cursor.header
  let walk ← reader |>.walkFrom (← reader.advance cursor)
  return { walk with visits := ⟨cursor.offset, key, value⟩ :: walk.visits }
partial_fixpoint

def look (reader : Reader) (cursor : Cursor) : Look :=
  ⟨reader.isOn cursor, cursor.offset, cursor.damage?⟩

/-- The key and value of the first entry not less than a target, if there is one. -/
def probe (reader : Reader) (target : Bytes) : Checked Probe := do
  let cursor ← reader.lowerBound target
  if reader.isOn cursor = false then return .missed cursor.damage?
  let (key, cursor) ← reader.key cursor
  return .found key (← reader.value cursor.header)

def describe (reader : Reader) : String :=
  "Block \x7b " ++
    s!"size: {reader.data.length}, num_restarts: {reader.restartCount}, comparator: " ++
    String.ofList (Text.quote reader.order.name.toList) ++ " \x7d"

end Reader

/-! ## Sessions -/

/-- A reader with live cursors. -/
structure Session where
  reader : Reader
  cursors : Slots Cursor

namespace Session

def ofReader (reader : Reader) : Session :=
  ⟨reader, Slots.fill reader.ended⟩

/-- Puts a cursor into a slot, and shows it. -/
def put (session : Session) (slot : Nat) (cursor : Cursor) : Answer × Session :=
  (.look (session.reader.look cursor),
    { session with cursors := session.cursors.set slot cursor })

/-- One operation: its answer and the session after it. -/
def step (session : Session) : Operation → Checked (Answer × Session)
  | .summary =>
    let reader := session.reader
    return (.summary reader.data.length reader.restartCount reader.describe, session)
  | .restartPoint index => do
    if index < session.reader.restartCount then
      return (.offset (← session.reader.restartPoint index), session)
    else return (.refused (.restartOutOfRange index session.reader.restartCount), session)
  | .keyAtRestart index => do
    if index < session.reader.restartCount then
      match ← session.reader.keyAtRestart index with
      | .error cause => return (.damaged cause, session)
      | .ok key => return (.bytes key, session)
    else return (.refused (.restartOutOfRange index session.reader.restartCount), session)
  | .walk => return (.walk (← session.reader.walkFrom (← session.reader.first)), session)
  | .probe targets => return (.probes (← targets.mapM session.reader.probe), session)
  | .first slot => return session.put slot (← session.reader.first)
  | .atEnd slot => return session.put slot session.reader.ended
  | .lowerBound slot target => return session.put slot (← session.reader.lowerBound target)
  | .find slot target => return session.put slot (← session.reader.find target)
  | .advance slot =>
    return session.put slot (← session.reader.advance (session.cursors.get slot))
  | .look slot => return (.look (session.reader.look (session.cursors.get slot)), session)
  | .key slot => do
    let cursor := session.cursors.get slot
    if session.reader.isOn cursor = true then
      let (key, cursor) ← session.reader.key cursor
      return (.bytes key, { session with cursors := session.cursors.set slot cursor })
    else return (.refused .keyOffEntry, session)
  | .value slot => do
    let cursor := session.cursors.get slot
    if session.reader.isOn cursor = true then
      return (.bytes (← session.reader.value cursor.header), session)
    else return (.refused .valueOffEntry, session)
  | .copy source target =>
    let cursor := session.cursors.get source
    return (.done, { session with cursors := session.cursors.set target cursor })
  | .equal a b =>
    let offset slot := (session.cursors.get slot).offset
    return (.truth (offset a == offset b), session)

/-- The answers to operations, and the session after them. -/
def run (session : Session) : List Operation → Checked (List Answer × Session)
  | [] => return ([], session)
  | operation :: operations => do
    let (answer, session) ← session.step operation
    let (answers, session) ← session.run operations
    return (answer :: answers, session)

end Session

end LsmStore.Block.Indexed
