/-!
# What can go wrong

Four kinds of failure are kept apart.  A `FileProblem` is why a file could not
be read, and a `Corruption` is what is wrong with bytes that came from outside.
A `StoreError` is what an operation answers when it cannot do its work.  A
`Fault` is a broken promise: a caller asked for something that the library does
not offer, or the library found its own state damaged.  Each kind has one
function that words it.
-/

namespace LsmStore

/-- The ways in which a path can fail to lead to a file that can be read. -/
inductive FileProblem where
  | notFound
  | permissionDenied
  /-- The path leads on from something that is not a directory. -/
  | notDirectory
  | isDirectory
  | nameTooLong
  | tooManyLinks
  /-- Any other problem, as it was described. -/
  | other (description : String)
  deriving DecidableEq, Repr

def FileProblem.description : FileProblem → String
  | notFound => "No such file or directory (os error 2)"
  | permissionDenied => "Permission denied (os error 13)"
  | notDirectory => "Not a directory (os error 20)"
  | isDirectory => "Is a directory (os error 21)"
  | nameTooLong => "File name too long (os error 36)"
  | tooManyLinks => "Too many levels of symbolic links (os error 40)"
  | other description => description

/-- The ways in which bytes can fail to be a number, a key, an entry or a block. -/
inductive Corruption where
  | truncatedVar32
  /-- Five bytes of a variable-length number leave it unfinished. -/
  | overlongVar32
  /-- A length prefix asks for more bytes than follow it. -/
  | shortSlice (wanted left : Nat)
  | shortInternalKey (length : Nat)
  | unknownKind (code : Nat)
  | noRestartCount (size : Nat)
  | restartsDoNotFit (count size : Nat)
  /-- A restart point leads to an entry that does not store its whole key. -/
  | sharedRestart (index shared : Nat)
  /-- An entry is looked for behind the entry region. -/
  | offsetPastEntries (offset regionSize : Nat)
  /-- An entry announces more key and value bytes than follow its header. -/
  | entryOverrun (offset claimed left : Nat)
  /-- The restart point at which a search would start lies behind the entries. -/
  | restartPastEntries (index : Nat)
  /-- An entry shares more bytes than the key before it has. -/
  | sharedPastKey (offset shared keyLength : Nat)
  deriving DecidableEq, Repr

def Corruption.detail : Corruption → String
  | truncatedVar32 => "truncated var32"
  | overlongVar32 => "var32 longer than 5 bytes"
  | shortSlice wanted left => s!"length-prefixed slice wants {wanted} bytes, {left} left"
  | shortInternalKey length => s!"internal key of {length} bytes is shorter than its tag"
  | unknownKind code => s!"unknown value type {code}"
  | noRestartCount size => s!"block of {size} bytes has no restart count"
  | restartsDoNotFit count size =>
    s!"{count} restart points do not fit a block of {size} bytes"
  | sharedRestart index shared =>
    s!"restart point {index} shares {shared} bytes with its predecessor"
  | offsetPastEntries offset regionSize =>
    s!"entry offset {offset} is past the entry region ({regionSize} bytes)"
  | entryOverrun offset claimed left =>
    s!"entry at {offset} claims {claimed} bytes, {left} left"
  | restartPastEntries index => s!"restart point {index} is past the entries"
  | sharedPastKey offset shared keyLength =>
    s!"entry at {offset} shares {shared} bytes of a {keyLength}-byte key"

/-- Why an operation did not do its work. -/
inductive StoreError where
  | io (problem : FileProblem)
  | corruption (cause : Corruption)
  /-- The arena blocks of a configuration are smaller than `least` bytes. -/
  | smallArenaBlock (least size : Nat)
  deriving DecidableEq, Repr

def StoreError.message : StoreError → String
  | io problem => s!"I/O error: {problem.description}"
  | corruption cause => s!"Data corruption detected: {cause.detail}"
  | smallArenaBlock least size =>
    s!"Configuration error: arena_block_size must be at least {least} bytes, got {size}"

/-- A broken promise, after which the operation that met it has no answer. -/
inductive Fault where
  | sequenceTooLarge (sequence : Nat)
  | emptyAllocation
  /-- An arena was to be made of blocks without bytes. -/
  | emptyArenaBlock
  /-- A block has no restart point of that index. -/
  | restartOutOfRange (index count : Nat)
  | keyOffEntry
  | valueOffEntry
  | keyTooLong (length : Nat)
  | valueTooLong (length : Nat)
  | unreadableRecord (cause : Corruption)
  deriving DecidableEq, Repr

def Fault.message : Fault → String
  | sequenceTooLarge sequence => s!"sequence number {sequence} exceeds 56 bits"
  | emptyAllocation => "zero-sized arena allocation"
  | emptyArenaBlock => "arena block size must be positive"
  | restartOutOfRange index count =>
    s!"restart index {index} out of range ({count} restarts)"
  | keyOffEntry => "key() on a block cursor that is not valid"
  | valueOffEntry => "value() on a block cursor that is not valid"
  | keyTooLong length => s!"memtable key of {length} bytes does not fit a var32 length"
  | valueTooLong length => s!"memtable value of {length} bytes does not fit a var32 length"
  | unreadableRecord cause =>
    "internal error: entered unreachable code: memtable record written by add() failed to parse: "
      ++ (StoreError.corruption cause).message

end LsmStore
