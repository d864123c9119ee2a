import LsmStore.Block.Walk
import LsmStore.FileTree

/-!
# The block inspector

The inspector prints a block: a line with its sizes, a line for each entry of a
walk, and a line that counts the entries and the headers.  The walk covers the
whole block or begins with the first entry not less than a seek key.  If damage
stops the walk, the last line is missing and the damage is reported.
-/

namespace LsmStore.Inspector

/-- What the inspector is asked to do. -/
inductive Request where
  | inspect (path : String) (seek? : Option Bytes)
  | usage
  deriving DecidableEq, Repr

/-- One argument names the file, a second one is the seek key. -/
def Request.ofArguments : List String → Request
  | [path] => .inspect path none
  | [path, seek] => .inspect path (some seek.toUTF8.data.toList)
  | _ => .usage

/-- What the inspector prints, and how it ends. -/
structure Report where
  stdout : String
  stderr : String
  exitCode : Nat
  deriving DecidableEq, Repr

/-- What there is to print of a block. -/
structure Dump where
  size : Nat
  restarts : Nat
  walk : Block.Walk
  /-- The headers that were stepped onto to print them. -/
  headers : Nat
  deriving DecidableEq, Repr

def dump (block : Block) (seek? : Option Bytes) : Dump :=
  let walked := do
    let start ←
      match seek? with
      | none => block.first
      | some target => block.lowerBound target
    block.walkFrom start
  ⟨block.size, block.restarts.size, walked.result, walked.headers⟩

def Dump.headLine (dump : Dump) : String :=
  s!"  {dump.size} bytes, {dump.restarts} restart points\n"

/-- A number in decimal, right-aligned in six places. -/
def alignedOffset (offset : Nat) : List Char :=
  let digits := Nat.toDigits 10 offset
  List.replicate (6 - digits.length) ' ' ++ digits

/-- The line for an entry, without its end. -/
def entryText (visit : Block.Visit) : List Char :=
  [' ', ' '] ++ alignedOffset visit.offset ++ [' ', ' '] ++ Text.showBytes visit.key ++
    [' ', '=', '>', ' '] ++ Text.showBytes visit.value

def entryLine (visit : Block.Visit) : String :=
  String.ofList (entryText visit) ++ "\n"

def footLine (printed headers : Nat) : String :=
  s!"  {printed} entries printed, {headers} headers decoded\n"

/-- What is printed of a block, and the number of the entries that have been printed. -/
structure Printout where
  text : String
  printed : Nat

def Printout.add (printout : Printout) (visit : Block.Visit) : Printout :=
  ⟨printout.text ++ entryLine visit, printout.printed + 1⟩

/-- What is printed of a dump before it is known how the walk ends. -/
def Dump.printout (dump : Dump) : Printout :=
  dump.walk.visits.foldl Printout.add ⟨dump.headLine, 0⟩

/-- The report of an error, behind what was printed before. -/
def failed (printed : String) (cause : StoreError) : Report :=
  ⟨printed, s!"[ERROR] {cause.message}\n", 1⟩

def Dump.report (dump : Dump) : Report :=
  let printout := dump.printout
  match dump.walk.damage? with
  | none => ⟨printout.text ++ footLine printout.printed dump.headers, "", 0⟩
  | some cause => failed printout.text (.corruption cause)

/-- The report on the contents of a file, whose keys are ordered bytewise. -/
def inspect (contents : Except FileProblem Bytes) (seek? : Option Bytes) : Report :=
  match contents with
  | .error problem => failed "" (.io problem)
  | .ok contents =>
    match Block.ofContents Comparator.bytewise contents with
    | .error cause => failed "" (.corruption cause)
    | .ok block => (dump block seek?).report

def usage : Report :=
  ⟨"", "Usage: lessdb <block-file> [seek-key]\n", 2⟩

/-- The report that arguments ask for when a file tree holds the files. -/
def reportIn (tree : FileTree) (arguments : List String) : Report :=
  match Request.ofArguments arguments with
  | .usage => usage
  | .inspect path seek? => inspect (tree.read path) seek?

end LsmStore.Inspector
