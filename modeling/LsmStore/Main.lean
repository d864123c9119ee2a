import LsmStore.Inspector

/-!
# The command line

Reads the file that the arguments name and prints the inspector's report on it.
-/

namespace LsmStore

/-- The problem of a number by which the system tells why a file could not be read. -/
def numberedProblem? : Nat → Option FileProblem
  | 2 => some .notFound
  | 13 => some .permissionDenied
  | 20 => some .notDirectory
  | 21 => some .isDirectory
  | 36 => some .nameTooLong
  | 40 => some .tooManyLinks
  | _ => none

/-- The problem behind an error; its number comes with either sign. -/
def fileProblem : IO.Error → FileProblem
  | .noFileOrDirectory .. => .notFound
  | .permissionDenied .. => .permissionDenied
  | problem@(.inappropriateType _ number _) | problem@(.invalidArgument _ number _) =>
    match numberedProblem? number.toNat <|> numberedProblem? (0 - number).toNat with
    | some known => known
    | none => .other (toString problem)
  | problem => .other (toString problem)

def readContents (path : String) : IO (Except FileProblem Bytes) := do
  try
    let contents ← IO.FS.readBinFile path
    return .ok contents.toList
  catch problem => return .error (fileProblem problem)

def reportFor (arguments : List String) : IO Inspector.Report := do
  match Inspector.Request.ofArguments arguments with
  | .usage => return Inspector.usage
  | .inspect path seek? => return Inspector.inspect (← readContents path) seek?

end LsmStore

/-- Prints the report on the block file that the arguments name. -/
def main (arguments : List String) : IO UInt32 := do
  let report ← LsmStore.reportFor arguments
  (← IO.getStdout).putStr report.stdout
  (← IO.getStderr).putStr report.stderr
  return report.exitCode.toUInt32
