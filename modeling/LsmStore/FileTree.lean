import LsmStore.Bytes
import LsmStore.Failure

/-!
# File trees

A file tree says what is found at each place below its root.  A path is followed
one component after the other, from the root or from the working place, and
every component needs a directory to start from.  The main statement is that a
path can be read exactly when it is of a permitted length and leads to a file.
-/

namespace LsmStore

/-- What is found at a place. -/
inductive FileNode where
  | file (contents : Bytes)
  | directory
  deriving DecidableEq, Repr

/-- A place in a file tree: the names on the way from the root, the last one first. -/
abbrev Place := List String

/-- Files and directories below a root. -/
structure FileTree where
  node? : Place → Option FileNode
  /-- The place from which a relative path is followed. -/
  workingPlace : Place

namespace FileTree

def ofNodes
    (directories : List Place) (files : List (Place × Bytes)) (workingPlace : Place) :
    FileTree where
  node? place :=
    match files.lookup place with
    | some contents => some (.file contents)
    | none => if directories.contains place then some .directory else none
  workingPlace := workingPlace

def nameLimit : Nat := 255

def pathLimit : Nat := 4095

/--
The place to which a component leads from a directory.  An empty component and
a single dot stay there, and two dots lead to the directory above, which for
the root is the root itself.
-/
def follow (place : Place) (component : String) : Except FileProblem Place :=
  if component = "" ∨ component = "." then .ok place
  else if component = ".." then .ok place.tail
  else if nameLimit < component.utf8ByteSize then .error .nameTooLong
  else .ok (component :: place)

def step (tree : FileTree) (place : Place) (component : String) :
    Except FileProblem Place :=
  match tree.node? place with
  | none => .error .notFound
  | some (.file _) => .error .notDirectory
  | some .directory => follow place component

def start (tree : FileTree) (path : String) : Place :=
  if path.toList.head? = some '/' then [] else tree.workingPlace

/-- The place to which a path leads, whether there is anything or not. -/
def resolve (tree : FileTree) (path : String) : Except FileProblem Place :=
  (path.splitOn "/").foldlM tree.step (tree.start path)

def contentsAt (tree : FileTree) (place : Place) : Except FileProblem Bytes :=
  match tree.node? place with
  | none => .error .notFound
  | some .directory => .error .isDirectory
  | some (.file contents) => .ok contents

def read (tree : FileTree) (path : String) : Except FileProblem Bytes :=
  if path = "" then .error .notFound
  else if pathLimit < path.utf8ByteSize then .error .nameTooLong
  else tree.resolve path >>= tree.contentsAt

theorem contentsAt_eq_ok_iff
    {tree : FileTree} {place : Place} {contents : Bytes} :
    tree.contentsAt place = .ok contents ↔ tree.node? place = some (.file contents) := by
  unfold contentsAt
  split <;> simp_all

/-- A path can be read exactly when it is of a permitted length and leads to a file. -/
theorem read_eq_ok_iff
    {tree : FileTree} {path : String} {contents : Bytes} :
    tree.read path = .ok contents ↔
      path ≠ "" ∧ path.utf8ByteSize ≤ pathLimit ∧
        ∃ place, tree.resolve path = .ok place ∧
          tree.node? place = some (.file contents) := by
  unfold read
  by_cases hempty : path = ""
  · simp [hempty]
  · by_cases hlong : pathLimit < path.utf8ByteSize
    · simp [hempty, hlong, Nat.not_le.mpr hlong]
    · cases hplace : tree.resolve path with
      | error problem => simp [hempty, hlong, bind, Except.bind]
      | ok place =>
        simp [hempty, hlong, bind, Except.bind, contentsAt_eq_ok_iff, Nat.le_of_not_lt hlong]

end FileTree

end LsmStore
