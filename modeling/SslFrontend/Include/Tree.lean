import SslFrontend.Include.FileSystem

/-! # Directory trees

A file system that is a value: the files and directories below a working
directory.  Paths are followed one step at a time.  Every step, also an empty
one and `.`, starts from a directory, so `a/../b` needs an `a`, and `f/` fails
for a plain file.  Above the working directory there are directories and
nothing else.
-/

namespace SslFrontend

inductive Tree.Entry where
  | file (bytes : ByteArray)
  | directory

structure Tree where
  /-- The working directory's own path. -/
  root : String
  /-- Files and directories with their names from the working directory on. -/
  entries : List (List String × Tree.Entry)

namespace Tree

/-- Where a path leads. -/
inductive Place where
  | inside (names : List String)
  /-- So many levels above the working directory. -/
  | above (levels : Nat)
deriving DecidableEq, Repr

/-- The entry of some names; the parents of every entry are directories. -/
def entry? (tree : Tree) (names : List String) : Option Entry :=
  match tree.entries.find? (·.1 == names) with
  | some (_, entry) => some entry
  | none =>
    if names.isEmpty || tree.entries.any fun e => names.isPrefixOf e.1 then some .directory
    else none

def isDirectory (tree : Tree) : Place → Bool
  | .above _ => true
  | .inside names =>
    match tree.entry? names with
    | some .directory => true
    | _ => false

/-- The directory above a place. -/
def Place.parent : Place → Place
  | .above levels => .above (levels + 1)
  | .inside [] => .above 1
  | .inside names => .inside names.dropLast

def maxNameBytes : Nat := 255

def maxPathBytes : Nat := 4095

/-- Take one step of a path. -/
def step (tree : Tree) (place : Place) (piece : List Char) : Except FileError Place :=
  if !tree.isDirectory place then .error .notDirectory
  else
    match piece, place with
    | [], _ | ['.'], _ => .ok place
    | ['.', '.'], _ => .ok place.parent
    | name, .above _ =>
      if maxNameBytes < (String.ofList name).utf8ByteSize then .error .nameTooLong
      else .error .notFound
    | name, .inside names =>
      let name := String.ofList name
      if maxNameBytes < name.utf8ByteSize then .error .nameTooLong
      else if (tree.entry? (names ++ [name])).isSome then .ok (.inside (names ++ [name]))
      else .error .notFound

/-- Follow the pieces of a path. -/
def follow (tree : Tree) (place : Place) (pieces : List (List Char)) :
    Except FileError Place :=
  pieces.foldlM tree.step place

/-- Where a path starts, and its pieces. -/
def begin (path : Path) : Except FileError (Place × List (List Char)) :=
  let text := path.text.toList
  if '\x00' ∈ text then .error .nulInPath
  else if text.isEmpty then .error .notFound
  else if maxPathBytes < path.text.utf8ByteSize then .error .nameTooLong
  else if path.isAbsolute then .ok (.above 1, Path.pieces text)
  else .ok (.inside [], Path.pieces text)

def locate (tree : Tree) (path : Path) : Except FileError Place := do
  let (place, pieces) ← begin path
  tree.follow place pieces

def fileBytes? (tree : Tree) : Place → Option ByteArray
  | .above _ => none
  | .inside names =>
    match tree.entry? names with
    | some (.file bytes) => some bytes
    | _ => none

def read (tree : Tree) (path : Path) : Except FileError String := do
  match tree.fileBytes? (← tree.locate path) with
  | none => .error .isDirectory
  | some bytes =>
    match String.fromUTF8? bytes with
    | some text => .ok text
    | none => .error .notText

def isFile (tree : Tree) (path : Path) : Bool :=
  match tree.locate path with
  | .ok place => (tree.fileBytes? place).isSome
  | .error _ => false

def canonical (tree : Tree) (path : Path) : Path :=
  match tree.locate path with
  | .ok (.inside names) => ⟨"/".intercalate (tree.root :: names)⟩
  | .ok (.above _) => ⟨"/"⟩
  | .error _ => path

/-- Put an entry into the tree, in place of what was there. -/
def insert (tree : Tree) (names : List String) (entry : Entry) : Tree :=
  ⟨tree.root, (names, entry) :: tree.entries.filter (·.1 != names)⟩

/-- Put an entry where a path leads from the working directory. -/
def insertAt (tree : Tree) (path : Path) (entry : Entry) : Tree :=
  let names := (Path.pieces path.text.toList).filter (!Path.isVacuous ·)
  tree.insert (names.map String.ofList) entry

/-- Create a file, or empty the one that is there.  A path that ends in a slash
cannot name a file. -/
def create (tree : Tree) (path : Path) : Except FileError Tree := do
  let (start, pieces) ← begin path
  let named := pieces.filter (!·.isEmpty)
  let place ← tree.follow start named.dropLast
  match named.getLast? with
  | none => .error .isDirectory
  | some last =>
    if !tree.isDirectory place then .error .notDirectory
    else if pieces.getLast? = some [] then .error .isDirectory
    else
      match tree.step place last, place with
      | .ok found, _ =>
        match tree.isDirectory found, found with
        | false, .inside names => .ok (tree.insert names (.file .empty))
        | _, _ => .error .isDirectory
      | .error .notFound, .inside names =>
        .ok (tree.insert (names ++ [String.ofList last]) (.file .empty))
      | .error e, _ => .error e

def fileSystem (tree : Tree) : FileSystem := ⟨tree.read, tree.isFile, tree.canonical⟩

end Tree

end SslFrontend
