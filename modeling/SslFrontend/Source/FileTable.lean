import SslFrontend.Source.Path
import SslFrontend.Source.Position

/-! # Files of a unit

Every file that contributes tokens gets an id, in order of first appearance.
Paths are told apart by their components, and the table keeps the spelling a
path was first given.  Main statement: no two entries are the same path, which
every table carries as a proof (`distinct`).
-/

namespace SslFrontend

structure FileTable where
  paths : List Path
  distinct : paths.Pairwise fun p q => p.same q = false

namespace FileTable

def empty : FileTable := ⟨[], .nil⟩

instance : Inhabited FileTable := ⟨empty⟩

/-- The id of a known path. -/
def find? (table : FileTable) (path : Path) : Option FileId :=
  (table.paths.findIdx? (·.same path)).map FileId.mk

theorem same_eq_false_of_find?_eq_none {table : FileTable} {path : Path}
    (h : table.find? path = none) {p : Path} (hp : p ∈ table.paths) :
    p.same path = false := by
  simp [find?] at h
  exact h p hp

/-- The id of `path`, which is added if it is not known. -/
def add (table : FileTable) (path : Path) : FileId × FileTable :=
  match h : table.find? path with
  | some id => (id, table)
  | none =>
    (⟨table.paths.length⟩,
      { paths := table.paths ++ [path]
        distinct := by
          rw [List.pairwise_append]
          refine ⟨table.distinct, List.pairwise_singleton _ _, ?_⟩
          intro p hp q hq
          rw [List.mem_singleton.mp hq]
          exact same_eq_false_of_find?_eq_none h hp })

/-- The path behind an id, in the spelling first added. -/
def path? (table : FileTable) (id : FileId) : Option Path :=
  table.paths[id.index]?

/-- The path behind an id as messages print it. -/
def display (table : FileTable) (id : FileId) : String :=
  match table.path? id with
  | some path => path.text
  | none => "<unknown>"

def size (table : FileTable) : Nat := table.paths.length

def isEmpty (table : FileTable) : Bool := table.paths.isEmpty

/-- The table with every path of a list, in order. -/
def ofPaths (paths : List Path) : FileTable :=
  paths.foldl (fun table path => (table.add path).2) empty

end FileTable

end SslFrontend
