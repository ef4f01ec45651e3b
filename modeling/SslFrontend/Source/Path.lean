/-! # File paths

A path is kept as it was written.  Two paths are the same file name when their
components agree: repeated slashes, inner `.` components and a trailing slash
do not count, while a leading `.` does.  Main statements: cutting a text into
pieces loses nothing (`joinPieces_pieces`), and `same` is an equivalence
relation.
-/

namespace SslFrontend

/-- A path, in the spelling it was given. -/
structure Path where
  text : String
deriving DecidableEq, Repr, Inhabited

namespace Path

/-- One step of a path. -/
inductive Component where
  /-- The leading slash of an absolute path. -/
  | root
  /-- A leading `.`. -/
  | current
  /-- A `..`. -/
  | up
  /-- A named entry. -/
  | entry (name : List Char)
deriving DecidableEq, Repr

/-- The stretches between slashes; never empty. -/
def pieces : List Char → List (List Char)
  | [] => [[]]
  | c :: rest =>
    match c == '/', pieces rest with
    | true, tail => [] :: tail
    | false, [] => [[c]]
    | false, first :: tail => (c :: first) :: tail

theorem pieces_ne_nil (text : List Char) : pieces text ≠ [] := by
  cases text with
  | nil => simp [pieces]
  | cons c rest => unfold pieces; split <;> simp

/-- Write pieces with one slash between neighbours. -/
def joinPieces : List (List Char) → List Char
  | [] => []
  | [piece] => piece
  | piece :: rest => piece ++ '/' :: joinPieces rest

theorem joinPieces_pieces (text : List Char) : joinPieces (pieces text) = text := by
  induction text with
  | nil => rfl
  | cons c rest ih =>
      unfold pieces
      cases hp : pieces rest with
      | nil => exact absurd hp (pieces_ne_nil rest)
      | cons first tail =>
          rw [hp] at ih
          by_cases hc : c = '/'
          · subst hc; simp [joinPieces, ih]
          · have hne : (c == '/') = false := by simp [hc]
            rw [hne]
            cases tail with
            | nil => simpa [joinPieces] using ih
            | cons second more => simpa [joinPieces] using ih

/-- A piece that names nothing: empty, or a `.` that is not in front. -/
def isVacuous (piece : List Char) : Bool :=
  piece.isEmpty || piece == ['.']

/-- How a path begins, before its first named step. -/
inductive Anchor where
  | root
  | current
  | nothing
deriving DecidableEq, Repr

/-- Separate what a path begins with from the pieces that follow. -/
def anchored (path : Path) : Anchor × List (List Char) :=
  match pieces path.text.toList with
  | [] :: second :: rest => (.root, second :: rest)
  | ['.'] :: rest => (.current, rest)
  | all => (.nothing, all)

/-- The component a piece stands for. -/
def Component.ofPiece (piece : List Char) : Component :=
  if piece = ['.', '.'] then .up else .entry piece

def Anchor.components : Anchor → List Component
  | .root => [.root]
  | .current => [.current]
  | .nothing => []

def components (path : Path) : List Component :=
  let (anchor, rest) := path.anchored
  anchor.components ++ (rest.filter (!isVacuous ·)).map Component.ofPiece

/-- Whether two spellings name the same path. -/
def same (p q : Path) : Bool :=
  p.components == q.components

theorem same_iff {p q : Path} : p.same q = true ↔ p.components = q.components := by
  simp [same]

@[simp] theorem same_self (p : Path) : p.same p = true := same_iff.mpr rfl

theorem same_comm (p q : Path) : p.same q = q.same p := by
  rw [Bool.eq_iff_iff, same_iff, same_iff]; exact eq_comm

theorem same_trans {p q r : Path} (hpq : p.same q = true) (hqr : q.same r = true) :
    p.same r = true :=
  same_iff.mpr ((same_iff.mp hpq).trans (same_iff.mp hqr))

def isAbsolute (path : Path) : Bool :=
  path.text.toList.head? == some '/'

/-- Drop trailing pieces that name nothing. -/
def dropVacuousEnd (parts : List (List Char)) : List (List Char) :=
  (parts.reverse.dropWhile isVacuous).reverse

def Anchor.write (anchor : Anchor) (rest : List (List Char)) : List Char :=
  match anchor, rest with
  | .root, _ => '/' :: joinPieces rest
  | .current, [] => ['.']
  | .current, _ => '.' :: '/' :: joinPieces rest
  | .nothing, _ => joinPieces rest

/-- The path without its last component, in the spelling of what is left;
none for the empty path and for `/`. -/
def parent (path : Path) : Option Path :=
  let (anchor, rest) := path.anchored
  match dropVacuousEnd rest, anchor with
  | [], .current => some ⟨""⟩
  | [], _ => none
  | first :: more, _ =>
    let kept := dropVacuousEnd (first :: more).dropLast
    some ⟨String.ofList (anchor.write kept)⟩

/-- `base` followed by `name`; an absolute `name` stands alone. -/
def join (base name : Path) : Path :=
  if name.isAbsolute then name
  else if base.text.isEmpty || base.text.toList.getLast? == some '/' then
    ⟨base.text ++ name.text⟩
  else
    ⟨base.text ++ "/" ++ name.text⟩

end Path

end SslFrontend
