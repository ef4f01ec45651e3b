/-! # Source positions

A position names a file of the unit, a line and a column.  Lines and columns
start at one, columns count characters, and positions are ordered by file, then
line, then column.  Line and column numbers are words of 32 bits: a larger
number is cut off at `maxWord`.
-/

namespace SslFrontend

/-- The largest line or column number. -/
def maxWord : Nat := 0xFFFFFFFF

/-- Cut a number off at the largest word. -/
def saturate (n : Nat) : Nat := min n maxWord

theorem saturate_le (n : Nat) : saturate n ≤ maxWord := Nat.min_le_right _ _

theorem saturate_of_le {n : Nat} (h : n ≤ maxWord) : saturate n = n := Nat.min_eq_left h

/-- Index of a file in the unit's file table. -/
structure FileId where
  index : Nat
deriving DecidableEq, Repr, Inhabited

/-- The file a unit is compiled from. -/
def FileId.primary : FileId := ⟨0⟩

structure Position where
  file : FileId
  line : Nat
  column : Nat
deriving DecidableEq, Repr, Inhabited

namespace Position

/-- The position of something that has none. -/
def unknown : Position := ⟨.primary, 0, 0⟩

/-- Order by file, then line, then column. -/
def le (p q : Position) : Bool :=
  p.file.index < q.file.index ||
    p.file.index == q.file.index &&
      (p.line < q.line || p.line == q.line && p.column ≤ q.column)

/-- Line and column, as messages print them. -/
def text (p : Position) : String := s!"{p.line}:{p.column}"

theorem le_iff {p q : Position} :
    p.le q = true ↔ p.file.index < q.file.index ∨
      (p.file.index = q.file.index ∧
        (p.line < q.line ∨ (p.line = q.line ∧ p.column ≤ q.column))) := by
  simp [le]

theorem le_refl (p : Position) : p.le p = true := by
  rw [le_iff]; exact .inr ⟨rfl, .inr ⟨rfl, Nat.le_refl _⟩⟩

theorem le_trans {p q r : Position} (hpq : p.le q = true) (hqr : q.le r = true) :
    p.le r = true := by
  rw [le_iff] at *; omega

theorem le_total (p q : Position) : (p.le q || q.le p) = true := by
  rw [Bool.or_eq_true, le_iff, le_iff]; omega

end Position

/-- A mention of a symbol: the line and the file it is on. -/
structure Site where
  line : Nat
  file : FileId
deriving DecidableEq, Repr, Inhabited

def Position.site (p : Position) : Site := ⟨p.line, p.file⟩

end SslFrontend
