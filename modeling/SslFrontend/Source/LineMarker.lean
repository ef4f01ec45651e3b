import SslFrontend.Source.Position

/-! # Line markers

A preprocessor leaves markers that say where the following line came from.
After a marker for line `N` on physical line `P`, physical line `P + 1` is line
`N`, and counting goes on from there; a marker may name another file as well.
-/

namespace SslFrontend

/-- Where physical lines currently map to: line `physical` is line `mapped` of
`file`. -/
structure LineMarker where
  file : FileId
  physical : Nat
  mapped : Nat
deriving DecidableEq, Repr

namespace LineMarker

/-- Before any marker, lines are their own. -/
def identity (file : FileId) : LineMarker := ⟨file, 1, 1⟩

/-- The mapping after a marker for `mapped` on physical line `line`; without a
file the marker keeps the current one. -/
def reset (marker : LineMarker) (line mapped : Nat) (file : Option FileId) : LineMarker :=
  ⟨file.getD marker.file, saturate (line + 1), mapped⟩

/-- The position of a physical line and column. -/
def position (marker : LineMarker) (line column : Nat) : Position :=
  ⟨marker.file, saturate (marker.mapped + (line - marker.physical)), column⟩

@[simp] theorem position_column (marker : LineMarker) (line column : Nat) :
    (marker.position line column).column = column := rfl

theorem identity_position {file : FileId} {line column : Nat}
    (h : 1 ≤ line) (hle : line ≤ maxWord) :
    (identity file).position line column = ⟨file, line, column⟩ := by
  have hline : 1 + (line - 1) = line := by omega
  simp only [identity, position, hline, saturate_of_le hle]

theorem reset_position (marker : LineMarker) (file : Option FileId)
    {line mapped : Nat} (h : line + 1 ≤ maxWord) (later column : Nat) :
    (marker.reset line mapped file).position later column =
      ⟨file.getD marker.file, saturate (mapped + (later - (line + 1))), column⟩ := by
  simp [reset, position, saturate_of_le h]

end LineMarker

end SslFrontend
