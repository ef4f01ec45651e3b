import Mathlib.Data.String.Basic
import SslFrontend.Proofs.Token.Markers

/-! # Slices by bytes

The front end keeps its texts as bytes and cuts them at offsets.  An offset inside
a character, or behind the end of the text, cuts nothing: such a slice is none
here.  `Directive.classify?` reads a directive with each of its slices taken that
way.

Main statement: none of these slices fails, so a directive is read as
`Directive.ofBody` says (`Directive.classify?_eq`).
-/

namespace SslFrontend

/-- One less; none of zero. -/
def pred? : Nat → Option Nat
  | 0 => none
  | n + 1 => some n

namespace Text

open String (utf8Len)

/-- A text cut at an offset; none unless a character starts or the text ends
there. -/
def cut? : List Char → Nat → Option (List Char × List Char)
  | text, 0 => some ([], text)
  | [], _ + 1 => none
  | c :: rest, offset + 1 =>
    if c.utf8Size ≤ offset + 1 then
      (cut? rest (offset + 1 - c.utf8Size)).map fun (front, behind) => (c :: front, behind)
    else none

/-- The text from an offset on. -/
def sliceFrom? (text : List Char) (start : Nat) : Option (List Char) :=
  (cut? text start).map Prod.snd

/-- The text up to an offset. -/
def sliceTo? (text : List Char) (stop : Nat) : Option (List Char) :=
  (cut? text stop).map Prod.fst

/-- The text between two offsets. -/
def slice? (text : List Char) (start stop : Nat) : Option (List Char) :=
  (sliceTo? text stop).bind (sliceFrom? · start)

/-- Where the first character of a class starts. -/
def find? (p : Char → Bool) (text : List Char) : Option Nat :=
  if text.any p then some (utf8Len (text.takeWhile (!p ·))) else none

theorem cut?_append (front behind : List Char) :
    cut? (front ++ behind) (utf8Len front) = some (front, behind) := by
  induction front with
  | nil => simp [cut?]
  | cons c front ih =>
      have hsize := c.utf8Size_pos
      obtain ⟨offset, hoffset⟩ : ∃ offset, utf8Len front + c.utf8Size = offset + 1 :=
        Nat.exists_eq_succ_of_ne_zero (by omega)
      rw [String.utf8Len_cons, hoffset, List.cons_append, cut?, if_pos (by omega), ← hoffset,
        Nat.add_sub_cancel, ih]
      rfl

theorem sliceFrom?_append (front behind : List Char) :
    sliceFrom? (front ++ behind) (utf8Len front) = some behind := by
  rw [sliceFrom?, cut?_append]
  rfl

theorem sliceTo?_append (front behind : List Char) :
    sliceTo? (front ++ behind) (utf8Len front) = some front := by
  rw [sliceTo?, cut?_append]
  rfl

theorem slice?_append (front inside behind : List Char) :
    slice? (front ++ inside ++ behind) (utf8Len front) (utf8Len (front ++ inside)) =
      some inside := by
  rw [slice?, sliceTo?_append, Option.bind_some, sliceFrom?_append]

/-- A character of one byte is cut off with it. -/
theorem sliceFrom?_one {c : Char} (h : c.utf8Size = 1) (rest : List Char) :
    sliceFrom? (c :: rest) 1 = some rest := by
  have hlength : utf8Len [c] = 1 := by simp [h]
  rw [← hlength]
  exact sliceFrom?_append [c] rest

/-- A text can be cut where the first character of a class starts, or else at its
end. -/
theorem cut?_find? (p : Char → Bool) (text : List Char) :
    cut? text ((find? (!p ·) text).getD (utf8Len text)) =
      some (text.takeWhile p, text.dropWhile p) := by
  have hoffset : (find? (!p ·) text).getD (utf8Len text) = utf8Len (text.takeWhile p) := by
    unfold find?
    split
    · simp
    · rename_i hnone
      have hall : ∀ c ∈ text, p c = true := by simpa using hnone
      rw [Option.getD_none, List.takeWhile_eq_self_iff.mpr hall]
  have hcut := cut?_append (text.takeWhile p) (text.dropWhile p)
  rw [List.takeWhile_append_dropWhile] at hcut
  rw [hoffset, hcut]

end Text

namespace Directive

open String (utf8Len)

/-- What closes a quoted text. -/
def closing? : Char → Option Char
  | '"' => some '"'
  | '<' => some '>'
  | _ => none

/-- The text between a leading pair of quotes or angle brackets, by offsets. -/
def slicedQuoted? : List Char → Option (Option (List Char))
  | [] => some none
  | opening :: rest =>
    match closing? opening with
    | none => some none
    | some closing => do
      let inside ← Text.sliceFrom? (opening :: rest) 1
      match Text.find? (· == closing) inside with
      | none => return none
      | some stop => return some (← Text.sliceTo? inside stop)

/-- A line marker, by offsets. -/
def slicedMarker? (args name : List Char) : Option Directive := do
  let stop := (Text.find? (!Lexeme.isDigit ·) args).getD (utf8Len args)
  match word? (← Text.sliceTo? args stop) with
  | none => return .malformed name
  | some line =>
    match Text.trimStart (← Text.sliceFrom? args stop) with
    | [] => return .lineMarker line none
    | rest =>
      match ← slicedQuoted? rest with
      | some file => return .lineMarker line (some file)
      | none => return .malformed name

local instance lawfulWords : LawfulBEq (List Char) := inferInstance

/-- The text after the `#` of a directive, by offsets. -/
def classify? (body : List Char) : Option Directive :=
  let body := Text.trim body
  match body with
  | [] => some .ignored
  | first :: _ =>
    if Lexeme.isDigit first then slicedMarker? body ['#']
    else do
      let stop := (Text.find? (!Lexeme.isWordChar ·) body).getD (utf8Len body)
      let (name, rest) ← Text.cut? body stop
      if name = includeWord then
        match ← slicedQuoted? (Text.trim rest) with
        | some (c :: path) => return .inclusion (c :: path)
        | _ => return .malformed includeWord
      else if name = lineWord then slicedMarker? (Text.trim rest) lineWord
      else if name ∈ silentWords then return .ignored
      else return .unknown name

/-- A quoted text ends where its closing mark is found. -/
theorem sliceTo?_find? (closing : Char) (inside : List Char) :
    (match Text.find? (· == closing) inside with
      | none => some none
      | some stop => (Text.sliceTo? inside stop).map some) =
      some (quoted?.upTo? closing inside) := by
  have hany : inside.any (· == closing) = inside.contains closing := by
    rw [List.contains_eq_any_beq]
    simp only [Bool.beq_comm]
  unfold Text.find? quoted?.upTo?
  rw [hany]
  cases inside.contains closing with
  | false => rfl
  | true =>
      have hslice := Text.sliceTo?_append (inside.takeWhile (· != closing))
        (inside.dropWhile (· != closing))
      rw [List.takeWhile_append_dropWhile] at hslice
      show (Text.sliceTo? inside (utf8Len (inside.takeWhile (· != closing)))).map some = _
      rw [hslice]
      rfl

theorem slicedQuoted?_eq (text : List Char) : slicedQuoted? text = some (quoted? text) := by
  have hinside : ∀ (closing : Char) (inside : List Char),
      (match Text.find? (· == closing) inside with
        | none => some none
        | some stop => (Text.sliceTo? inside stop).bind fun found => some (some found)) =
        some (quoted?.upTo? closing inside) := by
    intro closing inside
    rw [← sliceTo?_find? closing inside]
    cases Text.find? (· == closing) inside with
    | none => rfl
    | some stop => exact Option.map_eq_bind.symm
  cases text with
  | nil => rfl
  | cons opening rest =>
      by_cases hquote : opening = '"'
      · subst hquote
        have hslice : Text.sliceFrom? ('"' :: rest) 1 = some rest := Text.sliceFrom?_one rfl rest
        simp only [slicedQuoted?, closing?, hslice, quoted?]
        exact hinside '"' rest
      · by_cases hangle : opening = '<'
        · subst hangle
          have hslice : Text.sliceFrom? ('<' :: rest) 1 = some rest := Text.sliceFrom?_one rfl rest
          simp only [slicedQuoted?, closing?, hslice, quoted?]
          exact hinside '>' rest
        · simp [slicedQuoted?, closing?, quoted?, hquote, hangle]

theorem slicedMarker?_eq (args name : List Char) :
    slicedMarker? args name = some (ofMarker args name) := by
  have hcut := Text.cut?_find? Lexeme.isDigit args
  unfold slicedMarker? ofMarker
  simp only [Text.sliceTo?, Text.sliceFrom?, hcut, Option.map_some, drop_takeWhile,
    Option.bind_eq_bind, Option.bind_some, slicedQuoted?_eq]
  cases word? (args.takeWhile Lexeme.isDigit) with
  | none => rfl
  | some line =>
      cases Text.trimStart (args.dropWhile Lexeme.isDigit) with
      | nil => rfl
      | cons c rest => cases hquoted : quoted? (c :: rest) <;> simp [hquoted]

/-- Every slice that the classifier takes is on characters of its text. -/
theorem classify?_eq (body : List Char) : classify? body = some (ofBody body) := by
  unfold classify? ofBody
  cases Text.trim body with
  | nil => rfl
  | cons first rest =>
      have hcut := Text.cut?_find? Lexeme.isWordChar (first :: rest)
      simp only [hcut, drop_takeWhile, slicedQuoted?_eq, slicedMarker?_eq, Option.bind_eq_bind,
        Option.bind_some]
      split
      · rfl
      · split
        · cases quoted? (Text.trim ((first :: rest).dropWhile Lexeme.isWordChar)) with
          | none => rfl
          | some path => cases path <;> rfl
        · split
          · rfl
          · split <;> rfl

end Directive

end SslFrontend
