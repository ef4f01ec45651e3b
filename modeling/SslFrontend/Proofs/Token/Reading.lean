import Mathlib.Data.List.Induction
import SslFrontend.Proofs.Token.Registered
import SslFrontend.Proofs.Token.Clean

/-! # What a lexeme comes to

A lexeme comes to the same token and the same error wherever it stands; its place
only tells the position.  So the kinds of the tokens of a text, and those of its
errors, can be read off its lexemes (`kinds_lex`, `errorKinds_lex`).
-/

namespace SslFrontend.Lexeme

/-- The kind of the token that a lexeme comes to, if it does not only stand for blanks. -/
def kind? (lexeme : Lexeme) : Option TokenKind :=
  let text := lexeme.text
  match lexeme.cls with
  | .skipped | .openComment => none
  | .directive =>
    match Directive.ofBody (text.drop 1) with
    | .inclusion path => if '\x00' ∈ path then none else some (.included (String.ofList path))
    | _ => none
  | .decimal => some ((Lexer.decimal? text).getD .invalid)
  | .hexadecimal => some ((Lexer.hexadecimal? text).getD .invalid)
  | .float => some ((Lexer.float? text).getD .invalid)
  | .string => some ((Lexer.string? text).getD .invalid)
  | .openString | .stray => some .invalid
  | .word => some (Lexer.word text)
  | .mark sign => some (.mark sign)

/-- The error that stands for a literal that cannot be read. -/
def error?.unread (kind : Option TokenKind) (error : LexError.Kind) : Option LexError.Kind :=
  if kind.isSome then none else some error

/-- The error that a lexeme is reported with. -/
def error? (lexeme : Lexeme) : Option LexError.Kind :=
  let text := lexeme.text
  match lexeme.cls with
  | .skipped | .word | .mark _ => none
  | .openComment => some .unterminatedComment
  | .directive =>
    match Directive.ofBody (text.drop 1) with
    | .inclusion path => if '\x00' ∈ path then some (.malformedDirective "include") else none
    | .unknown name => some (.unknownDirective (String.ofList name))
    | .malformed name => some (.malformedDirective (String.ofList name))
    | .lineMarker _ _ | .ignored => none
  | .decimal => error?.unread (Lexer.decimal? text) (.malformedNumber (String.ofList text))
  | .hexadecimal => error?.unread (Lexer.hexadecimal? text) (.malformedNumber (String.ofList text))
  | .float => error?.unread (Lexer.float? text) (.malformedNumber (String.ofList text))
  | .string => error?.unread (Lexer.string? text) .nulInString
  | .openString => some .unterminatedString
  | .stray => some (.invalidChar (text.headD '\x00'))

/-- The line, and perhaps the file, that a line marker names. -/
def marker? (lexeme : Lexeme) : Option (Nat × Option (List Char)) :=
  match lexeme.cls with
  | .directive =>
    match Directive.ofBody (lexeme.text.drop 1) with
    | .lineMarker line file => some (line, file)
    | _ => none
  | _ => none

/-- Each lexeme with those in front of it. -/
def placed (before : List Lexeme) : List Lexeme → List (List Lexeme × Lexeme)
  | [] => []
  | lexeme :: rest => (before, lexeme) :: placed (before ++ [lexeme]) rest

theorem filterMap_placed {α : Type} (f : Lexeme → Option α) (before lexemes : List Lexeme) :
    (placed before lexemes).filterMap (fun place => f place.2) = lexemes.filterMap f := by
  induction lexemes generalizing before with
  | nil => rfl
  | cons lexeme rest ih => rw [placed, List.filterMap_cons, List.filterMap_cons, ih]

end SslFrontend.Lexeme

namespace SslFrontend.Lexer

open Lexeme

/-- What reading a lexeme does: it adds a token and an error at the place of the lexeme,
and moves the mapping of lines if the lexeme is a marker. -/
structure State.Reads (s : State) (lexeme : Lexeme) (s' : State) : Prop where
  tokens : s'.tokens.toList = s.tokens.toList ++
    (lexeme.kind?.map fun kind => (⟨kind, s.pos⟩ : Token)).toList
  errors : s'.errors.toList = s.errors.toList ++
    (lexeme.error?.map fun kind => (⟨s.pos, kind⟩ : LexError)).toList
  line : s'.line = s.line
  column : s'.column = s.column
  unmarked : lexeme.marker? = none → s'.marker = s.marker ∧ s'.files = s.files
  marked : ∀ n, lexeme.marker? = some (n, none) →
    s'.marker = s.marker.reset (saturate s.line) n none ∧ s'.files = s.files
  named : ∀ n name, lexeme.marker? = some (n, some name) →
    s'.marker = s.marker.reset (saturate s.line) n (s.files.add ⟨String.ofList name⟩).1 ∧
      s'.files = (s.files.add ⟨String.ofList name⟩).2

namespace State.Reads

variable {s : State} {lexeme : Lexeme}

theorem silent (hkind : lexeme.kind? = none) (herror : lexeme.error? = none)
    (hmarker : lexeme.marker? = none) : s.Reads lexeme s where
  tokens := by simp [hkind]
  errors := by simp [herror]
  line := rfl
  column := rfl
  unmarked _ := ⟨rfl, rfl⟩
  marked _ h := by simp [hmarker] at h
  named _ _ h := by simp [hmarker] at h

theorem emit {kind : TokenKind} (hkind : lexeme.kind? = some kind)
    (herror : lexeme.error? = none) (hmarker : lexeme.marker? = none) :
    s.Reads lexeme (s.emit kind) where
  tokens := by simp [hkind, State.emit]
  errors := by simp [herror, State.emit]
  line := rfl
  column := rfl
  unmarked _ := ⟨rfl, rfl⟩
  marked _ h := by simp [hmarker] at h
  named _ _ h := by simp [hmarker] at h

theorem report {error : LexError.Kind} (hkind : lexeme.kind? = none)
    (herror : lexeme.error? = some error) (hmarker : lexeme.marker? = none) :
    s.Reads lexeme (s.report error) where
  tokens := by simp [hkind, State.report]
  errors := by simp [herror, State.report]
  line := rfl
  column := rfl
  unmarked _ := ⟨rfl, rfl⟩
  marked _ h := by simp [hmarker] at h
  named _ _ h := by simp [hmarker] at h

theorem reject {error : LexError.Kind} (hkind : lexeme.kind? = some .invalid)
    (herror : lexeme.error? = some error) (hmarker : lexeme.marker? = none) :
    s.Reads lexeme (s.reject error) where
  tokens := by simp [hkind, State.reject, State.report, State.emit, State.pos]
  errors := by simp [herror, State.reject, State.report, State.emit]
  line := rfl
  column := rfl
  unmarked _ := ⟨rfl, rfl⟩
  marked _ h := by simp [hmarker] at h
  named _ _ h := by simp [hmarker] at h

theorem emitOr {kind : Option TokenKind} {error : LexError.Kind}
    (hkind : lexeme.kind? = some (kind.getD .invalid))
    (herror : lexeme.error? = error?.unread kind error) (hmarker : lexeme.marker? = none) :
    s.Reads lexeme (emitOr s error kind) := by
  cases kind with
  | none => exact .reject hkind herror hmarker
  | some kind => exact .emit hkind herror hmarker

/-- A marker without a file moves the mapping. -/
theorem marker {n : Nat} (hkind : lexeme.kind? = none) (herror : lexeme.error? = none)
    (hmarker : lexeme.marker? = some (n, none)) :
    s.Reads lexeme { s with marker := s.marker.reset (saturate s.line) n none } where
  tokens := by simp [hkind]
  errors := by simp [herror]
  line := rfl
  column := rfl
  unmarked h := by simp [hmarker] at h
  marked n' h := by
    rw [hmarker] at h
    cases h
    exact ⟨rfl, rfl⟩
  named n' name' h := by simp [hmarker] at h

/-- A marker with a file moves the mapping to it, and adds it. -/
theorem namedMarker {n : Nat} {name : List Char} (hkind : lexeme.kind? = none)
    (herror : lexeme.error? = none) (hmarker : lexeme.marker? = some (n, some name)) :
    s.Reads lexeme { s with
      marker := s.marker.reset (saturate s.line) n (s.files.add ⟨String.ofList name⟩).1
      files := (s.files.add ⟨String.ofList name⟩).2 } where
  tokens := by simp [hkind]
  errors := by simp [herror]
  line := rfl
  column := rfl
  unmarked h := by simp [hmarker] at h
  marked n' h := by simp [hmarker] at h
  named n' name' h := by
    rw [hmarker] at h
    cases h
    exact ⟨rfl, rfl⟩

end State.Reads

theorem readDirective_reads (s : State) (text : List Char) :
    s.Reads ⟨.directive, text⟩ (readDirective s text) := by
  unfold readDirective
  split
  · rename_i path hbody
    split
    · rename_i hnul
      exact .report (by simp only [kind?, hbody, if_pos hnul])
        (by simp only [error?, hbody, if_pos hnul]) (by simp only [marker?, hbody])
    · rename_i hnul
      exact .emit (by simp only [kind?, hbody, if_neg hnul])
        (by simp only [error?, hbody, if_neg hnul]) (by simp only [marker?, hbody])
  · rename_i n hbody
    exact .marker (by simp only [kind?, hbody]) (by simp only [error?, hbody])
      (by simp only [marker?, hbody])
  · rename_i n name hbody
    exact .namedMarker (by simp only [kind?, hbody]) (by simp only [error?, hbody])
      (by simp only [marker?, hbody])
  · rename_i hbody
    exact .silent (by simp only [kind?, hbody]) (by simp only [error?, hbody])
      (by simp only [marker?, hbody])
  · rename_i name hbody
    exact .report (by simp only [kind?, hbody]) (by simp only [error?, hbody])
      (by simp only [marker?, hbody])
  · rename_i name hbody
    exact .report (by simp only [kind?, hbody]) (by simp only [error?, hbody])
      (by simp only [marker?, hbody])

theorem read_reads (s : State) (lexeme : Lexeme) : s.Reads lexeme (read s lexeme) := by
  obtain ⟨cls, text⟩ := lexeme
  cases cls with
  | skipped => exact .silent rfl rfl rfl
  | openComment => exact .report rfl rfl rfl
  | directive => exact readDirective_reads s text
  | decimal => exact .emitOr rfl rfl rfl
  | hexadecimal => exact .emitOr rfl rfl rfl
  | float => exact .emitOr rfl rfl rfl
  | string => exact .emitOr rfl rfl rfl
  | openString => exact .reject rfl rfl rfl
  | word => exact .emit rfl rfl rfl
  | mark sign => exact .emit rfl rfl rfl
  | stray => exact .reject rfl rfl rfl

/-! ## All lexemes of a text -/

/-- The state behind some lexemes. -/
def behind (start : State) (before : List Lexeme) : State := before.foldl step start

theorem behind_concat (start : State) (before : List Lexeme) (lexeme : Lexeme) :
    behind start (before ++ [lexeme]) =
      (read (behind start before) lexeme).advance lexeme.text := by
  rw [behind, List.foldl_append]
  rfl

theorem tokens_behind (start : State) (before lexemes : List Lexeme) :
    (behind start (before ++ lexemes)).tokens.toList = (behind start before).tokens.toList ++
      (placed before lexemes).filterMap fun place =>
        place.2.kind?.map fun kind => (⟨kind, (behind start place.1).pos⟩ : Token) := by
  induction lexemes generalizing before with
  | nil => simp [placed]
  | cons lexeme rest ih =>
      have hread := (read_reads (behind start before) lexeme).tokens
      rw [List.append_cons, ih, behind_concat, tokens_advance, hread, placed,
        List.filterMap_cons]
      cases lexeme.kind? <;> simp

theorem errors_behind (start : State) (before lexemes : List Lexeme) :
    (behind start (before ++ lexemes)).errors.toList = (behind start before).errors.toList ++
      (placed before lexemes).filterMap fun place =>
        place.2.error?.map fun kind => (⟨(behind start place.1).pos, kind⟩ : LexError) := by
  induction lexemes generalizing before with
  | nil => simp [placed]
  | cons lexeme rest ih =>
      have hread := (read_reads (behind start before) lexeme).errors
      rw [List.append_cons, ih, behind_concat, errors_advance, hread, placed,
        List.filterMap_cons]
      cases lexeme.error? <;> simp

/-- The kinds of the tokens of a text are those of its lexemes. -/
theorem kinds_lex (text : String) (file : FileId) (files : FileTable) :
    (lex text file files).tokens.map Token.kind = (chop text.toList).filterMap kind? := by
  have htokens := tokens_behind (.start file files) [] (chop text.toList)
  rw [List.nil_append] at htokens
  show ((behind (.start file files) (chop text.toList)).tokens.toList).map Token.kind = _
  rw [htokens, List.map_append, List.map_filterMap, ← filterMap_placed kind? []]
  simp [behind, State.start, Option.map_map, Function.comp_def]

/-- The kinds of the errors of a text are those of its lexemes. -/
theorem errorKinds_lex (text : String) (file : FileId) (files : FileTable) :
    (lex text file files).errors.map LexError.kind = (chop text.toList).filterMap error? := by
  have herrors := errors_behind (.start file files) [] (chop text.toList)
  rw [List.nil_append] at herrors
  show ((behind (.start file files) (chop text.toList)).errors.toList).map LexError.kind = _
  rw [herrors, List.map_append, List.map_filterMap, ← filterMap_placed error? []]
  simp [behind, State.start, Option.map_map, Function.comp_def]

end SslFrontend.Lexer
