import SslFrontend.Proofs.DiagnosticReports
import SslFrontend.Proofs.Token.Interning

/-! # Every invalid token is reported

The parser takes an invalid token as an operand and says nothing about it, so it has to
be reported already.  Each lexeme comes to one of four readings: nothing, a token, an
invalid token with the error that spoilt it, or an error without a token (`Reading`).
The loader reports the errors of each text when it opens the file, and passes its
tokens on one by one; so at every moment the invalid tokens that were passed on or are
still to be are those that are reported (`Loader.Accounts`).

Main statement: `TokenStream.invalid_reported`.
-/

namespace SslFrontend

open Lexer (lex lexInto)

/-! ## What a lexeme comes to -/

/-- Whether an invalid token stands for what is wrong. -/
def LexError.Kind.spoilsToken : LexError.Kind → Bool
  | .invalidChar _ | .malformedNumber _ | .unterminatedString | .nulInString => true
  | .unterminatedComment | .unknownDirective _ | .malformedDirective _ => false

def Token.isInvalid (token : Token) : Bool := token.kind == .invalid

/-- What a lexeme comes to. -/
inductive Reading where
  | nothing
  | token (token : Token) (h : token.isInvalid = false)
  /-- An invalid token, and what spoilt it. -/
  | spoilt (pos : Position) (kind : LexError.Kind) (h : kind.spoilsToken = true)
  /-- An error that no token stands for. -/
  | remark (error : LexError) (h : error.kind.spoilsToken = false)

namespace Reading

def token? : Reading → Option Token
  | token t _ => some t
  | spoilt pos _ _ => some ⟨.invalid, pos⟩
  | nothing | remark _ _ => none

def error? : Reading → Option LexError
  | spoilt pos kind _ => some ⟨pos, kind⟩
  | remark error _ => some error
  | nothing | token _ _ => none

/-- Invalid tokens and the errors that spoilt them come in the same order, each at the
position of the other. -/
theorem spoilt_paired (readings : List Reading) :
    ((readings.filterMap token?).filter Token.isInvalid).map Token.pos =
      ((readings.filterMap error?).filter (·.kind.spoilsToken)).map LexError.pos := by
  induction readings with
  | nil => rfl
  | cons reading rest ih =>
      cases reading with
      | nothing => exact ih
      | token t h => simpa [List.filterMap_cons, token?, error?, List.filter_cons, h] using ih
      | spoilt pos kind h =>
          simpa [List.filterMap_cons, token?, error?, List.filter_cons, h, Token.isInvalid] using ih
      | remark error h => simpa [List.filterMap_cons, token?, error?, List.filter_cons, h] using ih

end Reading

namespace Lexeme

/-- A literal is a token, or it is spoilt. -/
theorem exists_literal (pos : Position) (kind : Option TokenKind) {error : LexError.Kind}
    (hkind : ∀ k, kind = some k → k ≠ .invalid) (herror : error.spoilsToken = true) :
    ∃ reading : Reading,
      reading.token? = (some (kind.getD .invalid)).map (fun kind => (⟨kind, pos⟩ : Token)) ∧
      reading.error? = (error?.unread kind error).map fun kind => (⟨pos, kind⟩ : LexError) := by
  cases kind with
  | none => exact ⟨.spoilt pos error herror, rfl, rfl⟩
  | some k => exact ⟨.token ⟨k, pos⟩ (by simpa [Token.isInvalid] using hkind k rfl), rfl, rfl⟩

theorem exists_reading (pos : Position) (lexeme : Lexeme) : ∃ reading : Reading,
    reading.token? = lexeme.kind?.map (fun kind => (⟨kind, pos⟩ : Token)) ∧
      reading.error? = lexeme.error?.map fun kind => (⟨pos, kind⟩ : LexError) := by
  obtain ⟨cls, text⟩ := lexeme
  cases cls with
  | skipped => exact ⟨.nothing, rfl, rfl⟩
  | openComment => exact ⟨.remark ⟨pos, .unterminatedComment⟩ rfl, rfl, rfl⟩
  | directive =>
      cases hbody : Directive.ofBody (text.drop 1) with
      | inclusion path =>
          by_cases hnul : '\x00' ∈ path
          · simp only [kind?, error?, hbody, if_pos hnul]
            exact ⟨.remark ⟨pos, .malformedDirective "include"⟩ rfl, rfl, rfl⟩
          · simp only [kind?, error?, hbody, if_neg hnul]
            exact ⟨.token ⟨.included (String.ofList path), pos⟩ rfl, rfl, rfl⟩
      | lineMarker line file =>
          simp only [kind?, error?, hbody]
          exact ⟨.nothing, rfl, rfl⟩
      | ignored =>
          simp only [kind?, error?, hbody]
          exact ⟨.nothing, rfl, rfl⟩
      | unknown name =>
          simp only [kind?, error?, hbody]
          exact ⟨.remark ⟨pos, .unknownDirective (String.ofList name)⟩ rfl, rfl, rfl⟩
      | malformed name =>
          simp only [kind?, error?, hbody]
          exact ⟨.remark ⟨pos, .malformedDirective (String.ofList name)⟩ rfl, rfl, rfl⟩
  | decimal =>
      refine exists_literal pos (Lexer.decimal? text) (fun k hk => ?_) rfl
      obtain ⟨n, -, rfl⟩ := Option.map_eq_some_iff.mp hk
      simp [Lexer.intOfWord]
  | hexadecimal =>
      refine exists_literal pos (Lexer.hexadecimal? text) (fun k hk => ?_) rfl
      unfold Lexer.hexadecimal? at hk
      dsimp only at hk
      split at hk <;> cases hk
      simp [Lexer.intOfWord]
  | float =>
      refine exists_literal pos (Lexer.float? text) (fun k hk => ?_) rfl
      unfold Lexer.float? at hk
      dsimp only at hk
      split at hk <;> cases hk
      simp
  | string =>
      refine exists_literal pos (Lexer.string? text) (fun k hk => ?_) rfl
      obtain ⟨inside, -, rfl⟩ := Option.map_eq_some_iff.mp hk
      simp
  | openString => exact ⟨.spoilt pos .unterminatedString rfl, rfl, rfl⟩
  | word =>
      refine ⟨.token ⟨Lexer.word text, pos⟩ ?_, rfl, rfl⟩
      unfold Lexer.word Token.isInvalid
      cases Keyword.ofWord? text <;> rfl
  | mark sign => exact ⟨.token ⟨.mark sign, pos⟩ rfl, rfl, rfl⟩
  | stray => exact ⟨.spoilt pos (.invalidChar (text.headD '\x00')) rfl, rfl, rfl⟩

end Lexeme

/-- A lexed text has one reading for each lexeme, and the tokens and errors of these. -/
structure Lexed.ReadFrom (lexed : Lexed) (lexemes : List Lexeme) (readings : List Reading) : Prop where
  length : readings.length = lexemes.length
  tokens : lexed.tokens = readings.filterMap Reading.token?
  errors : lexed.errors = readings.filterMap Reading.error?

theorem Lexer.lex_readFrom (text : String) (file : FileId) (files : FileTable) :
    ∃ readings, (lex text file files).ReadFrom (Lexeme.chop text.toList) readings := by
  have hreadings : ∀ (lexemes before : List Lexeme), ∃ readings : List Reading,
      readings.length = lexemes.length ∧
      (Lexeme.placed before lexemes).filterMap (fun place =>
        place.2.kind?.map fun kind => (⟨kind, (behind (.start file files) place.1).pos⟩ : Token)) =
        readings.filterMap Reading.token? ∧
      (Lexeme.placed before lexemes).filterMap (fun place =>
        place.2.error?.map fun kind => (⟨(behind (.start file files) place.1).pos, kind⟩ : LexError)) =
        readings.filterMap Reading.error? := by
    intro lexemes
    induction lexemes with
    | nil => exact fun before => ⟨[], rfl, rfl, rfl⟩
    | cons lexeme rest ih =>
        intro before
        obtain ⟨readings, hlength, htokens, herrors⟩ := ih (before ++ [lexeme])
        obtain ⟨reading, htoken, herror⟩ :=
          lexeme.exists_reading (behind (.start file files) before).pos
        refine ⟨reading :: readings, congrArg (· + 1) hlength, ?_, ?_⟩
        · rw [Lexeme.placed, List.filterMap_cons, List.filterMap_cons, htokens, htoken]
        · rw [Lexeme.placed, List.filterMap_cons, List.filterMap_cons, herrors, herror]
  obtain ⟨readings, hlength, htokens, herrors⟩ := hreadings (Lexeme.chop text.toList) []
  refine ⟨readings, hlength, ?_, ?_⟩
  · rw [← htokens]
    exact tokens_behind (.start file files) [] _
  · rw [← herrors]
    exact errors_behind (.start file files) [] _

/-- The positions of the invalid tokens among tokens. -/
def invalidPlaces (tokens : List Token) : List Position := (tokens.filter Token.isInvalid).map Token.pos

/-- The positions of the errors that an invalid token stands for. -/
def Lexed.spoiltPlaces (lexed : Lexed) : List Position :=
  (lexed.errors.filter (·.kind.spoilsToken)).map LexError.pos

theorem Lexer.lex_paired (text : String) (file : FileId) (files : FileTable) :
    invalidPlaces (lex text file files).tokens = (lex text file files).spoiltPlaces := by
  obtain ⟨readings, h⟩ := lex_readFrom text file files
  rw [invalidPlaces, Lexed.spoiltPlaces, h.tokens, h.errors]
  exact Reading.spoilt_paired readings

/-! ## What the loader makes of it -/

namespace Loader

variable (fs : FileSystem) (options : IncludeOptions)

/-- The text that is lexed when an include directive of `source` is followed. -/
def followLexes? (m : Loader) (source : SourceText) (name : String) (pos : Position) : Option Lexed :=
  if options.maxDepth < m.chain.length then none
  else
    match Include.open? fs options { source with chain := m.chain } name pos with
    | .error _ => none
    | .ok (path, text) => some (lex text (m.files.add path).1 (m.files.add path).2)

/-- The text that the next step of a loader lexes, if it opens a file. -/
def lexes? (m : Loader) : Option Lexed :=
  match m.stack with
  | ⟨source, token :: _⟩ :: _ =>
    match token.kind with
    | .included name => followLexes? fs options m source name token.pos
    | _ => none
  | _ => none

/-- A run of a loader, with the texts that it lexes one after the other. -/
inductive Lexes : Loader → List Lexed → Loader → Prop
  | refl (m : Loader) : Lexes m [] m
  | tail {m m' last : Loader} {texts : List Lexed} (h : Lexes m texts m')
      (hstep : Step fs options m' last) : Lexes m (texts ++ (lexes? fs options m').toList) last

/-- The errors of the texts that were lexed are reported, one diagnostic for each, and
nothing else is reported as an error of form.  The invalid tokens that were passed on,
or are still to be, are those that errors were reported for. -/
structure Accounts (m : Loader) (texts : List Lexed) : Prop where
  problems : m.problems.filter (·.cause.isGrammatical) =
    texts.flatMap fun lexed => lexed.errors.map LexError.diagnostic
  invalid : (invalidPlaces (m.tokens ++ m.stack.flatMap OpenFile.rest)).Perm
    (texts.flatMap Lexed.spoiltPlaces)

variable {fs options} {m m' : Loader} {texts : List Lexed}

theorem exists_lexes (h : Steps fs options m m') : ∃ texts, Lexes fs options m texts m' := by
  induction h with
  | refl => exact ⟨[], .refl m⟩
  | tail _ hstep ih =>
      obtain ⟨texts, htexts⟩ := ih
      exact ⟨_, htexts.tail hstep⟩

/-- A lexical error is an error of form. -/
theorem isGrammatical_lexical (error : LexError) : error.diagnostic.cause.isGrammatical = true := by
  rw [Cause.isGrammatical_iff]
  obtain ⟨pos, kind⟩ := error
  cases kind <;> rfl

theorem grammatical_lexical (errors : List LexError) :
    (errors.map LexError.diagnostic).filter (·.cause.isGrammatical) =
      errors.map LexError.diagnostic := by
  rw [List.filter_eq_self, List.forall_mem_map]
  exact fun error _ => isGrammatical_lexical error

theorem not_grammatical_of_include {cause : Cause} (h : cause.text ∈ ["E5001", "E5002", "E5003"]) :
    cause.isGrammatical = false := by
  revert h
  cases cause <;> decide

namespace Accounts

/-- A file that is opened is lexed, and its tokens are to be passed on. -/
theorem enter (h : m.Accounts texts) (source : SourceText) (key : Path) :
    (m.enter source key).Accounts (texts ++ [lex source.text source.file m.files]) where
  problems := by
    show (m.problems ++ _).filter _ = _
    rw [List.filter_append, h.problems, grammatical_lexical, List.flatMap_append]
    simp
  invalid := by
    have htokens : invalidPlaces (m.tokens ++ ((lex source.text source.file m.files).tokens ++
        m.stack.flatMap OpenFile.rest)) = invalidPlaces m.tokens ++
          ((lex source.text source.file m.files).spoiltPlaces ++
            invalidPlaces (m.stack.flatMap OpenFile.rest)) := by
      simp only [invalidPlaces, List.filter_append, List.map_append]
      rw [← Lexer.lex_paired]
      rfl
    have hbefore : (invalidPlaces m.tokens ++ invalidPlaces (m.stack.flatMap OpenFile.rest)).Perm
        (texts.flatMap Lexed.spoiltPlaces) := by
      have hinvalid := h.invalid
      rwa [invalidPlaces, List.filter_append, List.map_append] at hinvalid
    refine .trans (.of_eq htokens) ?_
    rw [List.flatMap_append, List.flatMap_singleton]
    refine .trans ?_ (hbefore.append_right _)
    rw [List.append_assoc]
    exact List.perm_append_comm.append_left _

theorem refuse (h : m.Accounts texts) {problem : Diagnostic}
    (hcode : problem.cause.text ∈ ["E5001", "E5002", "E5003"]) :
    (m.refuse problem).Accounts texts where
  problems := by
    show (m.problems ++ [problem]).filter _ = _
    rw [List.filter_append, h.problems, List.filter_cons_of_neg
      (by simpa using not_grammatical_of_include hcode), List.filter_nil, List.append_nil]
  invalid := h.invalid

theorem follow (h : m.Accounts texts) (source : SourceText) (name : String) (pos : Position) :
    (Loader.follow fs options m source name pos).Accounts
      (texts ++ (followLexes? fs options m source name pos).toList) := by
  unfold Loader.follow followLexes?
  split
  · rw [Option.toList_none, List.append_nil]
    have hcode : Cause.includeTooDeep.text ∈ ["E5001", "E5002", "E5003"] := by decide
    exact h.refuse hcode
  · cases hopen : Include.open? fs options { source with chain := m.chain } name pos with
    | error problem =>
        rw [Option.toList_none, List.append_nil]
        exact h.refuse (Include.problem_of_open? hopen).2
    | ok found =>
        have hfiles : ({ m with files := (m.files.add found.1).2 } : Loader).Accounts texts :=
          ⟨h.problems, h.invalid⟩
        exact hfiles.enter _ _

theorem step (h : m.Accounts texts) (hstep : Step fs options m m') :
    m'.Accounts (texts ++ (lexes? fs options m).toList) := by
  unfold Step Loader.step at hstep
  unfold lexes?
  cases hstack : m.stack with
  | nil =>
      rw [hstack] at hstep
      cases hstep
  | cons top outer =>
      have hinvalid := h.invalid
      rw [hstack] at hstep hinvalid
      obtain ⟨source, tokens⟩ := top
      cases tokens with
      | nil =>
          cases hstep
          rw [Option.toList_none, List.append_nil]
          exact ⟨h.problems, hinvalid⟩
      | cons token rest =>
          dsimp only at hstep ⊢
          -- an include directive is no invalid token
          have hpassed : ∀ name, token.kind = .included name →
              ({ m with stack := ⟨source, rest⟩ :: outer } : Loader).Accounts texts := by
            intro name hkind
            refine ⟨h.problems, .trans (.of_eq ?_) hinvalid⟩
            have hplain : token.isInvalid = false := by rw [Token.isInvalid, hkind]; rfl
            simp [invalidPlaces, hplain]
          cases hkind : token.kind with
          | included name =>
              rw [hkind] at hstep
              cases hstep
              exact (hpassed name hkind).follow source name token.pos
          | _ =>
              rw [hkind] at hstep
              cases hstep
              rw [Option.toList_none, List.append_nil]
              exact ⟨h.problems, by simpa using hinvalid⟩

theorem run {last : Loader} {more : List Lexed} (h : m.Accounts texts)
    (hrun : Lexes fs options m more last) : last.Accounts (texts ++ more) := by
  induction hrun with
  | refl => rwa [List.append_nil]
  | tail _ hstep ih =>
      rw [← List.append_assoc]
      exact ih.step hstep

theorem start (text : String) (shown key : Path) : (Loader.start text shown key).Accounts
    [lex text (FileTable.empty.add shown).1 (FileTable.empty.add shown).2] := by
  have hempty : (⟨[], [], (FileTable.empty.add shown).2, [], []⟩ : Loader).Accounts [] :=
    ⟨rfl, .refl _⟩
  exact hempty.enter ⟨text, (FileTable.empty.add shown).1, shown.parent, [key]⟩ key

/-- Once nothing is to be passed on, all invalid tokens are in the stream. -/
theorem places {files : FileTable} {tokens : List Token} {problems : List Diagnostic}
    (h : (⟨[], [], files, tokens, problems⟩ : Loader).Accounts texts) :
    (invalidPlaces tokens).Perm (texts.flatMap Lexed.spoiltPlaces) := by
  simpa using h.invalid

end Accounts

end Loader

/-! ## What is handed out -/

namespace TokenStream

/-- What the diagnostics of a stream say of the texts that were lexed for it. -/
structure ReportsOn (stream : TokenStream) (texts : List Lexed) : Prop where
  /-- Each lexical error is one diagnostic, and no other error of form is found before
  the stream is parsed. -/
  lexical : stream.problems.items.filter (·.cause.isGrammatical) =
    texts.flatMap fun lexed => lexed.errors.map LexError.diagnostic
  invalid : (invalidPlaces stream.tokens).Perm (texts.flatMap Lexed.spoiltPlaces)
  kept : stream.problems.items.Subperm stream.parse.diagnostics
  /-- Whatever the parser takes an invalid token for, the parse has failed. -/
  failed : invalidPlaces stream.tokens ≠ [] → stream.parse.status = .errors

theorem problems_kept (stream : TokenStream) :
    stream.problems.items.Subperm stream.parse.diagnostics := by
  have hall : stream.parse.diagnostics.Perm (stream.draft.problems.items ++ _) :=
    Queue.sorted_perm _
  refine List.Subperm.trans ?_ hall.symm.subperm
  rw [stream.draft_alone]
  exact ((List.sublist_append_left _ _).trans (List.sublist_append_left _ _)).subperm

theorem ReportsOn.of_accounts {stream : TokenStream} {texts : List Lexed}
    (h : Loader.Accounts ⟨[], [], stream.files, stream.tokens, stream.problems.items⟩ texts) :
    stream.ReportsOn texts where
  lexical := h.problems
  invalid := h.places
  kept := stream.problems_kept
  failed := by
    intro hinvalid
    obtain ⟨place, hplace⟩ := List.exists_mem_of_ne_nil _ hinvalid
    obtain ⟨lexed, hlexed, hspoilt⟩ := List.mem_flatMap.mp (h.places.mem_iff.mp hplace)
    obtain ⟨error, herror, -⟩ := List.mem_map.mp hspoilt
    have hreported : error.diagnostic ∈ stream.problems.items := by
      have hmem : error.diagnostic ∈ stream.problems.items.filter (·.cause.isGrammatical) := by
        rw [show stream.problems.items.filter (·.cause.isGrammatical) = _ from h.problems]
        exact List.mem_flatMap.mpr ⟨lexed, hlexed, List.mem_map_of_mem (List.mem_filter.mp herror).1⟩
      exact (List.mem_filter.mp hmem).1
    have hany : stream.parse.diagnostics.any Diagnostic.isError = true :=
      List.any_eq_true.mpr ⟨error.diagnostic, stream.problems_kept.subset hreported,
        error.diagnostic_isError⟩
    unfold Parsed.status
    rw [if_pos hany]

end TokenStream

end SslFrontend
