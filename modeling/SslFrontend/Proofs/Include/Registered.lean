import SslFrontend.Include.Splice
import SslFrontend.Proofs.Run.Reading
import SslFrontend.Proofs.Token.Registered

/-! # Files of streams

Expanding includes puts tokens of other files between those of a text, and adds
the files to the table.  So every position of a stream that is read from a text
is in a file of the stream, and an invalid token in it never comes without an
error among its problems.
-/

namespace SslFrontend

/-- What was spliced is in files of a table that has grown. -/
structure Spliced.Registered (spliced : Spliced) (files : FileTable) : Prop where
  grows : files.Grows spliced.files
  tokens : ∀ token ∈ spliced.tokens, spliced.files.Has token.pos.file

/-- Each invalid token comes with an error. -/
def Spliced.Reported (spliced : Spliced) : Prop :=
  ∀ token ∈ spliced.tokens, token.kind = .invalid → ∃ d ∈ spliced.problems, d.isError = true

namespace Include

/-- What stands for an include directive is registered and reported. -/
def Expands (expand : FileTable → String → Position → Spliced) : Prop :=
  ∀ files name pos, (expand files name pos).Registered files ∧ (expand files name pos).Reported

theorem spliceTokens_registered {expand : FileTable → String → Position → Spliced}
    (he : Expands expand) {files : FileTable} {tokens : List Token}
    (ht : ∀ token ∈ tokens, files.Has token.pos.file) :
    (spliceTokens expand files tokens).Registered files := by
  induction tokens generalizing files with
  | nil => exact ⟨.refl files, ht⟩
  | cons token rest ih =>
      obtain ⟨hfirst, hrest⟩ := List.forall_mem_cons.mp ht
      unfold spliceTokens
      split
      · rename_i name _
        obtain ⟨hinner, _⟩ := he files name token.pos
        have houter := ih fun t h => (hrest t h).grows hinner.grows
        refine ⟨hinner.grows.trans houter.grows, ?_⟩
        intro t h
        rcases List.mem_append.mp h with h | h
        · exact (hinner.tokens t h).grows houter.grows
        · exact houter.tokens t h
      · have houter := ih hrest
        refine ⟨houter.grows, ?_⟩
        intro t h
        rcases List.mem_cons.mp h with rfl | h
        · exact hfirst.grows houter.grows
        · exact houter.tokens t h

/-- An invalid token was there before, or is reported. -/
theorem spliceTokens_reported {expand : FileTable → String → Position → Spliced}
    (he : Expands expand) (files : FileTable) (tokens : List Token) :
    ∀ token ∈ (spliceTokens expand files tokens).tokens, token.kind = .invalid →
      token ∈ tokens ∨ ∃ d ∈ (spliceTokens expand files tokens).problems, d.isError = true := by
  induction tokens generalizing files with
  | nil => exact fun token h => absurd h List.not_mem_nil
  | cons first rest ih =>
      intro token h hinvalid
      unfold spliceTokens at h ⊢
      split at h
      · rename_i name _
        rcases List.mem_append.mp h with h | h
        · obtain ⟨d, hd, herror⟩ := (he files name first.pos).2 token h hinvalid
          exact .inr ⟨d, List.mem_append_left _ hd, herror⟩
        · rcases ih _ token h hinvalid with hold | ⟨d, hd, herror⟩
          · exact .inl (List.mem_cons_of_mem _ hold)
          · exact .inr ⟨d, List.mem_append_right _ hd, herror⟩
      · rcases List.mem_cons.mp h with rfl | h
        · exact .inl List.mem_cons_self
        · rcases ih _ token h hinvalid with hold | hreported
          · exact .inl (List.mem_cons_of_mem _ hold)
          · exact .inr hreported

theorem expandOne_expands {fs : FileSystem} {options : IncludeOptions}
    {inner : SourceText → FileTable → Spliced × Position} {source : SourceText}
    (hi : ∀ source files, files.Has source.file →
      (inner source files).1.Registered files ∧ (inner source files).1.Reported) :
    Expands (expandOne fs options inner source) := by
  intro files name pos
  unfold expandOne
  split
  · exact ⟨⟨.refl files, fun _ h => absurd h List.not_mem_nil⟩,
      fun _ h => absurd h List.not_mem_nil⟩
  · rename_i path text _
    obtain ⟨hgrows, hhas⟩ := files.add_spec path
    obtain ⟨hregistered, hreported⟩ := hi
      ⟨text, (files.add path).1, path.parent, fs.canonical path :: source.chain⟩
      (files.add path).2 hhas
    exact ⟨⟨hgrows.trans hregistered.grows, hregistered.tokens⟩, hreported⟩

theorem splice_registered {one : FileTable → String → Position → Spliced} (hone : Expands one)
    {lexed : Lexed} {files : FileTable} (hlexed : lexed.Registered files) :
    let spliced := spliceTokens one lexed.files lexed.tokens
    let whole : Spliced := ⟨spliced.tokens, spliced.files,
      lexed.errors.map LexError.diagnostic ++ spliced.problems⟩
    (whole.Registered files ∧ whole.Reported) ∧ whole.files.Has lexed.eof.file := by
  have hregistered := spliceTokens_registered hone hlexed.tokens
  refine ⟨⟨⟨hlexed.grows.trans hregistered.grows, hregistered.tokens⟩, ?_⟩,
    hlexed.eof.grows hregistered.grows⟩
  intro token ht hinvalid
  rcases spliceTokens_reported hone lexed.files lexed.tokens token ht hinvalid with
    hold | ⟨d, hd, herror⟩
  · obtain ⟨error, he⟩ := hlexed.reported token hold hinvalid
    exact ⟨error.diagnostic, List.mem_append_left _ (List.mem_map_of_mem he),
      error.diagnostic_isError⟩
  · exact ⟨d, List.mem_append_right _ hd, herror⟩

theorem expand_registered (fs : FileSystem) (options : IncludeOptions) (left : Nat)
    (source : SourceText) (files : FileTable) (h : files.Has source.file) :
    ((expand fs options left source files).1.Registered files ∧
      (expand fs options left source files).1.Reported) ∧
      (expand fs options left source files).1.files.Has
        (expand fs options left source files).2.file := by
  -- At depth zero no file is opened, and each marker is reported where it stands.
  induction left generalizing source files with
  | zero =>
      refine splice_registered (fun files name pos => ?_) (Lexer.lex_registered source.text h)
      exact ⟨⟨.refl files, fun _ h => absurd h List.not_mem_nil⟩,
        fun _ h => absurd h List.not_mem_nil⟩
  | succ left ih =>
      have hinner : Expands (expandOne fs options (expand fs options left) source) :=
        expandOne_expands fun source files h => (ih source files h).1
      exact splice_registered hinner (Lexer.lex_registered source.text h)

end Include

namespace TokenStream

/-- Every position of the stream is in one of its files. -/
def Registered (stream : TokenStream) : Prop :=
  ∀ pos, stream.Has pos → stream.files.Has pos.file

/-- Each invalid token of the stream comes with an error. -/
def Reported (stream : TokenStream) : Prop :=
  ∀ token ∈ stream.tokens, token.kind = .invalid →
    ∃ d ∈ stream.problems.items, d.isError = true

variable (fs : FileSystem) (options : IncludeOptions) (text : String) (shown key : Path)

theorem expand_ofText :
    let file := (FileTable.empty.add shown).1
    let files := (FileTable.empty.add shown).2
    let found := Include.expand fs options options.maxDepth ⟨text, file, shown.parent, [key]⟩ files
    (found.1.Registered files ∧ found.1.Reported) ∧ found.1.files.Has found.2.file :=
  Include.expand_registered fs options options.maxDepth _ _ (FileTable.add_spec _ shown).2

theorem registered_ofText : (ofText fs options text shown key).Registered := by
  obtain ⟨⟨hregistered, _⟩, heof⟩ := expand_ofText fs options text shown key
  rintro pos (rfl | ⟨token, ht, rfl⟩)
  · exact heof
  · exact hregistered.tokens token ht

theorem reported_ofText : (ofText fs options text shown key).Reported :=
  (expand_ofText fs options text shown key).1.2

end TokenStream

end SslFrontend
