import SslFrontend.Token.Lexer

/-! # Files of tokens

Every position that the lexer makes is in a file of its table: the one it was
given, or one that a marker named and that was added for it.  An invalid token
never comes without a report.
-/

namespace SslFrontend

namespace FileTable

/-- A file id of the table. -/
def Has (table : FileTable) (id : FileId) : Prop := id.index < table.paths.length

/-- The second table is the first one with more files behind. -/
def Grows (table grown : FileTable) : Prop := table.paths <+: grown.paths

theorem Grows.refl (table : FileTable) : table.Grows table := List.prefix_rfl

theorem Grows.trans {a b c : FileTable} (h₁ : a.Grows b) (h₂ : b.Grows c) : a.Grows c :=
  List.IsPrefix.trans h₁ h₂

theorem Has.grows {table grown : FileTable} {id : FileId} (h : table.Has id)
    (hg : table.Grows grown) : grown.Has id :=
  Nat.lt_of_lt_of_le h hg.length_le

theorem add_spec (table : FileTable) (path : Path) :
    table.Grows (table.add path).2 ∧ (table.add path).2.Has (table.add path).1 := by
  unfold add
  split
  · rename_i id hfound
    obtain ⟨i, hi, rfl⟩ := Option.map_eq_some_iff.mp hfound
    exact ⟨.refl table, (List.findIdx?_eq_some_iff_getElem.mp hi).1⟩
  · exact ⟨List.prefix_append _ _, by simp [Has]⟩

end FileTable

/-- What a text comes to is in files of the table. -/
structure Lexed.Registered (lexed : Lexed) (files : FileTable) : Prop where
  grows : files.Grows lexed.files
  tokens : ∀ token ∈ lexed.tokens, lexed.files.Has token.pos.file
  eof : lexed.files.Has lexed.eof.file
  reported : ∀ token ∈ lexed.tokens, token.kind = .invalid → ∃ error, error ∈ lexed.errors

namespace Lexer

/-- Whatever was read is in a file of the table, and what could not be read is
reported. -/
structure State.Registered (s : State) : Prop where
  marker : s.files.Has s.marker.file
  tokens : ∀ token ∈ s.tokens, s.files.Has token.pos.file
  reported : ∀ token ∈ s.tokens, token.kind = .invalid → ∃ error, error ∈ s.errors

namespace State.Registered

variable {s : State}

theorem start {file : FileId} {files : FileTable} (h : files.Has file) :
    (State.start file files).Registered where
  marker := h
  tokens token ht := absurd ht (by simp [State.start])
  reported token ht := absurd ht (by simp [State.start])

theorem advance (h : s.Registered) (text : List Char) : (s.advance text).Registered := by
  unfold State.advance
  induction text generalizing s with
  | nil => exact h
  | cons c rest ih =>
      have hnext : (if c = '\n' then { s with line := s.line + 1, column := 1 }
          else { s with column := s.column + 1 } : State).Registered := by
        split
        · exact ⟨h.marker, h.tokens, h.reported⟩
        · exact ⟨h.marker, h.tokens, h.reported⟩
      exact ih hnext

theorem emit (h : s.Registered) {kind : TokenKind} (hk : kind ≠ .invalid) :
    (s.emit kind).Registered where
  marker := h.marker
  tokens token ht := by
    rcases Array.mem_push.mp ht with hold | rfl
    · exact h.tokens token hold
    · exact h.marker
  reported token ht hinvalid := by
    rcases Array.mem_push.mp ht with hold | rfl
    · exact h.reported token hold hinvalid
    · exact absurd hinvalid hk

theorem report (h : s.Registered) (kind : LexError.Kind) : (s.report kind).Registered where
  marker := h.marker
  tokens := h.tokens
  reported _ _ _ := ⟨_, Array.mem_push_self⟩

theorem reject (h : s.Registered) (kind : LexError.Kind) : (s.reject kind).Registered where
  marker := h.marker
  tokens token ht := by
    rcases Array.mem_push.mp ht with hold | rfl
    · exact h.tokens token hold
    · exact h.marker
  reported _ _ _ := ⟨_, Array.mem_push_self⟩

/-- A marker keeps the file or names one of the table. -/
theorem reset (h : s.Registered) {files : FileTable} (hg : s.files.Grows files)
    {line mapped : Nat} {file : Option FileId} (hfile : ∀ id, file = some id → files.Has id) :
    State.Registered { s with marker := s.marker.reset line mapped file, files := files } where
  marker := by
    cases file with
    | none => exact h.marker.grows hg
    | some id => exact hfile id rfl
  tokens token ht := (h.tokens token ht).grows hg
  reported := h.reported

theorem emitOr (h : s.Registered) (error : LexError.Kind) {kind : Option TokenKind}
    (hk : ∀ k, kind = some k → k ≠ .invalid) : (emitOr s error kind).Registered := by
  cases kind with
  | none => exact h.reject error
  | some k => exact h.emit (hk k rfl)

end State.Registered

theorem decimal?_ne_invalid {text : List Char} {kind : TokenKind} (h : decimal? text = some kind) :
    kind ≠ .invalid := by
  obtain ⟨n, _, rfl⟩ := Option.map_eq_some_iff.mp h
  exact TokenKind.noConfusion

theorem hexadecimal?_ne_invalid {text : List Char} {kind : TokenKind}
    (h : hexadecimal? text = some kind) : kind ≠ .invalid := by
  unfold hexadecimal? at h
  simp only at h
  split at h <;> cases h
  exact TokenKind.noConfusion

theorem float?_ne_invalid {text : List Char} {kind : TokenKind} (h : float? text = some kind) :
    kind ≠ .invalid := by
  unfold float? at h
  simp only at h
  split at h <;> cases h
  exact TokenKind.noConfusion

theorem string?_ne_invalid {text : List Char} {kind : TokenKind} (h : string? text = some kind) :
    kind ≠ .invalid := by
  obtain ⟨chars, _, rfl⟩ := Option.map_eq_some_iff.mp h
  exact TokenKind.noConfusion

theorem word_ne_invalid (text : List Char) : word text ≠ .invalid := by
  unfold word
  split <;> exact TokenKind.noConfusion

theorem readDirective_registered {s : State} (h : s.Registered) (text : List Char) :
    (readDirective s text).Registered ∧ s.files.Grows (readDirective s text).files := by
  unfold readDirective
  split
  · split
    · exact ⟨h.report _, .refl _⟩
    · exact ⟨h.emit TokenKind.noConfusion, .refl _⟩
  · exact ⟨h.reset (.refl _) (fun _ hid => nomatch hid), .refl _⟩
  · rename_i line name _
    obtain ⟨hgrows, hhas⟩ := s.files.add_spec ⟨String.ofList name⟩
    exact ⟨h.reset hgrows (by rintro id ⟨⟩; exact hhas), hgrows⟩
  · exact ⟨h, .refl _⟩
  · exact ⟨h.report _, .refl _⟩
  · exact ⟨h.report _, .refl _⟩

theorem read_registered {s : State} (h : s.Registered) (lexeme : Lexeme) :
    (read s lexeme).Registered ∧ s.files.Grows (read s lexeme).files := by
  have hor : ∀ (error : LexError.Kind) (kind : Option TokenKind),
      (∀ k, kind = some k → k ≠ .invalid) →
      (emitOr s error kind).Registered ∧ s.files.Grows (emitOr s error kind).files := by
    intro error kind hk
    refine ⟨h.emitOr error hk, ?_⟩
    cases kind <;> exact .refl _
  unfold read
  simp only
  split
  · exact ⟨h, .refl _⟩
  · exact ⟨h.report _, .refl _⟩
  · exact readDirective_registered h _
  · exact hor _ _ fun _ => decimal?_ne_invalid
  · exact hor _ _ fun _ => hexadecimal?_ne_invalid
  · exact hor _ _ fun _ => float?_ne_invalid
  · exact hor _ _ fun _ => string?_ne_invalid
  · exact ⟨h.reject _, .refl _⟩
  · exact ⟨h.emit (word_ne_invalid _), .refl _⟩
  · exact ⟨h.emit TokenKind.noConfusion, .refl _⟩
  · exact ⟨h.reject _, .refl _⟩

theorem files_advance (s : State) (text : List Char) : (s.advance text).files = s.files := by
  unfold State.advance
  induction text generalizing s with
  | nil => rfl
  | cons c rest ih =>
      rw [List.foldl_cons, ih]
      split <;> rfl

theorem foldl_registered {s : State} (h : s.Registered) (lexemes : List Lexeme) :
    (lexemes.foldl step s).Registered ∧ s.files.Grows (lexemes.foldl step s).files := by
  induction lexemes generalizing s with
  | nil => exact ⟨h, .refl _⟩
  | cons lexeme rest ih =>
      obtain ⟨hread, hgrows⟩ := read_registered h lexeme
      obtain ⟨hrest, hmore⟩ := ih (hread.advance lexeme.text)
      have hfiles : (step s lexeme).files = (read s lexeme).files := files_advance _ _
      exact ⟨hrest, hgrows.trans (hfiles ▸ hmore)⟩

theorem lex_registered (text : String) {file : FileId} {files : FileTable} (h : files.Has file) :
    (lex text file files).Registered files := by
  obtain ⟨hlast, hgrows⟩ := foldl_registered (.start h) (Lexeme.chop text.toList)
  refine ⟨hgrows, ?_, hlast.marker, ?_⟩
  · intro token ht
    exact hlast.tokens token (Array.mem_toList_iff.mp ht)
  · intro token ht hinvalid
    obtain ⟨error, herror⟩ := hlast.reported token (Array.mem_toList_iff.mp ht) hinvalid
    exact ⟨error, Array.mem_toList_iff.mpr herror⟩

end Lexer

end SslFrontend
