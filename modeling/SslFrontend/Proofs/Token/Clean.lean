import SslFrontend.Include.Splice

/-! # The tokens of a text

No string that the lexer makes holds a NUL, for a literal that would is rejected
where it is read, and no token that it makes is the end of the file.  Includes
add tokens of other texts only, so this is true of the tokens of a stream
(`TokenStream.clean_ofText`, `TokenStream.inner_ofText`).

A lexeme takes at least one character and comes to at most one token.  So a
text without includes has at most as many tokens as characters
(`TokenStream.length_ofText_none`).
-/

namespace SslFrontend

/-- A string that the string space takes. -/
def TokenKind.Clean (kind : TokenKind) : Prop :=
  ∀ text, kind = .str text → '\x00' ∉ text.toList

instance : DecidablePred TokenKind.Clean
  | .str text => decidable_of_iff ('\x00' ∉ text.toList)
      ⟨fun h _ heq => TokenKind.str.inj heq ▸ h, fun h => h text rfl⟩
  | .int _ | .float _ | .ident _ | .keyword _ | .mark _ | .included _ | .invalid | .eof =>
    isTrue nofun

/-- No string among the tokens holds a NUL. -/
def CleanTokens (tokens : List Token) : Prop := ∀ token ∈ tokens, token.kind.Clean

instance (tokens : List Token) : Decidable (CleanTokens tokens) :=
  inferInstanceAs (Decidable (∀ token ∈ tokens, token.kind.Clean))

namespace CleanTokens

variable {token : Token} {first second : List Token}

theorem nil : CleanTokens [] := nofun

theorem cons (h : CleanTokens (token :: second)) : CleanTokens second :=
  fun other hother => h other (List.mem_cons_of_mem _ hother)

theorem left (h : CleanTokens (first ++ second)) : CleanTokens first :=
  fun other hother => h other (List.mem_append_left _ hother)

theorem right (h : CleanTokens (first ++ second)) : CleanTokens second :=
  fun other hother => h other (List.mem_append_right _ hother)

theorem append (h₁ : CleanTokens first) (h₂ : CleanTokens second) :
    CleanTokens (first ++ second) := fun token htoken =>
  (List.mem_append.mp htoken).elim (h₁ token) (h₂ token)

end CleanTokens

/-- A kind that the lexer makes. -/
structure TokenKind.Made (kind : TokenKind) : Prop where
  clean : kind.Clean
  inner : kind ≠ .eof

namespace Quoted

theorem escaped?_clean {c : Char} {text : List Char} (h : escaped? c = some text) :
    '\x00' ∉ text := by
  unfold escaped? at h
  split at h <;> cases h <;> simp_all
  rintro rfl
  simp_all

theorem decode?_clean {text decoded : List Char} (h : decode? text = some decoded) :
    '\x00' ∉ decoded := by
  fun_induction decode? text generalizing decoded with
  | case1 => cases h; simp
  | case2 => cases h; simp
  | case3 c rest text tail htail htext ih =>
      cases h
      exact List.not_mem_append (escaped?_clean htext) (ih htail)
  | case4 => cases h
  | case5 => cases h
  | case6 c rest _ _ hc ih =>
      obtain ⟨tail, htail, rfl⟩ := Option.map_eq_some_iff.mp h
      simp [Ne.symm hc, ih htail]

end Quoted

namespace Lexer

theorem string?_made {text : List Char} {kind : TokenKind} (h : string? text = some kind) :
    kind.Made := by
  obtain ⟨chars, hchars, rfl⟩ := Option.map_eq_some_iff.mp h
  refine ⟨?_, nofun⟩
  rintro text ⟨⟩
  simpa using Quoted.decode?_clean hchars

theorem word_made (text : List Char) : (word text).Made := by
  unfold word
  split <;> exact ⟨nofun, nofun⟩

theorem decimal?_made {text : List Char} {kind : TokenKind} (h : decimal? text = some kind) :
    kind.Made := by
  obtain ⟨n, _, rfl⟩ := Option.map_eq_some_iff.mp h
  exact ⟨nofun, nofun⟩

theorem hexadecimal?_made {text : List Char} {kind : TokenKind}
    (h : hexadecimal? text = some kind) : kind.Made := by
  unfold hexadecimal? at h
  simp only at h
  split at h <;> cases h
  exact ⟨nofun, nofun⟩

theorem float?_made {text : List Char} {kind : TokenKind} (h : float? text = some kind) :
    kind.Made := by
  unfold float? at h
  simp only at h
  split at h <;> cases h
  exact ⟨nofun, nofun⟩

/-- What a step from `s` can lead to: the tokens, and perhaps one more. -/
def State.Adds (s s' : State) : Prop :=
  s'.tokens = s.tokens ∨ ∃ token : Token, s'.tokens = s.tokens.push token ∧ token.kind.Made

namespace State.Adds

variable {s : State}

theorem emit {kind : TokenKind} (hk : kind.Made) : s.Adds (s.emit kind) :=
  .inr ⟨_, rfl, hk⟩

theorem reject (kind : LexError.Kind) : s.Adds (s.reject kind) :=
  .inr ⟨_, rfl, nofun, nofun⟩

theorem emitOr (error : LexError.Kind) {kind : Option TokenKind}
    (hk : ∀ k, kind = some k → k.Made) : s.Adds (emitOr s error kind) := by
  cases kind with
  | none => exact reject error
  | some k => exact emit (hk k rfl)

end State.Adds

theorem readDirective_adds (s : State) (text : List Char) : s.Adds (readDirective s text) := by
  unfold readDirective
  split
  · split
    · exact .inl rfl
    · exact .emit ⟨nofun, nofun⟩
  all_goals exact .inl rfl

theorem read_adds (s : State) (lexeme : Lexeme) : s.Adds (read s lexeme) := by
  unfold read
  simp only
  split
  · exact .inl rfl
  · exact .inl rfl
  · exact readDirective_adds s _
  · exact .emitOr _ fun _ => decimal?_made
  · exact .emitOr _ fun _ => hexadecimal?_made
  · exact .emitOr _ fun _ => float?_made
  · exact .emitOr _ fun _ => string?_made
  · exact .reject _
  · exact .emit (word_made _)
  · exact .emit ⟨nofun, nofun⟩
  · exact .reject _

theorem tokens_advance (s : State) (text : List Char) : (s.advance text).tokens = s.tokens := by
  unfold State.advance
  induction text generalizing s with
  | nil => rfl
  | cons c rest ih =>
      rw [List.foldl_cons, ih]
      split <;> rfl

theorem errors_advance (s : State) (text : List Char) : (s.advance text).errors = s.errors := by
  unfold State.advance
  induction text generalizing s with
  | nil => rfl
  | cons c rest ih =>
      rw [List.foldl_cons, ih]
      split <;> rfl

theorem step_adds (s : State) (lexeme : Lexeme) : s.Adds (step s lexeme) := by
  have hread := read_adds s lexeme
  unfold State.Adds at hread ⊢
  rwa [step, tokens_advance]

/-- Each token was there before or is made, and there is at most one for each
lexeme. -/
theorem foldl_adds (lexemes : List Lexeme) (s : State) :
    (∀ token ∈ (lexemes.foldl step s).tokens, token ∈ s.tokens ∨ token.kind.Made) ∧
      (lexemes.foldl step s).tokens.size ≤ s.tokens.size + lexemes.length := by
  induction lexemes generalizing s with
  | nil => exact ⟨fun _ h => .inl h, Nat.le_refl _⟩
  | cons lexeme rest ih =>
      obtain ⟨hmade, hsize⟩ := ih (step s lexeme)
      rw [List.foldl_cons, List.length_cons]
      rcases step_adds s lexeme with hsame | ⟨made, hpush, hkind⟩
      · rw [hsame] at hmade hsize
        exact ⟨hmade, by omega⟩
      · rw [hpush] at hmade hsize
        refine ⟨fun token ht => ?_, by simp at hsize; omega⟩
        rcases hmade token ht with hold | hnew
        · rcases Array.mem_push.mp hold with hold | rfl
          · exact .inl hold
          · exact .inr hkind
        · exact .inr hnew

theorem lex_made (text : String) (file : FileId) (files : FileTable) :
    ∀ token ∈ (lex text file files).tokens, token.kind.Made := by
  intro token ht
  have hmade := (foldl_adds (Lexeme.chop text.toList) (.start file files)).1 token
    (Array.mem_toList_iff.mp ht)
  exact hmade.resolve_left (by simp [State.start])

theorem lex_length (text : String) (file : FileId) (files : FileTable) :
    (lex text file files).tokens.length ≤ text.length := by
  have hsize := (foldl_adds (Lexeme.chop text.toList) (.start file files)).2
  have hchop := Lexeme.length_chop text.toList
  have hstart : (State.start file files).tokens.size = 0 := rfl
  rw [String.length_toList] at hchop
  simp only [lex, Array.length_toList]
  omega

end Lexer

namespace Include

theorem spliceTokens_made {one : FileTable → String → Position → Spliced}
    (hone : ∀ files name pos, ∀ token ∈ (one files name pos).tokens, token.kind.Made)
    {tokens : List Token} (h : ∀ token ∈ tokens, token.kind.Made) (files : FileTable) :
    ∀ token ∈ (spliceTokens one files tokens).tokens, token.kind.Made := by
  induction tokens generalizing files with
  | nil => exact h
  | cons token rest ih =>
      obtain ⟨hfirst, hrest⟩ := List.forall_mem_cons.mp h
      unfold spliceTokens
      split
      · intro other hother
        exact (List.mem_append.mp hother).elim (hone _ _ _ other) (ih hrest _ other)
      · exact List.forall_mem_cons.mpr ⟨hfirst, ih hrest files⟩

theorem expand_made (fs : FileSystem) (options : IncludeOptions) (left : Nat)
    (source : SourceText) (files : FileTable) :
    ∀ token ∈ (expand fs options left source files).1.tokens, token.kind.Made := by
  -- At depth zero no file is opened; above it the files that are opened come to such tokens.
  induction left generalizing source files with
  | zero => exact spliceTokens_made (fun _ _ _ _ h => absurd h List.not_mem_nil) (Lexer.lex_made _ _ _) _
  | succ left ih =>
      refine spliceTokens_made (fun files name pos => ?_) (Lexer.lex_made _ _ _) _
      unfold expandOne
      split
      · exact fun _ h => absurd h List.not_mem_nil
      · exact ih _ _

theorem spliceTokens_length {one : FileTable → String → Position → Spliced}
    (hone : ∀ files name pos, (one files name pos).tokens = []) (files : FileTable)
    (tokens : List Token) : (spliceTokens one files tokens).tokens.length ≤ tokens.length := by
  induction tokens generalizing files with
  | nil => exact Nat.le_refl _
  | cons token rest ih =>
      unfold spliceTokens
      split
      · rename_i name _
        have hrest := ih (one files name token.pos).files
        simp only [hone, List.nil_append, List.length_cons]
        omega
      · exact Nat.succ_le_succ (ih files)

/-- Where there are no files, an include leaves nothing. -/
theorem expandOne_none (options : IncludeOptions)
    (inner : SourceText → FileTable → Spliced × Position) (source : SourceText)
    (files : FileTable) (name : String) (pos : Position) :
    (expandOne .none options inner source files name pos).tokens = [] := by
  have hclosed : ∀ paths : List Path, paths.find? FileSystem.none.isFile = .none := fun paths =>
    List.find?_eq_none.mpr fun _ _ => Bool.false_ne_true
  simp only [expandOne, open?, hclosed]

end Include

namespace TokenStream

theorem made_ofText (fs : FileSystem) (options : IncludeOptions) (text : String)
    (shown key : Path) : ∀ token ∈ (ofText fs options text shown key).tokens, token.kind.Made :=
  Include.expand_made fs options options.maxDepth _ _

/-- No string of a stream holds a NUL. -/
theorem clean_ofText (fs : FileSystem) (options : IncludeOptions) (text : String)
    (shown key : Path) : CleanTokens (ofText fs options text shown key).tokens :=
  fun token ht => (made_ofText fs options text shown key token ht).clean

theorem inner_ofText (fs : FileSystem) (options : IncludeOptions) (text : String)
    (shown key : Path) : ∀ token ∈ (ofText fs options text shown key).tokens, token.kind ≠ .eof :=
  fun token ht => (made_ofText fs options text shown key token ht).inner

theorem length_ofText_none (options : IncludeOptions) (text : String) (shown key : Path) :
    (ofText .none options text shown key).tokens.length ≤ text.length := by
  refine Nat.le_trans ?_ (Lexer.lex_length text (FileTable.empty.add shown).1
    (FileTable.empty.add shown).2)
  simp only [ofText]
  unfold Include.expand
  cases options.maxDepth with
  | zero => exact Include.spliceTokens_length (fun _ _ _ => rfl) _ _
  | succ left => exact Include.spliceTokens_length (Include.expandOne_none _ _ _) _ _

end TokenStream

end SslFrontend
