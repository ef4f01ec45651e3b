import Mathlib.Data.List.Nodup
import SslFrontend.Proofs.Token.Clean

/-! # Where tokens stand

Lines and columns never go back while a text is read, and every lexeme takes a
character.  So in a text without directives, which would move the lines, no two
tokens have one position (`TokenStream.apart_ofText`), as long as lines and
columns fit in their words.
-/

namespace SslFrontend

/-- A text without directives. -/
def Lexer.Plain (text : String) : Prop :=
  ∀ lexeme ∈ Lexeme.chop text.toList, lexeme.cls ≠ .directive

instance (text : String) : Decidable (Lexer.Plain text) :=
  inferInstanceAs (Decidable (∀ lexeme ∈ Lexeme.chop text.toList, lexeme.cls ≠ .directive))

/-- A kind that stands for nothing but itself. -/
def TokenKind.IsIncluded : TokenKind → Prop
  | .included _ => True
  | _ => False

namespace Lexer

/-- What is read without a directive: at most one token, which stands here. -/
structure State.Takes (s s' : State) : Prop where
  line : s'.line = s.line
  column : s'.column = s.column
  marker : s'.marker = s.marker
  tokens : s'.tokens = s.tokens ∨
    ∃ kind : TokenKind, ¬kind.IsIncluded ∧ s'.tokens = s.tokens.push ⟨kind, s.pos⟩

namespace State.Takes

variable {s : State}

theorem emit {kind : TokenKind} (hk : ¬kind.IsIncluded) : s.Takes (s.emit kind) :=
  ⟨rfl, rfl, rfl, .inr ⟨kind, hk, rfl⟩⟩

theorem reject (kind : LexError.Kind) : s.Takes (s.reject kind) :=
  ⟨rfl, rfl, rfl, .inr ⟨.invalid, id, rfl⟩⟩

theorem emitOr (error : LexError.Kind) {kind : Option TokenKind}
    (hk : ∀ k, kind = some k → ¬k.IsIncluded) : s.Takes (emitOr s error kind) := by
  cases kind with
  | none => exact reject error
  | some k => exact emit (hk k rfl)

end State.Takes

theorem read_takes (s : State) {lexeme : Lexeme} (h : lexeme.cls ≠ .directive) :
    s.Takes (read s lexeme) := by
  have hword : ∀ text, ¬(word text).IsIncluded := by
    intro text
    unfold word
    split <;> exact id
  have hsome : ∀ {α : Type} {f : α → TokenKind} {o : Option α}, (∀ a, ¬(f a).IsIncluded) →
      ∀ k, o.map f = some k → ¬k.IsIncluded := by
    intro α f o hf k hk
    obtain ⟨a, -, rfl⟩ := Option.map_eq_some_iff.mp hk
    exact hf a
  unfold read
  simp only
  split
  · exact ⟨rfl, rfl, rfl, .inl rfl⟩
  · exact ⟨rfl, rfl, rfl, .inl rfl⟩
  · exact absurd ‹_› h
  · exact .emitOr _ (hsome fun _ => id)
  · refine .emitOr _ fun k hk => ?_
    unfold hexadecimal? at hk
    dsimp only at hk
    split at hk <;> cases hk
    exact id
  · refine .emitOr _ fun k hk => ?_
    unfold float? at hk
    dsimp only at hk
    split at hk <;> cases hk
    exact id
  · exact .emitOr _ (hsome fun _ => id)
  · exact .reject _
  · exact .emit (hword _)
  · exact .emit id
  · exact .reject _

/-- A text moves on, by no more than its characters. -/
structure State.Moves (s : State) (n : Nat) (s' : State) : Prop where
  marker : s'.marker = s.marker
  line : s'.line ≤ s.line + n
  column : s'.column ≤ max s.column 1 + n
  later : s.line < s'.line ∨ s.line = s'.line ∧ s.column + n = s'.column

theorem advance_moves (s : State) (text : List Char) :
    s.Moves text.length (s.advance text) := by
  unfold State.advance
  induction text generalizing s with
  | nil => exact ⟨rfl, Nat.le_refl _, Nat.le_max_left _ _, .inr ⟨rfl, rfl⟩⟩
  | cons c rest ih =>
      rw [List.foldl_cons, List.length_cons]
      by_cases hc : c = '\n'
      · obtain ⟨hmarker, hline, hcolumn, hlater⟩ := ih { s with line := s.line + 1, column := 1 }
        rw [if_pos hc]
        simp only at hmarker hline hcolumn hlater
        exact ⟨hmarker, by omega, by omega, by omega⟩
      · obtain ⟨hmarker, hline, hcolumn, hlater⟩ := ih { s with column := s.column + 1 }
        rw [if_neg hc]
        simp only at hmarker hline hcolumn hlater
        exact ⟨hmarker, by omega, by omega, by omega⟩

/-- So many characters into a text without directives: positions are places in
the text, and every token stands at one of its own that was passed. -/
structure State.Apart (file : FileId) (n : Nat) (s : State) : Prop where
  marker : s.marker = .identity file
  line : 1 ≤ s.line ∧ s.line ≤ n + 1
  column : s.column ≤ n + 1
  passed : ∀ token ∈ s.tokens, token.pos.line < s.line ∨
    token.pos.line = s.line ∧ token.pos.column < s.column
  apart : (s.tokens.toList.map Token.pos).Nodup
  plain : ∀ token ∈ s.tokens, ¬token.kind.IsIncluded

namespace State.Apart

variable {file : FileId} {n : Nat} {s : State}

theorem start (file : FileId) (files : FileTable) : (State.start file files).Apart file 0 where
  marker := rfl
  line := ⟨Nat.le_refl _, Nat.le_refl _⟩
  column := Nat.le_refl _
  passed token ht := absurd ht (by simp [State.start])
  apart := List.nodup_nil
  plain token ht := absurd ht (by simp [State.start])

theorem step {lexeme : Lexeme} (h : s.Apart file n) (hcls : lexeme.cls ≠ .directive)
    (htext : lexeme.text ≠ []) (hn : n < maxWord) :
    (step s lexeme).Apart file (n + lexeme.text.length) := by
  obtain ⟨hline, hcolumn, hmarker, htokens⟩ := read_takes s hcls
  have hmoves := advance_moves (read s lexeme) lexeme.text
  have hsize := List.length_pos_iff.mpr htext
  have hpos : s.pos = ⟨file, s.line, s.column⟩ := by
    have hl := h.line
    have hc := h.column
    rw [State.pos, h.marker, saturate_of_le (by omega), saturate_of_le (by omega),
      LineMarker.identity_position hl.1 (by omega)]
  have htoken : ∀ token ∈ (Lexer.step s lexeme).tokens,
      token ∈ s.tokens ∨ token.pos = s.pos ∧ ¬token.kind.IsIncluded := by
    intro token ht
    rw [Lexer.step, tokens_advance] at ht
    rcases htokens with hsame | ⟨kind, hkind, hpush⟩
    · exact .inl (hsame ▸ ht)
    · rw [hpush] at ht
      rcases Array.mem_push.mp ht with hold | rfl
      · exact .inl hold
      · exact .inr ⟨rfl, hkind⟩
  have hl := h.line
  have hc := h.column
  have hnext := hmoves.line
  have hright := hmoves.column
  have hlater := hmoves.later
  rw [hline] at hnext hlater
  rw [hcolumn] at hright hlater
  constructor
  · exact hmoves.marker.trans (hmarker.trans h.marker)
  · rw [Lexer.step]
    omega
  · rw [Lexer.step]
    omega
  · intro token ht
    rw [Lexer.step]
    rcases htoken token ht with hold | ⟨hat, -⟩
    · have hpassed := h.passed token hold
      omega
    · rw [hat, hpos]
      dsimp only
      omega
  · rw [Lexer.step, tokens_advance]
    rcases htokens with hsame | ⟨kind, -, hpush⟩
    · rw [hsame]
      exact h.apart
    · rw [hpush, Array.toList_push, List.map_append, List.map_singleton]
      refine List.Nodup.append h.apart (List.nodup_singleton _) ?_
      rw [List.disjoint_singleton]
      intro hmem
      obtain ⟨token, ht, hat⟩ := List.mem_map.mp hmem
      have hpassed := h.passed token (Array.mem_toList_iff.mp ht)
      rw [hat, hpos] at hpassed
      dsimp only at hpassed
      omega
  · intro token ht
    exact (htoken token ht).elim (h.plain token) And.right

theorem run {lexemes : List Lexeme} (h : s.Apart file n)
    (hcls : ∀ lexeme ∈ lexemes, lexeme.cls ≠ .directive)
    (htext : ∀ lexeme ∈ lexemes, lexeme.text ≠ [])
    (hn : n + (lexemes.flatMap Lexeme.text).length ≤ maxWord) :
    ∃ m, (lexemes.foldl Lexer.step s).Apart file m := by
  induction lexemes generalizing s n with
  | nil => exact ⟨n, h⟩
  | cons lexeme rest ih =>
      obtain ⟨hfirst, hplain⟩ := List.forall_mem_cons.mp hcls
      obtain ⟨hne, hrest⟩ := List.forall_mem_cons.mp htext
      have hsize := List.length_pos_iff.mpr hne
      rw [List.flatMap_cons, List.length_append] at hn
      exact ih (h.step hfirst hne (by omega)) hplain hrest (by omega)

end State.Apart

/-- The tokens of a text without directives. -/
theorem lex_apart {text : String} (h : Plain text) (hlength : text.length ≤ maxWord)
    (file : FileId) (files : FileTable) :
    ((lex text file files).tokens.map Token.pos).Nodup ∧
      ∀ token ∈ (lex text file files).tokens, ¬token.kind.IsIncluded := by
  have hn : 0 + ((Lexeme.chop text.toList).flatMap Lexeme.text).length ≤ maxWord := by
    rw [Lexeme.flatMap_text_chop, String.length_toList]
    omega
  obtain ⟨m, hm⟩ := (State.Apart.start file files).run h
    (fun _ => Lexeme.text_ne_nil_of_mem_chop) hn
  exact ⟨hm.apart, fun token ht => hm.plain token (Array.mem_toList_iff.mp ht)⟩

end Lexer

/-- Where there is no include, there is nothing to splice. -/
theorem Include.spliceTokens_plain {one : FileTable → String → Position → Spliced}
    {tokens : List Token} (h : ∀ token ∈ tokens, ¬token.kind.IsIncluded) (files : FileTable) :
    (spliceTokens one files tokens).tokens = tokens := by
  induction tokens generalizing files with
  | nil => rfl
  | cons token rest ih =>
      obtain ⟨hfirst, hrest⟩ := List.forall_mem_cons.mp h
      unfold spliceTokens
      split
      · rename_i hk
        rw [hk] at hfirst
        exact absurd trivial hfirst
      · exact congrArg (token :: ·) (ih hrest files)

/-- In a text without directives, positions tell tokens apart. -/
theorem TokenStream.apart_ofText (fs : FileSystem) (options : IncludeOptions) {text : String}
    (h : Lexer.Plain text) (hlength : text.length ≤ maxWord) (shown key : Path) :
    ((ofText fs options text shown key).tokens.map Token.pos).Nodup := by
  obtain ⟨hapart, hplain⟩ := Lexer.lex_apart h hlength (FileTable.empty.add shown).1
    (FileTable.empty.add shown).2
  have hspliced : (ofText fs options text shown key).tokens =
      (Lexer.lex text (FileTable.empty.add shown).1 (FileTable.empty.add shown).2).tokens := by
    simp only [ofText]
    unfold Include.expand
    exact Include.spliceTokens_plain hplain _
  rw [hspliced]
  exact hapart

end SslFrontend
