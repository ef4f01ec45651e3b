import SslFrontend.Proofs.Spelling.Gap
import SslFrontend.Proofs.Symbol.Pool
import SslFrontend.Proofs.Token.Clean

/-! # Lexing inverts spelling

Every token but a float has spellings: keywords in any mix of letter cases,
numbers in either base, texts between quotes.  However a list of tokens is
spelled, and whatever separates them, the lexer reads just these tokens and
reports nothing.  Main statement: `lexing_inverts_spelling`.
-/

namespace SslFrontend

/-! ## Spelling -/

/-- The ways in which a token is written. -/
inductive TokenKind.SpelledBy : TokenKind → List Char → Prop
  | keyword (word : Keyword) {text : List Char}
      (h : text.map Char.toLower = word.spelling.toList) : SpelledBy (.keyword word) text
  | mark (sign : Mark) : SpelledBy (.mark sign) sign.spelling.toList
  | ident {first : Char} {rest : List Char} (hfirst : Lexeme.isWordStart first = true)
      (hrest : ∀ c ∈ rest, Lexeme.isWordChar c = true)
      (hword : ∀ word : Keyword, (first :: rest).map Char.toLower ≠ word.spelling.toList) :
      SpelledBy (.ident (String.ofList (first :: rest))) (first :: rest)
  | decimal {v : Int32} {text : List Char} {n : Nat} (h : Numeral 10 text n) (hn : n < 2 ^ 32)
      (hv : Word n v) : SpelledBy (.int v) text
  | hexadecimal {v : Int32} {mark : Char} {text : List Char} {n : Nat}
      (hmark : mark = 'x' ∨ mark = 'X') (h : Numeral 16 text n) (hn : n < 2 ^ 32)
      (hv : Word n v) : SpelledBy (.int v) ('0' :: mark :: text)
  | str {text : String} (h : '\x00' ∉ text.toList) :
      SpelledBy (.str text) ('"' :: (Quoted.encode text.toList ++ ['"']))

/-- What may separate two tokens: a gap that begins with a blank or a line break. -/
structure Separator (gap : List Char) : Prop where
  between : Lexeme.Gap gap
  breaks : ∃ c, gap.head? = some c ∧ Lexeme.IsBreak c

/-- Tokens written one after the other, with separators between them, and perhaps one
behind the last of them. -/
inductive Written : List TokenKind → List Char → Prop
  | nil : Written [] []
  | last {kind : TokenKind} {text : List Char} (h : kind.SpelledBy text) : Written [kind] text
  | cons {kind : TokenKind} {kinds : List TokenKind} {text gap rest : List Char}
      (h : kind.SpelledBy text) (hgap : Separator gap) (hrest : Written kinds rest) :
      Written (kind :: kinds) (text ++ gap ++ rest)

/-! ## Reading one spelling -/

/-- A lexeme that is read as a token, without a report. -/
def Lexeme.ReadsAs (lexeme : Lexeme) (kind : TokenKind) : Prop :=
  ∀ s : Lexer.State, Lexer.read s lexeme = s.emit kind

namespace Keyword

theorem ofWord?_of_spelling {word : Keyword} {text : List Char}
    (h : text.map Char.toLower = word.spelling.toList) : ofWord? text = some word := by
  unfold ofWord?
  rw [h]
  cases word <;> decide

theorem ofWord?_eq_none {text : List Char}
    (h : ∀ word : Keyword, text.map Char.toLower ≠ word.spelling.toList) :
    ofWord? text = none := by
  refine List.find?_eq_none.mpr fun word _ heq => h word ?_
  exact (beq_iff_eq.mp heq).symm

theorem isWordStart_of_toLower {c : Char} (h : Lexeme.isWordStart c.toLower = true) :
    Lexeme.isWordStart c = true := by
  unfold Char.toLower at h
  split at h
  · rename_i hupper
    simp only [Lexeme.isWordStart, Bool.or_eq_true, Bool.and_eq_true, decide_eq_true_eq]
    exact .inl (.inr hupper)
  · exact h

/-- Keywords are words, in any mix of letter cases. -/
theorem isWordStart_of_spelling {word : Keyword} {text : List Char}
    (h : text.map Char.toLower = word.spelling.toList) :
    ∃ first rest, text = first :: rest ∧ Lexeme.isWordStart first = true ∧
      ∀ c ∈ rest, Lexeme.isWordStart c = true := by
  have hall : word.spelling.toList.all Lexeme.isWordStart = true := by
    cases word <;> decide
  have hletters : ∀ c ∈ text, Lexeme.isWordStart c = true := fun c hc =>
    isWordStart_of_toLower (List.all_eq_true.mp hall _ (h ▸ List.mem_map_of_mem hc))
  cases text with
  | nil => cases word <;> exact absurd h (by decide)
  | cons first rest => exact ⟨first, rest, rfl, List.forall_mem_cons.mp hletters⟩

end Keyword

/-- The next lexeme of a spelling is all of it, if a break follows. -/
theorem TokenKind.SpelledBy.significant_eq {kind : TokenKind} {text rest : List Char}
    (h : kind.SpelledBy text) (hrest : Lexeme.Breaks rest) :
    ∃ lexeme, Lexeme.significant (text ++ rest) = lexeme :: Lexeme.significant rest ∧
      lexeme.ReadsAs kind := by
  cases h with
  | keyword word h =>
      obtain ⟨first, body, rfl, hfirst, hbody⟩ := Keyword.isWordStart_of_spelling h
      have hmeasure := Lexeme.measure_word hfirst
        (fun c hc => Bool.or_eq_true_iff.mpr (.inl (hbody c hc))) hrest
      refine ⟨_, Lexeme.significant_cons hmeasure nofun, fun s => ?_⟩
      have hword : Lexer.word (first :: body) = .keyword word := by
        rw [Lexer.word, Keyword.ofWord?_of_spelling h]
      exact congrArg s.emit hword
  | mark sign =>
      obtain ⟨first, body, htext, hmeasure⟩ := Lexeme.measure_mark sign hrest
      rw [htext]
      exact ⟨_, Lexeme.significant_cons hmeasure nofun, fun _ => rfl⟩
  | @ident first body hfirst hbody hword =>
      have hmeasure := Lexeme.measure_word hfirst hbody hrest
      refine ⟨_, Lexeme.significant_cons hmeasure nofun, fun s => ?_⟩
      have hname : Lexer.word (first :: body) = .ident (String.ofList (first :: body)) := by
        rw [Lexer.word, Keyword.ofWord?_eq_none hword]
      exact congrArg s.emit hname
  | @decimal v _ n h hn hv =>
      have hdigits := h.forall_mem fun _ _ hc => hc.decimal.1
      obtain ⟨first, body, rfl⟩ := List.exists_cons_of_ne_nil h.1
      obtain ⟨hfirst, hbody⟩ := List.forall_mem_cons.mp hdigits
      have hmeasure : Lexeme.measure first (body ++ rest) = (.decimal, body.length) := by
        rw [Lexeme.measure_digit hfirst]
        exact Lexeme.measureNumber_decimal hbody hrest
      refine ⟨_, Lexeme.significant_cons hmeasure nofun, fun s => ?_⟩
      have hread := Lexer.decimal?_numeral h (Nat.le_of_lt_succ hn)
      rw [Lexer.intOfWord, hv.ofNat_eq] at hread
      show Lexer.emitOr s _ (Lexer.decimal? (first :: body)) = _
      rw [hread]
      rfl
  | @hexadecimal v mark digits n hmark h hn hv =>
      have hdigits := h.forall_mem fun _ _ hc => hc.hexadecimal.1
      have hmeasure := Lexeme.measureNumber_hexadecimal hmark h.1 hdigits hrest
      rw [← Lexeme.measure_digit (by decide)] at hmeasure
      refine ⟨_, Lexeme.significant_cons hmeasure nofun, fun s => ?_⟩
      have hread := Lexer.hexadecimal?_numeral h (Nat.le_of_lt_succ hn) mark
      rw [Lexer.intOfWord, hv.ofNat_eq] at hread
      show Lexer.emitOr s _ (Lexer.hexadecimal? ('0' :: mark :: digits)) = _
      rw [hread]
      rfl
  | @str text h =>
      have hmeasure : Lexeme.measure '"' (Quoted.encode text.toList ++ ['"'] ++ rest) =
          (.string, (Quoted.encode text.toList ++ ['"']).length) := by
        rw [List.append_assoc, List.length_append]
        exact Lexeme.measureString_encode text.toList rest
      refine ⟨_, Lexeme.significant_cons hmeasure nofun, fun s => ?_⟩
      have hread : Lexer.string? ('"' :: (Quoted.encode text.toList ++ ['"'])) =
          some (.str text) := by
        have hinside : (('"' :: (Quoted.encode text.toList ++ ['"'])).drop 1).dropLast =
            Quoted.encode text.toList := List.dropLast_concat
        rw [Lexer.string?, hinside, Quoted.decode?_encode h]
        exact congrArg (fun t => some (TokenKind.str t)) String.ofList_toList
      show Lexer.emitOr s _ (Lexer.string? _) = _
      rw [hread]
      rfl

/-! ## Reading a text -/

theorem Separator.breaks_append {gap : List Char} (h : Separator gap) (rest : List Char) :
    Lexeme.Breaks (gap ++ rest) := by
  obtain ⟨c, hc, hbreak⟩ := h.breaks
  intro d hd
  rw [List.head?_append, hc] at hd
  obtain rfl : c = d := Option.some.inj hd
  exact hbreak

/-- The lexemes that count are those of the tokens. -/
theorem Written.significant_eq {kinds : List TokenKind} {text : List Char}
    (h : Written kinds text) :
    List.Forall₂ Lexeme.ReadsAs (Lexeme.significant text) kinds := by
  induction h with
  | nil => rw [Lexeme.significant_nil]; exact .nil
  | last h =>
      have hends : Lexeme.Breaks [] := nofun
      obtain ⟨lexeme, hsignificant, hreads⟩ := h.significant_eq hends
      rw [List.append_nil, Lexeme.significant_nil] at hsignificant
      rw [hsignificant]
      exact .cons hreads .nil
  | @cons kind kinds text gap rest h hgap _ ih =>
      obtain ⟨lexeme, hsignificant, hreads⟩ := h.significant_eq (hgap.breaks_append rest)
      rw [List.append_assoc, hsignificant, Lexeme.significant_gap hgap.between]
      exact .cons hreads ih

namespace Lexer

/-- Lexemes that are passed over leave nothing, and each other one its token. -/
theorem foldl_step_reads {lexemes : List Lexeme} {kinds : List TokenKind} (s : State)
    (h : List.Forall₂ Lexeme.ReadsAs (lexemes.filter (·.cls ≠ .skipped)) kinds) :
    (lexemes.foldl step s).tokens.toList.map Token.kind = s.tokens.toList.map Token.kind ++ kinds ∧
      (lexemes.foldl step s).errors = s.errors := by
  induction lexemes generalizing s kinds with
  | nil =>
      cases h
      exact ⟨(List.append_nil _).symm, rfl⟩
  | cons lexeme rest ih =>
      rw [List.foldl_cons]
      by_cases hskip : lexeme.cls = .skipped
      · rw [List.filter_cons_of_neg (by simp [hskip])] at h
        have hread : read s lexeme = s := by
          unfold read
          rw [hskip]
        obtain ⟨htokens, herrors⟩ := ih (step s lexeme) h
        rw [htokens, herrors, step, hread, tokens_advance, errors_advance]
        exact ⟨rfl, rfl⟩
      · rw [List.filter_cons_of_pos (by simp [hskip])] at h
        cases h with
        | @cons _ kind _ more hreads hmore =>
            obtain ⟨htokens, herrors⟩ := ih (step s lexeme) hmore
            rw [htokens, herrors, step, hreads s, tokens_advance, errors_advance]
            simp [State.emit]

end Lexer

/-! ## Payloads -/

theorem TokenKind.SpelledBy.clean {kind : TokenKind} {spelling : List Char} {text : String}
    (h : kind.SpelledBy spelling) (ht : kind.text? = some text) : '\x00' ∉ text.toList := by
  cases h with
  | keyword | mark | decimal | hexadecimal => cases ht
  | str h =>
      cases ht
      exact h
  | @ident first rest hfirst hrest _ =>
      cases ht
      rw [String.toList_ofList]
      intro hnul
      rcases List.mem_cons.mp hnul with rfl | hin
      · exact absurd hfirst (by decide)
      · exact absurd (hrest _ hin) (by decide)

/-! ## The theorem -/

/-- A text is read as these tokens and its end: without a report, and with the texts
of the tokens, and no others, in the pool. -/
structure Lexed.Reads (lexed : Lexed) (kinds : List TokenKind) : Prop where
  tokens : (lexed.tokens ++ [(⟨.eof, lexed.eof⟩ : Token)]).map Token.kind = kinds ++ [.eof]
  errors : lexed.errors = []
  texts : ∀ text, (∃ handle, lexed.texts.resolve handle = .ok text) ↔
    ∃ kind ∈ kinds, kind.text? = some text

theorem Written.clean {kinds : List TokenKind} {spelling : List Char}
    (h : Written kinds spelling) :
    ∀ kind ∈ kinds, ∀ text, kind.text? = some text → '\x00' ∉ text.toList := by
  induction h with
  | nil => exact fun _ h => absurd h List.not_mem_nil
  | last h => exact List.forall_mem_singleton.mpr fun _ => h.clean
  | cons h _ _ ih => exact List.forall_mem_cons.mpr ⟨fun _ => h.clean, ih⟩

/-- However tokens are spelled and separated, just these tokens are read. -/
theorem lexing_inverts_spelling {kinds : List TokenKind} {lead spelling : List Char}
    (hlead : Lexeme.Gap lead) (h : Written kinds spelling) (file : FileId) (files : FileTable) :
    (Lexer.lex (String.ofList (lead ++ spelling)) file files).Reads kinds := by
  have hsignificant := h.significant_eq
  rw [← Lexeme.significant_gap hlead, ← String.toList_ofList (l := lead ++ spelling)] at hsignificant
  obtain ⟨hkinds, herrors⟩ := Lexer.foldl_step_reads (.start file files) hsignificant
  have hread : (Lexer.lex (String.ofList (lead ++ spelling)) file files).tokens.map Token.kind =
      kinds := hkinds
  constructor
  · rw [List.map_append, hread]
    rfl
  · exact congrArg Array.toList herrors
  · intro text
    have htexts : (Lexer.lex (String.ofList (lead ++ spelling)) file files).tokens.filterMap
        (fun token => token.kind.text?) = kinds.filterMap TokenKind.text? := by
      rw [← hread, List.filterMap_map]
      rfl
    have hclean : ∀ text ∈ kinds.filterMap TokenKind.text?, '\x00' ∉ text.toList := by
      intro text ht
      obtain ⟨kind, hkind, ht⟩ := List.mem_filterMap.mp ht
      exact h.clean kind hkind text ht
    rw [Pool.resolve_iff, Lexed.texts, htexts, Pool.mem_internAll hclean, List.mem_filterMap]
    exact or_iff_right List.not_mem_nil

/-- Neighbours that would make one lexeme, or a comment, if nothing stood between them. -/
theorem lexing_inverts_spelling_neighbours :
    (Lexeme.Gap "//\n".toList ∧
      Written [.keyword .kwIn, .int 10, .mark .slash, .ident "line", .str "\""]
        ("iN".toList ++ "\n".toList ++ ("0xA".toList ++ " /*/*/".toList ++
          ("/".toList ++ " ".toList ++ ("line".toList ++ " ".toList ++ "\"\\\"\"".toList))))) ∧
      (Lexer.lex (String.ofList ("//\n".toList ++
        ("iN".toList ++ "\n".toList ++ ("0xA".toList ++ " /*/*/".toList ++
          ("/".toList ++ " ".toList ++ ("line".toList ++ " ".toList ++ "\"\\\"\"".toList))))))
        .primary .empty).Reads [.keyword .kwIn, .int 10, .mark .slash, .ident "line", .str "\""] := by
  have hlead : Lexeme.Gap ('/' :: '/' :: ([] ++ '\n' :: [])) := .line (by decide) .nil
  have hbreak : Separator "\n".toList := ⟨.newline .nil, '\n', rfl, .inr rfl⟩
  have hblank : Separator " ".toList := ⟨.blank rfl .nil, ' ', rfl, .inl rfl⟩
  have hcomment : Separator (' ' :: '/' :: '*' :: (['/'] ++ '*' :: '/' :: [])) :=
    ⟨.blank rfl (.block (by decide) .nil), ' ', rfl, .inl rfl⟩
  have hin : TokenKind.SpelledBy (.keyword .kwIn) "iN".toList := .keyword .kwIn (by decide)
  have hten : Numeral 16 ['A'] 10 :=
    ⟨by decide, [10], .cons ⟨by decide, .inr (by decide)⟩ .nil, by decide⟩
  have hword : Word 10 10 := by
    unfold Word
    decide
  have hline : TokenKind.SpelledBy (.ident "line") "line".toList :=
    .ident (by decide) (List.all_eq_true.mp (by decide)) fun word => by cases word <;> decide
  have hquote : TokenKind.SpelledBy (.str "\"") "\"\\\"\"".toList := .str (by decide)
  have hwritten := (Written.last hquote).cons hline hblank |>.cons (.mark .slash) hblank
    |>.cons (.hexadecimal (.inl rfl) hten (by decide) hword) hcomment |>.cons hin hbreak
  exact ⟨⟨hlead, hwritten⟩, lexing_inverts_spelling hlead hwritten _ _⟩

end SslFrontend
