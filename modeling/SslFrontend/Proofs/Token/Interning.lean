import SslFrontend.Proofs.Access.Lexing
import SslFrontend.Proofs.PoolHistory
import SslFrontend.Proofs.Token.Reading

/-! # Lexing with a pool

A lexer that hands out handles puts the texts of its tokens into a pool as it reads
them, and the pool may refuse a text.  What it does with a text that is refused is
written out in `Lexer.readInto`: a literal and an include are reported, but a name, and
a lexeme that is taken for a keyword or a mark and is neither, silently become invalid
tokens.

Main statement: neither of these is ever met.  Whatever is in the pool, a text is read
as `Lexer.lex` says, and the texts of its tokens are added (`Lexer.lexInto_eq`).
-/

namespace SslFrontend

namespace Lexeme

theorem measureString_ne_word (rest : List Char) : (measureString rest).1 ≠ .word := by
  fun_induction measureString rest <;> simp_all

theorem measureNumber_ne_word (first : Char) (rest : List Char) :
    (measureNumber first rest).1 ≠ .word := by
  have hother : ∀ whole, (measureNumber.decimalOrFloat rest whole).1 ≠ .word := by
    intro whole
    rcases decimalOrFloat_class rest whole with h | h <;> rw [h] <;> nofun
  unfold measureNumber
  simp only
  split
  · split
    · nofun
    · exact hother _
  · exact hother _

/-- A word starts like one and goes on as long as it can. -/
theorem of_measure_word {first : Char} {rest : List Char} (h : (measure first rest).1 = .word) :
    isWordStart first = true ∧ (measure first rest).2 = run isWordChar rest := by
  have hmark : (measure.markOrStray first rest).1 ≠ .word := by
    rcases markOrStray_class first rest with ⟨sign, hclass⟩ | hclass <;> rw [hclass] <;> nofun
  unfold measure at h ⊢
  split at h
  · cases h
  · split at h
    · rename_i hspace hstart
      rw [if_neg hspace, if_pos hstart]
      exact ⟨hstart, rfl⟩
    · split at h
      · exact absurd h (measureNumber_ne_word first rest)
      · split at h
        · cases h
        · cases h
        · exact absurd h (measureString_ne_word rest)
        · split at h
          · rcases measureComment_class ‹_› with hclass | hclass <;> rw [hclass] at h <;> cases h
          · exact absurd h hmark
        · exact absurd h hmark

/-- No word holds a NUL. -/
theorem noNul_of_word {text : List Char} {lexeme : Lexeme} (h : lexeme ∈ chop text)
    (hcls : lexeme.cls = .word) : '\x00' ∉ lexeme.text := by
  obtain ⟨first, rest, htext, hmeasured⟩ := measured_of_mem_chop h
  obtain ⟨hstart, hlength⟩ := of_measure_word (hmeasured.symm.trans hcls)
  rw [htext, hlength, List.mem_cons]
  rintro (rfl | hrest)
  · exact absurd hstart (by decide)
  · have htaken : rest.take (run isWordChar rest) = rest.takeWhile isWordChar :=
      List.prefix_iff_eq_take.mp (List.takeWhile_prefix isWordChar) |>.symm
    rw [htaken] at hrest
    exact absurd (List.mem_takeWhile_imp hrest) (by decide)

/-- The text that the token of a lexeme carries. -/
def carried? (lexeme : Lexeme) : Option String := lexeme.kind?.bind TokenKind.text?

end Lexeme

namespace Lexer

/-- The kind of a token that carries nothing.  Only marks come to one here; the other
classes are read elsewhere. -/
def fixed : Lexeme.Class → TokenKind
  | .mark sign => .mark sign
  | _ => .invalid

/-- Read one lexeme, and put the text of its token into the pool. -/
def readInto (s : State) (pool : Pool) (lexeme : Lexeme) : State × Pool :=
  let text := lexeme.text
  match lexeme.cls with
  | .stray => (s.reject (.invalidChar (text.headD '\x00')), pool)
  | .skipped => (s, pool)
  | .openComment => (s.report .unterminatedComment, pool)
  | .directive =>
    match Directive.ofBody (text.drop 1) with
    | .inclusion path =>
      match pool.intern (String.ofList path) with
      | .ok (_, pool) => (s.emit (.included (String.ofList path)), pool)
      | .error _ => (s.report (.malformedDirective "include"), pool)
    | _ => (readDirective s text, pool)
  | .decimal => (emitOr s (.malformedNumber (String.ofList text)) (decimal? text), pool)
  | .hexadecimal => (emitOr s (.malformedNumber (String.ofList text)) (hexadecimal? text), pool)
  | .float => (emitOr s (.malformedNumber (String.ofList text)) (float? text), pool)
  | .string =>
    match Quoted.decode? (text.drop 1).dropLast with
    | some inside =>
      match pool.intern (String.ofList inside) with
      | .ok (_, pool) => (s.emit (.str (String.ofList inside)), pool)
      | .error _ => (s.reject .nulInString, pool)
    | none => (s.reject .nulInString, pool)
  | .openString => (s.reject .unterminatedString, pool)
  | .word =>
    match Keyword.ofWord? text with
    | some keyword => (s.emit (.keyword keyword), pool)
    | none =>
      match pool.intern (String.ofList text) with
      | .ok (_, pool) => (s.emit (.ident (String.ofList text)), pool)
      | .error _ => (s.emit .invalid, pool)
  | cls => (s.emit (fixed cls), pool)

def stepInto (reached : State × Pool) (lexeme : Lexeme) : State × Pool :=
  let (s, pool) := readInto reached.1 reached.2 lexeme
  (s.advance lexeme.text, pool)

/-- Read a text as the contents of `file`, with a pool for the texts of the tokens. -/
def lexInto (text : String) (file : FileId) (files : FileTable) (pool : Pool) : Lexed × Pool :=
  let (last, pool) := (Lexeme.chop text.toList).foldl stepInto (.start file files, pool)
  (⟨last.tokens.toList, last.pos, last.errors.toList, last.files⟩, pool)

/-- A text without a NUL is taken. -/
theorem exists_intern (pool : Pool) {text : String} (h : '\x00' ∉ text.toList) :
    ∃ handle, pool.intern text = .ok (handle, pool.internAll [text]) := by
  obtain ⟨handle, grown, hintern, -⟩ := pool.mem_intern h
  exact ⟨handle, by rw [Pool.internAll_cons hintern]; exact hintern⟩

/-- No lexeme comes to a token that the pool refuses. -/
theorem readInto_eq {text : List Char} {lexeme : Lexeme} (h : lexeme ∈ Lexeme.chop text)
    (s : State) (pool : Pool) :
    readInto s pool lexeme = (read s lexeme, pool.internAll lexeme.carried?.toList) := by
  have hword := Lexeme.noNul_of_word h
  obtain ⟨cls, text⟩ := lexeme
  -- numbers carry no text, whether they can be read or not
  have hnumber : ∀ (kind : Option TokenKind), (∀ k, kind = some k → k.text? = none) →
      pool.internAll (TokenKind.text? (kind.getD .invalid)).toList = pool := by
    intro kind hkind
    cases kind with
    | none => rfl
    | some k =>
        rw [Option.getD_some, hkind k rfl]
        rfl
  cases cls with
  | decimal =>
      refine Prod.ext rfl (hnumber (decimal? text) fun k hk => ?_).symm
      obtain ⟨n, -, rfl⟩ := Option.map_eq_some_iff.mp hk
      rfl
  | hexadecimal =>
      refine Prod.ext rfl (hnumber (hexadecimal? text) fun k hk => ?_).symm
      unfold hexadecimal? at hk
      dsimp only at hk
      split at hk <;> cases hk
      rfl
  | float =>
      refine Prod.ext rfl (hnumber (float? text) fun k hk => ?_).symm
      unfold float? at hk
      dsimp only at hk
      split at hk <;> cases hk
      rfl
  | word =>
      cases hkeyword : Keyword.ofWord? text with
      | some keyword =>
          have hkind : word text = .keyword keyword := by rw [word, hkeyword]
          simp only [readInto, read, Lexeme.carried?, Lexeme.kind?, hkeyword, hkind]
          rfl
      | none =>
          have hkind : word text = .ident (String.ofList text) := by rw [word, hkeyword]
          have hclean : '\x00' ∉ (String.ofList text).toList := by simpa using hword rfl
          obtain ⟨handle, hintern⟩ := exists_intern pool hclean
          simp only [readInto, read, Lexeme.carried?, Lexeme.kind?, hkeyword, hkind, hintern]
          rfl
  | string =>
      cases hdecode : Quoted.decode? (text.drop 1).dropLast with
      | some inside =>
          have hkind : string? text = some (.str (String.ofList inside)) := by
            rw [string?, hdecode]
            rfl
          have hclean : '\x00' ∉ (String.ofList inside).toList := by
            simpa using Quoted.decode?_clean hdecode
          obtain ⟨handle, hintern⟩ := exists_intern pool hclean
          simp only [readInto, read, Lexeme.carried?, Lexeme.kind?, hdecode, hkind, hintern]
          rfl
      | none =>
          have hkind : string? text = none := by
            rw [string?, hdecode]
            rfl
          simp only [readInto, read, Lexeme.carried?, Lexeme.kind?, hdecode, hkind]
          rfl
  | directive =>
      cases hbody : Directive.ofBody (text.drop 1) with
      | inclusion path =>
          by_cases hnul : '\x00' ∈ path
          · have hspoilt : '\x00' ∈ (String.ofList path).toList := by simpa using hnul
            have hrefused := pool.intern_of_nul hspoilt
            simp only [readInto, read, readDirective, Lexeme.carried?, Lexeme.kind?, hbody,
              hrefused, if_pos hnul]
            rfl
          · have hclean : '\x00' ∉ (String.ofList path).toList := by simpa using hnul
            obtain ⟨handle, hintern⟩ := exists_intern pool hclean
            simp only [readInto, read, readDirective, Lexeme.carried?, Lexeme.kind?, hbody,
              hintern, if_neg hnul]
            rfl
      | _ =>
          simp only [readInto, read, Lexeme.carried?, Lexeme.kind?, hbody]
          rfl
  | _ => rfl

/-- The texts of the tokens are those that their lexemes carry. -/
theorem texts_lex (text : String) (file : FileId) (files : FileTable) :
    (lex text file files).tokens.filterMap (fun token => token.kind.text?) =
      (Lexeme.chop text.toList).filterMap Lexeme.carried? := by
  have hmap : ((lex text file files).tokens.map Token.kind).filterMap TokenKind.text? =
      (lex text file files).tokens.filterMap fun token => token.kind.text? := List.filterMap_map
  rw [← hmap, kinds_lex, List.filterMap_filterMap]
  rfl

/-- A text is read as without a pool, and the pool takes the texts of its tokens. -/
theorem lexInto_eq (text : String) (file : FileId) (files : FileTable) (pool : Pool) :
    lexInto text file files pool = (lex text file files,
      pool.internAll ((lex text file files).tokens.filterMap fun token => token.kind.text?)) := by
  have hfold : ∀ (lexemes : List Lexeme) (s : State) (pool : Pool),
      (∀ lexeme ∈ lexemes, lexeme ∈ Lexeme.chop text.toList) →
      lexemes.foldl stepInto (s, pool) =
        (lexemes.foldl step s, pool.internAll (lexemes.filterMap Lexeme.carried?)) := by
    intro lexemes
    induction lexemes with
    | nil => intro s pool _; rfl
    | cons lexeme rest ih =>
        intro s pool hall
        obtain ⟨hfirst, hrest⟩ := List.forall_mem_cons.mp hall
        have hstep : stepInto (s, pool) lexeme =
            (step s lexeme, pool.internAll lexeme.carried?.toList) := by
          simp only [stepInto, readInto_eq hfirst]
          rfl
        rw [List.foldl_cons, hstep, ih _ _ hrest, ← Pool.internAll_append, List.foldl_cons,
          List.filterMap_cons]
        cases lexeme.carried? <;> rfl
  rw [texts_lex, lexInto, hfold _ _ _ fun _ h => h]
  rfl

end Lexer

end SslFrontend
