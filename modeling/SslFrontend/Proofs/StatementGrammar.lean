import SslFrontend.Proofs.Grammar.ExpressionRecovery
import SslFrontend.Proofs.Grammar.ExpressionRuns
import SslFrontend.Proofs.Grammar.Silence
import SslFrontend.Proofs.Grammar.StatementRuns

/-! # Statements are compiled as they are written

Reading expressions and writing trees down are inverse to each other.  A written
tree is read with just its tokens, and the answer is its code in postorder;
whatever is read is a written tree.

A written statement is read with just its tokens and answered with the code of
its tree, and nothing is reported.  Only an `else` behind a statement that ends
with a branch without one would still be taken.
-/

namespace SslFrontend

/-! ## Expressions are read as they are written -/

/-- A production reads expressions as they are written. -/
structure InvertsPrinting (scope : Option ScopeId) (p : Parse Code) : Prop where
  /-- A tree is written with no more parentheses than it needs. -/
  print (mark : Position) (e : Expr) : e.Prints 1 (e.print mark 1) ∧
    ∀ tokens, e.Prints 1 tokens → (e.print mark 1).length ≤ tokens.length
  /-- However a tree is written, it is read and answered with its code. -/
  reads (e : Expr) (tokens more : List Token) (s : ParserState) (h : e.Prints 1 tokens)
    (hs : s.cursor.rest = tokens ++ more) (hmore : EndsExpression more) :
    ∃ code s', p s = .ok code s' ∧ s.cursor.Reads tokens s'.cursor ∧
      e.emit scope s.records = (code, s'.records)
  /-- Whatever is read is a written tree. -/
  recovers (s : ParserState) (code : Code) (s' : ParserState) (h : p s = .ok code s') :
    ∃ (e : Expr) (tokens : List Token), e.Prints 1 tokens ∧
      s.cursor.Reads tokens s'.cursor ∧ e.emit scope s.records = (code, s'.records)

/-- Expression parsing inverts printing. -/
theorem expression_inverts_printing (scope : Option ScopeId) :
    InvertsPrinting scope (Parse.expression scope) where
  print mark e := ⟨e.prints_print mark 1, fun _ h => Expr.print_length_le h mark⟩
  reads e tokens more s h hs hmore := by
    obtain ⟨code, s', hrun, hdone⟩ := expression_runs scope h hs hmore
    exact ⟨code, s', hrun, hdone.reads, hdone.made⟩
  recovers s code s' h := by
    obtain ⟨e, tokens, hprints, hdone⟩ := expression_recovers scope s code s' h
    exact ⟨e, tokens, hprints, hdone.reads, hdone.made⟩

/-- `1 - 2 - 3` is written without parentheses, and read as the difference of a
difference and 3. -/
theorem difference_read_as_written :
    ∃ s', Parse.expression none
      ⟨.start ([.int 1, .mark .minus, .int 2, .mark .minus, .int 3, .mark .semicolon].map
        (⟨·, .unknown⟩)) .unknown, .empty, .empty, .empty, .empty⟩ =
      .ok [⟨.int, .int 1, .unknown⟩, ⟨.int, .int 2, .unknown⟩, .op .sub .unknown,
        ⟨.int, .int 3, .unknown⟩, .op .sub .unknown] s' := by
  let minus : BinaryOp := ⟨.mark .minus, 8, .sub, rfl⟩
  let number (n : Int32) : Expr := .literal (.int n) .unknown
  let difference : Expr :=
    .binary minus .unknown (.binary minus .unknown (number 1) (number 2)) (number 3)
  have hread := expression_inverts_printing none
  obtain ⟨code, s', hcode, -, hmade⟩ := hread.reads difference _ [⟨.mark .semicolon, .unknown⟩]
    ⟨.start _ .unknown, .empty, .empty, .empty, .empty⟩ (hread.print .unknown difference).1 rfl
    (.mark (by decide) _ _)
  obtain rfl : _ = code := congrArg Prod.fst hmade
  exact ⟨s', hcode⟩

/-- A production, in a loop or not, compiles statements as they are written. -/
structure CompilesPrinting (scope : Option ScopeId) (p : Bool → Parse Code) : Prop where
  /-- Every statement can be written whose jumps stand in loops. -/
  print (mark : Position) (inLoop : Bool) (st : Stmt) (h : st.placed inLoop = true) :
    st.Prints inLoop (st.print mark)
  /-- However a statement is written, it is read and answered with its code. -/
  reads (inLoop : Bool) (st : Stmt) (tokens more : List Token) (s : ParserState)
    (h : st.Prints inLoop tokens) (hclean : CleanTokens tokens)
    (hs : s.cursor.rest = tokens ++ more) (hmore : EndsStatement st more) :
    ∃ code s', p inLoop s = .ok code s' ∧ s.cursor.Reads tokens s'.cursor ∧
      st.emit scope s.records = (code, s'.records) ∧ s'.problems = s.problems
  /-- The tokens of a source are clean. -/
  clean (fs : FileSystem) (options : IncludeOptions) (text : String) (shown key : Path) :
    CleanTokens (TokenStream.ofText fs options text shown key).tokens

/-- Statement parsing is a reference compilation. -/
theorem statement_compiles_printing (scope : Option ScopeId) :
    CompilesPrinting scope fun inLoop => Parse.statement ⟨scope, inLoop⟩ where
  print mark inLoop st h := st.prints_print mark inLoop h
  reads inLoop st tokens more s h hclean hs hmore := by
    obtain ⟨code, s', hrun, hdone⟩ := statement_runs h hs hmore
    have hsilent : (st.emit scope s.records).2.problems = s.problems :=
      h.silent hclean s.records
    rw [hdone.made] at hsilent
    exact ⟨code, s', hrun, hdone.reads, hdone.made, hsilent⟩
  clean := TokenStream.clean_ofText

/-- In front of an `else`, a branch without one is written as a block:
`if 1 then begin if 2 then ; end else return 3;` -/
theorem choice_compiled_as_written :
    ∃ s', Parse.statement ⟨none, false⟩
      ⟨.start ([.keyword .kwIf, .int 1, .keyword .kwThen, .keyword .kwBegin, .keyword .kwIf, .int 2,
        .keyword .kwThen, .mark .semicolon, .keyword .kwEnd, .keyword .kwElse, .keyword .kwReturn,
        .int 3, .mark .semicolon].map (⟨·, .unknown⟩)) .unknown, .empty, .empty, .empty, .empty⟩ =
      .ok [⟨.int, .int 1, .unknown⟩, .op .branch .unknown, ⟨.int, .int 2, .unknown⟩,
        .op .branch .unknown, .op .endBranch .unknown, .op .otherwise .unknown,
        ⟨.int, .int 3, .unknown⟩, ⟨.ret, .int 1, .unknown⟩, .op .endBranch .unknown] s' := by
  let number (n : Int32) : Expr := .literal (.int n) .unknown
  let st : Stmt := .choice .unknown (number 1) (.branch .unknown (number 2) (.empty .unknown))
    .unknown (.ret .unknown (some (number 3)) .unknown)
  have hcompiles := statement_compiles_printing none
  have hprints := hcompiles.print .unknown false st rfl
  have hclean : CleanTokens (st.print .unknown) := by decide
  obtain ⟨code, s', hcode, -, hmade, -⟩ := hcompiles.reads false st _ []
    ⟨.start _ .unknown, .empty, .empty, .empty, .empty⟩ hprints hclean
    (List.append_nil _).symm nofun
  obtain rfl : _ = code := congrArg Prod.fst hmade
  exact ⟨s', hcode⟩

end SslFrontend
