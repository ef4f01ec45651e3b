import SslFrontend.Proofs.Grammar.OperatorChain

/-! # Written expressions are read

The productions of an expression read what a tree is written as, and answer
with the code of the tree.  The production for the expressions inside is taken
to do so up to a number of tokens (`Understands`); `expression_runs` ties the
knot.
-/

namespace SslFrontend

open Cursor (headKind)

/-- What may come behind an expression: nothing that goes on with it. -/
structure EndsExpression (more : List Token) : Prop where
  operator : Operator.binary? (headKind more) = none
  paren : headKind more ≠ .mark .lparen
  bracket : headKind more ≠ .mark .lbracket

/-- What may come behind an operand. -/
structure EndsOperand (more : List Token) : Prop where
  paren : headKind more ≠ .mark .lparen
  bracket : headKind more ≠ .mark .lbracket

theorem EndsExpression.operand {more : List Token} (h : EndsExpression more) :
    EndsOperand more :=
  ⟨h.paren, h.bracket⟩

theorem EndsExpression.mark {sign : Mark} (h : sign ∈ [.rparen, .rbracket, .comma, .semicolon])
    (pos : Position) (more : List Token) : EndsExpression (⟨.mark sign, pos⟩ :: more) := by
  simp only [List.mem_cons, List.not_mem_nil, or_false] at h
  rcases h with rfl | rfl | rfl | rfl <;> exact ⟨rfl, nofun, nofun⟩

theorem EndsExpression.keyword {word : Keyword} (h : word ∈ [.kwThen, .kwDo]) (pos : Position)
    (more : List Token) : EndsExpression (⟨.keyword word, pos⟩ :: more) := by
  simp only [List.mem_cons, List.not_mem_nil, or_false] at h
  rcases h with rfl | rfl <;> exact ⟨rfl, nofun, nofun⟩

theorem BinaryOp.endsOperand (op : BinaryOp) (pos : Position) (more : List Token) :
    EndsOperand (⟨op.token, pos⟩ :: more) := by
  obtain ⟨token, level, node, listed⟩ := op
  constructor <;> rintro rfl <;> cases listed

/-- A production reads every expression of so many tokens at most. -/
def Understands (scope : Option ScopeId) (inner : Parse Code) (bound : Nat) : Prop :=
  ∀ e tokens, Expr.Prints 1 e tokens → tokens.length ≤ bound →
    ∀ s more, s.cursor.rest = tokens ++ more → EndsExpression more →
      Runs inner s tokens (e.emit scope)

variable {scope : Option ScopeId} {inner : Parse Code} {bound : Nat} {s : ParserState}
  {e : Expr} {tokens more : List Token}

/-! ## Arguments -/

theorem argumentRun_runs (hi : Understands scope inner bound) {args : List (Expr × List Token)}
    (hnone : args ≠ []) (each : ∀ a ∈ args, Expr.Prints 1 a.1 a.2)
    (all : Expr.Separated (args.map Prod.snd) tokens) (hb : tokens.length ≤ bound)
    {closed : Position} (hs : s.cursor.rest = tokens ++ ⟨.mark .rparen, closed⟩ :: more) :
    Runs (Parse.argumentRun inner) s tokens
      (do return (← Expr.emitAll scope (args.map Prod.fst), args.length)) := by
  refine Runs.repeatRounds (fun found s tokens m => ∃ args : List (Expr × List Token),
    args ≠ [] ∧ (∀ a ∈ args, Expr.Prints 1 a.1 a.2) ∧
    Expr.Separated (args.map Prod.snd) tokens ∧ tokens.length ≤ bound ∧
    s.cursor.rest = tokens ++ ⟨.mark .rparen, closed⟩ :: more ∧
    m = do return (found.1 ++ (← Expr.emitAll scope (args.map Prod.fst)),
      found.2 + args.length)) ?_ ⟨args, hnone, each, all, hb, hs, by simp⟩
  rintro ⟨code, count⟩ s tokens m ⟨args, hnone, each, all, hb, hs, rfl⟩
  cases args with
  | nil => exact absurd rfl hnone
  | cons a rest =>
      have ha : Expr.Prints 1 a.1 a.2 := each a List.mem_cons_self
      cases rest with
      | nil =>
          cases all
          have hrun := hi _ _ ha hb s _ hs (.mark (by decide) closed more)
          refine .last ?_
          simp only [List.map_cons, List.map_nil, Expr.emitAll, bind_assoc, pure_bind,
            List.append_nil]
          refine hrun.bind_last fun code' s₁ hdone => ?_
          have hnext := Cursor.kind_of_rest (hdone.reads.rest_eq hs)
          exact .eatNot (Cursor.check_mark (by rw [hnext]; nofun)) (.pure _)
      | cons b rest =>
          obtain _ | _ | @⟨_, behind, _, _, comma, hmore⟩ := all
          rw [List.length_append, List.length_cons] at hb
          rw [List.append_assoc] at hs
          have hrun := hi _ _ ha (by omega) s _ hs (.mark (by decide) comma _)
          refine .next (a.2 ++ [⟨.mark .comma, comma⟩]) behind
            (do return (code ++ (← Expr.emit scope a.1), count + 1))
            (fun found => do return (found.1 ++ (← Expr.emitAll scope ((b :: rest).map Prod.fst)),
              found.2 + (b :: rest).length)) (by simp) ?_ (by simp) ?_ ?_
          · simp [Expr.emitAll, Nat.add_assoc, Nat.add_comm]
          · simp only [bind_assoc, pure_bind]
            exact hrun.bind fun code' s₁ hdone =>
              .eat (hdone.reads.rest_eq hs) rfl nofun fun _ => .pure _
          · intro found s₁ hdone
            refine ⟨b :: rest, nofun, fun c hc => each c (List.mem_cons_of_mem _ hc), hmore,
              by omega, hdone.reads.rest_eq (by simpa using hs), rfl⟩

/-- The first piece of some is not the end of them. -/
theorem Expr.Separated.begins {args : List (Expr × List Token)}
    (all : Expr.Separated (args.map Prod.snd) tokens) (each : ∀ a ∈ args, Expr.Prints 1 a.1 a.2)
    (hnone : args ≠ []) :
    ∃ token rest, tokens = token :: rest ∧ Expr.begins token.kind = true := by
  cases args with
  | nil => exact absurd rfl hnone
  | cons a rest =>
      obtain ⟨token, front, hfront, hbegins⟩ := (each a List.mem_cons_self).begins
      rw [List.map_cons, hfront] at all
      generalize rest.map Prod.snd = pieces at all
      cases all with
      | one => exact ⟨token, _, rfl, hbegins⟩
      | more => exact ⟨token, _, rfl, hbegins⟩

theorem arguments_runs (hi : Understands scope inner bound) {args : List (Expr × List Token)}
    (each : ∀ a ∈ args, Expr.Prints 1 a.1 a.2) (all : Expr.Separated (args.map Prod.snd) tokens)
    (hb : tokens.length ≤ bound) {closed : Position}
    (hs : s.cursor.rest = tokens ++ ⟨.mark .rparen, closed⟩ :: more) :
    Runs (Parse.arguments inner) s (tokens ++ [⟨.mark .rparen, closed⟩])
      (do return (← Expr.emitAll scope (args.map Prod.fst), args.length)) := by
  have hclose : ∀ (found : Code × ℕ) (s₁ : ParserState),
      s₁.cursor.rest = ⟨.mark .rparen, closed⟩ :: more →
      Runs (do discard <| Parse.expect (.mark .rparen); return found) s₁
        [⟨.mark .rparen, closed⟩] (pure found) :=
    fun found s₁ hs₁ => .discard (.expect hs₁ rfl nofun fun _ => .pure found)
  refine .check (.join ?_)
  cases args with
  | nil =>
      cases all
      rw [if_pos (Cursor.check_of_kind (Cursor.kind_of_rest hs)), pure_bind]
      simpa [Expr.emitAll] using hclose ([], 0) s hs
  | cons a rest =>
      obtain ⟨token, front, rfl, hbegins⟩ := all.begins each nofun
      have hkind : s.cursor.kind ≠ .mark .rparen := by
        rw [Cursor.kind_of_rest hs]
        rintro hparen
        rw [hparen] at hbegins
        cases hbegins
      rw [if_neg (by rw [Cursor.check_mark hkind]; nofun)]
      have hrun := argumentRun_runs hi (List.cons_ne_nil a rest) each all hb hs
      exact hrun.bind_reads fun found s₁ hdone => hclose found s₁ (hdone.reads.rest_eq hs)

/-! ## Operands -/

theorem primary_runs (hi : Understands scope inner bound) (h : Primary e tokens)
    (hb : tokens.length ≤ bound + 1) (hs : s.cursor.rest = tokens ++ more)
    (hmore : headKind more ≠ .mark .lparen) :
    Runs (Parse.primary scope inner) s tokens (e.emit scope) := by
  unfold Parse.primary
  refine .cursor ?_
  cases h with
  | literal value pos =>
      have hkind := value.kind_ne_eof
      rw [Cursor.current_of_rest hs, Expr.emit]
      cases value with
      | int n => exact .discard (.advance hs hkind fun _ => .pure _)
      | float x => exact .discard (.advance hs hkind fun _ => .pure _)
      | text t =>
          refine .discard (.advance hs hkind fun _ => ?_)
          obtain ⟨node, s', hnode, hdone⟩ := Parse.stringOperand_ok t pos s.skip
          exact ⟨[node], s', hnode, hdone.pure_bind _⟩
      | truth b => cases b <;> exact .discard (.advance hs hkind fun _ => .pure _)
      | invalid => exact .discard (.advance hs hkind fun _ => .pure _)
  | name n pos =>
      rw [Cursor.current_of_rest hs, Expr.emit]
      refine .discard (.advance hs (by simp) fun hnext => .mention fun node s₁ hs₁ => ?_)
      have hkind : s₁.cursor.kind ≠ .mark .lparen := by
        rwa [Cursor.kind_eq_headKind (hs₁.trans hnext)]
      exact .eatNot (Cursor.check_mark hkind) (.pure [node])
  | @call n pos opened closed args inside each all =>
      have hlength : inside.length ≤ bound := by
        simp [Expr.parenthesized] at hb
        omega
      have hs : s.cursor.rest = ⟨.ident n, pos⟩ :: ⟨.mark .lparen, opened⟩ ::
          (inside ++ ⟨.mark .rparen, closed⟩ :: more) := by simpa [Expr.parenthesized] using hs
      rw [Cursor.current_of_rest hs, Expr.emit]
      refine .discard (.advance hs (by simp) fun hnext => .mention fun node s₁ hs₁ => ?_)
      refine .eat (hs₁.trans hnext) rfl (by simp) fun hinside => ?_
      have hrun := arguments_runs hi each all hlength hinside
      refine (hrun.pure_bind fun found => Parse.callCode found.1 node found.2 pos).of_eq rfl ?_
      simp [Parse.callCode]
  | address pos n namePos =>
      rw [Cursor.current_of_rest hs, Expr.emit]
      refine .discard (.advance hs (by simp) fun hnext => .expectIdent hnext fun _ => ?_)
      exact .mention fun node s₁ _ => .pure _
  | @parens _ inside opened closed h =>
      have hlength : inside.length ≤ bound := by
        simp [Expr.parenthesized] at hb
        omega
      have hs : s.cursor.rest = ⟨.mark .lparen, opened⟩ ::
          (inside ++ ⟨.mark .rparen, closed⟩ :: more) := by simpa [Expr.parenthesized] using hs
      rw [Cursor.current_of_rest hs]
      refine .discard (.advance hs (by simp) fun hnext => ?_)
      have hrun := hi _ _ h hlength _ _ hnext (.mark (by decide) closed more)
      exact hrun.bind_reads fun code s₁ hdone =>
        .discard (.expect (hdone.reads.rest_eq hnext) rfl (by simp) fun _ => .pure code)

theorem indices_runs (hi : Understands scope inner bound) {suffixes : List Suffix}
    (each : ∀ x ∈ suffixes, Suffix.Proper x)
    (hb : (suffixes.flatMap Suffix.printed).length ≤ bound + 1)
    (hs : s.cursor.rest = suffixes.flatMap Suffix.printed ++ more)
    (hmore : headKind more ≠ .mark .lbracket) (code : Code) :
    Runs (Parse.indices inner code) s (suffixes.flatMap Suffix.printed)
      (Suffix.emitAll scope code suffixes) := by
  refine Runs.repeatRounds (fun code s tokens m => ∃ suffixes : List Suffix,
    (∀ x ∈ suffixes, Suffix.Proper x) ∧ tokens = suffixes.flatMap Suffix.printed ∧
    tokens.length ≤ bound + 1 ∧ s.cursor.rest = tokens ++ more ∧
    m = Suffix.emitAll scope code suffixes) ?_ ⟨suffixes, each, rfl, hb, hs, rfl⟩
  rintro code s tokens m ⟨suffixes, each, rfl, hb, hs, rfl⟩
  cases suffixes with
  | nil =>
      have hkind : s.cursor.kind ≠ .mark .lbracket := by rwa [Cursor.kind_eq_headKind hs]
      refine .last (.check ?_)
      rw [if_neg (by rw [Cursor.check_mark hkind]; simp)]
      exact .pure _
  | cons x rest =>
      obtain ⟨pos, closed, inside, tokens⟩ := x
      have hx : Expr.Prints 1 inside tokens := each _ List.mem_cons_self
      have hs' : s.cursor.rest = ⟨.mark .lbracket, pos⟩ ::
          (tokens ++ ⟨.mark .rbracket, closed⟩ :: (rest.flatMap Suffix.printed ++ more)) := by
        simpa [Suffix.printed, Expr.bracketed] using hs
      have hlength : tokens.length ≤ bound ∧ (rest.flatMap Suffix.printed).length ≤ bound := by
        simp only [List.flatMap_cons, List.length_append, Suffix.printed, Expr.bracketed,
          List.length_cons] at hb
        omega
      refine .next (Expr.bracketed pos closed tokens) (rest.flatMap Suffix.printed)
        (do return code ++ (← inside.emit scope) ++ [Node.op .index pos])
        (fun code => Suffix.emitAll scope code rest) rfl ?_ (List.cons_ne_nil _ _) ?_ ?_
      · simp [Suffix.emitAll]
      · refine .check ?_
        rw [if_pos (Cursor.check_of_kind (Cursor.kind_of_rest hs'))]
        refine .advance hs' (by simp) fun hnext => ?_
        have hrun := hi _ _ hx hlength.1 _ _ hnext (.mark (by decide) closed _)
        simp only [bind_assoc, pure_bind]
        exact hrun.bind fun code' s₁ hdone =>
          .discard (.expect (hdone.reads.rest_eq hnext) rfl (by simp) fun _ => .pure _)
      · intro code' s₁ hdone
        refine ⟨rest, fun y hy => each y (List.mem_cons_of_mem _ hy), rfl, by omega,
          hdone.reads.rest_eq ?_, rfl⟩
        simpa [Suffix.printed] using hs

theorem unaryRun_runs {signs : List Sign} {token : Token}
    (hs : s.cursor.rest = signs.map Sign.printed ++ token :: more)
    (hstop : Operator.unary? token.kind = none) :
    Runs Parse.unaryRun s (signs.map Sign.printed) (pure (signs.map Sign.node)) := by
  have htaken : s.cursor.rest.takeWhile (fun token => (Operator.unary? token.kind).isSome) =
      signs.map Sign.printed := by
    rw [hs, List.takeWhile_append_of_pos, List.takeWhile_cons_of_neg, List.append_nil]
    · simp [hstop]
    · simp [Sign.unary?_printed]
  have hread := s.cursor.reads_skipWhile fun token => (Operator.unary? token.kind).isSome
  rw [htaken] at hread
  refine ⟨_, _, rfl, hread, ?_⟩
  rw [htaken, Sign.nodes_printed]
  rfl

/-- What comes behind a primary with indices. -/
theorem headKind_suffixes (suffixes : List Suffix) (hmore : headKind more ≠ .mark .lparen) :
    headKind (suffixes.flatMap Suffix.printed ++ more) ≠ .mark .lparen := by
  cases suffixes with
  | nil => exact hmore
  | cons x rest => nofun

theorem operand_runs (hi : Understands scope inner bound) (h : Operand e tokens)
    (hb : tokens.length ≤ bound + 1) (hs : s.cursor.rest = tokens ++ more)
    (hmore : EndsOperand more) :
    Runs (Parse.operand scope inner) s tokens (e.emit scope) := by
  obtain ⟨signs, ⟨suffixes, hbase, each⟩⟩ := h
  rename_i base front
  obtain ⟨token, rest, hfront, hstop⟩ := hbase.begins
  have hbase_length : front.length ≤ bound + 1 := by simp at hb; omega
  have hindex_length : (suffixes.flatMap Suffix.printed).length ≤ bound + 1 := by
    simp only [List.length_append] at hb
    omega
  have hsplit : s.cursor.rest = signs.map Sign.printed ++
      token :: (rest ++ (suffixes.flatMap Suffix.printed ++ more)) := by simpa [hfront] using hs
  have hsigns := unaryRun_runs hsplit hstop
  rw [Expr.emit_signs, Expr.emit_indices, ← pure_bind (signs.map Sign.node) fun unaries =>
    (base.emit scope >>= fun code => Suffix.emitAll scope code suffixes) >>= fun code =>
      pure (code ++ unaries.reverse)]
  refine hsigns.bind fun unaries s₁ hdone => ?_
  have hs₁ := hdone.reads.rest_eq (hs.trans (List.append_assoc _ _ _))
  rw [bind_assoc]
  have hrun := primary_runs hi hbase hbase_length (hs₁.trans (List.append_assoc _ _ _))
    (headKind_suffixes suffixes hmore.paren)
  refine hrun.bind fun code s₂ hdone' => ?_
  have hs₂ := hdone'.reads.rest_eq (hs₁.trans (List.append_assoc _ _ _))
  exact (indices_runs hi each hindex_length hs₂ hmore.bracket code).pure_bind _

/-! ## Expressions -/

/-- What comes behind an operand of a chain. -/
theorem endsOperand_links (links : List Link) (hmore : EndsExpression more) :
    EndsOperand (links.flatMap Link.printed ++ more) := by
  cases links with
  | nil => exact hmore.operand
  | cons link rest => exact link.op.endsOperand link.pos _

theorem chainRun_runs (hi : Understands scope inner bound) {links : List Link}
    (each : ∀ link ∈ links, Link.Proper link)
    (hb : (links.flatMap Link.printed).length ≤ bound + 1)
    (hs : s.cursor.rest = links.flatMap Link.printed ++ more) (hmore : EndsExpression more) :
    Runs (Parse.chainRun scope inner) s (links.flatMap Link.printed)
      (Link.emitAll scope links) := by
  refine Runs.repeatRounds (fun found s tokens m => ∃ links : List Link,
    (∀ link ∈ links, Link.Proper link) ∧ tokens = links.flatMap Link.printed ∧
    tokens.length ≤ bound + 1 ∧ s.cursor.rest = tokens ++ more ∧
    m = do return found ++ (← Link.emitAll scope links)) ?_ ⟨links, each, rfl, hb, hs, by simp⟩
  rintro found s tokens m ⟨links, each, rfl, hb, hs, rfl⟩
  cases links with
  | nil =>
      refine .last (.kind ?_)
      rw [Cursor.kind_eq_headKind hs, List.flatMap_nil, List.nil_append, hmore.operator]
      simp only [Link.emitAll, pure_bind, List.append_nil]
      exact .pure _
  | cons link rest =>
      have hlink : Operand link.operand link.tokens :=
        (each link List.mem_cons_self).operand (Nat.le_refl _)
      have hs' : s.cursor.rest = ⟨link.op.token, link.pos⟩ ::
          (link.tokens ++ (rest.flatMap Link.printed ++ more)) := by
        simpa [Link.printed] using hs
      have hlength : link.tokens.length ≤ bound ∧ (rest.flatMap Link.printed).length ≤ bound := by
        simp only [List.flatMap_cons, List.length_append, Link.printed, List.length_cons] at hb
        omega
      refine .next link.printed (rest.flatMap Link.printed)
        (do return found ++ [(link.operator, ← link.operand.emit scope)])
        (fun found => do return found ++ (← Link.emitAll scope rest)) rfl ?_
        (List.cons_ne_nil _ _) ?_ ?_
      · simp only [Link.emitAll, bind_assoc, pure_bind, List.append_assoc, List.cons_append,
          List.nil_append]
      · have hkind : Operator.binary? s.cursor.kind = some (link.op.level, link.op.node) := by
          rw [Cursor.kind_of_rest hs']
          exact link.op.listed
        refine .kind ?_
        rw [hkind]
        simp only [bind_assoc, pure_bind]
        refine .advance hs' ?_ fun hnext => ?_
        · intro heof
          rw [Cursor.kind_of_rest hs', heof] at hkind
          cases hkind
        · exact (operand_runs hi hlink (by omega) hnext (endsOperand_links rest hmore)).pure_bind _
      · intro found' s₁ hdone
        refine ⟨rest, fun other hother => each other (List.mem_cons_of_mem _ hother), rfl,
          by omega, hdone.reads.rest_eq ?_, rfl⟩
        simpa [Link.printed] using hs

theorem expressionWith_understands (hi : Understands scope inner bound) :
    Understands scope (Parse.expressionWith scope inner) (bound + 1) := by
  intro e tokens h hb s more hs hmore
  obtain ⟨first, front, links, hchain, hfirst, each, rfl⟩ := h.chain (by decide)
  rw [List.length_append] at hb
  rw [List.append_assoc] at hs
  rw [hchain.emit_eq]
  have hrun := operand_runs hi (hfirst.operand (Nat.le_refl _)) (by omega) hs
    (endsOperand_links links hmore)
  refine hrun.bind fun code s₁ hdone => ?_
  exact (chainRun_runs hi each (by omega) (hdone.reads.rest_eq hs) hmore).pure_bind _

theorem expressionTo_understands (scope : Option ScopeId) (depth : Nat) :
    Understands scope (Parse.expressionTo scope (depth + 1)) depth := by
  induction depth with
  | zero =>
      intro e tokens h hb
      obtain ⟨token, rest, rfl, _⟩ := h.begins
      exact absurd hb (by simp)
  | succ depth ih => exact expressionWith_understands ih

/-- An expression is read as the tree it is written for. -/
theorem expression_runs (scope : Option ScopeId) (h : Expr.Prints 1 e tokens)
    (hs : s.cursor.rest = tokens ++ more) (hmore : EndsExpression more) :
    Runs (Parse.expression scope) s tokens (e.emit scope) := by
  refine .cursor ?_
  have hlength : tokens.length ≤ s.cursor.rest.length := by
    rw [hs, List.length_append]
    omega
  exact expressionTo_understands scope _ e tokens h hlength s more hs hmore

end SslFrontend
