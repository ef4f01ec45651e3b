import SslFrontend.Proofs.Grammar.ExpressionRuns
import SslFrontend.Proofs.Grammar.Lookahead

/-! # Written statements are read

The productions of a statement read what a tree is written as, and answer with
the code of the tree (`statement_runs`).  Only an `else` must not come behind a
statement that would take it.
-/

namespace SslFrontend

open Cursor (headKind)

variable {scope : Option ScopeId} {s : ParserState} {tokens more : List Token}

attribute [local simp] Stmt.emit Stmt.emitAll

/-! ## Assignments and dropped values -/

/-- What may come behind a part of a statement. -/
structure EndsSimple (more : List Token) : Prop where
  expression : EndsExpression more
  settled : Settled more

theorem EndsSimple.mark {sign : Mark} (h : sign ∈ [.semicolon, .rparen]) (pos : Position)
    (more : List Token) : EndsSimple (⟨.mark sign, pos⟩ :: more) := by
  simp only [List.mem_cons, List.not_mem_nil, or_false] at h
  rcases h with rfl | rfl
  · exact ⟨.mark (by decide) pos more, .of_kind rfl nofun⟩
  · exact ⟨.mark (by decide) pos more, .of_kind rfl nofun⟩

/-- A written target is read in front of an assignment operator. -/
theorem target_runs {target : Target} {front second : List Token} {op : Token}
    {m : Node × Option Code → Making Code} (h : target.Prints front)
    (hs : s.cursor.rest = front ++ op :: more) (hop : op.kind ≠ .mark .lbracket)
    (hassign : ∀ x index s₁, s₁.cursor.rest = op :: more →
      Runs (Parse.assign scope x index) s₁ second (m (x, index))) :
    Runs (Parse.assignment scope) s (front ++ second) (target.emit scope >>= m) := by
  unfold Target.emit
  cases h with
  | scalar n pos =>
      simp only [bind_assoc, pure_bind]
      refine .expectIdent hs fun hnext => .mention fun x s₁ hs₁ => ?_
      have hkind : s₁.cursor.kind ≠ .mark .lbracket := by
        rwa [Cursor.kind_of_rest (hs₁.trans hnext)]
      exact .eatNot (Cursor.check_mark hkind) (.pureBind (hassign x none s₁ (hs₁.trans hnext)))
  | @element n pos opened closed index inside hi =>
      simp only [bind_assoc, pure_bind]
      have hs : s.cursor.rest = ⟨.ident n, pos⟩ :: ⟨.mark .lbracket, opened⟩ ::
          (inside ++ ⟨.mark .rbracket, closed⟩ :: op :: more) := by
        simpa [Expr.bracketed] using hs
      refine .expectIdent hs fun hnext => .mention fun x s₁ hs₁ => ?_
      refine .eat (hs₁.trans hnext) rfl (by simp) fun hinside => ?_
      have hrun : Runs (Parse.expression scope) s₁.skip inside (index.emit scope) :=
        expression_runs scope hi hinside (.mark (by decide) closed _)
      refine (hrun.bind fun code s₂ hdone => ?_).of_eq (List.append_assoc _ _ _).symm rfl
      exact .discard (.expect (hdone.reads.rest_eq hinside) rfl (by simp) fun hclose =>
        .pureBind (hassign x (some code) _ hclose))

theorem AssignOp.kind_ne {how : Assignment} (op : AssignOp how) {kind : TokenKind}
    (h : Assignment.ofKind? kind = none) : op.token ≠ kind := by
  rintro rfl
  rw [op.listed] at h
  cases h

theorem simple_runs {x : Simple} (h : x.Prints tokens) (hs : s.cursor.rest = tokens ++ more)
    (hmore : EndsSimple more) : Runs (Parse.simple scope) s tokens (x.emit scope) := by
  have assigned : ∀ {how : Assignment} {target : Target} {front : List Token} {pos : Position}
      {m : Node × Option Code → Making Code} (op : AssignOp how) (second : List Token),
      target.Prints front →
      s.cursor.rest = front ++ ⟨op.token, pos⟩ :: second ++ more →
      (∀ x index s₁, s₁.cursor.rest = ⟨op.token, pos⟩ :: second ++ more →
        Runs (Parse.assign scope x index) s₁ (⟨op.token, pos⟩ :: second) (m (x, index))) →
      Runs (Parse.simple scope) s (front ++ ⟨op.token, pos⟩ :: second)
        (target.emit scope >>= m) := by
    intro how target front pos m op second ht hs hassign
    rw [List.append_assoc] at hs
    refine .cursor ?_
    have hnext : Assignment.isNext s.cursor.rest = true := by
      rw [hs]
      exact ht.isNext (by simp [op.listed])
    rw [if_pos hnext]
    exact target_runs ht hs (op.kind_ne rfl) hassign
  cases h with
  | @store target value front tokens op pos ht hv =>
      refine assigned op tokens ht hs fun x index s₁ hs₁ => ?_
      refine .advance hs₁ (op.kind_ne rfl) fun hnext => ?_
      simp only [op.listed]
      have hrun := expression_runs scope hv hnext hmore.expression
      refine (hrun.pure_bind fun e => e ++ Assignment.targetStore x index pos).of_eq rfl ?_
      cases index <;> simp [Assignment.targetStore]
  | @compound target value front tokens kind op pos ht hv =>
      refine assigned op tokens ht hs fun x index s₁ hs₁ => ?_
      refine .advance hs₁ (op.kind_ne rfl) fun hnext => ?_
      simp only [op.listed]
      have hrun := expression_runs scope hv hnext hmore.expression
      refine (hrun.pure_bind fun e => Assignment.targetValue x index pos ++ e ++
        [Node.op kind pos] ++ Assignment.targetStore x index pos).of_eq rfl ?_
      cases index <;> simp [Assignment.targetValue, Assignment.targetStore]
  | @step target front kind op pos ht =>
      refine assigned op [] ht hs fun x index s₁ hs₁ => ?_
      refine .advance hs₁ (op.kind_ne rfl) fun hnext => ?_
      simp only [op.listed]
      refine (Runs.pure _).of_eq rfl ?_
      cases index <;> simp [Assignment.targetValue, Assignment.targetStore]
  | @dropped e token tokens hv =>
      refine .cursor ?_
      have hnext : Assignment.isNext s.cursor.rest = false := by
        rw [hs]
        exact hv.not_isNext hmore.settled
      have hpos : s.cursor.pos = token.pos := by rw [Cursor.pos, Cursor.current_of_rest hs]
      rw [if_neg (by rw [hnext]; simp), hpos]
      exact (expression_runs scope hv hs hmore.expression).pure_bind fun e =>
        e ++ [Node.op .pop token.pos]

/-! ## Statements -/

/-- What may come behind a statement: no `else` that it would take. -/
def EndsStatement (st : Stmt) (more : List Token) : Prop :=
  st.endsOpen = true → headKind more ≠ .keyword .kwElse

/-- A production reads every statement of so many tokens at most. -/
def Compiles (scope : Option ScopeId) (inner : Context → Parse Code) (bound : Nat) : Prop :=
  ∀ inLoop st tokens, Stmt.Prints inLoop st tokens → tokens.length ≤ bound →
    ∀ s more, s.cursor.rest = tokens ++ more → EndsStatement st more →
      Runs (inner ⟨scope, inLoop⟩) s tokens (st.emit scope)

variable {inner : Context → Parse Code} {bound : Nat} {inLoop : Bool}

/-! ## Blocks -/

theorem checkCloser_runs {opener closer : Token} (h : Stmt.Delimits opener.kind closer.kind) :
    Runs (Parse.checkCloser opener closer) s [] (pure ⟨⟩) := by
  obtain ⟨opens, opened⟩ := opener
  obtain ⟨closes, closed⟩ := closer
  cases h <;> exact .pure _

theorem Stmt.Delimits.closes {opener closer : TokenKind} (h : Stmt.Delimits opener closer) :
    Cursor.closes closer = true := by
  cases h <;> rfl

theorem Stmt.Delimits.ne_else {opener closer : TokenKind} (h : Stmt.Delimits opener closer) :
    closer ≠ .keyword .kwElse := by
  cases h <;> nofun

/-- A statement does not begin with what ends a block. -/
theorem Stmt.not_ends_block {kind : TokenKind} (h : Stmt.begins kind = true) :
    Cursor.closes kind = false ∧ kind ≠ .eof ∧ kind ≠ .keyword .kwProcedure ∧
      kind ≠ .keyword .kwElse := by
  cases kind with
  | keyword word => cases word <;> first | (cases h; done) | exact ⟨rfl, nofun, nofun, nofun⟩
  | mark sign => cases sign <;> first | (cases h; done) | exact ⟨rfl, nofun, nofun, nofun⟩
  | _ => first | (cases h; done) | exact ⟨rfl, nofun, nofun, nofun⟩

theorem blockStatement_runs {st : Stmt} (hi : Compiles scope inner bound)
    (h : Stmt.Prints inLoop st tokens) (hb : tokens.length ≤ bound)
    (hs : s.cursor.rest = tokens ++ more) (hmore : EndsStatement st more) (code : Code) :
    Runs (Parse.blockStatement (inner ⟨scope, inLoop⟩) code) s tokens
      (do return .inl (code ++ (← st.emit scope))) := by
  obtain ⟨token, rest, htokens, -⟩ := h.begins
  refine .cursor ?_
  rw [← List.append_nil tokens]
  refine (hi inLoop st tokens h hb s more hs hmore).attempt fun more' s₁ hdone => ?_
  have hmoved : s₁.cursor.position ≠ s.cursor.position := by
    rw [hdone.reads.position, htokens, List.length_cons]
    omega
  have hforce : Runs (Parse.blockStatement.forceProgress s.cursor.position) s₁ [] (pure ⟨⟩) := by
    refine .cursor ?_
    rw [if_neg hmoved]
    exact .pure _
  exact hforce.then_pure _

/-- No `else` comes behind a statement of a block. -/
theorem Stmt.Delimits.endsStatement {opener closer : TokenKind} (h : Stmt.Delimits opener closer)
    (st : Stmt) {rest : List (Stmt × List Token)}
    (each : ∀ x ∈ rest, Stmt.Prints inLoop x.1 x.2) (closed : Position) (more : List Token) :
    EndsStatement st (rest.flatMap Prod.snd ++ ⟨closer, closed⟩ :: more) := by
  intro _
  cases rest with
  | nil => exact h.ne_else
  | cons y rest =>
      obtain ⟨token, front, hfront, hbegins⟩ := (each y List.mem_cons_self).begins
      rw [List.flatMap_cons, hfront]
      exact (Stmt.not_ends_block hbegins).2.2.2

/-- A block is read from its opening token through the closing one that belongs
to it. -/
theorem openBlock_runs (hi : Compiles scope inner bound) {opener closer : TokenKind}
    (h : Stmt.Delimits opener closer) {body : List (Stmt × List Token)}
    (each : ∀ x ∈ body, Stmt.Prints inLoop x.1 x.2) {opened closed : Position}
    (hb : (body.flatMap Prod.snd).length ≤ bound)
    (hs : s.cursor.rest =
      ⟨opener, opened⟩ :: (body.flatMap Prod.snd ++ ⟨closer, closed⟩ :: more)) :
    Runs (Parse.openBlock (inner ⟨scope, inLoop⟩)) s
      (⟨opener, opened⟩ :: (body.flatMap Prod.snd ++ [⟨closer, closed⟩]))
      (do return ⟨← Stmt.emitAll scope (body.map Prod.fst), none⟩) := by
  refine .advance hs (by cases h <;> nofun) fun hinside => ?_
  refine Runs.repeatRounds (fun code s tokens m => ∃ body : List (Stmt × List Token),
    (∀ x ∈ body, Stmt.Prints inLoop x.1 x.2) ∧ (body.flatMap Prod.snd).length ≤ bound ∧
    tokens = body.flatMap Prod.snd ++ [⟨closer, closed⟩] ∧ s.cursor.rest = tokens ++ more ∧
    m = do return ⟨code ++ (← Stmt.emitAll scope (body.map Prod.fst)), none⟩) ?_
    ⟨body, each, hb, rfl, by simpa using hinside, by simp⟩
  rintro code s tokens m ⟨body, each, hb, rfl, hs, rfl⟩
  cases body with
  | nil =>
      refine .last (.kind ?_)
      rw [Cursor.kind_of_rest hs, if_pos h.closes]
      refine .advance hs (by cases h <;> nofun) fun _ => ?_
      have hclose : Runs (Parse.checkCloser ⟨opener, opened⟩ ⟨closer, closed⟩) s.skip [] _ :=
        checkCloser_runs h
      refine (hclose.then_pure _).of_eq rfl ?_
      simp
  | cons x rest =>
      have hx := each x List.mem_cons_self
      have hrest := fun y hy => each y (List.mem_cons_of_mem _ hy)
      rw [List.flatMap_cons, List.length_append] at hb
      have hs' : s.cursor.rest =
          x.2 ++ (rest.flatMap Prod.snd ++ ⟨closer, closed⟩ :: more) := by simpa using hs
      obtain ⟨token, front, hfront, hbegins⟩ := hx.begins
      have hkind : s.cursor.kind = token.kind := by
        rw [hfront] at hs'
        exact Cursor.kind_of_rest hs'
      obtain ⟨hcloses, heof, hprocedure, -⟩ := Stmt.not_ends_block hbegins
      have hends := h.endsStatement x.1 hrest closed more
      refine .next x.2 (rest.flatMap Prod.snd ++ [⟨closer, closed⟩])
        (do return code ++ (← x.1.emit scope))
        (fun code => do return ⟨code ++ (← Stmt.emitAll scope (rest.map Prod.fst)), none⟩)
        (by simp) ?_ (by simp [hfront]) ?_ ?_
      · simp
      · refine .kind ?_
        rw [hkind, if_neg (by rw [hcloses]; nofun), if_neg (by simp [heof, hprocedure])]
        refine (blockStatement_runs hi hx (by omega) hs' hends code).of_eq rfl ?_
        simp
      · intro code' s₁ hdone
        exact ⟨rest, hrest, by omega, rfl, by simpa using hdone.reads.rest_eq hs', rfl⟩

theorem block_runs (hi : Compiles scope inner bound) {opener closer : TokenKind}
    (h : Stmt.Delimits opener closer) {body : List (Stmt × List Token)}
    (each : ∀ x ∈ body, Stmt.Prints inLoop x.1 x.2) {opened closed : Position}
    (hb : (body.flatMap Prod.snd).length ≤ bound)
    (hs : s.cursor.rest =
      ⟨opener, opened⟩ :: (body.flatMap Prod.snd ++ ⟨closer, closed⟩ :: more)) :
    Runs (Parse.block (inner ⟨scope, inLoop⟩)) s
      (⟨opener, opened⟩ :: (body.flatMap Prod.snd ++ [⟨closer, closed⟩]))
      (Stmt.emitAll scope (body.map Prod.fst)) := by
  have hcode : Stmt.emitAll scope (body.map Prod.fst) =
      (do return (⟨← Stmt.emitAll scope (body.map Prod.fst), none⟩ : Parse.Block)) >>=
        fun found => pure found.code := by simp
  rw [hcode]
  refine (openBlock_runs hi h each hb hs).bind_last fun found s₁ hdone => ?_
  obtain ⟨code, rfl, -⟩ := hdone.of_pure_bind
  exact .pure code

/-- A block of one statement has the code of the statement. -/
theorem wrapped_runs {st : Stmt} (hi : Compiles scope inner bound) {opener closer : TokenKind}
    (h : Stmt.Delimits opener closer) (hst : Stmt.Prints inLoop st tokens)
    (hb : tokens.length + 2 ≤ bound) {opened closed : Position}
    (hs : s.cursor.rest = (⟨opener, opened⟩ :: tokens ++ [⟨closer, closed⟩]) ++ more) :
    Runs (inner ⟨scope, inLoop⟩) s (⟨opener, opened⟩ :: tokens ++ [⟨closer, closed⟩])
      (st.emit scope) := by
  have each : ∀ x ∈ [(st, tokens)], Stmt.Prints inLoop x.1 x.2 := by simpa using hst
  have hblock : Stmt.Prints inLoop (.block [st] closed)
      (⟨opener, opened⟩ :: tokens ++ [⟨closer, closed⟩]) := by
    simpa using Stmt.Prints.block h opened closed each
  have hlength : (⟨opener, opened⟩ :: tokens ++ [⟨closer, closed⟩] : List Token).length ≤
      bound := by
    simp
    omega
  have hends : (Stmt.block [st] closed).endsOpen ≠ true := Bool.false_ne_true
  refine (hi inLoop _ _ hblock hlength s _ hs fun hopen => absurd hopen hends).of_eq rfl ?_
  simp

/-! ## Branches and loops -/

/-- Behind a statement that was read stands its last token. -/
theorem previousPos_of_reads {st : Stmt} {s₁ : ParserState} (h : Stmt.Prints inLoop st tokens)
    (hread : s.cursor.Reads tokens s₁.cursor) : s₁.cursor.previousPos = st.last := by
  obtain ⟨token, hlast, hpos⟩ := h.getLast
  rw [hread.previousPos hlast, hpos]

variable {condition : Expr} {c t : List Token} {pos : Position}

theorem branch_runs (hi : Compiles scope inner bound) {yes : Stmt} {thenPos : Position}
    (hc : condition.Prints 1 c) (hy : Stmt.Prints inLoop yes t) (hb : t.length ≤ bound)
    (hs : s.cursor.rest =
      ⟨.keyword .kwIf, pos⟩ :: (c ++ ⟨.keyword .kwThen, thenPos⟩ :: (t ++ more)))
    (hmore : headKind more ≠ .keyword .kwElse) :
    Runs (Parse.ifStatement scope (inner ⟨scope, inLoop⟩)) s
      (⟨.keyword .kwIf, pos⟩ :: (c ++ ⟨.keyword .kwThen, thenPos⟩ :: t))
      ((Stmt.branch pos condition yes).emit scope) := by
  refine .advance hs nofun fun hnext => ?_
  have hcond := expression_runs scope hc hnext (.keyword (by decide) thenPos _)
  rw [Stmt.emit]
  refine hcond.bind fun code s₁ hdone => ?_
  refine .discard (.expect (hdone.reads.rest_eq hnext) rfl nofun fun hthen => ?_)
  refine (hi inLoop yes t hy hb _ more hthen fun _ => hmore).bind_last fun code' s₂ hdone' => ?_
  have hkind : s₂.cursor.kind ≠ .keyword .kwElse := by
    rwa [Cursor.kind_eq_headKind (hdone'.reads.rest_eq hthen)]
  refine .check ?_
  rw [if_neg (by rw [Cursor.check_keyword hkind]; nofun)]
  refine .pureBind (.cursor ?_)
  rw [previousPos_of_reads hy hdone'.reads]
  exact (Runs.pure _).of_eq rfl (by simp)

/-- The statement in front of the `else` may be written in any way that is read. -/
theorem choice_runs (hi : Compiles scope inner bound) {yes no : Stmt} {u : List Token}
    {thenPos elsePos : Position} (hc : condition.Prints 1 c)
    (hy : ∀ s₁ : ParserState, s₁.cursor.rest = t ++ ⟨.keyword .kwElse, elsePos⟩ :: (u ++ more) →
      Runs (inner ⟨scope, inLoop⟩) s₁ t (yes.emit scope))
    (hn : Stmt.Prints inLoop no u) (hb : u.length ≤ bound)
    (hs : s.cursor.rest = ⟨.keyword .kwIf, pos⟩ :: (c ++ ⟨.keyword .kwThen, thenPos⟩ ::
      (t ++ ⟨.keyword .kwElse, elsePos⟩ :: (u ++ more))))
    (hmore : EndsStatement no more) :
    Runs (Parse.ifStatement scope (inner ⟨scope, inLoop⟩)) s
      (⟨.keyword .kwIf, pos⟩ :: (c ++ ⟨.keyword .kwThen, thenPos⟩ ::
        (t ++ ⟨.keyword .kwElse, elsePos⟩ :: u)))
      ((Stmt.choice pos condition yes elsePos no).emit scope) := by
  refine .advance hs nofun fun hnext => ?_
  have hcond := expression_runs scope hc hnext (.keyword (by decide) thenPos _)
  rw [Stmt.emit]
  refine hcond.bind fun code s₁ hdone => ?_
  refine .discard (.expect (hdone.reads.rest_eq hnext) rfl nofun fun hthen => ?_)
  refine (hy _ hthen).bind fun code' s₂ hdone' => ?_
  have hs₂ := hdone'.reads.rest_eq hthen
  refine .check ?_
  rw [if_pos (Cursor.check_of_kind (Cursor.kind_of_rest hs₂))]
  refine .advance hs₂ nofun fun helse => ?_
  refine (hi inLoop no u hn hb _ more helse hmore).bind_last fun code'' s₃ hdone'' => ?_
  refine .pureBind (.cursor ?_)
  rw [previousPos_of_reads hn hdone''.reads]
  exact (Runs.pure _).of_eq rfl (by simp)

theorem whileLoop_runs (hi : Compiles scope inner bound) {body : Stmt} {doPos : Position}
    (hc : condition.Prints 1 c) (hbody : Stmt.Prints true body t) (hb : t.length ≤ bound)
    (hs : s.cursor.rest =
      ⟨.keyword .kwWhile, pos⟩ :: (c ++ ⟨.keyword .kwDo, doPos⟩ :: (t ++ more)))
    (hmore : EndsStatement body more) :
    Runs (Parse.whileStatement scope (inner ⟨scope, true⟩)) s
      (⟨.keyword .kwWhile, pos⟩ :: (c ++ ⟨.keyword .kwDo, doPos⟩ :: t))
      ((Stmt.whileLoop pos condition body).emit scope) := by
  refine .advance hs nofun fun hnext => ?_
  have hcond := expression_runs scope hc hnext (.keyword (by decide) doPos _)
  rw [Stmt.emit]
  refine hcond.bind fun code s₁ hdone => ?_
  refine .discard (.expect (hdone.reads.rest_eq hnext) rfl nofun fun hdo => ?_)
  refine (hi true body t hbody hb _ more hdo hmore).bind_last fun code' s₂ hdone' => .cursor ?_
  rw [previousPos_of_reads hbody hdone'.reads]
  exact .pure _

/-- What stands before a semicolon or a closing parenthesis, if anything does. -/
theorem simple?_runs {x : Option Simple} {sign : Mark} {p : Position} (h : Simple.Prints? x tokens)
    (hsign : sign ∈ [.semicolon, .rparen])
    (hs : s.cursor.rest = tokens ++ ⟨.mark sign, p⟩ :: more) :
    Runs (if s.cursor.check (.mark sign) = true then pure [] else Parse.simple scope) s tokens
      (Simple.emit? scope x) := by
  cases h with
  | none =>
      rw [if_pos (Cursor.check_of_kind (Cursor.kind_of_rest hs))]
      exact .pure []
  | some h =>
      obtain ⟨token, rest, htokens, hbegins⟩ := h.begins
      have hkind : s.cursor.kind ≠ .mark sign := by
        rw [htokens] at hs
        rw [Cursor.kind_of_rest hs]
        rintro hk
        rw [hk] at hbegins
        simp only [List.mem_cons, List.not_mem_nil, or_false] at hsign
        rcases hsign with rfl | rfl <;> cases hbegins
      rw [if_neg (by rw [Cursor.check_mark hkind]; nofun)]
      exact simple_runs h hs (.mark hsign p more)

/-- A written expression does not begin with a semicolon. -/
theorem Expr.Prints.check_semicolon {e : Expr} (h : e.Prints 1 tokens)
    (hs : s.cursor.rest = tokens ++ more) : s.cursor.check (.mark .semicolon) = false := by
  obtain ⟨token, rest, rfl, hbegins⟩ := h.begins
  refine Cursor.check_mark ?_
  rw [Cursor.kind_of_rest hs]
  intro hk
  rw [hk] at hbegins
  cases hbegins

/-- The condition of a `for`, if there is one. -/
theorem condition?_runs {condition : Option Expr} {p : Position}
    (h : Expr.Prints? condition tokens)
    (hs : s.cursor.rest = tokens ++ ⟨.mark .semicolon, p⟩ :: more) :
    Runs (if s.cursor.check (.mark .semicolon) = true then pure [⟨.int, .int 1, pos⟩]
      else Parse.expression scope) s tokens
      (condition.elim (pure [⟨.int, .int 1, pos⟩]) (·.emit scope)) := by
  cases h with
  | none =>
      rw [if_pos (Cursor.check_of_kind (Cursor.kind_of_rest hs))]
      exact .pure _
  | some h =>
      rw [if_neg (by rw [h.check_semicolon hs]; nofun)]
      exact expression_runs scope h hs (.mark (by decide) p more)

/-- Something is always done by what stands there. -/
theorem Simple.emit_ne_nil (x : Simple) (scope : Option ScopeId) (r : Records) :
    (x.emit scope r).1 ≠ [] := by
  have bind_ne_nil : ∀ {α : Type} (m : Making α) (f : α → Making Code),
      (∀ a r, (f a r).1 ≠ []) → ∀ r, ((m >>= f) r).1 ≠ [] := fun m f hf r => hf _ _
  have pure_ne_nil : ∀ {code : Code} {r : Records}, code ≠ [] →
      ((pure code : Making Code) r).1 ≠ [] := fun h => h
  cases x with
  | store target op pos value =>
      refine bind_ne_nil _ _ (fun a => bind_ne_nil _ _ fun e r => ?_) r
      obtain ⟨x, index⟩ := a
      cases index <;> exact pure_ne_nil (by simp)
  | compound target kind op pos value =>
      refine bind_ne_nil _ _ (fun a => bind_ne_nil _ _ fun e r => ?_) r
      obtain ⟨x, index⟩ := a
      cases index <;> exact pure_ne_nil (by simp)
  | step target kind op pos =>
      refine bind_ne_nil _ _ (fun a r => ?_) r
      obtain ⟨x, index⟩ := a
      cases index <;> exact pure_ne_nil (by simp)
  | dropped pos e =>
      refine bind_ne_nil _ _ (fun e r => ?_) r
      exact pure_ne_nil (by simp)

theorem forLoop_runs (hi : Compiles scope inner bound) {start step : Option Simple}
    {condition : Option Expr} {body : Stmt} {i u : List Token}
    {opened first second closed : Position} (hstart : Simple.Prints? start i)
    (hc : Expr.Prints? condition c) (hstep : Simple.Prints? step t)
    (hbody : Stmt.Prints true body u) (hb : u.length ≤ bound)
    (hs : s.cursor.rest = ⟨.keyword .kwFor, pos⟩ :: ⟨.mark .lparen, opened⟩ ::
      (i ++ ⟨.mark .semicolon, first⟩ :: (c ++ ⟨.mark .semicolon, second⟩ ::
        (t ++ ⟨.mark .rparen, closed⟩ :: (u ++ more)))))
    (hmore : EndsStatement body more) :
    Runs (Parse.forStatement scope (inner ⟨scope, true⟩)) s
      (⟨.keyword .kwFor, pos⟩ :: ⟨.mark .lparen, opened⟩ ::
        (i ++ ⟨.mark .semicolon, first⟩ :: (c ++ ⟨.mark .semicolon, second⟩ ::
          (t ++ ⟨.mark .rparen, closed⟩ :: u))))
      ((Stmt.forLoop pos start condition step body).emit scope) := by
  refine .advance hs nofun fun hopen => .discard (.expect hopen rfl nofun fun hfirst => ?_)
  rw [Stmt.emit]
  refine .check (.join ((simple?_runs hstart (by decide) hfirst).bind fun starts s₁ hdone => ?_))
  have hs₁ := hdone.reads.rest_eq hfirst
  refine .discard (.expect hs₁ rfl nofun fun hsecond => .check (.join ?_))
  refine (condition?_runs hc hsecond).bind fun code s₂ hdone₂ => ?_
  have hs₂ := hdone₂.reads.rest_eq hsecond
  refine .discard (.expect hs₂ rfl nofun fun hthird => .check (.join ?_))
  refine (simple?_runs hstep (by decide) hthird).bind fun steps s₃ hdone₃ => ?_
  have hs₃ := hdone₃.reads.rest_eq hthird
  refine .discard (.expect hs₃ rfl nofun fun hinside => ?_)
  refine (hi true body u hbody hb _ more hinside hmore).bind_last fun code' s₄ hdone₄ => .cursor ?_
  rw [previousPos_of_reads hbody hdone₄.reads]
  have hsteps : (if steps.isEmpty then [] else Node.op .loopStep pos :: steps) =
      if step.isSome then [Node.op .loopStep pos] ++ steps else [] := by
    cases step with
    | none =>
        obtain rfl : [] = steps := congrArg Prod.fst hdone₃.made
        rfl
    | some x =>
        have hsome := x.emit_ne_nil scope s₂.skip.records
        rw [show x.emit scope _ = _ from hdone₃.made] at hsome
        simp [hsome]
  rw [← hsteps]
  exact .pure _

/-! ## Simple statements -/

theorem return_runs {value : Option Expr} {last : Position} (h : Expr.Prints? value t)
    (hs : s.cursor.rest = ⟨.keyword .kwReturn, pos⟩ :: (t ++ ⟨.mark .semicolon, last⟩ :: more)) :
    Runs (Parse.returnStatement scope) s
      (⟨.keyword .kwReturn, pos⟩ :: (t ++ [⟨.mark .semicolon, last⟩]))
      ((Stmt.ret pos value last).emit scope) := by
  refine .advance hs nofun fun hnext => .check ?_
  cases h with
  | none =>
      rw [if_pos (Cursor.check_of_kind (Cursor.kind_of_rest hnext))]
      exact .discard (.advance hnext nofun fun _ => .pure _)
  | some h =>
      rw [if_neg (by rw [h.check_semicolon hnext]; nofun), Stmt.emit]
      have hrun := expression_runs scope h hnext (.mark (by decide) last more)
      exact hrun.bind fun code s₁ hdone =>
        .discard (.expect (hdone.reads.rest_eq hnext) rfl nofun fun _ => .pure _)

theorem leave_runs {last : Position}
    (hs : s.cursor.rest = ⟨.keyword .kwBreak, pos⟩ :: ⟨.mark .semicolon, last⟩ :: more) :
    Runs (Parse.jumpStatement true) s [⟨.keyword .kwBreak, pos⟩, ⟨.mark .semicolon, last⟩]
      ((Stmt.leave pos last).emit scope) :=
  .advance hs nofun fun hnext => .discard (.expect hnext rfl nofun fun _ => .pure _)

theorem next_runs {last : Position}
    (hs : s.cursor.rest = ⟨.keyword .kwContinue, pos⟩ :: ⟨.mark .semicolon, last⟩ :: more) :
    Runs (Parse.jumpStatement true) s [⟨.keyword .kwContinue, pos⟩, ⟨.mark .semicolon, last⟩]
      ((Stmt.next pos last).emit scope) :=
  .advance hs nofun fun hnext => .discard (.expect hnext rfl nofun fun _ => .pure _)

theorem expression_understands (scope : Option ScopeId) (bound : Nat) :
    Understands scope (Parse.expression scope) bound :=
  fun _ _ h _ _ _ hs hmore => expression_runs scope h hs hmore

theorem call_runs {name : String} {args : Option (List Expr)} {callPos last : Position}
    (h : Expr.PrintsArguments? args t)
    (hs : s.cursor.rest = ⟨.keyword .kwCall, callPos⟩ :: ⟨.ident name, pos⟩ ::
      (t ++ ⟨.mark .semicolon, last⟩ :: more)) :
    Runs (Parse.callStatement scope) s
      (⟨.keyword .kwCall, callPos⟩ :: ⟨.ident name, pos⟩ :: (t ++ [⟨.mark .semicolon, last⟩]))
      ((Stmt.call name pos args last).emit scope) := by
  rw [Stmt.emit]
  refine .discard (.advance hs (by simp) fun hname => .expectIdent hname fun hargs => ?_)
  refine .mention fun callee s₁ hs₁ => ?_
  have hargs₁ := hs₁.trans hargs
  have hfinish : ∀ (found : Code × Nat) (s₂ : ParserState),
      s₂.cursor.rest = ⟨.mark .semicolon, last⟩ :: more →
      Runs (do
        discard <| Parse.expect (.mark .semicolon)
        return Parse.callCode found.1 callee found.2 pos ++ [Node.op .pop pos]) s₂
        [⟨.mark .semicolon, last⟩]
        (pure (Parse.callCode found.1 callee found.2 pos ++ [Node.op .pop pos])) :=
    fun found s₂ hs₂ => .discard (.expect hs₂ rfl (by simp) fun _ => .pure _)
  cases h with
  | none =>
      have hkind : s₁.cursor.kind ≠ .mark .lparen := by
        rw [Cursor.kind_of_rest hargs₁]
        simp
      refine .eatNot (Cursor.check_mark hkind) (.pureBind ?_)
      exact (hfinish ([], 0) s₁ hargs₁).of_eq rfl (by simp [Expr.emitAll, Parse.callCode])
  | @some args inside opened closed each all =>
      have hopen : s₁.cursor.rest = ⟨.mark .lparen, opened⟩ ::
          (inside ++ ⟨.mark .rparen, closed⟩ :: ⟨.mark .semicolon, last⟩ :: more) := by
        simpa [Expr.parenthesized] using hargs₁
      refine .eat hopen rfl (by simp) fun hinside => ?_
      have hrun := arguments_runs (expression_understands scope inside.length) each all
        (Nat.le_refl _) hinside
      have hsplit := hinside.trans (List.append_cons _ _ _)
      refine (hrun.bind fun found s₂ hdone =>
        hfinish found s₂ (hdone.reads.rest_eq hsplit)).of_eq rfl ?_
      simp [Parse.callCode]

/-! ## All statements -/

theorem simpleStatement_runs {content : Simple} {last : Position} (h : content.Prints t)
    (hs : s.cursor.rest = t ++ ⟨.mark .semicolon, last⟩ :: more) :
    Runs (Parse.statementWith inner ⟨scope, inLoop⟩) s (t ++ [⟨.mark .semicolon, last⟩])
      ((Stmt.simple content last).emit scope) := by
  refine .kind ?_
  obtain ⟨token, rest, htokens, hbegins⟩ := h.begins
  have hbegins : Expr.begins s.cursor.kind = true := by
    rw [htokens] at hs
    rwa [Cursor.kind_of_rest hs]
  have hrun : Runs (do
      let code ← Parse.simple scope
      discard <| Parse.expect (.mark .semicolon)
      return code) s (t ++ [⟨.mark .semicolon, last⟩]) ((Stmt.simple content last).emit scope) :=
    (simple_runs h hs (.mark (by decide) last more)).bind_reads fun code s₁ hdone =>
      .discard (.expect (hdone.reads.rest_eq hs) rfl nofun fun _ => .pure code)
  -- No keyword that a statement of another form begins with begins an expression.
  generalize s.cursor.kind = kind at hbegins ⊢
  cases kind with
  | keyword word => cases word <;> first | exact hrun | cases hbegins
  | mark sign => cases sign <;> first | exact hrun | cases hbegins
  | _ => exact hrun

theorem statementWith_compiles (hi : Compiles scope inner bound) :
    Compiles scope (Parse.statementWith inner) (bound + 1) := by
  intro inLoop st tokens h hb s more hs hmore
  cases h with
  | empty last =>
      refine .kindAt hs ?_
      exact .discard (.advance hs nofun fun _ => .pure _)
  | @block _ body opener closer h opened last each =>
      have hlength : (body.flatMap Prod.snd).length ≤ bound := by
        simp only [List.length_append, List.length_cons] at hb
        omega
      have hs : s.cursor.rest =
          ⟨opener, opened⟩ :: (body.flatMap Prod.snd ++ ⟨closer, last⟩ :: more) := by
        simpa using hs
      refine .kindAt hs ?_
      have hrun := block_runs hi h each hlength hs
      rw [Stmt.emit]
      cases h <;> exact hrun
  | @branch _ condition yes c t pos thenPos hc hy =>
      have hlength : t.length ≤ bound := by
        simp at hb
        omega
      have hs : s.cursor.rest = ⟨.keyword .kwIf, pos⟩ ::
          (c ++ ⟨.keyword .kwThen, thenPos⟩ :: (t ++ more)) := by simpa using hs
      refine .kindAt hs ?_
      exact branch_runs hi hc hy hlength hs (hmore rfl)
  | @choice _ condition yes no c t u pos thenPos elsePos hc closed hy hn =>
      have hlength : t.length ≤ bound ∧ u.length ≤ bound := by
        simp at hb
        omega
      have hs : s.cursor.rest = ⟨.keyword .kwIf, pos⟩ :: (c ++ ⟨.keyword .kwThen, thenPos⟩ ::
          (t ++ ⟨.keyword .kwElse, elsePos⟩ :: (u ++ more))) := by simpa using hs
      refine .kindAt hs ?_
      refine (choice_runs hi hc (fun s₁ hs₁ => ?_) hn hlength.2 hs hmore).of_eq (by simp) rfl
      refine hi inLoop yes t hy hlength.1 s₁ _ hs₁ fun hopen => ?_
      rw [closed] at hopen
      cases hopen
  | @choiceBlock _ condition yes no c t u opener closer pos thenPos opened closed elsePos hc h hy
      hn =>
      have hlength : t.length + 2 ≤ bound ∧ u.length ≤ bound := by
        simp at hb
        omega
      have hs : s.cursor.rest = ⟨.keyword .kwIf, pos⟩ :: (c ++ ⟨.keyword .kwThen, thenPos⟩ ::
          ((⟨opener, opened⟩ :: t ++ [⟨closer, closed⟩]) ++
            ⟨.keyword .kwElse, elsePos⟩ :: (u ++ more))) := by simpa using hs
      refine .kindAt hs ?_
      refine (choice_runs hi hc (fun s₁ hs₁ => ?_) hn hlength.2 hs hmore).of_eq (by simp) rfl
      exact wrapped_runs hi h hy hlength.1 hs₁
  | @whileLoop condition body c t _ pos doPos hc hbody =>
      have hlength : t.length ≤ bound := by
        simp at hb
        omega
      have hs : s.cursor.rest = ⟨.keyword .kwWhile, pos⟩ ::
          (c ++ ⟨.keyword .kwDo, doPos⟩ :: (t ++ more)) := by simpa using hs
      refine .kindAt hs ?_
      exact whileLoop_runs hi hc hbody hlength hs hmore
  | @forLoop start step condition body i c t u _ pos opened first second closed hi' hc ht hbody =>
      have hlength : u.length ≤ bound := by
        simp at hb
        omega
      have hs : s.cursor.rest = ⟨.keyword .kwFor, pos⟩ :: ⟨.mark .lparen, opened⟩ ::
          (i ++ ⟨.mark .semicolon, first⟩ :: (c ++ ⟨.mark .semicolon, second⟩ ::
            (t ++ ⟨.mark .rparen, closed⟩ :: (u ++ more)))) := by simpa using hs
      refine .kindAt hs ?_
      exact (forLoop_runs hi hi' hc ht hbody hlength hs hmore).of_eq (by simp) rfl
  | @ret value t _ pos last h =>
      have hs : s.cursor.rest = ⟨.keyword .kwReturn, pos⟩ ::
          (t ++ ⟨.mark .semicolon, last⟩ :: more) := by simpa using hs
      refine .kindAt hs ?_
      exact return_runs h hs
  | leave pos last =>
      refine .kindAt hs ?_
      exact leave_runs hs
  | next pos last =>
      refine .kindAt hs ?_
      exact next_runs hs
  | @call args t _ name callPos pos last h =>
      have hs : s.cursor.rest = ⟨.keyword .kwCall, callPos⟩ :: ⟨.ident name, pos⟩ ::
          (t ++ ⟨.mark .semicolon, last⟩ :: more) := by simpa using hs
      refine .kindAt hs ?_
      exact call_runs h hs
  | @simple content t _ last h =>
      have hs : s.cursor.rest = t ++ ⟨.mark .semicolon, last⟩ :: more := by simpa using hs
      exact simpleStatement_runs h hs

theorem statementTo_compiles (scope : Option ScopeId) (depth : Nat) :
    Compiles scope (Parse.statementTo (depth + 1)) depth := by
  induction depth with
  | zero =>
      intro inLoop st tokens h hb
      obtain ⟨token, rest, rfl, _⟩ := h.begins
      exact absurd hb (by simp)
  | succ depth ih => exact statementWith_compiles ih

/-- A statement is read as the tree it is written for. -/
theorem statement_runs {st : Stmt} (h : Stmt.Prints inLoop st tokens)
    (hs : s.cursor.rest = tokens ++ more) (hmore : EndsStatement st more) :
    Runs (Parse.statement ⟨scope, inLoop⟩) s tokens (st.emit scope) := by
  refine .cursor ?_
  have hlength : tokens.length ≤ s.cursor.rest.length := by
    rw [hs, List.length_append]
    omega
  exact statementTo_compiles scope _ inLoop st tokens h hlength s more hs hmore

end SslFrontend
