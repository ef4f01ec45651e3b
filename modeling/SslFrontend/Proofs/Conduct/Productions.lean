import SslFrontend.Proofs.Conduct.Rules
import SslFrontend.Proofs.Progress.Literals

/-! # The conduct of expressions, declarations and statements

A conduct that is kept across whatever is done at a time inside a scope is kept by
every production that stays inside it.  A production that reads a token of its own
starts at one that is plain.
-/

namespace SslFrontend

/-- What was reported stays reported when a malformed piece of text is skipped. -/
theorem ParserState.Erred.recovered {s : ParserState} (h : s.Erred) (boundary : KindSet) :
    (s.recovered boundary).Erred := by
  obtain ⟨d, hd, herror⟩ := h
  refine ⟨d, ?_, herror⟩
  unfold ParserState.recovered
  extract_lets t
  split <;> exact hd

namespace Conduct.Inside

variable {C : Conduct} {scope : Option ScopeId} {s : ParserState} {inner : Parse Code}

variable (hC : C.Inside scope)

include hC

/-! ## Expressions -/

theorem unaryRun : C.Keeps Parse.unaryRun s := by
  refine hC.read s (Cursor.reads_skipWhile _ _) (.inl fun token ht => ?_)
  have hunary := List.all_eq_true.mp List.all_takeWhile token ht
  exact TokenKind.isPlain_of (P := fun kind => (Operator.unary? kind).isSome = true) nofun nofun
    hunary

theorem argumentRun (hi : ∀ s, C.Keeps inner s) : C.Keeps (Parse.argumentRun inner) s := by
  refine hC.repeats (f := Parse.argumentRound inner) (fun found s => ?_) _
  refine hC.bind (hi s) fun _ _ => hC.bind (hC.eat rfl) fun _ _ => ?_
  exact .ite (fun _ => hC.pure _) fun _ => hC.pure _

theorem arguments (hi : ∀ s, C.Keeps inner s) : C.Keeps (Parse.arguments inner) s := by
  unfold Parse.arguments
  refine hC.bind (hC.refl s) fun found t => .join (hC.bind ?_ fun _ _ => hC.closed rfl _)
  exact .ite (fun _ => hC.pure _) fun _ => hC.argumentRun hi

theorem primary (hi : ∀ s, C.Keeps inner s) : C.Keeps (Parse.primary scope inner) s := by
  refine .cursor ?_
  extract_lets token pos
  have hkind : token.kind = s.cursor.kind := rfl
  cases hk : token.kind with
  | int n => exact hC.passed (by rw [← hkind, hk]; rfl) (hC.pure _)
  | float x => exact hC.passed (by rw [← hkind, hk]; rfl) (hC.pure _)
  | str text => exact hC.literal (hkind ▸ hk)
  | ident name =>
      refine hC.passed (by rw [← hkind, hk]; rfl) (hC.bind (hC.mention _ _ _) fun callee _ => ?_)
      refine hC.bind (hC.eat rfl) fun _ _ => .ite (fun _ => ?_) fun _ => hC.pure _
      exact hC.bind (hC.arguments hi) fun _ _ => hC.pure _
  | keyword word =>
      cases word with
      | kwTrue | kwFalse => exact hC.passed (by rw [← hkind, hk]; rfl) (hC.pure _)
      | _ => exact hC.throw rfl
  | mark sign =>
      cases sign with
      | atSign =>
          refine hC.passed (by rw [← hkind, hk]; rfl) (hC.bind hC.expectIdent fun found _ => ?_)
          exact hC.bind (hC.mention _ _ _) fun _ _ => hC.pure _
      | lparen =>
          refine hC.passed (by rw [← hkind, hk]; rfl) (hC.bind (hi _) fun _ _ => ?_)
          exact hC.closed rfl _
      | _ => exact hC.throw rfl
  | included path => exact hC.throw rfl
  | invalid => exact hC.passed (by rw [← hkind, hk]; rfl) (hC.pure _)
  | eof => exact hC.throw rfl

theorem indices (hi : ∀ s, C.Keeps inner s) (code : Code) :
    C.Keeps (Parse.indices inner code) s := by
  refine hC.repeats (f := Parse.indexRound inner) (fun code s => ?_) code
  refine .check (.ite (fun hc => ?_) fun _ => hC.pure _)
  have hk := TokenKind.isPlain_of_index (Cursor.check_eq_true hc) rfl
  exact hC.token hC.lasting hk (hC.bind (hi _) fun _ _ => hC.closed rfl _)

theorem operand (hi : ∀ s, C.Keeps inner s) : C.Keeps (Parse.operand scope inner) s :=
  hC.bind hC.unaryRun fun _ _ => hC.bind (hC.primary hi) fun _ _ =>
    hC.bind (hC.indices hi _) fun _ _ => hC.pure _

theorem chainRun (hi : ∀ s, C.Keeps inner s) : C.Keeps (Parse.chainRun scope inner) s := by
  refine hC.repeats (f := Parse.linkRound scope inner) (fun links s => ?_) _
  refine .kind ?_
  cases hb : Operator.binary? s.cursor.kind with
  | none => exact hC.pure _
  | some found =>
      have hk : s.cursor.kind.isPlain = true :=
        TokenKind.isPlain_of (P := fun kind => Operator.binary? kind = some found) nofun nofun hb
      exact hC.token hC.lasting hk (hC.bind (hC.operand hi) fun _ _ => hC.pure _)

theorem expressionTo (depth : Nat) : C.Keeps (Parse.expressionTo scope depth) s := by
  induction depth generalizing s with
  | zero => exact hC.raise s rfl (.refl _)
  | succ depth ih =>
      exact hC.bind (hC.operand fun _ => ih) fun _ _ => hC.bind (hC.chainRun fun _ => ih) fun _ _ =>
        hC.pure _

theorem expression : C.Keeps (Parse.expression scope) s :=
  .cursor (hC.expressionTo _)

/-! ## Declarations -/

theorem qualifiers : C.Keeps Parse.qualifiers s := by
  refine hC.repeats (f := Parse.qualifierRound) (fun q s => ?_) _
  refine .kind ?_
  cases hkind : s.cursor.kind with
  | keyword word =>
      cases hq : Qualifier.ofKeyword? word with
      | none => simp only [hq]; exact hC.pure _
      | some qualifier =>
          simp only [hq]
          have hk : s.cursor.kind.isPlain = true := by
            rw [hkind]
            exact TokenKind.isPlain_of_qualifier hq
          refine hC.token hC.lasting hk ?_
          refine .ite (fun _ => ?_) fun _ => hC.pure _
          exact hC.bind (hC.told rfl) fun _ _ => hC.pure _
  | _ => exact hC.pure _

theorem declaredScope (context : Context) (q : Qualifiers) :
    C.Keeps (Parse.declaredScope context q) s := by
  unfold Parse.declaredScope
  split
  · exact hC.bind (hC.reportAll (q.misplaced_plain _ _)) fun _ _ => hC.pure _
  · refine hC.bind (hC.reportAll (q.misplaced_plain _ _)) fun _ t => ?_
    refine .ite (fun _ => ?_) fun _ => hC.pure _
    exact .pos (hC.bind (hC.told rfl) fun _ _ => hC.pure _)

theorem arrayLength : C.Keeps Parse.arrayLength s := by
  refine hC.bind (hC.eat rfl) fun found t => .ite (fun _ => ?_) fun _ => hC.pure _
  refine .cursor ?_
  cases hkind : t.cursor.kind with
  | int n =>
      refine .ite (fun _ => ?_) fun _ => .ite (fun _ => hC.throw rfl) fun _ => hC.throw rfl
      exact hC.passed (by rw [hkind]; rfl) (hC.closed rfl _)
  | _ => exact hC.throw rfl

theorem initializer : C.Keeps (Parse.initializer scope) s := by
  have hgiven : ∀ (given : Bool) (t : ParserState), C.Keeps (if given = true then do
      let pos ← Parse.pos
      return some (← Parse.expression scope, pos)
    else return none : Parse (Option (Code × Position))) t := fun given t =>
    .ite (fun _ => hC.bind (hC.refl _) fun _ _ => hC.bind hC.expression fun _ _ => hC.pure _)
      fun _ => hC.pure _
  exact hC.bind (hC.eat rfl) fun _ _ => .ite (fun _ => hgiven true _) fun _ =>
    hC.bind (hC.eat rfl) hgiven

theorem setInitial (symbol : Symbol) (kind : VarScope) (length : Nat) (name : String)
    (pos : Position) (code : Code) (start : Position) :
    C.Keeps (Parse.setInitial symbol kind length name pos code start) s := by
  unfold Parse.setInitial
  refine .ite (fun _ => hC.bind (hC.told rfl) fun _ _ => hC.pure _) fun _ => ?_
  split
  · exact hC.bind (hC.modifyVariable _ fun _ => rfl) fun _ _ => hC.pure _
  · refine .ite (fun _ => ?_) fun _ => hC.bind (hC.told rfl) fun _ _ => hC.pure _
    exact hC.bind (hC.modifyVariable _ fun _ => rfl) fun _ _ => hC.pure _

variable {context : Context}

theorem variableItem (hc : context.scope = scope) (kind : VarScope) :
    C.Keeps (Parse.variableItem context kind) s := by
  refine hC.bind hC.expectIdent fun found _ => ?_
  refine hC.bind (hC.declareVariable hc _ _ _) fun declared _ => ?_
  refine hC.bind hC.arrayLength fun length _ => ?_
  subst hc
  refine hC.bind hC.initializer fun init _ => ?_
  cases declared with
  | none => exact hC.pure _
  | some symbol =>
      refine hC.bind (hC.modifyVariable _ fun _ => rfl) fun _ _ => ?_
      cases init with
      | none => exact hC.pure _
      | some found => exact hC.setInitial _ _ _ _ _ _ _

theorem variableBlock (hc : context.scope = scope) (kind : VarScope) (opener : Token) :
    C.Keeps (Parse.variableBlock context kind opener) s := by
  refine hC.repeats (f := Parse.variableBlockRound context kind opener) (fun code s => ?_) _
  refine hC.bind (hC.eat rfl) fun _ t => .ite (fun _ => hC.pure _) fun _ => ?_
  refine .cursor (.ite (fun _ => hC.throw rfl) fun _ => ?_)
  exact hC.bind (hC.variableItem hc kind) fun _ _ => hC.closed rfl _

theorem variableList (hc : context.scope = scope) (kind : VarScope) :
    C.Keeps (Parse.variableList context kind) s := by
  have hcomma : ∀ (code : Code) (s : ParserState), C.Keeps (do
      if ← Parse.eat (.mark .comma) then return .inl code else return .inr code :
        Parse (Code ⊕ Code)) s := fun code s =>
    hC.bind (hC.eat rfl) fun _ _ => .ite (fun _ => hC.pure _) fun _ => hC.pure _
  refine hC.repeats (f := Parse.variableListRound context kind) (fun code s => ?_) _
  refine hC.attempt hC.lasting (hC.variableItem hc kind) (fun item t _ => hcomma _ t)
    fun e t he => hC.reported hC.lasting he fun u hu => ?_
  exact hC.bind (hC.move (Cursor.follows_synchronize _ _) hu) fun _ _ => hcomma _ _

omit hC in
/-- Nothing is read before the token that declares. -/
theorem declaredScope_cursor {q : Qualifiers} {kind : VarScope} {t : ParserState}
    (h : Parse.declaredScope context q s = .ok kind t) : t.cursor = s.cursor := by
  have hrun : ∃ kind problems, Parse.declaredScope context q s =
      .ok kind { s with problems := problems } := by
    unfold Parse.declaredScope
    cases context.scope with
    | some sc => exact ⟨_, _, rfl⟩
    | none =>
        by_cases hconflicts : q.modifiers.conflicts = true
        · simp only [hconflicts, if_true]
          exact ⟨_, _, rfl⟩
        · simp only [hconflicts]
          exact ⟨_, _, rfl⟩
  obtain ⟨kind', problems, hrun⟩ := hrun
  rw [hrun] at h
  cases h
  rfl

theorem variableDeclaration (hc : context.scope = scope) (q : Qualifiers)
    (hk : s.cursor.kind.isPlain = true) : C.Keeps (Parse.variableDeclaration context q) s := by
  refine .next hC hC.lasting (hC.declaredScope context q) fun kind t ht => ?_
  have hcursor := declaredScope_cursor ht
  refine hC.token hC.lasting (by rwa [hcursor]) ?_
  refine hC.bind (hC.eat rfl) fun _ _ => .ite (fun _ => hC.variableBlock hc kind _) fun _ => ?_
  exact hC.bind (hC.variableList hc kind) fun _ _ => hC.closed rfl _

/-! ## Statements -/

theorem assign (target : Node) (index : Option Code) :
    C.Keeps (Parse.assign scope target index) s := by
  cases ha : Assignment.ofKind? s.cursor.kind with
  | none =>
      have hcurrent : Assignment.ofKind? s.cursor.current.kind = none := ha
      have hrun : ∃ e, Parse.assign scope target index s = .error e s.skip ∧
          e.diagnostic.Plain := by
        unfold Parse.assign
        rw [Parse.advance_bind]
        simp only [hcurrent]
        exact ⟨_, rfl, rfl⟩
      obtain ⟨e, he, hplain⟩ := hrun
      unfold Keeps Comes
      rw [he]
      exact hC.raise s hplain s.cursor.follows_advance
  | some found =>
      have hcurrent : Assignment.ofKind? s.cursor.current.kind = some found := ha
      have hk : s.cursor.kind.isPlain = true :=
        TokenKind.isPlain_of (P := fun kind => Assignment.ofKind? kind = some found)
          (by simp [Assignment.ofKind?]) (by simp [Assignment.ofKind?]) ha
      refine hC.token hC.lasting hk ?_
      simp only [hcurrent]
      cases found with
      | store => exact hC.bind hC.expression fun _ _ => hC.pure _
      | compound op => exact hC.bind hC.expression fun _ _ => hC.pure _
      | step op => exact hC.pure _

theorem assignment : C.Keeps (Parse.assignment scope) s := by
  refine hC.bind hC.expectIdent fun found _ => hC.bind (hC.mention _ _ _) fun target _ => ?_
  refine hC.bind (hC.eat rfl) fun _ _ => .ite (fun _ => ?_) fun _ => hC.assign target none
  exact hC.bind hC.expression fun _ _ => hC.bind (Inside.discard (hC.expect rfl)) fun _ _ =>
    hC.assign target _

theorem simple : C.Keeps (Parse.simple scope) s :=
  .cursor (.ite (fun _ => hC.assignment) fun _ => hC.bind hC.expression fun _ _ => hC.pure _)

/-- Any token may be read once there is an error. -/
theorem any (he : s.Erred) : C.ok s s.skip :=
  hC.move (f := Cursor.advance) s.cursor.follows_advance he

theorem recovered (he : s.Erred) (boundary : KindSet) : C.ok s (s.recovered boundary) := by
  have hmoved : C.ok s { s with cursor := s.cursor.synchronize boundary } :=
    hC.move (f := (·.synchronize boundary)) (Cursor.follows_synchronize _ _) he
  unfold ParserState.recovered
  extract_lets t
  split
  · exact hC.trans hmoved (hC.any (s := t) he)
  · exact hmoved

/-- Once there is an error, reading may be made to go on. -/
theorem forced (he : s.Erred) (start : Nat) :
    C.Keeps (Parse.blockStatement.forceProgress start) s := by
  unfold Keeps Comes
  rw [Parse.forceProgress_eq]
  dsimp only
  split
  · exact hC.any he
  · exact hC.refl s

/-- Behind an answer only a plain token is read only to go on. -/
theorem forced_behind {p : Parse Code} (hf : Parse.Forward p) (hp : p.PassesWild) {a : Code}
    {t : ParserState} (h : p s = .ok a t) :
    C.Keeps (Parse.blockStatement.forceProgress s.cursor.position) t := by
  unfold Keeps Comes
  rw [Parse.forceProgress_eq]
  dsimp only
  split
  · rename_i hsame
    have hcursor := (hf.of_ok h).eq_of_position_eq hsame
    refine hC.skip ?_
    rw [hcursor]
    by_contra hk
    exact absurd hsame (Nat.ne_of_gt (hp s (Bool.eq_false_iff.mpr hk) a t h trivial))
  · exact hC.refl t

omit hC in
/-- What a block answers: it keeps the conduct if it is closed, and otherwise it
fails. -/
def blockPost (C : Conduct) (s : ParserState) (block : Parse.Block) (t : ParserState) : Prop :=
  match block.failure with
  | none => C.ok s t
  | some e => C.fails s e t

theorem lasting_block : C.Lasting (blockPost C) := by
  intro s t block u hst h
  unfold blockPost at h ⊢
  cases hf : block.failure with
  | none =>
      rw [hf] at h
      exact hC.trans hst h
  | some e =>
      rw [hf] at h
      exact hC.fail hst h

theorem blockStatement (hf : Parse.Forward inner) (hp : inner.PassesWild)
    (hi : ∀ s, C.Keeps inner s) (code : Code) :
    C.Comes (C.roundPost (blockPost C)) (Parse.blockStatement inner code) s := by
  have hround := hC.lasting_round (β := Code) hC.lasting_block
  refine .cursor (hC.attempt hround (hi s) (fun more t ht => ?_) fun e t he => ?_)
  · exact .next hC hround (hC.forced_behind hf hp ht) fun _ u _ => .pure (hC.refl u)
  · by_cases hunclosed : e.cause = .unclosedBlock
    · simp only [hunclosed, if_true]
      exact he
    · simp only [hunclosed, if_false]
      refine hC.reported hround he fun u hu => ?_
      refine .via hC hround (hC.recovered hu _) (Parse.bind_ok (Parse.recover_eq _ u)) ?_
      exact .next hC hround (hC.forced (hu.recovered _) _) fun _ v _ => .pure (hC.refl v)

theorem openBlock (hk : s.cursor.kind.isPlain = true) (hf : Parse.Forward inner)
    (hp : inner.PassesWild) (hi : ∀ s, C.Keeps inner s) :
    C.Comes (blockPost C) (Parse.openBlock inner) s := by
  have hround := hC.lasting_round (β := Code) hC.lasting_block
  refine hC.token hC.lasting_block hk ?_
  refine hC.repeatRounds (f := Parse.blockRound inner s.cursor.current) hC.lasting_block
    (fun code t => ?_) []
  refine .kind (.ite (fun hcloses => ?_) fun _ => .ite (fun _ => ?_) fun _ =>
    hC.blockStatement hf hp hi code)
  · have hkind : t.cursor.kind.isPlain = true :=
      TokenKind.isPlain_of (P := fun kind => Cursor.closes kind = true) nofun nofun hcloses
    refine hC.token hround hkind ?_
    have hcheck : ∀ u, C.Keeps (Parse.checkCloser s.cursor.current t.cursor.current) u := fun u =>
      .ite (fun _ => hC.told rfl) fun _ => hC.pure _
    exact .next hC hround (hcheck _) fun _ u _ => .pure (hC.refl u)
  · exact hC.raise t rfl (.refl _)

theorem block (hk : s.cursor.kind.isPlain = true) (hf : Parse.Forward inner)
    (hp : inner.PassesWild) (hi : ∀ s, C.Keeps inner s) : C.Keeps (Parse.block inner) s := by
  refine .bind (hC.openBlock hk hf hp hi) fun block t _ hblock => ?_
  unfold blockPost at hblock
  cases hfailure : block.failure with
  | none =>
      rw [hfailure] at hblock
      exact hblock
  | some e =>
      rw [hfailure] at hblock
      exact hblock

theorem ifStatement (hk : s.cursor.kind.isPlain = true) (hi : ∀ s, C.Keeps inner s) :
    C.Keeps (Parse.ifStatement scope inner) s := by
  refine hC.token hC.lasting hk (hC.bind hC.expression fun _ _ => ?_)
  refine hC.bind (Inside.discard (hC.expect rfl)) fun _ _ => hC.bind (hi _) fun _ t => ?_
  refine .check (.ite (fun hc => ?_) fun _ => .cursor (hC.pure _))
  have helse := TokenKind.isPlain_of_index (Cursor.check_eq_true hc) rfl
  exact hC.token hC.lasting helse (hC.bind (hi _) fun _ _ => .cursor (hC.pure _))

theorem whileStatement (hk : s.cursor.kind.isPlain = true) (hi : ∀ s, C.Keeps inner s) :
    C.Keeps (Parse.whileStatement scope inner) s :=
  hC.token hC.lasting hk <| hC.bind hC.expression fun _ _ =>
    hC.bind (Inside.discard (hC.expect rfl)) fun _ _ => hC.bind (hi _) fun _ _ =>
      .cursor (hC.pure _)

theorem forStatement (hk : s.cursor.kind.isPlain = true) (hi : ∀ s, C.Keeps inner s) :
    C.Keeps (Parse.forStatement scope inner) s := by
  have hsimple : ∀ (skip : Bool) (t : ParserState),
      C.Keeps (if skip = true then Pure.pure [] else Parse.simple scope) t :=
    fun _ _ => .ite (fun _ => hC.pure _) fun _ => hC.simple
  refine hC.token hC.lasting hk (hC.bind (Inside.discard (hC.expect rfl)) fun _ _ => ?_)
  refine .check (.join (hC.bind (hsimple _ _) fun _ _ => ?_))
  refine hC.bind (Inside.discard (hC.expect rfl)) fun _ _ => .check (.join ?_)
  refine hC.bind (.ite (fun _ => hC.pure _) fun _ => hC.expression) fun _ _ => ?_
  refine hC.bind (Inside.discard (hC.expect rfl)) fun _ _ => .check (.join ?_)
  refine hC.bind (hsimple _ _) fun _ _ => hC.bind (Inside.discard (hC.expect rfl)) fun _ _ => ?_
  exact hC.bind (hi _) fun _ _ => .cursor (hC.pure _)

theorem returnStatement (hk : s.cursor.kind.isPlain = true) :
    C.Keeps (Parse.returnStatement scope) s := by
  refine hC.token hC.lasting hk (.check (.ite (fun hc => ?_) fun _ => ?_))
  · exact hC.passed (TokenKind.isPlain_of_index (Cursor.check_eq_true hc) rfl) (hC.pure _)
  · exact hC.bind hC.expression fun _ _ => hC.closed rfl _

theorem jumpStatement (hk : s.cursor.kind.isPlain = true) (inLoop : Bool) :
    C.Keeps (Parse.jumpStatement inLoop) s :=
  hC.token hC.lasting hk <| .ite (fun _ => hC.bind (hC.told rfl) fun _ _ => hC.closed rfl _)
    fun _ => hC.closed rfl _

theorem callStatement (hk : s.cursor.kind.isPlain = true) :
    C.Keeps (Parse.callStatement scope) s := by
  refine hC.passed hk (hC.bind hC.expectIdent fun found _ => ?_)
  refine hC.bind (hC.mention _ _ _) fun callee _ => hC.bind (hC.eat rfl) fun _ _ => ?_
  refine .join (hC.bind (.ite (fun _ => ?_) fun _ => hC.pure _) fun _ _ => hC.closed rfl _)
  exact hC.arguments fun _ => hC.expression

theorem declarationStatement (hc : context.scope = scope) :
    C.Keeps (Parse.declarationStatement context) s := by
  refine hC.bind hC.qualifiers fun q t => .check (.ite (fun hcheck => ?_) fun _ => ?_)
  · exact hC.variableDeclaration hc q
      (TokenKind.isPlain_of_index (Cursor.check_eq_true hcheck) rfl)
  · exact .cursor (hC.throw rfl)

theorem statementTo (depth : Nat) (hc : context.scope = scope) :
    C.Keeps (Parse.statementTo depth context) s := by
  induction depth generalizing context s with
  | zero => exact hC.raise s rfl (.refl _)
  | succ depth ih =>
      have hf : Parse.Forward (Parse.statementTo depth context) :=
        (Parse.inside_forward context.scope).statementTo_along depth rfl
      have hp := Parse.statementTo_passes depth context
      have hsame : ∀ s, C.Keeps (Parse.statementTo depth context) s := fun _ => ih hc
      have hloop : ∀ s, C.Keeps (Parse.statementTo depth { context with inLoop := true }) s :=
        fun _ => ih hc
      subst hc
      refine .kind ?_
      split
      · exact hC.passed (by rw [‹s.cursor.kind = _›]; rfl) (hC.pure _)
      · exact hC.block (by rw [‹s.cursor.kind = _›]; rfl) hf hp hsame
      · exact hC.block (by rw [‹s.cursor.kind = _›]; rfl) hf hp hsame
      · exact hC.ifStatement (by rw [‹s.cursor.kind = _›]; rfl) hsame
      · exact hC.whileStatement (by rw [‹s.cursor.kind = _›]; rfl) hloop
      · exact hC.forStatement (by rw [‹s.cursor.kind = _›]; rfl) hloop
      · exact hC.returnStatement (by rw [‹s.cursor.kind = _›]; rfl)
      · exact hC.jumpStatement (by rw [‹s.cursor.kind = _›]; rfl) _
      · exact hC.jumpStatement (by rw [‹s.cursor.kind = _›]; rfl) _
      · exact hC.callStatement (by rw [‹s.cursor.kind = _›]; rfl)
      iterate 6 exact hC.declarationStatement rfl
      · exact hC.bind hC.simple fun _ _ => hC.closed rfl _

theorem statement (hc : context.scope = scope) : C.Keeps (Parse.statement context) s :=
  .cursor (hC.statementTo _ hc)

end Conduct.Inside

end SslFrontend
