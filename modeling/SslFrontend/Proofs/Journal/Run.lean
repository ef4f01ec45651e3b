import SslFrontend.Parser.Module
import SslFrontend.Proofs.Journal.Pass
import SslFrontend.Proofs.Run.Yields

/-! # The parser keeps a journal

Reading a stream is a run of passes from the start (`TokenStream.concluded`), and
so a run of turns (`TokenStream.journaled`): what is shown of every journal that
turns reach holds of what the parser leaves behind, for every stream.
-/

namespace SslFrontend

variable {stream : TokenStream} {x y : Journal stream} {α β : Type}

/-! ## Productions inside a scope -/

/-- From any journal of the scope with the first state, turns inside reach one
with the second. -/
def Journal.Reaches (stream : TokenStream) (scope : Option ScopeId) (s t : ParserState) : Prop :=
  ∀ x : Journal stream, x.scope = scope → x.state = s → ∃ y, y.state = t ∧ InnerTurns x y

theorem Journal.Reaches.single {scope : Option ScopeId} {s t : ParserState}
    (h : ∀ x : Journal stream, x.scope = scope → x.state = s → ∃ y, y.state = t ∧ InnerTurn x y) :
    Reaches stream scope s t := by
  intro x hx hs
  obtain ⟨y, hy, hxy⟩ := h x hx hs
  exact ⟨y, hy, .single hxy⟩

theorem Journal.holdsInside (stream : TokenStream) (scope : Option ScopeId) :
    HoldsInside scope (Reaches stream scope) where
  refl s x _ hs := ⟨x, hs, .refl⟩
  trans hst htu x hx hs := by
    obtain ⟨y, hy, hxy⟩ := hst x hx hs
    obtain ⟨z, hz, hyz⟩ := htu y (hxy.scope_eq.trans hx) hy
    exact ⟨z, hz, hxy.trans hyz⟩
  move s c hc := .single fun x _ hs => by subst hs; exact ⟨_, rfl, .move x c hc⟩
  report s ds := .single fun x _ hs => by subst hs; exact ⟨_, rfl, .report x ds⟩
  intern s _ _ _ hi := .single fun x _ hs => by subst hs; exact ⟨_, rfl, .intern x hi⟩
  adjust _ s symbol _ _ hf := .single fun x _ hs => by
    subst hs; exact ⟨_, rfl, .adjust x symbol hf.label⟩
  mention s _ hk := .single fun x hx hs => by subst hs hx; exact ⟨_, rfl, .mention x hk⟩
  declare _ s _ _ _ _ hk hd := .single fun x hx hs => by
    subst hs hx; exact ⟨_, rfl, .declare x hk hd⟩

namespace Yields

/-- A production that stays inside the scope. -/
theorem inside {scope : Option ScopeId} {p : Parse α} (hx : x.scope = scope)
    (h : Parse.Along (Journal.Reaches stream scope) p) :
    Yields InnerTurn p x (fun _ _ => True) fun _ => True := by
  obtain ⟨y, hy, hxy⟩ := h x.state x hx rfl
  unfold Parse.after at hy
  unfold Yields
  cases hr : p (HasState.state x) with
  | ok a s =>
      have hr : p x.state = .ok a s := hr
      rw [hr] at hy
      exact ⟨y, hy, hxy, trivial⟩
  | error e s =>
      have hr : p x.state = .error e s := hr
      rw [hr] at hy
      exact ⟨y, hy, hxy, trivial⟩

end Yields

/-! ## Names that are held -/

namespace Yields

variable {Q : α → Journal stream → Prop} {E : Journal stream → Prop}

/-- The token that is read must be a name, and takes a number. -/
theorem nameHeld {R : Journal stream → Journal stream → Prop}
    (hR : ∀ {x y}, InnerTurn x y → R x y) {next : String × Position → Parse α}
    {k : String → Position → Nat → Parse α}
    (hnext : ∀ name pos, next (name, pos) = Parse.reserve >>= k name pos) (hE : E x)
    (h : ∀ name, InnerTurn x (x.hold name) →
      Yields R (k name x.cursor.pos x.names.length) (x.hold name) Q E) :
    Yields R (Parse.expectIdent >>= next) x Q E := by
  by_cases hident : ∃ name, x.cursor.kind = .ident name
  · obtain ⟨name, hk⟩ := hident
    have hturn := InnerTurn.hold x hk
    refine .via (.single (hR hturn)) ?_ (h name hturn)
    have hread : Parse.expectIdent x.state =
        .ok (name, x.cursor.pos) { x.state with cursor := x.cursor.advance } :=
      ParserState.expectIdent_of_ident hk
    show EStateM.bind Parse.expectIdent next x.state = _
    simp only [EStateM.bind, hread, hnext]
    rw [← x.numbered]
    rfl
  · have he := ParserState.expectIdent_eq_error fun name hk => hident ⟨name, hk⟩
    have hfail : (Parse.expectIdent >>= next) x.state =
        .error (.noName x.cursor.current) x.state := by
      show EStateM.bind Parse.expectIdent next x.state = _
      simp only [EStateM.bind, he]
    exact .via .refl hfail (.throw hE)

end Yields

/-- Outside of all procedures, where nothing is entered under a number that is not
taken. -/
structure Journal.Idle (x : Journal stream) : Prop where
  scope : x.scope = none
  bounded : x.Bounded

theorem Journal.Idle.inner (h : x.Idle) (hs : InnerTurns x y) : y.Idle :=
  ⟨hs.scope_eq.trans h.scope, h.bounded.turns hs.turns⟩

theorem Journal.Idle.lift {p : Parse α} {Q : α → Journal stream → Prop} (hx : x.Idle)
    (h : Yields InnerTurn p x Q fun _ => True) :
    Yields Pass p x (fun a y => InnerTurns x y ∧ Q a y) Journal.Idle :=
  (h.embed Pass.inner).weaken (fun _ _ _ => id) fun _ _ hy => hx.inner hy.1

theorem parameter_journaled {before : List Parse.NumberedParam} (hx : x.Idle) :
    Yields InnerTurn (Parse.parameter before) x
      (fun p y => x.names.length ≤ p.number ∧ y.Holds p.number p.param.name p.param.pos)
      fun _ => True := by
  refine .discard (.bind (.inside rfl ((Journal.holdsInside stream _).eat _)) ?_)
  intro _ y hxy _
  have hy : y.Idle := hx.inner hxy
  have hle : x.names.length ≤ y.names.length := (InnerTurns.names_prefix hxy).length_le
  refine .nameHeld id (fun _ _ => rfl) trivial fun name hturn => ?_
  have hheld := Journal.Holds.made hy.bounded name
  have hscope : (y.hold name).scope = none := hy.scope
  refine .bind (.inside hscope (Journal.holdsInside stream none).paramDefault_along) ?_
  intro given z hyz _
  refine .ite (fun _ => ?_) fun _ => .pure ⟨hle, hheld.later hyz⟩
  refine .bind (.inside rfl ((Journal.holdsInside stream _).reported _)) fun _ w hzw _ => ?_
  exact .pure ⟨hle, (hheld.later hyz).later hzw⟩

theorem parameterRun_journaled (hx : x.Idle) (hxy : InnerTurns x y) :
    Yields InnerTurn Parse.parameterRun y
      (fun params z => z.HoldsParams x.names.length params) fun _ => True := by
  refine .repeatRounds (I := fun params z => InnerTurns x z ∧
    z.HoldsParams x.names.length params) (fun _ _ _ _ => trivial) ⟨hxy, .nil _ _⟩ ?_
  rintro params z _ ⟨hxz, hparams⟩
  refine .bind (parameter_journaled (hx.inner hxz)) ?_
  rintro p w hzw ⟨hlt, hp⟩
  have hmore := hparams.concat hxz.names_prefix.length_le hzw hlt hp
  refine .bind (.inside rfl ((Journal.holdsInside stream _).eat _)) fun _ v hwv _ => ?_
  have hxv : InnerTurns x v := (hxz.trans hzw).trans hwv
  exact .ite (fun _ => .pure ⟨hxv, hmore.later hwv⟩) fun _ => .pure (hmore.later hwv)

theorem parameters_journaled (hx : x.Idle) :
    Yields InnerTurn Parse.parameters x
      (fun params y => y.HoldsParams x.names.length params) fun _ => True := by
  refine .bind (.inside rfl ((Journal.holdsInside stream _).eat _)) fun eaten y hxy _ => ?_
  refine .ite (fun _ => ?_) fun _ => .pure (.nil _ _)
  refine .bind (.inside rfl ((Journal.holdsInside stream _).check _)) fun closed z hyz _ => ?_
  have hxz : InnerTurns x z := Relation.ReflTransGen.trans hxy hyz
  refine .join (.bind (P := fun params w => w.HoldsParams x.names.length params) ?_ ?_)
  · exact .ite (fun _ => .pure (.nil _ _)) fun _ => parameterRun_journaled hx hxz
  · intro params w _ hparams
    refine .bind (.inside rfl (.discard
      ((Journal.holdsInside stream _).expect _))) fun _ v hwv _ => ?_
    exact .pure (hparams.later hwv)

/-! ## Bodies -/

/-- A block is never given up. -/
theorem openBlock_answers {scope : ScopeId} (hx : x.scope = some scope) : ∃ found s,
    Parse.openBlock (Parse.statement ⟨some scope, false⟩) x.state = .ok found s :=
  (openBlock_yields (statement_yields ⟨some scope, false⟩) x.config hx).answers

theorem openBlock_journaled {scope : ScopeId} {E : Journal stream → Prop}
    (hx : x.scope = some scope) :
    Yields Pass (Parse.openBlock (Parse.statement ⟨some scope, false⟩)) x
      (fun _ y => InnerTurns x y) E := by
  have hrules := Journal.holdsInside stream (some scope)
  have hstatement : Parse.Along (Journal.Reaches stream (some scope))
      (Parse.statement ⟨some scope, false⟩) := hrules.statement_along rfl
  obtain ⟨y, hy, hxy⟩ := hrules.openBlock_along hstatement x.state x hx rfl
  obtain ⟨found, s, hr⟩ := openBlock_answers hx
  have hs : y.state = s := by
    unfold Parse.after at hy
    rwa [hr] at hy
  subst hs
  exact .via (q := Pure.pure found) hxy.passes hr (.pure hxy)

/-- What is done with the block of a body. -/
def Parse.keepBody (scope : ScopeId) (start : Position) (found : Block) : Parse Unit := do
  attachBody scope start (← cursor).previousPos found.code
  settle found.failure
where
  settle : Option ParseError → Parse Unit
    | some e => throw e
    | none => return ()

theorem body_journaled {scope : ScopeId} (hx : x.scope = some scope) (hb : x.Bounded) :
    Yields Pass (Parse.body scope) x (fun _ y => y.Idle) Journal.Idle := by
  refine .via (y := x) .refl rfl (q := do
    let found ← Parse.openBlock (Parse.statement ⟨some scope, false⟩)
    Parse.keepBody scope x.cursor.pos found) (.bind (openBlock_journaled hx) ?_)
  rintro found y _ hxy
  have hy : y.scope = some scope := hxy.scope_eq.trans hx
  have hpass := Pass.attach y found.code x.cursor.pos y.cursor.previousPos hy
  have hidle : Journal.Idle _ := ⟨rfl, (hb.turns hxy.turns).turns hpass.turns⟩
  refine .via (.single hpass) rfl (q := Parse.keepBody.settle found.failure) ?_
  cases found.failure with
  | some e => exact .throw hidle
  | none => exact .pure hidle

/-! ## Procedures -/

/-- What is done with a body that is read for a header that was rejected. -/
def Parse.asideBody :
    Except Diagnostic (ScopeId × SymbolTable × List Diagnostic) → Parse Unit
  | .ok (scope, table, problems) => do
    setTable table
    reportAll problems
    body scope
  | .error problem => do
    report problem
    moveCursor Cursor.skipBlock

theorem discardedBody_journaled {header : Header} (hx : x.Idle) :
    Yields Pass (Parse.discardedBody header) x (fun _ y => y.Idle) Journal.Idle := by
  refine .via (y := x) .refl rfl (q := Parse.asideBody (x.table.declareDiscarded header)) ?_
  cases hd : x.table.declareDiscarded header with
  | error problem =>
      have hreport := InnerTurn.report x [problem]
      have hskip := InnerTurn.move (x.report [problem]) _ (Cursor.follows_skipBlock _)
      have hturns : InnerTurns x _ := .head hreport (.single hskip)
      exact .via hturns.passes rfl (q := Pure.pure ()) (.pure (hx.inner hturns))
  | ok found =>
      obtain ⟨scope, table, problems⟩ := found
      have hpass := Pass.discard x header hx.scope hd
      have hbody := body_journaled rfl (hx.bounded.turns hpass.turns)
      exact .via (.single hpass) rfl (q := Parse.body scope) hbody

/-- What is done with a header whose body is defined, announced or rejected. -/
theorem follow_journaled {header : Header} {params : List Parse.NumberedParam} {number : Nat}
    (hx : x.Idle) (held : x.Holds number header.name header.pos)
    (hparams : x.HoldsParams (number + 1) params)
    (hheader : header.params = params.map Parse.NumberedParam.param) :
    Yields Pass
      (do
        Parse.setTable (x.table.declare header).table
        Parse.reportAll (x.table.declare header).problems
        Parse.follow header params number (x.table.declare header).verdict) x
      (fun _ y => y.Idle) Journal.Idle := by
  have hstate : (x.merge header number).state = _ := Journal.merge_state
  have hidle : (∀ index, (x.table.declare header).verdict ≠ .define index) →
      Pass x (x.merge header number) ∧ (x.merge header number).Idle := by
    intro hv
    have hpass := Pass.merge x header hx.scope held hv
    refine ⟨hpass, ?_, hx.bounded.turns hpass.turns⟩
    cases h : (x.table.declare header).verdict with
    | define index => exact absurd h (hv index)
    | announce | reject => simp [Journal.merge, h]
  cases hv : (x.table.declare header).verdict with
  | define index =>
      have hpass := Pass.define x header hx.scope held hparams hheader hv
      have hentered := (x.merge header number).recordParams_run (.proc index) params
        (Parse.body (.proc index))
      have hscope : ((x.merge header number).recordParams (.proc index) params).scope =
          some (.proc index) :=
        ((x.merge header number).recordParams_eq _ _).1.trans (Journal.merge_scope hv)
      refine .via (.single hpass) ?_ (q := Parse.body (.proc index))
        (body_journaled hscope (hx.bounded.turns hpass.turns))
      refine Eq.trans ?_ hentered
      show _ = EStateM.bind _ _ (x.merge header number).state
      rw [hstate, hv]
      rfl
  | announce index =>
      obtain ⟨hpass, hidle⟩ := hidle (by simp [hv])
      refine .via (.single hpass) ?_ (q := Pure.pure ()) (.pure hidle)
      show _ = EStateM.pure () (x.merge header number).state
      rw [hstate, hv]
      rfl
  | reject named =>
      obtain ⟨hpass, hidle⟩ := hidle (by simp [hv])
      refine .via (.single hpass) ?_ (q := if header.hasBody then Parse.discardedBody header
        else Pure.pure ()) ?_
      · show _ = (if header.hasBody then Parse.discardedBody header else Pure.pure () : Parse Unit)
          (x.merge header number).state
        rw [hstate, hv]
        cases named <;> rfl
      · exact .ite (fun _ => discardedBody_journaled hidle) fun _ => .pure hidle

theorem procedure_journaled {q : Qualifiers} (hx : x.Idle) :
    Yields Pass (Parse.procedure q) x (fun _ y => y.Idle) Journal.Idle := by
  have hrules := Journal.holdsInside stream none
  refine .discard (.bind (hx.lift (.inside hx.scope hrules.advance)) ?_)
  rintro _ y _ ⟨hxy, _⟩
  have hy := hx.inner hxy
  refine .nameHeld Pass.inner (fun _ _ => rfl) hy fun name hturn => ?_
  have hheld := Journal.Holds.made hy.bounded name
  have hname : (y.hold name).Idle := hy.inner (.single hturn)
  have hleast : (y.hold name).names.length = y.names.length + 1 := by simp [Journal.hold]
  refine .bind (hname.lift (parameters_journaled hname)) ?_
  rintro params z _ ⟨hz, hparams⟩
  rw [hleast] at hparams
  have hidle := hname.inner hz
  refine .bind (hidle.lift (.inside hidle.scope hrules.trigger_along)) ?_
  rintro trigger w _ ⟨hw, _⟩
  have hfinish : ∀ (v : Journal stream) (hasBody : Bool), InnerTurns z v →
      Yields Pass (do
        let header : Header :=
          ⟨name, y.cursor.pos, q.modifiers, trigger, params.map Parse.NumberedParam.param, hasBody⟩
        let declared := (← Parse.table).declare header
        Parse.setTable declared.table
        Parse.reportAll declared.problems
        Parse.follow header params y.names.length declared.verdict) v
      (fun _ u => u.Idle) Journal.Idle := by
    intro v hasBody hzv
    exact .via (y := v) .refl rfl
      (follow_journaled (hidle.inner hzv) ((hheld.later hz).later hzv) (hparams.later hzv) rfl)
  have hw' := hidle.inner hw
  refine .bind (hw'.lift (.inside hw'.scope hrules.kind)) ?_
  rintro found v _ ⟨hv, _⟩
  have hzv : InnerTurns z v := hw.trans hv
  refine .ite (fun _ => ?_) fun _ => hfinish v _ hzv
  refine .discard (.bind ((hidle.inner hzv).lift (.inside (hidle.inner hzv).scope
    (hrules.expect _))) ?_)
  rintro _ u _ ⟨hu, _⟩
  exact hfinish u _ (hzv.trans hu)

/-! ## Modules -/

theorem Journal.Idle.along {p : Parse α} (hx : x.Idle)
    (h : Parse.Along (Journal.Reaches stream none) p) :
    Yields Pass p x (fun _ y => y.Idle) Journal.Idle :=
  (hx.lift (.inside hx.scope h)).imp fun _ _ _ hy => hx.inner hy.1

theorem item_journaled (hx : x.Idle) :
    Yields Pass Parse.item x (fun _ y => y.Idle) Journal.Idle := by
  have hrules := Journal.holdsInside stream none
  refine .bind (hx.along hrules.qualifiers_along) fun q y _ hy => ?_
  refine .via (y := y) .refl rfl (q := Parse.itemFrom q y.cursor.kind) ?_
  unfold Parse.itemFrom
  split
  · exact .bind (procedure_journaled hy) fun _ z _ hz => .pure hz
  · exact hy.along (hrules.variableDeclaration_along rfl q)
  · exact .ite (fun _ => hy.along (hrules.statement_along rfl)) fun _ =>
      hy.along (.bind hrules hrules.cursor fun _ => .throw hrules _)

theorem itemRound_journaled {code : Code} (hx : x.Idle) :
    Yields Pass (Parse.itemRound code) x (roundPost (fun _ y => y.Idle) fun _ y => y.Idle)
      Journal.Idle := by
  have hrules := Journal.holdsInside stream none
  refine .bind (hx.along hrules.cursor) fun c y _ hy => .ite (fun _ => .pure hy) fun _ => ?_
  have hprogress : ∀ (code : Code) (z : Journal stream), z.Idle → Yields Pass (do
      if (← Parse.cursor).position = c.position then discard Parse.advance
      return .inl code : Parse (Code ⊕ Code)) z (roundPost (fun _ y => y.Idle) fun _ y => y.Idle)
      Journal.Idle := by
    intro code z hz
    refine .bind (hz.along hrules.cursor) fun _ w _ hw => .ite (fun _ => ?_) fun _ => .pure hw
    exact .discard (.bind (hw.along hrules.advance) fun _ _ _ hv => .pure hv)
  refine .bind (item_journaled hy).attempt fun found z _ hz => ?_
  cases found with
  | ok more => exact .pureBind (hprogress _ z hz)
  | error e =>
      refine .bind (Journal.Idle.along hz (hrules.reported _)) fun _ w _ hw => ?_
      refine .bind (hw.along (hrules.recover_along _)) fun _ v _ hv => ?_
      exact .pureBind (hprogress _ v hv)

theorem items_journaled (stream : TokenStream) :
    Yields Pass Parse.items (Journal.start stream) (fun _ y => y.Idle) Journal.Idle :=
  .repeatRounds (I := fun _ y => y.Idle) (fun _ _ _ h => h) ⟨rfl, .start stream⟩
    fun _ _ _ h => itemRound_journaled h

/-- A journal whose state the parser leaves behind. -/
structure Journal.Leaves (x : Journal stream) (draft : Draft) : Prop where
  table : draft.table = x.table
  ledger : draft.ledger = x.state.ledger
  pending : draft.pending = x.state.pending
  problems : x.state.problems.items <+: draft.problems.items

/-- A journal that ends where the parser does. -/
structure Journal.Ends (x : Journal stream) : Prop where
  turns : Turns (.start stream) x
  leaves : x.Leaves stream.draft

/-- A journal that ends where the parser does, and leaves no parameter out. -/
structure Journal.Concludes (x : Journal stream) : Prop where
  passes : Passes (.start stream) x
  scope : x.scope = none
  leaves : x.Leaves stream.draft

theorem Journal.Concludes.ends (h : x.Concludes) : x.Ends := ⟨h.passes.turns, h.leaves⟩

/-- The parser's draft is what a run of passes over the stream leaves behind. -/
theorem TokenStream.draft_of_ok {stream : TokenStream} {main : Code} {s : ParserState}
    (h : Parse.items (.start stream) = .ok main s) :
    stream.draft = ⟨main, s.table, s.ledger, s.pending, s.problems⟩ := by
  unfold TokenStream.draft
  rw [h]

theorem TokenStream.draft_of_error {stream : TokenStream} {e : ParseError} {s : ParserState}
    (h : Parse.items (.start stream) = .error e s) :
    stream.draft = ⟨[], s.table, s.ledger, s.pending, s.problems.push e.diagnostic⟩ := by
  unfold TokenStream.draft
  rw [h]

theorem TokenStream.concluded (stream : TokenStream) : ∃ x : Journal stream, x.Concludes := by
  have hitems := items_journaled stream
  unfold Yields at hitems
  have hstart : HasState.state (Journal.start stream) = .start stream := rfl
  rw [hstart] at hitems
  cases hr : Parse.items (.start stream) with
  | ok main s =>
      rw [hr] at hitems
      obtain ⟨x, rfl, hpasses, hidle⟩ := hitems
      refine ⟨x, hpasses, hidle.scope, ?_⟩
      rw [TokenStream.draft_of_ok hr]
      exact ⟨rfl, rfl, rfl, List.prefix_rfl⟩
  | error e s =>
      rw [hr] at hitems
      obtain ⟨x, rfl, hpasses, hidle⟩ := hitems
      refine ⟨x, hpasses, hidle.scope, ?_⟩
      rw [TokenStream.draft_of_error hr]
      exact ⟨rfl, rfl, rfl, List.prefix_append _ _⟩

theorem TokenStream.journaled (stream : TokenStream) : ∃ x : Journal stream, x.Ends := by
  obtain ⟨x, hx⟩ := stream.concluded
  exact ⟨x, hx.ends⟩

end SslFrontend
