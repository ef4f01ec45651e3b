import SslFrontend.Parser.Module
import SslFrontend.Parser.Procedure
import SslFrontend.Proofs.Run.Statement

/-! # Runs of procedures and modules

A procedure is a header that is read inside, the step that merges it, the steps
of its body, and the step that attaches the body.  Whether it fails or not, it
ends outside of all procedures (`procedure_yields`).  Reading a stream is a run
from the start (`TokenStream.reaches_draft`): what is shown of every configuration
that a run reaches holds of what the parser leaves behind, for every stream.
-/

namespace SslFrontend

variable {stream : TokenStream} {x : Config stream}

/-! ## Headers -/

theorem paramDefault_yields (hx : x.scope = none) :
    Inner Parse.paramDefault x fun given y =>
      ∀ value, given = some value → value.ResolvesIn y.table.strings := by
  apply Inner.bind (initializer_yields hx)
  intro found y _ hfound
  cases found with
  | none => exact .pure fun _ h => nomatch h
  | some found =>
      obtain ⟨code, start⟩ := found
      obtain ⟨hcode, _⟩ := hfound code start rfl
      simp only
      split
      · rename_i value hvalue
        refine .pure ?_
        rintro _ ⟨⟩
        exact hcode.constant_resolves hvalue
      · refine .report (.pure ?_)
        rintro _ ⟨⟩
        exact .int 0 _

/-- Parameters that were read. -/
def Config.KnowsParams (x : Config stream) (params : List Parse.NumberedParam) : Prop :=
  SymbolTable.ParamsKnown stream.Has x.table.strings (params.map Parse.NumberedParam.param) ∧
    params.length ≤ x.cursor.position

theorem Config.KnowsParams.later {x y : Config stream} {params : List Parse.NumberedParam}
    (h : x.KnowsParams params) (hs : InnerSteps x y) : y.KnowsParams params :=
  ⟨h.1.grows hs.grows.table.strings, Nat.le_trans h.2 hs.position_le⟩

theorem parameter_yields {before : List Parse.NumberedParam} (hx : x.scope = none)
    (hb : x.KnowsParams before) :
    Inner (Parse.parameter before) x fun p y => y.KnowsParams (before ++ [p]) := by
  have hname : ∀ y : Config stream, InnerSteps x y →
      Inner (do
        let found ← Parse.expectIdent
        let number ← Parse.reserve
        let default ← Parse.paramDefault
        if default.isNone && before.any (·.param.default.isSome) then
          Parse.report (.error .requiredAfterOptional
            s!"required parameter `{found.1}` follows an optional one" found.2
            "needs a default value")
        return ⟨⟨found.1, found.2, default⟩, number⟩ : Parse Parse.NumberedParam) y
      fun p z => z.KnowsParams (before ++ [p]) := by
    intro y hxy
    have hpos : stream.Has y.cursor.pos := y.tracked.has_pos
    refine .expectIdent trivial fun name hname => .reserve ?_
    have hread : y.cursor.advance.position = y.cursor.position + 1 :=
      Cursor.advance_position (by rw [hname]; exact TokenKind.noConfusion)
    have hy : y.scope = none := hxy.scope_of hx
    refine Inner.bind (paramDefault_yields hy) fun given z hyz hgiven => ?_
    have hbefore := (hb.later hxy)
    have hyz' : InnerSteps y z := .head (.move y _ _) (.head (.reserve _) hyz)
    have hknows : ∀ (w : Config stream) (number : Nat), InnerSteps z w →
        w.KnowsParams (before ++ [⟨⟨name, y.cursor.pos, given⟩, number⟩]) := by
      intro w number hzw
      refine ⟨?_, ?_⟩
      · intro p hp
        rw [List.map_append] at hp
        rcases List.mem_append.mp hp with hold | hnew
        · exact (hbefore.later (hyz'.trans hzw)).1 p hold
        · rw [List.mem_singleton.mp hnew]
          exact ⟨hpos, fun value hv => (hgiven value hv).grows hzw.grows.table.strings⟩
      · have hle : y.cursor.advance.position ≤ w.cursor.position :=
          InnerSteps.position_le (.head (.reserve _) (hyz.trans hzw))
        have hlength := hbefore.2
        rw [List.length_append, List.length_singleton]
        omega
    refine .ite (fun _ => .report (.pure (hknows _ _ (.single (.report z _))))) fun _ => ?_
    exact .pure (hknows _ _ .refl)
  refine .discard (.eat (fun _ => hname x.advance (.single (.move x _ _))) fun _ => ?_)
  exact hname x .refl

theorem parameters_yields (hx : x.scope = none) :
    Inner Parse.parameters x fun params y => y.KnowsParams params := by
  have hnil : ∀ y : Config stream, y.KnowsParams [] :=
    fun y => ⟨by simp [SymbolTable.ParamsKnown], Nat.zero_le _⟩
  refine .eat (fun _ => .check (.join ?_)) fun _ => .pure (hnil x)
  refine Inner.bind (P := fun params y => y.KnowsParams params) ?_ fun params y _ hparams => ?_
  · refine .ite (fun _ => .pure (hnil _)) fun _ => ?_
    refine Inner.rounds (I := fun params y => y.KnowsParams params) (hnil _) ?_
    intro params y hxy hparams
    apply Inner.bind (parameter_yields (hxy.scope_of hx) hparams)
    intro p z _ hp
    exact .eat (fun _ => .pure (hp.later (.single (.move z _ _)))) fun _ => .pure hp
  · exact .discard (.expect trivial fun _ => .pure (hparams.later (.single (.move y _ _))))

/-- A condition is code of one value outside of procedures. -/
def Config.KnowsTrigger (x : Config stream) (trigger : Trigger) : Prop :=
  ∀ code, trigger = .conditional code → Values (x.vocabulary none) 1 code

theorem Config.KnowsTrigger.later {x y : Config stream} {trigger : Trigger}
    (h : x.KnowsTrigger trigger) (hs : InnerSteps x y) : y.KnowsTrigger trigger :=
  fun code hcode => (h code hcode).later hs

theorem keepFirst_yields {trigger : Trigger} {pos : Position} {found : Option Trigger}
    (ht : x.KnowsTrigger trigger) (hf : ∀ t, found = some t → x.KnowsTrigger t) :
    Inner (Parse.keepFirst trigger pos found) x fun t y => y.KnowsTrigger t := by
  cases found with
  | none => exact .pure ht
  | some t =>
      refine .ite (fun _ => .pure (hf t rfl)) fun _ => .report (.pure ?_)
      exact ht.later (.single (.report x _))

theorem trigger_yields (hx : x.scope = none) :
    Inner Parse.trigger x fun t y => y.KnowsTrigger t := by
  refine Inner.rounds (I := fun t y => y.KnowsTrigger t) (fun _ h => nomatch h) ?_
  intro t y hxy ht
  have hread : InnerSteps y y.advance := .single (.move y _ _)
  have hy : y.advance.scope = none := hxy.scope_of hx
  refine .pos (.kind ?_)
  split
  · refine .discard (.advance (Inner.bind (P := fun found z =>
      ∀ t, found = some t → z.KnowsTrigger t) ?_ fun found z hyz hfound => ?_))
    · apply Inner.bind (expression_yields y.advance hy)
      intro code z _ _
      split
      · refine .pure ?_
        rintro _ ⟨⟩
        exact fun _ h => nomatch h
      · exact .report (.pure fun _ h => nomatch h)
    · apply Inner.bind (keepFirst_yields (ht.later (hread.trans hyz)) hfound)
      intro t w _ ht
      exact .pure ht
  · refine .discard (.advance (Inner.bind (expression_yields y.advance hy) ?_))
    intro code z hyz hcode
    have hfound : ∀ t, some (Trigger.conditional code) = some t → z.KnowsTrigger t := by
      rintro _ ⟨⟩ _ ⟨⟩
      exact hcode
    apply Inner.bind (keepFirst_yields (ht.later (hread.trans hyz)) hfound)
    intro t w _ ht
    exact .pure ht
  · exact .pure ht

/-! ## Bodies -/

/-- Outside of all procedures, with no more procedures than tokens read. -/
structure Config.Idle (x : Config stream) : Prop where
  scope : x.scope = none
  room : x.table.procs.length ≤ x.cursor.position

theorem Config.Idle.inner {x y : Config stream} (h : x.Idle) (hs : InnerSteps x y) : y.Idle where
  scope := hs.scope_of h.scope
  room := by
    rw [hs.edits.procs_length]
    exact Nat.le_trans h.room hs.position_le

theorem Yields.lift {α : Type} {p : Parse α} {Q : α → Config stream → Prop}
    {E : Config stream → Prop} (h : Yields InnerStep p x Q E) :
    Yields Step p x (fun a y => InnerSteps x y ∧ Q a y) fun y => InnerSteps x y ∧ E y :=
  h.embed .inner

theorem Config.Idle.lift {α : Type} {p : Parse α} {Q : α → Config stream → Prop} (hx : x.Idle)
    (h : Inner p x Q) : Yields Step p x (fun a y => InnerSteps x y ∧ Q a y) Config.Idle :=
  h.lift.weaken (fun _ _ _ => id) fun _ _ hy => hx.inner hy.1

theorem body_yields {scope : ScopeId} (hx : x.scope = some scope)
    (hroom : x.table.procs.length ≤ x.cursor.position) :
    Yields Step (Parse.body scope) x (fun _ y => y.Idle) Config.Idle := by
  have hstart : stream.Has x.cursor.pos := x.tracked.has_pos
  have hblock : Yields Step (Parse.openBlock (Parse.statement ⟨some scope, false⟩)) x
      (fun found y => InnerSteps x y ∧ Statements (y.vocabulary (some scope)) false found.code)
      Config.Idle :=
    (openBlock_yields (statement_yields ⟨some scope, false⟩) x hx).lift.weaken
      (fun _ _ _ => id) fun _ _ h => h.2.elim
  refine .pos (.bind hblock ?_)
  rintro found y _ ⟨hxy, hcode⟩
  have hfinish : stream.Has y.cursor.previousPos := y.tracked.has_previousPos
  have hy : y.scope = some scope := hxy.scope_of hx
  have hstep : Step y _ := .attach y scope found.code hy hstart hfinish hcode
  refine .cursor (.via (.single hstep) rfl ?_)
  have hidle : Config.Idle ((y.setTable (y.table.modifyScope scope
      (·.withBody found.code x.cursor.pos y.cursor.previousPos))).enter none) := by
    refine ⟨rfl, ?_⟩
    show (y.table.modifyScope scope _).procs.length ≤ y.cursor.position
    rw [SymbolTable.procs_length_modifyScope, hxy.edits.procs_length]
    exact Nat.le_trans hroom hxy.position_le
  cases found.failure with
  | some e => exact .throw hidle
  | none => exact .pure hidle

/-! ## Procedures -/

theorem recordParams_yields {scope : ScopeId} {params : List Parse.NumberedParam}
    {E : Config stream → Prop} (hp : ∀ p ∈ params, stream.Has p.param.pos) :
    Yields InnerStep (params.forM (Parse.recordParam scope)) x (fun _ _ => True) E := by
  have hone : ∀ (y : Config stream) (p : Parse.NumberedParam), stream.Has p.param.pos →
      Yields InnerStep (Parse.recordParam scope p) y (fun _ _ => True) E := by
    intro y p hp
    refine .table ?_
    split
    · exact .ite (fun _ => .last (.recordAt hp (.pure trivial))) fun _ => .pure trivial
    · exact .pure trivial
  induction params generalizing x with
  | nil => exact .pure trivial
  | cons p rest ih =>
      obtain ⟨hfirst, hrest⟩ := List.forall_mem_cons.mp hp
      exact .bind (hone x p hfirst) fun _ y _ _ => ih hrest

theorem discardedBody_yields {header : Header} (hx : x.Idle) (hread : x.HasRead header) :
    Yields Step (Parse.discardedBody header) x (fun _ y => y.Idle) Config.Idle := by
  refine .table ?_
  cases hd : x.table.declareDiscarded header with
  | error problem =>
      refine .report (.last (.moveCursor (Cursor.follows_skipBlock _) (.pure ?_)))
      exact hx.inner (.head (.report x _) (.single (.move _ _ _)))
  | ok found =>
      obtain ⟨scope, table, problems⟩ := found
      have hstep := Step.discard x header hx.scope hread hd
      have hlength := (SymbolTable.declareDiscarded_grows hd).2
      refine .via (.single hstep) rfl (q := do
        Parse.reportAll problems
        Parse.body scope) (.reportAll (body_yields rfl ?_))
      show table.procs.length ≤ x.cursor.position
      rw [hlength]
      exact hx.room

/-- A rejected header leaves the table as it is; a body behind it is read for
its own sake. -/
theorem rejected_yields {header : Header} {params : List Parse.NumberedParam} {number : Nat}
    (hx : x.Idle) (hread : x.HasRead header) (named : Option Nat) :
    Yields Step (Parse.follow header params number (.reject named)) x (fun _ y => y.Idle)
      Config.Idle := by
  have hdiscard : ∀ y : Config stream, InnerSteps x y →
      Yields Step (if header.hasBody then Parse.discardedBody header else pure ()) y
        (fun _ z => z.Idle) Config.Idle := by
    intro y hxy
    refine .ite (fun _ => ?_) fun _ => .pure (hx.inner hxy)
    exact discardedBody_yields (hx.inner hxy) (hread.grows hxy.grows)
  cases named with
  | none => exact .pureBind (hdiscard x .refl)
  | some index => exact .recordAt hread.pos (hdiscard _ (.single (.record _ _ _ hread.pos)))

theorem follow_yields {header : Header} {params : List Parse.NumberedParam} {number : Nat}
    (hx : x.scope = none) (hroom : x.table.procs.length < x.cursor.position)
    (hread : x.HasRead header) (hparams : header.params = params.map Parse.NumberedParam.param) :
    Yields Step
      (do
        Parse.setTable (x.table.declare header).table
        Parse.reportAll (x.table.declare header).problems
        Parse.follow header params number (x.table.declare header).verdict) x
      (fun _ y => y.Idle) Config.Idle := by
  have hspec := SymbolTable.declare_spec x.table header
  have hlength := hspec.procs_length
  have hnext : (x.table.declare header).table.procs.length ≤ x.cursor.position := by omega
  cases hv : (x.table.declare header).verdict with
  | define index =>
      have hstep := Step.define x header hx hroom hread hv
      refine .via (.single hstep) rfl (q := do
        Parse.reportAll (x.table.declare header).problems
        Parse.follow header params number (.define index)) ?_
      refine .reportAll (.recordAt hread.pos ?_)
      have hknown : ∀ p ∈ params, stream.Has p.param.pos := fun p hp =>
        (hread.params p.param (hparams ▸ List.mem_map_of_mem hp)).1
      refine .bind ((recordParams_yields (E := fun _ => False) hknown).lift.weaken
        (fun _ _ _ => id) fun _ _ h => h.2.elim) ?_
      rintro _ y _ ⟨hsteps, _⟩
      refine body_yields (hsteps.scope_of rfl) ?_
      rw [hsteps.edits.procs_length]
      exact Nat.le_trans hnext hsteps.position_le
  | announce index =>
      have hstep := Step.announce x header hx hroom hread (by rw [hv]; exact nofun)
      refine .via (.single hstep) rfl (q := do
        Parse.reportAll (x.table.declare header).problems
        Parse.follow header params number (.announce index)) ?_
      exact .reportAll (.last (.recordAt hread.pos (.pure ⟨hx, hnext⟩)))
  | reject named =>
      have htable : (x.table.declare header).table = x.table := by
        rw [hv] at hspec
        exact hspec.eq_of_reject
      have hidle : x.Idle := ⟨hx, Nat.le_of_lt hroom⟩
      have hreport : InnerSteps x (x.report (x.table.declare header).problems) :=
        .single (.report x _)
      rw [htable]
      refine .via .refl rfl (q := do
        Parse.reportAll (x.table.declare header).problems
        Parse.follow header params number (.reject named)) (.reportAll ?_)
      exact rejected_yields (hidle.inner hreport) (hread.grows hreport.grows) named

theorem procedure_yields {q : Qualifiers} (hx : x.Idle)
    (hk : x.cursor.kind = .keyword .kwProcedure) :
    Yields Step (Parse.procedure q) x (fun _ y => y.Idle) Config.Idle := by
  have hread : x.cursor.advance.position = x.cursor.position + 1 :=
    Cursor.advance_position (by rw [hk]; exact TokenKind.noConfusion)
  have hroom := hx.room
  have hinner : InnerSteps x x.advance := .single (.move x _ _)
  have hnext : x.advance.Idle := hx.inner hinner
  refine .discard (.advance ?_)
  have hpos : stream.Has x.advance.cursor.pos := x.advance.tracked.has_pos
  refine .expectIdent hnext fun name _ => .reserve ?_
  have hname : InnerSteps x.advance _ :=
    .head (.move x.advance _ x.advance.cursor.follows_advance) (.single (.reserve _))
  have hidle := hnext.inner hname
  refine .bind (hidle.lift (parameters_yields hidle.scope)) ?_
  rintro params y _ ⟨hy, hparams⟩
  have hidle := hidle.inner hy
  refine .bind (hidle.lift (trigger_yields hidle.scope)) ?_
  rintro trigger z _ ⟨hz, htrigger⟩
  have hidle := hidle.inner hz
  have hall : InnerSteps x.advance z := hname.trans (hy.trans hz)
  have hfinish : ∀ (w : Config stream) (hasBody : Bool), InnerSteps z w →
      Yields Step (do
        let header : Header :=
          ⟨name, x.advance.cursor.pos, q.modifiers, trigger,
            params.map Parse.NumberedParam.param, hasBody⟩
        let declared := (← Parse.table).declare header
        Parse.setTable declared.table
        Parse.reportAll declared.problems
        Parse.follow header params x.advance.advance.state.ledger.next declared.verdict) w
      (fun _ y => y.Idle) Config.Idle := by
    intro w hasBody hzw
    have hall' : InnerSteps x.advance w := hall.trans hzw
    have hle : x.cursor.advance.position ≤ w.cursor.position := hall'.position_le
    have hprocs : w.table.procs.length = x.table.procs.length := hall'.edits.procs_length
    have hlater := hparams.later (hz.trans hzw)
    refine .table (follow_yields (hidle.inner hzw).scope (by omega) ?_ rfl)
    exact ⟨hpos, hlater.1, by simpa using hlater.2, htrigger.later hzw⟩
  refine .kind (.ite (fun _ => ?_) fun _ => hfinish z _ .refl)
  refine .discard (.expect hidle fun _ => hfinish z.advance _ (.single (.move z _ _)))

/-! ## Items -/

theorem item_yields (hx : x.Idle) :
    Yields Step Parse.item x (fun code y => y.Idle ∧ Statements (y.vocabulary none) false code)
      Config.Idle := by
  refine .bind (hx.lift qualifiers_yields) ?_
  rintro q y _ ⟨hxy, _⟩
  have hy := hx.inner hxy
  have htop : ∀ p : Parse Code, Executes stream .top p →
      Yields Step p y (fun code z => z.Idle ∧ Statements (z.vocabulary none) false code)
        Config.Idle :=
    fun p hp => (hy.lift (hp y hy.scope)).imp fun _ _ _ h => ⟨hy.inner h.1, h.2⟩
  refine .kind ?_
  split
  · rename_i hk
    exact .bind (procedure_yields hy hk) fun _ z _ hz => .pure ⟨hz, .nil⟩
  · exact htop _ (variableDeclaration_yields q)
  · exact .ite (fun _ => htop _ (statement_yields .top)) fun _ => .cursor (.throw hy)

theorem itemRound_yields {code : Code} (hx : x.Idle)
    (hcode : Statements (x.vocabulary none) false code) :
    Yields Step (Parse.itemRound code) x
      (roundPost (fun code y => y.Idle ∧ Statements (y.vocabulary none) false code)
        fun code y => Statements (y.vocabulary none) false code)
      fun _ => True := by
  refine .cursor (.ite (fun _ => .pure hcode) fun _ => ?_)
  have hprogress : ∀ (code : Code) (y : Config stream), y.Idle →
      Statements (y.vocabulary none) false code →
      Yields Step (do
        if (← Parse.cursor).position = x.cursor.position then discard Parse.advance
        return .inl code : Parse (Code ⊕ Code)) y
        (roundPost (fun code y => y.Idle ∧ Statements (y.vocabulary none) false code)
          fun code y => Statements (y.vocabulary none) false code)
        fun _ => True := by
    intro code y hy hcode
    refine .cursor (.ite (fun _ => .discard (.advance (.pure ?_))) fun _ => .pure ⟨hy, hcode⟩)
    have hstep : InnerSteps y y.advance := .single (.move y _ _)
    exact ⟨hy.inner hstep, hcode.later hstep⟩
  refine .bind (item_yields hx).attempt fun found y hxy hfound => ?_
  have hcode' : Statements (y.vocabulary none) false code :=
    hcode.mono (Steps.vocabulary_le hxy)
  cases found with
  | ok more => exact .pureBind (hprogress _ y hfound.1 (.append hcode' hfound.2))
  | error e =>
      have hy : y.Idle := hfound
      have hrecover := (recover_yields (x := y.report [e.diagnostic])
        (KindSet.statementBoundary.union .itemStart) (E := fun _ => False)).lift
      refine .report (.bind (hrecover.weaken (fun _ _ _ => id) fun _ _ h => h.2.elim) ?_)
      rintro _ z _ ⟨hyz, _⟩
      have hsteps : InnerSteps y z := .head (.report y _) hyz
      exact .pureBind (hprogress code z (hy.inner hsteps) (hcode'.later hsteps))

theorem items_yields (stream : TokenStream) :
    Yields Step Parse.items (Config.start stream)
      (fun code y => Statements (y.vocabulary none) false code) fun _ => True :=
  .repeatRounds (I := fun code y => y.Idle ∧ Statements (y.vocabulary none) false code)
    (fun _ _ _ _ => trivial) ⟨⟨rfl, Nat.zero_le _⟩, .nil⟩
    fun _ _ _ h => itemRound_yields h.1 h.2

namespace Config

/-- A configuration whose state the parser leaves behind. -/
structure Leaves (x : Config stream) (draft : Draft) : Prop where
  table : draft.table = x.table
  ledger : draft.ledger = x.state.ledger
  pending : draft.pending = x.state.pending
  problems : x.state.problems.items <+: draft.problems.items

end Config

/-- The parser's draft is what a run over the stream leaves behind, and its main
code has the shape of statements with known leaves. -/
theorem TokenStream.reaches_draft (stream : TokenStream) :
    ∃ x : Config stream, Steps (.start stream) x ∧ x.Leaves stream.draft ∧
      Statements (x.vocabulary none) false stream.draft.main := by
  have hitems := items_yields stream
  unfold Yields at hitems
  unfold TokenStream.draft
  have hstart : HasState.state (Config.start stream) = .start stream := rfl
  rw [hstart] at hitems
  cases hr : Parse.items (.start stream) with
  | ok main s =>
      rw [hr] at hitems
      obtain ⟨x, rfl, hsteps, hcode⟩ := hitems
      exact ⟨x, hsteps, ⟨rfl, rfl, rfl, List.prefix_rfl⟩, hcode⟩
  | error e s =>
      rw [hr] at hitems
      obtain ⟨x, rfl, hsteps, _⟩ := hitems
      exact ⟨x, hsteps, ⟨rfl, rfl, rfl, List.prefix_append _ _⟩, .nil⟩

end SslFrontend
