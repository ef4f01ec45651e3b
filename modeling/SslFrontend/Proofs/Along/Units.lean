import SslFrontend.Proofs.Along.Productions
import SslFrontend.Proofs.Run.Growth
import SslFrontend.Proofs.Symbol.Binds

/-! # Along headers, bodies and items

A procedure is read in two parts.  The first one, `Parse.entry`, reads the header
and declares it, and answers with the scope in which the body is read, if there
is a body to read; the second one is the body.  A relation that holds across
whatever is done inside a scope, across a header that is merged or discarded, and
across a body that is attached, holds along every item of a unit.  One such relation
is that the run goes on: it reads forward, adds to the reports and declares, and takes
none of it back.
-/

namespace SslFrontend

namespace Parse

/-- Open a scope for the body of a rejected header, or skip the body. -/
def disown (header : Header) : Parse (Option ScopeId) := do
  match (← table).declareDiscarded header with
  | .ok (scope, table, problems) =>
    setTable table
    reportAll problems
    return some scope
  | .error problem =>
    report problem
    moveCursor Cursor.skipBlock
    return none

/-- The state behind a header whose body is to be read, if it can be. -/
theorem disown_eq (header : Header) (s : ParserState) : disown header s =
    match s.table.declareDiscarded header with
    | .ok (scope, table, problems) => .ok (some scope)
        { s with table := table, problems := ⟨s.problems.items ++ problems⟩ }
    | .error problem => .ok none
        { s with problems := s.problems.push problem, cursor := s.cursor.skipBlock } := by
  have hlook : ∀ k : SymbolTable → Parse (Option ScopeId), (table >>= k) s = k s.table s :=
    fun _ => rfl
  unfold disown
  rw [hlook]
  cases s.table.declareDiscarded header <;> rfl

/-- Do what the verdict on a header says, up to the body. -/
def heed (header : Header) (params : List NumberedParam) (number : Nat) :
    Verdict → Parse (Option ScopeId)
  | .define index => do
    recordAt number (.proc index) header.pos .declaration
    params.forM (recordParam (.proc index))
    return some (.proc index)
  | .announce index => do
    recordAt number (.proc index) header.pos .declaration
    return none
  | .reject named => do
    match named with
    | some index => recordAt number (.proc index) header.pos .declaration
    | none => pure ()
    if header.hasBody then disown header else return none

/-- Declare a header and do what the verdict says, up to the body. -/
def enter (header : Header) (params : List NumberedParam) (number : Nat) :
    Parse (Option ScopeId) := do
  let declared := (← table).declare header
  setTable declared.table
  reportAll declared.problems
  heed header params number declared.verdict

/-- A procedure from its name up to its body. -/
def heading (q : Qualifiers) : Parse (Option ScopeId) := do
  let (name, pos) ← expectIdent
  let number ← reserve
  let params ← parameters
  let trigger ← trigger
  let hasBody := Cursor.opens (← kind)
  if !hasBody then discard <| expect (.mark .semicolon)
  enter ⟨name, pos, q.modifiers, trigger, params.map NumberedParam.param, hasBody⟩ params number

/-- A procedure from its `procedure` up to its body. -/
def entry (q : Qualifiers) : Parse (Option ScopeId) := do
  discard advance
  let (name, pos) ← expectIdent
  let number ← reserve
  let params ← parameters
  let trigger ← trigger
  let hasBody := Cursor.opens (← kind)
  if !hasBody then discard <| expect (.mark .semicolon)
  enter ⟨name, pos, q.modifiers, trigger, params.map NumberedParam.param, hasBody⟩ params number

theorem entry_eq (q : Qualifiers) : entry q = discard advance >>= fun _ => heading q := rfl

/-- The body of a procedure, if it has one to read. -/
def bodyIn : Option ScopeId → Parse Unit
  | some scope => body scope
  | none => pure ()

theorem discardedBody_eq (header : Header) :
    discardedBody header = disown header >>= bodyIn := by
  funext s
  have hlook : ∀ {α : Type} (k : SymbolTable → Parse α), (table >>= k) s = k s.table s :=
    fun _ => rfl
  unfold discardedBody disown
  rw [bind_assoc, hlook, hlook]
  cases s.table.declareDiscarded header <;> rfl

theorem follow_eq (header : Header) (params : List NumberedParam) (number : Nat)
    (verdict : Verdict) :
    follow header params number verdict = heed header params number verdict >>= bodyIn := by
  have hdiscarded : (if header.hasBody then discardedBody header else pure ()) =
      (if header.hasBody then disown header else pure none) >>= bodyIn := by
    split
    · exact discardedBody_eq header
    · rfl
  cases verdict with
  | define index => unfold follow heed; simp only [bind_assoc, pure_bind]; rfl
  | announce index => unfold follow heed; rw [bind_assoc]; rfl
  | reject named =>
      cases named with
      | none => exact hdiscarded
      | some index =>
          unfold follow heed
          simp only [bind_assoc, ← hdiscarded]

theorem procedure_eq (q : Qualifiers) : procedure q = entry q >>= bodyIn := by
  have henter : ∀ (header : Header) (params : List NumberedParam) (number : Nat), (do
      let declared := (← table).declare header
      setTable declared.table
      reportAll declared.problems
      follow header params number declared.verdict) = enter header params number >>= bodyIn := by
    intro header params number
    unfold enter
    simp only [bind_assoc, follow_eq]
  unfold procedure entry
  simp only [bind_assoc, henter]
  refine bind_congr fun _ => bind_congr fun found => ?_
  obtain ⟨name, pos⟩ := found
  refine bind_congr fun number => bind_congr fun params => bind_congr fun trigger =>
    bind_congr fun kind => ?_
  split
  · rw [bind_assoc]
  · rfl

end Parse

/-! ## Relations that hold throughout -/

/-- The relation holds across whatever is done at a time while a unit is read. -/
structure HoldsThroughout (R : ParserState → ParserState → Prop) : Prop where
  inside : ∀ scope, HoldsInside scope R
  reserve : ∀ s, R s { s with ledger := s.ledger.reserve.2 }
  recordAt : ∀ s number symbol pos mention,
    R s { s with ledger := s.ledger.recordAt number symbol pos mention }
  declare : ∀ s header, R s { s with table := (s.table.declare header).table }
  disown : ∀ s {header scope table problems},
    s.table.declareDiscarded header = .ok (scope, table, problems) → R s { s with table := table }
  attach : ∀ s scope start finish code,
    R s { s with table := s.table.modifyScope scope (·.withBody code start finish) }

namespace HoldsThroughout

open Parse (Along)

variable {R : ParserState → ParserState → Prop} (h : HoldsThroughout R)

include h

theorem reserve_along : Along R Parse.reserve := fun s => h.reserve s

theorem recordAt_along (number : Nat) (symbol : Symbol) (pos : Position) (mention : Mention) :
    Along R (Parse.recordAt number symbol pos mention) :=
  fun s => h.recordAt s number symbol pos mention

theorem attachBody_along (scope : ScopeId) (start finish : Position) (code : Code) :
    Along R (Parse.attachBody scope start finish code) :=
  fun s => h.attach s scope start finish code

theorem body_along (scope : ScopeId) : Along R (Parse.body scope) := by
  have hon := h.inside (some scope)
  refine .bind hon hon.pos fun start => .bind hon (hon.openBlock_along ?_) fun found => ?_
  · exact hon.statement_along rfl
  · refine .bind hon hon.cursor fun c => .bind hon (h.attachBody_along _ _ _ _) fun _ => ?_
    cases found.failure with
    | none => exact .pure hon _
    | some e => exact .throw hon e

theorem recordParam_along (scope : ScopeId) (p : Parse.NumberedParam) :
    Along R (Parse.recordParam scope p) := by
  intro s
  have hon := h.inside none
  have hlook : ∀ {k : SymbolTable → Parse Unit}, R s ((k s.table).after s) →
      R s ((Parse.table >>= k).after s) := fun hk => hk
  refine hlook ?_
  cases s.table.lookupLocal scope p.param.name with
  | none => exact hon.refl s
  | some symbol =>
      exact Along.ite (h.recordAt_along p.number symbol p.param.pos .declaration) (.pure hon _) s

theorem forM_along {α : Type} {f : α → Parse PUnit} (hf : ∀ a, Along R (f a)) (l : List α) :
    Along R (l.forM f) := by
  have hon := h.inside none
  induction l with
  | nil => exact .pure hon _
  | cons a rest ih => exact .bind hon (hf a) fun _ => ih

theorem bodyIn_along (scope : Option ScopeId) : Along R (Parse.bodyIn scope) := by
  cases scope with
  | none => exact .pure (h.inside none) _
  | some scope => exact h.body_along scope

theorem disown_along (header : Header) : Along R (Parse.disown header) := by
  intro s
  have hon := h.inside none
  have hlook : ∀ {k : SymbolTable → Parse (Option ScopeId)}, R s ((k s.table).after s) →
      R s ((Parse.table >>= k).after s) := fun hk => hk
  refine hlook ?_
  cases hd : s.table.declareDiscarded header with
  | error problem =>
      refine Along.bind hon (hon.reported problem) (fun _ => ?_) s
      exact .bind hon (hon.moveCursor fun c => c.follows_skipBlock) fun _ => .pure hon _
  | ok found =>
      obtain ⟨scope, table, problems⟩ := found
      have hreport : Along R (Parse.reportAll problems >>= fun _ => pure (some scope)) :=
        .bind hon (hon.reportAll problems) fun _ => .pure hon _
      exact hon.trans (h.disown s hd) (hreport { s with table := table })

theorem discardedBody_along (header : Header) : Along R (Parse.discardedBody header) := by
  rw [Parse.discardedBody_eq]
  exact .bind (h.inside none) (h.disown_along header) h.bodyIn_along

theorem heed_along (header : Header) (params : List Parse.NumberedParam) (number : Nat)
    (verdict : Verdict) : Along R (Parse.heed header params number verdict) := by
  have hon := h.inside none
  cases verdict with
  | define index =>
      exact .bind hon (h.recordAt_along _ _ _ _) fun _ =>
        .bind hon (h.forM_along (h.recordParam_along _) params) fun _ => .pure hon _
  | announce index => exact .bind hon (h.recordAt_along _ _ _ _) fun _ => .pure hon _
  | reject named =>
      cases named with
      | some index =>
          refine .bind hon (h.recordAt_along _ _ _ _) fun _ => ?_
          exact .ite (h.disown_along header) (.pure hon _)
      | none =>
          refine .bind hon (.pure hon _) fun _ => ?_
          exact .ite (h.disown_along header) (.pure hon _)

/-- The verdict on a header is followed. -/
theorem enter_along (header : Header) (params : List Parse.NumberedParam) (number : Nat) :
    Along R (Parse.enter header params number) := by
  intro s
  have hon := h.inside none
  exact hon.trans (h.declare s header) (Along.bind hon (hon.reportAll _)
    (fun _ => h.heed_along header params number _)
    { s with table := (s.table.declare header).table })

theorem heading_along (q : Qualifiers) : Along R (Parse.heading q) := by
  have hon := h.inside none
  refine .bind hon hon.expectIdent fun found => .bind hon h.reserve_along fun number => ?_
  refine .bind hon (hon.parameters_along h.reserve_along) fun params => ?_
  refine .bind hon hon.trigger_along fun trigger => .bind hon hon.kind fun kind => ?_
  exact .ite (.bind hon (.discard (hon.expect _)) fun _ => h.enter_along _ _ _)
    (h.enter_along _ _ _)

theorem entry_along (q : Qualifiers) : Along R (Parse.entry q) :=
  have hon := h.inside none
  .bind hon (.discard hon.advance) fun _ => h.heading_along q

theorem procedure_along (q : Qualifiers) : Along R (Parse.procedure q) := by
  rw [Parse.procedure_eq]
  exact .bind (h.inside none) (h.entry_along q) h.bodyIn_along

theorem item_along : Along R Parse.item := by
  have hon := h.inside none
  refine .bind hon hon.qualifiers_along fun q => .bind hon hon.kind fun kind => ?_
  split
  · exact .bind hon (h.procedure_along q) fun _ => .pure hon _
  · exact hon.variableDeclaration_along rfl q
  · exact .ite (hon.statement_along rfl) (.bind hon hon.cursor fun _ => .throw hon _)

theorem itemRound_along (code : Code) : Along R (Parse.itemRound code) := by
  have hon := h.inside none
  have hlast : ∀ (c : Cursor) (code : Code), Along R (do
      if (← Parse.cursor).position = c.position then discard Parse.advance
      return .inl code : Parse (Code ⊕ Code)) := fun c code =>
    .bind hon hon.cursor fun _ =>
      .ite (.bind hon (.discard hon.advance) fun _ => .pure hon _) (.pure hon _)
  refine .bind hon hon.cursor fun c => .ite (.pure hon _) ?_
  refine .bind hon h.item_along.attempt fun found => ?_
  cases found with
  | ok more => exact hlast c _
  | error e =>
      exact .bind hon (hon.reported _) fun _ => .bind hon (hon.recover_along _) fun _ => hlast c _

theorem items_along : Along R Parse.items :=
  .repeatRounds (h.inside none) h.itemRound_along []

end HoldsThroughout

/-- The table of a draft is the one that reading all items leaves. -/
theorem TokenStream.draft_table (stream : TokenStream) :
    stream.draft.table = (Parse.items.after (.start stream)).table := by
  unfold TokenStream.draft Parse.after
  cases Parse.items (.start stream) <;> rfl

/-! ## Going on -/

/-- A production reads on, reports and declares; it takes nothing back. -/
structure ParserState.Onward (s s' : ParserState) : Prop where
  cursor : s.cursor.Follows s'.cursor
  problems : s.problems.items <+: s'.problems.items
  table : s.table.Extends (fun _ => False) s'.table

theorem ParserState.Onward.refl (s : ParserState) : s.Onward s :=
  ⟨.refl _, List.prefix_rfl, .refl _⟩

theorem ParserState.Onward.trans {s t u : ParserState} (h₁ : s.Onward t) (h₂ : t.Onward u) :
    s.Onward u :=
  ⟨h₁.cursor.trans h₂.cursor, h₁.problems.trans h₂.problems, h₁.table.trans h₂.table⟩

theorem ParserState.Onward.inside (scope : Option ScopeId) :
    HoldsInside scope ParserState.Onward where
  refl := .refl
  trans := .trans
  move s _ h := ⟨h, List.prefix_rfl, .refl _⟩
  report s ds := ⟨.refl _, List.prefix_append _ _, .refl _⟩
  intern s _ _ _ h := ⟨.refl _, List.prefix_rfl, SymbolTable.extends_strings (Pool.intern_spec h).1⟩
  adjust _ s _ _ _ hf := ⟨.refl _, List.prefix_rfl, SymbolTable.extends_modifyVariable hf.label⟩
  mention s name _ := by
    refine ⟨?_, ?_, ?_⟩
    · rw [ParserState.mentioned_cursor]
      exact s.cursor.follows_advance
    · simp only [ParserState.mentioned_problems, List.prefix_rfl]
    · rw [ParserState.mentioned_table]
      exact .refl _
  declare _ s _ _ _ _ _ h :=
    ⟨s.cursor.follows_advance, List.prefix_rfl,
      (SymbolTable.declareIn_grows h).weaken fun _ h => h.elim⟩

theorem ParserState.Onward.throughout : HoldsThroughout ParserState.Onward where
  inside := ParserState.Onward.inside
  reserve _ := ⟨.refl _, List.prefix_rfl, .refl _⟩
  recordAt _ _ _ _ _ := ⟨.refl _, List.prefix_rfl, .refl _⟩
  declare s header := ⟨.refl _, List.prefix_rfl,
    (SymbolTable.declare_spec s.table header).extends.weaken fun _ h => h.elim⟩
  disown _ _ _ _ _ h := ⟨.refl _, List.prefix_rfl,
    (SymbolTable.declareDiscarded_grows h).1.weaken fun _ _ => trivial⟩
  attach _ _ _ _ _ := ⟨.refl _, List.prefix_rfl,
    SymbolTable.extends_modifyScope (fun _ _ => rfl) fun hfalse => hfalse.elim⟩

/-- What follows the name of a variable, whatever the name stands for. -/
theorem ParserState.Onward.declaredItem_along (context : Context) (kind : VarScope)
    (name : String) (pos : Position) (declared : Option Symbol) :
    Parse.Along ParserState.Onward (do
      let length ← Parse.arrayLength
      let init ← Parse.initializer context.scope
      match declared with
      | none => return []
      | some symbol =>
        Parse.modifyVariable symbol fun v => { v with arrayLength := length }
        match init with
        | none => return []
        | some (code, start) =>
          Parse.setInitial symbol kind length name pos code start : Parse Code) :=
  fun _ => (inside context.scope).declaredItem_at rfl kind name pos declared
    (fun _ _ _ _ => ⟨.refl _, List.prefix_rfl, SymbolTable.extends_modifyVariable fun _ => rfl⟩)
    fun _ _ _ _ _ _ hlabel _ =>
      ⟨.refl _, List.prefix_rfl, SymbolTable.extends_modifyVariable hlabel⟩

end SslFrontend
